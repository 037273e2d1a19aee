import Theft.RandomStream

/-!
# The representation invariant of a bit pool

* `BitPool.Inv` is kept by every read;
* `lazilyFillBitPool_spec`: filling appends generator outputs and changes no bit that
  was already there;
* `bitPoolRandom_spec`: a request either stops because memory ran out, which only a pool
  that still grows can do, or returns exactly the next bits of the pool, cut short at
  the limit.
-/

namespace Theft

open PackedBits

/-- What holds of every pool, from its allocation on. -/
structure BitPool.Inv (pool : BitPool) : Prop where
  bytes : 8 * pool.bits.length = pool.bitsCeil
  ceil_aligned : pool.bitsCeil % 64 = 0
  ceil_le : pool.bitsCeil ≤ maxBits
  filled_le_ceil : pool.bitsFilled ≤ pool.bitsCeil
  filled_aligned : pool.bitsFilled % 8 = 0
  consumed_le_filled : pool.consumed ≤ pool.bitsFilled
  consumed_le_limit : pool.consumed ≤ pool.limit
  requests_sum : pool.requests.sum = pool.consumed
  requests_range : ∀ r ∈ pool.requests, 1 ≤ r ∧ r < 2 ^ 32
  requestCount_le : pool.requestCount ≤ pool.requestCeil
  requestCeil_pos : 0 < pool.requestCeil
  /-- A pool that is only read from has no bits to give past its last byte. -/
  shrinking : pool.shrinking = true → pool.limit ≤ pool.bitsFilled
  /-- A pool that is being filled is filled by whole words. -/
  filling : pool.shrinking = false → pool.bitsFilled % 64 = 0

theorem allocBitPool_inv {id size limit requestCeil : Nat} {pool : BitPool}
    (h : allocBitPool id size limit requestCeil = some pool) (hpos : 0 < requestCeil) :
    pool.Inv ∧ pool.bitsFilled = 0 ∧ pool.consumed = 0 ∧ pool.requests = [] ∧
      pool.index = none ∧ pool.shrinking = false ∧ pool.limit = limit ∧
      pool.requestCeil = requestCeil ∧ pool.bitsCeil = getAlignedSize size 64 := by
  have haligned : getAlignedSize size 64 % 64 = 0 := by
    unfold getAlignedSize
    split <;> omega
  simp only [allocBitPool] at h
  split at h
  · rename_i hle
    simp only [Option.some.injEq] at h
    subst h
    refine ⟨⟨?_, haligned, hle, Nat.zero_le _, rfl, Nat.le_refl _, Nat.zero_le _, rfl,
      by simp, Nat.zero_le _, hpos, by simp, fun _ => rfl⟩, rfl, rfl, rfl, rfl, rfl, rfl, rfl, rfl⟩
    simp only [List.length_replicate]
    omega
  · cases h

/-! ## Reading what is filled -/

namespace BitPool

/-- The pool after `n` of its bits have been handed out and recorded as one request. -/
def record (pool : BitPool) (n : Nat) : BitPool :=
  { pool with
    consumed := pool.consumed + n
    requests := pool.requests ++ [n]
    requestCeil :=
      if pool.requestCount = pool.requestCeil then pool.requestCeil * 2 else pool.requestCeil }

/-- How many of `n` requested bits the pool still has before its limit. -/
def granted (pool : BitPool) (n : Nat) : Nat := min n (pool.limit - pool.consumed)

/-- The pool after a request for `n` bits: past the limit nothing is recorded. -/
def afterRead (pool : BitPool) (n : Nat) : BitPool :=
  if pool.consumed = pool.limit then pool else pool.record (pool.granted n)

theorem afterRead_consumed {pool : BitPool} (inv : pool.Inv) (n : Nat) :
    (pool.afterRead n).consumed = min (pool.consumed + n) pool.limit := by
  have hle := inv.consumed_le_limit
  unfold afterRead
  split
  · omega
  · simp only [record, granted]
    omega

@[simp] theorem afterRead_bits (pool : BitPool) (n : Nat) :
    (pool.afterRead n).bits = pool.bits := by
  unfold afterRead
  split <;> rfl

@[simp] theorem afterRead_limit (pool : BitPool) (n : Nat) :
    (pool.afterRead n).limit = pool.limit := by
  unfold afterRead
  split <;> rfl

@[simp] theorem afterRead_shrinking (pool : BitPool) (n : Nat) :
    (pool.afterRead n).shrinking = pool.shrinking := by
  unfold afterRead
  split <;> rfl

@[simp] theorem afterRead_bitsFilled (pool : BitPool) (n : Nat) :
    (pool.afterRead n).bitsFilled = pool.bitsFilled := by
  unfold afterRead
  split <;> rfl

theorem afterRead_inv {pool : BitPool} (inv : pool.Inv) {n : Nat} (hn : 0 < n)
    (hn32 : n < 2 ^ 32) (hfilled : pool.consumed + pool.granted n ≤ pool.bitsFilled) :
    (pool.afterRead n).Inv := by
  unfold afterRead
  split
  · exact inv
  · rename_i hne
    have hle := inv.consumed_le_limit
    have hpos : 1 ≤ pool.granted n ∧ pool.granted n < 2 ^ 32 := by
      unfold granted
      omega
    refine { inv with
      consumed_le_filled := hfilled, consumed_le_limit := ?_, requests_sum := ?_,
      requests_range := ?_, requestCount_le := ?_, requestCeil_pos := ?_ }
    · simp only [record, granted]
      omega
    · simp only [record, List.sum_append, inv.requests_sum, List.sum_singleton]
    · intro r hr
      simp only [record, List.mem_append, List.mem_singleton] at hr
      cases hr with
      | inl hr => exact inv.requests_range r hr
      | inr hr => exact hr ▸ hpos
    · have hcount := inv.requestCount_le
      have hcpos := inv.requestCeil_pos
      simp only [record, requestCount, List.length_append, List.length_singleton] at hcount ⊢
      by_cases hfull : pool.requests.length = pool.requestCeil
      · rw [if_pos hfull]; omega
      · rw [if_neg hfull]; omega
    · have hcpos := inv.requestCeil_pos
      simp only [record]
      by_cases hfull : pool.requestCount = pool.requestCeil
      · rw [if_pos hfull]; omega
      · rw [if_neg hfull]; exact hcpos

end BitPool

theorem appendRequest_eq {pool : BitPool} (inv : pool.Inv) (n : Nat) :
    appendRequest pool n = .ok { pool.record n with consumed := pool.consumed } := by
  have hcount := inv.requestCount_le
  have hcpos := inv.requestCeil_pos
  simp only [BitPool.requestCount] at hcount
  by_cases hfull : pool.requests.length = pool.requestCeil
  · have hroom : pool.requestCeil < pool.requestCeil * 2 := by omega
    simp [appendRequest, BitPool.requestCount, BitPool.record, hfull, hroom]
  · have hroom : pool.requests.length < pool.requestCeil := by omega
    simp [appendRequest, BitPool.requestCount, BitPool.record, hfull, hroom]

/-- A read from what is filled, into a buffer of any contents. -/
theorem readBitPool_spec {pool : BitPool} (inv : pool.Inv) {n : Nat} (hn : 0 < n)
    (hfilled : pool.consumed + pool.granted n ≤ pool.bitsFilled) {buf : List Word}
    (hbuf : wordCount n ≤ buf.length) :
    ∃ buf', readBitPool pool n true buf = .ok (pool.afterRead n, buf') ∧
      buf'.length = buf.length ∧
      ∀ i, bitAt buf' i =
        if pool.consumed = pool.limit then bitAt buf i && decide (8 * wordCount n ≤ i)
        else if i < pool.granted n then bitAt pool.bits (pool.consumed + i)
        else if i < 64 * wordCount (pool.granted n) then false else bitAt buf i := by
  by_cases hend : pool.consumed = pool.limit
  · refine ⟨pack 64 buf.length fun i => bitAt buf i && decide (8 * wordCount n ≤ i), ?_,
      length_pack _ _, fun i => ?_⟩
    · rw [readBitPool, if_pos hend, memsetZero, if_pos (by omega), BitPool.afterRead, if_pos hend]
      rfl
    · rw [if_pos hend, bitAt_pack (by decide)]
      by_cases hi : i < 64 * buf.length
      · simp [hi]
      · rw [bitAt_of_le (by decide) (by omega)]
        simp
  · have hle := inv.consumed_le_limit
    have hcut : (if pool.limit ≤ pool.consumed + n then pool.limit - pool.consumed else n) =
        pool.granted n := by
      unfold BitPool.granted
      split <;> omega
    have hgn : pool.granted n ≤ n := Nat.min_le_left _ _
    have hgpos : 0 < pool.granted n := by
      unfold BitPool.granted
      omega
    have hwords : wordCount (pool.granted n) ≤ wordCount n := by
      rw [wordCount_eq, wordCount_eq]
      omega
    have hbytes := inv.bytes
    have hceil := inv.filled_le_ceil
    have haligned := inv.ceil_aligned
    obtain ⟨buf', hrun, hlen, hbits⟩ := fillBuf_spec
      { pool.record (pool.granted n) with consumed := pool.consumed } buf hgpos
      (by simp only [BitPool.record]; omega) (by simp only [BitPool.record]; omega) (by omega)
    refine ⟨buf', ?_, hlen, fun i => ?_⟩
    · rw [readBitPool, if_neg hend]
      simp only [hcut, if_true, appendRequest_eq inv, hrun, BitPool.afterRead, if_neg hend]
      rfl
    · rw [if_neg hend]
      exact hbits i

/-! ## Filling from the generator -/

section
variable {R : Type} [Platform R]

/-- The bits of a pool that can be filled further: what is there, then generator outputs. -/
def fillStream (rng : R) (pool : BitPool) (i : Nat) : Bool :=
  if i < pool.bitsFilled then bitAt pool.bits i else rngBits rng (i - pool.bitsFilled)

theorem reallocBits_spec {bits bits' : List Byte} {bytes : Nat}
    (h : reallocBits R bits bytes = some bits') :
    bits'.length = bytes ∧ 8 * bytes ≤ maxBits ∧
      (bits.length ≤ bytes → ∀ i < 8 * bits.length, bitAt bits' i = bitAt bits i) := by
  unfold reallocBits at h
  split at h
  · rename_i hok
    simp only [Option.some.injEq] at h
    subst h
    refine ⟨by simp; omega, hok.2, fun hle i hi => ?_⟩
    have hlen : (bits ++ (List.range (bytes - bits.length)).map (Platform.uninit R)).length =
        bytes := by simp; omega
    rw [List.take_of_length_le (by omega), bitAt_append_left (by decide) _ _ hi]
  · cases h

/-- The pool keeps its filled bits when its buffer grows; only memory can stop it. -/
theorem growBits_spec (need : Nat) : ∀ fuel (pool : BitPool), pool.Inv →
    2 ^ 64 ≤ pool.bitsCeil * 2 ^ fuel ∨ (pool.bitsCeil = 0 ∧ 0 < fuel) →
    growBits R fuel pool need = .error .allocation ∨
    ∃ bits ceil, growBits R fuel pool need = .ok { pool with bits := bits, bitsCeil := ceil } ∧
      need ≤ ceil ∧ { pool with bits := bits, bitsCeil := ceil }.Inv ∧
      ∀ i < pool.bitsFilled, bitAt bits i = bitAt pool.bits i := by
  intro fuel
  induction fuel with
  | zero =>
    intro pool inv hfuel
    have hle := inv.ceil_le
    unfold maxBits at hle
    omega
  | succ fuel ih =>
    intro pool inv hfuel
    by_cases hneed : pool.bitsCeil < need
    · cases hre : reallocBits R pool.bits (2 * pool.bitsCeil / 8) with
      | none =>
        left
        simp only [growBits, if_pos hneed, hre]
      | some bits =>
        obtain ⟨hlen, hmax, hkeep⟩ := reallocBits_spec hre
        have hbytes := inv.bytes
        have haligned := inv.ceil_aligned
        have hfilled := inv.filled_le_ceil
        have hpos : 0 < pool.bitsCeil := by
          unfold reallocBits at hre
          split at hre
          · rename_i hok; omega
          · cases hre
        have hold : ∀ i < pool.bitsFilled, bitAt bits i = bitAt pool.bits i :=
          fun i hi => hkeep (by omega) i (by omega)
        have inv' : { pool with bits := bits, bitsCeil := 2 * pool.bitsCeil }.Inv :=
          { inv with
            bytes := by simp only; omega
            ceil_aligned := by simp only; omega
            ceil_le := by simp only; omega
            filled_le_ceil := by simp only; omega }
        have hfuel' : 2 ^ 64 ≤ 2 * pool.bitsCeil * 2 ^ fuel := by
          have hpow : pool.bitsCeil * 2 ^ (fuel + 1) = 2 * pool.bitsCeil * 2 ^ fuel := by
            rw [Nat.pow_succ, Nat.mul_comm (2 ^ fuel), ← Nat.mul_assoc, Nat.mul_comm 2]
          omega
        have hstep : growBits R (fuel + 1) pool need =
            growBits R fuel { pool with bits := bits, bitsCeil := 2 * pool.bitsCeil } need := by
          simp only [growBits, if_pos hneed, hre]
        rw [hstep]
        rcases ih _ inv' (Or.inl hfuel') with herr | ⟨bits', ceil, hrun, hle, hinv, hkeep'⟩
        · exact Or.inl herr
        · exact Or.inr ⟨bits', ceil, hrun, hle, hinv, fun i hi => (hkeep' i hi).trans (hold i hi)⟩
    · right
      exact ⟨pool.bits, pool.bitsCeil, by rw [growBits, if_neg hneed], by omega, inv,
        fun _ _ => rfl⟩

/-- Filling appends whole generator outputs and changes no filled bit. -/
theorem fillWords_spec (need : Nat) : ∀ fuel (rng : R) (pool : BitPool), pool.Inv →
    pool.shrinking = false → need ≤ pool.bitsCeil → need - pool.bitsFilled < fuel →
    ∃ rng' bits filled, fillWords fuel rng pool need =
        .ok (rng', { pool with bits := bits, bitsFilled := filled }) ∧
      need ≤ filled ∧ { pool with bits := bits, bitsFilled := filled }.Inv ∧
      fillStream rng' { pool with bits := bits, bitsFilled := filled } = fillStream rng pool := by
  intro fuel
  induction fuel with
  | zero =>
    intro rng pool inv hsh hceil hfuel
    omega
  | succ fuel ih =>
    intro rng pool inv hsh hceil hfuel
    by_cases hneed : pool.bitsFilled < need
    · have hbytes := inv.bytes
      have haligned := inv.ceil_aligned
      have hfaligned := inv.filling hsh
      obtain ⟨bits, hset, hlen, hbits⟩ := setWord_eq_some
        pool.bits (pool.bitsFilled / 64) (by omega) (Platform.rngRandom rng).1
      have inv' : { pool with bits := bits, bitsFilled := pool.bitsFilled + 64 }.Inv :=
        { inv with
          bytes := by simp only; omega
          filled_le_ceil := by simp only; omega
          filled_aligned := by simp only; omega
          consumed_le_filled := Nat.le_trans inv.consumed_le_filled (Nat.le_add_right _ _)
          shrinking := fun h => absurd h (by simp [hsh])
          filling := fun _ => by simp only; omega }
      have hstream : fillStream (Platform.rngRandom rng).2
          { pool with bits := bits, bitsFilled := pool.bitsFilled + 64 } =
          fillStream rng pool := by
        funext i
        simp only [fillStream, hbits]
        by_cases h₁ : i < pool.bitsFilled
        · have h₂ : i < pool.bitsFilled + 64 := by omega
          have h₃ : i / 64 ≠ pool.bitsFilled / 64 := by omega
          simp only [h₁, h₂, h₃, if_true, if_false]
        · by_cases h₂ : i < pool.bitsFilled + 64
          · have h₃ : i / 64 = pool.bitsFilled / 64 := by omega
            have h₄ : i % 64 = i - pool.bitsFilled := by omega
            rw [if_pos h₂, if_pos h₃, if_neg h₁, rngBits_of_lt _ (by omega), h₄]
          · obtain ⟨j, rfl⟩ : ∃ j, i = pool.bitsFilled + (j + 64) :=
              ⟨i - pool.bitsFilled - 64, by omega⟩
            have h₃ : pool.bitsFilled + (j + 64) - (pool.bitsFilled + 64) = j := by omega
            rw [if_neg h₂, if_neg h₁, h₃, Nat.add_sub_cancel_left, rngBits_add]
      have hoff : pool.bitsFilled / 64 * 64 < pool.bitsCeil := by omega
      have hstep : fillWords (fuel + 1) rng pool need = fillWords fuel (Platform.rngRandom rng).2
          { pool with bits := bits, bitsFilled := pool.bitsFilled + 64 } need := by
        simp only [fillWords, if_pos hneed, if_pos hoff, hset]
      rw [hstep]
      obtain ⟨rng', bits', filled, hrun, hle, hinv, hs⟩ :=
        ih (Platform.rngRandom rng).2 _ inv' hsh hceil (by simp only; omega)
      exact ⟨rng', bits', filled, hrun, hle, hinv, hs.trans hstream⟩
    · exact ⟨rng, pool.bits, pool.bitsFilled, by rw [fillWords, if_neg hneed], by omega, inv, rfl⟩

theorem lazilyFillBitPool_spec (rng : R) {pool : BitPool} (inv : pool.Inv)
    (hsh : pool.shrinking = false) (n : Nat) :
    lazilyFillBitPool rng pool n = .error .allocation ∨
    ∃ rng' bits filled ceil, lazilyFillBitPool rng pool n =
        .ok (rng', { pool with bits := bits, bitsFilled := filled, bitsCeil := ceil }) ∧
      pool.consumed + n ≤ filled ∧
      { pool with bits := bits, bitsFilled := filled, bitsCeil := ceil }.Inv ∧
      fillStream rng' { pool with bits := bits, bitsFilled := filled, bitsCeil := ceil } =
        fillStream rng pool := by
  have hceil : 2 ^ 64 ≤ pool.bitsCeil * 2 ^ 64 ∨ (pool.bitsCeil = 0 ∧ 0 < 64) := by
    rcases Nat.eq_zero_or_pos pool.bitsCeil with h0 | hpos
    · exact Or.inr ⟨h0, by decide⟩
    · exact Or.inl (Nat.le_mul_of_pos_left _ hpos)
  rcases growBits_spec (R := R) (pool.consumed + n) 64 pool inv hceil with
    herr | ⟨bits, ceil, hgrow, hle, inv', hkeep⟩
  · exact Or.inl (by rw [lazilyFillBitPool, herr])
  · obtain ⟨rng', bits', filled, hfill, hle', inv'', hs⟩ := fillWords_spec
      (pool.consumed + n) (n + 1) rng _ inv' hsh hle
      (by have := inv.consumed_le_filled; simp only; omega)
    refine Or.inr ⟨rng', bits', filled, ceil, by rw [lazilyFillBitPool, hgrow]; exact hfill, hle',
      inv'', hs.trans ?_⟩
    funext i
    unfold fillStream
    by_cases hi : i < pool.bitsFilled
    · simp only [hi, if_true, hkeep i hi]
    · simp only [hi, if_false]

end

end Theft
