import Theft.DropSelection
import Mathlib.Data.List.DropRight

/-!
# What truncation keeps

`truncate_trailing_zero_bytes` cuts the bytes at the end of a copy that are 0 and moves the limit
inside what is left. A request past the limit should be answered with zeroes, so nothing should
change:

* `Altered`: the copies that `drop_from_bit_pool` and `mutate_bit_pool` leave;
* `readAll_spec`: what a sequence of requests is answered, bit by bit;
* `truncation_keeps_meaning_iff`: the answers are what the copy meant before it was cut, except
  for the words of the caller's buffers that a request at the end does not clear.
-/

namespace Theft

open PackedBits Exec

/-! ## What a copy means -/

/-- Its bits up to the limit, and zeroes forever. -/
def BitPool.meaning (pool : BitPool) (i : Nat) : Bool :=
  decide (i < min pool.limit pool.bitsFilled) && bitAt pool.bits i

/-- How many bits can be read when the zero bytes at the end are cut. -/
def BitPool.usable (pool : BitPool) : Nat :=
  min pool.limit
    (8 * ((pool.bits.take (byteCount pool.bitsFilled)).rdropWhile (· == 0)).length)

/-- A copy as `drop_from_bit_pool` or `mutate_bit_pool` leaves it. -/
inductive Altered (R : Type) [Platform R] : BitPool → Prop
  | dropped {s s' : AutoState R} {orig empty copy : BitPool} {dropCount : Nat} (hs : s.Ready)
      (ho : Source orig) (hempty : Fresh orig.bitsFilled empty)
      (hzero : ∀ i, bitAt empty.bits i = false)
      (h : dropFromBitPool orig empty s = .ok (copy, dropCount) s') : Altered R copy
  | mutated {s s' : AutoState R} {fuel : Nat} {orig empty copy : BitPool} (hs : s.Ready)
      (ho : Source orig) (hempty : Fresh orig.bitsFilled empty)
      (h : mutateBitPool fuel orig empty s = .ok copy s') : Altered R copy

/-! ## Reading in shrinking mode -/

section
variable {R : Type} [Platform R]

/-- A sequence of requests, each with the buffer it is read into. -/
def readAll (rng : R) : BitPool → List (Nat × List Word) → Except Stop (List (List Word))
  | _, [] => .ok []
  | pool, (n, buf) :: rest =>
    match bitPoolRandom rng pool n true buf with
    | .error e => .error e
    | .ok (rng, pool, buf) => (readAll rng pool rest).map (buf :: ·)

end

/-- The requested bits are those from an offset on. -/
def Delivers (bits : Nat → Bool) : Nat → List (Nat × List Word) → List (List Word) → Prop
  | _, [], [] => True
  | offset, (n, _) :: rest, buf :: bufs =>
    (∀ i < n, bitAt buf i = bits (offset + i)) ∧ Delivers bits (offset + n) rest bufs
  | _, _, _ => False

/-- From which bit on a request for `n` bits leaves its buffer as it was, when the pool has
`left` bits: at the end `memset` clears a byte for each word, and before it only the words that
are written to are cleared. -/
def staleFrom (left n : Nat) : Nat :=
  if left = 0 then 8 * wordCount n else 64 * wordCount (min n left)

/-- No requested bit that is left as it was is set. -/
def CleanBuffers : Nat → List (Nat × List Word) → Prop
  | _, [] => True
  | left, (n, buf) :: rest =>
    (∀ i < n, staleFrom left n ≤ i → bitAt buf i = false) ∧ CleanBuffers (left - n) rest

section
variable {R : Type} [Platform R]

/-- One request, at `offset` in the sequence of bits. -/
theorem bitPoolRandom_shrinking (rng : R) {pool : BitPool} (inv : pool.Inv)
    (hshrinking : pool.shrinking = true) {offset : Nat}
    (hoffset : pool.consumed = min offset pool.limit) {n : Nat} (hn : n < 2 ^ 32)
    {buf : List Word} (hbuf : wordCount n ≤ buf.length) :
    ∃ pool' buf', bitPoolRandom rng pool n true buf = .ok (rng, pool', buf') ∧ pool'.Inv ∧
      pool'.shrinking = true ∧ pool'.limit = pool.limit ∧ pool'.bits = pool.bits ∧
      pool'.consumed = min (offset + n) pool.limit ∧
      ((∀ i < n, bitAt buf' i =
          (decide (offset + i < pool.limit) && bitAt pool.bits (offset + i))) ↔
        ∀ i < n, staleFrom (pool.limit - offset) n ≤ i → bitAt buf i = false) := by
  have hlimit := inv.shrinking hshrinking
  have hle := inv.consumed_le_limit
  rcases Nat.eq_zero_or_pos n with rfl | hpos
  · refine ⟨pool, buf, by rw [bitPoolRandom, if_pos rfl], inv, hshrinking, rfl, rfl, hoffset, ?_⟩
    simp
  · have hgranted : pool.granted n = min n (pool.limit - pool.consumed) := rfl
    have hfilled : pool.consumed + pool.granted n ≤ pool.bitsFilled := by omega
    obtain ⟨buf', hread, -, hbits⟩ := readBitPool_spec inv hpos hfilled hbuf
    refine ⟨pool.afterRead n, buf', ?_, BitPool.afterRead_inv inv hpos hn hfilled, by simp [*],
      by simp, by simp, ?_, ?_⟩
    · rw [bitPoolRandom, if_neg (by omega), hshrinking, if_pos rfl]
      simp only [hread]
      rfl
    · rw [BitPool.afterRead_consumed inv]
      omega
    · refine forall₂_congr fun i hi => ?_
      rw [hbits i]
      by_cases hend : pool.consumed = pool.limit
      · -- the pool has ended: zeroes are due, and only some bytes are cleared
        have hleft : pool.limit - offset = 0 := by omega
        have hpast : decide (offset + i < pool.limit) = false := decide_eq_false (by omega)
        rw [if_pos hend, hpast, Bool.false_and, staleFrom, if_pos hleft]
        by_cases hstale : 8 * wordCount n ≤ i
        · simp [hstale]
        · simp [hstale]
      · have hat : pool.consumed = offset := by omega
        have hleft : pool.limit - offset ≠ 0 := by omega
        have hmin : min n (pool.limit - offset) = pool.granted n := by omega
        have hroom := le_wordCount (pool.granted n)
        rw [if_neg hend, staleFrom, if_neg hleft, hmin, hat]
        by_cases hgiven : i < pool.granted n
        · rw [if_pos hgiven, decide_eq_true (by omega), Bool.true_and]
          simp only [true_iff]
          omega
        · rw [if_neg hgiven, decide_eq_false (by omega), Bool.false_and]
          by_cases hcleared : i < 64 * wordCount (pool.granted n)
          · rw [if_pos hcleared]
            simp only [true_iff]
            omega
          · rw [if_neg hcleared]
            simp [Nat.le_of_not_lt hcleared]

/-- **A sequence of requests in shrinking mode.** It is answered, and with the bits of the pool
just when what is left of the buffers is clean. -/
theorem readAll_spec (rng : R) (requests : List (Nat × List Word)) :
    ∀ {pool : BitPool} {offset : Nat}, pool.Inv → pool.shrinking = true →
      pool.consumed = min offset pool.limit →
      (∀ r ∈ requests, r.1 < 2 ^ 32 ∧ wordCount r.1 ≤ r.2.length) →
      ∃ out, readAll rng pool requests = .ok out ∧
        (Delivers (fun i => decide (i < pool.limit) && bitAt pool.bits i) offset requests out ↔
          CleanBuffers (pool.limit - offset) requests) := by
  induction requests with
  | nil =>
    intro pool offset _ _ _ _
    exact ⟨[], rfl, Iff.rfl⟩
  | cons r rest ih =>
    obtain ⟨n, buf⟩ := r
    intro pool offset inv hshrinking hoffset hrequests
    obtain ⟨hn, hbuf⟩ := hrequests _ List.mem_cons_self
    obtain ⟨pool', buf', hrun, inv', hshrinking', hlimit, hbits, hconsumed, hiff⟩ :=
      bitPoolRandom_shrinking rng inv hshrinking hoffset hn hbuf
    obtain ⟨out, hrest, hiff'⟩ := ih inv' hshrinking' (hlimit ▸ hconsumed) fun r hr =>
      hrequests r (List.mem_cons_of_mem _ hr)
    refine ⟨buf' :: out, ?_, ?_⟩
    · rw [readAll, hrun]
      simp only [hrest]
      rfl
    · rw [hlimit, hbits, Nat.sub_add_eq] at hiff'
      rw [Delivers, CleanBuffers, hiff, hiff']

/-! ## The copy and what is cut -/

omit [Platform R] in
theorem trimmedBytes_eq (bits : List Byte) (n : Nat) : n ≤ bits.length →
    trimmedBytes bits n = .ok ((bits.take n).rdropWhile (· == 0)).length := by
  induction n with
  | zero => intro _; rfl
  | succ n ih =>
    intro h
    have hlt : n < bits.length := h
    rw [trimmedBytes, List.getElem?_eq_getElem hlt, List.take_succ_eq_append_getElem hlt]
    by_cases hb : bits[n] = 0
    · have hzero : (bits[n] == 0) = true := beq_iff_eq.mpr hb
      rw [List.rdropWhile_concat, if_pos hzero, ← ih (Nat.le_of_lt hlt)]
      simp only [hb, ne_eq, not_true_eq_false, if_false]
    · have hset : ¬ (bits[n] == 0) = true := fun h => hb (beq_iff_eq.mp h)
      rw [List.rdropWhile_concat, if_neg hset, List.length_append, List.length_take,
        Nat.min_eq_left (Nat.le_of_lt hlt)]
      simp only [ne_eq, hb, not_false_eq_true, if_true, List.length_singleton]

/-- What is known of an altered copy: nothing was read from it, and the last byte is padded with
zeroes. -/
theorem Altered.padded {copy : BitPool} (h : Altered R copy) :
    ∃ filled, filled % 8 = 0 ∧ Fresh filled copy ∧
      ∀ i, copy.bitsFilled ≤ i → i < 8 * byteCount copy.bitsFilled →
        bitAt copy.bits i = false := by
  cases h with
  | @dropped s s' orig empty copy dropCount hs ho hempty hzero h =>
    refine ⟨orig.bitsFilled, ho.inv.filled_aligned, ?_, fun i hi _ => ?_⟩
    · exact ((dropFromBitPool_safe hs.dropBits ho hempty hzero).returned hs.within h).2.1
    · obtain ⟨copy', _, _, hcount, hbits, -, -, hrun⟩ :=
        dropFromBitPool_run hs.prng hs.noPool hs.dropBits ho.inv hempty hzero rfl
      have hle : orig.consumed ≤ 8 * orig.bits.length := by
        have hfilled := ho.inv.consumed_le_filled
        have hceil := ho.inv.filled_le_ceil
        rw [ho.inv.bytes]
        omega
      have hsame := (hrun orig.bits hle fun _ _ => rfl).symm.trans h
      cases hsame
      rw [hcount] at hi
      rw [hbits, List.getD_eq_getElem?_getD, List.getElem?_eq_none hi, Option.getD_none]
  | @mutated s s' fuel orig empty copy hs ho hempty h =>
    obtain ⟨-, hfresh, hfilled, -⟩ :=
      (mutateBitPool_safe s fuel ho hempty).returned hs.within h
    have haligned := ho.inv.filled_aligned
    refine ⟨orig.bitsFilled, haligned, hfresh, fun i hi hlt => ?_⟩
    rw [byteCount_eq] at hlt
    omega

/-- **The answers after truncation are what the copy meant before**, just when no request at the
end leaves a set bit in its buffer. -/
theorem truncation_keeps_meaning_iff (rng : R) {copy : BitPool} (h : Altered R copy)
    {requests : List (Nat × List Word)}
    (hrequests : ∀ r ∈ requests, r.1 < 2 ^ 32 ∧ wordCount r.1 ≤ r.2.length) :
    ∃ pool out, truncateTrailingZeroBytes copy = .ok pool ∧ pool.limit ≤ pool.bitsFilled ∧
      readAll rng (pool.setShrinking true) requests = .ok out ∧
      (Delivers copy.meaning 0 requests out ↔ CleanBuffers copy.usable requests) := by
  obtain ⟨filled, haligned, hfresh, hpadded⟩ := h.padded
  obtain ⟨m, htruncate, hcut, hzero⟩ := hfresh.truncate haligned
  have hbytes := hfresh.bytes
  have hroom := hfresh.room
  have hle := hfresh.filled_le
  have hcount := byteCount_eq copy.bitsFilled
  have hm : ((copy.bits.take (byteCount copy.bitsFilled)).rdropWhile (· == 0)).length = m := by
    rw [truncateTrailingZeroBytes, trimmedBytes_eq _ _ (by omega)] at htruncate
    have h8 := congrArg BitPool.bitsFilled (Except.ok.inj htruncate)
    exact Nat.eq_of_mul_eq_mul_left (by decide : 0 < 8) h8
  have hmle : m ≤ byteCount copy.bitsFilled := by
    have hprefix := (List.rdropWhile_prefix (· == 0)
      (copy.bits.take (byteCount copy.bitsFilled))).length_le
    rw [hm, List.length_take] at hprefix
    omega
  have hmeaning : copy.meaning =
      fun i => decide (i < min copy.limit (8 * m)) && bitAt copy.bits i := by
    funext i
    unfold BitPool.meaning
    by_cases hin : i < min copy.bitsFilled (8 * m)
    · have hiff : i < min copy.limit copy.bitsFilled ↔ i < min copy.limit (8 * m) := by omega
      simp only [hiff]
    · by_cases hout : i < copy.bitsFilled ∨ i < 8 * m
      · have hbit : bitAt copy.bits i = false := by
          by_cases hfilled : i < copy.bitsFilled
          · exact hzero i (by omega) hfilled
          · exact hpadded i (by omega) (by omega)
        rw [hbit, Bool.and_false, Bool.and_false]
      · have hnot : ¬ i < min copy.limit copy.bitsFilled := by omega
        have hnot' : ¬ i < min copy.limit (8 * m) := by omega
        rw [decide_eq_false hnot, decide_eq_false hnot']
  have inv := hcut.inv (Nat.mul_mod_right 8 m) (Nat.min_le_right _ _)
  have hstart : copy.consumed = min 0 (min copy.limit (8 * m)) := by
    rw [hfresh.consumed, Nat.zero_min]
  obtain ⟨out, hrun, hiff⟩ := readAll_spec rng requests inv rfl hstart hrequests
  refine ⟨_, out, htruncate, Nat.min_le_right _ _, hrun, ?_⟩
  rw [hmeaning, BitPool.usable, hm]
  exact hiff

end

/-! ## A buffer that shows through -/

/-- An empty copy of `indexedPool`. -/
def emptyCopy : BitPool where
  id := 2
  bits := List.replicate 16 0
  shrinking := false
  bitsFilled := 0
  bitsCeil := 128
  limit := defPoolLimit
  consumed := 0
  requests := []
  requestCeil := 16
  generation := 1
  index := none

theorem emptyCopy_fresh : Fresh indexedPool.bitsFilled emptyCopy := by
  constructor <;> decide

theorem emptyCopy_altered {copy : BitPool} {dropCount : Nat} {s : AutoState Rng}
    (h : dropFromBitPool indexedPool emptyCopy (freshAuto 1) = .ok (copy, dropCount) s) :
    Altered Rng copy :=
  .dropped (freshAuto_ready 1) indexedPool_source emptyCopy_fresh (bitAt_replicate_zero 16) h

/-- A request for three words, into a buffer of ones. -/
def onesRequest : List (Nat × List Word) := [(192, List.replicate 3 (BitVec.allOnes 64))]

theorem truncation_keeps_meaning_ones : ∃ copy pool out, Altered Rng copy ∧
    truncateTrailingZeroBytes copy = .ok pool ∧
    readAll (freshAuto 1).prng.rng (pool.setShrinking true) onesRequest = .ok out ∧
    (Delivers copy.meaning 0 onesRequest out ↔ CleanBuffers copy.usable onesRequest) := by
  obtain ⟨copy, dropCount, s, -, -, -, -, hrun⟩ := dropFromBitPool_run (freshAuto_ready 1).prng rfl
    (by decide) indexedPool_source.inv emptyCopy_fresh (bitAt_replicate_zero 16) rfl
  have haltered := emptyCopy_altered (hrun indexedPool.bits (by decide) fun _ _ => rfl)
  obtain ⟨pool, out, htruncate, -, hread, hiff⟩ :=
    truncation_keeps_meaning_iff (freshAuto 1).prng.rng haltered
      (by decide : ∀ r ∈ onesRequest, r.1 < 2 ^ 32 ∧ wordCount r.1 ≤ r.2.length)
  exact ⟨copy, pool, out, haltered, htruncate, hread, hiff⟩

/-- The copy is cut and read. -/
def cutAndRead : Auto Rng (BitPool × BitPool × List (List Word)) := do
  let a ← dropFromBitPool indexedPool emptyCopy
  let pool ← attempt (truncateTrailingZeroBytes a.1)
  let out ← attempt (readAll (freshAuto 1).prng.rng (pool.setShrinking true) onesRequest)
  return (a.1, pool, out)

/-- The copy has no more than 74 bits; the last of 192 is read as it was in the buffer. -/
theorem truncation_shows_buffer : ∃ copy pool out, Altered Rng copy ∧
    truncateTrailingZeroBytes copy = .ok pool ∧
    readAll (freshAuto 1).prng.rng (pool.setShrinking true) onesRequest = .ok out ∧
    ¬ Delivers copy.meaning 0 onesRequest out := by
  have hrun : passes (fun a _ => decide (bitAt (a.2.2.getD 0 []) 191 ≠ a.1.meaning 191))
      (cutAndRead (freshAuto 1)) = true := by decide +kernel
  obtain ⟨⟨copy, pool, out⟩, s, hread, hpass⟩ := of_passes hrun
  have hdiffers := of_decide_eq_true hpass
  obtain ⟨⟨copy', dropCount⟩, s₁, hdrop, hread⟩ := bind_eq_ok.mp hread
  obtain ⟨pool', s₂, htruncate, hread⟩ := bind_eq_ok.mp hread
  obtain ⟨out', s₃, hall, hread⟩ := bind_eq_ok.mp hread
  cases hread
  refine ⟨_, pool, out, emptyCopy_altered hdrop, (attempt_eq_ok.mp htruncate).1,
    (attempt_eq_ok.mp hall).1, fun h => ?_⟩
  cases out with
  | nil => exact h
  | cons buf bufs => exact hdiffers (h.1 191 (by decide))

end Theft
