import Theft.PoolRead
import Theft.Random

/-!
# The generator as one stream of bits

Without a pool, what a runner will still deliver is a fixed infinite bit string: the
bits left in its buffer, then the outputs of its generator, least significant bit
first. Every request takes a prefix of it (`drawBits_spec`), however the request lies
across the buffer and its own words, so the order and the sizes of the requests cannot
be told from the concatenated responses (`requests_are_one_stream`).
-/

namespace Theft

open PackedBits

section
variable {R : Type} [Platform R]

/-- The `k`-th of the successive outputs of `theft_rng_random`. -/
def rngWord (r : R) : Nat → Word
  | 0 => (Platform.rngRandom r).1
  | k + 1 => rngWord (Platform.rngRandom r).2 k

/-- The successive outputs, least significant bit first. -/
def rngBits (r : R) (i : Nat) : Bool := (rngWord r (i / 64)).getLsbD (i % 64)

theorem rngBits_of_lt (r : R) {i : Nat} (h : i < 64) :
    rngBits r i = (Platform.rngRandom r).1.getLsbD i := by
  rw [rngBits, Nat.div_eq_of_lt h, Nat.mod_eq_of_lt h, rngWord]

theorem rngBits_add (r : R) (i : Nat) :
    rngBits r (i + 64) = rngBits (Platform.rngRandom r).2 i := by
  have hdiv : (i + 64) / 64 = i / 64 + 1 := by omega
  have hmod : (i + 64) % 64 = i % 64 := by omega
  rw [rngBits, hdiv, hmod, rngWord, rngBits]

namespace Prng

/-- What the runner will deliver without a pool. -/
def stream (p : Prng R) (i : Nat) : Bool :=
  if i < p.bitsAvailable then p.buf.getLsbD i else rngBits p.rng (i - p.bitsAvailable)

theorem stream_setSeed (p : Prng R) (seed : Word) :
    (p.setSeed seed).stream = rngBits (Platform.rngReset seed : R) := by
  funext i
  simp [stream, setSeed]

theorem stream_refill (p : Prng R) : p.refill.stream = p.stream := by
  funext i
  by_cases h0 : p.bitsAvailable = 0
  · by_cases hi : i < 64
    · simp [stream, refill, h0, hi, rngBits_of_lt]
    · obtain ⟨j, rfl⟩ : ∃ j, i = j + 64 := ⟨i - 64, by omega⟩
      simp [stream, refill, h0, rngBits_add]
  · simp [refill, h0]

theorem refill_bitsAvailable {p : Prng R} (h : p.bitsAvailable ≤ 64) :
    0 < p.refill.bitsAvailable ∧ p.refill.bitsAvailable ≤ 64 := by
  by_cases h0 : p.bitsAvailable = 0
  · simp [refill, h0]
  · rw [refill, if_neg h0]
    omega

@[simp] theorem refill_bitPool (p : Prng R) : p.refill.bitPool = p.bitPool := by
  unfold refill
  split <;> rfl

@[simp] theorem advance_bitPool (p : Prng R) (take : Nat) :
    (p.advance take).bitPool = p.bitPool := rfl

/-- A shift by 64 empties the buffer, so its value is never seen. -/
theorem stream_advance {p : Prng R} {take : Nat} (h : p.bitsAvailable ≤ 64)
    (ht : take ≤ p.bitsAvailable) (i : Nat) :
    (p.advance take).stream i = p.stream (i + take) := by
  have hsub : i - (p.bitsAvailable - take) = i + take - p.bitsAvailable := by omega
  have hiff : i < p.bitsAvailable - take ↔ i + take < p.bitsAvailable := by omega
  simp only [stream, advance, hsub, hiff]
  by_cases hi : i + take < p.bitsAvailable
  · have hlt : take < 64 := by omega
    rw [if_pos hi, if_pos hi, shiftBuf, if_pos hlt, BitVec.getLsbD_ushiftRight, Nat.add_comm]
  · rw [if_neg hi, if_neg hi]

end Prng

/-- A request without a pool returns, whatever is in the buffer of the generator. -/
theorem drawBits_returns : ∀ fuel rem shift offset (buf : List Word) (p : Prng R),
    rem < fuel → shift < 64 → 64 * offset + shift + rem ≤ 64 * buf.length →
    ∃ res, drawBits fuel rem shift offset buf p = .ok res := by
  intro fuel
  induction fuel with
  | zero => intro rem shift offset buf p hf; omega
  | succ fuel ih =>
    intro rem shift offset buf p hf hshift hroom
    by_cases hrem : 0 < rem
    · have hpos : 0 < p.refill.bitsAvailable := by
        unfold Prng.refill
        split
        · exact Nat.succ_pos 63
        · omega
      have hw : buf[offset]? = some buf[offset] := List.getElem?_eq_getElem (by omega)
      generalize buf[offset] = w at hw
      rw [drawBits, if_pos hrem]
      simp only [hw]
      generalize ht : (if p.refill.bitsAvailable <
        (if rem < 64 - shift then rem else 64 - shift) then p.refill.bitsAvailable
        else (if rem < 64 - shift then rem else 64 - shift)) = take
      have hbounds : 0 < take ∧ take ≤ rem ∧ take ≤ 64 - shift := by
        split at ht <;> split at ht <;> omega
      split
      · exact ih _ _ _ _ _ (by omega) (by omega) (by rw [List.length_set]; omega)
      · exact ih _ _ _ _ _ (by omega) (by omega) (by rw [List.length_set]; omega)
    · exact ⟨(buf, p), by rw [drawBits, if_neg hrem]⟩

/-- What a request without a pool does: the buffer receives the next bits of the stream. -/
theorem drawBits_spec : ∀ fuel rem shift offset (buf : List Word) (p : Prng R),
    rem < fuel → shift < 64 → 64 * offset + shift + rem ≤ 64 * buf.length →
    p.bitsAvailable ≤ 64 →
    ∃ buf' p', drawBits fuel rem shift offset buf p = .ok (buf', p') ∧
      buf'.length = buf.length ∧ p'.bitPool = p.bitPool ∧ p'.bitsAvailable ≤ 64 ∧
      (∀ i, p'.stream i = p.stream (i + rem)) ∧
      ∀ j, bitAt buf' j = (bitAt buf j ||
        (decide (64 * offset + shift ≤ j ∧ j < 64 * offset + shift + rem) &&
          p.stream (j - (64 * offset + shift)))) := by
  intro fuel
  induction fuel with
  | zero => intro rem shift offset buf p hf; omega
  | succ fuel ih =>
    intro rem shift offset buf p hf hshift hroom havail
    by_cases hrem : 0 < rem
    · obtain ⟨hpos, hle⟩ := Prng.refill_bitsAvailable havail
      have hk : offset < buf.length := by omega
      have hw : buf[offset]? = some buf[offset] := List.getElem?_eq_getElem hk
      generalize buf[offset] = w at hw
      rw [drawBits, if_pos hrem]
      simp only [hw]
      generalize ht : (if p.refill.bitsAvailable <
        (if rem < 64 - shift then rem else 64 - shift) then p.refill.bitsAvailable
        else (if rem < 64 - shift then rem else 64 - shift)) = take
      have hbounds : 0 < take ∧ take ≤ rem ∧ take ≤ 64 - shift ∧
          take ≤ p.refill.bitsAvailable := by split at ht <;> split at ht <;> omega
      obtain ⟨htake, htrem, htshift, htavail⟩ := hbounds
      have hor := bitAt_orBits hw p.refill.buf (show shift + take ≤ 64 by omega)
      have hlen₁ : (buf.set offset
          (w ||| ((p.refill.buf &&& getMask take) <<< shift))).length = buf.length := by simp
      generalize buf.set offset (w ||| ((p.refill.buf &&& getMask take) <<< shift)) = buf₁
        at hor hlen₁ ⊢
      have hstream : ∀ i, (p.refill.advance take).stream i = p.stream (i + take) := by
        intro i
        rw [Prng.stream_advance hle htavail, Prng.stream_refill]
      have havail' : (p.refill.advance take).bitsAvailable ≤ 64 :=
        Nat.le_trans (Nat.sub_le _ _) hle
      -- the bits of this round are the first of the stream
      have hlow : ∀ i < take, p.refill.buf.getLsbD i = p.stream i := by
        intro i hi
        have hia : i < p.refill.bitsAvailable := by omega
        rw [← Prng.stream_refill p, Prng.stream, if_pos hia]
      have hrest : ∀ shift' offset', 64 * offset' + shift' = 64 * offset + shift + take →
          shift' < 64 → ∃ buf' p', drawBits fuel (rem - take) shift' offset' buf₁
              (p.refill.advance take) = .ok (buf', p') ∧
            buf'.length = buf.length ∧ p'.bitPool = p.bitPool ∧ p'.bitsAvailable ≤ 64 ∧
            (∀ i, p'.stream i = p.stream (i + rem)) ∧
            ∀ j, bitAt buf' j = (bitAt buf j ||
              (decide (64 * offset + shift ≤ j ∧ j < 64 * offset + shift + rem) &&
                p.stream (j - (64 * offset + shift)))) := by
        intro shift' offset' hstart hshift'
        obtain ⟨buf', p', hrun, hlen', hpool, hav', hs', hbits⟩ :=
          ih (rem - take) shift' offset' buf₁ (p.refill.advance take) (by omega) hshift'
            (by omega) havail'
        refine ⟨buf', p', hrun, by omega, by simpa using hpool, hav', fun i => ?_, fun j => ?_⟩
        · have hsum : i + (rem - take) + take = i + rem := by omega
          rw [hs', hstream, hsum]
        · rw [hbits, hor, hstart, hstream]
          by_cases h₁ : 64 * offset + shift ≤ j ∧ j < 64 * offset + shift + take
          · have h₂ : 64 * offset + shift ≤ j ∧ j < 64 * offset + shift + rem := by omega
            have h₃ : ¬ (64 * offset + shift + take ≤ j ∧
                j < 64 * offset + shift + take + (rem - take)) := by omega
            rw [hlow _ (by omega), decide_eq_true h₁, decide_eq_true h₂, decide_eq_false h₃]
            simp
          · by_cases h₂ : 64 * offset + shift ≤ j ∧ j < 64 * offset + shift + rem
            · have h₃ : 64 * offset + shift + take ≤ j ∧
                  j < 64 * offset + shift + take + (rem - take) := by omega
              have hsub : j - (64 * offset + shift + take) + take =
                  j - (64 * offset + shift) := by omega
              rw [decide_eq_false h₁, decide_eq_true h₂, decide_eq_true h₃, hsub]
              simp
            · have h₃ : ¬ (64 * offset + shift + take ≤ j ∧
                  j < 64 * offset + shift + take + (rem - take)) := by omega
              rw [decide_eq_false h₁, decide_eq_false h₂, decide_eq_false h₃]
              simp
      by_cases hwrap : shift + take = 64
      · rw [if_pos hwrap]
        exact hrest 0 (offset + 1) (by omega) (by omega)
      · rw [if_neg hwrap]
        exact hrest (shift + take) offset (by omega) (by omega)
    · have h0 : rem = 0 := by omega
      subst h0
      refine ⟨buf, p, by rw [drawBits, if_neg hrem], rfl, rfl, havail, fun i => rfl, fun j => ?_⟩
      have hout : ¬ (64 * offset + shift ≤ j ∧ j < 64 * offset + shift + 0) := by omega
      rw [decide_eq_false hout, Bool.false_and, Bool.or_false]

/-- A bulk request without a pool ORs the next bits of the stream into the buffer. -/
theorem randomBitsBulk_noPool {p : Prng R} (hpool : p.bitPool = none)
    (havail : p.bitsAvailable ≤ 64) (n : Nat) (buf : List Word) (hbuf : n ≤ 64 * buf.length) :
    ∃ buf' p', randomBitsBulk n buf p = .ok buf' p' ∧ buf'.length = buf.length ∧
      p'.bitPool = none ∧ p'.bitsAvailable ≤ 64 ∧ (∀ i, p'.stream i = p.stream (i + n)) ∧
      ∀ j, bitAt buf' j = (bitAt buf j || (decide (j < n) && p.stream j)) := by
  obtain ⟨buf', p', hrun, hlen, hpool', havail', hs, hbits⟩ :=
    drawBits_spec (n + 1) n 0 0 buf p (by omega) (by omega) (by omega) havail
  refine ⟨buf', p', by simp only [randomBitsBulk, hpool, hrun], hlen, by rw [hpool', hpool],
    havail', hs, fun j => ?_⟩
  simpa using hbits j

theorem randomBits_noPool {p : Prng R} (hpool : p.bitPool = none)
    (havail : p.bitsAvailable ≤ 64) {n : Nat} (hn : n ≤ 64) :
    ∃ w p', randomBits n p = .ok w p' ∧ p'.bitPool = none ∧ p'.bitsAvailable ≤ 64 ∧
      (∀ i, p'.stream i = p.stream (i + n)) ∧
      ∀ j, w.getLsbD j = (decide (j < n) && p.stream j) := by
  obtain ⟨buf', p', hrun, hlen, hpool', havail', hs, hbits⟩ :=
    randomBitsBulk_noPool hpool havail n [0] (by simpa using hn)
  refine ⟨buf'.getD 0 0, p', ?_, hpool', havail', hs, fun j => ?_⟩
  · rw [randomBits, if_pos hn, Exec.bind_apply, hrun]
    rfl
  · by_cases hj : j < 64
    · have hz : bitAt [(0 : Word)] j = false := bitAt_of_all_zero (by simp) j
      have := hbits j
      rw [hz, Bool.false_or] at this
      simpa [bitAt, Nat.div_eq_of_lt hj, Nat.mod_eq_of_lt hj] using this
    · have hjn : ¬ j < n := by omega
      rw [BitVec.getLsbD_of_ge _ _ (by omega)]
      simp [hjn]

/-! ## Sequences of requests -/

/-- A request for random bits. -/
inductive Request
  | bits (bitCount : Fin 65)
  | bulk (bitCount : Fin (2 ^ 32))
  deriving DecidableEq, Repr

def Request.size : Request → Nat
  | bits n => n
  | bulk n => n

/-- The response, least significant bit first; a bulk request goes into a zeroed buffer. -/
def Request.response : Request → Draw R (List Bool)
  | bits n => do
    let w ← randomBits n
    pure ((List.range n).map w.getLsbD)
  | bulk n => do
    let ws ← randomBitsBulk n (List.replicate (wordCount n) 0)
    pure ((List.range n).map (bitAt ws))

def responses : List Request → Draw R (List (List Bool))
  | [] => pure []
  | q :: qs => do
    let r ← q.response
    let rs ← responses qs
    pure (r :: rs)

theorem response_spec (q : Request) {p : Prng R} (hpool : p.bitPool = none)
    (havail : p.bitsAvailable ≤ 64) :
    ∃ p', q.response p = .ok ((List.range q.size).map p.stream) p' ∧ p'.bitPool = none ∧
      p'.bitsAvailable ≤ 64 ∧ ∀ i, p'.stream i = p.stream (i + q.size) := by
  cases q with
  | bits n =>
    obtain ⟨w, p', hrun, hpool', havail', hs, hbits⟩ :=
      randomBits_noPool hpool havail (show n.val ≤ 64 by omega)
    refine ⟨p', ?_, hpool', havail', hs⟩
    have hmap : (List.range n.val).map w.getLsbD = (List.range n.val).map p.stream := by
      apply List.map_congr_left
      intro j hj
      rw [hbits, decide_eq_true (List.mem_range.mp hj), Bool.true_and]
    rw [Request.response, Exec.bind_apply, hrun]
    simp only [Exec.pure_apply, hmap, Request.size]
  | bulk n =>
    have hroom := le_wordCount n.val
    obtain ⟨ws, p', hrun, -, hpool', havail', hs, hbits⟩ :=
      randomBitsBulk_noPool hpool havail n.val (List.replicate (wordCount n) 0)
        (by simpa using hroom)
    refine ⟨p', ?_, hpool', havail', hs⟩
    have hmap : (List.range n.val).map (bitAt ws) = (List.range n.val).map p.stream := by
      apply List.map_congr_left
      intro j hj
      rw [hbits, bitAt_replicate_zero, decide_eq_true (List.mem_range.mp hj), Bool.true_and,
        Bool.false_or]
    rw [Request.response, Exec.bind_apply, hrun]
    simp only [Exec.pure_apply, hmap, Request.size]

theorem responses_spec (qs : List Request) : ∀ {p : Prng R}, p.bitPool = none →
    p.bitsAvailable ≤ 64 → ∃ rs p', responses qs p = .ok rs p' ∧
      rs.flatten = (List.range (qs.map Request.size).sum).map p.stream := by
  induction qs with
  | nil => intro p _ _; exact ⟨[], p, rfl, rfl⟩
  | cons q qs ih =>
    intro p hpool havail
    obtain ⟨p₁, hrun, hpool₁, havail₁, hs⟩ := response_spec q hpool havail
    obtain ⟨rs, p', hruns, hflat⟩ := ih hpool₁ havail₁
    refine ⟨(List.range q.size).map p.stream :: rs, p', ?_, ?_⟩
    · rw [responses, Exec.bind_apply, hrun]
      simp only [Exec.bind_apply, hruns, Exec.pure_apply]
    rw [List.flatten_cons, hflat, List.map_cons, List.sum_cons, List.range_add, List.map_append,
      List.map_map]
    congr 1
    apply List.map_congr_left
    intro i _
    rw [hs, Function.comp_apply, Nat.add_comm]

/-- **Buffered random bits form one stream.** After seeding, the concatenated responses to any
sequence of requests are the first bits of the concatenated outputs of the generator. -/
theorem requests_are_one_stream (seed : Word) (p : Prng R) (qs : List Request) :
    ∃ rs p', responses qs (p.setSeed seed) = .ok rs p' ∧
      rs.flatten = (List.range (qs.map Request.size).sum).map
        (rngBits (Platform.rngReset seed : R)) := by
  rw [← Prng.stream_setSeed p seed]
  exact responses_spec qs rfl (Nat.zero_le 64)

end

end Theft
