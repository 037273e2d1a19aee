import Theft.MutationReport

/-!
# When a mask clears a bit

`MUT_MASK` is meant to clear at least one bit of a request of ones. Its check for a mask that
keeps everything is made for 64 bits, and clears the bits below the one it draws:
`mask_clears_iff` says which draws leave a request of at most 64 bits as it is.
-/

namespace Theft

open PackedBits Exec

/-! ## The mask that is drawn -/

/-- The mask for a request of `maskSize` bits, when the bits `S` are drawn. -/
def maskOf (maskSize : Nat) (S : Nat → Bool) : Word :=
  let mask := Gen.answer S maskSize ||| Gen.answer (later maskSize S) maskSize
  if mask = BitVec.allOnes 64 then
    mask &&& -(1#64 <<< (drawn (later maskSize (later maskSize S)) 8 % maskSize))
  else mask

/-- One of the bits is 0 in both draws, or the mask for 64 bits is all ones and the bit that is
drawn then is not the lowest. -/
def MaskDraws (size : Nat) (S : Nat → Bool) : Prop :=
  (∃ j < size, S j = false ∧ later size S j = false) ∨
    (size = 64 ∧ drawn (later 64 (later 64 S)) 8 % 64 ≠ 0)

/-- `-(1LU << one_bit)` is a mask for the bits from `one_bit` on. -/
theorem getLsbD_neg_one_shift : ∀ k < 64, ∀ j < 64,
    (-(1#64 <<< k)).getLsbD j = decide (k ≤ j) := by
  decide +kernel

/-- A bit that is 1 in one of the draws -/
theorem getLsbD_draws {size j : Nat} (hsize : size ≤ 64) (hj : j < size) (S : Nat → Bool) :
    (Gen.answer S size ||| Gen.answer (later size S) size).getLsbD j = (S j || later size S j) := by
  have hanswer : ∀ S', (Gen.answer S' size).getLsbD j = S' j := by
    intro S'
    rw [Gen.answer, getLsbD_ofBits, decide_eq_true (by omega), decide_eq_true hj, Bool.true_and,
      Bool.true_and]
  rw [BitVec.getLsbD_or, hanswer, hanswer]

/-- The draws have no bits from `size` on. -/
theorem getLsbD_draws_of_le {size j : Nat} (hj : size ≤ j) (S : Nat → Bool) :
    (Gen.answer S size ||| Gen.answer (later size S) size).getLsbD j = false := by
  have hanswer : ∀ S', (Gen.answer S' size).getLsbD j = false := by
    intro S'
    rw [Gen.answer, getLsbD_ofBits, decide_eq_false (Nat.not_lt.mpr hj), Bool.false_and,
      Bool.and_false]
  rw [BitVec.getLsbD_or, hanswer, hanswer]
  rfl

/-- Which draws give a mask with a 0 among its low bits. -/
theorem maskOf_clears_iff {size : Nat} (hsize : size ≤ 64) (S : Nat → Bool) :
    (∃ j < size, (maskOf size S).getLsbD j = false) ↔ MaskDraws size S := by
  unfold maskOf MaskDraws
  by_cases hdraws : ∃ j < size, S j = false ∧ later size S j = false
  · obtain ⟨j, hj, hzero⟩ := hdraws
    have hbit : (Gen.answer S size ||| Gen.answer (later size S) size).getLsbD j = false := by
      rw [getLsbD_draws hsize hj, hzero.1, hzero.2]
      rfl
    have hones : Gen.answer S size ||| Gen.answer (later size S) size ≠ BitVec.allOnes 64 := by
      intro heq
      rw [heq, BitVec.getLsbD_allOnes, decide_eq_false_iff_not] at hbit
      omega
    dsimp only
    rw [if_neg hones]
    exact iff_of_true ⟨j, hj, hbit⟩ (.inl ⟨j, hj, hzero⟩)
  · have hbits : ∀ j < size,
        (Gen.answer S size ||| Gen.answer (later size S) size).getLsbD j = true := by
      intro j hj
      rw [getLsbD_draws hsize hj]
      by_contra hzero
      exact hdraws ⟨j, hj, by simpa using hzero⟩
    simp only [hdraws, false_or]
    by_cases hwide : size = 64
    · subst hwide
      have hones : Gen.answer S 64 ||| Gen.answer (later 64 S) 64 = BitVec.allOnes 64 := by
        apply BitVec.eq_of_getLsbD_eq
        intro j hj
        rw [hbits j hj, BitVec.getLsbD_allOnes, decide_eq_true hj]
      have hmod := Nat.mod_lt (drawn (later 64 (later 64 S)) 8) (show 0 < 64 by decide)
      rw [if_pos hones, hones]
      generalize drawn (later 64 (later 64 S)) 8 % 64 = k at hmod
      have hmask : ∀ j < 64, (BitVec.allOnes 64 &&& -(1#64 <<< k)).getLsbD j = decide (k ≤ j) := by
        intro j hj
        rw [BitVec.getLsbD_and, BitVec.getLsbD_allOnes, decide_eq_true hj, Bool.true_and,
          getLsbD_neg_one_shift k hmod j hj]
      constructor
      · rintro ⟨j, hj, hzero⟩
        rw [hmask j hj, decide_eq_false_iff_not] at hzero
        exact ⟨rfl, by omega⟩
      · rintro ⟨-, hk⟩
        exact ⟨0, by decide, by rw [hmask 0 (by decide), decide_eq_false (by omega)]⟩
    · have hones : Gen.answer S size ||| Gen.answer (later size S) size ≠ BitVec.allOnes 64 := by
        intro heq
        have hlast := getLsbD_draws_of_le (Nat.le_refl size) S
        rw [heq, BitVec.getLsbD_allOnes, decide_eq_false_iff_not] at hlast
        omega
      rw [if_neg hones]
      refine iff_of_false ?_ fun h => hwide h.1
      rintro ⟨j, hj, hzero⟩
      rw [hbits j hj] at hzero
      cases hzero

/-! ## The step -/

section
variable {R : Type} [Platform R] {s₀ s : AutoState R} {S : Nat → Bool}

theorem pickMask_run (hs : Drawing s₀ S s) {maskSize : Nat} (h : maskSize ≤ 64) :
    ∃ s', pickMask maskSize s = .ok (maskOf maskSize S) s' := by
  obtain ⟨s₁, hrun₁, hs₁⟩ := prngBits_run hs h
  obtain ⟨s₂, hrun₂, hs₂⟩ := prngBits_run hs₁ h
  obtain ⟨s₃, hrun₃, -⟩ := prngBits_run hs₂ (show 8 ≤ 64 by decide)
  unfold pickMask maskOf
  simp only [bind_apply, hrun₁, hrun₂]
  split
  · exact ⟨s₃, by simp only [bind_apply, hrun₃, pure_apply, drawn]⟩
  · exact ⟨s₂, rfl⟩

omit [Platform R] in
/-- The extent is read, and the function of it is written back. -/
theorem rewriteBits_run {pool : BitPool} {offset size : Nat} (f : Word → Word)
    (h : offset + size ≤ 8 * pool.bits.length) :
    ∃ w pool', (∀ s : AutoState R, rewriteBits pool offset size f s = .ok (w != f w, pool') s) ∧
      (∀ j < 64, w.getLsbD j = (decide (j < size) && bitAt pool.bits (offset + j))) ∧
      pool.Edited pool' ∧ ∀ x, bitAt pool'.bits x =
        if offset ≤ x ∧ x < offset + size then (f w).getLsbD (x - offset) else bitAt pool.bits x := by
  obtain ⟨w, hread, hw⟩ := readBitsAtOffset_spec _ _ _ h
  obtain ⟨pool', hwrite, hedit, hbits⟩ := writeBitsAtOffset_spec _ _ _ h (f w)
  refine ⟨w, pool', fun s => ?_, hw, hedit, hbits⟩
  simp only [rewriteBits, bind_apply, hread, attempt, hwrite, pure_apply]

omit [Platform R] in
theorem setSet_run (action : AutoshrinkAction) (changed : Bool) (s : AutoState R) :
    ∃ s', setSet action changed s = .ok () s' ∧ s'.prng = s.prng := by
  cases changed with
  | true => exact ⟨_, rfl, rfl⟩
  | false => exact ⟨s, rfl, rfl⟩

/-- A request of ones under the mask. -/
theorem mutateMask_run (hs : Drawing s₀ S s) {pool : BitPool} {offset size : Nat}
    (hsize : size ≤ 64) (hroom : offset + size ≤ 8 * pool.bits.length)
    (hones : ∀ j < size, bitAt pool.bits (offset + j) = true) :
    ∃ r s', mutateMask pool offset size s = .ok r s' ∧
      (r.1 = true ↔ ∃ j < size, (maskOf size S).getLsbD j = false) ∧
      ∀ j < size, bitAt r.2.bits (offset + j) = (maskOf size S).getLsbD j := by
  obtain ⟨s₁, htried, hs₁⟩ : ∃ s₁, setTried .mask s = .ok () s₁ ∧ Drawing s₁ S s₁ :=
    ⟨_, rfl, hs.prng, hs.noPool, hs.stream, rfl, rfl⟩
  obtain ⟨s₂, hmask⟩ := pickMask_run hs₁ hsize
  obtain ⟨w, pool', hrewrite, hw, -, hbits⟩ := rewriteBits_run (R := R)
    (fun bits => bits &&& maskOf size S) hroom
  obtain ⟨s₃, hset, -⟩ := setSet_run .mask (w != w &&& maskOf size S) s₂
  have hread : ∀ j < size, w.getLsbD j = true := by
    intro j hj
    rw [hw j (by omega), decide_eq_true hj, hones j hj]
    rfl
  refine ⟨(w != w &&& maskOf size S, pool'), s₃, ?_, ?_, fun j hj => ?_⟩
  · unfold mutateMask pickRegion
    simp only [bind_apply, htried, if_pos hsize, hmask, if_neg (Nat.not_lt.mpr hsize), pure_apply,
      Nat.add_zero, hrewrite, hset]
  · rw [bne_iff_ne]
    constructor
    · intro hne
      obtain ⟨j, hj, hdiff⟩ := exists_getLsbD_ne hne fun j hj hout => by
        rw [BitVec.getLsbD_and, hw j hj, decide_eq_false (Nat.not_lt.mpr hout), Bool.false_and,
          Bool.false_and]
      rw [BitVec.getLsbD_and, hread j hj, Bool.true_and] at hdiff
      exact ⟨j, hj, by simpa using hdiff.symm⟩
    · rintro ⟨j, hj, hzero⟩ heq
      have hbit := congrArg (fun v => v.getLsbD j) heq
      simp only [BitVec.getLsbD_and, hread j hj, hzero] at hbit
      cases hbit
  · rw [hbits, if_pos (by omega), Nat.add_sub_cancel_left, BitVec.getLsbD_and, hread j hj,
      Bool.true_and]

/-- The step reports a change, and afterwards a bit of request `pos` is 0. -/
def Clears (orig : BitPool) (pos : Nat) (r : Bool × BitPool) : Prop :=
  r.1 = true ∧ ∃ i, orig.InRequest pos i ∧ bitAt r.2.bits i = false

/-- **When a mask clears something of a request of ones.** -/
theorem mask_clears_iff {s : AutoState R} (hs : s.Ready) {fuel : Nat} {orig : BitPool}
    (ho : Source orig) {pool : BitPool} (hpool : orig.consumed ≤ 8 * pool.bits.length)
    {s₁ : AutoState R} (hmask : getWeightedMutation fuel s = .ok .mask s₁) {pos size : Nat}
    (hpos : drawn s₁.prng.stream (log2ceil orig.requestCount) % orig.requestCount = pos)
    (hrequest : orig.requests[pos]? = some size) (hsize : size ≤ 64)
    (hones : ∀ i, orig.InRequest pos i → bitAt pool.bits i = true) :
    ∃ r s', chooseAndMutateRequest fuel orig pool s = .ok r s' ∧
      (Clears orig pos r ↔ MaskDraws size (later (log2ceil orig.requestCount) s₁.prng.stream)) := by
  have hsome : orig.requestCount ≠ 0 := by
    intro hnone
    rw [List.eq_nil_of_length_eq_zero hnone] at hrequest
    cases hrequest
  obtain ⟨size', s₂, hs₂, -, -, hget, hpositive, hle, -, hrun⟩ :=
    chooseAndMutateRequest_chosen hs ho pool hmask hsome hpos
  cases hget.symm.trans hrequest
  have hroom : (orig.requests.take pos).sum + size ≤ 8 * pool.bits.length := by omega
  obtain ⟨r, s', hmutate, htrue, hbits⟩ := mutateMask_run hs₂ hsize hroom
    fun j hj => hones _ ⟨size, hrequest, by omega, by omega⟩
  refine ⟨r, s', hrun.trans hmutate, ?_⟩
  rw [← maskOf_clears_iff hsize]
  constructor
  · rintro ⟨hr, -⟩
    exact htrue.mp hr
  · rintro ⟨j, hj, hzero⟩
    exact ⟨htrue.mpr ⟨j, hj, hzero⟩, (orig.requests.take pos).sum + j,
      ⟨size, hrequest, by omega, by omega⟩, by rw [hbits j hj, hzero]⟩

end

/-- One request of four bits, all of them 1. -/
def onesPool : BitPool where
  id := 1
  bits := List.replicate 8 0xFF
  shrinking := false
  bitsFilled := 64
  bitsCeil := 64
  limit := defPoolLimit
  consumed := 4
  requests := [4]
  requestCeil := 16
  generation := 0
  index := some (indexFrom 0 [4])

theorem onesPool_source : Source onesPool := by
  refine ⟨?_, rfl⟩
  constructor <;> decide

theorem onesPool_request {i : Nat} (h : onesPool.InRequest 0 i) : bitAt onesPool.bits i = true := by
  obtain ⟨size, hsize, -, hlt⟩ := h
  cases hsize
  have hall : ∀ i < 4, bitAt onesPool.bits i = true := by decide
  change i < 0 + 4 at hlt
  exact hall i (by omega)

theorem weightedAuto_mask : ∃ s₁, getWeightedMutation 20 weightedAuto = .ok .mask s₁ := by
  obtain ⟨mtype, s₁, hrun, hmask⟩ : ∃ mtype s₁, getWeightedMutation 20 weightedAuto =
      .ok mtype s₁ ∧ decide (mtype = Mutation.mask) = true :=
    of_passes (p := fun mtype _ => decide (mtype = Mutation.mask)) (by decide +kernel)
  exact ⟨s₁, of_decide_eq_true hmask ▸ hrun⟩

theorem mask_clears_ones : ∃ s₁ r s', getWeightedMutation 20 weightedAuto = .ok .mask s₁ ∧
    chooseAndMutateRequest 20 onesPool onesPool weightedAuto = .ok r s' ∧
    (Clears onesPool 0 r ↔ MaskDraws 4 (later (log2ceil 1) s₁.prng.stream)) := by
  obtain ⟨s₁, hmask⟩ := weightedAuto_mask
  have hroom : onesPool.consumed ≤ 8 * onesPool.bits.length := by decide
  obtain ⟨r, s', hrun, hclears⟩ := mask_clears_iff weightedAuto_ready onesPool_source hroom hmask
    (Nat.mod_one _) rfl (by decide) fun i hi => onesPool_request hi
  exact ⟨s₁, r, s', hmask, hrun, hclears⟩

/-- The generator with seed 1 draws a mask that keeps all four bits. -/
theorem mask_keeps_ones : ∃ s₁ s', getWeightedMutation 20 weightedAuto = .ok .mask s₁ ∧
    chooseAndMutateRequest 20 onesPool onesPool weightedAuto = .ok (false, onesPool) s' ∧
    ∀ i, onesPool.InRequest 0 i → bitAt onesPool.bits i = true := by
  obtain ⟨s₁, hmask⟩ := weightedAuto_mask
  obtain ⟨r, s', hrun, hkept⟩ : ∃ r s', chooseAndMutateRequest 20 onesPool onesPool weightedAuto =
      .ok r s' ∧ decide (r = (false, onesPool)) = true :=
    of_passes (p := fun r _ => decide (r = (false, onesPool))) (by decide +kernel)
  exact ⟨s₁, s', hmask, of_decide_eq_true hkept ▸ hrun, fun i hi => onesPool_request hi⟩

end Theft
