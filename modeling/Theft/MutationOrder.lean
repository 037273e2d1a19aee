import Theft.Lib.BitValue
import Theft.MaskProgress
import Mathlib.Logic.Relation

/-!
# An order that mutations go down

Every mutation is meant to make the copy simpler. Shifts, masks and subtractions lower the value
of some bits of a request, and a swap of short requests moves the lower value to the front.
A swap of blocks in a long request compares the two blocks but not their positions, so it may
undo another one (`mutation_circles`). Without the swaps that move the lower value towards the
less significant bits, every reported change lowers the rank of the requests
(`mutations_descend`).
-/

namespace Theft

open PackedBits Exec

/-- The request of `size` bits at `offset` has a lower value, and nothing before it changed. -/
structure BitPool.Lowered (pool pool' : BitPool) (offset size : Nat) : Prop where
  less : valueOf (bitAt pool'.bits) offset size < valueOf (bitAt pool.bits) offset size
  before : ∀ i < offset, bitAt pool'.bits i = bitAt pool.bits i

/-- A part of the request was overwritten with a lower value. -/
theorem BitPool.Lowered.write {pool pool' : BitPool} {offset size pos len : Nat} {w v : Word}
    (hlen : len ≤ 64) (hle : pos + len ≤ size)
    (hw : ∀ j < 64, w.getLsbD j = (decide (j < len) && bitAt pool.bits (offset + pos + j)))
    (hlt : v < w)
    (hbits : ∀ x, bitAt pool'.bits x =
      if offset + pos ≤ x ∧ x < offset + pos + len then v.getLsbD (x - (offset + pos))
      else bitAt pool.bits x) :
    pool.Lowered pool' offset size := by
  have hwvalue := toNat_eq_valueOf hlen hw
  have hwlt := valueOf_lt (bitAt pool.bits) len (offset + pos)
  have hvlt : v.toNat < 2 ^ len := by
    rw [BitVec.lt_def] at hlt
    omega
  have hv : ∀ j < 64, v.getLsbD j = (decide (j < len) && bitAt pool'.bits (offset + pos + j)) := by
    intro j hj
    by_cases hin : j < len
    · rw [hbits, if_pos (by omega), Nat.add_sub_cancel_left, decide_eq_true hin, Bool.true_and]
    · rw [decide_eq_false hin, Bool.false_and, ← BitVec.testBit_toNat]
      exact Nat.testBit_lt_two_pow
        (Nat.lt_of_lt_of_le hvlt (Nat.pow_le_pow_right (by decide) (by omega)))
  have hvvalue := toNat_eq_valueOf hlen hv
  refine ⟨valueOf_lt_of_part hle ?_ fun i hi hi' => ?_, fun i hi => ?_⟩
  · rwa [← hvvalue, ← hwvalue, ← BitVec.lt_def]
  · rw [hbits, if_neg (by omega)]
  · rw [hbits, if_neg (by omega)]

/-- A block of the request was exchanged with a lower one, which lies below it or behind the
request. -/
theorem BitPool.Exchanged.lowered {pool pool' : BitPool} {x y n offset size : Nat}
    (h : pool.Exchanged pool' x y n) (hx : offset ≤ x) (hx' : x + n ≤ offset + size)
    (hy : offset ≤ y) (hapart : y + n ≤ x ∨ offset + size ≤ y)
    (hless : valueOf (bitAt pool.bits) y n < valueOf (bitAt pool.bits) x n) :
    pool.Lowered pool' offset size := by
  obtain ⟨pos, rfl⟩ := Nat.exists_eq_add_of_le hx
  have hthere : valueOf (bitAt pool'.bits) (offset + pos) n = valueOf (bitAt pool.bits) y n :=
    valueOf_congr h.there
  refine ⟨valueOf_lt_of_part (show pos + n ≤ size by omega) (by rwa [hthere]) fun i hi hi' => ?_,
    fun i hi => ?_⟩
  · exact h.others i (by omega) (by omega)
  · exact h.others i (by omega) (by omega)

/-! ## One mutation -/

section
variable {R : Type} [Platform R] {s₀ : AutoState R}

/-- When it reports a change, the request was lowered. -/
def Lowers (pool : BitPool) (offset size : Nat) (r : Bool × BitPool) : Prop :=
  r.1 = true → pool.Lowered r.2 offset size

theorem lowers_false (pool : BitPool) (offset size : Nat) : Lowers pool offset size (false, pool) :=
  fun h => by cases h

theorem pickRegion_safe {size : Nat} (hsize : 0 < size) :
    Safe s₀ (pickRegion size) fun r => r.1 + r.2 ≤ size ∧ r.2 ≤ 64 :=
  Edits.safe fun _ => pickRegion_edits hsize

omit [Platform R] in
/-- A function that only clears bits or moves them down lowers what it changes. -/
theorem rewriteBits_lowers {pool : BitPool} {offset size pos len : Nat} (hlen : len ≤ 64)
    (hle : pos + len ≤ size) (h : offset + size ≤ 8 * pool.bits.length) {f : Word → Word}
    (hf : ∀ w, f w ≤ w) :
    Safe s₀ (rewriteBits pool (offset + pos) len f) (Lowers pool offset size) := by
  obtain ⟨w, pool', hrun, hw, -, hbits⟩ := rewriteBits_run (R := R) f
    (show offset + pos + len ≤ 8 * pool.bits.length by omega)
  intro s hs
  rw [hrun]
  refine ⟨hs, fun hchanged => ?_⟩
  have hne : w ≠ f w := bne_iff_ne.mp hchanged
  have hlt : f w < w := by
    have hfw := BitVec.le_def.mp (hf w)
    rw [BitVec.lt_def]
    exact Nat.lt_of_le_of_ne hfw fun heq => hne (BitVec.eq_of_toNat_eq heq).symm
  exact .write hlen hle hw hlt hbits

theorem mutateShift_lowers {pool : BitPool} {offset size : Nat} (hsize : 0 < size)
    (h : offset + size ≤ 8 * pool.bits.length) :
    Safe s₀ (mutateShift pool offset size) (Lowers pool offset size) := by
  refine .bind (.setTried _) fun _ _ => ?_
  refine .bind (.prngBits (by decide)) fun w _ => ?_
  refine .bind (pickRegion_safe hsize) fun r hr => ?_
  refine .bind (rewriteBits_lowers hr.2 hr.1 h fun bits => ?_) fun r' hlowers => ?_
  · rw [BitVec.le_def, BitVec.toNat_ushiftRight, Nat.shiftRight_eq_div_pow]
    exact Nat.div_le_self _ _
  · exact .bind (.setSet _ _) fun _ _ => .pure hlowers

theorem mutateMask_lowers {pool : BitPool} {offset size : Nat} (hsize : 0 < size)
    (h : offset + size ≤ 8 * pool.bits.length) :
    Safe s₀ (mutateMask pool offset size) (Lowers pool offset size) := by
  refine .bind (.setTried _) fun _ _ => ?_
  refine .bind (Edits.safe fun _ => pickMask_edits (by split <;> omega)) fun mask _ => ?_
  refine .bind (pickRegion_safe hsize) fun r hr => ?_
  refine .bind (rewriteBits_lowers hr.2 hr.1 h fun bits => ?_) fun r' hlowers => ?_
  · rw [BitVec.le_def, BitVec.toNat_and]
    exact Nat.and_le_left
  · exact .bind (.setSet _ _) fun _ _ => .pure hlowers

theorem mutateSub_lowers {pool : BitPool} {offset size : Nat} (hsize : 0 < size)
    (h : offset + size ≤ 8 * pool.bits.length) :
    Safe s₀ (mutateSub pool offset size) (Lowers pool offset size) := by
  refine .bind (.setTried _) fun _ _ => ?_
  refine .bind (.prngBits (by split <;> omega)) fun w _ => ?_
  refine .bind (pickRegion_safe hsize) fun r hr => ?_
  obtain ⟨bits, hread, hw⟩ := readBitsAtOffset_spec pool (offset + r.1) r.2 (by omega)
  refine .bind (.attempt hread rfl) ?_
  rintro _ rfl
  split
  · rename_i hpos
    have hlt := subtracted_lt w hpos
    obtain ⟨pool', hwrite, -, hbits⟩ := writeBitsAtOffset_spec pool (offset + r.1) r.2 (by omega)
      (if bits - w % bits = bits then bits - w % bits - 1 else bits - w % bits)
    refine .bind (.setSet _ _) fun _ _ => ?_
    refine .bind (.attempt hwrite rfl) ?_
    rintro _ rfl
    exact .pure fun _ => .write hr.2 hr.1 hw hlt hbits
  · exact .pure (lowers_false _ _ _)

omit [Platform R] in
/-- A lower value that lies behind the request is brought to the front. -/
theorem swapRequests_lowers {orig : BitPool} (ho : Source orig) {pool : BitPool}
    (hpool : orig.consumed ≤ 8 * pool.bits.length) {offset size : Nat} (hsize : size ≤ 64)
    (h : offset + size ≤ 8 * pool.bits.length) {bits : Word}
    (hbits : ∀ j < 64, bits.getLsbD j = (decide (j < size) && bitAt pool.bits (offset + j)))
    (is : List Nat)
    (his : ∀ i ∈ is, i < orig.requestCount ∧ offset + size ≤ (orig.requests.take i).sum) :
    Safe s₀ (swapRequests orig pool offset size bits is) (Lowers pool offset size) := by
  induction is with
  | nil => exact .pure (lowers_false _ _ _)
  | cons i is ih =>
    have hrest := ih fun j hj => his j (List.mem_cons_of_mem i hj)
    obtain ⟨hi, hapart⟩ := his i List.mem_cons_self
    obtain ⟨otherSize, hoffset, hrequest, -, -, hle, -⟩ := ho.request hi
    refine .bind (.attempt hrequest rfl) ?_
    rintro _ rfl
    split
    · rename_i hsame
      subst hsame
      obtain ⟨other, hread, hother⟩ := readBitsAtOffset_spec pool (orig.requests.take i).sum
        otherSize (by omega)
      refine .bind (.attempt hoffset rfl) ?_
      rintro _ rfl
      refine .bind (.attempt hread rfl) ?_
      rintro _ rfl
      split
      · rename_i hlt
        have hne : bits ≠ other := fun heq => absurd (heq ▸ hlt) (by simp)
        have hless : valueOf (bitAt pool.bits) (orig.requests.take i).sum otherSize <
            valueOf (bitAt pool.bits) offset otherSize := by
          rw [← toNat_eq_valueOf hsize hother, ← toNat_eq_valueOf hsize hbits]
          exact hlt
        exact Edits.safe fun _ => exchange_edits hsize h (by omega) (.inl hapart) hne hbits hother
          fun pool' hexchanged _ => hexchanged.lowered (Nat.le_refl _) (Nat.le_refl _) (by omega)
            (.inr hapart) hless
      · exact hrest
    · exact hrest

/-- The draws of `MUT_SWAP` put the first block of a long request before the second. -/
def ForwardBlocks (size : Nat) (S : Nat → Bool) : Prop :=
  let toSwap := halveToFit size 8 (drawn S 6)
  drawn (later 6 S) 32 % (size - toSwap) < drawn (later 32 (later 6 S)) 32 % (size - 2 * toSwap)

omit [Platform R] in
theorem drawn_lt (S : Nat → Bool) (n : Nat) : drawn S n < 2 ^ n := by
  apply Nat.lt_pow_two_of_testBit
  intro i hi
  rw [drawn, BitVec.testBit_toNat, Gen.answer, getLsbD_ofBits, decide_eq_false (Nat.not_lt.mpr hi),
    Bool.false_and, Bool.and_false]

/-- A lower block that lies before the other, towards the less significant bits, is left there. -/
theorem swapBlocks_lowers {s : AutoState R} {S : Nat → Bool} (hs : Drawing s₀ S s)
    (hnext : s₀.env.model.nextAction = none) {pool : BitPool} {offset size : Nat} (hsize : 0 < size)
    (h : offset + size ≤ 8 * pool.bits.length) (hback : ¬ ForwardBlocks size S)
    {r : Bool × BitPool} {s' : AutoState R} (hrun : swapBlocks pool offset size s = .ok r s') :
    Lowers pool offset size r := by
  obtain ⟨s₁, hdraw₁, hs₁⟩ := prngBits_run hs (show 6 ≤ 64 by decide)
  obtain ⟨s₂, hdraw₂, hs₂⟩ := prngBits_run hs₁ (show 32 ≤ 64 by decide)
  obtain ⟨s₃, hdraw₃, hs₃⟩ := prngBits_run hs₂ (show 32 ≤ 64 by decide)
  have hdrawn := drawn_lt S 6
  have hfit := halveToFit_lt hsize 8 (drawn S 6) (Nat.lt_trans hdrawn (by decide))
  have hle := halveToFit_le size 8 (drawn S 6)
  unfold ForwardBlocks drawn at hback
  unfold drawn at hfit hle hdrawn
  rw [swapBlocks, bind_apply, hdraw₁] at hrun
  dsimp only at hrun hback
  generalize halveToFit size 8 (Gen.answer S 6).toNat = toSwap at hrun hback hfit hle
  split at hrun
  · cases hrun
    exact lowers_false _ _ _
  · rw [if_pos (by omega), bind_apply, hdraw₂] at hrun
    dsimp only at hrun
    rw [bind_apply, hdraw₃] at hrun
    dsimp only at hrun
    have ha : (Gen.answer (later 6 S) 32).toNat % (size - toSwap) < size - toSwap :=
      Nat.mod_lt _ (by omega)
    have hb : (Gen.answer (later 32 (later 6 S)) 32).toNat % (size - 2 * toSwap) <
        size - 2 * toSwap := Nat.mod_lt _ (by omega)
    generalize (Gen.answer (later 6 S) 32).toNat % (size - toSwap) = posA at hrun hback ha
    generalize (Gen.answer (later 32 (later 6 S)) 32).toNat % (size - 2 * toSwap) = posB
      at hrun hback hb
    split at hrun
    · cases hrun
      exact lowers_false _ _ _
    · rename_i hoverlap
      obtain ⟨a, hreadA, hbitsA⟩ := readBitsAtOffset_spec pool (offset + posA) toSwap (by omega)
      obtain ⟨b, hreadB, hbitsB⟩ := readBitsAtOffset_spec pool (offset + posB) toSwap (by omega)
      have hw : Within s₃ s₃ :=
        ⟨hs₃.prng, hs₃.noPool, by rw [hs₃.env]; exact hnext, rfl, rfl⟩
      -- what is left only reads and writes
      refine ((?_ : Safe s₃ _ (Lowers pool offset size)).returned hw hrun).2
      refine .bind (.attempt hreadA rfl) ?_
      rintro _ rfl
      refine .bind (.attempt hreadB rfl) ?_
      rintro _ rfl
      split
      · rename_i hlt
        have hne : a ≠ b := fun heq => absurd (heq ▸ hlt) (by simp)
        have hpos : posA ≠ posB := by
          rintro rfl
          rw [hreadA] at hreadB
          exact hne (Except.ok.inj hreadB)
        have hless : valueOf (bitAt pool.bits) (offset + posB) toSwap <
            valueOf (bitAt pool.bits) (offset + posA) toSwap := by
          rw [← toNat_eq_valueOf (by omega) hbitsA, ← toNat_eq_valueOf (by omega) hbitsB]
          exact hlt
        exact Edits.safe fun _ => exchange_edits (by omega) (by omega) (by omega) (by omega) hne
          hbitsA hbitsB fun pool' hexchanged _ => hexchanged.lowered (by omega) (by omega)
            (by omega) (.inl (by omega)) hless
      · exact .pure (lowers_false _ _ _)

/-- A swap that does not put the first block of a long request before the second. -/
theorem mutateSwap_lowers {s : AutoState R} {S : Nat → Bool} (hs : Drawing s₀ S s)
    (hnext : s₀.env.model.nextAction = none) {orig : BitPool} (ho : Source orig) {pool : BitPool}
    (hpool : orig.consumed ≤ 8 * pool.bits.length) {pos offset size : Nat} (hsize : 0 < size)
    (h : offset + size ≤ 8 * pool.bits.length)
    (hafter : ∀ i, pos < i → offset + size ≤ (orig.requests.take i).sum)
    (hback : 64 < size → ¬ ForwardBlocks size S) {r : Bool × BitPool} {s' : AutoState R}
    (hrun : mutateSwap orig pool pos offset size s = .ok r s') : Lowers pool offset size r := by
  obtain ⟨⟨⟩, s₁, htried, hrun⟩ := bind_eq_ok.mp hrun
  have hs₁ : Drawing s₁ S s₁ := by
    cases htried
    exact ⟨hs.prng, hs.noPool, hs.stream, rfl, rfl⟩
  have hnext₁ : s₁.env.model.nextAction = none := by
    cases htried
    change s.env.model.nextAction = none
    rwa [hs.env]
  rw [if_pos hsize] at hrun
  split at hrun
  · rename_i hlong
    exact swapBlocks_lowers hs₁ hnext₁ hsize h (hback hlong) hrun
  · rename_i hshort
    obtain ⟨bits, hread, hbits⟩ := readBitsAtOffset_spec _ _ _ h
    have hle : size ≤ 64 := Nat.le_of_not_lt hshort
    have hw₁ : Within s₁ s₁ := ⟨hs₁.prng, hs₁.noPool, hnext₁, rfl, rfl⟩
    refine ((?_ : Safe s₁ _ (Lowers pool offset size)).returned hw₁ hrun).2
    refine .bind (.attempt hread rfl) ?_
    rintro _ rfl
    refine swapRequests_lowers ho hpool hle h hbits _ fun i hi => ?_
    have hcount := List.mem_range.mp (List.mem_of_mem_drop hi)
    rw [List.range_eq_range', List.drop_range', List.mem_range'_1] at hi
    exact ⟨hcount, hafter i (by omega)⟩

/-- The step draws a swap in a long request, and puts the first block before the second. -/
def SwapsForward (fuel : Nat) (orig : BitPool) (s : AutoState R) : Prop :=
  ∃ s₁ size, getWeightedMutation fuel s = .ok .swap s₁ ∧
    orig.requests[drawn s₁.prng.stream (log2ceil orig.requestCount) % orig.requestCount]? =
      some size ∧
    64 < size ∧ ForwardBlocks size (later (log2ceil orig.requestCount) s₁.prng.stream)

/-- **What a step does to the rank**: it lowers the request that it selects when it reports a
change, and else it leaves every bit as it was. -/
theorem chooseAndMutateRequest_lowers {s : AutoState R} (hs : s.Ready) {fuel : Nat}
    {orig : BitPool} (ho : Source orig) {pool : BitPool}
    (hpool : orig.consumed ≤ 8 * pool.bits.length) (hback : ¬ SwapsForward fuel orig s)
    {r : Bool × BitPool} {s' : AutoState R}
    (hrun : chooseAndMutateRequest fuel orig pool s = .ok r s') :
    pool.Edited r.2 ∧ (r.1 = false → ∀ i, bitAt r.2.bits i = bitAt pool.bits i) ∧
      (r.1 = true → ∃ pos size, orig.requests[pos]? = some size ∧
        pool.Lowered r.2 (orig.requests.take pos).sum size) := by
  cases hmut : getWeightedMutation fuel s with
  | error e s₁ =>
    rw [chooseAndMutateRequest, bind_apply, hmut] at hrun
    cases hrun
  | ok mtype s₁ =>
    by_cases hnone : orig.requestCount = 0
    · rw [chooseAndMutateRequest, bind_apply, hmut] at hrun
      dsimp only at hrun
      rw [if_pos hnone] at hrun
      cases hrun
      exact ⟨.refl pool, fun _ i => rfl, fun h => by cases h⟩
    · obtain ⟨size, s₂, hs₂, hw₂, henv₂, hget, hsize, hle, hafter, hchosen⟩ :=
        chooseAndMutateRequest_chosen hs ho pool hmut hnone rfl
      have hroom : (orig.requests.take (drawn s₁.prng.stream (log2ceil orig.requestCount) %
          orig.requestCount)).sum + size ≤ 8 * pool.bits.length := by omega
      rw [hchosen] at hrun
      obtain ⟨-, -, hmutated⟩ :=
        (mutate_edits ho hpool hsize hroom hafter mtype).returned ⟨hw₂, rfl⟩ hrun
      have hreport := hmutated.trueReport hget
      refine ⟨hreport.edited, fun hfalse i => ?_, fun htrue => ⟨_, size, hget, ?_⟩⟩
      · by_contra hne
        rw [hreport.truthful.mpr ⟨i, hne⟩] at hfalse
        cases hfalse
      · cases mtype with
        | shift => exact ((mutateShift_lowers hsize hroom).returned hw₂ hrun).2 htrue
        | mask => exact ((mutateMask_lowers hsize hroom).returned hw₂ hrun).2 htrue
        | sub => exact ((mutateSub_lowers hsize hroom).returned hw₂ hrun).2 htrue
        | swap =>
          have hnext₁ : s₁.env.model.nextAction = none := by
            rw [← hs₂.env]
            exact hw₂.unscheduled
          refine mutateSwap_lowers hs₂ hnext₁ ho hpool hsize hroom hafter (fun hlong => ?_) hrun
            htrue
          exact fun hforward => hback ⟨s₁, size, hmut, hget, hlong, hforward⟩

/-! ## Many mutations -/

/-- The rank of a copy: its requests as numbers, of which earlier ones count for more. -/
def BitPool.rankFor (orig pool : BitPool) : Nat :=
  rank (bitAt pool.bits) 0 orig.requests

/-- A copy whose requests have the lower rank is simpler. -/
def Simpler (orig pool' pool : BitPool) : Prop :=
  orig.rankFor pool' < orig.rankFor pool

/-- Mutation steps on one copy, one after the other and each from any state of the runner, of
which `changes` reported a change. None of them swaps the blocks of a long request forward. -/
inductive Mutations (R : Type) [Platform R] (orig : BitPool) : Nat → BitPool → BitPool → Prop
  | none (pool : BitPool) : Mutations R orig 0 pool pool
  | step {changes fuel : Nat} {pool pool' : BitPool} {r : Bool × BitPool} {s s' : AutoState R}
      (hs : s.Ready) (hback : ¬ SwapsForward fuel orig s)
      (hrun : chooseAndMutateRequest fuel orig pool s = .ok r s')
      (hrest : Mutations R orig changes r.2 pool') :
      Mutations R orig (r.1.toNat + changes) pool pool'

theorem Simpler.wellFounded (orig : BitPool) : WellFounded (Simpler orig) :=
  InvImage.wf orig.rankFor Nat.lt_wfRel.wf

/-- A step that reports a change lowers the rank, and another one leaves it. -/
theorem rankFor_step {s : AutoState R} (hs : s.Ready) {fuel : Nat} {orig : BitPool}
    (ho : Source orig) {pool : BitPool} (hpool : orig.consumed ≤ 8 * pool.bits.length)
    (hback : ¬ SwapsForward fuel orig s) {r : Bool × BitPool} {s' : AutoState R}
    (hrun : chooseAndMutateRequest fuel orig pool s = .ok r s') :
    orig.rankFor r.2 + r.1.toNat ≤ orig.rankFor pool := by
  obtain ⟨-, hkept, hlowered⟩ := chooseAndMutateRequest_lowers hs ho hpool hback hrun
  cases hreport : r.1 with
  | false =>
    have hsame : bitAt r.2.bits = bitAt pool.bits := funext (hkept hreport)
    rw [BitPool.rankFor, BitPool.rankFor, hsame]
    exact Nat.le_refl _
  | true =>
    obtain ⟨pos, size, hget, hless⟩ := hlowered hreport
    refine rank_lt_of_number orig.requests 0 hget (fun i _ hi => ?_) ?_
    · exact hless.before i (by omega)
    · rw [Nat.zero_add]
      exact hless.less

/-- Each change costs the copy a rank. -/
theorem Mutations.rankFor_le {orig : BitPool} (ho : Source orig) {changes : Nat}
    {pool pool' : BitPool} (h : Mutations R orig changes pool pool')
    (hpool : orig.consumed ≤ 8 * pool.bits.length) :
    orig.rankFor pool' + changes ≤ orig.rankFor pool := by
  induction h with
  | none => exact Nat.le_refl _
  | step hs hback hrun _ ih =>
    have hstep := rankFor_step hs ho hpool hback hrun
    obtain ⟨hedited, -⟩ := chooseAndMutateRequest_lowers hs ho hpool hback hrun
    have hrest := ih (by rwa [hedited.length])
    omega

/-- **Mutations do not go in circles**: a copy that counted a change is simpler than before, and
not the same. -/
theorem mutations_descend {orig : BitPool} (ho : Source orig) :
    WellFounded (Simpler orig) ∧
    ∀ changes pool pool', orig.consumed ≤ 8 * pool.bits.length → 0 < changes →
      Mutations R orig changes pool pool' →
      Simpler orig pool' pool ∧ ∃ i, bitAt pool'.bits i ≠ bitAt pool.bits i := by
  refine ⟨Simpler.wellFounded orig, fun changes pool pool' hpool hchanges h => ?_⟩
  have hrank := h.rankFor_le ho hpool
  have hsimpler : orig.rankFor pool' < orig.rankFor pool := by omega
  refine ⟨hsimpler, Classical.by_contradiction fun hnone => ?_⟩
  have hsame : bitAt pool'.bits = bitAt pool.bits :=
    funext fun i => Classical.not_not.mp fun hne => hnone ⟨i, hne⟩
  rw [BitPool.rankFor, BitPool.rankFor, hsame] at hsimpler
  exact Nat.lt_irrefl _ hsimpler

end

/-- A runner that has just been seeded, with the weights that a model starts with. -/
def mutatingAuto (seed : Word) : AutoState Rng :=
  { freshAuto seed with env := { (freshAuto seed).env with model := initModel .zero } }

theorem mutatingAuto_ready (seed : Word) : (mutatingAuto seed).Ready :=
  ⟨(freshAuto_ready seed).prng, rfl, rfl, (freshAuto_ready seed).dropBits, rfl⟩

/-- Its only request is short. -/
theorem onesPool_back (fuel : Nat) (s : AutoState Rng) : ¬ SwapsForward fuel onesPool s := by
  rintro ⟨s₁, size, -, hsize, hlong, -⟩
  rw [show onesPool.requestCount = 1 from rfl, Nat.mod_one] at hsize
  cases hsize
  exact absurd hlong (by decide)

/-- Two steps in a row on one copy. -/
def mutateTwice (orig pool : BitPool) : Auto Rng ((Bool × BitPool) × (Bool × BitPool)) := do
  let r₁ ← chooseAndMutateRequest 20 orig pool
  let r₂ ← chooseAndMutateRequest 20 orig r₁.2
  return (r₁, r₂)

/-- From the seed 5 on, both of them report a change. -/
theorem mutations_descend_ones : ∃ pool', Mutations Rng onesPool 2 onesPool pool' ∧
    Simpler onesPool pool' onesPool ∧ ∃ i, bitAt pool'.bits i ≠ bitAt onesPool.bits i := by
  have hpass : passes (fun r _ => r.1.1 && r.2.1)
      (mutateTwice onesPool onesPool (mutatingAuto 5)) = true := by decide +kernel
  obtain ⟨r, t, hrun, hreports⟩ := of_passes hpass
  obtain ⟨r₁, s, hfirst, hrun⟩ := bind_eq_ok.mp hrun
  obtain ⟨r₂, t', hsecond, hrun⟩ := bind_eq_ok.mp hrun
  cases hrun
  obtain ⟨hreport₁, hreport₂⟩ := (Bool.and_eq_true _ _).mp hreports
  have hready := mutatingAuto_ready 5
  have hready' : s.Ready :=
    ((chooseAndMutateRequest_safe _ 20 onesPool_source (by decide)).returned hready.within
      hfirst).1.ready hready
  have hsteps : Mutations Rng onesPool (r₁.1.toNat + (r₂.1.toNat + 0)) onesPool r₂.2 :=
    .step hready (onesPool_back 20 _) hfirst (.step hready' (onesPool_back 20 _) hsecond (.none _))
  rw [hreport₁, hreport₂] at hsteps
  exact ⟨r₂.2, hsteps,
    (mutations_descend onesPool_source).2 2 onesPool r₂.2 (by decide) (by decide) hsteps⟩

/-- One request of 65 bits, which answered with only bit 47 set. -/
def longPool : BitPool where
  id := 1
  bits := pack 8 16 fun i => decide (i = 47)
  shrinking := false
  bitsFilled := 128
  bitsCeil := 128
  limit := defPoolLimit
  consumed := 65
  requests := [65]
  requestCeil := 16
  generation := 0
  index := some (indexFrom 0 [65])

theorem longPool_source : Source longPool := by
  refine ⟨?_, rfl⟩
  constructor <;> decide

/-- Three steps in a row, from the seed 912 on. The first moves the bit up, the second changes
nothing, and the third moves the bit back: two changes are reported for the bits of before. -/
theorem mutation_circles : Source longPool ∧ (mutatingAuto 912).Ready ∧ ∃ r₁ s₁ r₂ s₂ r₃ s₃,
    chooseAndMutateRequest 20 longPool longPool (mutatingAuto 912) = .ok r₁ s₁ ∧ r₁.1 = true ∧
    chooseAndMutateRequest 20 longPool r₁.2 s₁ = .ok r₂ s₂ ∧ r₂ = (false, r₁.2) ∧
    chooseAndMutateRequest 20 longPool r₂.2 s₂ = .ok r₃ s₃ ∧ r₃ = (true, longPool) := by
  refine ⟨longPool_source, mutatingAuto_ready 912, ?_⟩
  obtain ⟨r, s, hrun, hreports⟩ : ∃ r s, (chooseAndMutateRequest 20 longPool longPool >>= fun r₁ =>
      chooseAndMutateRequest 20 longPool r₁.2 >>= fun r₂ =>
      chooseAndMutateRequest 20 longPool r₂.2 >>= fun r₃ => pure (r₁, r₂, r₃)) (mutatingAuto 912) =
      .ok r s ∧ decide (r.1.1 = true ∧ r.2.1 = (false, r.1.2) ∧ r.2.2 = (true, longPool)) = true :=
    of_passes (p := fun (r : (Bool × BitPool) × (Bool × BitPool) × (Bool × BitPool)) _ =>
      decide (r.1.1 = true ∧ r.2.1 = (false, r.1.2) ∧ r.2.2 = (true, longPool)))
      (by decide +kernel)
  obtain ⟨hfirst, hsecond, hthird⟩ := of_decide_eq_true hreports
  obtain ⟨a, s₁, hrun₁, hrun⟩ := bind_eq_ok.mp hrun
  obtain ⟨b, s₂, hrun₂, hrun⟩ := bind_eq_ok.mp hrun
  obtain ⟨c, s₃, hrun₃, hrun⟩ := bind_eq_ok.mp hrun
  cases hrun
  exact ⟨a, s₁, b, s₂, c, s, hrun₁, hfirst, hrun₂, hsecond, hrun₃, hthird⟩

end Theft
