import Theft.MutationEnds

/-!
# The weights of the mutations

`theft_autoshrink_update_model` raises and lowers the weights with which autoshrinking picks what
it does next.

* `updateModel_moves`: an update is exact arithmetic between the two bounds of a weight, although
  the bytes wrap and a new weight of 0 is no change;
* `AutoshrinkModel.Sound`: no weight leaves its bounds;
* `EditRules`: what is kept by the draws and the marks of an edit is kept by the whole edit.
-/

namespace Theft

open PackedBits Exec

/-! ## An update -/

namespace AutoshrinkAction

/-- `DROPS_MIN` or `MODEL_MIN` -/
def minWeight : AutoshrinkAction → Byte
  | .drop => dropsMin
  | _ => modelMin

/-- `DROPS_MAX` or `MODEL_MAX` -/
def maxWeight : AutoshrinkAction → Byte
  | .drop => dropsMax
  | _ => modelMax

/-- The nearest weight within the bounds -/
def clamp (a : AutoshrinkAction) (x : Int) : Int := max a.minWeight.toNat (min x a.maxWeight.toNat)

end AutoshrinkAction

namespace AutoshrinkModel

structure InRange (m : AutoshrinkModel) : Prop where
  unscheduled : m.nextAction = none
  low : ∀ a, a.minWeight ≤ m.weights a
  high : ∀ a, m.weights a ≤ a.maxWeight

/-- How far an update moves a weight: up when the action led to a failure, down when it did not,
and down when it was tried without a change and others led to a failure. -/
def drift (m : AutoshrinkModel) (failed : Bool) (adjustment : Nat) (a : AutoshrinkAction) : Int :=
  if m.curSet a then if failed then adjustment else -adjustment
  else if m.curTried a && failed then -adjustment else 0

end AutoshrinkModel

/-- The weight that `adjust` stores. -/
def adjusted (min max : Byte) (set tried : Bool) (adjustment old : Byte) : Byte :=
  let nv := if set then old + adjustment
    else if tried && (0#8).slt adjustment then old - adjustment else 0
  if nv ≠ 0 then if max < nv then max else if nv < min then min else nv else old

theorem adjust_eq (m : AutoshrinkModel) (w : AutoshrinkAction) (min max adjustment : Byte) :
    adjust m w min max adjustment = { m with
      weights := fun a => if a = w then
        adjusted min max (m.curSet w) (m.curTried w) adjustment (m.weights w)
        else m.weights a } := by
  unfold adjust adjusted
  generalize (if m.curSet w = true then m.weights w + adjustment
    else if (m.curTried w && (0#8).slt adjustment) = true then m.weights w - adjustment else 0) = nv
  dsimp only
  split
  · rfl
  · have hsame : (fun a => if a = w then m.weights w else m.weights a) = m.weights := by
      funext a
      split
      · rename_i h
        rw [h]
      · rfl
    rw [hsame]

theorem updateModel_weights {m : AutoshrinkModel} (hset : ∃ a, m.curSet a = true) (res : TrialRes)
    (adjustment : Byte) (a : AutoshrinkAction) : (updateModel m res adjustment).weights a =
      adjusted a.minWeight a.maxWeight (m.curSet a) (m.curTried a)
        (if res = .fail then adjustment else -adjustment) (m.weights a) := by
  have hany : [.drop, .shift, .mask, .swap, .sub].any m.curSet = true := by
    obtain ⟨b, hb⟩ := hset
    rw [List.any_eq_true]
    exact ⟨b, by cases b <;> decide, hb⟩
  simp only [updateModel, if_pos hany, adjust_eq]
  cases a <;> simp [AutoshrinkAction.minWeight, AutoshrinkAction.maxWeight]

/-- The new weight is brought between the bounds; it is 0 only where the old one was the lower
bound. -/
theorem toNat_stored {min max nv old : Byte} (hle : min ≤ max) (hzero : nv = 0 → old = min) :
    (if nv ≠ 0 then if max < nv then max else if nv < min then min else nv else old).toNat =
      Max.max min.toNat (Min.min nv.toNat max.toNat) := by
  have hle' : min.toNat ≤ max.toNat := hle
  split
  · split
    · rename_i h
      have : max.toNat < nv.toNat := h
      omega
    · rename_i h
      have hmax : ¬ max.toNat < nv.toNat := h
      split
      · rename_i h
        have hmin : nv.toNat < min.toNat := h
        omega
      · rename_i h
        have hmin : ¬ nv.toNat < min.toNat := h
        omega
  · rename_i h
    have hnv : nv = 0 := by simpa using h
    rw [hzero hnv, hnv]
    simp

/-- Between bounds from which the adjustment does not reach across 0 or 256, no byte wraps. -/
theorem toNat_adjusted {min max adjustment old : Byte} (hmin : 8 ≤ min.toNat)
    (hmax : max.toNat ≤ 0xA0) (hlow : min ≤ old) (hhigh : old ≤ max) (hpos : 0 < adjustment.toNat)
    (hsmall : adjustment.toNat ≤ 8) (set tried failed : Bool) :
    ((adjusted min max set tried (if failed then adjustment else -adjustment) old).toNat : Int) =
      Max.max (min.toNat : Int) (Min.min ((old.toNat : Int) +
        if set then if failed then (adjustment.toNat : Int) else -adjustment.toNat
        else if tried && failed then -(adjustment.toNat : Int) else 0) max.toNat) := by
  have hlow' : min.toNat ≤ old.toNat := hlow
  have hhigh' : old.toNat ≤ max.toNat := hhigh
  have hle : min ≤ max := BitVec.le_trans hlow hhigh
  have hsub : (old - adjustment).toNat = old.toNat - adjustment.toNat :=
    BitVec.toNat_sub_of_le (BitVec.le_def.mpr (by omega))
  have hadd : (old + adjustment).toNat = old.toNat + adjustment.toNat := by
    rw [BitVec.toNat_add]
    omega
  have hdown : old - adjustment = 0 → old = min := by
    intro h
    rw [h] at hsub
    apply BitVec.eq_of_toNat_eq
    simp at hsub
    omega
  have hup : old + adjustment = 0 → old = min := by
    intro h
    rw [h] at hadd
    simp at hadd
    omega
  have hpositive : (0#8).slt adjustment = true := by
    rw [BitVec.slt, BitVec.toInt_eq_toNat_of_lt (show 2 * adjustment.toNat < 2 ^ 8 by omega)]
    simp
    omega
  have hnegative : (0#8).slt (-adjustment) = false := by
    simp only [BitVec.slt, BitVec.toInt_eq_toNat_cond, BitVec.toNat_neg]
    simp
    omega
  have hneg : old + -adjustment = old - adjustment := (BitVec.sub_eq_add_neg _ _).symm
  have unchanged : (old.toNat : Int) =
      Max.max (min.toNat : Int) (Min.min (old.toNat + 0) max.toNat) := by
    omega
  cases set with
  | true =>
    cases failed with
    | true =>
      have h := toNat_stored hle hup
      simp only [adjusted, if_true]
      omega
    | false =>
      have h := toNat_stored hle hdown
      simp only [adjusted, if_true, Bool.false_eq_true, if_false, hneg]
      omega
  | false =>
    cases tried with
    | false => simpa [adjusted] using unchanged
    | true =>
      cases failed with
      | true =>
        have h := toNat_stored hle hdown
        simp only [adjusted, hpositive, if_true, Bool.false_eq_true, if_false, Bool.and_true]
        omega
      | false => simpa [adjusted, hnegative] using unchanged

namespace AutoshrinkModel

theorem updateModel_idle {m : AutoshrinkModel} (hset : ∀ a, m.curSet a = false) (res : TrialRes)
    (adjustment : Byte) : updateModel m res adjustment = m := by
  have hany : ¬ [.drop, .shift, .mask, .swap, .sub].any m.curSet = true := by
    simp [hset]
  rw [updateModel, if_neg hany]

variable {m : AutoshrinkModel}

/-- An action of the last step is to be judged. -/
theorem updateModel_clamps (h : m.InRange) (hset : ∃ a, m.curSet a = true) (res : TrialRes)
    {adjustment : Byte} (hpos : 0 < adjustment.toNat) (hsmall : adjustment.toNat ≤ 8)
    (a : AutoshrinkAction) : ((updateModel m res adjustment).weights a).toNat =
      a.clamp ((m.weights a).toNat + m.drift (decide (res = .fail)) adjustment.toNat a) := by
  have hmin : 8 ≤ a.minWeight.toNat := by cases a <;> decide
  have hmax : a.maxWeight.toNat ≤ 0xA0 := by cases a <;> decide
  have hmoved := toNat_adjusted hmin hmax (h.low a) (h.high a) hpos hsmall (m.curSet a)
    (m.curTried a) (decide (res = .fail))
  simp only [decide_eq_true_eq] at hmoved
  rw [updateModel_weights hset, hmoved]
  simp only [AutoshrinkAction.clamp, drift, decide_eq_true_eq]

theorem clamp_bounds (a : AutoshrinkAction) (x : Int) :
    a.minWeight.toNat ≤ a.clamp x ∧ a.clamp x ≤ a.maxWeight.toNat := by
  have : a.minWeight.toNat ≤ a.maxWeight.toNat := by cases a <;> decide
  unfold AutoshrinkAction.clamp
  omega

theorem updateModel_unscheduled (res : TrialRes) (adjustment : Byte) :
    (updateModel m res adjustment).nextAction = m.nextAction := by
  unfold updateModel
  split
  · simp only [adjust_eq]
  · rfl

theorem InRange.updateModel (h : m.InRange) (res : TrialRes) {adjustment : Byte}
    (hpos : 0 < adjustment.toNat) (hsmall : adjustment.toNat ≤ 8) :
    (updateModel m res adjustment).InRange := by
  by_cases hset : ∃ a, m.curSet a = true
  · have hmoved := updateModel_clamps h hset res hpos hsmall
    refine ⟨(updateModel_unscheduled res adjustment).trans h.unscheduled, fun a => ?_, fun a => ?_⟩
    · have := hmoved a ▸ (clamp_bounds a _).1
      exact BitVec.le_def.mpr (by omega)
    · have := hmoved a ▸ (clamp_bounds a _).2
      exact BitVec.le_def.mpr (by omega)
  · rw [updateModel_idle fun a => by simpa using fun ha => hset ⟨a, ha⟩]
    exact h

/-- **An update is exact arithmetic between the bounds of a weight**, where an action of the last
step is to be judged; else it changes nothing. The weights stay within their bounds. -/
theorem updateModel_moves (h : m.InRange) (res : TrialRes) {adjustment : Byte}
    (hpos : 0 < adjustment.toNat) (hsmall : adjustment.toNat ≤ 8) :
    (updateModel m res adjustment).InRange ∧
    ((∃ a, m.curSet a = true) → ∀ a, ((updateModel m res adjustment).weights a).toNat =
      a.clamp ((m.weights a).toNat + m.drift (decide (res = .fail)) adjustment.toNat a)) ∧
    ((∀ a, m.curSet a = false) → updateModel m res adjustment = m) :=
  ⟨h.updateModel res hpos hsmall, fun hset => updateModel_clamps h hset res hpos hsmall,
    fun hset => updateModel_idle hset res adjustment⟩

/-- Dropping led to a failure, and shifting changed nothing. -/
theorem updateModel_moves_fresh :
    let m := { initModel .zero with curSet := (· = .drop), curTried := (· = .shift) }
    ((updateModel m .fail 8).weights .drop).toNat = (136 : Int) ∧
      ((updateModel m .fail 8).weights .shift).toNat = (56 : Int) := by
  intro m
  have hm : m.InRange := ⟨rfl, fun a => by cases a <;> decide, fun a => by cases a <;> decide⟩
  have hpos : 0 < (8 : Byte).toNat := by decide
  obtain ⟨-, hmoved, -⟩ := updateModel_moves hm .fail hpos (by decide)
  exact ⟨(hmoved ⟨.drop, rfl⟩ .drop).trans (by decide),
    (hmoved ⟨.drop, rfl⟩ .shift).trans (by decide)⟩

/-- The weights are within their bounds; before the first step there are none, and nothing is to
be judged. -/
inductive Sound (m : AutoshrinkModel) : Prop
  | unset : m.nextAction = none → (∀ a, m.weights a = 0) → (∀ a, m.curSet a = false) → Sound m
  | inRange : m.InRange → Sound m

theorem Sound.zero : Sound .zero := .unset rfl (fun _ => rfl) fun _ => rfl

theorem Sound.updateModel (h : m.Sound) (res : TrialRes) {adjustment : Byte}
    (hpos : 0 < adjustment.toNat) (hsmall : adjustment.toNat ≤ 8) :
    (updateModel m res adjustment).Sound := by
  cases h with
  | unset hnext hweights hset =>
    rw [updateModel_idle hset]
    exact .unset hnext hweights hset
  | inRange h => exact .inRange (h.updateModel res hpos hsmall)

end AutoshrinkModel

/-! ## Edits of a copy -/

section
variable {R : Type} [Platform R] {α β : Type}

/-- What is kept by the draws of an edit and by its marks in the model. -/
structure EditRules (Q : AutoState R → AutoState R → Prop) : Prop where
  tried : ∀ action, Effect Q (setTried action)
  set : ∀ action changed, Effect Q (setSet action changed)
  bits : ∀ bitCount, Effect Q (prngBits bitCount)

namespace EditRules
variable {Q : AutoState R → AutoState R → Prop} [IsPreorder (AutoState R) Q] (h : EditRules Q)

include h

theorem drawMutation (bitCount shift mask swap sub fuel : Nat) :
    Effect Q (drawMutation bitCount shift mask swap sub fuel) := by
  induction fuel with
  | zero => exact .throw _
  | succ fuel ih =>
    refine .bind (h.bits _) fun w => ?_
    dsimp only
    split
    · exact .pure _
    · split
      · exact .pure _
      · split
        · exact .pure _
        · split
          · exact .pure _
          · exact ih

theorem getWeightedMutation (fuel : Nat) : Effect Q (getWeightedMutation fuel) := by
  refine .bind .get fun s => ?_
  dsimp only
  cases s.env.model.nextAction with
  | some action =>
    cases action with
    | drop => exact .throw _
    | shift => exact .pure _
    | mask => exact .pure _
    | swap => exact .pure _
    | sub => exact .pure _
  | none =>
    dsimp only
    split
    · exact drawMutation h _ _ _ _ _ _
    · exact .throw _

theorem pickRegion (size : Nat) : Effect Q (pickRegion size) := by
  unfold Theft.pickRegion
  split
  · apply Effect.bind (h.bits _)
    intro _
    apply Effect.bind (h.bits _)
    intro _
    exact .pure _
  · exact .pure _

omit [Platform R] h in
theorem rewriteBits (pool : BitPool) (offset size : Nat) (f : Word → Word) :
    Effect Q (rewriteBits pool offset size f) := by
  apply Effect.bind (Effect.attempt _)
  intro _
  apply Effect.bind (Effect.attempt _)
  intro _
  exact .pure _

theorem mutateShift (pool : BitPool) (offset size : Nat) :
    Effect Q (mutateShift pool offset size) := by
  apply Effect.bind (h.tried _)
  intro _
  apply Effect.bind (h.bits _)
  intro _
  apply Effect.bind (pickRegion h _)
  intro _
  apply Effect.bind (rewriteBits _ _ _ _)
  intro _
  apply Effect.bind (h.set _ _)
  intro _
  exact .pure _

theorem pickMask (maskSize : Nat) : Effect Q (pickMask maskSize) := by
  apply Effect.bind (h.bits _)
  intro a
  apply Effect.bind (h.bits _)
  intro b
  dsimp only
  split
  · exact .bind (h.bits _) fun _ => .pure _
  · exact .pure _

theorem mutateMask (pool : BitPool) (offset size : Nat) :
    Effect Q (mutateMask pool offset size) := by
  apply Effect.bind (h.tried _)
  intro _
  apply Effect.bind (pickMask h _)
  intro _
  apply Effect.bind (pickRegion h _)
  intro _
  apply Effect.bind (rewriteBits _ _ _ _)
  intro _
  apply Effect.bind (h.set _ _)
  intro _
  exact .pure _

theorem swapBlocks (pool : BitPool) (offset size : Nat) :
    Effect Q (swapBlocks pool offset size) := by
  refine .bind (h.bits _) fun w => ?_
  dsimp only
  split
  · exact .pure _
  · split
    · apply Effect.bind (h.bits _)
      intro posA
      apply Effect.bind (h.bits _)
      intro posB
      split
      · exact .pure _
      · apply Effect.bind (Effect.attempt _)
        intro a
        apply Effect.bind (Effect.attempt _)
        intro b
        split
        · apply Effect.bind (Effect.attempt _)
          intro _
          apply Effect.bind (Effect.attempt _)
          intro _
          apply Effect.bind (h.set _ _)
          intro _
          exact .pure _
        · exact .pure _
    · exact .throw _

theorem swapRequests (orig pool : BitPool) (offset size : Nat) (bits : Word) (is : List Nat) :
    Effect Q (swapRequests orig pool offset size bits is) := by
  induction is with
  | nil => exact .pure _
  | cons i is ih =>
    refine .bind (.attempt _) fun otherSize => ?_
    split
    · apply Effect.bind (Effect.attempt _)
      intro otherOffset
      apply Effect.bind (Effect.attempt _)
      intro other
      split
      · apply Effect.bind (Effect.attempt _)
        intro _
        apply Effect.bind (Effect.attempt _)
        intro _
        apply Effect.bind (h.set _ _)
        intro _
        exact .pure _
      · exact ih
    · exact ih

theorem mutateSwap (orig pool : BitPool) (pos offset size : Nat) :
    Effect Q (mutateSwap orig pool pos offset size) := by
  refine .bind (h.tried _) fun _ => ?_
  split
  · split
    · exact swapBlocks h _ _ _
    · exact .bind (.attempt _) fun _ => swapRequests h _ _ _ _ _ _
  · exact .throw _

theorem mutateSub (pool : BitPool) (offset size : Nat) :
    Effect Q (mutateSub pool offset size) := by
  apply Effect.bind (h.tried _)
  intro _
  apply Effect.bind (h.bits _)
  intro sub
  apply Effect.bind (pickRegion h _)
  intro region
  apply Effect.bind (Effect.attempt _)
  intro bits
  dsimp only
  split
  · apply Effect.bind (h.set _ _)
    intro _
    apply Effect.bind (Effect.attempt _)
    intro _
    exact .pure _
  · exact .pure _

theorem chooseAndMutateRequest (fuel : Nat) (orig pool : BitPool) :
    Effect Q (chooseAndMutateRequest fuel orig pool) := by
  refine .bind (getWeightedMutation h _) fun mtype => ?_
  dsimp only
  split
  · exact .pure _
  · apply Effect.bind (h.bits _)
    intro pos
    apply Effect.bind (Effect.attempt _)
    intro offset
    apply Effect.bind (Effect.attempt _)
    intro size
    cases mtype with
    | shift => exact mutateShift h _ _ _
    | mask => exact mutateMask h _ _ _
    | swap => exact mutateSwap h _ _ _ _ _
    | sub => exact mutateSub h _ _ _

theorem mutateTimes (fuel : Nat) (orig : BitPool) (changeCount tries : Nat) : ∀ changed pool,
    Effect Q (mutateTimes fuel orig changeCount tries changed pool) := by
  induction tries with
  | zero => exact fun _ _ => .pure _
  | succ tries ih =>
    intro changed pool
    refine .bind (chooseAndMutateRequest h _ _ _) fun change => ?_
    dsimp only
    split
    · split
      · exact .pure _
      · exact ih _ _
    · exact ih _ _

theorem mutateBitPool (fuel : Nat) (orig pool : BitPool) :
    Effect Q (mutateBitPool fuel orig pool) := by
  apply Effect.bind (Effect.attempt _)
  intro _
  apply Effect.bind Effect.get
  intro _
  apply Effect.bind Effect.require
  intro _
  apply Effect.bind (h.bits _)
  intro _
  apply Effect.bind (mutateTimes h _ _ _ _ _ _)
  intro _
  exact .pure _

theorem dropSubset (reqSize : Nat) : Effect Q (dropSubset reqSize) := by
  unfold Theft.dropSubset
  split
  · apply Effect.bind (h.bits _)
    intro _
    apply Effect.bind (h.bits _)
    intro _
    exact .pure _
  · exact .pure _

theorem dropChosen (dropBits dropThreshold toDrop ri : Nat) :
    Effect Q (dropChosen dropBits dropThreshold toDrop ri) := by
  unfold Theft.dropChosen
  split
  · exact .pure _
  · exact .bind (h.bits _) fun _ => .pure _

theorem dropRequests (dropBits dropThreshold toDrop : Nat) (orig : List Byte) (rest : List Nat) :
    ∀ ri dropCount s,
      Effect Q (dropRequests dropBits dropThreshold toDrop orig ri rest dropCount s) := by
  induction rest with
  | nil => exact fun _ _ _ => .pure _
  | cons reqSize rest ih =>
    intro ri dropCount s
    refine .bind (dropChosen h _ _ _ _) fun chosen => ?_
    split
    · apply Effect.bind (dropSubset h _)
      intro _
      apply Effect.bind (Effect.attempt _)
      intro _
      exact ih _ _ _
    · exact .bind (.attempt _) fun _ => ih _ _ _

theorem dropFromBitPool (orig pool : BitPool) : Effect Q (dropFromBitPool orig pool) := by
  apply Effect.bind Effect.get
  intro s
  apply Effect.bind (h.bits _)
  intro w
  apply Effect.bind (dropRequests h _ _ _ _ _ _ _ _)
  intro pool
  exact .pure _

theorem shouldDrop (requestCount : Nat) : Effect Q (shouldDrop requestCount) := by
  refine .bind .get fun s => ?_
  dsimp only
  split
  · exact .bind (h.bits _) fun _ => .pure _
  · exact .pure _

theorem changeCopy (fuel : Nat) (orig copy : BitPool) : Effect Q (changeCopy fuel orig copy) := by
  refine .bind (shouldDrop h _) fun drop => ?_
  split
  · apply Effect.bind (h.set _ _)
    intro _
    exact .bind (dropFromBitPool h _ _) fun _ => .pure _
  · exact mutateBitPool h _ _ _

end EditRules

/-! ## A shrinking step -/

/-- The weights of the environment are within their bounds. -/
def InBounds (s : AutoState R) : Prop := s.env.model.InRange

def SoundModel (s : AutoState R) : Prop := s.env.model.Sound

omit [Platform R] in
theorem keepsInBounds_of_weights {s t : AutoState R}
    (hnext : t.env.model.nextAction = s.env.model.nextAction)
    (hweights : t.env.model.weights = s.env.model.weights) : Keeping InBounds s t := by
  rintro ⟨hunscheduled, hlow, hhigh⟩
  exact ⟨hnext.trans hunscheduled, fun a => hweights ▸ hlow a, fun a => hweights ▸ hhigh a⟩

theorem editRules_inBounds : EditRules (Keeping (InBounds (R := R))) where
  tried _ := .modify fun _ => keepsInBounds_of_weights rfl rfl
  set action changed := by
    unfold setSet
    split
    · exact .modify fun _ => keepsInBounds_of_weights rfl rfl
    · exact .pure _
  bits _ := .zoom fun _ => keepsInBounds_of_weights rfl rfl

omit [Platform R] in
/-- When a step starts, the weights are set. -/
theorem startModel_inBounds {E : Stop → AutoState R → Prop} :
    Spec SoundModel (startModel : Auto R Unit) (fun _ => InBounds) E := by
  refine Spec.modify fun s hs => ?_
  dsimp only [InBounds]
  cases hs with
  | unset hnext hweights hset =>
    rw [if_pos (hweights .drop), initModel, if_neg (by simp [hnext])]
    exact ⟨rfl, fun a => by cases a <;> decide, fun a => by cases a <;> decide⟩
  | inRange h =>
    have hdrop : s.env.model.weights .drop ≠ 0 := by
      intro hzero
      have hlow := h.low .drop
      rw [hzero] at hlow
      exact absurd hlow (by decide)
    rw [if_neg hdrop]
    exact ⟨h.unscheduled, h.low, h.high⟩

omit [Platform R] in
theorem keeping_of_model {P : AutoshrinkModel → Prop} {m : Auto R α} (h : Effect KeepsModel m) :
    Effect (Keeping fun s => P s.env.model) m :=
  h.mono fun s t hst hs => by
    dsimp only
    rwa [hst]

omit [Platform R] in
theorem freeCopy_model (copy : BitPool) : Effect KeepsModel (freeCopy copy : Auto R _) := by
  constructor
  intro s
  rw [freeCopy, final_get_bind]
  cases freeBitPool s.prng copy s.ledger <;> rfl

theorem shrinkCopy_sound (fuel : Nat) (alloc : Gen (AllocRes × β)) (orig copy : BitPool) :
    Effect (Keeping SoundModel) (shrinkCopy fuel alloc orig copy : Auto R _) := by
  apply Effect.of_spec
  refine Spec.bind (Effect.to_spec .require) fun _ => Spec.bind startModel_inBounds fun _ => ?_
  refine Spec.mono (Effect.to_spec (I := InBounds) ?_) (fun _ h => h) (fun _ _ => .inRange)
    fun _ _ => .inRange
  apply Effect.bind (editRules_inBounds.changeCopy _ _ _)
  intro copy
  refine .bind ?_ fun copy => ?_
  · apply Effect.bind Effect.get
    intro s
    split
    · exact .pure _
    · exact .attempt _
  apply Effect.bind (keeping_of_model (allocFromBitPool_model _ _ _))
  rintro ⟨⟨ares, res⟩, copy⟩
  cases ares with
  | ok => exact .pure _
  | skip => exact .bind (keeping_of_model (freeCopy_model copy)) fun _ => .pure _
  | error => exact .bind (keeping_of_model (freeCopy_model copy)) fun _ => .pure _

theorem autoshrinkShrink_sound (fuel : Nat) (alloc : Gen (AllocRes × β)) (tactic : Nat) :
    Effect (Keeping SoundModel) (autoshrinkShrink fuel alloc tactic : Auto R _) := by
  refine .bind .get fun s => ?_
  cases s.env.bitPool with
  | none => exact .throw _
  | some orig =>
    dsimp only
    split
    · exact .pure _
    · cases buildIndex orig with
      | none => exact .pure _
      | some orig =>
        refine .bind (.modify fun _ => id) fun _ => ?_
        cases allocBitPool s.ledger.nextId orig.bitsFilled orig.limit orig.requestCeil with
        | none => exact .pure _
        | some copy =>
          exact .bind (.modify fun _ => id) fun _ => shrinkCopy_sound fuel alloc orig copy

end

end Theft
