import Mathlib.Order.Interval.Finset.Nat
import Theft.MutationOrder
import Theft.Weights

/-!
# Mutations are drawn by weight

`mutation_by_weight`: the numbers that `get_weighted_mutation` draws stand for the mutations in
proportion to their weights, and of each four numbers at most three stand for none.
-/

namespace Theft

open PackedBits Exec

namespace AutoshrinkModel

/-- The weight of a mutation -/
def weightOf (m : AutoshrinkModel) (mtype : Mutation) : Nat := (m.weights mtype.action).toNat

/-- The number from which on the numbers stand for a mutation -/
def startOf (m : AutoshrinkModel) : Mutation → Nat
  | .shift => 0
  | .mask => m.weightOf .shift
  | .swap => m.weightOf .shift + m.weightOf .mask
  | .sub => m.weightOf .shift + m.weightOf .mask + m.weightOf .swap

def totalWeight (m : AutoshrinkModel) : Nat := m.startOf .sub + m.weightOf .sub

/-- The mutation that a number stands for -/
def share (m : AutoshrinkModel) (drawn : Nat) : Option Mutation :=
  if drawn < m.startOf .mask then some .shift
  else if drawn < m.startOf .swap then some .mask
  else if drawn < m.startOf .sub then some .swap
  else if drawn < m.totalWeight then some .sub
  else none

/-- How many bits `get_weighted_mutation` draws at a time -/
def drawBitCount (m : AutoshrinkModel) : Nat := raiseTo m.totalWeight 64 7

theorem share_eq_some_iff (m : AutoshrinkModel) (drawn : Nat) (mtype : Mutation) :
    m.share drawn = some mtype ↔
      m.startOf mtype ≤ drawn ∧ drawn < m.startOf mtype + m.weightOf mtype := by
  have hmask : m.startOf .mask = m.startOf .shift + m.weightOf .shift := (Nat.zero_add _).symm
  have hswap : m.startOf .swap = m.startOf .mask + m.weightOf .mask := rfl
  have hsub : m.startOf .sub = m.startOf .swap + m.weightOf .swap := rfl
  have hzero : m.startOf .shift = 0 := rfl
  unfold share totalWeight
  split_ifs with h₁ h₂ h₃ h₄
  all_goals
    cases mtype <;> simp only [reduceCtorEq, Option.some.injEq, true_iff, false_iff] <;> omega

/-- **As many numbers stand for a mutation as its weight says.** -/
theorem card_share (m : AutoshrinkModel) (mtype : Mutation) {draws : Nat}
    (hdraws : m.totalWeight ≤ draws) :
    ((Finset.range draws).filter fun b => m.share b = some mtype).card = m.weightOf mtype := by
  have hend : m.startOf mtype + m.weightOf mtype ≤ m.totalWeight := by
    cases mtype <;> simp only [totalWeight, startOf] <;> omega
  have hshare : ((Finset.range draws).filter fun b => m.share b = some mtype) =
      Finset.Ico (m.startOf mtype) (m.startOf mtype + m.weightOf mtype) := by
    ext b
    rw [Finset.mem_filter, Finset.mem_range, Finset.mem_Ico, share_eq_some_iff]
    omega
  rw [hshare, Nat.card_Ico]
  omega

/-- Within the bounds of the weights, 7 to 9 bits are enough, and not too many. -/
theorem InRange.drawBitCount {m : AutoshrinkModel} (h : m.InRange) :
    7 ≤ m.drawBitCount ∧ m.drawBitCount ≤ 9 ∧ m.totalWeight ≤ 2 ^ m.drawBitCount ∧
      2 ^ m.drawBitCount ≤ 4 * m.totalWeight := by
  have hbounds (mtype : Mutation) : 8 ≤ m.weightOf mtype ∧ m.weightOf mtype ≤ 128 := by
    have hlow : mtype.action.minWeight.toNat ≤ m.weightOf mtype := h.low mtype.action
    have hhigh : m.weightOf mtype ≤ mtype.action.maxWeight.toNat := h.high mtype.action
    cases mtype <;> exact ⟨hlow, hhigh⟩
  have htotal : 32 ≤ m.totalWeight ∧ m.totalWeight ≤ 512 := by
    have h₁ := hbounds .shift
    have h₂ := hbounds .mask
    have h₃ := hbounds .swap
    have h₄ := hbounds .sub
    simp only [totalWeight, startOf]
    omega
  unfold AutoshrinkModel.drawBitCount
  rw [raiseTo]
  split
  · rw [raiseTo]
    split
    · rw [raiseTo, if_neg (by omega)]
      omega
    · omega
  · omega

end AutoshrinkModel

/-! ## Drawing -/

section
variable {R : Type} [Platform R] {s₀ s : AutoState R} {S : Nat → Bool} {m : AutoshrinkModel}

/-- The number that is drawn after `k` others -/
def drawnAt (S : Nat → Bool) (bitCount k : Nat) : Nat := drawn (later (bitCount * k) S) bitCount

omit [Platform R] in
theorem drawnAt_succ (bitCount k : Nat) :
    drawnAt (later bitCount S) bitCount k = drawnAt S bitCount (k + 1) := by
  unfold drawnAt later
  congr 1
  funext i
  rw [Nat.mul_succ]
  congr 1
  omega

/-- The draws end with the first number that stands for a mutation. -/
theorem drawMutation_share {bitCount : Nat} (hbits : bitCount ≤ 16) (fuel : Nat) :
    ∀ {S : Nat → Bool} {s : AutoState R}, Drawing s₀ S s →
    (∃ k < fuel, (∀ j < k, m.share (drawnAt S bitCount j) = none) ∧ ∃ mtype s',
      m.share (drawnAt S bitCount k) = some mtype ∧
      drawMutation bitCount (m.startOf .mask) (m.startOf .swap) (m.startOf .sub) m.totalWeight
        fuel s = .ok mtype s') ∨
    (∀ j < fuel, m.share (drawnAt S bitCount j) = none) ∧ ∃ s',
      drawMutation bitCount (m.startOf .mask) (m.startOf .swap) (m.startOf .sub) m.totalWeight
        fuel s = .error .fuel s' := by
  induction fuel with
  | zero => exact fun _ => .inr ⟨nofun, _, rfl⟩
  | succ fuel ih =>
    intro S s hs
    obtain ⟨s₁, hrun, hs₁⟩ := prngBits_run hs (Nat.le_trans hbits (by decide : 16 ≤ 64))
    have hdrawn : (Gen.answer S bitCount).toNat % 2 ^ 16 = drawnAt S bitCount 0 :=
      Nat.mod_eq_of_lt (Nat.lt_of_lt_of_le (drawn_lt S bitCount)
        (Nat.pow_le_pow_right (by decide) hbits))
    rw [drawMutation, bind_apply, hrun]
    dsimp only
    rw [hdrawn]
    have found (mtype : Mutation) (hshare : m.share (drawnAt S bitCount 0) = some mtype) :
        ∃ k < fuel + 1, (∀ j < k, m.share (drawnAt S bitCount j) = none) ∧ ∃ mtype' s',
          m.share (drawnAt S bitCount k) = some mtype' ∧
          (pure mtype : Auto R Mutation) s₁ = .ok mtype' s' :=
      ⟨0, Nat.succ_pos fuel, nofun, mtype, s₁, hshare, rfl⟩
    by_cases h₁ : drawnAt S bitCount 0 < m.startOf .mask
    · rw [if_pos h₁]
      exact .inl (found .shift (by rw [AutoshrinkModel.share, if_pos h₁]))
    · by_cases h₂ : drawnAt S bitCount 0 < m.startOf .swap
      · rw [if_neg h₁, if_pos h₂]
        exact .inl (found .mask (by rw [AutoshrinkModel.share, if_neg h₁, if_pos h₂]))
      · by_cases h₃ : drawnAt S bitCount 0 < m.startOf .sub
        · rw [if_neg h₁, if_neg h₂, if_pos h₃]
          exact .inl (found .swap (by rw [AutoshrinkModel.share, if_neg h₁, if_neg h₂, if_pos h₃]))
        · by_cases h₄ : drawnAt S bitCount 0 < m.totalWeight
          · rw [if_neg h₁, if_neg h₂, if_neg h₃, if_pos h₄]
            exact .inl (found .sub
              (by rw [AutoshrinkModel.share, if_neg h₁, if_neg h₂, if_neg h₃, if_pos h₄]))
          · rw [if_neg h₁, if_neg h₂, if_neg h₃, if_neg h₄]
            have hnone : m.share (drawnAt S bitCount 0) = none := by
              rw [AutoshrinkModel.share, if_neg h₁, if_neg h₂, if_neg h₃, if_neg h₄]
            -- the numbers after the first one
            have shift {k : Nat}
                (h : ∀ j < k, m.share (drawnAt (later bitCount S) bitCount j) = none) :
                ∀ j < k + 1, m.share (drawnAt S bitCount j) = none := by
              intro j hj
              cases j with
              | zero => exact hnone
              | succ j =>
                rw [← drawnAt_succ]
                exact h j (by omega)
            obtain ⟨k, hk, hbefore, mtype, s', hshare, hrun'⟩ | ⟨hbefore, s', hrun'⟩ := ih hs₁
            · refine .inl ⟨k + 1, by omega, shift hbefore, mtype, s', ?_, hrun'⟩
              rw [← drawnAt_succ]
              exact hshare
            · exact .inr ⟨shift hbefore, s', hrun'⟩

/-- **Mutations are drawn by weight.** With weights within their bounds `get_weighted_mutation`
draws numbers of 7 to 9 bits and answers with the mutation that the first one below the sum of the
weights stands for. As many numbers stand for each mutation as its weight says, and at least a
quarter of all for one. -/
theorem mutation_by_weight (hs : s.Ready) (hm : s.env.model.InRange) (fuel : Nat) :
    let m := s.env.model
    (7 ≤ m.drawBitCount ∧ m.drawBitCount ≤ 9 ∧ 2 ^ m.drawBitCount ≤ 4 * m.totalWeight) ∧
    (∀ mtype, ((Finset.range (2 ^ m.drawBitCount)).filter fun b => m.share b = some mtype).card =
      m.weightOf mtype) ∧
    ((∃ k < fuel, (∀ j < k, m.share (drawnAt s.prng.stream m.drawBitCount j) = none) ∧ ∃ mtype s',
      m.share (drawnAt s.prng.stream m.drawBitCount k) = some mtype ∧
      getWeightedMutation fuel s = .ok mtype s') ∨
    (∀ j < fuel, m.share (drawnAt s.prng.stream m.drawBitCount j) = none) ∧ ∃ s',
      getWeightedMutation fuel s = .error .fuel s') := by
  intro m
  obtain ⟨hlow, hhigh, htotal, hquarter⟩ := hm.drawBitCount
  refine ⟨⟨hlow, hhigh, hquarter⟩, fun mtype => m.card_share mtype htotal, ?_⟩
  have hs' : Drawing s s.prng.stream s := ⟨hs.prng, hs.noPool, rfl, rfl, rfl⟩
  have hbits : m.drawBitCount ≤ 16 := Nat.le_trans hhigh (by decide)
  have hrun : getWeightedMutation fuel s = drawMutation m.drawBitCount (m.startOf .mask)
      (m.startOf .swap) (m.startOf .sub) m.totalWeight fuel s := by
    rw [getWeightedMutation, bind_apply, get_apply]
    dsimp only
    rw [hm.unscheduled]
    exact congrFun (if_pos hbits) s
  rw [hrun]
  exact drawMutation_share hbits fuel hs'

end

/-- The weights that a model starts with -/
theorem mutation_by_weight_fresh : (initModel .zero).InRange ∧
    (initModel .zero).drawBitCount = 8 ∧
    ((Finset.range (2 ^ 8)).filter fun b => (initModel .zero).share b = some .swap).card = 48 := by
  have hm : (initModel .zero).InRange :=
    ⟨rfl, fun a => by cases a <;> decide, fun a => by cases a <;> decide⟩
  have h := (mutation_by_weight (mutatingAuto_ready 1) hm 1).2.1 .swap
  exact ⟨hm, rfl, h⟩

end Theft
