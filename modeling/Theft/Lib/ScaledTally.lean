import Mathlib.Algebra.Order.Ring.Nat

/-!
# Scaled tallies

A tally of something that there may be much of. Each mark stands for one thing until there are
`base` of them. The next mark then says so, and from it on each mark stands for `base` things; and
so on. `step_tells`: whoever reads the marks knows how many things there were, up to what one mark
stands for.
-/

namespace ScaledTally

/-- What one more thing adds to a tally. A mark may say what the marks stand for from it on. -/
inductive Mark
  | nothing
  | plain
  | scaled (scale : Nat)
  deriving DecidableEq

/-- What the writer keeps: what a mark stands for, and how many things there were. -/
structure Tally where
  scale : Nat
  count : Nat

namespace Tally

def start : Tally := ⟨1, 0⟩

def mark (base : Nat) (t : Tally) : Mark :=
  if t.count = base * t.scale then .scaled (base * t.scale)
  else if t.count % t.scale = 0 then .plain
  else .nothing

def step (base : Nat) (t : Tally) : Tally :=
  ⟨if t.count = base * t.scale then base * t.scale else t.scale, t.count + 1⟩

end Tally

/-- What the reader keeps: what a mark stands for, and how many things there are before the next
one. -/
structure Reading where
  scale : Nat
  next : Nat

namespace Reading

def start : Reading := ⟨1, 0⟩

def see (r : Reading) : Mark → Reading
  | .nothing => r
  | .plain => ⟨r.scale, r.next + r.scale⟩
  | .scaled scale => ⟨scale, scale + scale⟩

/-- The number of things is between what the last two marks stand for, and these differ by one or
by less than there are. -/
structure Tells (r : Reading) (count : Nat) : Prop where
  above : r.next < count + r.scale
  below : count ≤ r.next
  fine : r.scale = 1 ∨ r.scale < count

end Reading

/-- Writer and reader agree. -/
structure Agree (base : Nat) (t : Tally) (r : Reading) : Prop where
  same : r.scale = t.scale
  power : ∃ k, t.scale = base ^ k
  bound : t.count ≤ base * t.scale
  whole : r.scale ∣ r.next
  tells : r.Tells t.count

theorem start_agree {base : Nat} : Agree base .start .start where
  same := rfl
  power := ⟨0, rfl⟩
  bound := Nat.zero_le _
  whole := Nat.dvd_zero 1
  tells := ⟨Nat.zero_lt_one, Nat.le_refl 0, .inl rfl⟩

variable {base : Nat} {t : Tally} {r : Reading}

theorem Agree.scale_pos (h : Agree base t r) (hbase : 2 ≤ base) : 0 < t.scale := by
  obtain ⟨k, hk⟩ := h.power
  rw [hk]
  exact Nat.pow_pos (by omega)

/-- **A tally can be read.** Writer and reader agree after each thing. -/
theorem Agree.step (h : Agree base t r) (hbase : 2 ≤ base) :
    Agree base (t.step base) (r.see (t.mark base)) := by
  have hpos := h.scale_pos hbase
  have hbound := h.bound
  obtain ⟨habove, hbelow, hfine⟩ := h.tells
  rw [h.same] at habove hfine
  unfold Tally.step Tally.mark
  by_cases hfull : t.count = base * t.scale
  · rw [if_pos hfull, if_pos hfull]
    have hgrown : 2 * t.scale ≤ base * t.scale := Nat.mul_le_mul_right _ hbase
    have hmore : 2 * (base * t.scale) ≤ base * (base * t.scale) := Nat.mul_le_mul_right _ hbase
    obtain ⟨k, hk⟩ := h.power
    exact ⟨rfl, ⟨k + 1, by rw [hk, Nat.pow_succ, Nat.mul_comm]⟩, by dsimp only; omega,
      Nat.dvd_add (Nat.dvd_refl _) (Nat.dvd_refl _),
      ⟨by dsimp only [Reading.see]; omega, by dsimp only [Reading.see]; omega,
        .inr (by dsimp only [Reading.see]; omega)⟩⟩
  · rw [if_neg hfull, if_neg hfull]
    have hdvd : t.scale ∣ r.next := h.same ▸ h.whole
    have hroom : t.count + 1 ≤ base * t.scale := by omega
    have hfine' : t.scale = 1 ∨ t.scale < t.count + 1 := hfine.imp_right fun hlt => by omega
    by_cases hwhole : t.count % t.scale = 0
    · rw [if_pos hwhole]
      -- the next mark was expected just here
      have hnext : r.next = t.count := by
        have hgap : t.scale ∣ r.next - t.count :=
          Nat.dvd_sub hdvd (Nat.dvd_of_mod_eq_zero hwhole)
        have := Nat.eq_zero_of_dvd_of_lt hgap (by omega)
        omega
      refine ⟨h.same, h.power, hroom, ?_, ⟨?_, ?_, ?_⟩⟩
      · exact Nat.dvd_add h.whole (Nat.dvd_refl _)
      · dsimp only [Reading.see]
        omega
      · dsimp only [Reading.see]
        rw [h.same]
        omega
      · exact h.same ▸ hfine'
    · rw [if_neg hwhole]
      have hnext : r.next ≠ t.count := fun heq => hwhole (Nat.mod_eq_zero_of_dvd (heq ▸ hdvd))
      refine ⟨h.same, h.power, hroom, h.whole, ⟨?_, ?_, ?_⟩⟩
      · dsimp only [Reading.see]
        rw [h.same]
        omega
      · dsimp only [Reading.see]
        omega
      · exact h.same ▸ hfine'

/-- A mark stands for no more than there are things. -/
theorem Agree.scale_le (h : Agree base t r) : t.scale = 1 ∨ t.scale < t.count :=
  h.same ▸ h.tells.fine

end ScaledTally
