import Mathlib.Algebra.Order.Ring.Int

/-!
# Integer types of C

Integer types of a platform with an `int` of 32 bits and two's complement, and what the operators
do with their values: the operands are promoted, unsigned results wrap, and a signed result that
does not fit is undefined.
-/

/-- An integer type -/
structure CType where
  width : Nat
  signed : Bool
  deriving DecidableEq, Repr

namespace CType

def minValue (t : CType) : Int := if t.signed then -2 ^ (t.width - 1) else 0

def maxValue (t : CType) : Int := if t.signed then 2 ^ (t.width - 1) - 1 else 2 ^ t.width - 1

/-- A value of the type -/
def Holds (t : CType) (v : Int) : Prop := t.minValue ≤ v ∧ v ≤ t.maxValue

/-- The conversion of a value to the type, modulo `2 ^ width` -/
def convert (t : CType) (v : Int) : Int :=
  if t.signed then v.bmod (2 ^ t.width) else v % 2 ^ t.width

/-- The type that an operand of the type is promoted to -/
def promote (t : CType) : CType := if t.width < 32 then ⟨32, true⟩ else t

/-- `-a`, when it is defined -/
def neg (t : CType) (a : Int) : Option Int :=
  if t.signed then if a = t.minValue then none else some (-a) else some (t.convert (-a))

/-- `a % b`, when it is defined: the quotient has to fit as well. -/
def rem (t : CType) (a b : Int) : Option Int :=
  if b = 0 ∨ (t.signed ∧ a = t.minValue ∧ b = -1) then none else some (a.tmod b)

variable {t : CType} {a b : Int}

theorem two_pow_width (hwidth : 0 < t.width) : (2 : Int) ^ t.width = 2 * 2 ^ (t.width - 1) := by
  obtain ⟨w, hw⟩ := Nat.exists_eq_succ_of_ne_zero (Nat.pos_iff_ne_zero.mp hwidth)
  rw [hw, Nat.succ_sub_one, Int.pow_succ, Int.mul_comm]

theorem two_pow_pos (n : Nat) : (0 : Int) < 2 ^ n := Int.pow_pos (by decide)

theorem minValue_signed (h : t.signed = true) : t.minValue = -2 ^ (t.width - 1) := if_pos h

theorem maxValue_signed (h : t.signed = true) : t.maxValue = 2 ^ (t.width - 1) - 1 := if_pos h

theorem minValue_unsigned (h : t.signed = false) : t.minValue = 0 := by simp [minValue, h]

theorem maxValue_unsigned (h : t.signed = false) : t.maxValue = 2 ^ t.width - 1 := by
  simp [maxValue, h]

/-- A value of the type is converted to itself. -/
theorem convert_of_holds (hwidth : 0 < t.width) (h : t.Holds a) : t.convert a = a := by
  obtain ⟨hmin, hmax⟩ := h
  have hpow := two_pow_width hwidth
  have hcast : ((2 ^ t.width : Nat) : Int) = 2 ^ t.width := by simp
  unfold convert
  cases hsigned : t.signed with
  | true =>
    rw [minValue_signed hsigned] at hmin
    rw [maxValue_signed hsigned] at hmax
    rw [if_pos rfl]
    apply Int.bmod_eq_of_le
    · omega
    · omega
  | false =>
    rw [minValue_unsigned hsigned] at hmin
    rw [maxValue_unsigned hsigned] at hmax
    simp only [Bool.false_eq_true, if_false]
    exact Int.emod_eq_of_lt hmin (by omega)

/-- What is converted to the type is a value of it. -/
theorem holds_convert (hwidth : 0 < t.width) (a : Int) : t.Holds (t.convert a) := by
  have hpow := two_pow_width hwidth
  have hpos := two_pow_pos t.width
  have hcast : ((2 ^ t.width : Nat) : Int) = 2 ^ t.width := by simp
  unfold Holds convert
  cases hsigned : t.signed with
  | true =>
    have hlow := Int.le_bmod (x := a) (Nat.two_pow_pos t.width)
    have hhigh := Int.bmod_lt (x := a) (Nat.two_pow_pos t.width)
    rw [minValue_signed hsigned, maxValue_signed hsigned, if_pos rfl]
    omega
  | false =>
    have hlow := Int.emod_nonneg a (Int.ne_of_gt hpos)
    have hhigh := Int.emod_lt_of_pos a hpos
    rw [minValue_unsigned hsigned, maxValue_unsigned hsigned]
    simp only [Bool.false_eq_true, if_false]
    omega

theorem promote_of_width (h : 32 ≤ t.width) : t.promote = t := if_neg (by omega)

theorem promote_of_lt (h : t.width < 32) : t.promote = ⟨32, true⟩ := if_pos h

/-- A type narrower than `int` has none of its extreme values. -/
theorem Holds.lt_int (hwidth : 0 < t.width) (h : t.width < 32) (ha : t.Holds a) :
    -2 ^ 31 < a ∧ a < 2 ^ 31 := by
  obtain ⟨hmin, hmax⟩ := ha
  have hpow := two_pow_width hwidth
  have hpos := two_pow_pos (t.width - 1)
  have hle : (2 : Int) ^ t.width ≤ 2 ^ 31 := by
    exact_mod_cast Nat.pow_le_pow_right (show 0 < 2 by decide) (show t.width ≤ 31 by omega)
  cases hsigned : t.signed with
  | true =>
    rw [minValue_signed hsigned] at hmin
    rw [maxValue_signed hsigned] at hmax
    omega
  | false =>
    rw [minValue_unsigned hsigned] at hmin
    rw [maxValue_unsigned hsigned] at hmax
    omega

end CType
