import Mathlib.Algebra.Order.Floor.Ring
import Mathlib.Data.Int.Log
import Mathlib.Tactic.FieldSimp
import Mathlib.Tactic.Linarith
import Mathlib.Tactic.Positivity
import Mathlib.Tactic.Ring

/-!
# Rounding to binary floating point

Numbers from 0 on with a significand of `p` bits and an exponent without bounds, and rounding to
the nearest of them, to the even one of two.

* `round_mono`: rounding keeps the order;
* `Representable.round_eq`: numbers of the format are left alone, so what lies below one of them
  does not get above it;
* `abs_round_sub_le`: the relative error.
-/

namespace BinaryFloat

variable {K : Type*} [Field K]

/-- The numbers of the format. -/
def Representable (p : ℕ) (x : K) : Prop := ∃ m : ℕ, ∃ e : ℤ, m < 2 ^ p ∧ x = m * 2 ^ e

theorem Representable.natCast {p m : ℕ} (h : m < 2 ^ p) : Representable p (m : K) :=
  ⟨m, 0, h, by rw [zpow_zero, mul_one]⟩

variable [LinearOrder K] [FloorRing K]

/-! ## The nearest integer -/

/-- The nearest integer, and of two the even one. -/
def nearestEven (x : K) : ℤ :=
  if x - ⌊x⌋ < 1 / 2 then ⌊x⌋
  else if 1 / 2 < x - ⌊x⌋ then ⌊x⌋ + 1
  else if ⌊x⌋ % 2 = 0 then ⌊x⌋ else ⌊x⌋ + 1

theorem floor_le_nearestEven (x : K) : ⌊x⌋ ≤ nearestEven x := by
  unfold nearestEven
  split
  · exact le_refl _
  · split
    · omega
    · split <;> omega

theorem nearestEven_le_floor_add_one (x : K) : nearestEven x ≤ ⌊x⌋ + 1 := by
  unfold nearestEven
  split
  · omega
  · split
    · exact le_refl _
    · split <;> omega

variable [IsStrictOrderedRing K]

@[simp] theorem nearestEven_intCast (k : ℤ) : nearestEven (k : K) = k := by
  rw [nearestEven, Int.floor_intCast, sub_self, if_pos (by norm_num)]

theorem nearestEven_eq_of_lt {x : K} {k : ℤ} (hlow : (k : K) ≤ x) (hhigh : x < k + 1 / 2) :
    nearestEven x = k := by
  have hfloor : ⌊x⌋ = k := Int.floor_eq_iff.mpr ⟨hlow, by linarith⟩
  rw [nearestEven, hfloor, if_pos (by linarith)]

theorem nearestEven_eq_of_gt {x : K} {k : ℤ} (hlow : (k : K) - 1 / 2 < x) (hhigh : x < k) :
    nearestEven x = k := by
  have hfloor : ⌊x⌋ = k - 1 := by
    apply Int.floor_eq_iff.mpr
    push_cast
    constructor <;> linarith
  have hfrac : 1 / 2 < x - ((k - 1 : ℤ) : K) := by
    push_cast
    linarith
  rw [nearestEven, hfloor, if_neg (not_lt_of_gt hfrac), if_pos hfrac]
  omega

/-- Half way, the even integer above. -/
theorem nearestEven_add_half {k : ℤ} (hodd : k % 2 = 1) :
    nearestEven ((k : K) + 1 / 2) = k + 1 := by
  have hfloor : ⌊(k : K) + 1 / 2⌋ = k := by
    apply Int.floor_eq_iff.mpr
    constructor <;> linarith
  rw [nearestEven, hfloor, add_sub_cancel_left, if_neg (lt_irrefl _), if_neg (lt_irrefl _),
    if_neg (by omega)]

theorem nearestEven_mono {x y : K} (h : x ≤ y) : nearestEven x ≤ nearestEven y := by
  rcases lt_or_eq_of_le (Int.floor_le_floor h) with hlt | heq
  · calc nearestEven x ≤ ⌊x⌋ + 1 := nearestEven_le_floor_add_one x
      _ ≤ ⌊y⌋ := hlt
      _ ≤ nearestEven y := floor_le_nearestEven y
  · -- the fractions are in order then
    have hfrac : x - ⌊x⌋ ≤ y - ⌊x⌋ := sub_le_sub_right h _
    simp only [nearestEven, ← heq]
    by_cases hy : y - ⌊x⌋ < 1 / 2
    · rw [if_pos hy, if_pos (lt_of_le_of_lt hfrac hy)]
    · by_cases hx : x - ⌊x⌋ < 1 / 2
      · rw [if_pos hx, if_neg hy]
        split
        · omega
        · split <;> omega
      · by_cases hx' : 1 / 2 < x - ⌊x⌋
        · rw [if_neg hx, if_pos hx', if_neg hy, if_pos (lt_of_lt_of_le hx' hfrac)]
        · rw [if_neg hx, if_neg hx', if_neg hy]
          split <;> split <;> omega

theorem abs_nearestEven_sub_le (x : K) : |(nearestEven x : K) - x| ≤ 1 / 2 := by
  have hlow := Int.floor_le x
  have hhigh := Int.lt_floor_add_one x
  unfold nearestEven
  rw [abs_le]
  split
  · constructor <;> linarith
  · split
    · push_cast
      constructor <;> linarith
    · split
      · constructor <;> linarith
      · push_cast
        constructor <;> linarith

/-! ## Rounding -/

/-- The distance between the numbers of the format around `x`. -/
def ulp (p : ℕ) (x : K) : K := 2 ^ (Int.log 2 x + 1 - p)

/-- The number of the format that is nearest to `x`. -/
def round (p : ℕ) (x : K) : K := nearestEven (x / ulp p x) * ulp p x

variable {p : ℕ} {x y : K}

theorem ulp_pos (p : ℕ) (x : K) : 0 < ulp p x := zpow_pos two_pos _

@[simp] theorem round_zero (p : ℕ) : round p (0 : K) = 0 := by
  have h := nearestEven_intCast (K := K) 0
  rw [Int.cast_zero] at h
  rw [round, zero_div, h, Int.cast_zero, zero_mul]

theorem two_zpow_log_le (hx : 0 < x) : (2 : K) ^ Int.log 2 x ≤ x := by
  have h := Int.zpow_log_le_self (b := 2) one_lt_two hx
  rwa [Nat.cast_ofNat] at h

theorem lt_two_zpow_log (x : K) : x < (2 : K) ^ (Int.log 2 x + 1) := by
  have h := Int.lt_zpow_succ_log_self (b := 2) one_lt_two x
  rwa [Nat.cast_ofNat] at h

theorem log_eq {e : ℤ} (hlow : (2 : K) ^ e ≤ x) (hhigh : x < (2 : K) ^ (e + 1)) :
    Int.log 2 x = e := by
  have hx : 0 < x := lt_of_lt_of_le (zpow_pos two_pos _) hlow
  have hle : e ≤ Int.log 2 x := by
    rw [← Int.zpow_le_iff_le_log one_lt_two hx, Nat.cast_ofNat]
    exact hlow
  have hlt : Int.log 2 x < e + 1 := by
    rw [← Int.lt_zpow_iff_log_lt one_lt_two hx, Nat.cast_ofNat]
    exact hhigh
  omega

/-- Rounding where the exponent is known. -/
theorem round_eq {e : ℤ} (hlow : (2 : K) ^ e ≤ x) (hhigh : x < (2 : K) ^ (e + 1)) :
    round p x = nearestEven (x / 2 ^ (e + 1 - p)) * 2 ^ (e + 1 - p) := by
  rw [round, ulp, log_eq hlow hhigh]

theorem round_le_two_zpow (x : K) : round p x ≤ 2 ^ (Int.log 2 x + 1) := by
  have hpos := ulp_pos p x
  have hpow : (2 : K) ^ (Int.log 2 x + 1) = ((2 ^ p : ℤ) : K) * ulp p x := by
    rw [ulp, Int.cast_pow, Int.cast_ofNat, ← zpow_natCast, ← zpow_add₀ two_ne_zero]
    congr 1
    ring
  have hle : x / ulp p x ≤ ((2 ^ p : ℤ) : K) := by
    rw [div_le_iff₀ hpos, ← hpow]
    exact le_of_lt (lt_two_zpow_log x)
  have hnear := nearestEven_mono hle
  rw [nearestEven_intCast] at hnear
  rw [round, hpow]
  exact mul_le_mul_of_nonneg_right (Int.cast_le.mpr hnear) (le_of_lt hpos)

theorem two_zpow_le_round (hp : 0 < p) (hx : 0 < x) : 2 ^ Int.log 2 x ≤ round p x := by
  have hpos := ulp_pos p x
  have hpow : (2 : K) ^ Int.log 2 x = ((2 ^ (p - 1) : ℤ) : K) * ulp p x := by
    rw [ulp, Int.cast_pow, Int.cast_ofNat, ← zpow_natCast, ← zpow_add₀ two_ne_zero]
    congr 1
    omega
  have hle : ((2 ^ (p - 1) : ℤ) : K) ≤ x / ulp p x := by
    rw [le_div_iff₀ hpos, ← hpow]
    exact two_zpow_log_le hx
  have hnear := nearestEven_mono hle
  rw [nearestEven_intCast] at hnear
  rw [round, hpow]
  exact mul_le_mul_of_nonneg_right (Int.cast_le.mpr hnear) (le_of_lt hpos)

theorem round_nonneg (hp : 0 < p) (hx : 0 ≤ x) : 0 ≤ round p x := by
  rcases lt_or_eq_of_le hx with hpos | rfl
  · exact le_trans (le_of_lt (zpow_pos two_pos _)) (two_zpow_le_round hp hpos)
  · rw [round_zero]

/-- **Rounding keeps the order.** -/
theorem round_mono (hp : 0 < p) (hx : 0 ≤ x) (h : x ≤ y) : round p x ≤ round p y := by
  rcases lt_or_eq_of_le hx with hpos | rfl
  · rcases lt_or_eq_of_le (Int.log_mono_right (b := 2) hpos h) with hlt | heq
    · -- a power of two lies between
      calc round p x ≤ 2 ^ (Int.log 2 x + 1) := round_le_two_zpow x
        _ ≤ 2 ^ Int.log 2 y := zpow_le_zpow_right₀ one_le_two hlt
        _ ≤ round p y := two_zpow_le_round hp (lt_of_lt_of_le hpos h)
    · have hulp : ulp p x = ulp p y := by rw [ulp, ulp, heq]
      rw [round, round, hulp]
      apply mul_le_mul_of_nonneg_right _ (le_of_lt (ulp_pos p y))
      exact Int.cast_le.mpr (nearestEven_mono (div_le_div_of_nonneg_right h (le_of_lt (ulp_pos p y))))
  · rw [round_zero]
    exact round_nonneg hp h

/-- The relative error of rounding. -/
theorem abs_round_sub_le (hx : 0 < x) : |round p x - x| ≤ x / 2 ^ p := by
  have hpos := ulp_pos p x
  have hhalf : ulp p x / 2 ≤ x / 2 ^ p := by
    have hulp : ulp p x / 2 = 2 ^ Int.log 2 x / 2 ^ p := by
      rw [ulp, zpow_sub₀ two_ne_zero, zpow_add_one₀ two_ne_zero, zpow_natCast]
      field_simp
    rw [hulp]
    exact div_le_div_of_nonneg_right (two_zpow_log_le hx) (by positivity)
  have hmul : round p x - x = (nearestEven (x / ulp p x) - x / ulp p x) * ulp p x := by
    rw [round, sub_mul, div_mul_cancel₀ _ (ne_of_gt hpos)]
  calc |round p x - x| = |(nearestEven (x / ulp p x) : K) - x / ulp p x| * ulp p x := by
        rw [hmul, abs_mul, abs_of_pos hpos]
    _ ≤ 1 / 2 * ulp p x :=
        mul_le_mul_of_nonneg_right (abs_nearestEven_sub_le _) (le_of_lt hpos)
    _ = ulp p x / 2 := by ring
    _ ≤ x / 2 ^ p := hhalf

/-! ## Numbers of the format -/

namespace Representable

theorem mul_zpow (h : Representable p x) (k : ℤ) : Representable p (x * 2 ^ k) := by
  obtain ⟨m, e, hm, rfl⟩ := h
  exact ⟨m, e + k, hm, by rw [zpow_add₀ (ne_of_gt zero_lt_two), mul_assoc]⟩

/-- Rounding leaves the numbers of the format alone. -/
theorem round_eq (h : Representable p x) : round p x = x := by
  obtain ⟨m, e, hm, rfl⟩ := h
  rcases Nat.eq_zero_or_pos m with rfl | hpos
  · rw [Nat.cast_zero, zero_mul, round_zero]
  · have hlog : Nat.log2 m < p := (Nat.log2_lt (Nat.ne_of_gt hpos)).mpr hm
    have hbinade : Int.log 2 ((m : K) * 2 ^ e) = Nat.log2 m + e := by
      apply log_eq
      · rw [zpow_add₀ two_ne_zero, zpow_natCast]
        apply mul_le_mul_of_nonneg_right _ (le_of_lt (zpow_pos two_pos e))
        exact_mod_cast Nat.log2_self_le (Nat.ne_of_gt hpos)
      · rw [add_right_comm, zpow_add₀ two_ne_zero]
        apply mul_lt_mul_of_pos_right _ (zpow_pos two_pos e)
        exact_mod_cast Nat.lt_log2_self
    -- the significand is shifted up by as many bits as it has room for
    have hshift : (m : K) * 2 ^ e / ulp p ((m : K) * 2 ^ e) =
        ((m * 2 ^ (p - 1 - Nat.log2 m) : ℕ) : ℤ) := by
      rw [ulp, hbinade, mul_div_assoc, ← zpow_sub₀ two_ne_zero]
      push_cast
      rw [← zpow_natCast]
      congr 2
      omega
    rw [round, hshift, nearestEven_intCast, ← hshift,
      div_mul_cancel₀ _ (ne_of_gt (ulp_pos p _))]

theorem of_round (hp : 0 < p) (hx : 0 ≤ x) : Representable p (round p x) := by
  rcases lt_or_eq_of_le hx with hpos | rfl
  · have hnonneg : 0 ≤ nearestEven (x / ulp p x) := by
      have h := nearestEven_mono (x := ((0 : ℤ) : K)) (y := x / ulp p x) (by
        rw [Int.cast_zero]
        exact div_nonneg hx (le_of_lt (ulp_pos p x)))
      rwa [nearestEven_intCast] at h
    obtain ⟨k, hk⟩ := Int.eq_ofNat_of_zero_le hnonneg
    have htop : round p x ≤ 2 ^ (Int.log 2 x + 1) := round_le_two_zpow x
    have hround : round p x = k * 2 ^ (Int.log 2 x + 1 - p) := by
      rw [round, hk, Int.cast_natCast, ulp]
    by_cases hlt : k < 2 ^ p
    · exact ⟨k, _, hlt, hround⟩
    · -- the top of the range is a power of two
      refine ⟨1, Int.log 2 x + 1, Nat.one_lt_two_pow (Nat.ne_of_gt hp), ?_⟩
      rw [Nat.cast_one, one_mul]
      apply le_antisymm htop
      rw [hround]
      have hpow : (2 : K) ^ (Int.log 2 x + 1) = ((2 ^ p : ℕ) : K) * 2 ^ (Int.log 2 x + 1 - p) := by
        rw [Nat.cast_pow, Nat.cast_ofNat, ← zpow_natCast, ← zpow_add₀ two_ne_zero]
        congr 1
        ring
      rw [hpow]
      apply mul_le_mul_of_nonneg_right _ (le_of_lt (zpow_pos two_pos _))
      exact_mod_cast Nat.le_of_not_lt hlt
  · rw [round_zero]
    exact ⟨0, 0, by positivity, by rw [Nat.cast_zero, zero_mul]⟩

end Representable

theorem round_round (hp : 0 < p) (hx : 0 ≤ x) : round p (round p x) = round p x :=
  (Representable.of_round hp hx).round_eq

/-- What stays below a number by one part in `2 ^ p` is not rounded up to it. -/
theorem round_lt {z : K} (hz : 0 < z) (hx : 0 ≤ x) (h : x ≤ (1 - 1 / 2 ^ p) * z) :
    round p x < z := by
  rcases lt_or_eq_of_le hx with hpos | rfl
  · have herr := (abs_le.mp (abs_round_sub_le (p := p) hpos)).2
    have hpow : (0 : K) < 2 ^ p := by positivity
    calc round p x ≤ x + x / 2 ^ p := by linarith
      _ = x * (1 + 1 / 2 ^ p) := by ring
      _ ≤ (1 - 1 / 2 ^ p) * z * (1 + 1 / 2 ^ p) :=
          mul_le_mul_of_nonneg_right h (by positivity)
      _ = z - z * (1 / 2 ^ p) ^ 2 := by ring
      _ < z := by
          have : 0 < z * (1 / 2 ^ p) ^ 2 := by positivity
          linarith
  · rw [round_zero]
    exact hz

end BinaryFloat
