import Mathlib.Algebra.Order.Floor.Div
import Mathlib.Data.Rat.Floor
import Mathlib.Order.Interval.Finset.Nat
import Mathlib.Tactic.NormNum
import Theft.BuiltinScalars
import Theft.Lib.BinaryFloat

/-!
# Random numbers through doubles

`theft_random_choice` and `theft_rng_uint64_to_double`, with the rounding of IEEE 754 doubles: their
numbers lie between `2 ^ -64` and `2 ^ 64`, far from where the exponents of doubles end.

* `randomChoice_lt_iff`: when a choice is below its ceiling;
* `randomChoice_even`: small ceilings have their values drawn evenly;
* `uint64ToDouble_range`: doubles from 0 to 1.
-/

namespace Theft

open PackedBits BinaryFloat

/-! ## The model -/

/-- The `double` nearest to a number. -/
def toDouble (x : ℚ) : ℚ := BinaryFloat.round 53 x

/-- `(uint64_t)x` for a `double` from 0 on, which C leaves undefined from `2 ^ 64` on -/
def toUInt64 (x : ℚ) : Except ScalarStop Nat :=
  if x < 2 ^ 64 then .ok ⌊x⌋.toNat else .error .undefined

/-- The loop that counts `log2_ceil` up, from `log2Ceil` on -/
def countLog2 (ceil : Nat) : Nat → Nat → Nat
  | 0, log2Ceil => log2Ceil
  | fuel + 1, log2Ceil =>
    if 1 <<< log2Ceil < ceil then countLog2 ceil fuel (log2Ceil + 1) else log2Ceil

/-- `(uint64_t)((double)bits / limit * ceil)` -/
def scaleChoice (limit : ℚ) (ceil : Nat) (bits : Nat) : Except ScalarStop Nat :=
  let mul := toDouble (toDouble bits / limit)
  toUInt64 (toDouble (mul * toDouble ceil))

/-- `theft_random_choice` -/
def randomChoice (ceil : Word) : Gen (Except ScalarStop Nat) :=
  if ceil.toNat < 2 then .ret (.ok 0)
  else if ceil &&& (ceil - 1) = 0 then
    let log2Ceil := countLog2 ceil.toNat 64 1
    if 1 <<< log2Ceil = ceil.toNat then
      .bits (Fin.ofNat 65 log2Ceil) fun bits => .ret (.ok bits.toNat)
    else .ret (.error .assertion)
  else if ceil.toNat < 255 then
    .bits 16 fun bits => .ret (scaleChoice (toDouble (2 ^ 16)) ceil.toNat bits.toNat)
  else if ceil.toNat < 65535 then
    .bits 32 fun bits => .ret (scaleChoice (toDouble (2 ^ 32)) ceil.toNat bits.toNat)
  else
    .bits 64 fun bits => .ret (scaleChoice (toDouble (2 ^ 64 - 1)) ceil.toNat bits.toNat)

/-- `theft_rng_uint64_to_double` -/
def uint64ToDouble (x : Word) : ℚ :=
  toDouble (toDouble (x >>> 11).toNat * toDouble (1 / toDouble 9007199254740991))

/-! ## The bits of an answer -/

theorem answer_testBit (b : Nat) {n : Nat} (hn : n ≤ 64) :
    (Gen.answer (Nat.testBit b) n).toNat = b % 2 ^ n := by
  have hlt : b % 2 ^ n < 2 ^ 64 :=
    Nat.lt_of_lt_of_le (Nat.mod_lt _ (Nat.two_pow_pos n)) (Nat.pow_le_pow_right (by decide) hn)
  have heq : Gen.answer (Nat.testBit b) n = BitVec.ofNat 64 (b % 2 ^ n) := by
    apply BitVec.eq_of_getLsbD_eq
    intro i hi
    rw [Gen.answer, getLsbD_ofBits, BitVec.getLsbD_ofNat, Nat.testBit_mod_two_pow]
  rw [heq, BitVec.toNat_ofNat, Nat.mod_eq_of_lt hlt]

theorem answer_lt (S : Nat → Bool) (n : Nat) : (Gen.answer S n).toNat < 2 ^ n := by
  apply Nat.lt_pow_two_of_testBit
  intro i hi
  rw [BitVec.testBit_toNat, Gen.answer, getLsbD_ofBits, decide_eq_false (Nat.not_lt.mpr hi),
    Bool.false_and, Bool.and_false]

/-! ## Doubles that are exact -/

theorem toDouble_natCast {m : Nat} (h : m < 2 ^ 53) : toDouble m = m :=
  (Representable.natCast h).round_eq

theorem toDouble_div_two_pow {m : Nat} (h : m < 2 ^ 53) (k : Nat) :
    toDouble ((m : ℚ) / 2 ^ k) = m / 2 ^ k := by
  have hdiv : (m : ℚ) / 2 ^ k = m * 2 ^ (-(k : ℤ)) := by
    rw [zpow_neg, zpow_natCast, div_eq_mul_inv]
  rw [hdiv]
  exact ((Representable.natCast h).mul_zpow _).round_eq

theorem toUInt64_div {m d : Nat} (hd : 0 < d) (h : m / d < 2 ^ 64) :
    toUInt64 ((m : ℚ) / d) = .ok (m / d) := by
  have hlt : (m : ℚ) / d < 2 ^ 64 := by
    rw [div_lt_iff₀ (Nat.cast_pos.mpr hd)]
    exact_mod_cast (Nat.div_lt_iff_lt_mul hd).mp h
  rw [toUInt64, if_pos hlt, Rat.floor_natCast_div_natCast]
  rfl

/-- Few bits and a small ceiling lose nothing on the way. -/
theorem scaleChoice_exact {k ceil bits : Nat} (hceil : ceil < 2 ^ 16) (hk : k ≤ 32)
    (hbits : bits < 2 ^ k) :
    scaleChoice (toDouble (2 ^ k)) ceil bits = .ok (bits * ceil / 2 ^ k) := by
  have hpow : 2 ^ k ≤ 2 ^ 32 := Nat.pow_le_pow_right (by decide) hk
  have hlimit : toDouble ((2 : ℚ) ^ k) = 2 ^ k := by
    have h := toDouble_natCast (m := 2 ^ k) (by omega)
    rwa [Nat.cast_pow, Nat.cast_ofNat] at h
  have hprod : bits * ceil < 2 ^ 53 := by
    calc bits * ceil ≤ 2 ^ 32 * ceil := Nat.mul_le_mul_right _ (by omega)
      _ < 2 ^ 53 := by omega
  have hmul : (bits : ℚ) / 2 ^ k * ceil = ((bits * ceil : Nat) : ℚ) / 2 ^ k := by
    push_cast
    ring
  have hquot : bits * ceil / 2 ^ k < 2 ^ 64 :=
    Nat.lt_of_le_of_lt (Nat.div_le_self _ _) (by omega)
  have hcast : (2 : ℚ) ^ k = ((2 ^ k : Nat) : ℚ) := by push_cast; rfl
  simp only [scaleChoice, hlimit]
  rw [toDouble_natCast (m := bits) (by omega), toDouble_div_two_pow (by omega),
    toDouble_natCast (m := ceil) (by omega), hmul, toDouble_div_two_pow hprod, hcast]
  exact toUInt64_div (Nat.two_pow_pos k) hquot

/-! ## All 64 bits -/

theorem toDouble_mono {x y : ℚ} (hx : 0 ≤ x) (h : x ≤ y) : toDouble x ≤ toDouble y :=
  round_mono (by decide) hx h

theorem toDouble_two_pow (k : Nat) : toDouble (2 ^ k) = 2 ^ k := by
  have h := ((Representable.natCast (K := ℚ) (p := 53) (m := 1) (by decide)).mul_zpow k).round_eq
  rwa [Nat.cast_one, one_mul, zpow_natCast] at h

theorem toDouble_eq_sixtyFour {x : ℚ} (hlow : 2 ^ 63 ≤ x) (hhigh : x < 2 ^ 64) :
    toDouble x = nearestEven (x / 2 ^ 11) * 2 ^ 11 := by
  have hulp : (2 : ℚ) ^ ((63 : ℤ) + 1 - (53 : ℕ)) = 2 ^ 11 := by norm_num
  have h := BinaryFloat.round_eq (p := 53) (x := x) (e := 63) (by exact_mod_cast hlow)
    (by exact_mod_cast hhigh)
  rwa [hulp] at h

/-- Half way to the next double, the even significand is the one of `2 ^ 64`. -/
theorem toDouble_tie : toDouble (2 ^ 64 - 2 ^ 10) = 2 ^ 64 := by
  have hhalf := nearestEven_add_half (K := ℚ) (k := 2 ^ 53 - 1) (by decide)
  have hquot : ((2 : ℚ) ^ 64 - 2 ^ 10) / 2 ^ 11 = ((2 ^ 53 - 1 : ℤ) : ℚ) + 1 / 2 := by norm_num
  rw [toDouble_eq_sixtyFour (by norm_num) (by norm_num), hquot, hhalf]
  norm_num

theorem toDouble_below_tie : toDouble (2 ^ 64 - 2 ^ 10 - 1) = 2 ^ 64 - 2 ^ 11 := by
  have hnear := nearestEven_eq_of_lt (x := ((2 : ℚ) ^ 64 - 2 ^ 10 - 1) / 2 ^ 11) (k := 2 ^ 53 - 1)
    (by norm_num) (by norm_num)
  rw [toDouble_eq_sixtyFour (by norm_num) (by norm_num), hnear]
  norm_num

/-- `UINT64_MAX` has no double of its own. -/
theorem toDouble_maxValue : toDouble (2 ^ 64 - 1) = 2 ^ 64 := by
  apply le_antisymm
  · calc toDouble (2 ^ 64 - 1) ≤ toDouble (2 ^ 64) := toDouble_mono (by norm_num) (by norm_num)
      _ = 2 ^ 64 := toDouble_two_pow 64
  · calc (2 : ℚ) ^ 64 = toDouble (2 ^ 64 - 2 ^ 10) := toDouble_tie.symm
      _ ≤ toDouble (2 ^ 64 - 1) := toDouble_mono (by norm_num) (by norm_num)

/-- The quotient of the drawn number by the limit. -/
def choiceRatio (bits : Nat) : ℚ := toDouble (toDouble bits / toDouble (2 ^ 64 - 1))

theorem choiceRatio_eq (bits : Nat) : choiceRatio bits = toDouble bits / 2 ^ 64 := by
  have hdiv : toDouble bits / 2 ^ 64 = toDouble bits * 2 ^ (-64 : ℤ) := by
    rw [zpow_neg, div_eq_mul_inv]
    rfl
  rw [choiceRatio, toDouble_maxValue, hdiv]
  exact ((Representable.of_round (by decide) (Nat.cast_nonneg bits)).mul_zpow _).round_eq

theorem choiceRatio_top {bits : Nat} (hlow : 2 ^ 64 - 2 ^ 10 ≤ bits) (hhigh : bits < 2 ^ 64) :
    choiceRatio bits = 1 := by
  have hdouble : toDouble bits = 2 ^ 64 := by
    apply le_antisymm
    · rw [← toDouble_two_pow 64]
      exact toDouble_mono (Nat.cast_nonneg _) (by exact_mod_cast Nat.le_of_lt hhigh)
    · rw [← toDouble_tie]
      apply toDouble_mono (by norm_num)
      have h : ((2 ^ 64 - 2 ^ 10 : Nat) : ℚ) ≤ bits := Nat.cast_le.mpr hlow
      norm_num at h ⊢
      exact h
  rw [choiceRatio_eq, hdouble, div_self (by norm_num)]

theorem choiceRatio_le {bits : Nat} (h : bits < 2 ^ 64 - 2 ^ 10) :
    choiceRatio bits ≤ 1 - 1 / 2 ^ 53 := by
  have hdouble : toDouble bits ≤ 2 ^ 64 - 2 ^ 11 := by
    rw [← toDouble_below_tie]
    apply toDouble_mono (Nat.cast_nonneg _)
    have h : (bits : ℚ) ≤ ((2 ^ 64 - 2 ^ 10 - 1 : Nat) : ℚ) := Nat.cast_le.mpr (by omega)
    norm_num at h ⊢
    exact h
  rw [choiceRatio_eq, div_le_iff₀ (by norm_num)]
  norm_num at hdouble ⊢
  exact hdouble

theorem scaleChoice_eq (ceil bits : Nat) : scaleChoice (toDouble (2 ^ 64 - 1)) ceil bits =
    toUInt64 (toDouble (choiceRatio bits * toDouble ceil)) := rfl

/-- Below the top of the range, the choice is below its ceiling, however that is rounded. -/
theorem scaleChoice_lt {ceil bits : Nat} (hpos : 0 < ceil) (hceil : ceil < 2 ^ 64)
    (hbits : bits < 2 ^ 64 - 2 ^ 10) :
    ∃ v, scaleChoice (toDouble (2 ^ 64 - 1)) ceil bits = .ok v ∧ v < ceil := by
  have hdouble : 0 < toDouble ceil := by
    have hone : toDouble 1 = 1 := by simpa using toDouble_natCast (m := 1) (by decide)
    have hle := toDouble_mono (x := 1) (y := ceil) (by norm_num) (by exact_mod_cast hpos)
    rw [hone] at hle
    exact lt_of_lt_of_le one_pos hle
  have hratio : 0 ≤ choiceRatio bits := by
    rw [choiceRatio_eq]
    exact div_nonneg (round_nonneg (by decide) (Nat.cast_nonneg _)) (by norm_num)
  have hprod : 0 ≤ choiceRatio bits * toDouble ceil := mul_nonneg hratio (le_of_lt hdouble)
  have hbelow : toDouble (choiceRatio bits * toDouble ceil) < toDouble ceil :=
    round_lt hdouble hprod
      (mul_le_mul_of_nonneg_right (choiceRatio_le hbits) (le_of_lt hdouble))
  -- a double that is not below the ceiling is not below its double either
  have hlt : toDouble (choiceRatio bits * toDouble ceil) < ceil := by
    by_contra hnot
    have hmono := toDouble_mono (Nat.cast_nonneg ceil) (le_of_not_gt hnot)
    rw [show toDouble (toDouble (choiceRatio bits * toDouble ceil)) =
      toDouble (choiceRatio bits * toDouble ceil) from round_round (by decide) hprod] at hmono
    exact absurd hbelow (not_lt_of_ge hmono)
  have hsmall : toDouble (choiceRatio bits * toDouble ceil) < 2 ^ 64 :=
    lt_trans hlt (by exact_mod_cast hceil)
  rw [scaleChoice_eq, toUInt64, if_pos hsmall]
  refine ⟨_, rfl, ?_⟩
  have hfloor : ⌊toDouble (choiceRatio bits * toDouble ceil)⌋ < (ceil : ℤ) :=
    Int.floor_lt.mpr (by exact_mod_cast hlt)
  omega

/-- At the top of the range, the choice is the double nearest to the ceiling. -/
theorem scaleChoice_top {ceil bits : Nat} (hlow : 2 ^ 64 - 2 ^ 10 ≤ bits)
    (hhigh : bits < 2 ^ 64) :
    scaleChoice (toDouble (2 ^ 64 - 1)) ceil bits = toUInt64 (toDouble ceil) := by
  rw [scaleChoice_eq, choiceRatio_top hlow hhigh, one_mul]
  congr 1
  exact round_round (by decide) (Nat.cast_nonneg ceil)

/-! ## Choices -/

theorem countLog2_two_pow {k : Nat} (fuel : Nat) : ∀ log2Ceil, log2Ceil ≤ k → k ≤ log2Ceil + fuel →
    countLog2 (2 ^ k) fuel log2Ceil = k := by
  induction fuel with
  | zero =>
    intro log2Ceil hle hfuel
    rw [countLog2]
    omega
  | succ fuel ih =>
    intro log2Ceil hle hfuel
    rw [countLog2, Nat.one_shiftLeft]
    by_cases hlt : log2Ceil < k
    · rw [if_pos (Nat.pow_lt_pow_right (by decide) hlt)]
      exact ih (log2Ceil + 1) hlt (by omega)
    · have heq : log2Ceil = k := by omega
      rw [heq, if_neg (lt_irrefl _)]

theorem and_sub_one_eq_zero_iff {ceil : Word} (h : 2 ≤ ceil.toNat) :
    ceil &&& (ceil - 1) = 0 ↔ ceil.toNat.isPowerOfTwo := by
  have hsub : (ceil - 1).toNat = ceil.toNat - 1 := by
    rw [BitVec.toNat_sub_of_le (by rw [BitVec.le_def]; exact Nat.le_trans (by decide) h)]
    rfl
  rw [← Nat.and_sub_one_eq_zero_iff_isPowerOfTwo (by omega), ← hsub, ← BitVec.toNat_and,
    ← BitVec.toNat_inj]
  rfl

/-- How many bits a choice draws -/
def choiceBits (ceil : Nat) : Nat :=
  if ceil.isPowerOfTwo then ceil.log2
  else if ceil < 255 then 16 else if ceil < 65535 then 32 else 64

section
variable {ceil : Word} (S : Nat → Bool)

theorem randomChoice_eval_twoPow (h : 2 ≤ ceil.toNat) (htwo : ceil.toNat.isPowerOfTwo) :
    (randomChoice ceil).eval S = .ok (Gen.answer S ceil.toNat.log2).toNat := by
  have hand := (and_sub_one_eq_zero_iff h).mpr htwo
  obtain ⟨k, hk⟩ := htwo
  have hk64 : k < 64 := (Nat.pow_lt_pow_iff_right (by decide)).mp (hk ▸ ceil.isLt)
  have hone : 1 ≤ k := by
    by_contra hzero
    rw [hk, show k = 0 by omega] at h
    omega
  rw [randomChoice, if_neg (Nat.not_lt.mpr h), if_pos hand]
  simp only [hk, countLog2_two_pow 64 1 hone (by omega), Nat.one_shiftLeft, if_pos,
    Nat.log2_two_pow]
  rw [Gen.eval, Gen.eval, Fin.val_ofNat, Nat.mod_eq_of_lt (by omega)]

theorem randomChoice_eval_small (h : 2 ≤ ceil.toNat) (htwo : ¬ ceil.toNat.isPowerOfTwo)
    (hsmall : ceil.toNat < 65535) : (randomChoice ceil).eval S =
      .ok ((Gen.answer S (choiceBits ceil.toNat)).toNat * ceil.toNat /
        2 ^ choiceBits ceil.toNat) := by
  have hand : ¬ (ceil &&& (ceil - 1) = 0) := fun hand => htwo ((and_sub_one_eq_zero_iff h).mp hand)
  rw [randomChoice, if_neg (Nat.not_lt.mpr h), if_neg hand, choiceBits, if_neg htwo]
  by_cases htiny : ceil.toNat < 255
  · rw [if_pos htiny, if_pos htiny]
    exact scaleChoice_exact (by omega) (by decide) (answer_lt S 16)
  · rw [if_neg htiny, if_neg htiny, if_pos hsmall, if_pos hsmall]
    exact scaleChoice_exact (by omega) (by decide) (answer_lt S 32)

theorem randomChoice_eval_large (h : 65535 ≤ ceil.toNat) (htwo : ¬ ceil.toNat.isPowerOfTwo) :
    (randomChoice ceil).eval S =
      scaleChoice (toDouble (2 ^ 64 - 1)) ceil.toNat (Gen.answer S 64).toNat := by
  have h₂ : 2 ≤ ceil.toNat := by omega
  have hand : ¬ (ceil &&& (ceil - 1) = 0) := fun hand => htwo ((and_sub_one_eq_zero_iff h₂).mp hand)
  rw [randomChoice, if_neg (by omega), if_neg hand, if_neg (by omega), if_neg (by omega)]
  rfl

/-- **When a choice is below its ceiling.** It is, whatever is drawn, unless the ceiling is large
and no power of two. Then the 1024 largest numbers that may be drawn give the double nearest to
the ceiling. -/
theorem randomChoice_lt_iff (hpos : 0 < ceil.toNat) :
    ((∃ v, (randomChoice ceil).eval S = .ok v ∧ v < ceil.toNat) ↔
      ceil.toNat < 65535 ∨ ceil.toNat.isPowerOfTwo ∨
        (Gen.answer S 64).toNat < 2 ^ 64 - 2 ^ 10 ∨ toDouble ceil.toNat < ceil.toNat) ∧
    (65535 ≤ ceil.toNat → ¬ ceil.toNat.isPowerOfTwo →
      2 ^ 64 - 2 ^ 10 ≤ (Gen.answer S 64).toNat →
        (randomChoice ceil).eval S = toUInt64 (toDouble ceil.toNat)) := by
  have top : 65535 ≤ ceil.toNat → ¬ ceil.toNat.isPowerOfTwo →
      2 ^ 64 - 2 ^ 10 ≤ (Gen.answer S 64).toNat →
        (randomChoice ceil).eval S = toUInt64 (toDouble ceil.toNat) := fun hlarge htwo hlow =>
    (randomChoice_eval_large S hlarge htwo).trans (scaleChoice_top hlow (answer_lt S 64))
  refine ⟨?_, top⟩
  by_cases htwo : ceil.toNat.isPowerOfTwo
  · refine iff_of_true ?_ (.inr (.inl htwo))
    by_cases hone : ceil.toNat < 2
    · exact ⟨0, by rw [randomChoice, if_pos hone, Gen.eval], hpos⟩
    · refine ⟨_, randomChoice_eval_twoPow S (by omega) htwo, ?_⟩
      obtain ⟨k, hk⟩ := htwo
      rw [hk, Nat.log2_two_pow]
      exact answer_lt S k
  · have h₂ : 2 ≤ ceil.toNat := by
      by_contra hsmall
      exact htwo ⟨0, by omega⟩
    by_cases hsmall : ceil.toNat < 65535
    · refine iff_of_true ⟨_, randomChoice_eval_small S h₂ htwo hsmall, ?_⟩ (.inl hsmall)
      rw [Nat.div_lt_iff_lt_mul (Nat.two_pow_pos _), Nat.mul_comm]
      exact Nat.mul_lt_mul_of_pos_left (answer_lt S _) hpos
    · by_cases hlow : (Gen.answer S 64).toNat < 2 ^ 64 - 2 ^ 10
      · rw [randomChoice_eval_large S (by omega) htwo]
        exact iff_of_true (scaleChoice_lt hpos ceil.isLt hlow) (.inr (.inr (.inl hlow)))
      · rw [top (by omega) htwo (by omega)]
        simp only [hsmall, htwo, hlow, false_or]
        rw [toUInt64]
        constructor
        · rintro ⟨v, hv, hlt⟩
          split at hv
          · cases hv
            have hfloor : ⌊toDouble ceil.toNat⌋ < (ceil.toNat : ℤ) := by omega
            exact_mod_cast Int.floor_lt.mp hfloor
          · cases hv
        · intro hlt
          have h64 : toDouble ceil.toNat < 2 ^ 64 :=
            lt_trans hlt (by exact_mod_cast ceil.isLt)
          have hfloor : ⌊toDouble ceil.toNat⌋ < (ceil.toNat : ℤ) :=
            Int.floor_lt.mpr (by exact_mod_cast hlt)
          exact ⟨_, by rw [if_pos h64], by omega⟩

end

/-- With all bits set, a choice below `UINT64_MAX` does not even fit. -/
theorem randomChoice_maxValue :
    (randomChoice (BitVec.allOnes 64)).eval (Nat.testBit (2 ^ 64 - 1)) = .error .undefined := by
  have htwo : ¬ (BitVec.allOnes 64).toNat.isPowerOfTwo :=
    mt (and_sub_one_eq_zero_iff (by decide)).mpr (by decide)
  have hdrawn : 2 ^ 64 - 2 ^ 10 ≤ (Gen.answer (Nat.testBit (2 ^ 64 - 1)) 64).toNat := by
    rw [answer_testBit _ (le_refl 64)]
    decide
  have hceil : (((BitVec.allOnes 64).toNat : Nat) : ℚ) = 2 ^ 64 - 1 := by norm_num
  rw [(randomChoice_lt_iff _ (by decide)).2 (by decide) htwo hdrawn, hceil, toDouble_maxValue]
  exact if_neg (lt_irrefl _)

/-! ## Evenness -/

theorem add_ceilDiv_bounds {c : Nat} (hc : 0 < c) (a b : Nat) :
    a ⌈/⌉ c + b / c ≤ (a + b) ⌈/⌉ c ∧ (a + b) ⌈/⌉ c ≤ a ⌈/⌉ c + b / c + 1 := by
  have hsum : a + b + c - 1 = a + c - 1 + b := by omega
  rw [Nat.ceilDiv_eq_add_pred_div, Nat.ceilDiv_eq_add_pred_div, hsum, Nat.add_div hc]
  split <;> omega

/-- The numbers below `N` that are scaled to `v` out of `c` values. -/
theorem filter_scaled {N c v : Nat} (hN : 0 < N) (hc : 0 < c) (hv : v < c) :
    ((Finset.range N).filter fun b => b * c / N = v) =
      Finset.Ico (v * N ⌈/⌉ c) ((v * N + N) ⌈/⌉ c) := by
  have hend : (v * N + N) ⌈/⌉ c ≤ N := by
    rw [ceilDiv_le_iff_le_mul hc, ← Nat.succ_mul]
    exact Nat.mul_comm N c ▸ Nat.mul_le_mul_right N hv
  ext b
  have hupper : b < (v * N + N) ⌈/⌉ c ↔ c * b < v * N + N := by
    rw [← Nat.not_le, ceilDiv_le_iff_le_mul hc, Nat.not_le]
  rw [Finset.mem_filter, Finset.mem_range, Finset.mem_Ico, ceilDiv_le_iff_le_mul hc, hupper,
    Nat.div_eq_iff hN, Nat.mul_comm b c]
  constructor
  · rintro ⟨hb, hlow, hhigh⟩
    exact ⟨hlow, by omega⟩
  · rintro ⟨hlow, hhigh⟩
    refine ⟨?_, hlow, by omega⟩
    by_contra hb
    have := (ceilDiv_le_iff_le_mul hc).mp (Nat.le_trans hend (Nat.le_of_not_lt hb))
    omega

theorem card_scaled {N c v : Nat} (hN : 0 < N) (hc : 0 < c) (hv : v < c) :
    N / c ≤ ((Finset.range N).filter fun b => b * c / N = v).card ∧
      ((Finset.range N).filter fun b => b * c / N = v).card ≤ N / c + 1 := by
  obtain ⟨hlow, hhigh⟩ := add_ceilDiv_bounds hc (v * N) N
  rw [filter_scaled hN hc hv, Nat.card_Ico]
  generalize N / c = share at hlow hhigh ⊢
  omega

/-- **Choices are even.** For a ceiling below 65535, each value below it is the choice for as many
drawn numbers as any other, up to one. -/
theorem randomChoice_even (ceil : Word) (v : Nat) (hsmall : ceil.toNat < 65535)
    (h : 2 ≤ ceil.toNat) (hv : v < ceil.toNat) :
    let draws := 2 ^ choiceBits ceil.toNat
    let hits := (Finset.range draws).filter fun b =>
      (randomChoice ceil).eval (Nat.testBit b) = .ok v
    draws / ceil.toNat ≤ hits.card ∧ hits.card ≤ draws / ceil.toNat + 1 := by
  intro draws hits
  have hpos : 0 < draws := Nat.two_pow_pos _
  have hbits : choiceBits ceil.toNat ≤ 64 := by
    rw [choiceBits]
    split
    · exact Nat.le_of_lt ((Nat.log2_lt (by omega)).mpr ceil.isLt)
    · split
      · decide
      · decide
  have hanswer : ∀ b < draws, (Gen.answer (Nat.testBit b) (choiceBits ceil.toNat)).toNat = b := by
    intro b hb
    rw [answer_testBit b hbits, Nat.mod_eq_of_lt hb]
  have hscaled : hits = (Finset.range draws).filter fun b => b * ceil.toNat / draws = v := by
    apply Finset.filter_congr
    intro b hb
    have hb := Finset.mem_range.mp hb
    by_cases htwo : ceil.toNat.isPowerOfTwo
    · -- the ceiling is as large as the range, and nothing is scaled
      have hceil : draws = ceil.toNat := by
        obtain ⟨k, hk⟩ := htwo
        show 2 ^ choiceBits ceil.toNat = _
        rw [choiceBits, if_pos ⟨k, hk⟩, hk, Nat.log2_two_pow]
      have hlog : ceil.toNat.log2 = choiceBits ceil.toNat := by rw [choiceBits, if_pos htwo]
      rw [randomChoice_eval_twoPow _ h htwo, hlog, hanswer b hb, hceil,
        Nat.mul_div_cancel b (by omega), Except.ok.injEq]
    · rw [randomChoice_eval_small _ h htwo hsmall, hanswer b hb, Except.ok.injEq]
  rw [hscaled]
  exact card_scaled hpos (by omega) hv

theorem randomChoice_ten :
    let hits := (Finset.range (2 ^ 16)).filter fun b =>
      (randomChoice 10).eval (Nat.testBit b) = .ok 3
    6553 ≤ hits.card ∧ hits.card ≤ 6554 := by
  have hbits : choiceBits (10 : Word).toNat = 16 := if_neg (by decide)
  have h := randomChoice_even 10 3 (by decide) (by decide) (by decide)
  rw [hbits] at h
  exact h

/-! ## Doubles from 0 to 1 -/

/-- The constant that `theft_rng_uint64_to_double` multiplies with: a little more than the
reciprocal of its divisor. -/
theorem toDouble_reciprocal :
    toDouble (1 / toDouble 9007199254740991) = (2 ^ 52 + 1) / 2 ^ 105 := by
  have hdivisor : toDouble 9007199254740991 = 9007199254740991 := by
    simpa using toDouble_natCast (m := 9007199254740991) (by decide)
  have hulp : (2 : ℚ) ^ ((-53 : ℤ) + 1 - (53 : ℕ)) = 1 / 2 ^ 105 := by norm_num
  have hround := BinaryFloat.round_eq (K := ℚ) (p := 53) (x := 1 / 9007199254740991) (e := -53)
    (by norm_num) (by norm_num)
  have hnear := nearestEven_eq_of_gt (x := (1 : ℚ) / 9007199254740991 / (1 / 2 ^ 105))
    (k := 2 ^ 52 + 1) (by norm_num) (by norm_num)
  rw [hulp, hnear] at hround
  rw [hdivisor]
  exact hround.trans (by norm_num)

/-- The double for 53 drawn bits. -/
def unitDouble (y : Nat) : ℚ := toDouble (y * ((2 ^ 52 + 1) / 2 ^ 105))

theorem uint64ToDouble_eq (x : Word) : uint64ToDouble x = unitDouble (x.toNat / 2 ^ 11) := by
  have hlt : x.toNat / 2 ^ 11 < 2 ^ 53 := by
    have := x.isLt
    omega
  rw [uint64ToDouble, toDouble_reciprocal, BitVec.toNat_ushiftRight, Nat.shiftRight_eq_div_pow,
    toDouble_natCast hlt, unitDouble]

theorem unitDouble_mono {y z : Nat} (h : y ≤ z) : unitDouble y ≤ unitDouble z := by
  apply toDouble_mono (by positivity)
  exact mul_le_mul_of_nonneg_right (Nat.cast_le.mpr h) (by positivity)

theorem unitDouble_zero : unitDouble 0 = 0 := by
  rw [unitDouble, Nat.cast_zero, zero_mul]
  exact round_zero 53

theorem unitDouble_one_pos : 0 < unitDouble 1 := by
  have hrep : Representable 53 (((2 ^ 52 + 1 : Nat) : ℚ) * 2 ^ (-105 : ℤ)) :=
    (Representable.natCast (by decide)).mul_zpow _
  have hround := hrep.round_eq
  have hunit : ((1 : Nat) : ℚ) * ((2 ^ 52 + 1) / 2 ^ 105) =
      ((2 ^ 52 + 1 : Nat) : ℚ) * 2 ^ (-105 : ℤ) := by norm_num
  rw [unitDouble, hunit, toDouble, hround]
  positivity

theorem unitDouble_last : unitDouble (2 ^ 53 - 1) = 1 := by
  have hulp : (2 : ℚ) ^ ((0 : ℤ) + 1 - (53 : ℕ)) = 1 / 2 ^ 52 := by norm_num
  have hround := BinaryFloat.round_eq (K := ℚ) (p := 53) (e := 0)
    (x := ((2 ^ 53 - 1 : Nat) : ℚ) * ((2 ^ 52 + 1) / 2 ^ 105)) (by norm_num) (by norm_num)
  have hnear := nearestEven_eq_of_lt (k := 2 ^ 52)
    (x := ((2 ^ 53 - 1 : Nat) : ℚ) * ((2 ^ 52 + 1) / 2 ^ 105) / (1 / 2 ^ 52))
    (by norm_num) (by norm_num)
  rw [hulp, hnear] at hround
  exact hround.trans (by norm_num)

theorem unitDouble_beforeLast : unitDouble (2 ^ 53 - 2) = 1 := by
  have hulp : (2 : ℚ) ^ ((-1 : ℤ) + 1 - (53 : ℕ)) = 1 / 2 ^ 53 := by norm_num
  have hround := BinaryFloat.round_eq (K := ℚ) (p := 53) (e := -1)
    (x := ((2 ^ 53 - 2 : Nat) : ℚ) * ((2 ^ 52 + 1) / 2 ^ 105)) (by norm_num) (by norm_num)
  have hnear := nearestEven_eq_of_gt (k := 2 ^ 53)
    (x := ((2 ^ 53 - 2 : Nat) : ℚ) * ((2 ^ 52 + 1) / 2 ^ 105) / (1 / 2 ^ 53))
    (by norm_num) (by norm_num)
  rw [hulp, hnear] at hround
  exact hround.trans (by norm_num)

theorem unitDouble_below : unitDouble (2 ^ 53 - 3) = 1 - 1 / 2 ^ 53 := by
  have hulp : (2 : ℚ) ^ ((-1 : ℤ) + 1 - (53 : ℕ)) = 1 / 2 ^ 53 := by norm_num
  have hround := BinaryFloat.round_eq (K := ℚ) (p := 53) (e := -1)
    (x := ((2 ^ 53 - 3 : Nat) : ℚ) * ((2 ^ 52 + 1) / 2 ^ 105)) (by norm_num) (by norm_num)
  have hnear := nearestEven_eq_of_gt (k := 2 ^ 53 - 1)
    (x := ((2 ^ 53 - 3 : Nat) : ℚ) * ((2 ^ 52 + 1) / 2 ^ 105) / (1 / 2 ^ 53))
    (by norm_num) (by norm_num)
  rw [hulp, hnear] at hround
  exact hround.trans (by norm_num)

/-- **Doubles from 0 to 1.** A random double grows with the word it is made of; it is 0 for the
2048 least words, and 1 for the 4096 largest. -/
theorem uint64ToDouble_range (x : Word) :
    (∀ y, x.toNat ≤ y.toNat → uint64ToDouble x ≤ uint64ToDouble y) ∧
      0 ≤ uint64ToDouble x ∧ uint64ToDouble x ≤ 1 ∧
      (uint64ToDouble x = 0 ↔ x.toNat < 2 ^ 11) ∧
      (uint64ToDouble x = 1 ↔ 2 ^ 64 - 2 ^ 12 ≤ x.toNat) := by
  have hx := x.isLt
  have hfirst : 0 ≤ unitDouble (x.toNat / 2 ^ 11) := by
    rw [← unitDouble_zero]
    exact unitDouble_mono (Nat.zero_le _)
  have hlast : unitDouble (x.toNat / 2 ^ 11) ≤ 1 := by
    rw [← unitDouble_last]
    exact unitDouble_mono (by omega)
  simp only [uint64ToDouble_eq]
  refine ⟨fun y hy => unitDouble_mono (Nat.div_le_div_right hy), hfirst, hlast, ?_, ?_⟩
  · constructor
    · intro hzero
      by_contra hlarge
      have hone := unitDouble_mono (show 1 ≤ x.toNat / 2 ^ 11 by omega)
      rw [hzero] at hone
      exact absurd unitDouble_one_pos (not_lt_of_ge hone)
    · intro hsmall
      rw [Nat.div_eq_of_lt hsmall, unitDouble_zero]
  · constructor
    · intro hone
      by_contra hsmall
      have hbelow := unitDouble_mono (show x.toNat / 2 ^ 11 ≤ 2 ^ 53 - 3 by omega)
      rw [hone, unitDouble_below] at hbelow
      norm_num at hbelow
    · intro hlarge
      apply le_antisymm hlast
      rw [← unitDouble_beforeLast]
      exact unitDouble_mono (by omega)

end Theft
