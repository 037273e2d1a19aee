import Theft.Lib.CInt
import Theft.Autoshrink
import Theft.DropSelection

/-!
# The built-in integers

The instances of `ALLOC_USCALAR` and `ALLOC_SSCALAR`, with the arithmetic of their types:
`builtin_limit_iff` says for each of them when the value that is made lies within its limit.
-/

namespace Theft

open PackedBits

/-- Why an allocation of a scalar does not return. -/
inductive ScalarStop
  | assertion
  | undefined
  deriving DecidableEq, Repr

def definedOr (x : Option Int) : Except ScalarStop Int :=
  match x with
  | some v => .ok v
  | none => .error .undefined

/-- `BITS_USE_SPECIAL` -/
def bitsUseSpecial : Fin 65 := 3

/-- What both macros draw: one of the special values, or random bits. -/
def drawScalar (type : CType) (bits : Fin 65) (special : List Int) : Gen Int :=
  .bits bitsUseSpecial fun choice =>
    if choice.toNat = 1 <<< bitsUseSpecial.val - 1 then
      .bits 8 fun word => .ret (type.convert (special.getD (word.toNat % special.length) 0))
    else .bits bits fun word => .ret (type.convert word.toNat)

/-- The reduction of `ALLOC_USCALAR` -/
def reduceUnsigned (type : CType) (limit res : Int) : Except ScalarStop Int :=
  if limit ≠ 0 then (definedOr (type.promote.rem res limit)).map type.convert
  else .error .assertion

/-- The reduction of `ALLOC_SSCALAR`, in the type that its operands are promoted to -/
def reduceSigned (type : CType) (limit res : Int) : Except ScalarStop Int :=
  if 0 < limit then
    match type.promote.neg limit with
    | none => .error .undefined
    | some least =>
      if res < least then (definedOr (type.promote.rem res least)).map type.convert
      else if limit ≤ res then (definedOr (type.promote.rem res limit)).map type.convert
      else .ok res
  else .error .assertion

/-- One use of a macro: `type` and `bits` are its `TYPE` and `BITS`. -/
structure Scalar where
  reduce : CType → Int → Int → Except ScalarStop Int
  type : CType
  bits : Fin 65
  special : List Int

/-- `ALLOC_USCALAR` -/
def allocUScalar (type : CType) (bits : Fin 65) (special : List Int) : Scalar :=
  ⟨reduceUnsigned, type, bits, special⟩

/-- `ALLOC_SSCALAR` -/
def allocSScalar (type : CType) (bits : Fin 65) (special : List Int) : Scalar :=
  ⟨reduceSigned, type, bits, special⟩

/-- The function that a macro defines. `memory` says whether `malloc` succeeds, and the limit is
what `env` points to, if anything. -/
def Scalar.alloc (scalar : Scalar) (memory : Bool) (limit : Option Int) :
    Gen (Except ScalarStop (AllocRes × Option Int)) :=
  if memory = false then .ret (.ok (.error, none))
  else
    (drawScalar scalar.type scalar.bits scalar.special).map fun res =>
      match limit with
      | none => .ok (.ok, some res)
      | some limit => (scalar.reduce scalar.type limit res).map fun res => (.ok, some res)

def uint : Scalar := allocUScalar ⟨32, false⟩ 32
  [0, 1, 2, 3, 4, 5, 6, 7,
   63, 64, 127, 128, 129, 255, 2 ^ 32 - 2, 2 ^ 32 - 1]

def uint8 : Scalar := allocUScalar ⟨8, false⟩ 8
  [0, 1, 2, 3, 4, 5, 6, 7,
   63, 64, 65, 127, 128, 129, 254, 255]

def uint16 : Scalar := allocUScalar ⟨16, false⟩ 16
  [0, 1, 2, 3, 4, 5, 6, 255,
   256, 1024, 4096, 16384, 32768, 32769, 65534, 65535]

def uint32 : Scalar := allocUScalar ⟨32, false⟩ 32
  [0, 1, 2, 3, 4, 5, 6, 255,
   2 ^ 8, 2 ^ 8 + 1, 2 ^ 16 - 1, 2 ^ 16,
   2 ^ 16 + 1, 2 ^ 19, 2 ^ 22, 2 ^ 32 - 1]

def uint64 : Scalar := allocUScalar ⟨64, false⟩ 64
  [0, 1, 2, 3, 4, 5, 6, 255,
   2 ^ 8, 2 ^ 16, 2 ^ 32, 2 ^ 32 + 1,
   2 ^ 53, 2 ^ 53 + 1, -2, -1]

def sizeT : Scalar := allocUScalar ⟨64, false⟩ 64
  [0, 1, 2, 3, 4, 5, 6, 255,
   256, -2, -1]

/-- The `TYPE` of `int` is `unsigned int`. -/
def int : Scalar := allocSScalar ⟨32, false⟩ 32
  [0, 1, 2, 3, -1, -2, -3, -4,
   -2 ^ 31 + 1, -2 ^ 31, 2 ^ 31 - 2, 2 ^ 31 - 1]

def int8 : Scalar := allocSScalar ⟨8, true⟩ 8
  [0, 1, 2, 3, -1, -2, -3, -4,
   63, 64, 65, 127,
   128, 129, 254, 255]

def int16 : Scalar := allocSScalar ⟨16, true⟩ 16
  [0, 1, 2, 3, 4, 5, 6, 255,
   256, 1024, 4096, 16384,
   32768, 32769, 65534, 65535]

def int32 : Scalar := allocSScalar ⟨32, true⟩ 32
  [0, 1, 2, 3, 4, 5, 6, 255,
   2 ^ 8, 2 ^ 8 + 1, 2 ^ 16 - 1, 2 ^ 16,
   2 ^ 16 + 1, 2 ^ 19, 2 ^ 22, 2 ^ 32 - 1]

def int64 : Scalar := allocSScalar ⟨64, true⟩ 64
  [0, 1, 2, 3, 4, 5, 6, 255,
   2 ^ 8, 2 ^ 16, 2 ^ 32, 2 ^ 32 + 1,
   2 ^ 53, 2 ^ 53 + 1, -2, -1]

/-- The integers of `enum theft_builtin_type_info` -/
inductive BuiltinInt
  | uint | uint8 | uint16 | uint32 | uint64 | sizeT
  | int | int8 | int16 | int32 | int64
  deriving DecidableEq, Repr

namespace BuiltinInt

/-- The row of a type -/
def scalar : BuiltinInt → Scalar
  | uint => Theft.uint
  | uint8 => Theft.uint8
  | uint16 => Theft.uint16
  | uint32 => Theft.uint32
  | uint64 => Theft.uint64
  | sizeT => Theft.sizeT
  | int => Theft.int
  | int8 => Theft.int8
  | int16 => Theft.int16
  | int32 => Theft.int32
  | int64 => Theft.int64

/-- The type that an instance is read as -/
def readAs (b : BuiltinInt) : CType := if b = int then ⟨32, true⟩ else b.scalar.type

/-- The value is within the limit. -/
def Within (b : BuiltinInt) (limit x : Int) : Prop :=
  (if b.readAs.signed then -limit else 0) ≤ b.readAs.convert x ∧ b.readAs.convert x < limit

/-- What is drawn from the bits `S`, before the reduction -/
def raw (b : BuiltinInt) (S : Nat → Bool) : Int :=
  b.scalar.type.convert
    (if drawn S 3 = 7 then
      b.scalar.special.getD (drawn (later 3 S) 8 % b.scalar.special.length) 0
    else drawn (later 3 S) b.scalar.bits)

/-- The drawn value is one that the reduction brings within the limit. -/
def Reduces (b : BuiltinInt) (limit res : Int) : Prop :=
  match b with
  | int => -limit ≤ (⟨32, true⟩ : CType).convert res ∧ (⟨32, true⟩ : CType).convert res < limit
  | int32 | int64 => ¬ (limit = 1 ∧ res = b.scalar.type.minValue)
  | _ => True

end BuiltinInt

/-! ## The reductions -/

section
variable {type : CType} {limit res : Int}

/-- A remainder is defined unless the quotient does not fit. -/
theorem rem_eq_some {a b : Int} (hb : b ≠ 0) (h : ¬ (a = type.minValue ∧ b = -1)) :
    type.rem a b = some (a.tmod b) := by
  apply if_neg
  rintro (hzero | ⟨-, hfault⟩)
  · exact hb hzero
  · exact h hfault

theorem reduceUnsigned_eq (hwidth : 0 < type.width) (hunsigned : type.signed = false)
    (hpos : 1 ≤ limit) (hmax : limit ≤ type.maxValue) (hres : type.Holds res) :
    reduceUnsigned type limit res = .ok (res % limit) := by
  have hnonneg : 0 ≤ res := by
    have hmin := hres.1
    rwa [CType.minValue_unsigned hunsigned] at hmin
  have hlow := Int.emod_nonneg res (show limit ≠ 0 by omega)
  have hhigh := Int.emod_lt_of_pos res (show 0 < limit by omega)
  have hholds : type.Holds (res % limit) := by
    refine ⟨?_, by omega⟩
    rw [CType.minValue_unsigned hunsigned]
    exact hlow
  rw [reduceUnsigned, if_pos (by omega), rem_eq_some (by omega) (by omega),
    Int.tmod_eq_emod_of_nonneg hnonneg]
  exact congrArg Except.ok (CType.convert_of_holds hwidth hholds)

/-- The least value of a signed type is not that of its promoted type, if that is wider. -/
theorem promote_signed (hwidth : 0 < type.width) (hsigned : type.signed = true) :
    type.promote.signed = true ∧ type.promote.minValue ≤ type.minValue ∧
      type.maxValue ≤ type.promote.maxValue ∧
      (type.promote.minValue = type.minValue → 32 ≤ type.width) ∧
      (32 ≤ type.width → type.promote.minValue = type.minValue) := by
  by_cases hnarrow : type.width < 32
  · have hmin : type.Holds type.minValue := by
      refine ⟨Int.le_refl _, ?_⟩
      have hpos := CType.two_pow_pos (type.width - 1)
      rw [CType.minValue_signed hsigned, CType.maxValue_signed hsigned]
      omega
    have hmax : type.Holds type.maxValue := ⟨Int.le_trans hmin.2 (Int.le_refl _), Int.le_refl _⟩
    have hlow := (hmin.lt_int hwidth hnarrow).1
    have hhigh := (hmax.lt_int hwidth hnarrow).2
    have hint : (⟨32, true⟩ : CType).minValue = -2 ^ 31 := rfl
    have hint' : (⟨32, true⟩ : CType).maxValue = 2 ^ 31 - 1 := rfl
    rw [CType.promote_of_lt hnarrow, hint, hint']
    exact ⟨rfl, by omega, by omega, by omega, by omega⟩
  · rw [CType.promote_of_width (by omega)]
    exact ⟨hsigned, Int.le_refl _, Int.le_refl _, fun _ => by omega, fun _ => rfl⟩

/-- **The reduction of a signed type**: it is defined, and within the limit, unless it takes the
remainder of the least value by -1. -/
theorem reduceSigned_spec (hwidth : 0 < type.width) (hsigned : type.signed = true)
    (hpos : 1 ≤ limit) (hmax : limit ≤ type.maxValue) (hres : type.Holds res) :
    if 32 ≤ type.width ∧ limit = 1 ∧ res = type.minValue then
      reduceSigned type limit res = .error .undefined
    else ∃ x, reduceSigned type limit res = .ok x ∧ type.Holds x ∧ -limit ≤ x ∧ x < limit := by
  obtain ⟨hpsigned, hpmin, hpmax, hwide, hwide'⟩ := promote_signed hwidth hsigned
  have hhalf := CType.two_pow_pos (type.width - 1)
  have hminValue := CType.minValue_signed hsigned
  have hmaxValue := CType.maxValue_signed hsigned
  obtain ⟨hlow, hhigh⟩ := hres
  have hneg : type.promote.neg limit = some (-limit) := by
    rw [CType.neg, if_pos hpsigned, if_neg (by omega)]
  have hfits : ∀ x, -limit ≤ x → x < limit → type.Holds x := by
    intro x hx hx'
    exact ⟨by omega, by omega⟩
  unfold reduceSigned
  rw [if_pos (show 0 < limit by omega), hneg]
  dsimp only
  by_cases hbelow : res < -limit
  · rw [if_pos hbelow]
    by_cases hfault : res = type.promote.minValue ∧ -limit = -1
    · have hleast : res = type.minValue := by omega
      rw [if_pos ⟨hwide (by omega), by omega, hleast⟩, CType.rem,
        if_pos (.inr ⟨hpsigned, hfault⟩)]
      rfl
    · have hnever : ¬ (32 ≤ type.width ∧ limit = 1 ∧ res = type.minValue) := by
        rintro ⟨hw, rfl, hmin⟩
        exact hfault ⟨by rw [hwide' hw, hmin], rfl⟩
      have hx := Int.lt_tmod_of_pos res (show 0 < limit by omega)
      have hx' := Int.tmod_lt_of_pos res (show 0 < limit by omega)
      have hholds := hfits _ (by omega) hx'
      rw [if_neg hnever, rem_eq_some (by omega) hfault, Int.tmod_neg]
      exact ⟨_, congrArg Except.ok (CType.convert_of_holds hwidth hholds), hholds, by omega, hx'⟩
  · rw [if_neg hbelow, if_neg (by omega)]
    by_cases habove : limit ≤ res
    · have hx := Int.lt_tmod_of_pos res (show 0 < limit by omega)
      have hx' := Int.tmod_lt_of_pos res (show 0 < limit by omega)
      have hholds := hfits _ (by omega) hx'
      rw [if_pos habove, rem_eq_some (by omega) (by omega)]
      exact ⟨_, congrArg Except.ok (CType.convert_of_holds hwidth hholds), hholds, by omega, hx'⟩
    · rw [if_neg habove]
      exact ⟨res, rfl, hfits _ (by omega) (by omega), by omega, by omega⟩

/-- An `unsigned int` read as an `int` -/
theorem convert_int {x : Int} (hlow : 0 ≤ x) (hhigh : x < 2 ^ 32) :
    (⟨32, true⟩ : CType).convert x = if x < 2 ^ 31 then x else x - 2 ^ 32 := by
  change x.bmod (2 ^ 32) = _
  rw [Int.bmod_def]
  split <;> split <;> omega

/-- For `int`, `-limit` is a large `unsigned int`, so that smaller values are kept. -/
theorem reduceSigned_int (hpos : 1 ≤ limit) (hmax : limit < 2 ^ 31) (hlow : 0 ≤ res)
    (hhigh : res < 2 ^ 32) :
    reduceSigned ⟨32, false⟩ limit res =
      .ok (if res < 2 ^ 32 - limit then res else res % limit) := by
  have hpromote : (⟨32, false⟩ : CType).promote = ⟨32, false⟩ := rfl
  have hneg : (⟨32, false⟩ : CType).neg limit = some (2 ^ 32 - limit) := by
    change some (-limit % 2 ^ 32) = _
    rw [Option.some.injEq]
    omega
  have hminValue : (⟨32, false⟩ : CType).minValue = 0 := rfl
  have hmaxValue : (⟨32, false⟩ : CType).maxValue = 2 ^ 32 - 1 := rfl
  have hfits : ∀ x, 0 ≤ x → x < 2 ^ 32 → (⟨32, false⟩ : CType).convert x = x := by
    intro x hx hx'
    apply CType.convert_of_holds (by decide)
    constructor <;> omega
  unfold reduceSigned
  rw [if_pos (show 0 < limit by omega), hpromote, hneg]
  dsimp only
  by_cases hbelow : res < 2 ^ 32 - limit
  · rw [if_pos hbelow, if_pos hbelow, rem_eq_some (by omega) (by omega),
      Int.tmod_eq_emod_of_nonneg hlow, Int.emod_eq_of_lt hlow hbelow]
    exact congrArg Except.ok (hfits res hlow hhigh)
  · have hx := Int.emod_nonneg res (show limit ≠ 0 by omega)
    have hx' := Int.emod_lt_of_pos res (show 0 < limit by omega)
    rw [if_neg hbelow, if_neg hbelow, if_pos (by omega), rem_eq_some (by omega) (by omega),
      Int.tmod_eq_emod_of_nonneg hlow]
    exact congrArg Except.ok (hfits _ hx (by omega))

/-! ## The generators -/

namespace BuiltinInt

theorem eval_drawScalar (b : BuiltinInt) (S : Nat → Bool) :
    (drawScalar b.scalar.type b.scalar.bits b.scalar.special).eval S = b.raw S := by
  have hchoice : (Gen.answer S bitsUseSpecial.val).toNat = drawn S 3 := rfl
  unfold drawScalar raw
  simp only [Gen.eval, hchoice]
  change (if drawn S 3 = 7 then _ else _ : Gen Int).eval _ = _
  split <;> rfl

/-- What an allocation with a limit returns. -/
theorem eval_alloc (b : BuiltinInt) (limit : Int) (S : Nat → Bool) :
    (b.scalar.alloc true (some limit)).eval S =
      (b.scalar.reduce b.scalar.type limit (b.raw S)).map fun res => (.ok, some res) := by
  rw [Scalar.alloc, if_neg (by decide), Gen.eval_map, eval_drawScalar]

theorem raw_holds (b : BuiltinInt) (S : Nat → Bool) : b.scalar.type.Holds (b.raw S) := by
  apply CType.holds_convert
  cases b <;> decide

theorem alloc_within_iff (b : BuiltinInt) (limit : Int) (S : Nat → Bool) :
    (∃ x, (b.scalar.alloc true (some limit)).eval S = .ok (.ok, some x) ∧ b.Within limit x) ↔
      ∃ x, b.scalar.reduce b.scalar.type limit (b.raw S) = .ok x ∧ b.Within limit x := by
  rw [eval_alloc]
  cases b.scalar.reduce b.scalar.type limit (b.raw S) with
  | ok x => simp [Except.map]
  | error e => simp [Except.map]

/-- A type of `ALLOC_USCALAR` -/
theorem unsigned_within {b : BuiltinInt} (hreduce : b.scalar.reduce = reduceUnsigned)
    (hread : b.readAs = b.scalar.type) (hunsigned : b.scalar.type.signed = false)
    (hwidth : 0 < b.scalar.type.width) (hpos : 1 ≤ limit) (hmax : limit ≤ b.readAs.maxValue)
    (S : Nat → Bool) :
    ∃ x, b.scalar.reduce b.scalar.type limit (b.raw S) = .ok x ∧ b.Within limit x := by
  rw [hread] at hmax
  have hlow := Int.emod_nonneg (b.raw S) (show limit ≠ 0 by omega)
  have hhigh := Int.emod_lt_of_pos (b.raw S) (show 0 < limit by omega)
  have hholds : b.scalar.type.Holds (b.raw S % limit) := by
    refine ⟨?_, by omega⟩
    rw [CType.minValue_unsigned hunsigned]
    exact hlow
  refine ⟨_, by rw [hreduce, reduceUnsigned_eq hwidth hunsigned hpos hmax (b.raw_holds S)], ?_⟩
  rw [Within, hread, hunsigned, CType.convert_of_holds hwidth hholds]
  exact ⟨hlow, hhigh⟩

/-- A type of `ALLOC_SSCALAR` that is signed -/
theorem signed_within_iff {b : BuiltinInt} (hreduce : b.scalar.reduce = reduceSigned)
    (hread : b.readAs = b.scalar.type) (hsigned : b.scalar.type.signed = true)
    (hwidth : 0 < b.scalar.type.width) (hpos : 1 ≤ limit) (hmax : limit ≤ b.readAs.maxValue)
    (S : Nat → Bool) :
    (∃ x, b.scalar.reduce b.scalar.type limit (b.raw S) = .ok x ∧ b.Within limit x) ↔
      ¬ (32 ≤ b.scalar.type.width ∧ limit = 1 ∧ b.raw S = b.scalar.type.minValue) := by
  have hspec := reduceSigned_spec hwidth hsigned hpos (hread ▸ hmax) (b.raw_holds S)
  rw [hreduce]
  split at hspec
  · rename_i hfault
    rw [hspec]
    exact iff_of_false (by rintro ⟨x, hx, -⟩; cases hx) (fun h => h hfault)
  · rename_i hfine
    obtain ⟨x, hx, hholds, hlow, hhigh⟩ := hspec
    refine iff_of_true ⟨x, hx, ?_⟩ hfine
    rw [Within, hread, hsigned, CType.convert_of_holds hwidth hholds]
    exact ⟨hlow, hhigh⟩

theorem int_within_iff (hpos : 1 ≤ limit) (hmax : limit < 2 ^ 31) (S : Nat → Bool) :
    (∃ x, int.scalar.reduce int.scalar.type limit (int.raw S) = .ok x ∧ int.Within limit x) ↔
      int.Reduces limit (int.raw S) := by
  obtain ⟨hlow, hhigh⟩ := int.raw_holds S
  have hminValue : int.scalar.type.minValue = 0 := rfl
  have hmaxValue : int.scalar.type.maxValue = 2 ^ 32 - 1 := rfl
  have hhigh' : int.raw S < 2 ^ 32 := by omega
  have hrun : int.scalar.reduce int.scalar.type limit (int.raw S) =
      .ok (if int.raw S < 2 ^ 32 - limit then int.raw S else int.raw S % limit) :=
    reduceSigned_int hpos hmax hlow hhigh'
  have hmod := Int.emod_nonneg (int.raw S) (show limit ≠ 0 by omega)
  have hmod' := Int.emod_lt_of_pos (int.raw S) (show 0 < limit by omega)
  have hwithin : ∀ x, int.Within limit x ↔
      -limit ≤ (⟨32, true⟩ : CType).convert x ∧ (⟨32, true⟩ : CType).convert x < limit :=
    fun x => Iff.rfl
  rw [hrun]
  simp only [Except.ok.injEq, exists_eq_left', hwithin, Reduces]
  split
  · exact Iff.rfl
  · rw [convert_int hlow hhigh', convert_int hmod (by omega)]
    split <;> split <;> omega

/-- **When a built-in integer lies within its limit**, and no step of the reduction is
undefined. -/
theorem builtin_limit_iff (b : BuiltinInt) {limit : Int} (hpos : 1 ≤ limit)
    (hmax : limit ≤ b.readAs.maxValue) (S : Nat → Bool) :
    (∃ x, (b.scalar.alloc true (some limit)).eval S = .ok (.ok, some x) ∧ b.Within limit x) ↔
      b.Reduces limit (b.raw S) := by
  rw [alloc_within_iff]
  cases b with
  | uint | uint8 | uint16 | uint32 | uint64 | sizeT =>
    exact iff_of_true (unsigned_within rfl rfl rfl (by decide) hpos hmax S) trivial
  | int => exact int_within_iff hpos (Int.lt_of_le_sub_one hmax) S
  | int8 | int16 =>
    rw [signed_within_iff rfl rfl rfl (by decide) hpos hmax]
    exact iff_of_true (by rintro ⟨h, -⟩; exact absurd h (by decide)) trivial
  | int32 | int64 =>
    rw [signed_within_iff rfl rfl rfl (by decide) hpos hmax]
    exact not_congr (and_iff_right (by decide))

/-- The bits of -1005, which has to be reduced. -/
theorem builtin_limit_ten : int64.raw (Nat.testBit (8 * (2 ^ 64 - 1005))) = -1005 ∧
    ∃ x, (int64.scalar.alloc true (some 10)).eval (Nat.testBit (8 * (2 ^ 64 - 1005))) =
      .ok (.ok, some x) ∧ int64.Within 10 x := by
  refine ⟨by decide +kernel, (builtin_limit_iff int64 (by decide) (by decide) _).mpr ?_⟩
  rintro ⟨hlimit, -⟩
  cases hlimit

/-- The bits of 100 make an `int` of 100 for a limit of 10, and the least `int64_t` has no
remainder by -1. -/
theorem builtin_limit_broken :
    (int.scalar.alloc true (some 10)).eval (Nat.testBit (8 * 100)) = .ok (.ok, some 100) ∧
      ¬ int.Within 10 100 ∧
      (int64.scalar.alloc true (some 1)).eval (fun i => decide (i = 66)) = .error .undefined := by
  refine ⟨by decide +kernel, ?_, by decide +kernel⟩
  rintro ⟨-, hhigh⟩
  exact absurd hhigh (by decide)

end BuiltinInt

end

end Theft
