import Theft.Lib.PackedBits

/-!
# The random number generator

`theft_rng.c`: MT19937-64 over a state of 312 words, and the interface the rest of
the runner has to it. The runner is modelled over any generator of 64-bit words.
-/

namespace Theft

open PackedBits

/-- How a modelled computation can stop without returning. -/
inductive Stop
  | assertion
  | outOfBounds
  | allocation
  | fuel
  deriving DecidableEq, Repr

/-- What the runner takes from below it: a generator of 64-bit words, the value this
platform gives to a shift of a word by 64 (undefined in C), and what memory holds
before it is first written. -/
class Platform (R : Type) where
  /-- `theft_rng_reset` -/
  rngReset : Word → R
  /-- `theft_rng_random` -/
  rngRandom : R → Word × R
  shiftBy64 : R → Word → Word
  uninit : Nat → Byte

/-! ## MT19937-64 -/

/-- `struct theft_rng` -/
structure Rng where
  mt : List Word
  mti : Nat
  deriving DecidableEq, Repr

namespace Rng

/-- `NN` -/
def nn : Nat := 312

/-- `MM` -/
def mm : Nat := 156

def matrixA : Word := 0xB5026F5AA96619E9

/-- Most significant 33 bits. -/
def um : Word := 0xFFFFFFFF80000000

/-- Least significant 31 bits. -/
def lm : Word := 0x7FFFFFFF

def mag01 (x : Word) : Word := if x &&& 1 = 0 then 0 else matrixA

/-- The words after the first that `theft_rng_reset` writes, from the one before. -/
def seedWords : Nat → Nat → Word → List Word
  | 0, _, _ => []
  | k + 1, mti, prev =>
    let next := 6364136223846793005 * (prev ^^^ (prev >>> 62)) + BitVec.ofNat 64 mti
    next :: seedWords k (mti + 1) next

/-- `theft_rng_reset` -/
def reset (seed : Word) : Rng := ⟨seed :: seedWords (nn - 1) 1 seed, nn⟩

/-- A word of the next block, in the place of the word `i` of this one. -/
def twist (mt : List Word) (i next middle : Nat) : List Word :=
  let x := (mt.getD i 0 &&& um) ||| (mt.getD next 0 &&& lm)
  mt.set i (mt.getD middle 0 ^^^ (x >>> 1) ^^^ mag01 x)

/-- The loops of `genrand64_int64` that generate `NN` words at one time -/
def generateWords (mt : List Word) : List Word :=
  let mt := (List.range (nn - mm)).foldl (fun mt i => twist mt i (i + 1) (i + mm)) mt
  let mt := (List.range' (nn - mm) (mm - 1)).foldl
    (fun mt i => twist mt i (i + 1) (i - (nn - mm))) mt
  twist mt (nn - 1) 0 (mm - 1)

def temper (x : Word) : Word :=
  let x := x ^^^ ((x >>> 29) &&& 0x5555555555555555)
  let x := x ^^^ ((x <<< 17) &&& 0x71D67FFFEDA60000)
  let x := x ^^^ ((x <<< 37) &&& 0xFFF7EEE000000000)
  x ^^^ (x >>> 43)

/-- `genrand64_int64` -/
def genrand64Int64 (r : Rng) : Word × Rng :=
  let r :=
    if nn ≤ r.mti then
      let r := if r.mti = nn + 1 then reset 5489 else r
      { r with mt := generateWords r.mt, mti := 0 }
    else r
  (temper (r.mt.getD r.mti 0), { r with mti := r.mti + 1 })

end Rng

/-- The generator of the source, on a platform that takes shift amounts modulo 64. -/
instance : Platform Rng where
  rngReset := Rng.reset
  rngRandom := Rng.genrand64Int64
  shiftBy64 _ w := w
  uninit _ := 0

end Theft
