import Theft.Lib.Exec
import Theft.Pool

/-!
# Getting random bits

`theft_random.c`: random bits come from the generator through a 64-bit buffer, or from
an injected bit pool. `Gen` is a callback seen from here: it asks for bits, and what it
does next is a function of the answers.
-/

namespace Theft

open PackedBits

/-- `struct prng_info`. The injected pool is held here while a callback reads from it. -/
structure Prng (R : Type) where
  rng : R
  buf : Word
  bitsAvailable : Nat
  bitPool : Option BitPool

/-- Programs that use the random bits of the runner. -/
abbrev Draw (R : Type) := EStateM Stop (Prng R)

section
variable {R : Type} [Platform R]

/-- `theft_random_set_seed`: the buffered bits and the current pool are given up. -/
def Prng.setSeed (_p : Prng R) (seed : Word) : Prng R :=
  ⟨Platform.rngReset seed, 0, 0, none⟩

/-- `theft_random_inject_autoshrink_bit_pool` -/
def Prng.injectBitPool (p : Prng R) (pool : BitPool) : Prng R := { p with bitPool := some pool }

/-- `theft_random_stop_using_bit_pool` -/
def Prng.stopUsingBitPool (p : Prng R) : Prng R := { p with bitPool := none }

/-- `prng.buf >>= take`, whatever a shift by 64 gives. -/
def Prng.shiftBuf (p : Prng R) (take : Nat) : Word :=
  if take < 64 then p.buf >>> take else Platform.shiftBy64 p.rng p.buf

/-- The buffer is refilled when it has run out. -/
def Prng.refill (p : Prng R) : Prng R :=
  if p.bitsAvailable = 0 then
    { p with
      rng := (Platform.rngRandom p.rng).2
      buf := (Platform.rngRandom p.rng).1
      bitsAvailable := 64 }
  else p

/-- `take` bits are used up. -/
def Prng.advance (p : Prng R) (take : Nat) : Prng R :=
  { p with buf := p.shiftBuf take, bitsAvailable := p.bitsAvailable - take }

/-- The loop of `theft_random_bits_bulk` without a pool. -/
def drawBits : Nat → (rem shift offset : Nat) → List Word → Prng R →
    Except Stop (List Word × Prng R)
  | 0, _, _, _, _, _ => .error .fuel
  | fuel + 1, rem, shift, offset, buf, p =>
    if 0 < rem then
      let p := p.refill
      let take := 64 - shift
      let take := if rem < take then rem else take
      let take := if p.bitsAvailable < take then p.bitsAvailable else take
      match buf[offset]? with
      | none => .error .outOfBounds
      | some w =>
        let buf := buf.set offset (w ||| ((p.buf &&& getMask take) <<< shift))
        if shift + take = 64 then drawBits fuel (rem - take) 0 (offset + 1) buf (p.advance take)
        else drawBits fuel (rem - take) (shift + take) offset buf (p.advance take)
    else .ok (buf, p)

/-- `theft_random_bits_bulk` -/
def randomBitsBulk (bitCount : Nat) (buf : List Word) : Draw R (List Word) := fun p =>
  match p.bitPool with
  | some pool =>
    match bitPoolRandom p.rng pool bitCount true buf with
    | .ok (rng, pool, buf) => .ok buf { p with rng := rng, bitPool := some pool }
    | .error e => .error e p
  | none =>
    match drawBits (bitCount + 1) bitCount 0 0 buf p with
    | .ok (buf, p) => .ok buf p
    | .error e => .error e p

/-- `theft_random_bits` -/
def randomBits (bitCount : Nat) : Draw R Word :=
  if bitCount ≤ 64 then do
    let res ← randomBitsBulk bitCount [0]
    pure (res.getD 0 0)
  else throw .assertion

/-- `theft_random` -/
def random : Draw R Word := randomBits (8 * 8)

end

/-! ## Callbacks that ask for random bits -/

instance neZero_sixtyFive : NeZero 65 := ⟨by decide⟩

/-- A callback that holds `t`: it asks for up to 64 bits (`theft_random_bits`), or for any
32-bit number of bits into a buffer of its own (`theft_random_bits_bulk`), and returns. -/
inductive Gen (α : Type) where
  | ret (a : α)
  | bits (bitCount : Fin 65) (k : Word → Gen α)
  | bulk (bitCount : Fin (2 ^ 32)) (buf : List Word) (k : List Word → Gen α)

namespace Gen
variable {α β : Type}

def map (f : α → β) : Gen α → Gen β
  | ret a => ret (f a)
  | bits n k => bits n fun w => (k w).map f
  | bulk n buf k => bulk n buf fun ws => (k ws).map f

/-- The last of three results apart from the others. -/
def apart {γ : Type} (g : Gen (α × β × γ)) : Gen ((α × β) × γ) := g.map fun (a, b, c) => ((a, b), c)

/-- Running a callback. -/
def run {R : Type} [Platform R] : Gen α → Draw R α
  | ret a => pure a
  | bits n k => do
    let w ← randomBits n
    (k w).run
  | bulk n buf k => do
    let ws ← randomBitsBulk n buf
    (k ws).run

/-- Every buffer handed to a bulk request is large enough. -/
def Sized : Gen α → Prop
  | ret _ => True
  | bits _ k => ∀ w, (k w).Sized
  | bulk n buf k => wordCount n ≤ buf.length ∧ ∀ ws, (k ws).Sized

/-- Every buffer handed to a bulk request is large enough and zeroed. -/
def Zeroed : Gen α → Prop
  | ret _ => True
  | bits _ k => ∀ w, (k w).Zeroed
  | bulk n buf k => (wordCount n ≤ buf.length ∧ ∀ w ∈ buf, w = 0) ∧ ∀ ws, (k ws).Zeroed

/-- What a callback may return, whatever the responses to its requests. -/
def Returns : Gen α → α → Prop
  | ret a, b => b = a
  | bits _ k, b => ∃ w, (k w).Returns b
  | bulk _ _ k, b => ∃ ws, (k ws).Returns b

end Gen

end Theft
