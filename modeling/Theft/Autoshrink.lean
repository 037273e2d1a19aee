import Theft.Bloom
import Theft.Random

/-!
# Autoshrinking

`theft_autoshrink.c`: an instance is shrunk by changing the bit pool it was generated from
and running its `alloc` callback again on the copy. A copy either loses some requests
(`dropFromBitPool`) or has some of its bits made smaller (`mutateBitPool`), and ends with
its last byte that is not 0.
-/

namespace Theft

open PackedBits Exec

/-- `enum theft_alloc_res` -/
inductive AllocRes
  | ok
  | skip
  | error
  deriving DecidableEq, Repr

/-- `enum theft_shrink_res` -/
inductive ShrinkRes
  | ok
  | deadEnd
  | noMoreTactics
  | error
  deriving DecidableEq, Repr

/-- `enum theft_trial_res` -/
inductive TrialRes
  | pass
  | fail
  | skip
  | dup
  | error
  deriving DecidableEq, Repr

/-! ## What is allocated -/

/-- A bit pool or an autoshrink environment, by its address. -/
inductive Resource
  | pool (id : Nat)
  | env (id : Nat)
  deriving DecidableEq, Repr

inductive LedgerEntry
  | acquire (r : Resource)
  | release (r : Resource)
  deriving DecidableEq, Repr

/-- What was allocated and freed, newest first; `nextId` is an address not used before. -/
structure Ledger where
  nextId : Nat
  entries : List LedgerEntry
  deriving DecidableEq, Repr

namespace Ledger

def acquirePool (l : Ledger) : Ledger :=
  ⟨l.nextId + 1, .acquire (.pool l.nextId) :: l.entries⟩

def acquireEnv (l : Ledger) : Ledger :=
  ⟨l.nextId + 1, .acquire (.env l.nextId) :: l.entries⟩

def release (l : Ledger) (r : Resource) : Ledger := { l with entries := .release r :: l.entries }

end Ledger

/-- `theft_autoshrink_free_bit_pool`: not while the pool is in use -/
def freeBitPool {R : Type} (p : Prng R) (pool : BitPool) (l : Ledger) : Except Stop Ledger :=
  if p.bitPool.isNone then .ok (l.release (.pool pool.id)) else .error .assertion

/-! ## The environment of an argument -/

/-- `enum autoshrink_action`; as an index, `enum autoshrink_weight`. -/
inductive AutoshrinkAction
  | drop
  | shift
  | mask
  | swap
  | sub
  deriving DecidableEq, Repr

/-- `enum mutation` -/
inductive Mutation
  | shift
  | mask
  | swap
  | sub
  deriving DecidableEq, Repr

/-- `struct autoshrink_model`. `curTried` and `curSet` are sets of actions. -/
structure AutoshrinkModel where
  curTried : AutoshrinkAction → Bool
  curSet : AutoshrinkAction → Bool
  nextAction : Option AutoshrinkAction
  weights : AutoshrinkAction → Byte

/-- `enum theft_autoshrink_print_mode`, as flags -/
structure PrintMode where
  user : Bool
  bitPool : Bool
  requests : Bool
  deriving DecidableEq, Repr

/-- `struct theft_autoshrink_config` -/
structure AutoshrinkConfig where
  enable : Bool
  poolSize : Nat
  printMode : PrintMode
  maxFailedShrinks : Nat
  deriving DecidableEq, Repr

/-- `struct autoshrink_env` -/
structure AutoshrinkEnv where
  id : Nat
  argI : Nat
  poolSize : Nat
  poolLimit : Nat
  printMode : PrintMode
  maxFailedShrinks : Nat
  dropThreshold : Nat
  dropBits : Nat
  model : AutoshrinkModel
  bitPool : Option BitPool
  leaveTrailingZeroes : Bool

/-- `DEF_MAX_FAILED_SHRINKS` -/
def defMaxFailedShrinks : Nat := 100

/-- `DEF_DROP_THRESHOLD` -/
def defDropThreshold : Nat := 0

/-- `DEF_DROP_BITS` -/
def defDropBits : Nat := 5

/-- `DO_NOT_DROP` -/
def doNotDrop : Nat := 0xFFFFFFFF

/-- `GET_DEF` -/
def getDef (x dflt : Nat) : Nat := if x ≠ 0 then x else dflt

/-- A model that is all zeroes. -/
def AutoshrinkModel.zero : AutoshrinkModel := ⟨fun _ => false, fun _ => false, none, fun _ => 0⟩

/-- `theft_autoshrink_alloc_env` -/
def autoshrinkAllocEnv (id argI : Nat) (config : AutoshrinkConfig) : AutoshrinkEnv where
  id := id
  argI := argI
  poolSize := config.poolSize
  poolLimit := 0
  printMode := config.printMode
  maxFailedShrinks := config.maxFailedShrinks
  dropThreshold := 0
  dropBits := 0
  model := .zero
  bitPool := none
  leaveTrailingZeroes := false

/-! ## Weights -/

def twoEvenly : Byte := 0x80

def fourEvenly : Byte := 0x40

def modelMin : Byte := 0x08

def modelMax : Byte := 0x80

def dropsMin : Byte := 0x10

def dropsMax : Byte := 0xA0

/-- `init_model` -/
def initModel (model : AutoshrinkModel) : AutoshrinkModel :=
  if model.nextAction.isSome then model
  else
    { AutoshrinkModel.zero with
      weights := fun
        | .drop => twoEvenly
        | .shift => fourEvenly
        | .mask => fourEvenly
        | .swap => fourEvenly - 0x10
        | .sub => fourEvenly }

/-- `adjust`. The new weight wraps; 0 stands for no change. -/
def adjust (model : AutoshrinkModel) (w : AutoshrinkAction) (min max adjustment : Byte) :
    AutoshrinkModel :=
  let nv : Byte :=
    if model.curSet w then model.weights w + adjustment
    else if model.curTried w && (0#8).slt adjustment then model.weights w - adjustment
    else 0
  if nv ≠ 0 then
    let nv := if max < nv then max else if nv < min then min else nv
    { model with weights := fun w' => if w' = w then nv else model.weights w' }
  else model

/-- `theft_autoshrink_update_model`, on the model of an argument that is autoshrunk -/
def updateModel (model : AutoshrinkModel) (res : TrialRes) (adjustment : Byte) :
    AutoshrinkModel :=
  if [.drop, .shift, .mask, .swap, .sub].any model.curSet then
    let adj := if res = .fail then adjustment else -adjustment
    let model := adjust model .drop dropsMin dropsMax adj
    let model := adjust model .shift modelMin modelMax adj
    let model := adjust model .mask modelMin modelMax adj
    let model := adjust model .swap modelMin modelMax adj
    adjust model .sub modelMin modelMax adj
  else model

/-! ## Bits at an offset -/

/-- The loop of `read_bits_at_offset` -/
def readBits (bytes : List Byte) : List Nat → Cursor → Word → Except Stop Word
  | [], _, acc => .ok acc
  | i :: is, c, acc =>
    match c.test bytes with
    | none => .error .outOfBounds
    | some set => readBits bytes is c.next (if set then acc ||| (1#64 <<< i) else acc)

/-- `read_bits_at_offset` -/
def readBitsAtOffset (pool : BitPool) (bitOffset size : Nat) : Except Stop Word :=
  readBits pool.bits (List.range size) (.ofOffset bitOffset) 0

/-- The loop of `write_bits_at_offset` -/
def writeBits (v : Word) : List Nat → Cursor → List Byte → Except Stop (List Byte)
  | [], _, bytes => .ok bytes
  | i :: is, c, bytes =>
    match c.write bytes ((v &&& (1#64 <<< i)) != 0) with
    | none => .error .outOfBounds
    | some bytes => writeBits v is c.next bytes

/-- `write_bits_at_offset` -/
def writeBitsAtOffset (pool : BitPool) (bitOffset size : Nat) (v : Word) : Except Stop BitPool :=
  (writeBits v (List.range size) (.ofOffset bitOffset) pool.bits).map fun bits =>
    { pool with bits := bits }

/-- The loop of `build_index`: the offset of each request. -/
def indexFrom : Nat → List Nat → List Nat
  | _, [] => []
  | total, r :: rs => total :: indexFrom (total + r) rs

/-- `build_index`; `none` when memory runs out -/
def buildIndex (pool : BitPool) : Option BitPool :=
  match pool.index with
  | some _ => some pool
  | none =>
    if 64 * pool.requestCount ≤ maxBits then
      some { pool with index := some (indexFrom 0 pool.requests) }
    else none

/-- `offset_of_pos` -/
def offsetOfPos (orig : BitPool) (pos : Nat) : Except Stop Nat :=
  match orig.index with
  | none => .error .assertion
  | some index =>
    match index[pos]? with
    | none => .error .outOfBounds
    | some offset => .ok offset

/-- `requests[pos]` -/
def requestAt (orig : BitPool) (pos : Nat) : Except Stop Nat :=
  match orig.requests[pos]? with
  | none => .error .outOfBounds
  | some size => .ok size

/-! ## Small arithmetic -/

/-- `popcount` -/
def popcount (value : Word) : Nat :=
  (List.range 64).foldl (fun pop i => if (value &&& (1#64 <<< i)) != 0 then pop + 1 else pop) 0

/-- The loop that raises `res` until `2^res` reaches a value. -/
def raiseTo (value : Nat) : Nat → Nat → Nat
  | 0, res => res
  | fuel + 1, res => if 2 ^ res < value then raiseTo value fuel (res + 1) else res

/-- `log2ceil` -/
def log2ceil (value : Nat) : Nat := raiseTo value 64 0

/-- `a - b` in `size_t` -/
def sizeSub (a b : Nat) : Nat := if b ≤ a then a - b else a + 2 ^ 64 - b

/-- Bytes that hold `bitCount` bits. -/
def byteCount (bitCount : Nat) : Nat := bitCount / 8 + if bitCount % 8 = 0 then 0 else 1

/-! ## One shrinking step -/

/-- What one shrinking step works on. -/
structure AutoState (R : Type) where
  prng : Prng R
  ledger : Ledger
  env : AutoshrinkEnv

/-- Programs of the shrinking step. -/
abbrev Auto (R : Type) := EStateM Stop (AutoState R)

section
variable {R : Type} [Platform R]

/-- `prng(bits, env->udata)`, for `def_autoshrink_prng` -/
def prngBits (bitCount : Nat) : Auto R Word :=
  zoom AutoState.prng (fun p s => { s with prng := p }) (randomBits bitCount)

def modifyModel (f : AutoshrinkModel → AutoshrinkModel) : Auto R Unit :=
  modify fun s => { s with env := { s.env with model := f s.env.model } }

/-- `env->model.cur_tried |= action` -/
def setTried (action : AutoshrinkAction) : Auto R Unit :=
  modifyModel fun m => { m with curTried := fun a => a = action || m.curTried a }

/-- `env->model.cur_set |= action`, when there was a change -/
def setSet (action : AutoshrinkAction) (changed : Bool) : Auto R Unit :=
  if changed then modifyModel fun m => { m with curSet := fun a => a = action || m.curSet a }
  else pure ()

/-! ### Dropping requests -/

/-- The cursors of `drop_from_bit_pool`, how many bits were kept, and the copy's bytes. -/
structure DropState where
  src : Cursor
  dst : Cursor
  dstOffset : Nat
  bits : List Byte
  deriving DecidableEq, Repr

/-- One bit of a request: copied when it is kept, else stepped over. -/
def dropBit (orig : List Byte) (kept : Bool) (s : DropState) : Except Stop DropState :=
  if kept then
    match s.src.test orig with
    | none => .error .outOfBounds
    | some set =>
      match if set then s.dst.write s.bits true else some s.bits with
      | none => .error .outOfBounds
      | some bits => .ok ⟨s.src.next, s.dst.next, s.dstOffset + 1, bits⟩
  else .ok { s with src := s.src.next }

/-- The three loops of `drop_from_bit_pool` over the bits of a request differ in which they
keep. -/
def copyKept (orig : List Byte) (kept : Nat → Bool) : List Nat → DropState → Except Stop DropState
  | [], s => .ok s
  | bi :: bis, s =>
    match dropBit orig (kept bi) s with
    | .error e => .error e
    | .ok s => copyKept orig kept bis s

/-- What happens to a request that is dropped: a long one loses a subset of its bits. -/
def dropSubset (reqSize : Nat) : Auto R (Nat → Bool) :=
  if 64 < reqSize then do
    let dropOffset := (← prngBits 32).toNat % reqSize
    let dropSize := (← prngBits 32).toNat % reqSize
    return fun bi => decide (bi < dropOffset) || decide ((dropOffset + dropSize) % 2 ^ 32 < bi)
  else return fun _ => false

/-- Whether request `ri` is dropped. -/
def dropChosen (dropBits dropThreshold toDrop ri : Nat) : Auto R Bool :=
  if ri = toDrop then return true
  else do
    let bits ← prngBits dropBits
    return decide (bits.toNat ≤ dropThreshold)

/-- The loop of `drop_from_bit_pool` over the requests, with the number of those dropped. -/
def dropRequests (dropBits dropThreshold toDrop : Nat) (orig : List Byte) :
    Nat → List Nat → Nat → DropState → Auto R (Nat × DropState)
  | _, [], dropCount, s => return (dropCount, s)
  | ri, reqSize :: rest, dropCount, s => do
    if ← dropChosen dropBits dropThreshold toDrop ri then
      let kept ← dropSubset reqSize
      let s ← attempt (copyKept orig kept (List.range reqSize) s)
      dropRequests dropBits dropThreshold toDrop orig (ri + 1) rest (dropCount + 1) s
    else
      let s ← attempt (copyKept orig (fun _ => true) (List.range reqSize) s)
      dropRequests dropBits dropThreshold toDrop orig (ri + 1) rest dropCount s

/-- `drop_from_bit_pool`: the copy, and how many requests were dropped -/
def dropFromBitPool (orig copy : BitPool) : Auto R (BitPool × Nat) := do
  let env := (← get).env
  let toDrop := (← prngBits 32).toNat
  let toDrop :=
    if toDrop ≠ doNotDrop ∧ 0 < orig.requestCount then toDrop % orig.requestCount else toDrop
  let (dropCount, s) ← dropRequests (getDef env.dropBits defDropBits)
    (getDef env.dropThreshold defDropThreshold) toDrop orig.bits 0 orig.requests 0
    ⟨⟨0, 1⟩, ⟨0, 1⟩, 0, copy.bits⟩
  return ({ copy with bits := s.bits, bitsFilled := s.dstOffset }, dropCount)

/-! ### Mutating requests -/

/-- The draws of `get_weighted_mutation`, up to one below the sum of the weights. -/
def drawMutation (bitCount shift mask swap sub : Nat) : Nat → Auto R Mutation
  | 0 => throw .fuel
  | fuel + 1 => do
    let bits := (← prngBits bitCount).toNat % 2 ^ 16
    if bits < shift then return .shift
    else if bits < mask then return .mask
    else if bits < swap then return .swap
    else if bits < sub then return .sub
    else drawMutation bitCount shift mask swap sub fuel

/-- `get_weighted_mutation` -/
def getWeightedMutation (fuel : Nat) : Auto R Mutation := do
  let model := (← get).env.model
  match model.nextAction with
  | some .drop => throw .assertion
  | some .shift => return .shift
  | some .mask => return .mask
  | some .swap => return .swap
  | some .sub => return .sub
  | none =>
    let shift := (model.weights .shift).toNat
    let mask := shift + (model.weights .mask).toNat
    let swap := mask + (model.weights .swap).toNat
    let sub := swap + (model.weights .sub).toNat
    let bitCount := raiseTo sub 64 7
    if bitCount ≤ 16 then drawMutation bitCount shift mask swap sub fuel
    else throw .assertion

/-- The bits of a request that are changed: an offset and a length. -/
def pickRegion (size : Nat) : Auto R (Nat × Nat) :=
  if 64 < size then do
    let pos := (← prngBits 32).toNat % size
    let toChange := (← prngBits 6).toNat
    return (pos, if size - pos < toChange then size - pos else toChange)
  else return (0, size)

/-- Bits replaced by a function of them; whether that changed any. -/
def rewriteBits (pool : BitPool) (bitOffset size : Nat) (f : Word → Word) :
    Auto R (Bool × BitPool) := do
  let bits ← attempt (readBitsAtOffset pool bitOffset size)
  let nbits := f bits
  let pool ← attempt (writeBitsAtOffset pool bitOffset size nbits)
  return (bits != nbits, pool)

/-- `case MUT_SHIFT` -/
def mutateShift (pool : BitPool) (bitOffset size : Nat) : Auto R (Bool × BitPool) := do
  setTried .shift
  let shift := (← prngBits 2).toNat + 1
  let (pos, toChange) ← pickRegion size
  let (changed, pool) ← rewriteBits pool (bitOffset + pos) toChange fun bits => bits >>> shift
  setSet .shift changed
  return (changed, pool)

/-- The mask of `MUT_MASK`, which keeps each bit with probability 3/4. -/
def pickMask (maskSize : Nat) : Auto R Word := do
  let mask := (← prngBits maskSize) ||| (← prngBits maskSize)
  if mask = BitVec.allOnes 64 then do
    let oneBit := (← prngBits 8).toNat % maskSize
    return mask &&& -(1#64 <<< oneBit)
  else return mask

/-- `case MUT_MASK` -/
def mutateMask (pool : BitPool) (bitOffset size : Nat) : Auto R (Bool × BitPool) := do
  setTried .mask
  let mask ← pickMask (if size ≤ 64 then size else 64)
  let (pos, toChange) ← pickRegion size
  let (changed, pool) ← rewriteBits pool (bitOffset + pos) toChange fun bits => bits &&& mask
  setSet .mask changed
  return (changed, pool)

/-- The loop that halves the length of the blocks until two of them fit. -/
def halveToFit (size : Nat) : Nat → Nat → Nat
  | 0, toSwap => toSwap
  | fuel + 1, toSwap => if size ≤ 2 * toSwap then halveToFit size fuel (toSwap / 2) else toSwap

/-- `case MUT_SWAP`, within one long request -/
def swapBlocks (pool : BitPool) (bitOffset size : Nat) : Auto R (Bool × BitPool) := do
  let toSwap := halveToFit size 8 (← prngBits 6).toNat
  if toSwap = 0 then return (false, pool)
  else if 0 < size - 2 * toSwap then
    let posA := (← prngBits 32).toNat % (size - toSwap)
    let posB := (← prngBits 32).toNat % (size - 2 * toSwap)
    if (posA < posB ∧ posB < posA + toSwap) ∨ (posB < posA ∧ posA < posB + toSwap) then
      return (false, pool)
    else
      let a ← attempt (readBitsAtOffset pool (bitOffset + posA) toSwap)
      let b ← attempt (readBitsAtOffset pool (bitOffset + posB) toSwap)
      if b < a then
        let pool ← attempt (writeBitsAtOffset pool (bitOffset + posA) toSwap b)
        let pool ← attempt (writeBitsAtOffset pool (bitOffset + posB) toSwap a)
        setSet .swap true
        return (true, pool)
      else return (false, pool)
  else throw .assertion

/-- `case MUT_SWAP`: the first later request of the same size with a smaller value. The
requests still to look at are at the positions `is`. -/
def swapRequests (orig pool : BitPool) (bitOffset size : Nat) (bits : Word) :
    List Nat → Auto R (Bool × BitPool)
  | [] => return (false, pool)
  | i :: is => do
    let otherSize ← attempt (requestAt orig i)
    if otherSize = size then
      let otherOffset ← attempt (offsetOfPos orig i)
      let other ← attempt (readBitsAtOffset pool otherOffset size)
      if other < bits then
        let pool ← attempt (writeBitsAtOffset pool bitOffset size other)
        let pool ← attempt (writeBitsAtOffset pool otherOffset size bits)
        setSet .swap true
        return (true, pool)
      else swapRequests orig pool bitOffset size bits is
    else swapRequests orig pool bitOffset size bits is

/-- `case MUT_SWAP` -/
def mutateSwap (orig pool : BitPool) (pos bitOffset size : Nat) : Auto R (Bool × BitPool) := do
  setTried .swap
  if 0 < size then
    if 64 < size then swapBlocks pool bitOffset size
    else
      let bits ← attempt (readBitsAtOffset pool bitOffset size)
      swapRequests orig pool bitOffset size bits
        ((List.range orig.requestCount).drop (pos + 1))
  else throw .assertion

/-- `case MUT_SUB` -/
def mutateSub (pool : BitPool) (bitOffset size : Nat) : Auto R (Bool × BitPool) := do
  setTried .sub
  let sub ← prngBits (if size ≤ 64 then size else 64)
  let (pos, toChange) ← pickRegion size
  let bits ← attempt (readBitsAtOffset pool (bitOffset + pos) toChange)
  if 0 < bits then
    let nbits := bits - sub % bits
    let nbits := if nbits = bits then nbits - 1 else nbits
    setSet .sub true
    let pool ← attempt (writeBitsAtOffset pool (bitOffset + pos) toChange nbits)
    return (true, pool)
  else return (false, pool)

/-- `choose_and_mutate_request`: whether the copy was changed, and the copy -/
def chooseAndMutateRequest (fuel : Nat) (orig pool : BitPool) : Auto R (Bool × BitPool) := do
  let mtype ← getWeightedMutation fuel
  let requestBits := log2ceil orig.requestCount
  if orig.requestCount = 0 then return (false, pool)
  else
    let pos := (← prngBits requestBits).toNat % orig.requestCount
    let bitOffset ← attempt (offsetOfPos orig pos)
    let size ← attempt (requestAt orig pos)
    match mtype with
    | .shift => mutateShift pool bitOffset size
    | .mask => mutateMask pool bitOffset size
    | .swap => mutateSwap orig pool pos bitOffset size
    | .sub => mutateSub pool bitOffset size

/-- The loop of `mutate_bit_pool`: some tries, until `changeCount` of them changed the copy. -/
def mutateTimes (fuel : Nat) (orig : BitPool) (changeCount : Nat) :
    Nat → Nat → BitPool → Auto R BitPool
  | 0, _, pool => return pool
  | tries + 1, changed, pool => do
    let (change, pool) ← chooseAndMutateRequest fuel orig pool
    if change then
      if changed + 1 = changeCount then return pool
      else mutateTimes fuel orig changeCount tries (changed + 1) pool
    else mutateTimes fuel orig changeCount tries changed pool

/-- How many changes are made, from the number of random 1 bits. -/
def clampChanges (orig : BitPool) (changeCount : Nat) : Nat :=
  if orig.requestCount < changeCount ∧ orig.requests.all (· ≤ 64) then orig.requestCount
  else changeCount

/-- `memcpy(pool->bits, orig->bits, orig_bytes)` -/
def copyBytes (dst src : List Byte) (bytes : Nat) : Except Stop (List Byte) :=
  if bytes ≤ dst.length ∧ bytes ≤ src.length then .ok (src.take bytes ++ dst.drop bytes)
  else .error .outOfBounds

/-- `mutate_bit_pool` -/
def mutateBitPool (fuel : Nat) (orig pool : BitPool) : Auto R BitPool := do
  let bits ← attempt (copyBytes pool.bits orig.bits (byteCount orig.bitsFilled))
  let pool := { pool with bits := bits, bitsFilled := orig.bitsFilled }
  require (← get).prng.bitPool.isNone .assertion
  let maxChanges := raiseTo orig.requestCount 64 5
  let changeCount := clampChanges orig (popcount (← prngBits maxChanges) + 1)
  let pool ← mutateTimes fuel orig changeCount (10 * changeCount) 0 pool
  let nsize := orig.consumed + sizeSub orig.bitsFilled orig.consumed / 2
  return { pool with limit := if nsize < pool.limit then nsize else pool.limit }

/-! ### The step -/

/-- How many bytes are left when the last ones that are 0 are cut, of the first `n`. -/
def trimmedBytes (bits : List Byte) : Nat → Except Stop Nat
  | 0 => .ok 0
  | i + 1 =>
    match bits[i]? with
    | none => .error .outOfBounds
    | some b => if b ≠ 0 then .ok (i + 1) else trimmedBytes bits i

/-- `truncate_trailing_zero_bytes` -/
def truncateTrailingZeroBytes (pool : BitPool) : Except Stop BitPool :=
  (trimmedBytes pool.bits (byteCount pool.bitsFilled)).map fun nsize =>
    { pool with
      bitsFilled := 8 * nsize
      limit := if 8 * nsize < pool.limit then 8 * nsize else pool.limit }

/-- `should_drop` -/
def shouldDrop (requestCount : Nat) : Auto R Bool := do
  let model := (← get).env.model
  let weight := (model.weights .drop).toNat
  let limit := 8 * requestCount % 2 ^ 64
  let weight := if limit < weight then limit else weight
  match model.nextAction with
  | none => do
    let bits ← prngBits 8
    return decide (bits.toNat < weight)
  | some action => return decide (action = .drop)

/-- `bit_pool->shrinking = shrinking` -/
def BitPool.setShrinking (pool : BitPool) (shrinking : Bool) : BitPool :=
  { pool with shrinking := shrinking }

/-- `alloc_from_bit_pool`: the callback reads from the pool, which comes back with what was
read recorded -/
def allocFromBitPool {β : Type} (alloc : Gen β) (bitPool : BitPool) (shrinking : Bool) :
    Auto R (β × BitPool) := do
  let bitPool := bitPool.setShrinking shrinking
  modify fun s => { s with prng := s.prng.injectBitPool bitPool }
  let res ← zoom AutoState.prng (fun p s => { s with prng := p }) alloc.run
  let used := (← get).prng.bitPool.getD bitPool
  modify fun s => { s with prng := s.prng.stopUsingBitPool }
  return (res, used)

/-- `theft_autoshrink_alloc`. What the callback returned is lost only when there was no memory
for the pool. -/
def autoshrinkAlloc {β : Type} (alloc : Gen (AllocRes × β)) : Auto R (AllocRes × Option β) := do
  let s ← get
  match allocBitPool s.ledger.nextId (getDef s.env.poolSize defPoolSize)
      (getDef s.env.poolLimit defPoolLimit) defRequestsCeil with
  | none => return (.error, none)
  | some pool =>
    set { s with ledger := s.ledger.acquirePool, env := { s.env with bitPool := some pool } }
    let ((ares, res), pool) ← allocFromBitPool alloc pool false
    modify fun s => { s with env := { s.env with bitPool := some pool } }
    return (ares, some res)

/-- `cur_tried` and `cur_set` are cleared, and a model that has no weights yet gets them. -/
def startModel : Auto R Unit :=
  modifyModel fun m =>
    let m := { m with curTried := fun _ => false, curSet := fun _ => false }
    if m.weights .drop = 0 then initModel m else m

/-- The copy with some requests dropped or some bits changed. -/
def changeCopy (fuel : Nat) (orig copy : BitPool) : Auto R BitPool := do
  if ← shouldDrop orig.requestCount then
    setSet .drop true
    let (copy, _) ← dropFromBitPool orig copy
    return copy
  else mutateBitPool fuel orig copy

/-- The end of the copy is cut, unless the environment says otherwise. -/
def endCopy (copy : BitPool) : Auto R BitPool := do
  if (← get).env.leaveTrailingZeroes then return copy
  else attempt (truncateTrailingZeroBytes copy)

/-- A copy that no instance came from is freed. -/
def freeCopy (copy : BitPool) : Auto R Unit := do
  let s ← get
  let ledger ← attempt (freeBitPool s.prng copy s.ledger)
  set { s with ledger := ledger }

/-- The part of `theft_autoshrink_shrink` from the empty copy on. -/
def shrinkCopy {β : Type} (fuel : Nat) (alloc : Gen (AllocRes × β)) (orig copy : BitPool) :
    Auto R (ShrinkRes × Option β × Option BitPool) := do
  require (orig.requests.sum = orig.consumed) .assertion
  startModel
  let copy ← changeCopy fuel orig
    { copy with generation := orig.generation + 1, limit := orig.limit }
  let copy ← endCopy copy
  let ((ares, res), copy) ← allocFromBitPool alloc copy true
  match ares with
  | .ok => return (.ok, some res, some copy)
  | .skip =>
    freeCopy copy
    return (.deadEnd, some res, none)
  | .error =>
    freeCopy copy
    return (.error, some res, none)

/-- `theft_autoshrink_shrink`: the result, what the callback returned if it was run, and the
pool it read when it returned an instance -/
def autoshrinkShrink {β : Type} (fuel : Nat) (alloc : Gen (AllocRes × β)) (tactic : Nat) :
    Auto R (ShrinkRes × Option β × Option BitPool) := do
  let s ← get
  match s.env.bitPool with
  | none => throw .assertion
  | some orig =>
    if getDef s.env.maxFailedShrinks defMaxFailedShrinks ≤ tactic then
      return (.noMoreTactics, none, none)
    else
      match buildIndex orig with
      | none => return (.error, none, none)
      | some orig =>
        modify fun s => { s with env := { s.env with bitPool := some orig } }
        match allocBitPool s.ledger.nextId orig.bitsFilled orig.limit orig.requestCeil with
        | none => return (.error, none, none)
        | some copy =>
          modify fun s => { s with ledger := s.ledger.acquirePool }
          shrinkCopy fuel alloc orig copy

end

/-! ## Hashing a pool -/

/-- The bytes that `theft_autoshrink_hash` sinks: the consumed bits, the last byte masked. -/
def sunkBytes (pool : BitPool) : Except Stop (List Byte) :=
  if pool.consumed / 8 ≤ pool.bits.length then
    if 0 < pool.consumed % 8 then
      match pool.bits[pool.consumed / 8]? with
      | none => .error .outOfBounds
      | some lastByte =>
        .ok (pool.bits.take (pool.consumed / 8) ++
          [lastByte &&& ((1#8 <<< (pool.consumed % 8)) - 1)])
    else .ok (pool.bits.take (pool.consumed / 8))
  else .error .outOfBounds

/-- `theft_autoshrink_hash`, for a type without a hash callback -/
def autoshrinkHash (env : AutoshrinkEnv) : Except Stop Word :=
  match env.bitPool with
  | none => .error .assertion
  | some pool => (sunkBytes pool).map hashOnepass

end Theft
