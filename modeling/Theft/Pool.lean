import Theft.Rng

/-!
# Bit pools

The random bits behind one autoshrunk instance (`struct autoshrink_bit_pool`) and the
functions of `theft_autoshrink.c` that allocate, fill and read one. Counters are natural
numbers: `maxBits` keeps every size and offset below `2^64`, see `BitPool.Inv`.
-/

namespace Theft

open PackedBits

/-- Words that hold `bitCount` bits. -/
def wordCount (bitCount : Nat) : Nat := bitCount / 64 + if bitCount % 64 = 0 then 0 else 1

/-- `get_mask`, of `theft_random.c` and of `theft_autoshrink.c` -/
def getMask (bits : Nat) : Word := if bits = 64 then ~~~0#64 else (1#64 <<< bits) - 1

/-- `memset(buf, 0x00, n)` on words: `n` counts bytes. -/
def memsetZero (buf : List Word) (n : Nat) : Except Stop (List Word) :=
  if n ≤ 8 * buf.length then
    .ok (pack 64 buf.length fun i => bitAt buf i && decide (8 * n ≤ i))
  else .error .outOfBounds

/-- `struct autoshrink_bit_pool`. `bits` are the allocated bytes, `requests` the
`request_count` sizes recorded so far, and `id` stands for the pool's address. -/
structure BitPool where
  id : Nat
  bits : List Byte
  shrinking : Bool
  bitsFilled : Nat
  bitsCeil : Nat
  limit : Nat
  consumed : Nat
  requests : List Nat
  requestCeil : Nat
  generation : Nat
  index : Option (List Nat)
  deriving DecidableEq, Repr

abbrev BitPool.requestCount (pool : BitPool) : Nat := pool.requests.length

/-- No object is larger than `2^63` bits: the address space ends long before. -/
def maxBits : Nat := 2 ^ 63

/-- `DEF_POOL_SIZE` -/
def defPoolSize : Nat := 64 * (8 * 8)

/-- `DEF_REQUESTS_CEIL` -/
def defRequestsCeil : Nat := 1 <<< 4

/-- `DEF_POOL_LIMIT`, which is `ULLONG_MAX` -/
def defPoolLimit : Nat := 2 ^ 64 - 1

/-- `get_aligned_size`, in `size_t` -/
def getAlignedSize (size alignment : Nat) : Nat :=
  if size % alignment ≠ 0 then (size + (alignment - size % alignment)) % 2 ^ 64 else size

/-- `alloc_bit_pool` -/
def allocBitPool (id size limit requestCeil : Nat) : Option BitPool :=
  let allocSize := getAlignedSize size 64
  if allocSize ≤ maxBits then
    some
      { id
        bits := List.replicate (allocSize / 64 * 8) 0
        shrinking := false
        bitsFilled := 0
        bitsCeil := allocSize
        limit
        consumed := 0
        requests := []
        requestCeil
        generation := 0
        index := none }
  else none

section Fill
variable {R : Type} [Platform R]

variable (R) in
/-- `realloc` of a pool's bytes. Size 0 frees them and gives `NULL`. -/
def reallocBits (bits : List Byte) (bytes : Nat) : Option (List Byte) :=
  if 0 < bytes ∧ 8 * bytes ≤ maxBits then
    some ((bits ++ (List.range (bytes - bits.length)).map (Platform.uninit R)).take bytes)
  else none

variable (R) in
/-- The loop of `lazily_fill_bit_pool` that doubles `bits_ceil` until `need` bits fit. -/
def growBits : Nat → BitPool → Nat → Except Stop BitPool
  | 0, _, _ => .error .fuel
  | fuel + 1, pool, need =>
    if pool.bitsCeil < need then
      let nceil := 2 * pool.bitsCeil
      match reallocBits R pool.bits (nceil / 8) with
      | none => .error .allocation
      | some nbits => growBits fuel { pool with bits := nbits, bitsCeil := nceil } need
    else .ok pool

/-- The loop of `lazily_fill_bit_pool` that draws words until `need` bits are filled. -/
def fillWords : Nat → R → BitPool → Nat → Except Stop (R × BitPool)
  | 0, _, _, _ => .error .fuel
  | fuel + 1, rng, pool, need =>
    if pool.bitsFilled < need then
      let offset := pool.bitsFilled / 64
      if offset * 64 < pool.bitsCeil then
        match setWord pool.bits offset (Platform.rngRandom rng).1 with
        | none => .error .outOfBounds
        | some bits =>
          fillWords fuel (Platform.rngRandom rng).2
            { pool with bits := bits, bitsFilled := pool.bitsFilled + 64 } need
      else .error .assertion
    else .ok (rng, pool)

/-- `lazily_fill_bit_pool` -/
def lazilyFillBitPool (rng : R) (pool : BitPool) (bitCount : Nat) : Except Stop (R × BitPool) :=
  match growBits R 64 pool (pool.consumed + bitCount) with
  | .error e => .error e
  | .ok pool => fillWords (bitCount + 1) rng pool (pool.consumed + bitCount)

end Fill

/-- The loop of `fill_buf`: copies as many bits at once as the offsets in both words allow. -/
def copyBits (src : List Byte) (bitCount : Nat) :
    Nat → (i srcOffset srcBit dstOffset : Nat) → List Word → Except Stop (List Word)
  | 0, _, _, _, _, _ => .error .fuel
  | fuel + 1, i, srcOffset, srcBit, dstOffset, dst =>
    if i < bitCount then
      let dstBit := i % 64
      let srcRem := 64 - srcBit
      let dstReq := if bitCount - i < 64 - dstBit then bitCount - i else 64 - dstBit
      let toCopy := if dstReq < srcRem then dstReq else srcRem
      match getWord src srcOffset, dst[dstOffset]? with
      | some s, some d =>
        let dst := dst.set dstOffset (d ||| (((s >>> srcBit) &&& getMask toCopy) <<< dstBit))
        let srcWrap := srcBit + toCopy = 64
        let srcOffset := if srcWrap then srcOffset + 1 else srcOffset
        let srcBit := if srcWrap then 0 else srcBit + toCopy
        if dstBit + toCopy = 64 then
          if i + toCopy < bitCount then
            if dstOffset + 1 < dst.length then
              copyBits src bitCount fuel (i + toCopy) srcOffset srcBit (dstOffset + 1)
                (dst.set (dstOffset + 1) 0)
            else .error .outOfBounds
          else copyBits src bitCount fuel (i + toCopy) srcOffset srcBit (dstOffset + 1) dst
        else copyBits src bitCount fuel (i + toCopy) srcOffset srcBit dstOffset dst
      | _, _ => .error .outOfBounds
    else .ok dst

/-- `fill_buf` -/
def fillBuf (pool : BitPool) (bitCount : Nat) (dst : List Word) :
    Except Stop (BitPool × List Word) :=
  if 0 < dst.length then
    match copyBits pool.bits bitCount (bitCount + 1) 0 (pool.consumed / 64) (pool.consumed % 64) 0
        (dst.set 0 0) with
    | .error e => .error e
    | .ok dst => .ok ({ pool with consumed := pool.consumed + bitCount }, dst)
  else .error .outOfBounds

/-- `append_request`. A full request buffer is doubled first. -/
def appendRequest (pool : BitPool) (bitCount : Nat) : Except Stop BitPool :=
  let pool :=
    if pool.requestCount = pool.requestCeil then
      { pool with requestCeil := pool.requestCeil * 2 }
    else pool
  if pool.requestCount < pool.requestCeil then
    .ok { pool with requests := pool.requests ++ [bitCount] }
  else .error .outOfBounds

/-- The end of `theft_autoshrink_bit_pool_random`: what the filled part of the pool has
is read, cut short at the limit. -/
def readBitPool (pool : BitPool) (bitCount : Nat) (saveRequest : Bool) (buf : List Word) :
    Except Stop (BitPool × List Word) :=
  if pool.consumed = pool.limit then
    (memsetZero buf (wordCount bitCount)).map fun buf => (pool, buf)
  else
    let bitCount :=
      if pool.limit ≤ pool.consumed + bitCount then pool.limit - pool.consumed else bitCount
    match if saveRequest then appendRequest pool bitCount else .ok pool with
    | .error e => .error e
    | .ok pool => fillBuf pool bitCount buf

/-- `theft_autoshrink_bit_pool_random` -/
def bitPoolRandom {R : Type} [Platform R] (rng : R) (pool : BitPool) (bitCount : Nat)
    (saveRequest : Bool) (buf : List Word) : Except Stop (R × BitPool × List Word) :=
  if bitCount = 0 then .ok (rng, pool, buf)
  else
    match if pool.shrinking then .ok (rng, pool) else lazilyFillBitPool rng pool bitCount with
    | .error e => .error e
    | .ok (rng, pool) =>
      (readBitPool pool bitCount saveRequest buf).map fun (pool, buf) => (rng, pool, buf)

end Theft
