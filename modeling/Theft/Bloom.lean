import Theft.Rng

/-!
# Hashing and the dynamic bloom filter

`theft_hash.c` and `theft_bloom.c`. The low `topBlock2` bits of a hash choose a block, a
chain of filters with the newest and largest in front; the next bits, cut into
`HASH_COUNT` chunks as wide as a filter's `size2`, are the indexes into that filter.
-/

namespace Theft

open PackedBits

/-! ## FNV-1a -/

def fnv64Prime : Word := 1099511628211

def fnv64OffsetBasis : Word := 14695981039346656037

/-- `theft_hash_sink`, on the accumulator -/
def hashSink (accum : Word) (data : List Byte) : Word :=
  data.foldl (fun a byte => (a ^^^ byte.setWidth 64) * fnv64Prime) accum

/-- `theft_hash_onepass` -/
def hashOnepass (data : List Byte) : Word := hashSink fnv64OffsetBasis data

/-! ## The filter -/

/-- `struct bloom_filter`; `next` is the rest of the chain it is in. -/
structure BloomFilter where
  size2 : Nat
  bits : List Byte
  deriving DecidableEq, Repr

/-- `struct theft_bloom`. A block that is `NULL` is the empty chain. -/
structure Bloom where
  topBlock2 : Nat
  minFilter2 : Nat
  blocks : Nat → List BloomFilter

/-- `struct theft_bloom_config`; 0 stands for the default. -/
structure BloomConfig where
  topBlockBits : Nat
  minFilterBits : Nat
  deriving DecidableEq, Repr

/-- `DEF_TOP_BLOCK_BITS` -/
def defTopBlockBits : Nat := 9

/-- `DEF_MIN_FILTER_BITS` -/
def defMinFilterBits : Nat := 9

/-- `HASH_COUNT` -/
def hashCount : Nat := 4

/-- `theft_bloom_init`; no configuration is the default one. -/
def bloomInit (config : Option BloomConfig) : Bloom :=
  let config := config.getD ⟨0, 0⟩
  { topBlock2 := if config.topBlockBits = 0 then defTopBlockBits else config.topBlockBits
    minFilter2 := if config.minFilterBits = 0 then defMinFilterBits else config.minFilterBits
    blocks := fun _ => [] }

/-- `sizeof(struct bloom_filter) - offsetof(struct bloom_filter, bits)`: the bits of a filter start
in the padding at the end of its structure. -/
def filterPadding : Nat := 7

/-- An empty filter: as many bytes as its allocation has from `bits` on. That is the padding, and
`2^bits` bits in whole bytes rounded down. -/
def emptyFilter (bits : Nat) : BloomFilter :=
  ⟨bits, List.replicate (filterPadding + 2 ^ bits / 8) 0⟩

/-- `alloc_filter`; `malloc` says which sizes can be allocated. -/
def allocFilter (malloc : Nat → Bool) (bits : Nat) : Option BloomFilter :=
  if malloc bits then some (emptyFilter bits) else none

namespace Bloom

/-- The block a hash belongs to. -/
def blockId (b : Bloom) (hash : Word) : Nat :=
  (hash &&& ((1#64 <<< b.topBlock2) - 1)).toNat

def setBlock (b : Bloom) (id : Nat) (chain : List BloomFilter) : Bloom :=
  { b with blocks := fun i => if i = id then chain else b.blocks i }

end Bloom

/-- Chunk `i` of a hash (without its block bits) for a filter of `2^size2` bits. -/
def chunk (size2 : Nat) (hash : Word) (i : Nat) : Nat :=
  ((hash >>> (i * size2)) &&& ((1#64 <<< size2) - 1)).toNat

/-- The marking loop: sets the bit of each chunk, and reports whether any was clear. -/
def markChunks (size2 : Nat) (hash : Word) :
    List Nat → List Byte → Bool → Except Stop (List Byte × Bool)
  | [], bits, anySet => .ok (bits, anySet)
  | i :: is, bits, anySet =>
    let at_ := Cursor.ofOffset (chunk size2 hash i)
    match at_.test bits, at_.write bits true with
    | some set, some bits => markChunks size2 hash is bits (anySet || !set)
    | _, _ => .error .outOfBounds

/-- The checking loop of one filter, which breaks off at the first clear bit. -/
def checkChunks (size2 : Nat) (hash : Word) (bits : List Byte) : List Nat → Except Stop Bool
  | [] => .ok true
  | i :: is =>
    match (Cursor.ofOffset (chunk size2 hash i)).test bits with
    | some true => checkChunks size2 hash bits is
    | some false => .ok false
    | none => .error .outOfBounds

/-- The filter a mark goes to and those behind it; an empty block is given its first one. -/
def Bloom.frontFilter (malloc : Nat → Bool) (b : Bloom) (id : Nat) :
    Option (BloomFilter × List BloomFilter) :=
  match b.blocks id with
  | [] => (allocFilter malloc b.minFilter2).map fun bf => (bf, [])
  | bf :: next => some (bf, next)

/-- `theft_bloom_mark`, from the hash of the data on. The result is whether all allocations
succeeded. -/
def bloomMarkHash (malloc : Nat → Bool) (b : Bloom) (hash : Word) :
    Except Stop (Bool × Bloom) :=
  let id := b.blockId hash
  match b.frontFilter malloc id with
  | none => .ok (false, b)
  | some (bf, next) =>
    if 0 < (64 : Int) - b.topBlock2 - hashCount * bf.size2 then
      match markChunks bf.size2 (hash >>> b.topBlock2) (List.range hashCount) bf.bits false with
      | .error e => .error e
      | .ok (bits, anySet) =>
        let bf := { bf with bits := bits }
        if anySet then .ok (true, b.setBlock id (bf :: next))
        else if 64 < b.topBlock2 + hashCount * (bf.size2 + 1) then
          .ok (true, b.setBlock id (bf :: next))
        else
          match allocFilter malloc (bf.size2 + 1) with
          | none => .ok (false, b.setBlock id (bf :: next))
          | some nbf => .ok (true, b.setBlock id (nbf :: bf :: next))
    else .error .assertion

/-- The walk of `theft_bloom_check` along a chain. -/
def checkChain (hash : Word) : List BloomFilter → Except Stop Bool
  | [] => .ok false
  | bf :: next =>
    match checkChunks bf.size2 hash bf.bits (List.range hashCount) with
    | .ok true => .ok true
    | .ok false => checkChain hash next
    | .error e => .error e

/-- `theft_bloom_check`, from the hash of the data on -/
def bloomCheckHash (b : Bloom) (hash : Word) : Except Stop Bool :=
  checkChain (hash >>> b.topBlock2) (b.blocks (b.blockId hash))

/-- `theft_bloom_mark` -/
def bloomMark (malloc : Nat → Bool) (b : Bloom) (data : List Byte) : Except Stop (Bool × Bloom) :=
  bloomMarkHash malloc b (hashOnepass data)

/-- `theft_bloom_check` -/
def bloomCheck (b : Bloom) (data : List Byte) : Except Stop Bool :=
  bloomCheckHash b (hashOnepass data)

end Theft
