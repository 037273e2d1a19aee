import Theft.BloomExact

/-!
# The limits of growth

A chain grows as long as the chunks of the new filter fit into the 64 bits of a hash, but a mark
asserts that a bit is left over. The two agree when the number of block bits is no multiple of
`HASH_COUNT`. A filter of 2 or 4 bits has no byte of its own, but its structure ends with padding
that does for one.

* `BloomSafe`: a sequence of calls fails no assertion and stays within the filters, and what it
  leaves is well formed;
* `bloom_safe_iff`: which configurations keep to that whatever is marked and checked.
-/

namespace Theft

open PackedBits

/-! ## Calls -/

/-- A call of `theft_bloom_mark` or `theft_bloom_check`. -/
inductive BloomCall
  | mark (data : List Byte)
  | check (data : List Byte)
  deriving DecidableEq, Repr

/-- One call after another, with memory for every filter. -/
def bloomCalls (b : Bloom) : List BloomCall → Except Stop Bloom
  | [] => .ok b
  | .mark data :: rest =>
    match bloomMark granted b data with
    | .ok (_, b) => bloomCalls b rest
    | .error e => .error e
  | .check data :: rest =>
    match bloomCheck b data with
    | .ok _ => bloomCalls b rest
    | .error e => .error e

/-- The amounts of the shifts for one filter: the mask of its chunks, the hash for each chunk, and
the bit in a byte. -/
def BloomFilter.shifts (f : BloomFilter) (hash : Word) : List Nat :=
  f.size2 :: (List.range hashCount).flatMap fun i => [i * f.size2, chunk f.size2 hash i % 8]

/-- The amounts of the shifts in a call: for the block, for each filter looked at, and for the
allocation of a filter that goes before the front one. -/
def Bloom.shifts (b : Bloom) : BloomCall → List Nat
  | .mark data =>
    let hash := hashOnepass data
    let f := (b.front (b.blockId hash)).1
    b.topBlock2 :: (f.size2 + 1) :: f.shifts (hash >>> b.topBlock2)
  | .check data =>
    let hash := hashOnepass data
    b.topBlock2 :: (b.blocks (b.blockId hash)).flatMap fun f => f.shifts (hash >>> b.topBlock2)

/-- From the front, `size2` falls by one per filter down to the smallest. -/
def Descends (min : Nat) : List BloomFilter → Prop
  | [] => True
  | [f] => f.size2 = min
  | f :: g :: next => f.size2 = g.size2 + 1 ∧ Descends min (g :: next)

/-- A sequence of calls on a new filter fails no assertion and accesses no byte outside of a
filter. Then all chains are well formed, and no call shifts by 64 or more. -/
def BloomSafe (config : BloomConfig) (calls : List BloomCall) : Prop :=
  ∃ b, bloomCalls (bloomInit (some config)) calls = .ok b ∧
    (∀ id, Descends config.minFilterBits (b.blocks id)) ∧
    ∀ call, ∀ k ∈ b.shifts call, k < 64

/-! ## Configurations that keep to the limits -/

theorem ChainOk.descends {top min : Nat} {chain : List BloomFilter} (h : ChainOk top min chain) :
    Descends min chain := by
  induction chain with
  | nil => trivial
  | cons f next ih =>
    have hsize := h.1.2.1
    cases next with
    | nil => exact hsize
    | cons g rest =>
      have hnext := h.2.1.2.1
      refine ⟨?_, ih h.2⟩
      rw [List.length_cons] at hsize
      omega

theorem ChainOk.fits {top min : Nat} {chain : List BloomFilter} (h : ChainOk top min chain)
    {f : BloomFilter} (hf : f ∈ chain) : top + hashCount * f.size2 < 64 := by
  induction chain with
  | nil => cases hf
  | cons g next ih =>
    cases hf with
    | head => exact h.1.2.2
    | tail _ hf => exact ih h.2 hf

theorem BloomFilter.shifts_lt {f : BloomFilter} {top : Nat} (h : top + hashCount * f.size2 < 64)
    (hash : Word) : ∀ k ∈ f.shifts hash, k < 64 := by
  intro k hk
  simp only [BloomFilter.shifts, List.mem_cons, List.mem_flatMap, List.mem_range,
    List.not_mem_nil, or_false] at hk
  simp only [hashCount] at h hk
  obtain rfl | ⟨i, hi, rfl | rfl⟩ := hk
  · omega
  · have hle := Nat.mul_le_mul_right f.size2 (Nat.le_of_lt hi)
    omega
  · omega

theorem Bloom.Inv.shifts_lt {b : Bloom} (inv : b.Inv) (call : BloomCall) :
    ∀ k ∈ b.shifts call, k < 64 := by
  have hmin := inv.min_fits
  have htop : b.topBlock2 < 64 := by omega
  intro k hk
  cases call with
  | mark data =>
    obtain ⟨⟨-, -, hfits⟩, -⟩ := b.front_ok inv (b.blockId (hashOnepass data))
    simp only [Bloom.shifts, List.mem_cons] at hk
    obtain rfl | rfl | hk := hk
    · exact htop
    · simp only [hashCount] at hfits
      omega
    · exact BloomFilter.shifts_lt hfits _ k hk
  | check data =>
    simp only [Bloom.shifts, List.mem_cons, List.mem_flatMap] at hk
    obtain rfl | ⟨f, hf, hk⟩ := hk
    · exact htop
    · exact BloomFilter.shifts_lt ((inv.chains _).fits hf) _ k hk

theorem bloomCalls_inv {b : Bloom} (inv : b.Inv) (calls : List BloomCall) :
    ∃ b', bloomCalls b calls = .ok b' ∧ b'.Inv ∧ b'.minFilter2 = b.minFilter2 := by
  induction calls generalizing b with
  | nil => exact ⟨b, rfl, inv, rfl⟩
  | cons call rest ih =>
    cases call with
    | mark data =>
      obtain ⟨f', -, hrun⟩ := mark_spec inv (hashOnepass data)
      obtain ⟨inv', -, hmin⟩ := mark_inv inv hrun
      obtain ⟨b', hrest, hb', hmin'⟩ := ih inv'
      refine ⟨b', ?_, hb', hmin'.trans hmin⟩
      rw [bloomCalls, bloomMark, hrun]
      exact hrest
    | check data =>
      obtain ⟨b', hrest, hb', hmin⟩ := ih inv
      refine ⟨b', ?_, hb', hmin⟩
      rw [bloomCalls, bloomCheck, check_spec inv]
      exact hrest

theorem bloomCalls_append (calls more : List BloomCall) : ∀ b, bloomCalls b (calls ++ more) =
    match bloomCalls b calls with
    | .ok b => bloomCalls b more
    | .error e => .error e := by
  induction calls with
  | nil => exact fun _ => rfl
  | cons call rest ih =>
    intro b
    cases call with
    | mark data =>
      rw [List.cons_append, bloomCalls, bloomCalls]
      cases bloomMark granted b data with
      | ok res => exact ih res.2
      | error e => rfl
    | check data =>
      rw [List.cons_append, bloomCalls, bloomCalls]
      cases bloomCheck b data with
      | ok found => exact ih b
      | error e => rfl

/-! ## Growth up to the last bit -/

/-- A filter that a hash was marked in has all its indexes. -/
theorem Marks.hits {hash : Word} {f f' : BloomFilter} (h : Marks hash f f') :
    f'.hits hash = true := by
  rw [BloomFilter.hits, List.all_eq_true]
  intro i hi
  rw [h.size2, h.bits]
  exact .inr ⟨i, List.mem_range.mp hi, rfl⟩

theorem emptyFilter_hits (bits : Nat) (hash : Word) : (emptyFilter bits).hits hash = false := by
  simp [BloomFilter.hits, hashCount, List.range_succ]

/-- The front filter of the block that some data belong to is an empty one. -/
structure Renewed (top : Nat) (data : List Byte) (size2 : Nat) (b : Bloom) : Prop where
  top : b.topBlock2 = top
  front : (b.front (b.blockId (hashOnepass data))).1 = emptyFilter size2

@[simp] theorem Bloom.front_setBlock (b : Bloom) (id : Nat) (f : BloomFilter)
    (next : List BloomFilter) : (b.setBlock id (f :: next)).front id = (f, next) := by
  simp [Bloom.front, Bloom.setBlock]

@[simp] theorem Bloom.blockId_setBlock (b : Bloom) (id : Nat) (chain : List BloomFilter)
    (hash : Word) : (b.setBlock id chain).blockId hash = b.blockId hash := rfl

@[simp] theorem Bloom.topBlock2_setBlock (b : Bloom) (id : Nat) (chain : List BloomFilter) :
    (b.setBlock id chain).topBlock2 = b.topBlock2 := rfl

/-- Two marks of the same data fill an empty filter and put another before it. -/
theorem Renewed.twice {top size2 : Nat} {data : List Byte} {b : Bloom}
    (h : Renewed top data size2 b)
    (hroom : top + hashCount * (size2 + 1) ≤ 64) :
    ∃ b', bloomCalls b [.mark data, .mark data] = .ok b' ∧ Renewed top data (size2 + 1) b' := by
  obtain ⟨rfl, hfront⟩ := h
  simp only [hashCount] at hroom
  have hempty : (emptyFilter size2).Ok := emptyFilter_ok (by omega)
  have hfits : b.topBlock2 + hashCount * size2 < 64 := by
    simp only [hashCount]
    omega
  generalize hhash : hashOnepass data = hash at hfront
  -- the first mark sets bits in the front filter
  obtain ⟨f, hf, hmark⟩ := mark_front (b := b) hash (by rw [hfront]; exact hempty)
    (by rw [hfront]; exact hfits)
  have hidle : b.grows hash = false := by rw [Bloom.grows, hfront, emptyFilter_hits, Bool.false_and]
  rw [hidle, if_neg Bool.false_ne_true] at hmark
  rw [hfront] at hf
  have hsize : f.size2 = size2 := hf.size2
  generalize (b.front (b.blockId hash)).2 = next at hmark
  -- the second finds them all set
  have hok : f.Ok := by
    refine ⟨by rw [hsize]; exact hempty.1, ?_⟩
    rw [hf.length, hsize]
    exact hempty.2
  obtain ⟨g, hg, hmark'⟩ := mark_front (b := b.setBlock (b.blockId hash) (f :: next)) hash
    (by simpa using hok) (by simpa [hsize] using hfits)
  have hgrows : (b.setBlock (b.blockId hash) (f :: next)).grows hash = true := by
    have hhits : f.hits (hash >>> b.topBlock2) = true := hf.hits
    simp only [Bloom.grows, Bloom.blockId_setBlock, Bloom.front_setBlock, Bloom.topBlock2_setBlock,
      hhits, hsize, Bool.true_and, decide_eq_true_eq, hashCount]
    omega
  rw [hgrows, if_pos rfl] at hmark'
  have hsize' : g.size2 = size2 := by
    have hgsize := hg.size2
    simp only [Bloom.blockId_setBlock, Bloom.front_setBlock] at hgsize
    exact hgsize.trans hsize
  simp only [Bloom.blockId_setBlock, Bloom.front_setBlock] at hmark'
  refine ⟨(b.setBlock (b.blockId hash) (f :: next)).setBlock (b.blockId hash)
    (emptyFilter (g.size2 + 1) :: g :: next), ?_, ?_⟩
  · simp only [bloomCalls, bloomMark, hhash, hmark, hmark']
  · refine ⟨rfl, ?_⟩
    rw [hhash, hsize']
    simp

/-- A mark of data whose filter takes all bits of the hash that are left. -/
theorem Renewed.stuck {top size2 : Nat} {data : List Byte} {b : Bloom}
    (h : Renewed top data size2 b) (hfull : top + hashCount * size2 = 64) :
    bloomMark granted b data = .error .assertion := by
  obtain ⟨rfl, hfront⟩ := h
  have hassert : ¬(0 : Int) < 64 - b.topBlock2 - hashCount * (emptyFilter size2).size2 := by
    simp only [emptyFilter]
    omega
  have hfirst := b.frontFilter_granted (b.blockId (hashOnepass data))
  generalize b.front (b.blockId (hashOnepass data)) = front at hfront hfirst
  obtain ⟨f, next⟩ := front
  dsimp only at hfront
  subst hfront
  simp only [bloomMark, bloomMarkHash, hfirst, if_neg hassert]

/-- Enough marks of the same data make a filter of any size that the hash has bits for. -/
theorem renewed_after {top min : Nat} (htop : 1 ≤ top) (hmin : 1 ≤ min) (data : List Byte)
    (k : Nat) : top + hashCount * (min + k) ≤ 64 →
    ∃ calls b, bloomCalls (bloomInit (some ⟨top, min⟩)) calls = .ok b ∧
      Renewed top data (min + k) b := by
  induction k with
  | zero =>
    intro _
    have htop' : top ≠ 0 := by omega
    have hmin' : min ≠ 0 := by omega
    refine ⟨[], _, rfl, ?_, ?_⟩
    · simp [bloomInit, htop']
    · simp [Bloom.front, bloomInit, hmin']
  | succ k ih =>
    intro hroom
    simp only [hashCount] at hroom ih
    obtain ⟨calls, b, hrun, hb⟩ := ih (by omega)
    obtain ⟨b', hrun', hb'⟩ := hb.twice (by simp only [hashCount]; omega)
    refine ⟨calls ++ [.mark data, .mark data], b', ?_, hb'⟩
    rw [bloomCalls_append, hrun]
    exact hrun'

/-! ## The configurations -/

/-- **Growth stays within the hash and the filters in exactly the configurations whose block bits
are no multiple of `HASH_COUNT`.** -/
theorem bloom_safe_iff {top min : Nat} (htop : 1 ≤ top) (hmin : 1 ≤ min)
    (hfit : top + hashCount * min < 64) :
    (∀ calls, BloomSafe ⟨top, min⟩ calls) ↔ top % hashCount ≠ 0 := by
  have htop' : top ≠ 0 := by omega
  have hmin' : min ≠ 0 := by omega
  constructor
  · intro hsafe hmultiple
    simp only [hashCount] at hfit hmultiple
    -- the filter that takes the rest of the hash
    obtain ⟨k, hk⟩ : ∃ k, top + 4 * (min + k) = 64 := ⟨16 - top / 4 - min, by omega⟩
    obtain ⟨calls, b, hrun, hb⟩ := renewed_after htop hmin [] k (by simp only [hashCount]; omega)
    obtain ⟨b', hrun', -⟩ := hsafe (calls ++ [.mark []])
    rw [bloomCalls_append, hrun] at hrun'
    simp only [bloomCalls, hb.stuck hk] at hrun'
    cases hrun'
  · intro hodd calls
    have hinit : (bloomInit (some ⟨top, min⟩)).topBlock2 = top ∧
        (bloomInit (some ⟨top, min⟩)).minFilter2 = min := by
      simp [bloomInit, htop', hmin']
    have inv : (bloomInit (some ⟨top, min⟩)).Inv := by
      refine ⟨?_, ?_, fun _ => trivial⟩
      · rw [hinit.1, hinit.2]
        exact hfit
      · rw [hinit.1]
        exact hodd
    obtain ⟨b, hrun, hb, hminFilter⟩ := bloomCalls_inv inv calls
    refine ⟨b, hrun, fun id => ?_, hb.shifts_lt⟩
    have hchain := (hb.chains id).descends
    rwa [hminFilter, hinit.2] at hchain

/-- A chain that has grown, in a configuration whose first filters have no byte of their own. -/
theorem bloom_safe_four_bits :
    BloomSafe ⟨9, 2⟩ [.mark [1], .check [1], .mark [1], .mark [1], .mark [3], .check [1]] :=
  (bloom_safe_iff (by decide) (by decide) (by decide)).mpr (by decide) _

/-- What stopped a sequence of calls. -/
def stopOf (config : BloomConfig) (calls : List BloomCall) : Option Stop :=
  match bloomCalls (bloomInit (some config)) calls with
  | .ok _ => none
  | .error e => some e

theorem not_bloomSafe {config : BloomConfig} {calls : List BloomCall}
    (h : (stopOf config calls).isSome) : ¬BloomSafe config calls := by
  rintro ⟨b, hrun, -⟩
  rw [stopOf, hrun] at h
  cases h

/-- Three marks of one datum fail the assertion. -/
theorem bloom_limits_broken :
    stopOf ⟨8, 13⟩ [.mark [1], .mark [1], .mark [1]] = some .assertion ∧
    ¬BloomSafe ⟨8, 13⟩ [.mark [1], .mark [1], .mark [1]] := by
  have hassert : stopOf ⟨8, 13⟩ [.mark [1], .mark [1], .mark [1]] = some .assertion := by
    decide +kernel
  refine ⟨hassert, not_bloomSafe ?_⟩
  rw [hassert]
  rfl

end Theft
