import Theft.Bloom

/-!
# The bloom filter and its set-based meaning

A filter of a chain holds the indexes of the data marked while it was in front, and
nothing else; that is what `History` and `bloom_exact` say, for any history of marks.

* `Bloom.Inv`: the sizes along a chain fall by one per filter down to the smallest, and
  every filter has room for its indexes, so no access is out of bounds;
* `mark_spec`, `check_spec`: what the packed operations do, as sets of indexes;
* `bloom_exact`: a datum is reported exactly when some filter of its chain holds all its
  indexes, so a marked datum always is.
-/

namespace Theft

open PackedBits

/-- Every allocation succeeds. -/
def granted (_ : Nat) : Bool := true

theorem toNat_lowMask {n : Nat} (h : n < 64) : ((1#64 <<< n) - 1).toNat = 2 ^ n - 1 := by
  have hpow : 2 ^ n < 2 ^ 64 := Nat.pow_lt_pow_right (by decide) h
  have hpos : 0 < 2 ^ n := Nat.two_pow_pos n
  have hone : (1 : Word).toNat = 1 := rfl
  rw [BitVec.toNat_sub, BitVec.toNat_shiftLeft, BitVec.toNat_ofNat, Nat.shiftLeft_eq,
    Nat.mod_eq_of_lt (a := 1) (by decide), Nat.one_mul, Nat.mod_eq_of_lt hpow, hone]
  omega

theorem chunk_eq {size2 : Nat} (h : size2 < 64) (hash : Word) (i : Nat) :
    chunk size2 hash i = hash.toNat / 2 ^ (i * size2) % 2 ^ size2 := by
  rw [chunk, BitVec.toNat_and, toNat_lowMask h, Nat.and_two_pow_sub_one_eq_mod,
    BitVec.toNat_ushiftRight, Nat.shiftRight_eq_div_pow]

theorem chunk_lt {size2 : Nat} (h : size2 < 64) (hash : Word) (i : Nat) :
    chunk size2 hash i < 2 ^ size2 := by
  rw [chunk_eq h]
  exact Nat.mod_lt _ (Nat.two_pow_pos size2)

theorem blockId_eq {b : Bloom} (h : b.topBlock2 < 64) (hash : Word) :
    b.blockId hash = hash.toNat % 2 ^ b.topBlock2 := by
  rw [Bloom.blockId, BitVec.toNat_and, toNat_lowMask h, Nat.and_two_pow_sub_one_eq_mod]

/-! ## One filter -/

/-- The bits of a filter cover its indexes. -/
def BloomFilter.Ok (f : BloomFilter) : Prop := f.size2 < 64 ∧ 2 ^ f.size2 ≤ 8 * f.bits.length

/-- All the indexes of a hash are set in a filter. -/
def BloomFilter.hits (f : BloomFilter) (hash : Word) : Bool :=
  (List.range hashCount).all fun i => bitAt f.bits (chunk f.size2 hash i)

/-- A filter with less than a byte of bits has them in the padding. -/
theorem emptyFilter_ok {bits : Nat} (h : bits < 64) : (emptyFilter bits).Ok := by
  refine ⟨h, ?_⟩
  simp only [emptyFilter, List.length_replicate, filterPadding]
  omega

@[simp] theorem bitAt_emptyFilter (bits v : Nat) : bitAt (emptyFilter bits).bits v = false :=
  bitAt_replicate_zero _ _

theorem checkChunks_spec {f : BloomFilter} (hf : f.Ok) (hash : Word) (is : List Nat) :
    checkChunks f.size2 hash f.bits is =
      .ok (is.all fun i => bitAt f.bits (chunk f.size2 hash i)) := by
  induction is with
  | nil => rfl
  | cons i is ih =>
    have hlt := chunk_lt hf.1 hash i
    rw [checkChunks, Cursor.test_ofOffset (Nat.lt_of_lt_of_le hlt hf.2), List.all_cons]
    cases hbit : bitAt f.bits (chunk f.size2 hash i) with
    | false => rfl
    | true => simpa using ih

theorem markChunks_spec {size2 : Nat} (hsize : size2 < 64) (hash : Word) (is : List Nat) :
    ∀ (bits : List Byte) (anySet : Bool), 2 ^ size2 ≤ 8 * bits.length →
      ∃ bits', markChunks size2 hash is bits anySet =
          .ok (bits', anySet || !(is.all fun i => bitAt bits (chunk size2 hash i))) ∧
        bits'.length = bits.length ∧
        ∀ v, bitAt bits' v = (bitAt bits v || is.any fun i => chunk size2 hash i == v) := by
  induction is with
  | nil => intro bits anySet _; exact ⟨bits, by simp [markChunks], rfl, by simp⟩
  | cons i is ih =>
    intro bits anySet hlen
    have hlt := chunk_lt hsize hash i
    obtain ⟨bits₁, hwrite, hlen₁, hbits₁⟩ :=
      Cursor.write_ofOffset bits (chunk size2 hash i) (by omega) true
    obtain ⟨bits', hrun, hlen', hbits'⟩ :=
      ih bits₁ (anySet || !bitAt bits (chunk size2 hash i)) (by omega)
    refine ⟨bits', ?_, by omega, fun v => ?_⟩
    · rw [markChunks]
      simp only [Cursor.test_ofOffset (show chunk size2 hash i < 8 * bits.length by omega),
        hwrite, hrun, List.all_cons]
      cases hbit : bitAt bits (chunk size2 hash i) with
      | false => simp
      | true =>
        -- the bit was set already, so the rest sees the same filter
        have hsame : ∀ v, bitAt bits₁ v = bitAt bits v := by
          intro v
          rw [hbits₁]
          split
          · rename_i hv; rw [hv, hbit]
          · rfl
        simp [hsame]
    · rw [hbits', hbits₁, List.any_cons]
      by_cases hv : v = chunk size2 hash i
      · simp [hv]
      · have hne : (chunk size2 hash i == v) = false := beq_eq_false_iff_ne.mpr (Ne.symm hv)
        rw [if_neg hv, hne, Bool.false_or]

/-! ## The chains -/

/-- From the front: sizes fall by one per filter, the last is the smallest, and every filter
leaves hash bits for its chunks. -/
def ChainOk (top min : Nat) : List BloomFilter → Prop
  | [] => True
  | f :: next => (f.Ok ∧ f.size2 = min + next.length ∧ top + hashCount * f.size2 < 64) ∧
      ChainOk top min next

/-- What holds of every filter that theft itself sets up. -/
structure Bloom.Inv (b : Bloom) : Prop where
  min_fits : b.topBlock2 + hashCount * b.minFilter2 < 64
  /-- A filter that may be allocated may also be marked. -/
  top_odd : b.topBlock2 % hashCount ≠ 0
  chains : ∀ id, ChainOk b.topBlock2 b.minFilter2 (b.blocks id)

theorem bloomInit_inv : (bloomInit none).Inv where
  min_fits := by decide
  top_odd := by decide
  chains := fun _ => trivial

namespace Bloom

/-- The front filter of a block and what is behind it; an empty block gets its first one. -/
def front (b : Bloom) (id : Nat) : BloomFilter × List BloomFilter :=
  match b.blocks id with
  | [] => (emptyFilter b.minFilter2, [])
  | f :: next => (f, next)

/-- How many filters a block has had in front before the present one. -/
def frontNumber (b : Bloom) (id : Nat) : Nat := (b.blocks id).length - 1

theorem front_ok {b : Bloom} (inv : b.Inv) (id : Nat) :
    ((b.front id).1.Ok ∧ (b.front id).1.size2 = b.minFilter2 + (b.front id).2.length ∧
      b.topBlock2 + hashCount * (b.front id).1.size2 < 64) ∧
      ChainOk b.topBlock2 b.minFilter2 (b.front id).2 := by
  have hchain := inv.chains id
  unfold front
  cases hb : b.blocks id with
  | nil =>
    have hmin := inv.min_fits
    simp only [hashCount] at hmin
    exact ⟨⟨emptyFilter_ok (by omega), rfl, inv.min_fits⟩, trivial⟩
  | cons f next => rw [hb] at hchain; exact hchain

theorem frontFilter_granted (b : Bloom) (id : Nat) :
    b.frontFilter granted id = some (b.front id) := by
  unfold frontFilter front
  cases b.blocks id <;> rfl

theorem length_front (b : Bloom) (id : Nat) : (b.front id).2.length = b.frontNumber id := by
  unfold front frontNumber
  cases b.blocks id <;> simp

end Bloom

/-- A filter after a hash has been marked in it. -/
structure Marks (hash : Word) (f f' : BloomFilter) : Prop where
  size2 : f'.size2 = f.size2
  length : f'.bits.length = f.bits.length
  bits : ∀ v, bitAt f'.bits v = true ↔
    bitAt f.bits v = true ∨ ∃ i < hashCount, chunk f.size2 hash i = v

/-- The front filter had all the bits and a larger one still fits: a mark grows the chain. -/
def Bloom.grows (b : Bloom) (hash : Word) : Bool :=
  (b.front (b.blockId hash)).1.hits (hash >>> b.topBlock2) &&
    decide (b.topBlock2 + hashCount * ((b.front (b.blockId hash)).1.size2 + 1) ≤ 64)

/-- What a mark does when its front filter leaves hash bits for the chunks. -/
theorem mark_front {b : Bloom} (hash : Word) (hok : (b.front (b.blockId hash)).1.Ok)
    (hfits : b.topBlock2 + hashCount * (b.front (b.blockId hash)).1.size2 < 64) :
    ∃ f', Marks (hash >>> b.topBlock2) (b.front (b.blockId hash)).1 f' ∧
      bloomMarkHash granted b hash = .ok (true, b.setBlock (b.blockId hash)
        (if b.grows hash then
          emptyFilter (f'.size2 + 1) :: f' :: (b.front (b.blockId hash)).2
        else f' :: (b.front (b.blockId hash)).2)) := by
  have hfront := b.frontFilter_granted (b.blockId hash)
  obtain ⟨bits', hrun, hlen, hbits⟩ := markChunks_spec hok.1 (hash >>> b.topBlock2)
    (List.range hashCount) (b.front (b.blockId hash)).1.bits false hok.2
  refine ⟨⟨(b.front (b.blockId hash)).1.size2, bits'⟩, ⟨rfl, hlen, fun v => ?_⟩, ?_⟩
  · rw [hbits, Bool.or_eq_true, List.any_eq_true]
    simp only [List.mem_range, beq_iff_eq]
  · have hassert : (0 : Int) < 64 - b.topBlock2 - hashCount * (b.front (b.blockId hash)).1.size2 := by
      omega
    simp only [bloomMarkHash, hfront, if_pos hassert, hrun, Bool.false_or]
    have hhits : ((List.range hashCount).all fun i => bitAt (b.front (b.blockId hash)).1.bits
        (chunk (b.front (b.blockId hash)).1.size2 (hash >>> b.topBlock2) i)) =
        (b.front (b.blockId hash)).1.hits (hash >>> b.topBlock2) := rfl
    rw [hhits]
    cases hhit : (b.front (b.blockId hash)).1.hits (hash >>> b.topBlock2) with
    | false => simp [Bloom.grows, hhit]
    | true =>
      by_cases hroom : b.topBlock2 + hashCount * ((b.front (b.blockId hash)).1.size2 + 1) ≤ 64
      · have hnot := Nat.not_lt.mpr hroom
        simp [Bloom.grows, hhit, hroom, hnot, allocFilter, granted]
      · have hlt := Nat.lt_of_not_le hroom
        simp [Bloom.grows, hhit, hroom, hlt]

/-- What a mark does: the front filter gets the indexes, and a new one may go before it. -/
theorem mark_spec {b : Bloom} (inv : b.Inv) (hash : Word) :
    ∃ f', Marks (hash >>> b.topBlock2) (b.front (b.blockId hash)).1 f' ∧
      bloomMarkHash granted b hash = .ok (true, b.setBlock (b.blockId hash)
        (if b.grows hash then
          emptyFilter (f'.size2 + 1) :: f' :: (b.front (b.blockId hash)).2
        else f' :: (b.front (b.blockId hash)).2)) := by
  obtain ⟨⟨hok, -, hfits⟩, -⟩ := b.front_ok inv (b.blockId hash)
  exact mark_front hash hok hfits

/-- A check looks for a filter of the chain that has all the indexes. -/
theorem check_spec {b : Bloom} (inv : b.Inv) (hash : Word) :
    bloomCheckHash b hash = .ok ((b.blocks (b.blockId hash)).any fun f =>
      f.hits (hash >>> b.topBlock2)) := by
  have hchain := inv.chains (b.blockId hash)
  rw [bloomCheckHash]
  revert hchain
  induction b.blocks (b.blockId hash) with
  | nil => intro _; rfl
  | cons f next ih =>
    intro hchain
    rw [checkChain, checkChunks_spec hchain.1.1]
    cases hhit : f.hits (hash >>> b.topBlock2) with
    | false =>
      rw [show ((List.range hashCount).all fun i => bitAt f.bits
        (chunk f.size2 (hash >>> b.topBlock2) i)) = false from hhit, List.any_cons, hhit]
      exact ih hchain.2
    | true =>
      rw [show ((List.range hashCount).all fun i => bitAt f.bits
        (chunk f.size2 (hash >>> b.topBlock2) i)) = true from hhit, List.any_cons, hhit]
      rfl

theorem Marks.chain {b : Bloom} (inv : b.Inv) {id : Nat} {hash : Word} {f' : BloomFilter}
    (hmarks : Marks hash (b.front id).1 f') :
    ChainOk b.topBlock2 b.minFilter2 (f' :: (b.front id).2) := by
  obtain ⟨⟨hok, hsize, hfits⟩, hnext⟩ := b.front_ok inv id
  refine ⟨⟨⟨?_, ?_⟩, ?_, ?_⟩, hnext⟩
  · rw [hmarks.size2]; exact hok.1
  · rw [hmarks.length, hmarks.size2]; exact hok.2
  · rw [hmarks.size2]; exact hsize
  · rw [hmarks.size2]; exact hfits

theorem Bloom.Inv.setBlock {b : Bloom} (inv : b.Inv) {id : Nat} {chain : List BloomFilter}
    (h : ChainOk b.topBlock2 b.minFilter2 chain) : (b.setBlock id chain).Inv := by
  refine ⟨inv.min_fits, inv.top_odd, fun id' => ?_⟩
  by_cases hid : id' = id
  · simpa only [Bloom.setBlock, if_pos hid] using h
  · simpa only [Bloom.setBlock, if_neg hid] using inv.chains id'

/-- A filter that grows in front of a chain is as long as its place in it says. -/
theorem chain_grow {b : Bloom} (inv : b.Inv) {f' : BloomFilter} {next : List BloomFilter}
    (h : ChainOk b.topBlock2 b.minFilter2 (f' :: next))
    (hroom : b.topBlock2 + hashCount * (f'.size2 + 1) ≤ 64) :
    ChainOk b.topBlock2 b.minFilter2 (emptyFilter (f'.size2 + 1) :: f' :: next) := by
  have hodd := inv.top_odd
  have hsize := h.1.2.1
  simp only [hashCount] at hroom hodd
  refine ⟨⟨emptyFilter_ok (by omega), ?_, ?_⟩, h⟩
  · simp only [emptyFilter, List.length_cons]
    omega
  · simp only [emptyFilter, hashCount]
    omega

theorem mark_inv {b b' : Bloom} (inv : b.Inv) {hash : Word} {r : Bool}
    (h : bloomMarkHash granted b hash = .ok (r, b')) :
    b'.Inv ∧ b'.topBlock2 = b.topBlock2 ∧ b'.minFilter2 = b.minFilter2 := by
  obtain ⟨f', hmarks, hrun⟩ := mark_spec inv hash
  rw [h] at hrun
  simp only [Except.ok.injEq, Prod.mk.injEq] at hrun
  obtain ⟨-, rfl⟩ := hrun
  refine ⟨inv.setBlock ?_, rfl, rfl⟩
  cases hgrow : b.grows hash with
  | false => exact hmarks.chain inv
  | true =>
    refine chain_grow inv (hmarks.chain inv) ?_
    rw [hmarks.size2]
    simp only [Bloom.grows, Bool.and_eq_true, decide_eq_true_eq] at hgrow
    exact hgrow.2

/-- Whatever memory there is, a mark fails no assertion and keeps the chains. -/
theorem mark_any (malloc : Nat → Bool) {b : Bloom} (inv : b.Inv) (hash : Word) :
    ∃ r b', bloomMarkHash malloc b hash = .ok (r, b') ∧ b'.Inv := by
  have hgranted := b.frontFilter_granted (b.blockId hash)
  have hfront : b.frontFilter malloc (b.blockId hash) = none ∨
      b.frontFilter malloc (b.blockId hash) = some (b.front (b.blockId hash)) := by
    unfold Bloom.frontFilter Bloom.front
    cases b.blocks (b.blockId hash) with
    | nil =>
      unfold allocFilter
      cases malloc b.minFilter2 with
      | false => exact .inl rfl
      | true => exact .inr rfl
    | cons f next => exact .inr rfl
  rcases hfront with hfront | hfront
  · exact ⟨false, b, by simp only [bloomMarkHash, hfront], inv⟩
  · obtain ⟨⟨hok, -, hfits⟩, -⟩ := b.front_ok inv (b.blockId hash)
    obtain ⟨bits', hrun, hlen, hbits⟩ := markChunks_spec hok.1 (hash >>> b.topBlock2)
      (List.range hashCount) (b.front (b.blockId hash)).1.bits false hok.2
    have hmarks : Marks (hash >>> b.topBlock2) (b.front (b.blockId hash)).1
        ⟨(b.front (b.blockId hash)).1.size2, bits'⟩ := by
      refine ⟨rfl, hlen, fun v => ?_⟩
      rw [hbits, Bool.or_eq_true, List.any_eq_true]
      simp only [List.mem_range, beq_iff_eq]
    have hchain := hmarks.chain inv
    have hassert : (0 : Int) < 64 - b.topBlock2 - hashCount * (b.front (b.blockId hash)).1.size2 := by
      omega
    simp only [bloomMarkHash, hfront, if_pos hassert, hrun]
    split
    · exact ⟨_, _, rfl, inv.setBlock hchain⟩
    · split
      · exact ⟨_, _, rfl, inv.setBlock hchain⟩
      · rename_i hroom
        unfold allocFilter
        split
        · exact ⟨_, _, rfl, inv.setBlock hchain⟩
        · rename_i h
          split at h
          · cases h
            exact ⟨_, _, rfl, inv.setBlock (chain_grow inv hchain (Nat.le_of_not_lt hroom))⟩
          · cases h

/-! ## One mark, filter by filter -/

/-- Filter number `j` of a block, in the order they were allocated. -/
def Bloom.filter (b : Bloom) (id j : Nat) : Option BloomFilter := (b.blocks id).reverse[j]?

theorem getElem?_reverse_cons (f : BloomFilter) (next : List BloomFilter) (j : Nat) :
    (f :: next).reverse[j]? = if j = next.length then some f else next.reverse[j]? := by
  rw [List.reverse_cons]
  split
  · subst j
    simp
  · rename_i hj
    by_cases hlt : j < next.length
    · rw [List.getElem?_append_left (by simpa using hlt)]
    · rw [List.getElem?_eq_none (by simp; omega), List.getElem?_eq_none (by simp; omega)]

theorem isSome_reverse (chain : List BloomFilter) (j : Nat) :
    (chain.reverse[j]?).isSome ↔ j < chain.length := by
  simp

theorem chain_size {top min : Nat} {chain : List BloomFilter} (h : ChainOk top min chain)
    {j : Nat} {f : BloomFilter} (hf : chain.reverse[j]? = some f) : f.size2 = min + j := by
  induction chain with
  | nil => simp at hf
  | cons g next ih =>
    rw [getElem?_reverse_cons] at hf
    split at hf
    · cases hf
      rename_i hj
      rw [hj]
      exact h.1.2.1
    · exact ih h.2 hf

theorem filter_size {b : Bloom} (inv : b.Inv) {id j : Nat} {f : BloomFilter}
    (hf : b.filter id j = some f) : f.size2 = b.minFilter2 + j :=
  chain_size (inv.chains id) hf

theorem filter_behind_front (b : Bloom) {id j : Nat} (hj : j ≠ b.frontNumber id) :
    b.filter id j = (b.front id).2.reverse[j]? := by
  rw [← b.length_front] at hj
  revert hj
  unfold Bloom.filter Bloom.front
  cases b.blocks id with
  | nil => intro _; rfl
  | cons f next => intro hj; rw [getElem?_reverse_cons, if_neg hj]

theorem bitAt_front (b : Bloom) (id v : Nat) :
    bitAt (b.front id).1.bits v = true ↔
      ∃ f, b.filter id (b.frontNumber id) = some f ∧ bitAt f.bits v = true := by
  rw [← b.length_front]
  unfold Bloom.filter Bloom.front
  cases b.blocks id with
  | nil => simp
  | cons f next => simp

/-- After a mark a filter has the bits it had, and the front one those of the hash too. -/
theorem mark_filter {b b' : Bloom} (inv : b.Inv) {hash : Word} {r : Bool}
    (h : bloomMarkHash granted b hash = .ok (r, b')) {id j : Nat} {f' : BloomFilter}
    (hf' : b'.filter id j = some f') (v : Nat) :
    bitAt f'.bits v = true ↔ (∃ f, b.filter id j = some f ∧ bitAt f.bits v = true) ∨
      (id = b.blockId hash ∧ j = b.frontNumber id ∧
        ∃ i < hashCount, chunk f'.size2 (hash >>> b.topBlock2) i = v) := by
  obtain ⟨g, hmarks, hrun⟩ := mark_spec inv hash
  rw [h] at hrun
  simp only [Except.ok.injEq, Prod.mk.injEq] at hrun
  obtain ⟨-, rfl⟩ := hrun
  by_cases hid : id = b.blockId hash
  · subst hid
    simp only [Bloom.filter, Bloom.setBlock, if_true] at hf'
    have hcases : (j = (b.front (b.blockId hash)).2.length + 1 ∧ f' = emptyFilter (g.size2 + 1)) ∨
        (g :: (b.front (b.blockId hash)).2).reverse[j]? = some f' := by
      cases hgrow : b.grows hash with
      | false => rw [hgrow] at hf'; exact .inr hf'
      | true =>
        rw [hgrow, if_pos rfl, getElem?_reverse_cons] at hf'
        split at hf'
        · rename_i hj
          exact .inl ⟨hj, (Option.some.inj hf').symm⟩
        · exact .inr hf'
    obtain ⟨hj, rfl⟩ | hold := hcases
    · have hnone : b.filter (b.blockId hash) j = none := by
        rw [filter_behind_front b (by rw [← b.length_front]; omega)]
        exact List.getElem?_eq_none (by simp; omega)
      rw [← b.length_front, hnone]
      simp only [bitAt_emptyFilter, Bool.false_eq_true, false_iff]
      rintro (⟨f, hf, -⟩ | ⟨-, hfront, -⟩)
      · cases hf
      · omega
    · rw [getElem?_reverse_cons] at hold
      split at hold
      · rename_i hj
        cases hold
        rw [b.length_front] at hj
        subst hj
        rw [hmarks.bits, hmarks.size2, bitAt_front]
        simp
      · rename_i hj
        rw [b.length_front] at hj
        rw [filter_behind_front b hj, hold]
        simp [hj]
  · have hsame : b.filter id j = some f' := by
      simpa only [Bloom.filter, Bloom.setBlock, if_neg hid] using hf'
    simp [hsame, hid]

/-- A mark removes no filter, and leaves one with the number it was made for. -/
theorem mark_keeps_filters {b b' : Bloom} (inv : b.Inv) {hash : Word} {r : Bool}
    (h : bloomMarkHash granted b hash = .ok (r, b')) :
    (∀ id j, (b.filter id j).isSome → (b'.filter id j).isSome) ∧
      (b'.filter (b.blockId hash) (b.frontNumber (b.blockId hash))).isSome := by
  obtain ⟨g, -, hrun⟩ := mark_spec inv hash
  rw [h] at hrun
  simp only [Except.ok.injEq, Prod.mk.injEq] at hrun
  obtain ⟨-, rfl⟩ := hrun
  have hlen : (b.blocks (b.blockId hash)).length ≤ b.frontNumber (b.blockId hash) + 1 := by
    rw [Bloom.frontNumber]
    omega
  have hlen' : b.frontNumber (b.blockId hash) < ((if b.grows hash = true then
      emptyFilter (g.size2 + 1) :: g :: (b.front (b.blockId hash)).2
      else g :: (b.front (b.blockId hash)).2)).length := by
    rw [← b.length_front]
    split
    · simp only [List.length_cons]
      omega
    · simp only [List.length_cons]
      omega
  refine ⟨fun id j hj => ?_, ?_⟩
  · by_cases hid : id = b.blockId hash
    · subst hid
      simp only [Bloom.filter, Bloom.setBlock, if_true, isSome_reverse] at hj ⊢
      omega
    · simpa only [Bloom.filter, Bloom.setBlock, if_neg hid] using hj
  · simp only [Bloom.filter, Bloom.setBlock, if_true, isSome_reverse]
    exact hlen'

/-! ## Marks and later checks -/

theorem check_iff {b : Bloom} (inv : b.Inv) (hash : Word) : ∃ found,
    bloomCheckHash b hash = .ok found ∧ (found = true ↔ ∃ j f,
      b.filter (b.blockId hash) j = some f ∧ f.hits (hash >>> b.topBlock2) = true) := by
  refine ⟨_, check_spec inv hash, ?_⟩
  rw [List.any_eq_true]
  constructor
  · rintro ⟨f, hf, hhits⟩
    obtain ⟨j, hj⟩ := List.mem_iff_getElem?.mp (List.mem_reverse.mpr hf)
    exact ⟨j, f, hj, hhits⟩
  · rintro ⟨j, f, hf, hhits⟩
    exact ⟨f, List.mem_reverse.mp (List.mem_of_getElem? hf), hhits⟩

theorem hits_iff (f : BloomFilter) (hash : Word) :
    f.hits hash = true ↔ ∀ i < hashCount, bitAt f.bits (chunk f.size2 hash i) = true := by
  rw [BloomFilter.hits, List.all_eq_true]
  simp only [List.mem_range]

/-- What a check finds, it finds after any further mark. -/
theorem check_mono {b b' : Bloom} (inv : b.Inv) {hash hash' : Word} {r : Bool}
    (h : bloomMarkHash granted b hash = .ok (r, b'))
    (hfound : bloomCheckHash b hash' = .ok true) : bloomCheckHash b' hash' = .ok true := by
  obtain ⟨inv', htop, -⟩ := mark_inv inv h
  obtain ⟨found, hcheck, hiff⟩ := check_iff inv hash'
  obtain ⟨found', hcheck', hiff'⟩ := check_iff inv' hash'
  rw [hcheck', hiff'.mpr]
  rw [hcheck] at hfound
  obtain ⟨j, f, hf, hhits⟩ := hiff.mp (Except.ok.inj hfound)
  obtain ⟨f', hf'⟩ := Option.isSome_iff_exists.mp
    ((mark_keeps_filters inv h).1 _ j (Option.isSome_iff_exists.mpr ⟨f, hf⟩))
  have hid : b'.blockId hash' = b.blockId hash' := by rw [Bloom.blockId, Bloom.blockId, htop]
  have hsize : f'.size2 = f.size2 := by
    rw [filter_size inv hf, filter_size inv' hf', (mark_inv inv h).2.2]
  refine ⟨j, f', hid ▸ hf', ?_⟩
  rw [hits_iff] at hhits ⊢
  intro i hi
  rw [mark_filter inv h hf', htop, hsize]
  exact .inl ⟨f, hf, hhits i hi⟩

/-- What has just been marked is found. -/
theorem check_marked {b b' : Bloom} (inv : b.Inv) {hash : Word} {r : Bool}
    (h : bloomMarkHash granted b hash = .ok (r, b')) : bloomCheckHash b' hash = .ok true := by
  obtain ⟨inv', htop, -⟩ := mark_inv inv h
  obtain ⟨found', hcheck', hiff'⟩ := check_iff inv' hash
  rw [hcheck', hiff'.mpr]
  obtain ⟨f', hf'⟩ := Option.isSome_iff_exists.mp (mark_keeps_filters inv h).2
  have hid : b'.blockId hash = b.blockId hash := by rw [Bloom.blockId, Bloom.blockId, htop]
  refine ⟨_, f', hid ▸ hf', ?_⟩
  rw [hits_iff]
  intro i hi
  rw [mark_filter inv h hf', htop]
  exact .inr ⟨rfl, rfl, i, hi, rfl⟩

/-! ## Histories -/

/-- The dynamic filter after a history of marks, newest first. -/
def bloomOf : List (List Byte) → Except Stop Bloom
  | [] => .ok (bloomInit none)
  | data :: older => do
    let b ← bloomOf older
    let (_, b) ← bloomMark granted b data
    return b

/-- A datum was marked when filter `j` of block `id` was in front. -/
def MarkedInFront (history : List (List Byte)) (id j : Nat) (data : List Byte) : Prop :=
  ∃ newer older b, history = newer ++ data :: older ∧ bloomOf older = .ok b ∧
    b.blockId (hashOnepass data) = id ∧ b.frontNumber id = j

theorem markedInFront_cons {data : List Byte} {older : List (List Byte)} {b : Bloom}
    (h : bloomOf older = .ok b) (id j : Nat) (m : List Byte) :
    MarkedInFront (data :: older) id j m ↔ MarkedInFront older id j m ∨
      (m = data ∧ id = b.blockId (hashOnepass data) ∧ j = b.frontNumber id) := by
  constructor
  · rintro ⟨newer, older', b', hsplit, hrun, hid, hj⟩
    cases newer with
    | nil =>
      obtain ⟨rfl, rfl⟩ := List.cons.inj hsplit
      rw [h] at hrun
      cases hrun
      exact .inr ⟨rfl, hid.symm, hj.symm⟩
    | cons d newer =>
      obtain ⟨-, hsplit⟩ := List.cons.inj hsplit
      exact .inl ⟨newer, older', b', hsplit, hrun, hid, hj⟩
  · rintro (⟨newer, older', b', hsplit, hrun, hid, hj⟩ | ⟨rfl, hid, hj⟩)
    · exact ⟨data :: newer, older', b', by rw [hsplit, List.cons_append], hrun, hid, hj⟩
    · exact ⟨[], older, b, rfl, h, hid.symm, hj.symm⟩

/-- The packed filters hold what a history of marks put into them. -/
structure Records (history : List (List Byte)) (b : Bloom) : Prop where
  inv : b.Inv
  top : b.topBlock2 = defTopBlockBits
  bits : ∀ id j f, b.filter id j = some f → ∀ v, bitAt f.bits v = true ↔
    ∃ m, MarkedInFront history id j m ∧
      ∃ i < hashCount, chunk f.size2 (hashOnepass m >>> b.topBlock2) i = v
  present : ∀ id j m, MarkedInFront history id j m → (b.filter id j).isSome
  found : ∀ m ∈ history, bloomCheck b m = .ok true

theorem records_init : Records [] (bloomInit none) where
  inv := bloomInit_inv
  top := rfl
  bits := by
    intro id j f hf
    simp [Bloom.filter, bloomInit] at hf
  present := by
    rintro id j m ⟨newer, older, b, hsplit, -⟩
    simp at hsplit
  found := by
    intro m hm
    cases hm

theorem Records.mark {older : List (List Byte)} {b b' : Bloom} {data : List Byte} {r : Bool}
    (hrun : bloomOf older = .ok b) (rec : Records older b)
    (h : bloomMark granted b data = .ok (r, b')) : Records (data :: older) b' := by
  obtain ⟨inv', htop, hmin⟩ := mark_inv rec.inv h
  refine ⟨inv', htop.trans rec.top, fun id j f' hf' v => ?_, fun id j m hm => ?_, fun m hm => ?_⟩
  · rw [mark_filter rec.inv h hf', htop]
    constructor
    · rintro (⟨f, hf, hbit⟩ | ⟨hid, hj, hchunk⟩)
      · obtain ⟨m, hm, hchunk⟩ := (rec.bits id j f hf v).mp hbit
        refine ⟨m, (markedInFront_cons hrun id j m).mpr (.inl hm), ?_⟩
        rwa [filter_size inv' hf', hmin, ← filter_size rec.inv hf]
      · exact ⟨data, (markedInFront_cons hrun id j data).mpr (.inr ⟨rfl, hid, hj⟩), hchunk⟩
    · rintro ⟨m, hm, hchunk⟩
      obtain hold | ⟨rfl, hid, hj⟩ := (markedInFront_cons hrun id j m).mp hm
      · obtain ⟨f, hf⟩ := Option.isSome_iff_exists.mp (rec.present id j m hold)
        refine .inl ⟨f, hf, (rec.bits id j f hf v).mpr ⟨m, hold, ?_⟩⟩
        rwa [filter_size inv' hf', hmin, ← filter_size rec.inv hf] at hchunk
      · exact .inr ⟨hid, hj, hchunk⟩
  · obtain hold | ⟨rfl, hid, hj⟩ := (markedInFront_cons hrun id j m).mp hm
    · exact (mark_keeps_filters rec.inv h).1 id j (rec.present id j m hold)
    · rw [hj, hid]
      exact (mark_keeps_filters rec.inv h).2
  · obtain rfl | hold := List.mem_cons.mp hm
    · exact check_marked rec.inv h
    · exact check_mono rec.inv h (rec.found m hold)

theorem bloomOf_records (history : List (List Byte)) :
    ∃ b, bloomOf history = .ok b ∧ Records history b := by
  induction history with
  | nil => exact ⟨_, rfl, records_init⟩
  | cons data older ih =>
    obtain ⟨b, hrun, rec⟩ := ih
    obtain ⟨f', -, hmark⟩ := mark_spec rec.inv (hashOnepass data)
    refine ⟨_, ?_, rec.mark hrun hmark⟩
    rw [bloomOf, hrun]
    show (bloomMark granted b data >>= _) = _
    rw [bloomMark, hmark]
    rfl

/-- **The dynamic filter is its set-based specification.** After any history of marks a datum
is reported exactly when some filter of its block has each of its indexes from a datum marked
while that filter was in front; so everything marked is reported from then on. -/
theorem bloom_exact (history : List (List Byte)) :
    ∃ b, bloomOf history = .ok b ∧ ∀ data, ∃ found, bloomCheck b data = .ok found ∧
      (found = true ↔ ∃ j f, b.filter (b.blockId (hashOnepass data)) j = some f ∧
        ∀ i < hashCount, ∃ m, MarkedInFront history (b.blockId (hashOnepass data)) j m ∧
          ∃ i' < hashCount, chunk f.size2 (hashOnepass m >>> b.topBlock2) i' =
            chunk f.size2 (hashOnepass data >>> b.topBlock2) i) ∧
      (data ∈ history → found = true) := by
  obtain ⟨b, hrun, rec⟩ := bloomOf_records history
  refine ⟨b, hrun, fun data => ?_⟩
  obtain ⟨found, hcheck, hiff⟩ := check_iff rec.inv (hashOnepass data)
  refine ⟨found, hcheck, ?_, fun hm => ?_⟩
  · rw [hiff]
    constructor
    · rintro ⟨j, f, hf, hhits⟩
      exact ⟨j, f, hf, fun i hi => (rec.bits _ j f hf _).mp ((hits_iff f _).mp hhits i hi)⟩
    · rintro ⟨j, f, hf, hchunks⟩
      exact ⟨j, f, hf, (hits_iff f _).mpr fun i hi => (rec.bits _ j f hf _).mpr (hchunks i hi)⟩
  · have hfound := rec.found data hm
    rw [bloomCheck, hcheck] at hfound
    exact Except.ok.inj hfound

end Theft
