import Theft.BloomExact

/-!
# Growth under theft's own use

A chain grows only on a mark that sets no new bit, but theft marks only what a check has
just denied, and such a mark always sets a bit of the front filter. So a block keeps its
first filter for good, and once its hashes have touched every index it reports everything
as marked.
-/

namespace Theft

open PackedBits

/-- The runs of marks in which every mark follows a check that denied the same hash; the
hashes are listed newest first. -/
inductive PoliteRun : List Word → Bloom → Prop where
  | init : PoliteRun [] (bloomInit none)
  | mark {hashes b hash r b'} : PoliteRun hashes b → bloomCheckHash b hash = .ok false →
      bloomMarkHash granted b hash = .ok (r, b') → PoliteRun (hash :: hashes) b'

/-- Index `v` of a block's first filter belongs to a marked hash. -/
def Touched (hashes : List Word) (id v : Nat) : Prop :=
  ∃ hash ∈ hashes, (bloomInit none).blockId hash = id ∧
    ∃ i < hashCount, chunk defMinFilterBits (hash >>> defTopBlockBits) i = v

/-- A denied hash does not grow the chain it goes to. -/
theorem not_grows_of_denied {b : Bloom} (inv : b.Inv) {hash : Word}
    (h : bloomCheckHash b hash = .ok false) : b.grows hash = false := by
  rw [check_spec inv] at h
  have hmiss : (b.front (b.blockId hash)).1.hits (hash >>> b.topBlock2) = false := by
    have hany := Except.ok.inj h
    unfold Bloom.front
    cases hb : b.blocks (b.blockId hash) with
    | nil => simp [BloomFilter.hits, hashCount, List.range_succ]
    | cons f next =>
      rw [hb, List.any_cons, Bool.or_eq_false_iff] at hany
      exact hany.1
  rw [Bloom.grows, hmiss, Bool.false_and]

/-- What a polite run leaves: at most one filter in a block, with the touched indexes. -/
structure Ungrown (hashes : List Word) (b : Bloom) : Prop where
  inv : b.Inv
  top : b.topBlock2 = defTopBlockBits
  min : b.minFilter2 = defMinFilterBits
  single : ∀ id, (b.blocks id).length ≤ 1
  used : ∀ id, b.blocks id ≠ [] ↔ ∃ hash ∈ hashes, (bloomInit none).blockId hash = id
  bits : ∀ id f, b.filter id 0 = some f → ∀ v, bitAt f.bits v = true ↔ Touched hashes id v

theorem Ungrown.blockId {hashes : List Word} {b : Bloom} (u : Ungrown hashes b) (hash : Word) :
    b.blockId hash = (bloomInit none).blockId hash := by
  rw [Bloom.blockId, Bloom.blockId, u.top]
  rfl

theorem Ungrown.filter_zero {hashes : List Word} {b : Bloom} (u : Ungrown hashes b) {id : Nat}
    (h : b.blocks id ≠ []) : ∃ f, b.blocks id = [f] ∧ b.filter id 0 = some f := by
  have hlen := u.single id
  unfold Bloom.filter
  cases hb : b.blocks id with
  | nil => exact absurd hb h
  | cons f next =>
    rw [hb, List.length_cons] at hlen
    have hnext : next = [] := List.eq_nil_of_length_eq_zero (by omega)
    exact ⟨f, by rw [hnext], by rw [hnext]; rfl⟩

theorem touched_cons (hash : Word) (hashes : List Word) (id v : Nat) :
    Touched (hash :: hashes) id v ↔ Touched hashes id v ∨
      ((bloomInit none).blockId hash = id ∧
        ∃ i < hashCount, chunk defMinFilterBits (hash >>> defTopBlockBits) i = v) := by
  simp only [Touched, List.mem_cons, exists_eq_or_imp]
  exact or_comm

theorem ungrown_init : Ungrown [] (bloomInit none) where
  inv := bloomInit_inv
  top := rfl
  min := rfl
  single := fun _ => Nat.zero_le 1
  used := by simp [bloomInit]
  bits := by simp [Bloom.filter, bloomInit]

theorem Ungrown.mark {hashes : List Word} {b b' : Bloom} {hash : Word} {r : Bool}
    (u : Ungrown hashes b) (hdenied : bloomCheckHash b hash = .ok false)
    (h : bloomMarkHash granted b hash = .ok (r, b')) : Ungrown (hash :: hashes) b' := by
  obtain ⟨inv', htop, hmin⟩ := mark_inv u.inv h
  obtain ⟨f', -, hrun⟩ := mark_spec u.inv hash
  have hbehind : (b.front (b.blockId hash)).2 = [] := by
    have hsingle := u.single (b.blockId hash)
    apply List.eq_nil_of_length_eq_zero
    rw [b.length_front, Bloom.frontNumber]
    omega
  rw [h, not_grows_of_denied u.inv hdenied, hbehind] at hrun
  obtain ⟨-, hb'⟩ := Prod.mk.inj (Except.ok.inj hrun)
  have hblocks : ∀ id, b'.blocks id = if id = b.blockId hash then [f'] else b.blocks id := by
    intro id
    rw [hb']
    rfl
  refine ⟨inv', htop.trans u.top, hmin.trans u.min, fun id => ?_, fun id => ?_,
    fun id f hf v => ?_⟩
  · rw [hblocks]
    split
    · exact Nat.le_refl 1
    · exact u.single id
  · rw [hblocks]
    simp only [List.mem_cons, exists_eq_or_imp, ← u.blockId hash]
    by_cases hid : id = b.blockId hash
    · rw [if_pos hid]
      exact ⟨fun _ => .inl hid.symm, fun _ => List.cons_ne_nil _ _⟩
    · rw [if_neg hid, u.used]
      constructor
      · exact .inr
      · rintro (heq | hold)
        · exact absurd heq.symm hid
        · exact hold
  · have hfront : 0 = b.frontNumber id := by
      have hsingle := u.single id
      rw [Bloom.frontNumber]
      omega
    have hsize : f.size2 = defMinFilterBits := by rw [filter_size inv' hf, hmin, u.min, Nat.add_zero]
    rw [mark_filter u.inv h hf, touched_cons, hsize, u.top, u.blockId hash]
    constructor
    · rintro (⟨g, hg, hbit⟩ | ⟨hid, -, hchunk⟩)
      · exact .inl ((u.bits id g hg v).mp hbit)
      · exact .inr ⟨hid.symm, hchunk⟩
    · rintro (hold | ⟨hid, hchunk⟩)
      · have htouched := hold
        obtain ⟨m, hm, hid, -⟩ := hold
        obtain ⟨g, -, hg⟩ := u.filter_zero ((u.used id).mpr ⟨m, hm, hid⟩)
        exact .inl ⟨g, hg, (u.bits id g hg v).mpr htouched⟩
      · exact .inr ⟨hid.symm, hfront, hchunk⟩

theorem PoliteRun.ungrown {hashes : List Word} {b : Bloom} (run : PoliteRun hashes b) :
    Ungrown hashes b := by
  induction run with
  | init => exact ungrown_init
  | mark _ hdenied hmark ih => exact ih.mark hdenied hmark

/-! ## What a block still denies -/

/-- A hash of block `id` whose first chunk is `v`. -/
def hashAt (id v : Nat) : Word := BitVec.ofNat 64 (id + 2 ^ defTopBlockBits * v)

theorem Ungrown.denied_iff {hashes : List Word} {b : Bloom} (u : Ungrown hashes b)
    {hash : Word} (h : b.blocks (b.blockId hash) ≠ []) :
    bloomCheckHash b hash = .ok false ↔ ∃ i < hashCount,
      ¬ Touched hashes (b.blockId hash) (chunk defMinFilterBits (hash >>> defTopBlockBits) i) := by
  obtain ⟨f, hchain, hf⟩ := u.filter_zero h
  have hsize : f.size2 = defMinFilterBits := by
    rw [filter_size u.inv hf, u.min, Nat.add_zero]
  rw [check_spec u.inv, hchain, List.any_cons, List.any_nil, Bool.or_false, u.top]
  rw [Except.ok.injEq, ← Bool.not_eq_true, hits_iff, hsize]
  simp only [u.bits _ f hf, Classical.not_forall, exists_prop]

theorem Ungrown.blockId_eq {hashes : List Word} {b : Bloom} (u : Ungrown hashes b) (hash : Word) :
    b.blockId hash = hash.toNat % 512 := by
  rw [Theft.blockId_eq (by rw [u.top]; decide), u.top]
  rfl

theorem chunk_min (hash : Word) (i : Nat) :
    chunk defMinFilterBits (hash >>> defTopBlockBits) i = hash.toNat / 512 / 2 ^ (i * 9) % 512 := by
  rw [chunk_eq (by decide), BitVec.toNat_ushiftRight, Nat.shiftRight_eq_div_pow]
  rfl

theorem toNat_hashAt {id v : Nat} (hid : id < 512) (hv : v < 512) :
    (hashAt id v).toNat = id + 512 * v := by
  rw [hashAt, BitVec.toNat_ofNat]
  exact Nat.mod_eq_of_lt (by simp only [defTopBlockBits]; omega)

theorem Ungrown.denies_iff {hashes : List Word} {b : Bloom} (u : Ungrown hashes b) {id : Nat}
    (h : b.blocks id ≠ []) :
    (∃ hash, b.blockId hash = id ∧ bloomCheckHash b hash = .ok false) ↔
      ∃ v < 2 ^ defMinFilterBits, ¬ Touched hashes id v := by
  constructor
  · rintro ⟨hash, rfl, hdenied⟩
    obtain ⟨i, -, hi⟩ := (u.denied_iff h).mp hdenied
    exact ⟨_, chunk_lt (by decide) _ i, hi⟩
  · rintro ⟨v, hv, huntouched⟩
    obtain ⟨hash, -, hhash⟩ := (u.used id).mp h
    have hid : id < 512 := by
      rw [← hhash, ← u.blockId hash, u.blockId_eq]
      exact Nat.mod_lt _ (by decide)
    have hat : b.blockId (hashAt id v) = id := by
      rw [u.blockId_eq, toNat_hashAt hid hv]
      omega
    have hchunk : chunk defMinFilterBits (hashAt id v >>> defTopBlockBits) 0 = v := by
      rw [chunk_min, toNat_hashAt hid hv]
      simp only [defMinFilterBits] at hv
      omega
    refine ⟨hashAt id v, hat, (u.denied_iff (by rwa [hat])).mpr ⟨0, by decide, ?_⟩⟩
    rwa [hat, hchunk]

/-- **A block is never extended.** In every run in which marks only follow denials, a block in
use has one filter, which could grow, and the block denies some hash if and only if the
marked hashes leave one of the filter's 512 indexes untouched. -/
theorem block_denies_iff {hashes : List Word} {b : Bloom} (run : PoliteRun hashes b) {id : Nat}
    {f : BloomFilter} {next : List BloomFilter} (h : b.blocks id = f :: next) :
    next = [] ∧ b.topBlock2 + hashCount * (f.size2 + 1) ≤ 64 ∧
      ((∃ hash, b.blockId hash = id ∧ bloomCheckHash b hash = .ok false) ↔
        ∃ v < 2 ^ defMinFilterBits, ¬ Touched hashes id v) := by
  have hne : b.blocks id ≠ [] := by
    rw [h]
    exact List.cons_ne_nil f next
  obtain ⟨g, hchain, hg⟩ := run.ungrown.filter_zero hne
  obtain ⟨rfl, rfl⟩ := List.cons.inj (h.symm.trans hchain)
  refine ⟨rfl, ?_, run.ungrown.denies_iff hne⟩
  rw [filter_size run.ungrown.inv hg, run.ungrown.min, run.ungrown.top]
  decide

/-! ## A run that fills a block -/

/-- The hash in block 0 whose four chunks are all `v`. -/
def sameChunks (v : Nat) : Word :=
  BitVec.ofNat 64 (512 * (v + 512 * (v + 512 * (v + 512 * v))))

/-- Hashes that touch the first `n` indexes of block 0, one each. -/
def fillers : Nat → List Word
  | 0 => []
  | n + 1 => sameChunks n :: fillers n

theorem toNat_sameChunks {v : Nat} (hv : v < 512) :
    (sameChunks v).toNat = 512 * (v + 512 * (v + 512 * (v + 512 * v))) := by
  rw [sameChunks, BitVec.toNat_ofNat]
  exact Nat.mod_eq_of_lt (by omega)

theorem chunk_sameChunks {v i : Nat} (hv : v < 512) (hi : i < hashCount) :
    chunk defMinFilterBits (sameChunks v >>> defTopBlockBits) i = v := by
  have hrest : ∀ w, (v + 512 * w) / 512 = w := by
    intro w
    omega
  have hpow : 2 ^ (2 * 9) = 512 * 512 ∧ 2 ^ (3 * 9) = 512 * 512 * 512 := by decide
  rw [chunk_min, toNat_sameChunks hv, Nat.mul_div_cancel_left _ (by decide : 0 < 512)]
  obtain rfl | rfl | rfl | rfl : i = 0 ∨ i = 1 ∨ i = 2 ∨ i = 3 := by
    simp only [hashCount] at hi
    omega
  · omega
  · rw [show 2 ^ (1 * 9) = 512 from rfl, hrest]
    omega
  · rw [hpow.1, ← Nat.div_div_eq_div_mul, hrest, hrest]
    omega
  · rw [hpow.2, ← Nat.div_div_eq_div_mul, ← Nat.div_div_eq_div_mul, hrest, hrest, hrest]
    exact Nat.mod_eq_of_lt hv

theorem blockId_sameChunks {v : Nat} (hv : v < 512) :
    (bloomInit none).blockId (sameChunks v) = 0 := by
  rw [ungrown_init.blockId_eq, toNat_sameChunks hv]
  omega

theorem touched_fillers {n : Nat} (hn : n ≤ 512) (v : Nat) :
    Touched (fillers n) 0 v ↔ v < n := by
  induction n with
  | zero => simp [Touched, fillers]
  | succ n ih =>
    rw [fillers, touched_cons, ih (by omega), blockId_sameChunks (by omega)]
    constructor
    · rintro (hlt | ⟨-, i, hi, rfl⟩)
      · omega
      · rw [chunk_sameChunks (by omega) hi]
        omega
    · intro hlt
      by_cases hv : v < n
      · exact .inl hv
      · refine .inr ⟨rfl, 0, by decide, ?_⟩
        rw [chunk_sameChunks (by omega) (by decide)]
        omega

theorem fillers_run {n : Nat} (hn : n ≤ 512) : ∃ b, PoliteRun (fillers n) b := by
  induction n with
  | zero => exact ⟨_, .init⟩
  | succ n ih =>
    obtain ⟨b, run⟩ := ih (by omega)
    obtain ⟨f', -, hmark⟩ := mark_spec run.ungrown.inv (sameChunks n)
    have hid : b.blockId (sameChunks n) = 0 := by
      rw [run.ungrown.blockId, blockId_sameChunks (by omega)]
    refine ⟨_, .mark run ?_ hmark⟩
    by_cases hnew : b.blocks (b.blockId (sameChunks n)) = []
    · rw [check_spec run.ungrown.inv, hnew]
      rfl
    · refine (run.ungrown.denied_iff hnew).mpr ⟨0, by decide, ?_⟩
      rw [hid, chunk_sameChunks (by omega) (by decide), touched_fillers (by omega)]
      exact Nat.lt_irrefl n

theorem fillers_in_block {n : Nat} (hn : n + 1 ≤ 512) {b : Bloom}
    (run : PoliteRun (fillers (n + 1)) b) : ∃ f, b.blocks 0 = [f] := by
  have hused : b.blocks 0 ≠ [] := (run.ungrown.used 0).mpr
    ⟨sameChunks n, List.mem_cons_self, blockId_sameChunks (by omega)⟩
  obtain ⟨f, hf, -⟩ := run.ungrown.filter_zero hused
  exact ⟨f, hf⟩

theorem block_denies_three_marks : ∃ b f, PoliteRun (fillers 3) b ∧ b.blocks 0 = [f] ∧
    ((∃ hash, b.blockId hash = 0 ∧ bloomCheckHash b hash = .ok false) ↔
      ∃ v < 2 ^ defMinFilterBits, ¬ Touched (fillers 3) 0 v) := by
  obtain ⟨b, run⟩ := fillers_run (n := 3) (by decide)
  obtain ⟨f, hf⟩ := fillers_in_block (by decide) run
  exact ⟨b, f, run, hf, (block_denies_iff run hf).2.2⟩

/-- 512 marks, each after a denial, fill block 0: its filter could grow, and every further
hash of the block is reported as marked. -/
theorem block_saturates : ∃ b f, PoliteRun (fillers 512) b ∧ b.blocks 0 = [f] ∧
    b.topBlock2 + hashCount * (f.size2 + 1) ≤ 64 ∧
    ∀ hash, b.blockId hash = 0 → bloomCheckHash b hash = .ok true := by
  obtain ⟨b, run⟩ := fillers_run (n := 512) (by decide)
  obtain ⟨f, hf⟩ := fillers_in_block (by decide) run
  have hne : b.blocks 0 ≠ [] := by
    rw [hf]
    exact List.cons_ne_nil f []
  obtain ⟨g, hchain, hg⟩ := run.ungrown.filter_zero hne
  obtain ⟨rfl, -⟩ := List.cons.inj (hf.symm.trans hchain)
  refine ⟨b, f, run, hf, ?_, fun hash hid => ?_⟩
  · rw [filter_size run.ungrown.inv hg, run.ungrown.min, run.ungrown.top]
    decide
  · cases hcheck : (b.blocks (b.blockId hash)).any fun f => f.hits (hash >>> b.topBlock2) with
    | true => rw [check_spec run.ungrown.inv, hcheck]
    | false =>
      have hdenied : bloomCheckHash b hash = .ok false := by
        rw [check_spec run.ungrown.inv, hcheck]
      obtain ⟨v, hv, huntouched⟩ := (run.ungrown.denies_iff hne).mp ⟨hash, hid, hdenied⟩
      rw [touched_fillers (Nat.le_refl 512)] at huntouched
      exact absurd hv huntouched

end Theft
