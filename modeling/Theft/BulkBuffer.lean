import Theft.Source

/-!
# What a bulk request leaves in the caller's buffer

`theft.h` says that the buffer is zeroed before any bits are copied to it. There are
four ways through the code, and each clears a different part of the buffer:

* without a pool nothing is cleared, the bits are OR-ed in;
* from a pool that has enough bits every word is cleared;
* a request cut short at the limit clears only the words of what is left;
* at the limit `memset` is given a number of words where it counts bytes.

`bulk_ignores_buffer_iff` says exactly when the old contents do not show.
-/

namespace Theft

open PackedBits Exec

section
variable {R : Type} [Platform R]

/-- The promise of `theft.h` for one request: the words left in the buffer are the same whatever
was in it, and every requested bit at or past the end of a pool is 0. -/
def BulkIgnoresBuffer (p : Prng R) (n : Nat) : Prop :=
  ∀ buf₁ buf₂ : List Word, buf₁.length = wordCount n → buf₂.length = wordCount n →
    ∀ out₁ out₂ p₁ p₂, randomBitsBulk n buf₁ p = .ok out₁ p₁ →
      randomBitsBulk n buf₂ p = .ok out₂ p₂ →
      out₁ = out₂ ∧ ∀ pool, p.bitPool = some pool →
        ∀ i < n, pool.limit ≤ pool.consumed + i → bitAt out₁ i = false

/-- When the old contents are overwritten: the pool has not ended and what it has left reaches
into the last word of the request; or, without a pool, when every bit of every word is requested
and the generator happens to deliver only ones. -/
def BulkOverwrites (p : Prng R) (n : Nat) : Prop :=
  match p.bitPool with
  | none => n % 64 = 0 ∧ ∀ i < n, p.stream i = true
  | some pool => pool.consumed ≠ pool.limit ∧ wordCount (pool.granted n) = wordCount n

theorem bitAt_replicate_ones (len : Nat) {i : Nat} (h : i < 64 * len) :
    bitAt (List.replicate len (BitVec.allOnes 64)) i = true := by
  have hlt : i / 64 < len := by omega
  have hmod : i % 64 < 64 := by omega
  rw [bitAt, List.getD_eq_getElem?_getD, List.getElem?_replicate, if_pos hlt, Option.getD_some,
    BitVec.getLsbD_allOnes, decide_eq_true hmod]

theorem noPool_overwrites {p : Prng R} (hp : p.Inv) (hpool : p.bitPool = none) {n : Nat}
    (hn : 0 < n) : BulkIgnoresBuffer p n ↔ n % 64 = 0 ∧ ∀ i < n, p.stream i = true := by
  have hroom := le_wordCount n
  constructor
  · intro h
    obtain ⟨out₁, p₁, hrun₁, -, -, -, -, hbits₁⟩ := randomBitsBulk_noPool hpool hp.available
      n (List.replicate (wordCount n) 0) (by simpa using hroom)
    obtain ⟨out₂, p₂, hrun₂, -, -, -, -, hbits₂⟩ := randomBitsBulk_noPool hpool hp.available
      n (List.replicate (wordCount n) (BitVec.allOnes 64)) (by simpa using hroom)
    obtain ⟨heq, -⟩ := h _ _ (by simp) (by simp) _ _ _ _ hrun₁ hrun₂
    have hones : ∀ i < 64 * wordCount n, i < n ∧ p.stream i = true := by
      intro i hi
      have h₁ := hbits₁ i
      rw [heq, hbits₂, bitAt_replicate_ones _ hi, bitAt_replicate_zero] at h₁
      simpa using h₁.symm
    have hlast := (hones (64 * wordCount n - 1) (by omega)).1
    exact ⟨by omega, fun i hi => (hones i (by omega)).2⟩
  · rintro ⟨hmod, hones⟩ buf₁ buf₂ hlen₁ hlen₂ out₁ out₂ p₁ p₂ hrun₁ hrun₂
    have hwords : 64 * wordCount n = n := by
      rw [wordCount_eq]
      omega
    obtain ⟨out₁', p₁', hrun₁', hlen₁', -, -, -, hbits₁⟩ :=
      randomBitsBulk_noPool hpool hp.available n buf₁ (by omega)
    obtain ⟨out₂', p₂', hrun₂', hlen₂', -, -, -, hbits₂⟩ :=
      randomBitsBulk_noPool hpool hp.available n buf₂ (by omega)
    rw [hrun₁] at hrun₁'
    rw [hrun₂] at hrun₂'
    cases hrun₁'
    cases hrun₂'
    refine ⟨ext_bitAt (by omega) fun i hi => ?_, fun pool h => ?_⟩
    · have hi' : i < n := by omega
      rw [hbits₁, hbits₂, hones i hi', decide_eq_true hi', Bool.and_self, Bool.or_true,
        Bool.or_true]
    · rw [hpool] at h
      cases h

theorem pool_overwrites {p : Prng R} (hp : p.Inv) {pool : BitPool} (hpool : p.bitPool = some pool)
    {n : Nat} (hn : 0 < n)
    (hmem : randomBitsBulk n (List.replicate (wordCount n) 0) p ≠ .error .allocation p) :
    BulkIgnoresBuffer p n ↔
      pool.consumed ≠ pool.limit ∧ wordCount (pool.granted n) = wordCount n := by
  have inv := hp.pool pool hpool
  have hroom := le_wordCount n
  -- what a request leaves in a buffer of any contents
  have hread : ∀ buf : List Word, buf.length = wordCount n →
      ∃ out p', randomBitsBulk n buf p = .ok out p' ∧ out.length = wordCount n ∧
        ∀ i, bitAt out i =
          if pool.consumed = pool.limit then bitAt buf i && decide (8 * wordCount n ≤ i)
          else if i < pool.granted n then tape p.rng pool (pool.consumed + i)
          else if i < 64 * wordCount (pool.granted n) then false else bitAt buf i := by
    intro buf hlen
    rcases bitPoolRandom_spec p.rng inv hn buf (by omega) with ⟨-, herr⟩ |
      ⟨rng', pool', out, -, hrun, hlen', hbits⟩
    · exact absurd (by simp only [randomBitsBulk, hpool, herr]) hmem
    · exact ⟨out, _, by simp only [randomBitsBulk, hpool, hrun]; rfl, by omega, hbits⟩
  have hgle : wordCount (pool.granted n) ≤ wordCount n := by
    have hle : pool.granted n ≤ n := Nat.min_le_left _ _
    rw [wordCount_eq, wordCount_eq]
    omega
  constructor
  · intro h
    obtain ⟨out₁, p₁, hrun₁, -, hbits₁⟩ := hread (List.replicate (wordCount n) 0) (by simp)
    obtain ⟨out₂, p₂, hrun₂, -, hbits₂⟩ :=
      hread (List.replicate (wordCount n) (BitVec.allOnes 64)) (by simp)
    obtain ⟨heq, -⟩ := h _ _ (by simp) (by simp) _ _ _ _ hrun₁ hrun₂
    rw [heq] at hbits₁
    have hend : pool.consumed ≠ pool.limit := by
      intro hend
      have hbit := hbits₁ (64 * wordCount n - 1)
      have h8 : 8 * wordCount n ≤ 64 * wordCount n - 1 := by omega
      rw [hbits₂, if_pos hend, if_pos hend, bitAt_replicate_ones _ (by omega),
        bitAt_replicate_zero, decide_eq_true h8] at hbit
      cases hbit
    refine ⟨hend, ?_⟩
    rcases Nat.lt_or_ge (wordCount (pool.granted n)) (wordCount n) with hlt | hge
    · have hbit := hbits₁ (64 * wordCount (pool.granted n))
      have hg := le_wordCount (pool.granted n)
      have h₁ : ¬ 64 * wordCount (pool.granted n) < pool.granted n := by omega
      rw [hbits₂, if_neg hend, if_neg hend, if_neg h₁, if_neg h₁, if_neg (Nat.lt_irrefl _),
        if_neg (Nat.lt_irrefl _), bitAt_replicate_ones _ (by omega), bitAt_replicate_zero] at hbit
      cases hbit
    · omega
  · rintro ⟨hend, hwords⟩ buf₁ buf₂ hlen₁ hlen₂ out₁ out₂ p₁ p₂ hrun₁ hrun₂
    obtain ⟨out₁', p₁', hrun₁', hlen₁', hbits₁⟩ := hread buf₁ hlen₁
    obtain ⟨out₂', p₂', hrun₂', hlen₂', hbits₂⟩ := hread buf₂ hlen₂
    rw [hrun₁] at hrun₁'
    rw [hrun₂] at hrun₂'
    cases hrun₁'
    cases hrun₂'
    refine ⟨ext_bitAt (by omega) fun i hi => ?_, fun q hq i hi hlimit => ?_⟩
    · have hi' : i < 64 * wordCount (pool.granted n) := by omega
      rw [hbits₁, hbits₂, if_neg hend, if_neg hend, if_pos hi', if_pos hi']
    · rw [hpool] at hq
      cases hq
      have hg : ¬ i < pool.granted n := by
        have hle : pool.granted n ≤ pool.limit - pool.consumed := Nat.min_le_right _ _
        omega
      rw [hbits₁, if_neg hend, if_neg hg, if_pos (by omega)]

/-- **When a bulk request does not depend on what was in the buffer.** -/
theorem bulk_ignores_buffer_iff {p : Prng R} (hp : p.Inv) {n : Nat} (hn : 0 < n)
    (hmem : randomBitsBulk n (List.replicate (wordCount n) 0) p ≠ .error .allocation p) :
    BulkIgnoresBuffer p n ↔ BulkOverwrites p n := by
  unfold BulkOverwrites
  cases hpool : p.bitPool with
  | none => exact noPool_overwrites hp hpool hn
  | some pool => exact pool_overwrites hp hpool hn hmem

end

/-- A runner that has just been seeded. -/
def seeded (seed : Word) : Prng Rng := (⟨⟨[], 0⟩, 0, 0, none⟩ : Prng Rng).setSeed seed

theorem seeded_inv (seed : Word) : (seeded seed).Inv :=
  ⟨Nat.zero_le _, fun _ h => by cases h⟩

/-- A pool that ends after 130 bits. -/
def shortPool : BitPool := (allocBitPool 0 64 130 16).get (by decide)

theorem shortPool_inv : shortPool.Inv :=
  (allocBitPool_inv (Option.some_get _).symm (by decide)).1

/-- A seeded runner that reads from the pool of 130 bits. -/
def pooled : Prng Rng := (seeded 1).injectBitPool shortPool

theorem pooled_inv : pooled.Inv := by
  refine ⟨Nat.zero_le _, fun pool hpool => ?_⟩
  cases hpool
  exact shortPool_inv

/-- A request of 190 bits is cut short in its last word. -/
theorem bulk_ignores_buffer_pooled : BulkIgnoresBuffer pooled 190 := by
  have hpass : passes (fun _ _ => true)
      (randomBitsBulk 190 (List.replicate (wordCount 190) 0) pooled) = true := by decide +kernel
  obtain ⟨out, p', hrun, -⟩ := of_passes hpass
  refine (bulk_ignores_buffer_iff pooled_inv (by decide) fun h => ?_).mpr ?_
  · rw [hrun] at h
    cases h
  · exact ⟨by decide, by decide⟩

/-- One bit requested from a seeded runner leaves the other 63 of the buffer as they were. -/
theorem bulk_buffer_shows : ¬ BulkIgnoresBuffer (seeded 1) 1 := by
  intro h
  have hmod := ((noPool_overwrites (seeded_inv 1) rfl (by decide)).mp h).1
  omega

end Theft
