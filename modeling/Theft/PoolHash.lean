import Theft.ArgHashes
import Theft.Replay

/-!
# The hash of a pool tells instances apart

`theft_autoshrink_hash` sinks the consumed bits of a pool, and zeroes up to the end of the last
byte. It records neither how many bits were consumed nor in which requests, and still a callback
that reads into zeroed buffers makes one instance only of all pools with the same sunk bytes.
-/

namespace Theft

open PackedBits Exec

theorem getLsbD_low_mask : ∀ r < 8, ∀ j < 8, ((1#8 <<< r) - 1).getLsbD j = decide (j < r) := by
  decide

theorem bitAt_take (bytes : List Byte) (k i : Nat) :
    bitAt (bytes.take k) i = (decide (i < 8 * k) && bitAt bytes i) := by
  by_cases hi : i < 8 * k
  · rw [decide_eq_true hi, Bool.true_and]
    have hlt : i / 8 < k := by omega
    simp only [bitAt, List.getD_eq_getElem?_getD, List.getElem?_take, if_pos hlt]
  · have hlen := List.length_take_le k bytes
    rw [decide_eq_false hi, Bool.false_and, bitAt_of_le (by decide) (by omega)]

/-- The sunk bytes are the consumed bits, and zeroes. -/
theorem bitAt_sunkBytes {pool : BitPool} {bytes : List Byte} (h : sunkBytes pool = .ok bytes)
    (i : Nat) : bitAt bytes i = consumedBits pool i := by
  unfold consumedBits
  unfold sunkBytes at h
  split at h
  · rename_i hlen
    split at h
    · rename_i hrem
      split at h
      · cases h
      · rename_i lastByte hlast
        cases h
        have htake : (pool.bits.take (pool.consumed / 8)).length = pool.consumed / 8 :=
          List.length_take_of_le hlen
        by_cases hi : i < 8 * (pool.consumed / 8)
        · rw [bitAt_append_left (by decide) _ _ (by omega), bitAt_take, decide_eq_true hi,
            decide_eq_true (by omega)]
        · obtain ⟨j, rfl⟩ : ∃ j, i = 8 * (pool.consumed / 8) + j :=
            ⟨i - 8 * (pool.consumed / 8), by omega⟩
          by_cases hj : j < 8
          · rw [bitAt_mul_add _ _ hj, bitAt_mul_add _ _ hj,
              List.getD_eq_getElem?_getD, List.getD_eq_getElem?_getD, hlast,
              List.getElem?_append_right (by omega), htake, Nat.sub_self]
            simp only [List.getElem?_cons_zero, Option.getD_some, BitVec.getLsbD_and]
            rw [getLsbD_low_mask _ (by omega) _ hj, Bool.and_comm]
            congr 1
            exact decide_eq_decide.mpr (by omega)
          · rw [bitAt_of_le (by decide), decide_eq_false (by omega), Bool.false_and]
            rw [List.length_append, htake, List.length_singleton]
            omega
    · rename_i hrem
      cases h
      rw [bitAt_take, show 8 * (pool.consumed / 8) = pool.consumed by omega]
  · cases h

section
variable {R α : Type} [Platform R]

/-- A run of the callback on a pool of which nothing was consumed, of any generation: what it
returned, and the pool as it left it. -/
inductive RanOn (R : Type) [Platform R] (alloc : Gen α) : α → BitPool → Prop where
  | run {s s' : AutoState R} {fresh pool : BitPool} {res : α} {shrinking : Bool} :
      s.prng.Inv → s.prng.bitPool = none → (fresh.setShrinking shrinking).Inv →
      fresh.consumed = 0 → allocFromBitPool alloc fresh shrinking s = .ok (res, pool) s' →
      RanOn R alloc res pool

theorem RanOn.played {alloc : Gen α} (hz : alloc.Zeroed) {res : α} {pool : BitPool}
    (h : RanOn R alloc res pool) : Played alloc res pool := by
  cases h with
  | @run s s' fresh pool res shrinking hprng hpool hinv hstart hrun =>
    -- the model plays no part in the run
    have hready : Within { s with env := { s.env with model := .zero } }
        { s with env := { s.env with model := .zero } } := ⟨hprng, hpool, rfl, rfl, rfl⟩
    have hmodel : ∃ s'', allocFromBitPool alloc fresh shrinking
        { s with env := { s.env with model := .zero } } = .ok (res, pool) s'' := by
      simp only [allocFromBitPool, bind_apply, modify_apply, zoom, get_apply] at hrun ⊢
      cases hgen : alloc.run (s.prng.injectBitPool (fresh.setShrinking shrinking)) with
      | error e p => rw [hgen] at hrun; cases hrun
      | ok a p =>
        rw [hgen] at hrun
        cases hrun
        exact ⟨_, rfl⟩
    obtain ⟨s'', hrun'⟩ := hmodel
    obtain ⟨-, e, herr⟩ | ⟨res', pool', t, hok, -, -, -, -, hplayed⟩ :=
      allocFromBitPool_spec hready hz.sized shrinking hinv hstart
    · rw [hrun'] at herr
      cases herr
    · rw [hrun'] at hok
      cases hok
      exact (hplayed hz).1

/-- **Equal sunk bytes, equal instances.** -/
theorem sunk_bytes_determine_instance {alloc : Gen α} (hz : alloc.Zeroed) {res₁ res₂ : α}
    {pool₁ pool₂ : BitPool} (h₁ : RanOn R alloc res₁ pool₁) (h₂ : RanOn R alloc res₂ pool₂)
    {bytes : List Byte} (hbytes₁ : sunkBytes pool₁ = .ok bytes)
    (hbytes₂ : sunkBytes pool₂ = .ok bytes) : res₁ = res₂ := by
  have hsame : consumedBits pool₁ = consumedBits pool₂ := by
    funext i
    rw [← bitAt_sunkBytes hbytes₁, ← bitAt_sunkBytes hbytes₂]
  rw [(h₁.played hz).result, (h₂.played hz).result, hsame]

end

/-- A shrunken copy of one word, of which only the lowest bit is set, that ends at `limit`. -/
def lowBitPool (limit : Nat) : BitPool :=
  { id := 0, bits := 1 :: List.replicate 7 0, shrinking := true, bitsFilled := 64, bitsCeil := 64,
    limit := limit, consumed := 0, requests := [], requestCeil := 32, generation := 1, index := none }

theorem lowBitPool_inv {limit : Nat} (h : limit ≤ 64) :
    ((lowBitPool limit).setShrinking true).Inv :=
  ⟨rfl, (rfl : 64 % 64 = 0), (by decide : 64 ≤ maxBits), Nat.le_refl 64, (rfl : 64 % 8 = 0),
    Nat.zero_le _, Nat.zero_le _, rfl, nofun, Nat.zero_le _, (by decide : 0 < 32), fun _ => h, nofun⟩

/-- Three bits were consumed of one pool, and one of the other. -/
theorem sunk_bytes_determine_instance_low : ∃ (res₁ res₂ : AllocRes × Word) (pool₁ pool₂ : BitPool),
    pool₁.consumed = 3 ∧ pool₂.consumed = 1 ∧ sunkBytes pool₁ = sunkBytes pool₂ ∧ res₁ = res₂ := by
  have hrun₁ : ∃ res pool s', allocFromBitPool threeBits (lowBitPool 64) true smallAuto =
      .ok (res, pool) s' ∧ pool.consumed = 3 ∧ sunkBytes pool = .ok [1] :=
    ⟨_, _, _, rfl, rfl, rfl⟩
  have hrun₂ : ∃ res pool s', allocFromBitPool threeBits (lowBitPool 1) true smallAuto =
      .ok (res, pool) s' ∧ pool.consumed = 1 ∧ sunkBytes pool = .ok [1] :=
    ⟨_, _, _, rfl, rfl, rfl⟩
  obtain ⟨res₁, pool₁, _, hrun₁, hconsumed₁, hbytes₁⟩ := hrun₁
  obtain ⟨res₂, pool₂, _, hrun₂, hconsumed₂, hbytes₂⟩ := hrun₂
  have h₁ : RanOn Unit threeBits res₁ pool₁ := .run smallAuto_ready.prng smallAuto_ready.noPool
    (lowBitPool_inv (by decide)) rfl hrun₁
  have h₂ : RanOn Unit threeBits res₂ pool₂ := .run smallAuto_ready.prng smallAuto_ready.noPool
    (lowBitPool_inv (by decide)) rfl hrun₂
  exact ⟨res₁, res₂, pool₁, pool₂, hconsumed₁, hconsumed₂, hbytes₁.trans hbytes₂.symm,
    sunk_bytes_determine_instance threeBits_zeroed h₁ h₂ hbytes₁ hbytes₂⟩

end Theft
