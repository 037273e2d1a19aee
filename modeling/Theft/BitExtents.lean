import Theft.PoolEdit
import Theft.PoolRead

/-!
# Extents of bits as memory cells

The mutations read and write a pool through extents of up to 64 bits at any bit offset, and the
requests are served word by word. `extents_are_cells` is the algebra of the first: what was
written is read back, nothing else changes, and writes apart from each other commute.
`readers_agree` ties the two together: each word that `fill_buf` delivers is the extent that
`read_bits_at_offset` reads there.
-/

namespace Theft

open PackedBits

/-- Bit `i` is one of the `size` bits at an offset. -/
def InExtent (offset size i : Nat) : Prop := offset ≤ i ∧ i < offset + size

/-! ## Writes and reads -/

/-- Pools that differ in nothing but their bits are equal when their bits are. -/
theorem BitPool.Edited.eq {a b : BitPool} (h : a.Edited b)
    (hbits : ∀ i, bitAt b.bits i = bitAt a.bits i) : b = a := by
  have hsame : b.bits = a.bits := ext_bitAt h.length fun i _ => hbits i
  rw [h.rest, hsame]

theorem getLsbD_mod_two_pow (v : Word) (size j : Nat) :
    (BitVec.ofNat 64 (v.toNat % 2 ^ size)).getLsbD j = (decide (j < size) && v.getLsbD j) := by
  have hlow : v.toNat % 2 ^ size < 2 ^ 64 := Nat.lt_of_le_of_lt (Nat.mod_le _ _) v.isLt
  rw [BitVec.getLsbD, BitVec.toNat_ofNat, Nat.mod_eq_of_lt hlow, Nat.testBit_mod_two_pow,
    BitVec.testBit_toNat]

theorem read_after_write {pool pool' : BitPool} {offset size : Nat} {v : Word}
    (hin : offset + size ≤ 8 * pool.bits.length)
    (hwrite : writeBitsAtOffset pool offset size v = .ok pool') :
    readBitsAtOffset pool' offset size = .ok (BitVec.ofNat 64 (v.toNat % 2 ^ size)) := by
  obtain ⟨pool₁, hrun, hedited, hbits⟩ := writeBitsAtOffset_spec pool offset size hin v
  cases hwrite.symm.trans hrun
  obtain ⟨w, hread, hw⟩ := readBitsAtOffset_spec pool' offset size (by rw [hedited.length]; exact hin)
  have hvalue : w = BitVec.ofNat 64 (v.toNat % 2 ^ size) := by
    apply BitVec.eq_of_getLsbD_eq
    intro j hj
    rw [hw j hj, getLsbD_mod_two_pow, hbits]
    by_cases hlt : j < size
    · simp [hlt]
    · simp [hlt]
  rw [hread, hvalue]

/-- What was read is written back. -/
theorem write_of_read {pool : BitPool} {offset size : Nat} {w : Word} (hsize : size ≤ 64)
    (hin : offset + size ≤ 8 * pool.bits.length)
    (hread : readBitsAtOffset pool offset size = .ok w) :
    writeBitsAtOffset pool offset size w = .ok pool := by
  obtain ⟨w', hrun, hw⟩ := readBitsAtOffset_spec pool offset size hin
  cases hread.symm.trans hrun
  obtain ⟨pool', hwrite, hedited, hbits⟩ := writeBitsAtOffset_spec pool offset size hin w
  have hsame : pool' = pool := by
    apply hedited.eq
    intro i
    rw [hbits]
    split
    · rename_i hi
      have hlt : i - offset < size := by omega
      rw [hw _ (by omega), decide_eq_true hlt, Bool.true_and, Nat.add_sub_cancel' hi.1]
    · rfl
  rw [hwrite, hsame]

/-- One write after the other, at extents that share no bit. -/
theorem writes_commute (pool : BitPool) {x m y n : Nat} (v w : Word)
    (hx : x + m ≤ 8 * pool.bits.length) (hy : y + n ≤ 8 * pool.bits.length)
    (hapart : ∀ i, InExtent x m i → ¬ InExtent y n i) :
    ∃ pool₁ pool₂ pool', writeBitsAtOffset pool x m v = .ok pool₁ ∧
      writeBitsAtOffset pool₁ y n w = .ok pool' ∧ writeBitsAtOffset pool y n w = .ok pool₂ ∧
      writeBitsAtOffset pool₂ x m v = .ok pool' := by
  obtain ⟨pool₁, hrun₁, hedited₁, hbits₁⟩ := writeBitsAtOffset_spec pool x m hx v
  obtain ⟨pool₂, hrun₂, hedited₂, hbits₂⟩ := writeBitsAtOffset_spec pool y n hy w
  obtain ⟨pool', hrun, hedited, hbits⟩ :=
    writeBitsAtOffset_spec pool₁ y n (by rw [hedited₁.length]; exact hy) w
  obtain ⟨pool'', hrun', hedited', hbits'⟩ :=
    writeBitsAtOffset_spec pool₂ x m (by rw [hedited₂.length]; exact hx) v
  have h₁ := hedited₁.trans hedited
  have h₂ := hedited₂.trans hedited'
  have hsame : pool'' = pool' := by
    have hbytes : pool''.bits = pool'.bits := by
      apply ext_bitAt (by rw [h₂.length, h₁.length])
      intro i _
      rw [hbits', hbits, hbits₁, hbits₂]
      by_cases hi : x ≤ i ∧ i < x + m
      · have hout : ¬ (y ≤ i ∧ i < y + n) := hapart i hi
        rw [if_pos hi, if_neg hout, if_pos hi]
      · rw [if_neg hi, if_neg hi]
    rw [h₂.rest, h₁.rest, hbytes]
  exact ⟨pool₁, pool₂, pool', hrun₁, hrun, hrun₂, by rw [hrun', hsame]⟩

/-- **Extents behave like memory cells**, at every alignment and for every size up to a word. -/
theorem extents_are_cells (pool : BitPool) {offset size : Nat} (hsize : size ≤ 64)
    (hin : offset + size ≤ 8 * pool.bits.length) (v : Word) :
    (∃ pool', writeBitsAtOffset pool offset size v = .ok pool' ∧
      readBitsAtOffset pool' offset size = .ok (BitVec.ofNat 64 (v.toNat % 2 ^ size)) ∧
      pool.Edited pool' ∧
      ∀ i, ¬ InExtent offset size i → bitAt pool'.bits i = bitAt pool.bits i) ∧
    (∃ w, readBitsAtOffset pool offset size = .ok w ∧
      writeBitsAtOffset pool offset size w = .ok pool) ∧
    ∀ (other size' : Nat) (v' : Word), size' ≤ 64 → other + size' ≤ 8 * pool.bits.length →
      (∀ i, InExtent offset size i → ¬ InExtent other size' i) →
      ∃ pool₁ pool₂ pool', writeBitsAtOffset pool offset size v = .ok pool₁ ∧
        writeBitsAtOffset pool₁ other size' v' = .ok pool' ∧
        writeBitsAtOffset pool other size' v' = .ok pool₂ ∧
        writeBitsAtOffset pool₂ offset size v = .ok pool' := by
  refine ⟨?_, ?_, fun other size' v' _ hin' hapart => writes_commute pool v v' hin hin' hapart⟩
  · obtain ⟨pool', hwrite, hedited, hbits⟩ := writeBitsAtOffset_spec pool offset size hin v
    refine ⟨pool', hwrite, read_after_write hin hwrite, hedited, fun i hi => ?_⟩
    rw [hbits]
    exact if_neg hi
  · obtain ⟨w, hread, -⟩ := readBitsAtOffset_spec pool offset size hin
    exact ⟨w, hread, write_of_read hsize hin hread⟩

/-- Two words of a pool. -/
def twoWords : BitPool where
  id := 0
  bits := (List.range 16).map (BitVec.ofNat 8)
  shrinking := false
  bitsFilled := 128
  bitsCeil := 128
  limit := defPoolLimit
  consumed := 3
  requests := [3]
  requestCeil := 16
  generation := 0
  index := none

/-- Eleven bits from the last of a byte on. -/
theorem extents_are_cells_eleven : ∃ pool', writeBitsAtOffset twoWords 7 11 0xABCD = .ok pool' ∧
    readBitsAtOffset pool' 7 11 = .ok 0x3CD := by
  obtain ⟨pool', hwrite, hread, -⟩ :=
    (extents_are_cells twoWords (by decide : 11 ≤ 64) (by decide : 7 + 11 ≤ 128) 0xABCD).1
  exact ⟨pool', hwrite, hread⟩

/-! ## The words of a request -/

/-- A buffer that is too short is written past its end. -/
theorem copyBits_overruns {src : List Byte} {c n : Nat} (hsrc : c + n ≤ 8 * src.length)
    (h8 : src.length % 8 = 0) :
    ∀ fuel i dst, n - i < fuel → i / 64 < dst.length → 64 * dst.length < n →
      copyBits src n fuel i ((c + i) / 64) ((c + i) % 64) (i / 64) dst = .error .outOfBounds := by
  intro fuel
  induction fuel with
  | zero => intro i dst hfuel; omega
  | succ fuel ih =>
    intro i dst hfuel hk hshort
    have hlt : i < n := by omega
    obtain ⟨s, hs, -⟩ := getWord_eq_some src ((c + i) / 64) (by omega)
    have hd : dst[i / 64]? = some dst[i / 64] := List.getElem?_eq_getElem hk
    generalize dst[i / 64] = d at hd
    rw [copyBits, if_pos hlt]
    simp only [hs, hd]
    generalize ht : (if (if n - i < 64 - i % 64 then n - i else 64 - i % 64) <
      64 - (c + i) % 64 then (if n - i < 64 - i % 64 then n - i else 64 - i % 64)
      else 64 - (c + i) % 64) = t
    have hbounds : 0 < t ∧ t ≤ n - i ∧ t ≤ 64 - i % 64 ∧ t ≤ 64 - (c + i) % 64 := by
      split at ht <;> split at ht <;> omega
    obtain ⟨hpos, hreq, hdrem, hsrem⟩ := hbounds
    have hso : (if (c + i) % 64 + t = 64 then (c + i) / 64 + 1 else (c + i) / 64) =
        (c + (i + t)) / 64 := by split <;> omega
    have hsb : (if (c + i) % 64 + t = 64 then 0 else (c + i) % 64 + t) =
        (c + (i + t)) % 64 := by split <;> omega
    rw [hso, hsb]
    by_cases hfull : i % 64 + t = 64
    · have hnext : i / 64 + 1 = (i + t) / 64 := by omega
      have hmore : i + t < n := by omega
      rw [if_pos hfull, if_pos hmore, hnext, List.length_set]
      split
      · exact ih (i + t) _ (by omega) (by simpa) (by simpa)
      · rfl
    · have hnext : i / 64 = (i + t) / 64 := by omega
      rw [if_neg hfull]
      rw [hnext] at hk ⊢
      exact ih (i + t) _ (by omega) (by simpa) (by simpa)

theorem fillBuf_overruns (pool : BitPool) {n : Nat} (dst : List Word)
    (hsrc : pool.consumed + n ≤ 8 * pool.bits.length) (h8 : pool.bits.length % 8 = 0)
    (hdst : dst.length < wordCount n) : fillBuf pool n dst = .error .outOfBounds := by
  rw [wordCount_eq] at hdst
  unfold fillBuf
  split
  · rename_i hlen
    have hrun := copyBits_overruns hsrc h8 (n + 1) 0 (dst.set 0 0) (by omega) (by simpa)
      (by simp; omega)
    simp only [Nat.add_zero, Nat.zero_div] at hrun
    rw [hrun]
  · rfl

/-- **The word-wise and the bit-wise reader agree.** The memory of the pool is whole words and
holds what is filled. -/
theorem readers_agree (pool : BitPool) (hfilled : pool.bitsFilled ≤ 8 * pool.bits.length)
    (h8 : pool.bits.length % 8 = 0) {n : Nat} (hn : 1 ≤ n)
    (hin : pool.consumed + n ≤ pool.bitsFilled) (dst : List Word) :
    (dst.length < wordCount n → fillBuf pool n dst = .error .outOfBounds) ∧
    (wordCount n ≤ dst.length →
      ∃ dst', fillBuf pool n dst = .ok ({ pool with consumed := pool.consumed + n }, dst') ∧
        dst'.length = dst.length ∧ (∀ k, wordCount n ≤ k → dst'[k]? = dst[k]?) ∧
        ∀ k < wordCount n, ∃ w,
          readBitsAtOffset pool (pool.consumed + 64 * k) (min 64 (n - 64 * k)) = .ok w ∧
            dst'[k]? = some w ∧ ∀ j, n - 64 * k ≤ j → w.getLsbD j = false) := by
  have hsrc : pool.consumed + n ≤ 8 * pool.bits.length := by omega
  refine ⟨fillBuf_overruns pool dst hsrc h8, fun hdst => ?_⟩
  obtain ⟨dst', hrun, hlen, hbits⟩ := fillBuf_spec pool dst hn hsrc h8 hdst
  have hwords := wordCount_eq n
  -- word `k` of the buffer, bit by bit
  have hword : ∀ k j, j < 64 → (dst'.getD k 0).getLsbD j =
      if 64 * k + j < n then bitAt pool.bits (pool.consumed + (64 * k + j))
      else if k < wordCount n then false else (dst.getD k 0).getLsbD j := by
    intro k j hj
    have hiff : 64 * k + j < 64 * wordCount n ↔ k < wordCount n := by omega
    rw [← bitAt_mul_add dst' k hj, hbits, bitAt_mul_add dst k hj]
    simp only [hiff]
  refine ⟨dst', hrun, hlen, fun k hk => ?_, fun k hk => ?_⟩
  · by_cases hlt : k < dst.length
    · have hlt' : k < dst'.length := by omega
      have hsame : dst'.getD k 0 = dst.getD k 0 := by
        apply BitVec.eq_of_getLsbD_eq
        intro j hj
        rw [hword k j hj, if_neg (by omega), if_neg (by omega)]
      simpa [hlt, hlt'] using hsame
    · rw [List.getElem?_eq_none (by omega), List.getElem?_eq_none (by omega)]
  · obtain ⟨w, hread, hw⟩ := readBitsAtOffset_spec pool (pool.consumed + 64 * k)
      (min 64 (n - 64 * k)) (by omega)
    have hlt : k < dst'.length := by omega
    have hsame : dst'.getD k 0 = w := by
      apply BitVec.eq_of_getLsbD_eq
      intro j hj
      have hiff : 64 * k + j < n ↔ j < min 64 (n - 64 * k) := by omega
      rw [hword k j hj, hw j hj, if_pos hk]
      simp only [hiff, Nat.add_assoc]
      by_cases hin : j < min 64 (n - 64 * k) <;> simp [hin]
    refine ⟨w, hread, ?_, fun j hj => ?_⟩
    · rw [List.getElem?_eq_getElem hlt, ← hsame]
      simp [hlt]
    · by_cases hj64 : j < 64
      · have hout : ¬ j < min 64 (n - 64 * k) := by omega
        rw [hw j hj64, decide_eq_false hout, Bool.false_and]
      · exact BitVec.getLsbD_of_ge w j (by omega)

/-- A request for 70 bits after the first three. -/
theorem readers_agree_seventy : ∃ dst' w,
    fillBuf twoWords 70 [0, 0] = .ok ({ twoWords with consumed := 73 }, dst') ∧
    readBitsAtOffset twoWords 67 6 = .ok w ∧ dst'[1]? = some w := by
  obtain ⟨dst', hrun, -, -, hwords⟩ := (readers_agree twoWords (by decide) (by decide)
    (by decide : 1 ≤ 70) (by decide) [0, 0]).2 (by decide)
  obtain ⟨w, hread, hw, -⟩ := hwords 1 (by decide)
  exact ⟨dst', w, hrun, hread, hw⟩

end Theft
