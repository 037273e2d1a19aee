import Theft.Autoshrink

/-!
# What the edits of a copy do, bit by bit

The loops of `theft_autoshrink.c` walk a pool one bit at a time behind a one-hot byte mask.
Here each of them is described on the bit string, and shown to stay inside it.
-/

namespace Theft

open PackedBits

/-! ## Extents of bits -/

theorem and_one_ne_zero (v : Word) (i : Nat) : ((v &&& (1#64 <<< i)) != 0) = v.getLsbD i := by
  rw [← BitVec.twoPow_eq, BitVec.and_twoPow]
  cases hbit : v.getLsbD i with
  | false => rfl
  | true =>
    have hi : i < 64 := BitVec.lt_of_getLsbD hbit
    have hne : BitVec.twoPow 64 i ≠ 0 := by
      intro h
      have h' := congrArg (fun x : Word => x.getLsbD i) h
      simp [hi] at h'
    rw [if_pos rfl]
    exact bne_iff_ne.mpr hne

theorem getLsbD_or_one (acc : Word) (i j : Nat) (hj : j < 64) :
    (acc ||| (1#64 <<< i)).getLsbD j = (acc.getLsbD j || decide (i = j)) := by
  rw [BitVec.getLsbD_or, ← BitVec.twoPow_eq, BitVec.getLsbD_twoPow]
  by_cases hij : i = j
  · subst hij
    simp [hj]
  · simp [hij]

theorem readBits_range' (bytes : List Byte) (offset n : Nat) : ∀ (i : Nat) (acc : Word),
    offset + i + n ≤ 8 * bytes.length →
    ∃ w, readBits bytes (List.range' i n) (.ofOffset (offset + i)) acc = .ok w ∧
      ∀ j < 64, w.getLsbD j =
        (acc.getLsbD j || (decide (i ≤ j ∧ j < i + n) && bitAt bytes (offset + j))) := by
  induction n with
  | zero =>
    intro i acc _
    refine ⟨acc, rfl, fun j _ => ?_⟩
    rw [decide_eq_false (by omega), Bool.false_and, Bool.or_false]
  | succ n ih =>
    intro i acc h
    obtain ⟨w, hrun, hbits⟩ := ih (i + 1)
      (if bitAt bytes (offset + i) then acc ||| (1#64 <<< i) else acc) (by omega)
    refine ⟨w, ?_, fun j hj => ?_⟩
    · rw [List.range'_succ, readBits, Cursor.test_ofOffset (by omega)]
      simp only [Cursor.next_ofOffset]
      exact hrun
    · rw [hbits j hj]
      by_cases hij : i = j
      · subst hij
        rw [decide_eq_false (by omega), decide_eq_true (by omega)]
        cases hbit : bitAt bytes (offset + i) with
        | false => simp
        | true => rw [if_pos rfl, getLsbD_or_one _ _ _ hj]; simp
      · have hiff : (i + 1 ≤ j ∧ j < i + 1 + n) ↔ (i ≤ j ∧ j < i + (n + 1)) := by omega
        simp only [hiff]
        cases hbit : bitAt bytes (offset + i) with
        | false => rfl
        | true => rw [if_pos rfl, getLsbD_or_one _ _ _ hj, decide_eq_false hij, Bool.or_false]

/-- What is read at an offset: the bits from there on. -/
theorem readBitsAtOffset_spec (pool : BitPool) (offset size : Nat)
    (h : offset + size ≤ 8 * pool.bits.length) :
    ∃ w, readBitsAtOffset pool offset size = .ok w ∧
      ∀ j < 64, w.getLsbD j = (decide (j < size) && bitAt pool.bits (offset + j)) := by
  obtain ⟨w, hrun, hbits⟩ := readBits_range' pool.bits offset size 0 0 (by omega)
  refine ⟨w, ?_, fun j hj => ?_⟩
  · rw [readBitsAtOffset, List.range_eq_range']
    exact hrun
  · rw [hbits j hj]
    simp

theorem writeBits_range' (v : Word) (offset n : Nat) : ∀ (i : Nat) (bytes : List Byte),
    offset + i + n ≤ 8 * bytes.length →
    ∃ bytes', writeBits v (List.range' i n) (.ofOffset (offset + i)) bytes = .ok bytes' ∧
      bytes'.length = bytes.length ∧
      ∀ x, bitAt bytes' x =
        if offset + i ≤ x ∧ x < offset + i + n then v.getLsbD (x - offset) else bitAt bytes x := by
  induction n with
  | zero =>
    intro i bytes _
    refine ⟨bytes, rfl, rfl, fun x => ?_⟩
    rw [if_neg (by omega)]
  | succ n ih =>
    intro i bytes h
    obtain ⟨bytes₁, hwrite, hlen₁, hbits₁⟩ :=
      Cursor.write_ofOffset bytes (offset + i) (by omega) (v.getLsbD i)
    obtain ⟨bytes', hrun, hlen', hbits'⟩ := ih (i + 1) bytes₁ (by omega)
    refine ⟨bytes', ?_, by omega, fun x => ?_⟩
    · rw [List.range'_succ, writeBits, and_one_ne_zero, hwrite]
      simp only [Cursor.next_ofOffset]
      exact hrun
    · rw [hbits', hbits₁]
      by_cases hx : x = offset + i
      · subst hx
        rw [if_neg (by omega), if_pos rfl, if_pos (by omega), Nat.add_sub_cancel_left]
      · rw [if_neg hx]
        by_cases hin : offset + (i + 1) ≤ x ∧ x < offset + (i + 1) + n
        · rw [if_pos hin, if_pos (by omega)]
        · rw [if_neg hin, if_neg (by omega)]

/-- A pool with its bits edited in place. -/
structure BitPool.Edited (a b : BitPool) : Prop where
  rest : b = { a with bits := b.bits }
  length : b.bits.length = a.bits.length

theorem BitPool.Edited.refl (a : BitPool) : a.Edited a := ⟨rfl, rfl⟩

theorem BitPool.Edited.trans {a b c : BitPool} (h₁ : a.Edited b) (h₂ : b.Edited c) :
    a.Edited c where
  rest := by
    rw [h₂.rest, h₁.rest]
  length := h₂.length.trans h₁.length

/-- A write at an offset replaces the bits of the extent and no others. -/
theorem writeBitsAtOffset_spec (pool : BitPool) (offset size : Nat)
    (h : offset + size ≤ 8 * pool.bits.length) (v : Word) :
    ∃ pool', writeBitsAtOffset pool offset size v = .ok pool' ∧ pool.Edited pool' ∧
      ∀ x, bitAt pool'.bits x =
        if offset ≤ x ∧ x < offset + size then v.getLsbD (x - offset) else bitAt pool.bits x := by
  obtain ⟨bytes', hrun, hlen, hbits⟩ := writeBits_range' v offset size 0 pool.bits (by omega)
  refine ⟨{ pool with bits := bytes' }, ?_, ⟨rfl, hlen⟩, hbits⟩
  rw [writeBitsAtOffset, List.range_eq_range']
  rw [Nat.add_zero] at hrun
  rw [hrun]
  rfl

/-! ## Edits that report whether they changed a bit -/

theorem exists_getLsbD_ne {a b : Word} {n : Nat} (hne : a ≠ b)
    (hend : ∀ j < 64, n ≤ j → a.getLsbD j = b.getLsbD j) :
    ∃ j < n, a.getLsbD j ≠ b.getLsbD j := by
  by_cases hall : ∀ j < n, a.getLsbD j = b.getLsbD j
  · refine absurd (BitVec.eq_of_getLsbD_eq fun j hj => ?_) hne
    rcases Nat.lt_or_ge j n with hin | hout
    · exact hall j hin
    · exact hend j hj hout
  · simp only [Classical.not_forall] at hall
    obtain ⟨j, hj, hdiff⟩ := hall
    exact ⟨j, hj, hdiff⟩

/-- The pool with an extent of it rewritten, and whether that changed a bit. -/
structure BitPool.Rewritten (pool : BitPool) (offset size : Nat) (r : Bool × BitPool) : Prop where
  edited : pool.Edited r.2
  truthful : r.1 = true ↔ ∃ i, bitAt r.2.bits i ≠ bitAt pool.bits i
  inside : ∀ i, bitAt r.2.bits i ≠ bitAt pool.bits i → offset ≤ i ∧ i < offset + size

theorem BitPool.Rewritten.refl (pool : BitPool) (offset size : Nat) :
    pool.Rewritten offset size (false, pool) where
  edited := .refl pool
  truthful := by simp
  inside := fun _ h => absurd rfl h

/-- A part of an extent is rewritten. -/
theorem BitPool.Rewritten.widen {pool : BitPool} {offset pos n size : Nat} {r : Bool × BitPool}
    (h : pool.Rewritten (offset + pos) n r) (hle : pos + n ≤ size) :
    pool.Rewritten offset size r where
  edited := h.edited
  truthful := h.truthful
  inside := fun i hi => by
    have := h.inside i hi
    omega

/-- The word `v` is written where the word `w` was read. -/
theorem BitPool.Rewritten.write {pool pool' : BitPool} {offset size : Nat} {w v : Word}
    (hsize : size ≤ 64)
    (hw : ∀ j < 64, w.getLsbD j = (decide (j < size) && bitAt pool.bits (offset + j)))
    (hv : ∀ j, size ≤ j → v.getLsbD j = false) (hedit : pool.Edited pool')
    (hbits : ∀ x, bitAt pool'.bits x =
      if offset ≤ x ∧ x < offset + size then v.getLsbD (x - offset) else bitAt pool.bits x) :
    pool.Rewritten offset size (w != v, pool') := by
  have hread : ∀ j < size, w.getLsbD j = bitAt pool.bits (offset + j) := by
    intro j hj
    rw [hw j (by omega), decide_eq_true hj, Bool.true_and]
  have hwritten : ∀ j < size, bitAt pool'.bits (offset + j) = v.getLsbD j := by
    intro j hj
    rw [hbits, if_pos (by omega), Nat.add_sub_cancel_left]
  refine ⟨hedit, ?_, fun i hi => ?_⟩
  · rw [bne_iff_ne]
    constructor
    · intro hne
      obtain ⟨j, hj, hdiff⟩ := exists_getLsbD_ne hne fun j hj hout => by
        rw [hv j hout, hw j hj, decide_eq_false (Nat.not_lt.mpr hout), Bool.false_and]
      rw [hread j hj] at hdiff
      exact ⟨offset + j, by rw [hwritten j hj]; exact Ne.symm hdiff⟩
    · rintro ⟨i, hi⟩ rfl
      rw [hbits] at hi
      split at hi
      · rename_i hin
        rw [hread _ (by omega), Nat.add_sub_cancel' hin.1] at hi
        exact hi rfl
      · exact hi rfl
  · rw [hbits] at hi
    split at hi
    · assumption
    · exact absurd rfl hi

/-- The pool with the values of two extents of `n` bits exchanged, which were different. -/
structure BitPool.Exchanged (pool pool' : BitPool) (x y n : Nat) : Prop where
  edited : pool.Edited pool'
  there : ∀ k < n, bitAt pool'.bits (x + k) = bitAt pool.bits (y + k)
  back : ∀ k < n, bitAt pool'.bits (y + k) = bitAt pool.bits (x + k)
  others : ∀ i, ¬ (x ≤ i ∧ i < x + n) → ¬ (y ≤ i ∧ i < y + n) →
    bitAt pool'.bits i = bitAt pool.bits i
  changed : ∃ i, bitAt pool'.bits i ≠ bitAt pool.bits i

/-- Two words are read at extents apart from each other, and each is written where the other
was. -/
theorem BitPool.Exchanged.write {pool pool₁ pool₂ : BitPool} {x y n : Nat} {a b : Word}
    (hn : n ≤ 64) (hapart : x + n ≤ y ∨ y + n ≤ x) (hne : a ≠ b)
    (ha : ∀ j < 64, a.getLsbD j = (decide (j < n) && bitAt pool.bits (x + j)))
    (hb : ∀ j < 64, b.getLsbD j = (decide (j < n) && bitAt pool.bits (y + j)))
    (hedit₁ : pool.Edited pool₁) (hedit₂ : pool₁.Edited pool₂)
    (hbits₁ : ∀ i, bitAt pool₁.bits i =
      if x ≤ i ∧ i < x + n then b.getLsbD (i - x) else bitAt pool.bits i)
    (hbits₂ : ∀ i, bitAt pool₂.bits i =
      if y ≤ i ∧ i < y + n then a.getLsbD (i - y) else bitAt pool₁.bits i) :
    pool.Exchanged pool₂ x y n := by
  have hreadA : ∀ j < n, a.getLsbD j = bitAt pool.bits (x + j) := by
    intro j hj
    rw [ha j (by omega), decide_eq_true hj, Bool.true_and]
  have hreadB : ∀ j < n, b.getLsbD j = bitAt pool.bits (y + j) := by
    intro j hj
    rw [hb j (by omega), decide_eq_true hj, Bool.true_and]
  have hthere : ∀ k < n, bitAt pool₂.bits (x + k) = bitAt pool.bits (y + k) := by
    intro k hk
    rw [hbits₂, if_neg (by omega), hbits₁, if_pos (by omega), Nat.add_sub_cancel_left, hreadB k hk]
  refine ⟨hedit₁.trans hedit₂, hthere, fun k hk => ?_, fun i hx hy => ?_, ?_⟩
  · rw [hbits₂, if_pos (by omega), Nat.add_sub_cancel_left, hreadA k hk]
  · rw [hbits₂, if_neg hy, hbits₁, if_neg hx]
  · obtain ⟨j, hj, hdiff⟩ := exists_getLsbD_ne hne fun j hj hout => by
      rw [ha j hj, hb j hj, decide_eq_false (Nat.not_lt.mpr hout), Bool.false_and, Bool.false_and]
    rw [hreadA j hj, hreadB j hj] at hdiff
    exact ⟨x + j, by rw [hthere j hj]; exact Ne.symm hdiff⟩

/-- Blocks of one extent are exchanged. -/
theorem BitPool.Exchanged.rewritten {pool pool' : BitPool} {offset x y n size : Nat}
    (h : pool.Exchanged pool' (offset + x) (offset + y) n) (hx : x + n ≤ size)
    (hy : y + n ≤ size) : pool.Rewritten offset size (true, pool') where
  edited := h.edited
  truthful := iff_of_true rfl h.changed
  inside := fun i hi => by
    by_cases hinX : offset + x ≤ i ∧ i < offset + x + n
    · omega
    · by_cases hinY : offset + y ≤ i ∧ i < offset + y + n
      · omega
      · exact absurd (h.others i hinX hinY) hi

/-! ## Keeping some bits of a request -/

/-- The cursors stand after `srcOffset` source bits, and the copy holds just the bits `out`. -/
structure DropState.Holds (cap srcOffset : Nat) (out : List Bool) (s : DropState) : Prop where
  src : s.src = .ofOffset srcOffset
  dst : s.dst = .ofOffset out.length
  count : s.dstOffset = out.length
  length : s.bits.length = cap
  bits : ∀ i, bitAt s.bits i = out.getD i false

/-- The bits that are kept, of those at `srcOffset` and after. -/
def keptBits (orig : List Byte) (kept : Nat → Bool) : Nat → List Nat → List Bool
  | _, [] => []
  | srcOffset, bi :: bis =>
    if kept bi then bitAt orig srcOffset :: keptBits orig kept (srcOffset + 1) bis
    else keptBits orig kept (srcOffset + 1) bis

theorem length_keptBits_le (orig : List Byte) (kept : Nat → Bool) (bis : List Nat) :
    ∀ srcOffset, (keptBits orig kept srcOffset bis).length ≤ bis.length := by
  induction bis with
  | nil => intro srcOffset; exact Nat.le_refl 0
  | cons bi bis ih =>
    intro srcOffset
    have hle := ih (srcOffset + 1)
    rw [keptBits]
    split
    · exact Nat.succ_le_succ hle
    · exact Nat.le_succ_of_le hle

theorem getD_append_bit (out : List Bool) (b : Bool) (i : Nat) :
    (out ++ [b]).getD i false = if i = out.length then b else out.getD i false := by
  by_cases hi : i = out.length
  · subst hi
    simp
  · rw [if_neg hi]
    by_cases hlt : i < out.length
    · simp [List.getElem?_append_left hlt]
    · rw [List.getD_eq_getElem?_getD, List.getD_eq_getElem?_getD,
        List.getElem?_eq_none (by simp; omega), List.getElem?_eq_none (by omega)]

theorem dropBit_spec {cap srcOffset : Nat} {out : List Bool} {s : DropState} (orig : List Byte)
    (kept : Bool) (hs : s.Holds cap srcOffset out) (hsrc : srcOffset < 8 * orig.length)
    (hcap : kept = true → out.length < 8 * cap) :
    ∃ s', dropBit orig kept s = .ok s' ∧
      s'.Holds cap (srcOffset + 1) (if kept then out ++ [bitAt orig srcOffset] else out) := by
  cases kept with
  | false =>
    refine ⟨_, rfl, ⟨?_, hs.dst, hs.count, hs.length, hs.bits⟩⟩
    rw [hs.src, Cursor.next_ofOffset]
  | true =>
    have hroom := hcap rfl
    have hlen := hs.length
    obtain ⟨bits', hwrite, hlen', hbits'⟩ :
        ∃ bits', (if bitAt orig srcOffset then s.dst.write s.bits true else some s.bits) =
          some bits' ∧ bits'.length = s.bits.length ∧ ∀ i, bitAt bits' i =
            if i = out.length then bitAt orig srcOffset else bitAt s.bits i := by
      cases hbit : bitAt orig srcOffset with
      | false =>
        refine ⟨s.bits, rfl, rfl, fun i => ?_⟩
        split
        · rename_i hi
          rw [hs.bits, hi]
          simp
        · rfl
      | true =>
        rw [hs.dst]
        exact Cursor.write_ofOffset _ _ (by omega) true
    refine ⟨⟨s.src.next, s.dst.next, s.dstOffset + 1, bits'⟩, ?_, ?_, ?_, ?_, hlen'.trans hlen,
      fun i => ?_⟩
    · simp only [dropBit, if_true, hs.src, Cursor.test_ofOffset hsrc]
      rw [hwrite]
    · rw [hs.src, Cursor.next_ofOffset]
    · rw [hs.dst, Cursor.next_ofOffset, if_pos rfl, List.length_append, List.length_singleton]
    · rw [hs.count, if_pos rfl, List.length_append, List.length_singleton]
    · rw [hbits', hs.bits, if_pos rfl, getD_append_bit]

theorem copyKept_spec {cap : Nat} (orig : List Byte) (kept : Nat → Bool) (bis : List Nat) :
    ∀ {srcOffset : Nat} {out : List Bool} {s : DropState}, s.Holds cap srcOffset out →
      srcOffset + bis.length ≤ 8 * orig.length →
      out.length + (keptBits orig kept srcOffset bis).length ≤ 8 * cap →
      ∃ s', copyKept orig kept bis s = .ok s' ∧
        s'.Holds cap (srcOffset + bis.length) (out ++ keptBits orig kept srcOffset bis) := by
  induction bis with
  | nil =>
    intro srcOffset out s hs _ _
    exact ⟨s, rfl, by simpa [keptBits] using hs⟩
  | cons bi bis ih =>
    intro srcOffset out s hs hsrc hcap
    rw [List.length_cons] at hsrc
    rw [keptBits] at hcap
    obtain ⟨s₁, hrun₁, hs₁⟩ := dropBit_spec orig (kept bi) hs (by omega) (fun hkept => by
      rw [if_pos hkept, List.length_cons] at hcap
      omega)
    obtain ⟨s', hrun, hs'⟩ := ih hs₁ (by omega) (by
      split at hcap
      · rename_i hkept
        simp only [hkept, if_true, List.length_append, List.length_singleton]
        rw [List.length_cons] at hcap
        omega
      · rename_i hkept
        simpa [hkept] using hcap)
    refine ⟨s', ?_, ?_⟩
    · rw [copyKept, hrun₁]
      exact hrun
    · rw [List.length_cons, keptBits, Nat.add_comm bis.length, ← Nat.add_assoc]
      cases hkept : kept bi with
      | false => simpa [hkept] using hs'
      | true => simpa [hkept] using hs'

theorem keptBits_all (orig : List Byte) (bis : List Nat) : ∀ srcOffset,
    keptBits orig (fun _ => true) srcOffset bis =
      (List.range' srcOffset bis.length).map (bitAt orig) := by
  induction bis with
  | nil => intro srcOffset; rfl
  | cons bi bis ih =>
    intro srcOffset
    rw [keptBits, if_pos rfl, ih, List.length_cons, List.range'_succ, List.map_cons]

/-! ## The end of the copy -/

theorem byteCount_eq (n : Nat) : byteCount n = (n + 7) / 8 := by
  unfold byteCount
  split <;> omega

/-- What trimming leaves: at most `n` bytes, and none but zeroes is cut. -/
theorem trimmedBytes_spec {bits : List Byte} {n : Nat} (h : n ≤ bits.length) :
    ∃ m, trimmedBytes bits n = .ok m ∧ m ≤ n ∧
      ∀ i, 8 * m ≤ i → i < 8 * n → bitAt bits i = false := by
  induction n with
  | zero => exact ⟨0, rfl, Nat.le_refl 0, fun i _ hi => by omega⟩
  | succ n ih =>
    obtain ⟨m, hrun, hle, hzero⟩ := ih (by omega)
    rw [trimmedBytes, List.getElem?_eq_getElem (by omega)]
    by_cases hb : bits[n] = 0
    · refine ⟨m, ?_, by omega, fun i hm hi => ?_⟩
      · simp only [hb, ne_eq, not_true_eq_false, if_false, hrun]
      · by_cases hlt : i < 8 * n
        · exact hzero i hm hlt
        · have hdiv : i / 8 = n := by omega
          rw [bitAt, hdiv, List.getD_eq_getElem?_getD, List.getElem?_eq_getElem (by omega),
            Option.getD_some, hb]
          exact BitVec.getLsbD_zero
    · refine ⟨n + 1, ?_, Nat.le_refl _, fun i hm hi => by omega⟩
      simp only [ne_eq, hb, not_false_eq_true, if_true]

/-- Truncation: whole bytes, the limit inside them, and only zeroes cut. -/
theorem truncate_spec (pool : BitPool) (h : byteCount pool.bitsFilled ≤ pool.bits.length) :
    ∃ m, truncateTrailingZeroBytes pool =
        .ok { pool with bitsFilled := 8 * m, limit := min pool.limit (8 * m) } ∧
      m ≤ byteCount pool.bitsFilled ∧
      ∀ i, 8 * m ≤ i → i < 8 * byteCount pool.bitsFilled → bitAt pool.bits i = false := by
  obtain ⟨m, hrun, hle, hzero⟩ := trimmedBytes_spec h
  refine ⟨m, ?_, hle, hzero⟩
  have hmin : (if 8 * m < pool.limit then 8 * m else pool.limit) = min pool.limit (8 * m) := by
    split <;> omega
  rw [truncateTrailingZeroBytes, hrun]
  simp only [Except.map, hmin]

/-! ## The index of the requests -/

theorem getElem?_indexFrom (rs : List Nat) : ∀ (total pos : Nat), pos < rs.length →
    (indexFrom total rs)[pos]? = some (total + (rs.take pos).sum) := by
  induction rs with
  | nil => intro total pos h; cases h
  | cons r rs ih =>
    intro total pos h
    cases pos with
    | zero => rfl
    | succ pos =>
      rw [indexFrom, List.getElem?_cons_succ, ih _ _ (Nat.lt_of_succ_lt_succ h),
        List.take_succ_cons, List.sum_cons, Nat.add_assoc]

theorem sum_take_add_le (rs : List Nat) {pos : Nat} (h : pos < rs.length) :
    (rs.take pos).sum + rs[pos] ≤ rs.sum := by
  have hsplit : rs.sum = (rs.take pos).sum + (rs.drop pos).sum := by
    rw [← List.sum_append, List.take_append_drop]
  rw [hsplit, List.drop_eq_getElem_cons h, List.sum_cons]
  omega

end Theft
