import Mathlib.Algebra.Order.Ring.Nat
import Mathlib.Algebra.Order.Ring.Int

/-!
# Bits packed into cells

A list of cells of one width, read as a bit string with the least significant bit
of cell 0 first: `bitAt` over bytes and over words, the word view of a byte list,
and the one-hot cursor that walks a byte list bit by bit.
-/

namespace PackedBits

abbrev Byte := BitVec 8

abbrev Word := BitVec 64

section Cells
variable {w : Nat}

/-- Bit `i` of a list of cells; every bit past the last cell is 0. -/
def bitAt (cells : List (BitVec w)) (i : Nat) : Bool :=
  (cells.getD (i / w) 0).getLsbD (i % w)

/-- The cell with the bits `f 0 .. f (w - 1)`. -/
def ofBits (w : Nat) (f : Nat → Bool) : BitVec w :=
  (BitVec.ofBoolListLE ((List.range w).map f)).setWidth w

/-- `len` cells with the bits `f 0, f 1, ..`. -/
def pack (w len : Nat) (f : Nat → Bool) : List (BitVec w) :=
  (List.range len).map fun k => ofBits w fun j => f (w * k + j)

@[simp] theorem getLsbD_ofBits (f : Nat → Bool) (j : Nat) :
    (ofBits w f).getLsbD j = (decide (j < w) && f j) := by
  rw [ofBits, BitVec.getLsbD_setWidth, BitVec.getLsbD_ofBoolListLE]
  by_cases hj : j < w <;> simp [hj]

@[simp] theorem length_pack (len : Nat) (f : Nat → Bool) : (pack w len f).length = len := by
  simp [pack]

theorem bitAt_of_le {cells : List (BitVec w)} {i : Nat} (hw : 0 < w)
    (h : w * cells.length ≤ i) : bitAt cells i = false := by
  have hk : cells.length ≤ i / w := (Nat.le_div_iff_mul_le hw).mpr (by rw [Nat.mul_comm]; exact h)
  simp [bitAt, List.getElem?_eq_none hk]

theorem bitAt_mul_add (cells : List (BitVec w)) (k : Nat) {j : Nat} (hj : j < w) :
    bitAt cells (w * k + j) = (cells.getD k 0).getLsbD j := by
  have hw : 0 < w := by omega
  have hdiv : (w * k + j) / w = k := by
    rw [Nat.mul_add_div hw, Nat.div_eq_of_lt hj, Nat.add_zero]
  simp [bitAt, hdiv, Nat.mod_eq_of_lt hj]

theorem bitAt_pack (hw : 0 < w) (len : Nat) (f : Nat → Bool) (i : Nat) :
    bitAt (pack w len f) i = (decide (i < w * len) && f i) := by
  have hmod := Nat.mod_lt i hw
  have hsplit := Nat.div_add_mod i w
  by_cases hi : i / w < len
  · have hlt : i < w * len := by rwa [Nat.div_lt_iff_lt_mul hw, Nat.mul_comm] at hi
    simp only [bitAt, pack, List.getD_eq_getElem?_getD, List.getElem?_map, List.getElem?_range hi,
      Option.map_some, Option.getD_some, getLsbD_ofBits, hsplit, hlt, hmod]
  · have hge : ¬ i < w * len := by rwa [Nat.div_lt_iff_lt_mul hw, Nat.mul_comm] at hi
    simp [bitAt, pack, hi, hge]

theorem bitAt_replicate_zero (len i : Nat) : bitAt (List.replicate len (0 : BitVec w)) i = false := by
  by_cases h : i / w < len <;> simp [bitAt, h]

theorem bitAt_of_all_zero {cells : List (BitVec w)} (h : ∀ c ∈ cells, c = 0) (i : Nat) :
    bitAt cells i = false := by
  rw [show cells = List.replicate cells.length 0 from List.eq_replicate_iff.mpr ⟨rfl, h⟩]
  exact bitAt_replicate_zero _ _

theorem bitAt_set {cells : List (BitVec w)} {k : Nat} (hk : k < cells.length)
    (v : BitVec w) (i : Nat) :
    bitAt (cells.set k v) i = if i / w = k then v.getLsbD (i % w) else bitAt cells i := by
  by_cases hik : i / w = k
  · subst hik; simp [bitAt, hk]
  · simp [bitAt, hik, List.getElem?_set_ne (Ne.symm hik)]

theorem bitAt_append_left (hw : 0 < w) (a b : List (BitVec w)) {i : Nat}
    (hi : i < w * a.length) : bitAt (a ++ b) i = bitAt a i := by
  have hlt : i / w < a.length := by rwa [Nat.div_lt_iff_lt_mul hw, Nat.mul_comm]
  simp [bitAt, List.getElem?_append_left hlt]

/-- Cell lists of one length with the same bits are equal. -/
theorem ext_bitAt {a b : List (BitVec w)} (hlen : a.length = b.length)
    (h : ∀ i < w * a.length, bitAt a i = bitAt b i) : a = b := by
  apply List.ext_getElem hlen
  intro k ha hb
  apply BitVec.eq_of_getLsbD_eq
  intro j hj
  have hlt : w * k + j < w * a.length :=
    calc w * k + j < w * (k + 1) := by rw [Nat.mul_succ]; omega
      _ ≤ w * a.length := Nat.mul_le_mul_left w ha
  have hbit := h (w * k + j) hlt
  rw [bitAt_mul_add _ _ hj, bitAt_mul_add _ _ hj] at hbit
  simpa [List.getElem?_eq_getElem ha, List.getElem?_eq_getElem hb] using hbit

end Cells

/-! ## The word view of a byte list -/

/-- The little-endian word made of the first eight of some bytes. -/
def leWord : List Byte → Word
  | [] => 0
  | b :: bs => b.setWidth 64 ||| (leWord bs <<< 8)

theorem getLsbD_leWord (bs : List Byte) (j : Nat) :
    (leWord bs).getLsbD j = (decide (j < 64) && bitAt bs j) := by
  induction bs generalizing j with
  | nil => simp [leWord, bitAt]
  | cons b bs ih =>
    by_cases hj : j < 8
    · simp [leWord, bitAt, hj, Nat.div_eq_of_lt hj, Nat.mod_eq_of_lt hj]
    · obtain ⟨k, rfl⟩ : ∃ k, j = k + 8 := ⟨j - 8, by omega⟩
      have hhigh : b.getLsbD (k + 8) = false := b.getLsbD_of_ge _ (by omega)
      have hdiv : (k + 8) / 8 = k / 8 + 1 := by omega
      have hmod : (k + 8) % 8 = k % 8 := by omega
      rw [leWord, BitVec.getLsbD_or, BitVec.getLsbD_setWidth, BitVec.getLsbD_shiftLeft, hhigh,
        Nat.add_sub_cancel, ih, bitAt, bitAt, hdiv, hmod, List.getD_cons_succ]
      by_cases hlt : k + 8 < 64
      · simp [hlt, show k < 64 by omega]
      · simp [hlt]

/-- Word `k` of a byte list, when all its eight bytes are there. -/
def getWord (bytes : List Byte) (k : Nat) : Option Word :=
  if 8 * k + 8 ≤ bytes.length then some (leWord ((bytes.drop (8 * k)).take 8)) else none

/-- The byte list with word `k` replaced, when all its eight bytes are there. -/
def setWord (bytes : List Byte) (k : Nat) (v : Word) : Option (List Byte) :=
  if 8 * k + 8 ≤ bytes.length then
    some (bytes.mapIdx fun i b => if i / 8 = k then v.extractLsb' (8 * (i % 8)) 8 else b)
  else none

theorem getWord_eq_some (bytes : List Byte) (k : Nat) (h : 8 * k + 8 ≤ bytes.length) :
    ∃ v, getWord bytes k = some v ∧
      ∀ j, v.getLsbD j = (decide (j < 64) && bitAt bytes (64 * k + j)) := by
  refine ⟨_, if_pos h, fun j => ?_⟩
  rw [getLsbD_leWord]
  by_cases hj : j < 64
  · have hdiv : (64 * k + j) / 8 = 8 * k + j / 8 := by omega
    have hmod : (64 * k + j) % 8 = j % 8 := by omega
    simp [bitAt, hj, hdiv, hmod, show j / 8 < 8 by omega]
  · simp [hj]

theorem setWord_eq_some (bytes : List Byte) (k : Nat) (h : 8 * k + 8 ≤ bytes.length) (v : Word) :
    ∃ bytes', setWord bytes k v = some bytes' ∧ bytes'.length = bytes.length ∧
      ∀ i, bitAt bytes' i = if i / 64 = k then v.getLsbD (i % 64) else bitAt bytes i := by
  refine ⟨_, if_pos h, by simp, fun i => ?_⟩
  have hdiv : i / 8 / 8 = i / 64 := by omega
  have hpos : 8 * (i / 8 % 8) + i % 8 = i % 64 := by omega
  by_cases hik : i / 64 = k
  · have hlt : i / 8 < bytes.length := by omega
    simp [bitAt, hdiv, hik, hlt, hpos, show i % 8 < 8 by omega]
  · cases hb : bytes[i / 8]? <;> simp [bitAt, List.getElem?_mapIdx, hdiv, hik, hb]

/-! ## Walking a byte list bit by bit -/

/-- A byte index and the one-hot mask of a bit of that byte. -/
structure Cursor where
  byte : Nat
  bit : Byte
  deriving DecidableEq, Repr

/-- The cursor at a bit offset. -/
def Cursor.ofOffset (offset : Nat) : Cursor := ⟨offset / 8, 1#8 <<< (offset % 8)⟩

/-- One bit further: the mask is shifted, and wraps to the next byte when it falls off. -/
def Cursor.next (c : Cursor) : Cursor :=
  if c.bit <<< 1 = 0 then ⟨c.byte + 1, 1⟩ else ⟨c.byte, c.bit <<< 1⟩

theorem mask_next : ∀ m : Nat, m < 8 →
    (1#8 <<< m) <<< 1 = if m = 7 then 0#8 else 1#8 <<< (m + 1) := by
  decide

theorem Cursor.ofOffset_zero : Cursor.ofOffset 0 = ⟨0, 1⟩ := by decide

@[simp] theorem Cursor.next_ofOffset (offset : Nat) :
    (Cursor.ofOffset offset).next = Cursor.ofOffset (offset + 1) := by
  have hmask := mask_next (offset % 8) (by omega)
  by_cases h7 : offset % 8 = 7
  · have hmod : (offset + 1) % 8 = 0 := by omega
    have hdiv : (offset + 1) / 8 = offset / 8 + 1 := by omega
    simp [Cursor.next, Cursor.ofOffset, h7, hmod, hdiv]
  · have hmod : (offset + 1) % 8 = offset % 8 + 1 := by omega
    have hdiv : (offset + 1) / 8 = offset / 8 := by omega
    have hne : ∀ m : Nat, m < 8 → m ≠ 7 → 1#8 <<< (m + 1) ≠ 0#8 := by decide
    rw [if_neg h7] at hmask
    simp only [Cursor.next, Cursor.ofOffset, hmask, hmod, hdiv]
    exact if_neg (hne _ (by omega) h7)

/-- Whether the bit under the cursor is set; `none` outside the list. -/
def Cursor.test (c : Cursor) (bytes : List Byte) : Option Bool :=
  bytes[c.byte]?.map fun b => (b &&& c.bit) != 0

/-- The list with the bit under the cursor set or cleared; `none` outside the list. -/
def Cursor.write (c : Cursor) (bytes : List Byte) (v : Bool) : Option (List Byte) :=
  bytes[c.byte]?.map fun b => bytes.set c.byte (if v then b ||| c.bit else b &&& ~~~c.bit)

theorem and_mask_ne_zero (b : Byte) {m : Nat} (hm : m < 8) :
    ((b &&& (1#8 <<< m)) != 0) = b.getLsbD m := by
  have key : ∀ m : Nat, m < 8 → ∀ b : Byte, ((b &&& (1#8 <<< m)) != 0) = b.getLsbD m := by
    decide
  exact key m hm b

theorem getLsbD_mask {m j : Nat} (hm : m < 8) : (1#8 <<< m).getLsbD j = decide (j = m) := by
  by_cases hj : j < 8
  · have key : ∀ m < 8, ∀ j < 8, (1#8 <<< m).getLsbD j = decide (j = m) := by decide
    exact key m hm j hj
  · rw [BitVec.getLsbD_of_ge _ _ (by omega)]
    simp [show j ≠ m by omega]

/-- Setting or clearing the masked bit of a byte changes that bit alone. -/
theorem getLsbD_write_mask (b : Byte) {m j : Nat} (hm : m < 8) (hj : j < 8) (v : Bool) :
    (if v then b ||| (1#8 <<< m) else b &&& ~~~(1#8 <<< m)).getLsbD j =
      if j = m then v else b.getLsbD j := by
  cases v
  · rw [if_neg Bool.false_ne_true, BitVec.getLsbD_and, BitVec.getLsbD_not, getLsbD_mask hm]
    by_cases h : j = m <;> simp [h, hj]
  · rw [if_pos rfl, BitVec.getLsbD_or, getLsbD_mask hm]
    by_cases h : j = m <;> simp [h]

theorem Cursor.test_ofOffset {bytes : List Byte} {offset : Nat} (h : offset < 8 * bytes.length) :
    (Cursor.ofOffset offset).test bytes = some (bitAt bytes offset) := by
  have hlt : offset / 8 < bytes.length := by omega
  have hbit := and_mask_ne_zero bytes[offset / 8] (show offset % 8 < 8 by omega)
  simpa [Cursor.test, Cursor.ofOffset, bitAt, hlt] using hbit

theorem Cursor.write_ofOffset (bytes : List Byte) (offset : Nat) (h : offset < 8 * bytes.length)
    (v : Bool) :
    ∃ bytes', (Cursor.ofOffset offset).write bytes v = some bytes' ∧
      bytes'.length = bytes.length ∧
      ∀ i, bitAt bytes' i = if i = offset then v else bitAt bytes i := by
  have hlt : offset / 8 < bytes.length := by omega
  have hm : offset % 8 < 8 := by omega
  refine ⟨_, by rw [Cursor.write, Cursor.ofOffset, List.getElem?_eq_getElem hlt, Option.map_some],
    by simp, fun i => ?_⟩
  rw [bitAt_set hlt]
  by_cases hbyte : i / 8 = offset / 8
  · rw [if_pos hbyte, getLsbD_write_mask _ hm (by omega)]
    have hiff : i % 8 = offset % 8 ↔ i = offset := by omega
    simp only [hiff, bitAt, hbyte, List.getD_eq_getElem?_getD, List.getElem?_eq_getElem hlt,
      Option.getD_some]
  · simp [hbyte, show i ≠ offset by intro h; exact hbyte (by rw [h])]

end PackedBits
