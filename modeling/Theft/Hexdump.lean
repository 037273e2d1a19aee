import Theft.Lib.HexText
import Theft.Pool

/-!
# The hex dump of a counter-example

`hexdump` as text, and a reader of that text: its lines, the hex columns of each and the
characters beside them. The hex columns always read back as the array. The characters beside them
are those of the first row, in every row.
-/

namespace Theft

open HexText PackedBits

/-- `isprint` -/
def isPrint (b : Byte) : Bool := 0x20 ≤ b.toNat && b.toNat ≤ 0x7e

/-- The printable form of a byte -/
def shown (b : Byte) : Char := if isPrint b then Char.ofNat b.toNat else '.'

/-- The row of `hexdump` at an offset, without the end of its line -/
def hexdumpRow (raw : List Byte) (rowI : Nat) : List Char :=
  let rem := if 16 < raw.length - rowI then 16 else raw.length - rowI
  format 4 rowI ++ [':', ' '] ++
    ((List.range rem).map fun i => format 2 (raw.getD (rowI + i) 0).toNat ++ [' ']).flatten ++
    ((List.range' rem (16 - rem)).map fun _ => [' ', ' ', ' ']).flatten ++
    (List.range rem).map fun i => shown (raw.getD i 0)

def hexdumpFrom (raw : List Byte) (rowI : Nat) : List Char :=
  if rowI < raw.length then hexdumpRow raw rowI ++ '\n' :: hexdumpFrom raw (rowI + 16) else []
termination_by raw.length - rowI

/-- `hexdump` -/
def hexdump (raw : List Byte) : List Char := hexdumpFrom raw 0

/-! ## Reading a dump -/

/-- A line without its offset -/
def rowBody (line : List Char) : List Char := (line.dropWhile fun c => c != ':').drop 2

/-- The bytes in the hex columns of a line, without the padding -/
def hexColumn (line : List Char) : Option (List Byte) :=
  ((columns 3 16 (rowBody line)).filter fun col => col != [' ', ' ', ' ']).mapM fun col =>
    (HexText.read (col.take 2)).map (BitVec.ofNat 8)

/-- The characters beside them -/
def charColumn (line : List Char) : List Char := (rowBody line).drop 48

/-- What a dump of `raw` is for: one row for each 16 bytes, hex columns that are the bytes, and
beside them the printable forms of the same bytes. -/
structure DumpFaithful (raw : List Byte) : Prop where
  rows : (lines (hexdump raw)).length = (raw.length + 15) / 16
  hex : ((lines (hexdump raw)).mapM hexColumn).map List.flatten = some raw
  chars : ∀ line ∈ lines (hexdump raw),
    (hexColumn line).map (fun bytes => bytes.map shown) = some (charColumn line)

/-! ## One row -/

/-- The bytes of the row at an offset -/
def rowBytes (raw : List Byte) (rowI : Nat) : List Byte := (raw.drop rowI).take 16

/-- One byte in its column -/
def byteColumn (b : Byte) : List Char := format 2 b.toNat ++ [' ']

theorem length_byteColumn (b : Byte) : (byteColumn b).length = 3 := by
  rw [byteColumn, List.length_append, length_format (by decide) (by omega)]
  rfl

theorem read_byteColumn (b : Byte) :
    (HexText.read ((byteColumn b).take 2)).map (BitVec.ofNat 8) = some b := by
  rw [byteColumn, List.take_left' (length_format (by decide) (by omega)), read_format]
  simp

theorem byteColumn_ne (b : Byte) : byteColumn b ≠ [' ', ' ', ' '] := by
  intro h
  have hread := read_byteColumn b
  rw [h] at hread
  cases hread

section
variable {raw : List Byte}

/-- Reading by index below the end of the array -/
theorem map_getD {β : Type} (f : Byte → β) (rowI n : Nat) (h : rowI + n ≤ raw.length) :
    ((List.range n).map fun i => f (raw.getD (rowI + i) 0)) = ((raw.drop rowI).take n).map f := by
  apply List.ext_getElem
  · simp
    omega
  · intro i hi hi'
    simp only [List.length_map, List.length_range] at hi
    simp [List.getElem?_eq_getElem (show rowI + i < raw.length by omega)]

theorem length_rowBytes (raw : List Byte) (rowI : Nat) :
    (rowBytes raw rowI).length = min 16 (raw.length - rowI) := by
  rw [rowBytes, List.length_take, List.length_drop]

/-- What a row looks like: columns of equal width, then the characters. -/
theorem hexdumpRow_eq {rowI : Nat} (h : rowI < raw.length) :
    hexdumpRow raw rowI = format 4 rowI ++ ':' :: ' ' ::
      (((rowBytes raw rowI).map byteColumn ++
          List.replicate (16 - (rowBytes raw rowI).length) [' ', ' ', ' ']).flatten ++
        (raw.take (rowBytes raw rowI).length).map shown) := by
  have hrem : (if 16 < raw.length - rowI then 16 else raw.length - rowI) =
      (rowBytes raw rowI).length := by
    rw [length_rowBytes]
    split <;> omega
  have hlen := length_rowBytes raw rowI
  have hhex := map_getD byteColumn rowI (rowBytes raw rowI).length
    (show _ ≤ raw.length by omega)
  have hchars := map_getD shown 0 (rowBytes raw rowI).length (show _ ≤ raw.length by omega)
  have htake : (raw.drop rowI).take (rowBytes raw rowI).length = rowBytes raw rowI := by
    rw [hlen, rowBytes, List.take_eq_take_iff, List.length_drop]
    omega
  simp only [Nat.zero_add, List.drop_zero] at hchars
  rw [htake] at hhex
  unfold byteColumn at hhex ⊢
  simp only [hexdumpRow, hrem, hhex, hchars, List.flatten_append, List.map_const',
    List.length_range', List.append_assoc, List.cons_append, List.nil_append]

theorem colon_notMem_format {width n : Nat} : ∀ c ∈ format width n, (c != ':') = true := by
  intro c hc
  have hdigit := digit_of_mem_format hc
  by_contra hcolon
  simp only [bne_iff_ne, ne_eq, not_not] at hcolon
  subst hcolon
  cases hdigit

theorem rowBody_hexdumpRow {rowI : Nat} (h : rowI < raw.length) :
    rowBody (hexdumpRow raw rowI) =
      ((rowBytes raw rowI).map byteColumn ++
          List.replicate (16 - (rowBytes raw rowI).length) [' ', ' ', ' ']).flatten ++
        (raw.take (rowBytes raw rowI).length).map shown := by
  rw [rowBody, hexdumpRow_eq h, List.dropWhile_append_of_pos colon_notMem_format]
  rfl

/-- The columns of a row, the padding included -/
theorem length_column (raw : List Byte) (rowI : Nat) :
    ∀ col ∈ (rowBytes raw rowI).map byteColumn ++
      List.replicate (16 - (rowBytes raw rowI).length) [' ', ' ', ' '], col.length = 3 := by
  intro col hcol
  simp only [List.mem_append, List.mem_map, List.mem_replicate] at hcol
  obtain ⟨b, -, rfl⟩ | ⟨-, rfl⟩ := hcol
  · exact length_byteColumn b
  · rfl

theorem count_columns {rowI : Nat} :
    ((rowBytes raw rowI).map byteColumn ++
      List.replicate (16 - (rowBytes raw rowI).length) [' ', ' ', ' ']).length = 16 := by
  have hlen := length_rowBytes raw rowI
  rw [List.length_append, List.length_map, List.length_replicate]
  omega

theorem mapM_byteColumn (bytes : List Byte) :
    ((bytes.map byteColumn).mapM fun col =>
      (HexText.read (col.take 2)).map (BitVec.ofNat 8)) = some bytes := by
  induction bytes with
  | nil => rfl
  | cons b bytes ih =>
    rw [List.map_cons, List.mapM_cons, read_byteColumn, ih]
    rfl

/-- The hex columns of a row are its bytes. -/
theorem hexColumn_hexdumpRow {rowI : Nat} (h : rowI < raw.length) :
    hexColumn (hexdumpRow raw rowI) = some (rowBytes raw rowI) := by
  have hcols := columns_flatten (length_column raw rowI)
    ((raw.take (rowBytes raw rowI).length).map shown)
  rw [count_columns] at hcols
  have hkeep : ((rowBytes raw rowI).map byteColumn).filter (fun col => col != [' ', ' ', ' ']) =
      (rowBytes raw rowI).map byteColumn := by
    rw [List.filter_eq_self]
    intro col hcol
    obtain ⟨b, -, rfl⟩ := List.mem_map.mp hcol
    simpa using byteColumn_ne b
  rw [hexColumn, rowBody_hexdumpRow h, hcols, List.filter_append, hkeep, List.filter_replicate]
  simp only [bne_self_eq_false, Bool.false_eq_true, if_false, List.append_nil]
  exact mapM_byteColumn _

/-- The characters beside them are those of the first row. -/
theorem charColumn_hexdumpRow {rowI : Nat} (h : rowI < raw.length) :
    charColumn (hexdumpRow raw rowI) = (raw.take (rowBytes raw rowI).length).map shown := by
  rw [charColumn, rowBody_hexdumpRow h]
  apply List.drop_left'
  rw [List.length_flatten, List.map_congr_left (length_column raw rowI), List.map_const', count_columns]
  rfl

theorem newline_notMem_hexdumpRow {rowI : Nat} (h : rowI < raw.length) :
    '\n' ∉ hexdumpRow raw rowI := by
  have hformat : ∀ width n, '\n' ∉ format width n := by
    intro width n hmem
    cases digit_of_mem_format hmem
  have hshown : ∀ b, shown b ≠ '\n' := by
    intro b
    revert b
    decide +kernel
  rw [hexdumpRow_eq h]
  simp [-List.map_take, hformat, byteColumn, hshown, List.mem_flatten]

/-! ## The whole dump -/

theorem lines_hexdumpFrom (raw : List Byte) (rowI : Nat) :
    lines (hexdumpFrom raw rowI) =
      if rowI < raw.length then hexdumpRow raw rowI :: lines (hexdumpFrom raw (rowI + 16)) else [] := by
  rw [hexdumpFrom]
  split
  · rename_i h
    exact lines_append (newline_notMem_hexdumpRow h) _
  · rfl

theorem count_lines (raw : List Byte) (rowI : Nat) :
    (lines (hexdumpFrom raw rowI)).length = (raw.length - rowI + 15) / 16 := by
  induction rowI using hexdumpFrom.induct raw with
  | case1 rowI h ih =>
    rw [lines_hexdumpFrom, if_pos h, List.length_cons, ih]
    omega
  | case2 rowI h =>
    rw [lines_hexdumpFrom, if_neg h, List.length_nil]
    omega

/-- The hex columns from a row on are the bytes from its offset on. -/
theorem hexColumns_hexdumpFrom (raw : List Byte) (rowI : Nat) :
    ((lines (hexdumpFrom raw rowI)).mapM hexColumn).map List.flatten = some (raw.drop rowI) := by
  induction rowI using hexdumpFrom.induct raw with
  | case1 rowI h ih =>
    obtain ⟨rest, hrest, hflat⟩ := Option.map_eq_some_iff.mp ih
    have hdrop : raw.drop (rowI + 16) = (raw.drop rowI).drop 16 := by
      rw [List.drop_drop]
    rw [lines_hexdumpFrom, if_pos h, List.mapM_cons, hexColumn_hexdumpRow h, hrest]
    change some (rowBytes raw rowI ++ rest.flatten) = _
    rw [hflat, hdrop, rowBytes, List.take_append_drop]
  | case2 rowI h =>
    rw [lines_hexdumpFrom, if_neg h, List.drop_eq_nil_of_le (by omega)]
    rfl

theorem mem_lines (raw : List Byte) (rowI : Nat) (line : List Char) :
    line ∈ lines (hexdumpFrom raw rowI) ↔
      ∃ k, rowI + 16 * k < raw.length ∧ line = hexdumpRow raw (rowI + 16 * k) := by
  induction rowI using hexdumpFrom.induct raw with
  | case1 rowI h ih =>
    rw [lines_hexdumpFrom, if_pos h, List.mem_cons, ih]
    constructor
    · rintro (rfl | ⟨k, hk, rfl⟩)
      · exact ⟨0, h, rfl⟩
      · refine ⟨k + 1, by omega, ?_⟩
        rw [show rowI + 16 + 16 * k = rowI + 16 * (k + 1) by omega]
    · rintro ⟨k, hk, rfl⟩
      cases k with
      | zero => exact .inl rfl
      | succ k =>
        refine .inr ⟨k, by omega, ?_⟩
        rw [show rowI + 16 + 16 * k = rowI + 16 * (k + 1) by omega]
  | case2 rowI h =>
    rw [lines_hexdumpFrom, if_neg h]
    simp only [List.not_mem_nil, false_iff]
    rintro ⟨k, hk, -⟩
    omega

/-- When the characters of every row are those of the first -/
theorem rows_shown_iff (raw : List Byte) :
    (∀ k, 16 * k < raw.length → (rowBytes raw (16 * k)).map shown =
        (raw.take (rowBytes raw (16 * k)).length).map shown) ↔
      ∀ j < raw.length, (raw[j]?).map shown = (raw[j % 16]?).map shown := by
  constructor
  · intro h j hj
    have hlen := length_rowBytes raw (16 * (j / 16))
    have hrow : (rowBytes raw (16 * (j / 16)))[j % 16]? = raw[j]? := by
      rw [rowBytes, List.getElem?_take, if_pos (by omega), List.getElem?_drop, Nat.div_add_mod]
    have hfirst : (raw.take (rowBytes raw (16 * (j / 16))).length)[j % 16]? = raw[j % 16]? := by
      rw [List.getElem?_take, if_pos (by omega)]
    rw [← hrow, ← hfirst, ← List.getElem?_map, ← List.getElem?_map, h _ (by omega)]
  · intro h k hk
    apply List.ext_getElem?
    intro i
    have hlen := length_rowBytes raw (16 * k)
    simp only [List.getElem?_map, List.getElem?_take]
    by_cases hi : i < (rowBytes raw (16 * k)).length
    · have hmod : (16 * k + i) % 16 = i := by omega
      rw [if_pos hi, rowBytes, List.getElem?_take, if_pos (by omega), List.getElem?_drop,
        h _ (by omega), hmod]
    · rw [if_neg hi, List.getElem?_eq_none (by omega)]

end

/-- **When the dump is faithful**: exactly when every byte has the printable form of the byte in
the same place of the first row. -/
theorem hexdump_faithful_iff (raw : List Byte) :
    DumpFaithful raw ↔ ∀ j < raw.length, (raw[j]?).map shown = (raw[j % 16]?).map shown := by
  have hrow : ∀ k, 16 * k < raw.length →
      ((hexColumn (hexdumpRow raw (16 * k))).map (fun bytes => bytes.map shown) =
          some (charColumn (hexdumpRow raw (16 * k))) ↔
        (rowBytes raw (16 * k)).map shown =
          (raw.take (rowBytes raw (16 * k)).length).map shown) := by
    intro k hk
    rw [hexColumn_hexdumpRow hk, charColumn_hexdumpRow hk, Option.map_some, Option.some.injEq]
  rw [← rows_shown_iff]
  constructor
  · rintro ⟨-, -, hchars⟩ k hk
    have hline : hexdumpRow raw (16 * k) ∈ lines (hexdump raw) := by
      rw [hexdump, mem_lines]
      exact ⟨k, by omega, by rw [Nat.zero_add]⟩
    exact (hrow k hk).mp (hchars _ hline)
  · intro hshown
    refine ⟨count_lines raw 0, hexColumns_hexdumpFrom raw 0, ?_⟩
    intro line hline
    rw [hexdump, mem_lines] at hline
    obtain ⟨k, hk, rfl⟩ := hline
    rw [Nat.zero_add] at hk ⊢
    exact (hrow k hk).mpr (hshown k hk)

/-- Sixteen letters and a last one in a second row, which shows the first letter. -/
theorem hexdump_unfaithful :
    ¬ DumpFaithful (List.replicate 16 (0x61 : Byte) ++ [(0x62 : Byte)]) := by
  rintro ⟨-, -, hchars⟩
  have hline := (mem_lines (List.replicate 16 (0x61 : Byte) ++ [(0x62 : Byte)]) 0 _).mpr
    ⟨1, by decide, rfl⟩
  exact absurd (hchars _ hline) (by decide +kernel)

end Theft
