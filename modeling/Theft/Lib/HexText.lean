import Mathlib.Data.List.Basic
import Mathlib.Algebra.Order.Ring.Nat

/-!
# Hexadecimal text

Numbers as a dump prints them, zero padded to a width, and how a reader of the dump takes them
apart again: its lines, its columns of equal width, and the numbers in the columns.
-/

namespace HexText

/-- A number as `%0wx` prints it -/
def format (width n : Nat) : List Char := List.leftpad width '0' (Nat.toDigits 16 n)

/-- The value of a digit -/
def digit? (c : Char) : Option Nat :=
  if '0' ≤ c ∧ c ≤ '9' then some (c.toNat - '0'.toNat)
  else if 'a' ≤ c ∧ c ≤ 'f' then some (c.toNat - 'a'.toNat + 10)
  else none

/-- The number that the digits spell -/
def readFrom : Nat → List Char → Option Nat
  | n, [] => some n
  | n, c :: text =>
    match digit? c with
    | some d => readFrom (16 * n + d) text
    | none => none

def read (text : List Char) : Option Nat := readFrom 0 text

theorem digit?_digitChar {n : Nat} (h : n < 16) : digit? n.digitChar = some n := by
  revert n
  decide

theorem readFrom_append (l m : List Char) :
    ∀ n, readFrom n (l ++ m) = (readFrom n l).bind fun k => readFrom k m := by
  induction l with
  | nil =>
    intro n
    rfl
  | cons c l ih =>
    intro n
    simp only [List.cons_append, readFrom]
    cases digit? c with
    | none => rfl
    | some d => exact ih _

theorem readFrom_zeros (k : Nat) : readFrom 0 (List.replicate k '0') = some 0 := by
  induction k with
  | zero => rfl
  | succ k ih => exact ih

theorem readFrom_toDigits (n : Nat) : readFrom 0 (Nat.toDigits 16 n) = some n := by
  induction n using Nat.strongRecOn with
  | _ n ih =>
    by_cases hsmall : n < 16
    · rw [Nat.toDigits_of_lt_base hsmall]
      simp [readFrom, digit?_digitChar hsmall]
    · have hlast : n % 16 < 16 := Nat.mod_lt _ (by decide)
      rw [Nat.toDigits_of_base_le (by decide) (by omega), readFrom_append, ih _ (by omega)]
      simp only [Option.bind_some, readFrom, digit?_digitChar hlast, Nat.div_add_mod]

/-- A printed number is read back. -/
theorem read_format (width n : Nat) : read (format width n) = some n := by
  rw [read, format, List.leftpad, readFrom_append, readFrom_zeros]
  exact readFrom_toDigits n

theorem length_format {width n : Nat} (hwidth : 0 < width) (h : n < 16 ^ width) :
    (format width n).length = width := by
  rw [format, List.length_leftpad]
  exact Nat.max_eq_left ((Nat.length_toDigits_le_iff (by decide) hwidth).mpr h)

theorem digit_of_readFrom {text : List Char} {c : Char} (hc : c ∈ text) :
    ∀ {n m : Nat}, readFrom n text = some m → (digit? c).isSome := by
  induction text with
  | nil => cases hc
  | cons b text ih =>
    intro n m h
    unfold readFrom at h
    cases hb : digit? b with
    | none => simp [hb] at h
    | some d =>
      simp only [hb] at h
      obtain rfl | hc := List.mem_cons.mp hc
      · simp [hb]
      · exact ih hc h

/-- Nothing but digits is printed. -/
theorem digit_of_mem_format {width n : Nat} {c : Char} (hc : c ∈ format width n) :
    (digit? c).isSome :=
  digit_of_readFrom hc (read_format width n)

/-! ## Lines and columns -/

/-- The lines of a text, without their ends -/
def lines : List Char → List (List Char)
  | [] => []
  | c :: text =>
    if c = '\n' then [] :: lines text
    else
      match lines text with
      | [] => [[c]]
      | line :: rest => (c :: line) :: rest

theorem lines_append {line : List Char} (h : '\n' ∉ line) (text : List Char) :
    lines (line ++ '\n' :: text) = line :: lines text := by
  induction line with
  | nil => simp [lines]
  | cons c line ih =>
    simp only [List.mem_cons, not_or] at h
    simp [lines, ih h.2, Ne.symm h.1]

/-- `count` columns of the given width -/
def columns (width : Nat) : Nat → List Char → List (List Char)
  | 0, _ => []
  | count + 1, text => text.take width :: columns width count (text.drop width)

theorem columns_flatten {width : Nat} {cols : List (List Char)}
    (h : ∀ col ∈ cols, col.length = width) (text : List Char) :
    columns width cols.length (cols.flatten ++ text) = cols := by
  induction cols with
  | nil => rfl
  | cons col cols ih =>
    obtain ⟨hcol, hcols⟩ := List.forall_mem_cons.mp h
    simp only [List.length_cons, List.flatten_cons, columns, List.append_assoc]
    rw [List.take_left' hcol, List.drop_left' hcol, ih hcols]

end HexText
