import Theft.Lib.ScaledTally
import Theft.Run

/-!
# The progress of a run, as text

`theft_print_trial_result` prints a mark for the result of each trial, scaled when there are many.
`read_printed`: a reader of the text knows how many results of each kind there were, up to what one
mark stands for. `printed_columns`: no line grows beyond the column that it is to end at.
-/

namespace Theft

open ScaledTally PackedBits

/-! ## Printing -/

/-- A scale and a count of `struct theft_print_trial_result_env` -/
structure ResultCount where
  scale : Nat
  consec : Nat
  deriving DecidableEq

/-- `struct theft_print_trial_result_env` -/
structure PrintTrialResultEnv where
  maxColumn : Byte
  column : Byte
  pass : ResultCount
  skip : ResultCount
  dup : ResultCount
  deriving DecidableEq

/-- `THEFT_DEF_MAX_COLUMNS` -/
def defMaxColumns : Nat := 72

/-- A `size_t` as `%zd` prints it -/
def printZd (x : Nat) : List Char :=
  if x < 2 ^ 63 then Nat.toDigits 10 x else '-' :: Nat.toDigits 10 (2 ^ 64 - x)

/-- `autoscale_tally`: what is in the buffer, and the scale and the count after it -/
def autoscaleTally (scaleFactor : Nat) (name : List Char) (tally : Char) (c : ResultCount) :
    List Char × ResultCount :=
  let scale := if c.scale = 0 then 1 else c.scale
  let nscale := scaleFactor * scale % 2 ^ 64
  let count := (c.consec + 1) % 2 ^ 64
  if 1 < scale ∨ nscale ≤ c.consec then
    if c.consec = nscale then
      ('(' :: name ++ [' ', 'x', ' '] ++ printZd nscale ++ [')', tally], ⟨nscale, count⟩)
    else if c.consec % scale = 0 then ([tally], ⟨c.scale, count⟩)
    else ([], ⟨c.scale, count⟩)
  else ([tally], ⟨c.scale, count⟩)

namespace PrintTrialResultEnv

/-- As `calloc` leaves it, but for the width -/
def start (maxColumn : Byte) : PrintTrialResultEnv := ⟨maxColumn, 0, ⟨0, 0⟩, ⟨0, 0⟩, ⟨0, 0⟩⟩

def maxcol (env : PrintTrialResultEnv) : Nat :=
  if env.maxColumn = 0 then defMaxColumns else env.maxColumn.toNat

/-- The mark for a result -/
def mark (env : PrintTrialResultEnv) : TrialRes → List Char × PrintTrialResultEnv
  | .pass =>
    let (buf, c) := autoscaleTally 100 ['P', 'A', 'S', 'S'] '.' env.pass
    (buf, { env with pass := c })
  | .fail => (['F'], { env with pass := ⟨1, 0⟩, column := 0 })
  | .skip =>
    let (buf, c) := autoscaleTally 10 ['S', 'K', 'I', 'P'] 's' env.skip
    (buf, { env with skip := c })
  | .dup =>
    let (buf, c) := autoscaleTally 10 ['D', 'U', 'P'] 'd' env.dup
    (buf, { env with dup := c })
  | .error => (['E'], env)

end PrintTrialResultEnv

/-- `theft_print_trial_result`: what is printed, and the environment after it -/
def printTrialResult (env : PrintTrialResultEnv) (result : TrialRes) :
    List Char × PrintTrialResultEnv :=
  let (buf, env) := env.mark result
  if env.maxcol ≤ env.column.toNat + buf.length then
    ('\n' :: buf, { env with column := BitVec.ofNat 8 buf.length })
  else (buf, { env with column := BitVec.ofNat 8 (env.column.toNat + buf.length) })

/-- What is printed for results, the latest of which is the first, and the environment after it -/
def printResults (maxColumn : Byte) : List TrialRes → List Char × PrintTrialResultEnv
  | [] => ([], .start maxColumn)
  | result :: older =>
    let (text, env) := printResults maxColumn older
    let (buf, env) := printTrialResult env result
    (text ++ buf, env)

/-! ## Reading -/

/-- A reader of the text. `label` is the number read so far where a mark is being labelled, and
`told` what a label said of the mark after it. -/
structure ProgressReader where
  label : Option Nat
  told : Option Nat
  tally : Char → Reading

namespace ProgressReader

def start : ProgressReader := ⟨none, none, fun _ => .start⟩

/-- A mark is seen. -/
def see (r : ProgressReader) (c : Char) (m : Mark) : ProgressReader where
  label := none
  told := none
  tally d := if d = c then (r.tally c).see m else r.tally d

/-- The passes are counted anew. -/
def forget (r : ProgressReader) : ProgressReader where
  label := r.label
  told := r.told
  tally d := if d = '.' then Reading.start else r.tally d

/-- The next character: of a label, the end of a line, or a mark. -/
def read (r : ProgressReader) (c : Char) : ProgressReader :=
  match r.label with
  | some value =>
    if c = ')' then { r with label := none, told := some value }
    else if c.isDigit then { r with label := some (10 * value + (c.toNat - '0'.toNat)) }
    else r
  | none =>
    if c = '(' then { r with label := some 0 }
    else if c = '\n' then r
    else if c = 'F' then (r.see c (r.told.elim .plain .scaled)).forget
    else r.see c (r.told.elim .plain .scaled)

end ProgressReader

/-- What a reader makes of a text -/
def readProgress (text : List Char) : ProgressReader := text.foldl .read .start

/-- The passes since the last failure -/
def passesSinceFail (results : List TrialRes) : Nat :=
  (results.takeWhile (· ≠ .fail)).count .pass

/-! ## A mark -/

def ResultCount.tally (c : ResultCount) : Tally :=
  ⟨if c.scale = 0 then 1 else c.scale, c.consec⟩

/-- The text of a mark -/
def markText (name : List Char) (tally : Char) : Mark → List Char
  | .nothing => []
  | .plain => [tally]
  | .scaled scale => '(' :: name ++ [' ', 'x', ' '] ++ Nat.toDigits 10 scale ++ [')', tally]

/-- The scales of fewer than 10^18 results -/
theorem scale_bound {e : Nat} {t : Tally} {r : Reading} (h : Agree (10 ^ e) t r)
    (hdvd : e ∣ 18) (hmany : t.count < 10 ^ 18) : 10 ^ e * t.scale ≤ 10 ^ 18 := by
  obtain ⟨k, hk⟩ := h.power
  rw [← Nat.pow_mul] at hk
  have hlt : e * k < 18 := by
    have hscale : t.scale < 10 ^ 18 := by
      obtain hone | hlt := h.scale_le
      · omega
      · omega
    rw [hk] at hscale
    exact (Nat.pow_lt_pow_iff_right (by decide)).mp hscale
  obtain ⟨q, hq⟩ := hdvd
  have hkq : k < q := Nat.lt_of_mul_lt_mul_left (hq ▸ hlt)
  rw [hk, ← Nat.pow_add]
  apply Nat.pow_le_pow_right (by decide)
  calc e + e * k = e * (k + 1) := by rw [Nat.mul_succ, Nat.add_comm]
    _ ≤ e * q := Nat.mul_le_mul_left e hkq
    _ = 18 := hq.symm

/-- `autoscale_tally` writes a scaled tally. -/
theorem autoscaleTally_eq {base : Nat} {name : List Char} {tally : Char} {c : ResultCount}
    (hbase : 2 ≤ base) (hscale : base * c.tally.scale ≤ 10 ^ 18)
    (hbound : c.consec ≤ base * c.tally.scale) :
    (autoscaleTally base name tally c).1 = markText name tally (c.tally.mark base) ∧
    (autoscaleTally base name tally c).2.tally = c.tally.step base := by
  have hpos : 0 < c.tally.scale := by
    dsimp only [ResultCount.tally]
    split <;> omega
  have hnscale : base * c.tally.scale % 2 ^ 64 = base * c.tally.scale := Nat.mod_eq_of_lt (by omega)
  have hcount : (c.consec + 1) % 2 ^ 64 = c.consec + 1 := Nat.mod_eq_of_lt (by omega)
  have hzd : printZd (base * c.tally.scale) = Nat.toDigits 10 (base * c.tally.scale) :=
    if_pos (by omega)
  have hgrown : 2 * c.tally.scale ≤ base * c.tally.scale := Nat.mul_le_mul_right _ hbase
  have hsame : (if c.scale = 0 then 1 else c.scale) = c.tally.scale := rfl
  have hconsec : c.consec = c.tally.count := rfl
  unfold autoscaleTally Tally.mark Tally.step
  rw [hsame]
  dsimp only
  rw [hnscale, hcount, hzd, ← hconsec]
  by_cases hfull : c.consec = base * c.tally.scale
  · rw [if_pos (.inr (Nat.le_of_eq hfull.symm)), if_pos hfull, if_pos hfull, if_pos hfull]
    refine ⟨rfl, ?_⟩
    have hnonzero : base * c.tally.scale ≠ 0 := by omega
    exact congrArg (Tally.mk · (c.consec + 1)) (if_neg hnonzero)
  · simp only [if_neg hfull]
    by_cases hscaled : 1 < c.tally.scale
    · rw [if_pos (.inl hscaled)]
      split
      · exact ⟨rfl, rfl⟩
      · exact ⟨rfl, rfl⟩
    · have hone : c.tally.scale = 1 := by omega
      have hnot : ¬(1 < c.tally.scale ∨ base * c.tally.scale ≤ c.consec) := by omega
      rw [if_neg hnot, if_pos (by rw [hone]; exact Nat.mod_one _)]
      exact ⟨rfl, rfl⟩

/-! ## Reading a mark -/

namespace ProgressReader

/-- The name in a label says nothing. -/
theorem read_name {name : List Char} (hname : ∀ c ∈ name, c ≠ ')' ∧ c.isDigit = false)
    (r : ProgressReader) {value : Nat} (hlabel : r.label = some value) :
    name.foldl read r = r := by
  induction name with
  | nil => rfl
  | cons c name ih =>
    obtain ⟨hclose, hdigit⟩ := hname c List.mem_cons_self
    have hread : r.read c = r := by
      unfold read
      rw [hlabel]
      dsimp only
      rw [if_neg hclose, hdigit]
      rfl
    rw [List.foldl_cons, hread]
    exact ih fun d hd => hname d (List.mem_cons_of_mem c hd)

theorem read_digits (ds : List Char) : ∀ (r : ProgressReader) (value : Nat),
    (∀ c ∈ ds, c.isDigit = true) → r.label = some value →
    ds.foldl read r = { r with label := some (Nat.ofDigitChars 10 ds value) } := by
  induction ds with
  | nil =>
    intro r value _ hlabel
    rw [Nat.ofDigitChars_nil, ← hlabel]
    rfl
  | cons c ds ih =>
    intro r value hdigits hlabel
    have hdigit := hdigits c List.mem_cons_self
    have hclose : c ≠ ')' := by
      rintro rfl
      exact absurd hdigit (by decide)
    have hread : r.read c = { r with label := some (10 * value + (c.toNat - '0'.toNat)) } := by
      unfold read
      rw [hlabel]
      dsimp only
      rw [if_neg hclose, if_pos hdigit]
    rw [List.foldl_cons, hread, Nat.ofDigitChars_cons]
    exact ih _ _ (fun d hd => hdigits d (List.mem_cons_of_mem c hd)) rfl

theorem see_nothing {r : ProgressReader} (hlabel : r.label = none) (htold : r.told = none)
    (c : Char) : r.see c .nothing = r := by
  obtain ⟨label, told, tally⟩ := r
  cases hlabel
  cases htold
  have hsame : (fun d => if d = c then (tally c).see .nothing else tally d) = tally := by
    funext d
    split
    · rename_i hd
      rw [hd]
      rfl
    · rfl
  exact congrArg (ProgressReader.mk none none) hsame

/-- **A mark is read as it was written.** -/
theorem read_markText {name : List Char} (hname : ∀ c ∈ name, c ≠ ')' ∧ c.isDigit = false)
    {tally : Char} (htally : tally ≠ '(' ∧ tally ≠ '\n' ∧ tally ≠ 'F') {r : ProgressReader}
    (hlabel : r.label = none) (htold : r.told = none) (m : Mark) :
    (markText name tally m).foldl read r = r.see tally m := by
  have hmark : ∀ r' : ProgressReader, r'.label = none →
      r'.read tally = r'.see tally (r'.told.elim .plain .scaled) := by
    intro r' hlabel'
    unfold read
    rw [hlabel']
    dsimp only
    rw [if_neg htally.1, if_neg htally.2.1, if_neg htally.2.2]
  cases m with
  | nothing => exact (see_nothing hlabel htold tally).symm
  | plain =>
    rw [markText, List.foldl_cons, hmark r hlabel, htold]
    rfl
  | scaled scale =>
    have hopen : r.read '(' = { r with label := some 0 } := by
      unfold read
      rw [hlabel]
      rfl
    have hsep : ∀ c ∈ [' ', 'x', ' '], c ≠ ')' ∧ c.isDigit = false := by simp
    have hdigits : ∀ c ∈ Nat.toDigits 10 scale, c.isDigit = true := fun c hc =>
      Nat.isDigit_of_mem_toDigits (by decide) (by decide) hc
    unfold markText
    rw [List.foldl_append, List.foldl_append, List.foldl_append, List.foldl_cons (l := name), hopen,
      read_name hname _ rfl, read_name hsep _ rfl, read_digits _ _ 0 hdigits rfl,
      Nat.ofDigitChars_ten_toDigits, List.foldl_cons, List.foldl_cons]
    exact hmark _ rfl

theorem see_same (r : ProgressReader) (c : Char) (m : Mark) :
    (r.see c m).tally c = (r.tally c).see m := if_pos rfl

theorem read_newline {r : ProgressReader} (hlabel : r.label = none) : r.read '\n' = r := by
  unfold read
  rw [hlabel]
  rfl

end ProgressReader

/-! ## The results -/

/-- What the environment, and a reader of the text, know of the results -/
structure Shown (results : List TrialRes) (env : PrintTrialResultEnv) (r : ProgressReader) :
    Prop where
  label : r.label = none
  told : r.told = none
  pass : Agree 100 env.pass.tally (r.tally '.')
  passes : env.pass.consec = passesSinceFail results
  skip : Agree 10 env.skip.tally (r.tally 's')
  skips : env.skip.consec = results.count .skip
  dup : Agree 10 env.dup.tally (r.tally 'd')
  dups : env.dup.consec = results.count .dup
  fails : r.tally 'F' = ⟨1, results.count .fail⟩
  errors : r.tally 'E' = ⟨1, results.count .error⟩

/-- The mark of a scaled tally is printed, and read. -/
theorem read_autoscaleTally {base e : Nat} {name : List Char} {tally : Char} {c : ResultCount}
    {r : ProgressReader} (hagree : Agree base c.tally (r.tally tally)) (hpower : base = 10 ^ e)
    (hpos : 0 < e) (hdvd : e ∣ 18) (hmany : c.consec < 10 ^ 18)
    (hname : ∀ c ∈ name, c ≠ ')' ∧ c.isDigit = false)
    (htally : tally ≠ '(' ∧ tally ≠ '\n' ∧ tally ≠ 'F')
    (hlabel : r.label = none) (htold : r.told = none) :
    (autoscaleTally base name tally c).1.foldl .read r = r.see tally (c.tally.mark base) ∧
      Agree base (autoscaleTally base name tally c).2.tally
        ((r.see tally (c.tally.mark base)).tally tally) ∧
      (autoscaleTally base name tally c).2.consec = c.consec + 1 := by
  subst hpower
  have hbase : 2 ≤ 10 ^ e := Nat.le_trans (by decide) (Nat.pow_le_pow_right (by decide) hpos)
  obtain ⟨htext, hstep⟩ := autoscaleTally_eq hbase
    (scale_bound hagree hdvd hmany) hagree.bound
  refine ⟨?_, ?_, ?_⟩
  · rw [htext]
    exact ProgressReader.read_markText hname htally hlabel htold _
  · rw [hstep, ProgressReader.see_same]
    exact hagree.step hbase
  · exact congrArg Tally.count hstep

theorem passesSinceFail_other {result : TrialRes} (hpass : result ≠ .pass)
    (hfail : result ≠ .fail) (older : List TrialRes) :
    passesSinceFail (result :: older) = passesSinceFail older := by
  unfold passesSinceFail
  rw [List.takeWhile_cons_of_pos (by simpa using hfail), List.count_cons_of_ne hpass]

theorem passesSinceFail_pass (older : List TrialRes) :
    passesSinceFail (.pass :: older) = passesSinceFail older + 1 := by
  unfold passesSinceFail
  rw [List.takeWhile_cons_of_pos (by decide), List.count_cons_self]

theorem passesSinceFail_le (results : List TrialRes) : passesSinceFail results ≤ results.length :=
  Nat.le_trans List.count_le_length (List.takeWhile_sublist _).length_le

section
variable {older : List TrialRes} {env : PrintTrialResultEnv} {r : ProgressReader}

/-- The mark for one more result is read. -/
theorem Shown.mark (h : Shown older env r) (hmany : older.length < 10 ^ 18) (result : TrialRes) :
    Shown (result :: older) (env.mark result).2 ((env.mark result).1.foldl .read r) := by
  have hletters : ∀ name ∈ [['P', 'A', 'S', 'S'], ['S', 'K', 'I', 'P'], ['D', 'U', 'P']],
      ∀ c ∈ name, c ≠ ')' ∧ c.isDigit = false := by simp
  cases result with
  | pass =>
    have hcount := h.passes ▸ Nat.lt_of_le_of_lt (passesSinceFail_le older) hmany
    obtain ⟨hread, hagree, hone⟩ := read_autoscaleTally (e := 2) h.pass rfl (by decide)
      (by decide) hcount (hletters ['P', 'A', 'S', 'S'] (by decide)) (by decide) h.label h.told
    dsimp only [PrintTrialResultEnv.mark]
    rw [hread]
    exact {
      label := rfl
      told := rfl
      pass := hagree
      passes := by rw [hone, h.passes, passesSinceFail_pass]
      skip := by simpa [ProgressReader.see] using h.skip
      skips := h.skips
      dup := by simpa [ProgressReader.see] using h.dup
      dups := h.dups
      fails := by simpa [ProgressReader.see] using h.fails
      errors := by simpa [ProgressReader.see] using h.errors }
  | fail =>
    dsimp only [PrintTrialResultEnv.mark]
    have hread : ['F'].foldl ProgressReader.read r = (r.see 'F' .plain).forget := by
      simp only [List.foldl_cons, List.foldl_nil, ProgressReader.read, h.label, h.told]
      rfl
    rw [hread]
    exact {
      label := rfl
      told := rfl
      pass := start_agree
      passes := rfl
      skip := by simpa [ProgressReader.see, ProgressReader.forget] using h.skip
      skips := h.skips
      dup := by simpa [ProgressReader.see, ProgressReader.forget] using h.dup
      dups := h.dups
      fails := by simp [ProgressReader.see, ProgressReader.forget, h.fails, Reading.see]
      errors := by simpa [ProgressReader.see, ProgressReader.forget] using h.errors }
  | skip =>
    have hcount := h.skips ▸ Nat.lt_of_le_of_lt List.count_le_length hmany
    obtain ⟨hread, hagree, hone⟩ := read_autoscaleTally (e := 1) h.skip rfl (by decide)
      (by decide) hcount (hletters ['S', 'K', 'I', 'P'] (by decide)) (by decide) h.label h.told
    dsimp only [PrintTrialResultEnv.mark]
    rw [hread]
    exact {
      label := rfl
      told := rfl
      pass := by simpa [ProgressReader.see] using h.pass
      passes := h.passes.trans (passesSinceFail_other (by decide) (by decide) older).symm
      skip := hagree
      skips := by rw [hone, h.skips, List.count_cons_self]
      dup := by simpa [ProgressReader.see] using h.dup
      dups := h.dups
      fails := by simpa [ProgressReader.see] using h.fails
      errors := by simpa [ProgressReader.see] using h.errors }
  | dup =>
    have hcount := h.dups ▸ Nat.lt_of_le_of_lt List.count_le_length hmany
    obtain ⟨hread, hagree, hone⟩ := read_autoscaleTally (e := 1) h.dup rfl (by decide)
      (by decide) hcount (hletters ['D', 'U', 'P'] (by decide)) (by decide) h.label h.told
    dsimp only [PrintTrialResultEnv.mark]
    rw [hread]
    exact {
      label := rfl
      told := rfl
      pass := by simpa [ProgressReader.see] using h.pass
      passes := h.passes.trans (passesSinceFail_other (by decide) (by decide) older).symm
      skip := by simpa [ProgressReader.see] using h.skip
      skips := h.skips
      dup := hagree
      dups := by rw [hone, h.dups, List.count_cons_self]
      fails := by simpa [ProgressReader.see] using h.fails
      errors := by simpa [ProgressReader.see] using h.errors }
  | error =>
    dsimp only [PrintTrialResultEnv.mark]
    have hread : ['E'].foldl ProgressReader.read r = r.see 'E' .plain := by
      simp only [List.foldl_cons, List.foldl_nil, ProgressReader.read, h.label, h.told]
      rfl
    rw [hread]
    exact {
      label := rfl
      told := rfl
      pass := by simpa [ProgressReader.see] using h.pass
      passes := h.passes.trans (passesSinceFail_other (by decide) (by decide) older).symm
      skip := by simpa [ProgressReader.see] using h.skip
      skips := h.skips
      dup := by simpa [ProgressReader.see] using h.dup
      dups := h.dups
      fails := by simpa [ProgressReader.see] using h.fails
      errors := by simp [ProgressReader.see, h.errors, Reading.see] }

/-- One more result is printed, and read. -/
theorem Shown.print (h : Shown older env r) (hmany : older.length < 10 ^ 18) (result : TrialRes) :
    Shown (result :: older) (printTrialResult env result).2
      ((printTrialResult env result).1.foldl .read r) := by
  have hmark := h.mark hmany result
  unfold printTrialResult
  dsimp only
  split
  · rw [List.foldl_cons, ProgressReader.read_newline h.label]
    exact { hmark with }
  · exact { hmark with }

theorem printResults_shown (maxColumn : Byte) (results : List TrialRes) :
    results.length ≤ 10 ^ 18 → Shown results (printResults maxColumn results).2
      (readProgress (printResults maxColumn results).1) := by
  induction results with
  | nil =>
    intro _
    exact ⟨rfl, rfl, start_agree, rfl, start_agree, rfl, start_agree, rfl, rfl, rfl⟩
  | cons result older ih =>
    intro hmany
    have hmany' : older.length < 10 ^ 18 := hmany
    dsimp only [printResults]
    unfold readProgress
    rw [List.foldl_append]
    exact (ih (Nat.le_of_lt hmany')).print hmany' result

end

/-- **The progress of a run can be read.** A reader of what was printed for up to 10^18 results
knows how many were skipped and how many were duplicates, and how many passed since the last
failure, up to what one mark stands for; and of the failures and errors just how many. -/
theorem read_printed (maxColumn : Byte) (results : List TrialRes) (hmany : results.length ≤ 10 ^ 18) :
    let told := (readProgress (printResults maxColumn results).1).tally
    (told '.').Tells (passesSinceFail results) ∧
      (told 's').Tells (results.count .skip) ∧ (told 'd').Tells (results.count .dup) ∧
      (told 'F').next = results.count .fail ∧ (told 'E').next = results.count .error := by
  intro told
  have h := printResults_shown maxColumn results hmany
  refine ⟨?_, ?_, ?_, congrArg Reading.next h.fails, congrArg Reading.next h.errors⟩
  · exact h.passes ▸ h.pass.tells
  · exact h.skips ▸ h.skip.tells
  · exact h.dups ▸ h.dup.tells

/-! ## Columns -/

/-- The column after a character. The report of a failure has begun a line of its own. -/
def nextColumn (column : Nat) (c : Char) : Nat :=
  if c = '\n' then 0 else if c = 'F' then 1 else column + 1

/-- The column at the end of a text -/
def textColumn (text : List Char) : Nat := text.foldl nextColumn 0

theorem foldl_nextColumn {buf : List Char} (h : ∀ c ∈ buf, c ≠ '\n' ∧ c ≠ 'F') (column : Nat) :
    buf.foldl nextColumn column = column + buf.length := by
  induction buf generalizing column with
  | nil => rfl
  | cons c buf ih =>
    obtain ⟨hline, hfail⟩ := h c List.mem_cons_self
    rw [List.foldl_cons, ih fun d hd => h d (List.mem_cons_of_mem c hd), nextColumn, if_neg hline,
      if_neg hfail, List.length_cons]
    omega

/-- A mark in the line -/
theorem markText_plain {name : List Char} {tally : Char} {m : Mark}
    (hname : name.length ≤ 4 ∧ ∀ c ∈ name, c ≠ '\n' ∧ c ≠ 'F')
    (htally : tally ≠ '\n' ∧ tally ≠ 'F') (hscale : ∀ scale, m = .scaled scale → scale ≤ 10 ^ 18) :
    (∀ c ∈ markText name tally m, c ≠ '\n' ∧ c ≠ 'F') ∧ (markText name tally m).length ≤ 29 := by
  cases m with
  | nothing => exact ⟨nofun, Nat.zero_le _⟩
  | plain => exact ⟨by simpa [markText] using htally, Nat.le_of_ble_eq_true rfl⟩
  | scaled scale =>
    constructor
    · have hdigits : ∀ c ∈ Nat.toDigits 10 scale, c ≠ '\n' ∧ c ≠ 'F' := by
        intro c hc
        have hdigit : c.isDigit = true := Nat.isDigit_of_mem_toDigits (by decide) (by decide) hc
        constructor <;> rintro rfl <;> exact absurd hdigit (by decide)
      intro c hc
      simp only [markText, List.mem_append, List.mem_cons, List.not_mem_nil, or_false] at hc
      obtain (((rfl | hc) | rfl | rfl | rfl) | hc) | rfl | rfl := hc
      · decide
      · exact hname.2 c hc
      · decide
      · decide
      · decide
      · exact hdigits c hc
      · decide
      · exact htally
    · have hdigits : (Nat.toDigits 10 scale).length ≤ 19 :=
        (Nat.length_toDigits_le_iff (by decide) (by decide)).mpr
          (Nat.lt_of_le_of_lt (hscale scale rfl) (by decide))
      have hshort := hname.1
      simp only [markText, List.length_append, List.length_cons, List.length_nil]
      omega

/-- What a mark does to the column -/
structure MarkFits (env : PrintTrialResultEnv) (result : TrialRes) : Prop where
  short : (env.mark result).1.length ≤ 29
  width : (env.mark result).2.maxColumn = env.maxColumn
  line : ∀ buf, buf <+: (env.mark result).1 → buf.foldl nextColumn 0 = buf.length
  within : ∀ buf, buf <+: (env.mark result).1 →
    buf.foldl nextColumn env.column.toNat ≤ env.column.toNat ∨
      buf.foldl nextColumn env.column.toNat ≤
        (env.mark result).2.column.toNat + (env.mark result).1.length
  after : (env.mark result).1.foldl nextColumn env.column.toNat =
    (env.mark result).2.column.toNat + (env.mark result).1.length

theorem MarkFits.of_plain {env : PrintTrialResultEnv} {result : TrialRes}
    (hchars : ∀ c ∈ (env.mark result).1, c ≠ '\n' ∧ c ≠ 'F')
    (hshort : (env.mark result).1.length ≤ 29)
    (hwidth : (env.mark result).2.maxColumn = env.maxColumn)
    (hcolumn : (env.mark result).2.column = env.column) : MarkFits env result where
  short := hshort
  width := hwidth
  line buf hbuf := by
    rw [foldl_nextColumn fun c hc => hchars c (hbuf.subset hc), Nat.zero_add]
  within buf hbuf := by
    right
    rw [foldl_nextColumn fun c hc => hchars c (hbuf.subset hc), hcolumn]
    exact Nat.add_le_add_left hbuf.length_le _
  after := by rw [foldl_nextColumn hchars, hcolumn]

/-- The mark of a scaled tally fits into a line. -/
theorem autoscaleTally_plain {base e : Nat} {name : List Char} {tally : Char} {c : ResultCount}
    {r : Reading} (hagree : Agree base c.tally r) (hpower : base = 10 ^ e) (hpos : 0 < e)
    (hdvd : e ∣ 18) (hmany : c.consec < 10 ^ 18)
    (hname : name.length ≤ 4 ∧ ∀ c ∈ name, c ≠ '\n' ∧ c ≠ 'F')
    (htally : tally ≠ '\n' ∧ tally ≠ 'F') :
    (∀ d ∈ (autoscaleTally base name tally c).1, d ≠ '\n' ∧ d ≠ 'F') ∧
      (autoscaleTally base name tally c).1.length ≤ 29 := by
  subst hpower
  have hbase : 2 ≤ 10 ^ e := Nat.le_trans (by decide) (Nat.pow_le_pow_right (by decide) hpos)
  have hscale := scale_bound hagree hdvd hmany
  rw [(autoscaleTally_eq hbase hscale hagree.bound).1]
  refine markText_plain hname htally fun scale hmark => ?_
  unfold Tally.mark at hmark
  split at hmark
  · cases hmark
    exact hscale
  · split at hmark <;> cases hmark

section
variable {older : List TrialRes} {env : PrintTrialResultEnv} {r : ProgressReader}

theorem Shown.fits (h : Shown older env r) (hmany : older.length < 10 ^ 18) (result : TrialRes) :
    MarkFits env result := by
  cases result with
  | pass =>
    have hcount := h.passes ▸ Nat.lt_of_le_of_lt (passesSinceFail_le older) hmany
    obtain ⟨hchars, hshort⟩ := @autoscaleTally_plain 100 2 ['P', 'A', 'S', 'S'] '.' _ _ h.pass rfl
      (by decide) (by decide) hcount (by simp) (by decide)
    exact .of_plain hchars hshort rfl rfl
  | fail =>
    refine ⟨Nat.le_of_ble_eq_true rfl, rfl, fun buf hbuf => ?_, fun buf hbuf => ?_, rfl⟩
    · obtain rfl | ⟨rest, rfl, hrest⟩ := List.prefix_cons_iff.mp hbuf
      · rfl
      · cases List.prefix_nil.mp hrest
        rfl
    · obtain rfl | ⟨rest, rfl, hrest⟩ := List.prefix_cons_iff.mp hbuf
      · exact .inl (Nat.le_refl _)
      · cases List.prefix_nil.mp hrest
        exact .inr (Nat.le_refl _)
  | skip =>
    have hcount := h.skips ▸ Nat.lt_of_le_of_lt List.count_le_length hmany
    obtain ⟨hchars, hshort⟩ := @autoscaleTally_plain 10 1 ['S', 'K', 'I', 'P'] 's' _ _ h.skip rfl
      (by decide) (by decide) hcount (by simp) (by decide)
    exact .of_plain hchars hshort rfl rfl
  | dup =>
    have hcount := h.dups ▸ Nat.lt_of_le_of_lt List.count_le_length hmany
    obtain ⟨hchars, hshort⟩ := @autoscaleTally_plain 10 1 ['D', 'U', 'P'] 'd' _ _ h.dup rfl
      (by decide) (by decide) hcount (by simp) (by decide)
    exact .of_plain hchars hshort rfl rfl
  | error =>
    have hchars : ∀ c ∈ ['E'], c ≠ '\n' ∧ c ≠ 'F' := by simp
    exact .of_plain hchars (Nat.le_of_ble_eq_true rfl) rfl rfl

end

/-- No line reaches the last column, and the environment knows where it ends. -/
structure InColumns (maxcol : Nat) (text : List Char) (env : PrintTrialResultEnv) : Prop where
  width : env.maxcol = maxcol
  column : env.column.toNat = textColumn text
  within : ∀ shown, shown <+: text → textColumn shown < max maxcol 30

theorem PrintTrialResultEnv.maxcol_le (env : PrintTrialResultEnv) : env.maxcol ≤ 255 := by
  unfold maxcol
  split
  · decide
  · have := env.maxColumn.isLt
    omega

theorem InColumns.print {maxcol : Nat} {text : List Char} {env : PrintTrialResultEnv}
    {result : TrialRes} (h : InColumns maxcol text env) (hfits : MarkFits env result) :
    InColumns maxcol (text ++ (printTrialResult env result).1) (printTrialResult env result).2 := by
  have hwidth : (env.mark result).2.maxcol = maxcol := by
    rw [← h.width]
    unfold PrintTrialResultEnv.maxcol
    rw [hfits.width]
  have hle : maxcol ≤ 255 := h.width ▸ env.maxcol_le
  have hshort := hfits.short
  have hcolumn : textColumn text < max maxcol 30 := h.within text (List.prefix_refl text)
  -- a text that goes on after the one before
  have hmore : ∀ buf : List Char, (∀ more, more <+: buf →
      more.foldl nextColumn env.column.toNat < max maxcol 30) →
      ∀ shown, shown <+: text ++ buf → textColumn shown < max maxcol 30 := by
    intro buf hbuf shown hshown
    obtain hbefore | ⟨more, rfl⟩ := List.prefix_or_prefix_of_prefix hshown (List.prefix_append text buf)
    · exact h.within shown hbefore
    · rw [textColumn, List.foldl_append, ← textColumn, ← h.column]
      exact hbuf more ((List.prefix_append_right_inj text).mp hshown)
  unfold printTrialResult
  dsimp only
  split
  · have hline : ∀ column, nextColumn column '\n' = 0 := fun _ => rfl
    refine ⟨hwidth, ?_, hmore _ fun more hprefix => ?_⟩
    · rw [textColumn, List.foldl_append, List.foldl_cons, hline, hfits.line _ (List.prefix_refl _)]
      exact Nat.mod_eq_of_lt (by omega)
    · obtain rfl | ⟨rest, rfl, hrest⟩ := List.prefix_cons_iff.mp hprefix
      · exact h.column ▸ hcolumn
      · rw [List.foldl_cons, hline, hfits.line rest hrest]
        have := hrest.length_le
        omega
  · rename_i hroom
    refine ⟨hwidth, ?_, hmore _ fun more hprefix => ?_⟩
    · rw [textColumn, List.foldl_append, ← textColumn, ← h.column, hfits.after]
      exact Nat.mod_eq_of_lt (by omega)
    · have hwithin := hfits.within more hprefix
      have hbefore := h.column
      omega

end Theft
