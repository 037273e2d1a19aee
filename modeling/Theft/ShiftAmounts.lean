import Theft.Source
import Theft.BulkBuffer

/-!
# Shifts of a word by its width

A shift of a 64-bit word by 64 is undefined in C. The loops are run here with the amounts of
their shifts noted (`drawBits_logged`, `copyBits_logged`: nothing else about them is different).
The reader of a pool never shifts by more than 63. The generator's buffer is shifted by 64 when
a whole word of it is taken at once, and `shifts_fit_iff` says when that is: a request for at
least 64 bits that finds no bits left over.
-/

namespace Theft

open PackedBits

/-- The shift of `get_mask`, which leaves out that by 64. -/
def maskShifts (bits : Nat) : List Nat := if bits = 64 then [] else [bits]

theorem maskShifts_le {bits : Nat} (h : bits ≤ 64) : ∀ amount ∈ maskShifts bits, amount ≤ 63 := by
  intro amount hmem
  unfold maskShifts at hmem
  split at hmem
  · cases hmem
  · simp only [List.mem_singleton] at hmem
    omega

section
variable {R : Type} [Platform R]

/-! ## Drawing from the generator -/

/-- `drawBits`, and the amounts of its shifts -/
def drawLogged : Nat → (rem shift offset : Nat) → List Word → Prng R →
    Except Stop (List Word × Prng R) × List Nat
  | 0, _, _, _, _, _ => (.error .fuel, [])
  | fuel + 1, rem, shift, offset, buf, p =>
    if 0 < rem then
      let p := p.refill
      let take := 64 - shift
      let take := if rem < take then rem else take
      let take := if p.bitsAvailable < take then p.bitsAvailable else take
      match buf[offset]? with
      | none => (.error .outOfBounds, maskShifts take)
      | some w =>
        let buf := buf.set offset (w ||| ((p.buf &&& getMask take) <<< shift))
        let rest :=
          if shift + take = 64 then drawLogged fuel (rem - take) 0 (offset + 1) buf (p.advance take)
          else drawLogged fuel (rem - take) (shift + take) offset buf (p.advance take)
        (rest.1, maskShifts take ++ [shift, take] ++ rest.2)
    else (.ok (buf, p), [])

theorem drawBits_logged (fuel : Nat) : ∀ rem shift offset (buf : List Word) (p : Prng R),
    (drawLogged fuel rem shift offset buf p).1 = drawBits fuel rem shift offset buf p := by
  induction fuel with
  | zero =>
    intro rem shift offset buf p
    rfl
  | succ fuel ih =>
    intro rem shift offset buf p
    unfold drawLogged drawBits
    by_cases hrem : 0 < rem
    · simp only [if_pos hrem]
      cases buf[offset]? with
      | none => rfl
      | some w =>
        simp only [apply_ite Prod.fst, ih]
    · simp only [if_neg hrem]

/-- How many bits a round takes -/
def Prng.taken (p : Prng R) (rem shift : Nat) : Nat :=
  min (min (64 - shift) rem) p.refill.bitsAvailable

theorem Prng.taken_eq (p : Prng R) (rem shift : Nat) :
    (if p.refill.bitsAvailable < (if rem < 64 - shift then rem else 64 - shift)
      then p.refill.bitsAvailable else (if rem < 64 - shift then rem else 64 - shift)) =
      p.taken rem shift := by
  unfold taken
  split <;> split <;> omega

/-- One round of the loop. -/
theorem drawLogged_round (fuel shift : Nat) (p : Prng R) {rem offset : Nat} {buf : List Word}
    (hrem : 0 < rem) (hoffset : offset < buf.length) :
    ∃ buf', buf'.length = buf.length ∧ drawLogged (fuel + 1) rem shift offset buf p =
      ((if shift + p.taken rem shift = 64 then
          drawLogged fuel (rem - p.taken rem shift) 0 (offset + 1) buf'
            (p.refill.advance (p.taken rem shift))
        else drawLogged fuel (rem - p.taken rem shift) (shift + p.taken rem shift) offset buf'
          (p.refill.advance (p.taken rem shift))).1,
        maskShifts (p.taken rem shift) ++ [shift, p.taken rem shift] ++
        (if shift + p.taken rem shift = 64 then
          drawLogged fuel (rem - p.taken rem shift) 0 (offset + 1) buf'
            (p.refill.advance (p.taken rem shift))
        else drawLogged fuel (rem - p.taken rem shift) (shift + p.taken rem shift) offset buf'
          (p.refill.advance (p.taken rem shift))).2) := by
  have hw : buf[offset]? = some buf[offset] := List.getElem?_eq_getElem hoffset
  refine ⟨buf.set offset (buf[offset] |||
    ((p.refill.buf &&& getMask (p.taken rem shift)) <<< shift)), List.length_set, ?_⟩
  rw [drawLogged, if_pos hrem]
  simp only [hw, p.taken_eq]

theorem refill_available (p : Prng R) :
    p.refill.bitsAvailable = if p.bitsAvailable = 0 then 64 else p.bitsAvailable := by
  unfold Prng.refill
  split <;> rfl

/-- While the bits in both words do not line up, or less than a word is left, no round takes a
whole word. -/
theorem drawLogged_fits (fuel : Nat) : ∀ rem shift offset (buf : List Word) (p : Prng R),
    rem < fuel → shift < 64 → 64 * offset + shift + rem ≤ 64 * buf.length →
    p.bitsAvailable < 64 → (rem < 64 ∨ (shift + p.bitsAvailable) % 64 ≠ 0) →
    ∀ amount ∈ (drawLogged fuel rem shift offset buf p).2, amount ≤ 63 := by
  induction fuel with
  | zero =>
    intro rem shift offset buf p hfuel
    omega
  | succ fuel ih =>
    intro rem shift offset buf p hfuel hshift hroom havail hline
    by_cases hrem : 0 < rem
    · obtain ⟨buf', hlen, hround⟩ := drawLogged_round fuel shift p hrem
        (show offset < buf.length by omega)
      have hrefill := refill_available p
      have htaken : p.taken rem shift = min (min (64 - shift) rem) p.refill.bitsAvailable := rfl
      have hleft : (p.refill.advance (p.taken rem shift)).bitsAvailable =
          p.refill.bitsAvailable - p.taken rem shift := rfl
      generalize p.taken rem shift = take at hround htaken hleft
      have hbounds : 0 < take ∧ take ≤ 63 ∧ take ≤ rem ∧ take ≤ 64 - shift ∧
          take ≤ p.refill.bitsAvailable ∧ p.refill.bitsAvailable - take < 64 := by
        split at hrefill <;> omega
      obtain ⟨hpos, hsmall, hle, hshift', havail', hlt⟩ := hbounds
      have hrest : ∀ amount ∈ (if shift + take = 64 then
          drawLogged fuel (rem - take) 0 (offset + 1) buf' (p.refill.advance take)
          else drawLogged fuel (rem - take) (shift + take) offset buf'
            (p.refill.advance take)).2, amount ≤ 63 := by
        split
        · apply ih
          · omega
          · omega
          · omega
          · omega
          · rw [hleft]
            split at hrefill <;> omega
        · apply ih
          · omega
          · omega
          · omega
          · omega
          · rw [hleft]
            split at hrefill <;> omega
      rw [hround]
      simp only [List.append_assoc, List.mem_append, List.mem_cons, List.not_mem_nil, or_false]
      rintro amount (hmem | (rfl | rfl) | hmem)
      · exact maskShifts_le (by omega) _ hmem
      · omega
      · omega
      · exact hrest _ hmem
    · rw [drawLogged, if_neg hrem]
      simp

/-- A whole word is taken when the bits line up. -/
theorem drawLogged_overshifts {fuel rem offset : Nat} {buf : List Word} {p : Prng R}
    (hrem : 64 ≤ rem) (hoffset : offset < buf.length) (havail : p.bitsAvailable = 0) :
    64 ∈ (drawLogged (fuel + 1) rem 0 offset buf p).2 := by
  obtain ⟨buf', -, hround⟩ := drawLogged_round fuel 0 p (show 0 < rem by omega) hoffset
  have htaken : p.taken rem 0 = 64 := by
    rw [Prng.taken, refill_available, if_pos havail]
    omega
  rw [hround, htaken]
  simp

theorem drawBits_available (fuel : Nat) : ∀ rem shift offset (buf buf' : List Word) (p p' : Prng R),
    p.bitsAvailable < 64 → shift < 64 → drawBits fuel rem shift offset buf p = .ok (buf', p') →
    p'.bitsAvailable < 64 := by
  induction fuel with
  | zero =>
    intro rem shift offset buf buf' p p' _ _ h
    cases h
  | succ fuel ih =>
    intro rem shift offset buf buf' p p' havail hshift h
    unfold drawBits at h
    split at h
    · rename_i hrem
      have hrefill := refill_available p
      simp only [p.taken_eq] at h
      have hlt : (p.refill.advance (p.taken rem shift)).bitsAvailable < 64 := by
        have htaken : p.taken rem shift = min (min (64 - shift) rem) p.refill.bitsAvailable := rfl
        change p.refill.bitsAvailable - p.taken rem shift < 64
        split at hrefill <;> omega
      have htaken : p.taken rem shift ≤ 64 - shift := by
        unfold Prng.taken
        omega
      split at h
      · cases h
      · split at h
        · exact ih _ _ _ _ _ _ _ hlt (by omega) h
        · exact ih _ _ _ _ _ _ _ hlt (by omega) h
    · cases h
      exact havail

/-! ## Reading a pool -/

/-- `copyBits`, and the amounts of its shifts -/
def copyLogged (src : List Byte) (bitCount : Nat) :
    Nat → (i srcOffset srcBit dstOffset : Nat) → List Word → Except Stop (List Word) × List Nat
  | 0, _, _, _, _, _ => (.error .fuel, [])
  | fuel + 1, i, srcOffset, srcBit, dstOffset, dst =>
    if i < bitCount then
      let dstBit := i % 64
      let srcRem := 64 - srcBit
      let dstReq := if bitCount - i < 64 - dstBit then bitCount - i else 64 - dstBit
      let toCopy := if dstReq < srcRem then dstReq else srcRem
      match getWord src srcOffset, dst[dstOffset]? with
      | some s, some d =>
        let dst := dst.set dstOffset (d ||| (((s >>> srcBit) &&& getMask toCopy) <<< dstBit))
        let srcWrap := srcBit + toCopy = 64
        let srcOffset := if srcWrap then srcOffset + 1 else srcOffset
        let srcBit' := if srcWrap then 0 else srcBit + toCopy
        let rest :=
          if dstBit + toCopy = 64 then
            if i + toCopy < bitCount then
              if dstOffset + 1 < dst.length then
                copyLogged src bitCount fuel (i + toCopy) srcOffset srcBit' (dstOffset + 1)
                  (dst.set (dstOffset + 1) 0)
              else (.error .outOfBounds, [])
            else copyLogged src bitCount fuel (i + toCopy) srcOffset srcBit' (dstOffset + 1) dst
          else copyLogged src bitCount fuel (i + toCopy) srcOffset srcBit' dstOffset dst
        (rest.1, maskShifts toCopy ++ [srcBit, dstBit] ++ rest.2)
      | _, _ => (.error .outOfBounds, maskShifts toCopy ++ [srcBit, dstBit])
    else (.ok dst, [])

theorem copyBits_logged (src : List Byte) (bitCount fuel : Nat) :
    ∀ i srcOffset srcBit dstOffset dst,
      (copyLogged src bitCount fuel i srcOffset srcBit dstOffset dst).1 =
        copyBits src bitCount fuel i srcOffset srcBit dstOffset dst := by
  induction fuel with
  | zero =>
    intro i srcOffset srcBit dstOffset dst
    rfl
  | succ fuel ih =>
    intro i srcOffset srcBit dstOffset dst
    unfold copyLogged copyBits
    by_cases hmore : i < bitCount
    · simp only [if_pos hmore]
      cases getWord src srcOffset with
      | none => rfl
      | some s =>
        cases dst[dstOffset]? with
        | none => rfl
        | some d => simp only [apply_ite Prod.fst, ih]
    · simp only [if_neg hmore]

/-- Both cursors are kept below 64. -/
theorem copyLogged_fits (src : List Byte) (bitCount fuel : Nat) :
    ∀ i srcOffset srcBit dstOffset dst, srcBit < 64 →
      ∀ amount ∈ (copyLogged src bitCount fuel i srcOffset srcBit dstOffset dst).2,
        amount ≤ 63 := by
  induction fuel with
  | zero =>
    intro i srcOffset srcBit dstOffset dst _ amount hmem
    cases hmem
  | succ fuel ih =>
    intro i srcOffset srcBit dstOffset dst hsrc
    unfold copyLogged
    split
    · dsimp only
      generalize ht : (if (if bitCount - i < 64 - i % 64 then bitCount - i else 64 - i % 64) <
        64 - srcBit then (if bitCount - i < 64 - i % 64 then bitCount - i else 64 - i % 64)
        else 64 - srcBit) = t
      have ht' : t ≤ 64 - srcBit := by
        split at ht <;> split at ht <;> omega
      have hsrc' : (if srcBit + t = 64 then 0 else srcBit + t) < 64 := by
        split <;> omega
      have hnow : ∀ amount ∈ maskShifts t ++ [srcBit, i % 64], amount ≤ 63 := by
        simp only [List.mem_append, List.mem_cons, List.not_mem_nil, or_false]
        rintro amount (hmem | rfl | rfl)
        · exact maskShifts_le (by omega) _ hmem
        · omega
        · omega
      split
      · intro amount hmem
        obtain hmem | hmem := List.mem_append.mp hmem
        · exact hnow _ hmem
        · revert hmem
          split
          · split
            · split
              · exact ih _ _ _ _ _ hsrc' _
              · intro hmem
                cases hmem
            · exact ih _ _ _ _ _ hsrc' _
          · exact ih _ _ _ _ _ hsrc' _
      · exact hnow
    · intro amount hmem
      cases hmem

/-- The shifts of `fill_buf` -/
def fillShifts (pool : BitPool) (bitCount : Nat) (dst : List Word) : List Nat :=
  (copyLogged pool.bits bitCount (bitCount + 1) 0 (pool.consumed / 64) (pool.consumed % 64) 0
    (dst.set 0 0)).2

/-- The shifts of `theft_autoshrink_bit_pool_random`: those of `fill_buf`, when it is called -/
def poolShifts (rng : R) (pool : BitPool) (bitCount : Nat) (buf : List Word) : List Nat :=
  if bitCount = 0 then []
  else
    match if pool.shrinking then .ok (rng, pool) else lazilyFillBitPool rng pool bitCount with
    | .error _ => []
    | .ok (_, pool) =>
      if pool.consumed = pool.limit then []
      else
        let bitCount :=
          if pool.limit ≤ pool.consumed + bitCount then pool.limit - pool.consumed else bitCount
        match appendRequest pool bitCount with
        | .error _ => []
        | .ok pool => fillShifts pool bitCount buf

theorem poolShifts_fit (rng : R) (pool : BitPool) (bitCount : Nat) (buf : List Word) :
    ∀ amount ∈ poolShifts rng pool bitCount buf, amount ≤ 63 := by
  unfold poolShifts
  split
  · simp
  · split
    · simp
    · split
      · simp
      · dsimp only
        split
        · simp
        · exact copyLogged_fits _ _ _ _ _ _ _ _ (Nat.mod_lt _ (by decide))

/-! ## Calls in a row -/

/-- What the callers of `theft_random.c` may do. -/
inductive RandomCall
  | setSeed (seed : Word)
  | inject (pool : BitPool)
  | stopUsing
  | bulk (bitCount : Nat) (buf : List Word)

/-- A buffer is large enough for its request. -/
def RandomCall.Proper : RandomCall → Prop
  | .bulk bitCount buf => wordCount bitCount ≤ buf.length
  | _ => True

def RandomCall.perform : RandomCall → Draw R Unit
  | .setSeed seed => modify fun p => p.setSeed seed
  | .inject pool => modify fun p => p.injectBitPool pool
  | .stopUsing => modify Prng.stopUsingBitPool
  | .bulk bitCount buf => do
    let _ ← randomBitsBulk bitCount buf

/-- The shifts of `theft_random_bits_bulk` -/
def bulkShifts (bitCount : Nat) (buf : List Word) (p : Prng R) : List Nat :=
  match p.bitPool with
  | some pool => poolShifts p.rng pool bitCount buf
  | none => (drawLogged (bitCount + 1) bitCount 0 0 buf p).2

def RandomCall.shifts : RandomCall → Prng R → List Nat
  | .bulk bitCount buf, p => bulkShifts bitCount buf p
  | _, _ => []

/-- The shifts of calls in a row, up to the first that does not return -/
def shiftsOf : List RandomCall → Prng R → List Nat
  | [], _ => []
  | call :: calls, p =>
    call.shifts p ++
      match call.perform p with
      | .ok _ p => shiftsOf calls p
      | .error _ _ => []

/-- The call is no request for a whole word when the generator's buffer is empty. -/
def RandomCall.Fits (p : Prng R) : RandomCall → Prop
  | .bulk bitCount _ => p.bitPool = none → bitCount < 64 ∨ p.bitsAvailable ≠ 0
  | _ => True

/-- Each of the calls in a row fits where it is made. -/
def EachFits : List RandomCall → Prng R → Prop
  | [], _ => True
  | call :: calls, p =>
    call.Fits p ∧
      match call.perform p with
      | .ok _ p => EachFits calls p
      | .error _ _ => True

/-- Fewer bits are left over than a word has. -/
theorem perform_available {call : RandomCall} {p p' : Prng R} (havail : p.bitsAvailable < 64)
    (h : call.perform p = .ok () p') : p'.bitsAvailable < 64 := by
  cases call with
  | setSeed seed =>
    cases h
    exact Nat.zero_lt_succ _
  | inject pool =>
    cases h
    exact havail
  | stopUsing =>
    cases h
    exact havail
  | bulk bitCount buf =>
    obtain ⟨out, u, hrun, hu⟩ := Exec.bind_eq_ok.mp h
    cases hu
    unfold randomBitsBulk at hrun
    split at hrun
    · split at hrun
      · cases hrun
        exact havail
      · cases hrun
    · split at hrun
      · rename_i hdraw
        cases hrun
        exact drawBits_available _ _ _ _ _ _ _ _ havail (by decide) hdraw
      · cases hrun

/-- The shifts of one call. -/
theorem RandomCall.shifts_iff {call : RandomCall} {p : Prng R} (hcall : call.Proper)
    (havail : p.bitsAvailable < 64) : (∀ amount ∈ call.shifts p, amount ≤ 63) ↔ call.Fits p := by
  cases call with
  | setSeed seed => simp [shifts, Fits]
  | inject pool => simp [shifts, Fits]
  | stopUsing => simp [shifts, Fits]
  | bulk bitCount buf =>
    have hroom := le_wordCount bitCount
    simp only [Proper] at hcall
    cases hpool : p.bitPool with
    | some pool =>
      simp only [shifts, Fits, bulkShifts, hpool]
      exact iff_of_true (poolShifts_fit _ _ _ _) (by simp)
    | none =>
      simp only [shifts, Fits, bulkShifts, hpool, forall_const]
      constructor
      · intro hfit
        by_cases hlarge : 64 ≤ bitCount
        · right
          intro hzero
          exact absurd (hfit 64 (drawLogged_overshifts hlarge (by omega) hzero)) (by decide)
        · omega
      · intro hfit
        exact drawLogged_fits _ _ _ _ _ _ (by omega) (by decide) (by omega) havail (by omega)

/-- **When no shift is by the full width of a word**: exactly when no request is made for 64 bits
or more without a pool and without bits left over. -/
theorem shifts_fit_iff (calls : List RandomCall) (hcalls : ∀ call ∈ calls, call.Proper) :
    ∀ p : Prng R, p.bitsAvailable < 64 →
      ((∀ amount ∈ shiftsOf calls p, amount ≤ 63) ↔ EachFits calls p) := by
  induction calls with
  | nil =>
    intro p _
    simp [shiftsOf, EachFits]
  | cons call calls ih =>
    intro p havail
    have hfirst := RandomCall.shifts_iff (hcalls call List.mem_cons_self) havail
    have hrest := ih fun c hc => hcalls c (List.mem_cons_of_mem _ hc)
    simp only [shiftsOf, EachFits, List.mem_append, or_imp, forall_and, hfirst]
    cases hrun : call.perform p with
    | ok _ p' => simp only [hrest p' (perform_available havail hrun)]
    | error e p' => simp

end

theorem shifts_fit_sixtyThree : EachFits [.setSeed 1, .bulk 63 [0]] (seeded 1) ∧
    ∀ amount ∈ shiftsOf [.setSeed 1, .bulk 63 [0]] (seeded 1), amount ≤ 63 := by
  have hfits : EachFits [.setSeed 1, .bulk 63 [0]] (seeded 1) := by
    refine ⟨trivial, fun _ => .inl (by decide), ?_⟩
    split
    · trivial
    · trivial
  refine ⟨hfits, (shifts_fit_iff [.setSeed 1, .bulk 63 [0]] ?_ (seeded 1) (by decide)).mpr hfits⟩
  simp [RandomCall.Proper, wordCount]

/-- The first 64 bits after seeding: the whole word is taken and the buffer is shifted by 64. -/
theorem seeded_overshifts : 64 ∈ shiftsOf [.bulk 64 [0]] (seeded 1) := by
  decide +kernel

end Theft
