import Theft.Lib.HexText
import Theft.PoolEdit
import Theft.Source
import Theft.BulkBuffer

/-!
# The dump of a pool's requests

`theft_autoshrink_dump_bit_pool` reads the requests of a pool again, at offsets that it adds up
itself.

* `Gen.logged`: a callback, and what each of its recorded requests received;
* `dumpRequests_spec`: what is printed for each request, in terms of the bits of the pool;
* `dump_shows_iff`: when that is what was received. The last bits of a long request are read at
  the wrong offset.
-/

namespace Theft

open PackedBits Exec HexText

/-! ## The dump -/

/-- What is printed for a request: its value, or the bytes and the bits after them. -/
inductive DumpLine
  | value (i size : Nat) (bits : Word)
  | bulk (i size : Nat) (bytes : List Byte) (rest : Option (Byte × Nat))
  deriving DecidableEq, Repr

def decimal (n : Nat) : List Char := Nat.toDigits 10 n

/-- The bytes of a long request, in groups of four and rows of sixteen -/
def bytesText (leftPad : List Char) : Nat → List Byte → List Char
  | _, [] => []
  | bi, byte :: bytes =>
    format 2 byte.toNat ++ [' '] ++
      (if bi % 16 = 15 then '\n' :: leftPad else if bi % 4 = 3 then [' '] else []) ++
      bytesText leftPad (bi + 1) bytes

def DumpLine.text : DumpLine → List Char
  | value i size bits =>
    decimal i ++ " -- ".toList ++ decimal size ++ " bits: ".toList ++ decimal bits.toNat ++
      " (0x".toList ++ format 0 bits.toNat ++ ")\n".toList
  | bulk i size bytes rest =>
    let header := decimal i ++ " -- ".toList ++ decimal size ++ " bits: [ ".toList
    header ++ bytesText (List.replicate header.length ' ') 0 bytes ++
      (match rest with
        | none => []
        | some (bits, rem) => format 2 bits.toNat ++ ['/'] ++ decimal rem ++ [' ']) ++
      "]\n".toList

/-- The loop over the bytes of a long request -/
def dumpBytes (pool : BitPool) (offset : Nat) : List Nat → Except Stop (List Byte)
  | [] => .ok []
  | bi :: bis =>
    match readBitsAtOffset pool (offset + 8 * bi) 8 with
    | .error e => .error e
    | .ok bits => (dumpBytes pool offset bis).map fun bytes => bits.setWidth 8 :: bytes

/-- One round of the loop over the requests -/
def dumpRequest (pool : BitPool) (i offset reqSize : Nat) : Except Stop DumpLine :=
  if reqSize ≤ 64 then (readBitsAtOffset pool offset reqSize).map (.value i reqSize)
  else
    let byteCount := reqSize / 8
    let rem := reqSize % 8
    match dumpBytes pool offset (List.range byteCount) with
    | .error e => .error e
    | .ok bytes =>
      if 0 < rem then
        (readBitsAtOffset pool (offset + byteCount) rem).map fun bits =>
          .bulk i reqSize bytes (some (bits.setWidth 8, rem))
      else .ok (.bulk i reqSize bytes none)

/-- The loop over the requests -/
def dumpFrom (pool : BitPool) : (i offset : Nat) → List Nat → Except Stop (List DumpLine)
  | _, _, [] => .ok []
  | i, offset, reqSize :: requests =>
    let reqSize :=
      if pool.bitsFilled < offset + reqSize then pool.bitsFilled - offset else reqSize
    match dumpRequest pool i offset reqSize with
    | .error e => .error e
    | .ok line => (dumpFrom pool (i + 1) (offset + reqSize) requests).map fun lines => line :: lines

/-- What is printed of the requests -/
def dumpRequests (pool : BitPool) : Except Stop (List DumpLine) :=
  dumpFrom pool 0 0 pool.requests

/-- `theft_autoshrink_dump_bit_pool`, for `THEFT_AUTOSHRINK_PRINT_REQUESTS` -/
def dumpBitPool (pool : BitPool) : Except Stop (List Char) :=
  (dumpRequests pool).map fun lines =>
    "\n-- autoshrink [generation: ".toList ++ decimal pool.generation ++ ", requests: ".toList ++
      decimal pool.requestCount ++ " -- ".toList ++ decimal pool.consumed ++ ['/'] ++
      decimal (if pool.limit = 2 ^ 64 - 1 then pool.bitsFilled else pool.limit) ++
      " bits consumed]\n".toList ++
      (if 0 < pool.requestCount then
        "requests: (".toList ++ decimal pool.requestCount ++ ")\n".toList
      else []) ++
      (lines.map DumpLine.text).flatten

/-! ## What a callback receives -/

section
variable {R α : Type} [Platform R]

/-- How many requests are recorded in the injected pool -/
def Prng.recorded (p : Prng R) : Nat := (p.bitPool.map BitPool.requestCount).getD 0

/-- What a request received, if it was recorded -/
def noteResponse (before after : Prng R) (response : List Word) (log : List (List Word)) :
    List (List Word) :=
  if before.recorded < after.recorded then response :: log else log

/-- A callback, and what it received for each of its recorded requests -/
def Gen.logged : Gen α → Draw R (α × List (List Word))
  | ret a => pure (a, [])
  | bits n k => do
    let before ← get
    let w ← randomBits n
    let after ← get
    let r ← (k w).logged
    return (r.1, noteResponse before after [w] r.2)
  | bulk n buf k => do
    let before ← get
    let ws ← randomBitsBulk n buf
    let after ← get
    let r ← (k ws).logged
    return (r.1, noteResponse before after ws r.2)

/-- The log is all that is added to a run. -/
theorem Gen.logged_of_run (g : Gen α) : ∀ {p p' : Prng R} {a : α}, g.run p = .ok a p' →
    ∃ log, g.logged p = .ok (a, log) p' := by
  induction g with
  | ret a =>
    intro p p' b h
    cases h
    exact ⟨[], rfl⟩
  | bits n k ih =>
    intro p p' b h
    obtain ⟨w, q, hw, hrest⟩ := bind_eq_ok.mp h
    obtain ⟨log, hlog⟩ := ih w hrest
    exact ⟨_, by simp only [Gen.logged, bind_apply, get_apply, hw, hlog]; rfl⟩
  | bulk n buf k ih =>
    intro p p' b h
    obtain ⟨ws, q, hws, hrest⟩ := bind_eq_ok.mp h
    obtain ⟨log, hlog⟩ := ih ws hrest
    exact ⟨_, by simp only [Gen.logged, bind_apply, get_apply, hws, hlog]; rfl⟩

/-- The requests of these sizes, one after the other from `offset` on, received these bits. -/
def ReceivedFrom (bits : Nat → Bool) : Nat → List Nat → List (List Word) → Prop
  | _, [], [] => True
  | offset, n :: sizes, ws :: log =>
    (∀ i < 64 * wordCount n, bitAt ws i = (decide (i < n) && bits (offset + i))) ∧
      ReceivedFrom bits (offset + n) sizes log
  | _, _, _ => False

/-- What a request has recorded, and what it received then -/
structure Recorded (p p' : Prng R) (pool pool' : BitPool) (ws : List Word) : Prop where
  tape : tape p'.rng pool' = tape p.rng pool
  limit : pool'.limit = pool.limit
  recorded : (pool'.requests = pool.requests ∧ pool'.consumed = pool.consumed) ∨
    ∃ size, pool'.requests = pool.requests ++ [size] ∧ pool'.consumed = pool.consumed + size ∧
      ∀ i < 64 * wordCount size,
        bitAt ws i = (decide (i < size) && Theft.tape p.rng pool (pool.consumed + i))

theorem Served.recorded {p : Prng R} {n : Nat} {rng' : R} {pool pool' : BitPool}
    {buf ws : List Word} (h : Served n p.rng rng' pool pool' buf ws) :
    Recorded p { p with rng := rng', bitPool := some (pool'.afterRead n) } pool
      (pool'.afterRead n) ws where
  tape := h.tape_afterRead
  limit := by rw [BitPool.afterRead_limit, h.filled.same.limit]
  recorded := by
    have hgranted : pool'.granted n = pool.granted n := by
      simp only [BitPool.granted, h.filled.consumed, h.filled.same.limit]
    unfold BitPool.afterRead
    split
    · exact .inl ⟨h.filled.requests, h.filled.consumed⟩
    · rename_i hmore
      rw [h.filled.consumed, h.filled.same.limit] at hmore
      refine .inr ⟨pool'.granted n, ?_, ?_, fun i hi => ?_⟩
      · rw [BitPool.record, h.filled.requests]
      · rw [BitPool.record, h.filled.consumed]
      · rw [hgranted] at hi ⊢
        rw [h.bits, if_neg hmore]
        by_cases hin : i < pool.granted n
        · rw [if_pos hin, decide_eq_true hin, Bool.true_and]
        · rw [if_neg hin, if_pos hi, decide_eq_false hin, Bool.false_and]

theorem randomBitsBulk_received {p : Prng R} (hp : p.Inv) {pool : BitPool}
    (hpool : p.bitPool = some pool) {n : Nat} (hn : n < 2 ^ 32) {buf ws : List Word}
    (hbuf : wordCount n ≤ buf.length) {p' : Prng R} (hrun : randomBitsBulk n buf p = .ok ws p') :
    ∃ pool', p'.bitPool = some pool' ∧ p'.Inv ∧ ws.length = buf.length ∧
      Recorded p p' pool pool' ws := by
  have inv := hp.pool pool hpool
  obtain ⟨-, herr⟩ | ⟨ws', q, hrun', hq, -, hlen, -⟩ := randomBitsBulk_inv hp hn hbuf
  · cases herr.symm.trans hrun
  cases hrun'.symm.trans hrun
  obtain rfl | hpos := Nat.eq_zero_or_pos n
  · simp only [randomBitsBulk, hpool, bitPoolRandom, if_true] at hrun
    cases hrun
    exact ⟨pool, rfl, hq, rfl, rfl, rfl, .inl ⟨rfl, rfl⟩⟩
  · obtain ⟨-, herr⟩ | ⟨rng', pool₁, buf', hserved⟩ := bitPoolRandom_spec p.rng inv hpos buf hbuf
    · simp only [randomBitsBulk, hpool, herr] at hrun
      cases hrun
    · simp only [randomBitsBulk, hpool, hserved.run] at hrun
      cases hrun
      exact ⟨pool₁.afterRead n, rfl, hq, hlen, hserved.recorded⟩

theorem randomBits_received {p : Prng R} (hp : p.Inv) {pool : BitPool}
    (hpool : p.bitPool = some pool) {n : Fin 65} {w : Word} {p' : Prng R}
    (hrun : randomBits n p = .ok w p') :
    ∃ pool', p'.bitPool = some pool' ∧ p'.Inv ∧ Recorded p p' pool pool' [w] := by
  have hroom : wordCount n ≤ [(0 : Word)].length := by
    rw [wordCount_eq, List.length_singleton]
    omega
  rw [randomBits, if_pos (show n.val ≤ 64 by omega)] at hrun
  obtain ⟨ws, q, hbulk, hw⟩ := bind_eq_ok.mp hrun
  cases hw
  obtain ⟨pool', hpool', hp', hlen, hrec⟩ := randomBitsBulk_received hp hpool (by omega) hroom hbulk
  obtain ⟨w, rfl⟩ := List.length_eq_one_iff.mp hlen
  exact ⟨pool', hpool', hp', hrec⟩

/-- What a callback has recorded and received by the end of its run -/
structure LoggedAs (p p' : Prng R) (pool pool' : BitPool) (sizes : List Nat)
    (log : List (List Word)) : Prop where
  tape : tape p'.rng pool' = tape p.rng pool
  limit : pool'.limit = pool.limit
  requests : pool'.requests = pool.requests ++ sizes
  consumed : pool'.consumed = pool.consumed + sizes.sum
  received : ReceivedFrom (Theft.tape p.rng pool) pool.consumed sizes log

/-- A request before the rest of the run -/
theorem LoggedAs.after {p q p' : Prng R} {pool pool₁ pool' : BitPool} {ws : List Word}
    {sizes : List Nat} {log : List (List Word)} (hpool : p.bitPool = some pool)
    (hpool₁ : q.bitPool = some pool₁) (h : Recorded p q pool pool₁ ws)
    (hrest : LoggedAs q p' pool₁ pool' sizes log) :
    ∃ sizes', LoggedAs p p' pool pool' sizes' (noteResponse p q ws log) := by
  have hreceived := hrest.received
  rw [h.tape] at hreceived
  have hbefore : p.recorded = pool.requests.length := by rw [Prng.recorded, hpool]; rfl
  have hafter : q.recorded = pool₁.requests.length := by rw [Prng.recorded, hpool₁]; rfl
  unfold noteResponse
  rw [hbefore, hafter]
  obtain ⟨hrequests, hconsumed⟩ | ⟨size, hrequests, hconsumed, hbits⟩ := h.recorded
  · rw [hrequests, if_neg (Nat.lt_irrefl _)]
    refine ⟨sizes, hrest.tape.trans h.tape, hrest.limit.trans h.limit, ?_, ?_, ?_⟩
    · rw [hrest.requests, hrequests]
    · rw [hrest.consumed, hconsumed]
    · rwa [hconsumed] at hreceived
  · rw [hrequests, List.length_append, List.length_singleton, if_pos (Nat.lt_succ_self _)]
    refine ⟨size :: sizes, hrest.tape.trans h.tape, hrest.limit.trans h.limit, ?_, ?_, hbits, ?_⟩
    · rw [hrest.requests, hrequests, List.append_assoc]
      rfl
    · rw [hrest.consumed, hconsumed, List.sum_cons, Nat.add_assoc]
    · rwa [hconsumed] at hreceived

/-- **The requests that a run has recorded are those of its log**, and received the bits of the
pool. -/
theorem Gen.logged_spec (g : Gen α) (hg : g.Sized) : ∀ {p p' : Prng R} {pool : BitPool} {a : α}
    {log : List (List Word)}, p.Inv → p.bitPool = some pool → g.logged p = .ok (a, log) p' →
    ∃ pool' sizes, p'.bitPool = some pool' ∧ pool'.Inv ∧ LoggedAs p p' pool pool' sizes log := by
  induction g with
  | ret a =>
    intro p p' pool b log hp hpool h
    cases h
    exact ⟨pool, [], hpool, hp.pool pool hpool, rfl, rfl, (List.append_nil _).symm, rfl, trivial⟩
  | bits n k ih =>
    intro p p' pool b log hp hpool h
    simp only [logged, bind_apply, get_apply] at h
    cases hw : randomBits n p with
    | error e q => simp [hw] at h
    | ok w q =>
      simp only [hw] at h
      cases hrest : (k w).logged q with
      | error e q' => simp [hrest] at h
      | ok r q' =>
        simp only [hrest, pure_apply] at h
        cases h
        obtain ⟨pool₁, hpool₁, hq, hrec⟩ := randomBits_received hp hpool hw
        obtain ⟨pool', sizes, hpool', inv', hlogged⟩ := ih w (hg w) hq hpool₁ hrest
        obtain ⟨sizes', hall⟩ := hlogged.after hpool hpool₁ hrec
        exact ⟨pool', sizes', hpool', inv', hall⟩
  | bulk n buf k ih =>
    intro p p' pool b log hp hpool h
    simp only [logged, bind_apply, get_apply] at h
    cases hws : randomBitsBulk n buf p with
    | error e q => simp [hws] at h
    | ok ws q =>
      simp only [hws] at h
      cases hrest : (k ws).logged q with
      | error e q' => simp [hrest] at h
      | ok r q' =>
        simp only [hrest, pure_apply] at h
        cases h
        obtain ⟨pool₁, hpool₁, hq, -, hrec⟩ := randomBitsBulk_received hp hpool n.isLt hg.1 hws
        obtain ⟨pool', sizes, hpool', inv', hlogged⟩ := ih ws (hg.2 ws) hq hpool₁ hrest
        obtain ⟨sizes', hall⟩ := hlogged.after hpool hpool₁ hrec
        exact ⟨pool', sizes', hpool', inv', hall⟩

end

/-! ## What is printed -/

section
variable {pool : BitPool}

/-- The value of the bits from an offset on -/
def valueAt (bits : Nat → Bool) (offset n : Nat) : Word :=
  ofBits 64 fun j => decide (j < n) && bits (offset + j)

theorem readBitsAtOffset_eq {offset size : Nat} (h : offset + size ≤ 8 * pool.bits.length) :
    readBitsAtOffset pool offset size = .ok (valueAt (bitAt pool.bits) offset size) := by
  obtain ⟨w, hread, hw⟩ := readBitsAtOffset_spec pool offset size h
  rw [hread, Except.ok.injEq]
  apply BitVec.eq_of_getLsbD_eq
  intro j hj
  rw [hw j hj, valueAt, getLsbD_ofBits, decide_eq_true hj, Bool.true_and]

theorem dumpBytes_eq {offset count : Nat} (bis : List Nat) (hbis : ∀ bi ∈ bis, bi < count)
    (h : offset + 8 * count ≤ 8 * pool.bits.length) :
    dumpBytes pool offset bis =
      .ok (bis.map fun bi => (valueAt (bitAt pool.bits) (offset + 8 * bi) 8).setWidth 8) := by
  induction bis with
  | nil => rfl
  | cons bi bis ih =>
    obtain ⟨hbi, hrest⟩ := List.forall_mem_cons.mp hbis
    rw [dumpBytes, readBitsAtOffset_eq (by omega), ih hrest]
    rfl

/-- The line for the request of `n` bits at an offset -/
def lineOf (bits : Nat → Bool) (i offset n : Nat) : DumpLine :=
  if n ≤ 64 then .value i n (valueAt bits offset n)
  else
    .bulk i n
      ((List.range (n / 8)).map fun bi => (valueAt bits (offset + 8 * bi) 8).setWidth 8)
      (if 0 < n % 8 then some ((valueAt bits (offset + n / 8) (n % 8)).setWidth 8, n % 8) else none)

theorem dumpRequest_eq {i offset n : Nat} (h : offset + n ≤ 8 * pool.bits.length) :
    dumpRequest pool i offset n = .ok (lineOf (bitAt pool.bits) i offset n) := by
  unfold dumpRequest lineOf
  split
  · rw [readBitsAtOffset_eq h]
    rfl
  · dsimp only
    rw [dumpBytes_eq (List.range (n / 8)) (fun bi hbi => List.mem_range.mp hbi) (by omega)]
    dsimp only
    split
    · rw [readBitsAtOffset_eq (by omega)]
      rfl
    · rfl

/-- The lines for the requests from an offset on -/
def linesOf (bits : Nat → Bool) : (i offset : Nat) → List Nat → List DumpLine
  | _, _, [] => []
  | i, offset, n :: sizes => lineOf bits i offset n :: linesOf bits (i + 1) (offset + n) sizes

theorem dumpFrom_eq (inv : pool.Inv) (sizes : List Nat) : ∀ i offset,
    offset + sizes.sum ≤ pool.consumed →
    dumpFrom pool i offset sizes = .ok (linesOf (bitAt pool.bits) i offset sizes) := by
  have hfilled := inv.consumed_le_filled
  have hceil := inv.filled_le_ceil
  have hbytes := inv.bytes
  induction sizes with
  | nil =>
    intro i offset _
    rfl
  | cons n sizes ih =>
    intro i offset h
    rw [List.sum_cons] at h
    rw [dumpFrom, if_neg (by omega), dumpRequest_eq (by omega), ih (i + 1) (offset + n) (by omega)]
    rfl

/-- **What the dump prints**, in terms of the bits of the pool. -/
theorem dumpRequests_spec (inv : pool.Inv) :
    dumpRequests pool = .ok (linesOf (bitAt pool.bits) 0 0 pool.requests) :=
  dumpFrom_eq inv pool.requests 0 0 (by rw [Nat.zero_add, inv.requests_sum])

/-! ## Whether that is what was received -/

/-- The bits that the line of a long request shows, the least significant of each byte first -/
def shownBits (bytes : List Byte) (rest : Option (Byte × Nat)) : List Bool :=
  (List.range (8 * bytes.length)).map (bitAt bytes) ++
    match rest with
    | none => []
    | some (bits, rem) => (List.range rem).map bits.getLsbD

/-- The line of request `i`, of `n` bits, shows what the request received. -/
def DumpLine.Shows (i n : Nat) (ws : List Word) : DumpLine → Prop
  | value i' size bits => i' = i ∧ size = n ∧ n ≤ 64 ∧ bits = ws.getD 0 0
  | bulk i' size bytes rest =>
    i' = i ∧ size = n ∧ 64 < n ∧ shownBits bytes rest = (List.range n).map (bitAt ws)

/-- There is a line for each request from `i` on, and it shows what the request received. -/
def ShowAll : Nat → List Nat → List (List Word) → List DumpLine → Prop
  | _, [], [], [] => True
  | i, n :: sizes, ws :: log, line :: lines => line.Shows i n ws ∧ ShowAll (i + 1) sizes log lines
  | _, _, _, _ => False

/-- In each long request the bits after its last whole byte are those at the offset they are
read at. -/
def TailsMatch (bits : Nat → Bool) : Nat → List Nat → Prop
  | _, [] => True
  | offset, n :: sizes =>
    (64 < n → ∀ j < n % 8, bits (offset + n / 8 + j) = bits (offset + 8 * (n / 8) + j)) ∧
      TailsMatch bits (offset + n) sizes

/-- The bytes of a long request, and the bits after them -/
theorem shownBits_lineOf (bits : Nat → Bool) (offset n : Nat) :
    shownBits ((List.range (n / 8)).map fun bi =>
        (valueAt bits (offset + 8 * bi) 8).setWidth 8)
      (if 0 < n % 8 then some ((valueAt bits (offset + n / 8) (n % 8)).setWidth 8, n % 8)
        else none) =
      (List.range (8 * (n / 8))).map (fun i => bits (offset + i)) ++
        (List.range (n % 8)).map fun j => bits (offset + n / 8 + j) := by
  have hbytes : ((List.range (n / 8)).map fun bi =>
      (valueAt bits (offset + 8 * bi) 8).setWidth 8) = pack 8 (n / 8) fun i => bits (offset + i) := by
    apply List.map_congr_left
    intro bi _
    apply BitVec.eq_of_getLsbD_eq
    intro j hj
    simp only [valueAt, BitVec.getLsbD_setWidth, getLsbD_ofBits, decide_eq_true hj,
      decide_eq_true (show j < 64 by omega), Bool.true_and, Nat.add_assoc]
  have hwhole : (List.range (8 * (pack 8 (n / 8) fun i => bits (offset + i)).length)).map
      (bitAt (pack 8 (n / 8) fun i => bits (offset + i))) =
        (List.range (8 * (n / 8))).map fun i => bits (offset + i) := by
    rw [length_pack]
    apply List.map_congr_left
    intro i hi
    rw [bitAt_pack (by decide), decide_eq_true (List.mem_range.mp hi), Bool.true_and]
  unfold shownBits
  rw [hbytes, hwhole]
  congr 1
  split
  · rename_i hrest
    split at hrest
    · cases hrest
    · rw [show n % 8 = 0 by omega]
      rfl
  · rename_i rest rem hrest
    split at hrest
    · cases hrest
      apply List.map_congr_left
      intro j hj
      have hj := List.mem_range.mp hj
      simp only [valueAt, BitVec.getLsbD_setWidth, getLsbD_ofBits, decide_eq_true hj,
        decide_eq_true (show j < 64 by omega), decide_eq_true (show j < 8 by omega), Bool.true_and]
    · cases hrest

theorem lineOf_shows_iff {bits : Nat → Bool} {offset n : Nat} (hn : 0 < n) {ws : List Word}
    (hws : ∀ i < 64 * wordCount n, bitAt ws i = (decide (i < n) && bits (offset + i))) (i : Nat) :
    (lineOf bits i offset n).Shows i n ws ↔
      (64 < n → ∀ j < n % 8, bits (offset + n / 8 + j) = bits (offset + 8 * (n / 8) + j)) := by
  have hroom := le_wordCount n
  unfold lineOf
  by_cases hshort : n ≤ 64
  · rw [if_pos hshort]
    refine iff_of_true ⟨rfl, rfl, hshort, ?_⟩ fun h => absurd hshort (by omega)
    apply BitVec.eq_of_getLsbD_eq
    intro j hj
    rw [← bitAt_mul_add ws 0 hj, Nat.mul_zero, Nat.zero_add, hws j (by omega), valueAt,
      getLsbD_ofBits, decide_eq_true hj, Bool.true_and]
  · have hbits : (List.range n).map (bitAt ws) =
        (List.range (8 * (n / 8))).map (fun i => bits (offset + i)) ++
          (List.range (n % 8)).map fun j => bits (offset + 8 * (n / 8) + j) := by
      have hread : (List.range n).map (bitAt ws) =
          (List.range (8 * (n / 8) + n % 8)).map fun i => bits (offset + i) := by
        rw [Nat.div_add_mod]
        apply List.map_congr_left
        intro i hi
        have hi := List.mem_range.mp hi
        rw [hws i (by omega), decide_eq_true hi, Bool.true_and]
      rw [hread, List.range_add, List.map_append, List.map_map]
      congr 1
      apply List.map_congr_left
      intro j _
      simp only [Function.comp_apply, Nat.add_assoc]
    rw [if_neg hshort]
    simp only [DumpLine.Shows, shownBits_lineOf, hbits, List.append_cancel_left_eq,
      List.map_inj_left, List.mem_range, true_and]
    constructor
    · exact fun h _ => h.2
    · exact fun h => ⟨by omega, h (by omega)⟩

theorem linesOf_show_iff (bits : Nat → Bool) (sizes : List Nat) : ∀ {i offset : Nat}
    {log : List (List Word)}, (∀ n ∈ sizes, 0 < n) → ReceivedFrom bits offset sizes log →
    (ShowAll i sizes log (linesOf bits i offset sizes) ↔ TailsMatch bits offset sizes) := by
  induction sizes with
  | nil =>
    intro i offset log _ h
    cases log with
    | nil => exact Iff.rfl
    | cons ws log => exact h.elim
  | cons n sizes ih =>
    intro i offset log hpos h
    cases log with
    | nil => exact h.elim
    | cons ws log =>
      obtain ⟨hn, hpos⟩ := List.forall_mem_cons.mp hpos
      exact and_congr (lineOf_shows_iff hn h.1 i) (ih hpos h.2)

theorem ReceivedFrom.congr {bits bits' : Nat → Bool} (sizes : List Nat) : ∀ {offset : Nat}
    {log : List (List Word)}, (∀ i < offset + sizes.sum, bits i = bits' i) →
    ReceivedFrom bits offset sizes log → ReceivedFrom bits' offset sizes log := by
  induction sizes with
  | nil =>
    intro offset log _ h
    cases log with
    | nil => trivial
    | cons ws log => exact h
  | cons n sizes ih =>
    intro offset log heq h
    cases log with
    | nil => exact h
    | cons ws log =>
      rw [List.sum_cons] at heq
      refine ⟨fun i hi => ?_, ih (fun i hi => heq i (by omega)) h.2⟩
      rw [h.1 i hi]
      by_cases hin : i < n
      · rw [heq _ (by omega)]
      · rw [decide_eq_false hin, Bool.false_and, Bool.false_and]

end

/-- **When the dump shows what the generator received**: unless the last bits of a long request
differ from those at the offset where they are read. -/
theorem dump_shows_iff {R α : Type} [Platform R] {g : Gen α} (hg : g.Sized) {p p' : Prng R}
    (hp : p.Inv) {pool : BitPool} (hpool : p.bitPool = some pool) (hfresh : pool.consumed = 0)
    {a : α} (hrun : g.run p = .ok a p') :
    ∃ pool' log lines, p'.bitPool = some pool' ∧ g.logged p = .ok (a, log) p' ∧
      dumpRequests pool' = .ok lines ∧
      (ShowAll 0 pool'.requests log lines ↔ TailsMatch (bitAt pool'.bits) 0 pool'.requests) := by
  obtain ⟨log, hlog⟩ := g.logged_of_run hrun
  obtain ⟨pool', sizes, hpool', inv', hlogged⟩ := g.logged_spec hg hp hpool hlog
  have hnone : pool.requests = [] := by
    have inv := hp.pool pool hpool
    have hsum := inv.requests_sum
    have hpos := inv.requests_range
    cases hrequests : pool.requests with
    | nil => rfl
    | cons r requests =>
      rw [hrequests] at hsum hpos
      have hr := (hpos r List.mem_cons_self).1
      rw [List.sum_cons] at hsum
      omega
  have hsizes : pool'.requests = sizes := by rw [hlogged.requests, hnone, List.nil_append]
  have hsum := inv'.requests_sum
  have hfilled := inv'.consumed_le_filled
  have hlimit := inv'.consumed_le_limit
  have hreceived : ReceivedFrom (bitAt pool'.bits) 0 sizes log := by
    refine ReceivedFrom.congr sizes (fun i hi => ?_) (hfresh ▸ hlogged.received)
    rw [hsizes] at hsum
    rw [← hlogged.tape, tape_of_lt _ (by omega) (by omega)]
  refine ⟨pool', log, _, hpool', hlog, dumpRequests_spec inv', ?_⟩
  rw [hsizes]
  exact linesOf_show_iff _ sizes (fun n hn => (inv'.requests_range n (hsizes ▸ hn)).1) hreceived

/-- A pool to replay: a word of zeros and a word of ones -/
def halfPool : BitPool where
  id := 1
  bits := List.replicate 8 0 ++ List.replicate 8 0xFF
  shrinking := true
  bitsFilled := 128
  bitsCeil := 128
  limit := 128
  consumed := 0
  requests := []
  requestCeil := 16
  generation := 1
  index := none

/-- A callback that asks for 71 bits at once -/
def longRequest : Gen (List Word) := .bulk 71 [0, 0] .ret

def halfPrng : Prng Rng := (seeded 1).injectBitPool halfPool

theorem halfPrng_inv : halfPrng.Inv := by
  refine ⟨Nat.zero_le _, fun pool hpool => ?_⟩
  cases hpool
  constructor <;> decide

theorem longRequest_run : ∃ p', longRequest.run halfPrng = .ok [0, 0x7F] p' := by
  obtain ⟨a, p', hrun, ha⟩ : ∃ a p', longRequest.run halfPrng = .ok a p' ∧
      decide (a = [0, 0x7F]) = true :=
    of_passes (p := fun a _ => decide (a = [0, 0x7F])) (by decide +kernel)
  exact ⟨p', of_decide_eq_true ha ▸ hrun⟩

theorem dump_shows_half : ∃ p' pool' log lines, p'.bitPool = some pool' ∧
    longRequest.logged halfPrng = .ok ([0, 0x7F], log) p' ∧ dumpRequests pool' = .ok lines ∧
      (ShowAll 0 pool'.requests log lines ↔ TailsMatch (bitAt pool'.bits) 0 pool'.requests) := by
  obtain ⟨p', hrun⟩ := longRequest_run
  have hsized : longRequest.Sized := ⟨by decide, fun _ => trivial⟩
  obtain ⟨pool', log, lines, h⟩ := dump_shows_iff hsized halfPrng_inv rfl rfl hrun
  exact ⟨p', pool', log, lines, h⟩

/-- The request and its line, after that callback -/
def Misread (r : List Word × List (List Word)) (p : Prng Rng) : Prop :=
  r = ([0, 0x7F], [[0, 0x7F]]) ∧
    p.bitPool.map (fun pool => (pool.requests, dumpRequests pool)) =
      some ([71], .ok [.bulk 0 71 (List.replicate 8 0) (some (0, 7))])

instance decidableMisread (r : List Word × List (List Word)) (p : Prng Rng) :
    Decidable (Misread r p) := inferInstanceAs (Decidable (_ ∧ _))

/-- The last seven bits are ones, and the dump shows zeros. -/
theorem dump_misreads : ∃ p' pool' log lines, p'.bitPool = some pool' ∧
    longRequest.logged halfPrng = .ok ([0, 0x7F], log) p' ∧ dumpRequests pool' = .ok lines ∧
      ¬ ShowAll 0 pool'.requests log lines := by
  obtain ⟨r, p', hrun, hends⟩ : ∃ r p', longRequest.logged halfPrng = .ok r p' ∧
      decide (Misread r p') = true :=
    of_passes (p := fun r p' => decide (Misread r p')) (by decide +kernel)
  obtain ⟨rfl, hpool⟩ := of_decide_eq_true hends
  obtain ⟨pool', hpool', hprinted⟩ := Option.map_eq_some_iff.mp hpool
  obtain ⟨hrequests, hlines⟩ := Prod.mk.inj hprinted
  refine ⟨p', pool', _, _, hpool', hrun, hlines, ?_⟩
  rw [hrequests]
  rintro ⟨⟨-, -, -, hbits⟩, -⟩
  exact absurd hbits (by decide)

end Theft
