import Theft.PoolGenerations
import Mathlib.Data.List.Forall2

/-!
# Dropping is a selection of the bits in order

* `fates`: what the draws of `drop_from_bit_pool` decide about each request, without a look at
  its bits;
* `dropRequests_run`: the two cursors stay in step with the requests, so the copy holds the bits
  that were `selected`, one request after the other;
* `dropFromBitPool_selects`: the copy is a `Selection`, and no bit past the consumed ones
  matters.
-/

namespace Theft

open PackedBits Exec

/-! ## What the draws decide -/

/-- The value of the next `n` bits. -/
def drawn (S : Nat → Bool) (n : Nat) : Nat := (Gen.answer S n).toNat

/-- The bits after the next `n`. -/
def later (n : Nat) (S : Nat → Bool) : Nat → Bool := fun i => S (i + n)

/-- What becomes of a request. A long one is only thinned: it loses the bits from `dropOffset` to
`dropOffset + dropSize`. -/
inductive Fate
  | kept
  | dropped
  | thinned (dropOffset dropSize : Nat)
  deriving DecidableEq, Repr

/-- Whether bit `bi` of the request is kept. The end of the region is a `uint32_t`. -/
def Fate.keeps : Fate → Nat → Bool
  | kept, _ => true
  | dropped, _ => false
  | thinned dropOffset dropSize, bi =>
    decide (bi < dropOffset) || decide ((dropOffset + dropSize) % 2 ^ 32 < bi)

/-- What a request of `reqSize` bits loses when it is dropped, and the bits that are left to
draw. -/
def lossOf (reqSize : Nat) (S : Nat → Bool) : Fate × (Nat → Bool) :=
  if 64 < reqSize then
    (.thinned (drawn S 32 % reqSize) (drawn (later 32 S) 32 % reqSize), later 32 (later 32 S))
  else (.dropped, S)

/-- Whether request `ri` is dropped. -/
def dropDecision (dropBits dropThreshold toDrop ri : Nat) (S : Nat → Bool) :
    Bool × (Nat → Bool) :=
  if ri = toDrop then (true, S)
  else (decide (drawn S dropBits ≤ dropThreshold), later dropBits S)

def fateOf (dropBits dropThreshold toDrop ri reqSize : Nat) (S : Nat → Bool) :
    Fate × (Nat → Bool) :=
  let (chosen, S) := dropDecision dropBits dropThreshold toDrop ri S
  if chosen then lossOf reqSize S else (.kept, S)

/-- The fates of the requests from `ri` on. -/
def fatesFrom (dropBits dropThreshold toDrop : Nat) : Nat → List Nat → (Nat → Bool) → List Fate
  | _, [], _ => []
  | ri, reqSize :: rest, S =>
    let (fate, S) := fateOf dropBits dropThreshold toDrop ri reqSize S
    fate :: fatesFrom dropBits dropThreshold toDrop (ri + 1) rest S

/-- `to_drop`: the request that is dropped whatever is drawn for it. -/
def forcedDrop (requestCount : Nat) (S : Nat → Bool) : Nat :=
  if drawn S 32 ≠ doNotDrop ∧ 0 < requestCount then drawn S 32 % requestCount else drawn S 32

/-- The fates of all requests, when the bits `S` are drawn next. -/
def fates (env : AutoshrinkEnv) (requests : List Nat) (S : Nat → Bool) : List Fate :=
  fatesFrom (getDef env.dropBits defDropBits) (getDef env.dropThreshold defDropThreshold)
    (forcedDrop requests.length S) 0 requests (later 32 S)

/-- The `n` bits from an offset on. -/
def extent (bits : Nat → Bool) (offset n : Nat) : List Bool :=
  (List.range n).map fun bi => bits (offset + bi)

/-- The bits of the extent that are kept. -/
def survivors (bits : Nat → Bool) (offset n : Nat) (fate : Fate) : List Bool :=
  ((List.range n).filter fate.keeps).map fun bi => bits (offset + bi)

/-- What is left of the requests from an offset on. -/
def selected (bits : Nat → Bool) : Nat → List Nat → List Fate → List Bool
  | offset, reqSize :: rest, fate :: fates =>
    survivors bits offset reqSize fate ++ selected bits (offset + reqSize) rest fates
  | _, _, _ => []

/-- `out` is made of the requests in their order: all of one that is kept, nothing of a short one
that is dropped, and some of the bits of a long one, in their order. -/
inductive Selection (bits : Nat → Bool) : Nat → List Nat → List Fate → List Bool → Prop
  | nil {offset : Nat} : Selection bits offset [] [] []
  | kept {offset n : Nat} {rest : List Nat} {fates : List Fate} {out : List Bool}
      (h : Selection bits (offset + n) rest fates out) :
      Selection bits offset (n :: rest) (.kept :: fates) (extent bits offset n ++ out)
  | dropped {offset n : Nat} {rest : List Nat} {fates : List Fate} {out : List Bool}
      (hn : n ≤ 64) (h : Selection bits (offset + n) rest fates out) :
      Selection bits offset (n :: rest) (.dropped :: fates) out
  | thinned {offset n dropOffset dropSize : Nat} {rest : List Nat} {fates : List Fate}
      {part out : List Bool} (hn : 64 < n) (hpart : part.Sublist (extent bits offset n))
      (h : Selection bits (offset + n) rest fates out) :
      Selection bits offset (n :: rest) (.thinned dropOffset dropSize :: fates) (part ++ out)

/-! ## Which fates a request can have -/

/-- The fate is one that a request of `n` bits can have. -/
def Fate.Fits (n : Nat) : Fate → Prop
  | kept => True
  | dropped => n ≤ 64
  | thinned dropOffset dropSize => 64 < n ∧ dropOffset < n ∧ dropSize < n

theorem lossOf_fits (reqSize : Nat) (S : Nat → Bool) : (lossOf reqSize S).1.Fits reqSize := by
  unfold lossOf
  split
  · rename_i hlong
    have hpos : 0 < reqSize := by omega
    exact ⟨hlong, Nat.mod_lt _ hpos, Nat.mod_lt _ hpos⟩
  · rename_i hshort
    exact Nat.le_of_not_lt hshort

theorem fateOf_fits (dropBits dropThreshold toDrop ri reqSize : Nat) (S : Nat → Bool) :
    (fateOf dropBits dropThreshold toDrop ri reqSize S).1.Fits reqSize := by
  unfold fateOf
  dsimp only
  split
  · exact lossOf_fits _ _
  · trivial

theorem fatesFrom_fit (dropBits dropThreshold toDrop : Nat) (requests : List Nat) :
    ∀ (ri : Nat) (S : Nat → Bool), List.Forall₂ Fate.Fits requests
      (fatesFrom dropBits dropThreshold toDrop ri requests S) := by
  induction requests with
  | nil => intro ri S; constructor
  | cons reqSize rest ih =>
    intro ri S
    constructor
    · exact fateOf_fits _ _ _ _ _ _
    · exact ih _ _

theorem survivors_kept (bits : Nat → Bool) (offset n : Nat) :
    survivors bits offset n .kept = extent bits offset n := by
  have hall : Fate.keeps .kept = fun _ => true := rfl
  simp [survivors, extent, hall]

theorem survivors_dropped (bits : Nat → Bool) (offset n : Nat) :
    survivors bits offset n .dropped = [] := by
  simp [survivors, Fate.keeps]

theorem survivors_sublist (bits : Nat → Bool) (offset n : Nat) (fate : Fate) :
    (survivors bits offset n fate).Sublist (extent bits offset n) :=
  (List.filter_sublist).map _

theorem length_survivors_le (bits : Nat → Bool) (offset n : Nat) (fate : Fate) :
    (survivors bits offset n fate).length ≤ n := by
  simpa [extent] using (survivors_sublist bits offset n fate).length_le

theorem selected_selection {bits : Nat → Bool} {requests : List Nat} {fates : List Fate}
    (h : List.Forall₂ Fate.Fits requests fates) :
    ∀ offset, Selection bits offset requests fates (selected bits offset requests fates) := by
  induction h with
  | nil => intro offset; constructor
  | @cons n fate rest fates hfit _ ih =>
    intro offset
    rw [selected]
    cases fate with
    | kept =>
      rw [survivors_kept]
      exact .kept (ih _)
    | dropped =>
      rw [survivors_dropped]
      exact .dropped hfit (ih _)
    | thinned dropOffset dropSize =>
      exact .thinned hfit.1 (survivors_sublist _ _ _ _) (ih _)

/-! ## One bit at a time -/

theorem keptBits_range' (orig : List Byte) (kept : Nat → Bool) (offset n : Nat) : ∀ i,
    keptBits orig kept (offset + i) (List.range' i n) =
      ((List.range' i n).filter kept).map fun bi => bitAt orig (offset + bi) := by
  induction n with
  | zero => intro i; rfl
  | succ n ih =>
    intro i
    rw [List.range'_succ, keptBits, List.filter_cons]
    have ih := ih (i + 1)
    split
    · rw [List.map_cons, ← ih, Nat.add_assoc]
    · rw [← ih, Nat.add_assoc]

theorem keptBits_fate (orig : List Byte) (fate : Fate) (offset n : Nat) :
    keptBits orig fate.keeps offset (List.range n) = survivors (bitAt orig) offset n fate := by
  rw [survivors, List.range_eq_range']
  exact keptBits_range' orig fate.keeps offset n 0

/-- A request copied as its fate says. -/
theorem copyKept_fate {cap offset : Nat} {out : List Bool} {ds : DropState} (orig : List Byte)
    (fate : Fate) (n : Nat) (hds : ds.Holds cap offset out) (hsrc : offset + n ≤ 8 * orig.length)
    (hcap : out.length + n ≤ 8 * cap) :
    ∃ ds', copyKept orig fate.keeps (List.range n) ds = .ok ds' ∧
      ds'.Holds cap (offset + n) (out ++ survivors (bitAt orig) offset n fate) := by
  have hle := length_survivors_le (bitAt orig) offset n fate
  obtain ⟨ds', hrun, hds'⟩ := copyKept_spec orig fate.keeps (List.range n) hds
    (by rw [List.length_range]; exact hsrc) (by rw [keptBits_fate]; omega)
  rw [List.length_range, keptBits_fate] at hds'
  exact ⟨ds', hrun, hds'⟩

/-- The cursors and the bits of the copy are known when the bits it holds are. -/
theorem DropState.Holds.unique {cap offset : Nat} {out : List Bool} {a b : DropState}
    (ha : a.Holds cap offset out) (hb : b.Holds cap offset out) : a = b := by
  cases a
  cases b
  simp only [DropState.mk.injEq]
  refine ⟨ha.src.trans hb.src.symm, ha.dst.trans hb.dst.symm, ha.count.trans hb.count.symm,
    ext_bitAt (ha.length.trans hb.length.symm) fun i _ => ?_⟩
  exact (ha.bits i).trans (hb.bits i).symm

/-! ## The loop over the requests -/

section
variable {R : Type}

/-- Since `s₀` only random bits were drawn, and the bits `S` come next. -/
structure Drawing (s₀ : AutoState R) (S : Nat → Bool) [Platform R] (s : AutoState R) : Prop where
  prng : s.prng.Inv
  noPool : s.prng.bitPool = none
  stream : s.prng.stream = S
  ledger : s.ledger = s₀.ledger
  env : s.env = s₀.env

variable [Platform R] {s₀ s : AutoState R} {S : Nat → Bool}

theorem prngBits_run (hs : Drawing s₀ S s) {n : Nat} (hn : n ≤ 64) :
    ∃ s', prngBits n s = .ok (Gen.answer S n) s' ∧ Drawing s₀ (later n S) s' := by
  obtain ⟨w, p', hrun, hpool, havail, hstream, hbits⟩ :=
    randomBits_noPool hs.noPool hs.prng.available hn
  have hw : w = Gen.answer S n := by
    apply BitVec.eq_of_getLsbD_eq
    intro i hi
    rw [hbits, Gen.answer, getLsbD_ofBits, decide_eq_true hi, Bool.true_and, hs.stream]
  refine ⟨{ s with prng := p' }, ?_, ⟨havail, ?_⟩, hpool, ?_, hs.ledger, hs.env⟩
  · simp only [prngBits, zoom, hrun, hw]
  · intro pool h
    rw [hpool] at h
    cases h
  · funext i
    rw [hstream, hs.stream, later]

theorem dropSubset_run (hs : Drawing s₀ S s) (reqSize : Nat) :
    ∃ s', dropSubset reqSize s = .ok (lossOf reqSize S).1.keeps s' ∧
      Drawing s₀ (lossOf reqSize S).2 s' := by
  unfold dropSubset lossOf
  split
  · obtain ⟨s₁, hrun₁, hs₁⟩ := prngBits_run hs (by decide : 32 ≤ 64)
    obtain ⟨s₂, hrun₂, hs₂⟩ := prngBits_run hs₁ (by decide : 32 ≤ 64)
    refine ⟨s₂, ?_, hs₂⟩
    simp only [bind_apply, hrun₁, hrun₂, pure_apply]
    rfl
  · exact ⟨s, rfl, hs⟩

theorem dropChosen_run (hs : Drawing s₀ S s) {dropBits : Nat} (h : dropBits ≤ 64)
    (dropThreshold toDrop ri : Nat) :
    ∃ s', dropChosen dropBits dropThreshold toDrop ri s =
        .ok (dropDecision dropBits dropThreshold toDrop ri S).1 s' ∧
      Drawing s₀ (dropDecision dropBits dropThreshold toDrop ri S).2 s' := by
  unfold dropChosen dropDecision
  split
  · exact ⟨s, rfl, hs⟩
  · obtain ⟨s', hrun, hs'⟩ := prngBits_run hs h
    refine ⟨s', ?_, hs'⟩
    simp only [bind_apply, hrun, pure_apply]
    rfl

/-- **The copy holds what was selected.** The cursor into the original stands behind the requests
gone over, whatever became of them, and the one into the copy behind the bits kept. -/
theorem dropRequests_run {dropBits : Nat} (h : dropBits ≤ 64) (dropThreshold toDrop cap : Nat)
    (orig : List Byte) (requests : List Nat) :
    ∀ (ri dropCount : Nat) {offset : Nat} {out : List Bool} {ds : DropState} {S : Nat → Bool}
      {s : AutoState R}, Drawing s₀ S s → ds.Holds cap offset out →
      offset + requests.sum ≤ 8 * orig.length → out.length + requests.sum ≤ 8 * cap →
      ∃ r s' S', dropRequests dropBits dropThreshold toDrop orig ri requests dropCount ds s =
          .ok r s' ∧ Drawing s₀ S' s' ∧ r.2.Holds cap (offset + requests.sum)
            (out ++ selected (bitAt orig) offset requests
              (fatesFrom dropBits dropThreshold toDrop ri requests S)) := by
  induction requests with
  | nil =>
    intro ri dropCount offset out ds S s hs hds _ _
    refine ⟨(dropCount, ds), s, S, rfl, hs, ?_⟩
    simpa [selected, fatesFrom] using hds
  | cons reqSize rest ih =>
    intro ri dropCount offset out ds S s hs hds hsrc hcap
    rw [List.sum_cons] at hsrc hcap
    -- a request is copied as its fate says, and then the loop goes on
    have copied : ∀ (fate : Fate) (dropCount : Nat) {S₁ : Nat → Bool} {s₁ : AutoState R},
        Drawing s₀ S₁ s₁ →
        ∃ r s' S', (attempt (copyKept orig fate.keeps (List.range reqSize) ds) >>= fun ds =>
            dropRequests dropBits dropThreshold toDrop orig (ri + 1) rest dropCount ds) s₁ =
          .ok r s' ∧ Drawing s₀ S' s' ∧ r.2.Holds cap (offset + (reqSize + rest.sum))
            (out ++ selected (bitAt orig) offset (reqSize :: rest)
              (fate :: fatesFrom dropBits dropThreshold toDrop (ri + 1) rest S₁)) := by
      intro fate dropCount S₁ s₁ hs₁
      have hle := length_survivors_le (bitAt orig) offset reqSize fate
      obtain ⟨ds', hrun, hds'⟩ := copyKept_fate orig fate reqSize hds (by omega) (by omega)
      obtain ⟨r, s', S', hrest, hs', hr⟩ := ih (ri + 1) dropCount hs₁ hds'
        (by omega) (by rw [List.length_append]; omega)
      refine ⟨r, s', S', ?_, hs', ?_⟩
      · rw [bind_apply, hrun]
        exact hrest
      · rwa [selected, ← List.append_assoc, ← Nat.add_assoc]
    obtain ⟨s₁, hchosen, hs₁⟩ := dropChosen_run hs h dropThreshold toDrop ri
    rw [dropRequests, bind_apply, hchosen, List.sum_cons, fatesFrom, fateOf]
    dsimp only
    split
    · obtain ⟨s₂, hsubset, hs₂⟩ := dropSubset_run hs₁ reqSize
      rw [bind_apply, hsubset]
      exact copied _ (dropCount + 1) hs₂
    · exact copied .kept dropCount hs₁

omit [Platform R] in
theorem keptBits_congr {orig bits : List Byte} (kept : Nat → Bool) (bis : List Nat) :
    ∀ {offset : Nat}, (∀ i < offset + bis.length, bitAt bits i = bitAt orig i) →
      keptBits bits kept offset bis = keptBits orig kept offset bis := by
  induction bis with
  | nil => intro offset _; rfl
  | cons bi bis ih =>
    intro offset h
    rw [List.length_cons] at h
    rw [keptBits, keptBits, ih fun i hi => h i (by omega), h offset (by omega)]

/-- Two originals with the same bits up to the end of a request leave the same copy of it. -/
theorem copyKept_congr {cap offset : Nat} {orig bits : List Byte} {out : List Bool}
    {ds : DropState} (kept : Nat → Bool) (n : Nat) (hds : ds.Holds cap offset out)
    (hsrc : offset + n ≤ 8 * orig.length) (hsrc' : offset + n ≤ 8 * bits.length)
    (hcap : out.length + n ≤ 8 * cap) (h : ∀ i < offset + n, bitAt bits i = bitAt orig i) :
    ∃ ds' out', copyKept orig kept (List.range n) ds = .ok ds' ∧
      copyKept bits kept (List.range n) ds = .ok ds' ∧ ds'.Holds cap (offset + n) out' ∧
      out'.length ≤ out.length + n := by
  have hle := length_keptBits_le orig kept (List.range n) offset
  have hsame : keptBits bits kept offset (List.range n) =
      keptBits orig kept offset (List.range n) := keptBits_congr kept _ (by simpa using h)
  rw [List.length_range] at hle
  obtain ⟨a, hrun, ha⟩ := copyKept_spec orig kept (List.range n) hds
    (by rw [List.length_range]; exact hsrc) (by omega)
  obtain ⟨b, hrun', hb⟩ := copyKept_spec bits kept (List.range n) hds
    (by rw [List.length_range]; exact hsrc') (by rw [hsame]; omega)
  rw [hsame] at hb
  rw [List.length_range] at ha hb
  cases ha.unique hb
  refine ⟨a, _, hrun, hrun', ha, ?_⟩
  rw [List.length_append]
  omega

/-- No bit at or past the end of the last request is looked at. -/
theorem dropRequests_congr (dropBits dropThreshold toDrop : Nat) {cap : Nat}
    {orig bits : List Byte} (requests : List Nat) :
    ∀ {ri dropCount offset : Nat} {out : List Bool} {ds : DropState}, ds.Holds cap offset out →
      offset + requests.sum ≤ 8 * orig.length → offset + requests.sum ≤ 8 * bits.length →
      out.length + requests.sum ≤ 8 * cap →
      (∀ i < offset + requests.sum, bitAt bits i = bitAt orig i) →
      (dropRequests dropBits dropThreshold toDrop bits ri requests dropCount ds : Auto R _) =
        dropRequests dropBits dropThreshold toDrop orig ri requests dropCount ds := by
  induction requests with
  | nil => intro ri dropCount offset out ds _ _ _ _ _; rfl
  | cons reqSize rest ih =>
    intro ri dropCount offset out ds hds hsrc hsrc' hcap h
    rw [List.sum_cons] at hsrc hsrc' hcap h
    have copied : ∀ (kept : Nat → Bool) (dropCount : Nat),
        (attempt (copyKept bits kept (List.range reqSize) ds) >>= fun ds =>
          dropRequests dropBits dropThreshold toDrop bits (ri + 1) rest dropCount ds : Auto R _) =
        attempt (copyKept orig kept (List.range reqSize) ds) >>= fun ds =>
          dropRequests dropBits dropThreshold toDrop orig (ri + 1) rest dropCount ds := by
      intro kept dropCount
      obtain ⟨ds', out', hrun, hrun', hds', hlen⟩ := copyKept_congr kept reqSize hds
        (by omega) (by omega) (by omega) fun i hi => h i (by omega)
      rw [hrun, hrun']
      exact ih hds' (by omega) (by omega) (by omega) fun i hi => h i (by omega)
    rw [dropRequests, dropRequests]
    refine bind_congr fun chosen => ?_
    split
    · exact bind_congr fun kept => copied kept _
    · exact copied _ _

/-! ## The copy -/

/-- The copy that `drop_from_bit_pool` leaves: the bits selected, and zeroes. -/
theorem dropFromBitPool_run {s : AutoState R} (hprng : s.prng.Inv)
    (hpool : s.prng.bitPool = none) (hbits : getDef s.env.dropBits defDropBits ≤ 64)
    {orig : BitPool} (inv : orig.Inv) {copy : BitPool} (hcopy : Fresh orig.bitsFilled copy)
    (hzero : ∀ i, bitAt copy.bits i = false) {out : List Bool}
    (hout : out = selected (bitAt orig.bits) 0 orig.requests
      (fates s.env orig.requests s.prng.stream)) :
    ∃ copy' dropCount s', copy'.bitsFilled = out.length ∧
      (∀ i, bitAt copy'.bits i = out.getD i false) ∧ s'.env = s.env ∧ s'.ledger = s.ledger ∧
      ∀ bits : List Byte, orig.consumed ≤ 8 * bits.length →
        (∀ i < orig.consumed, bitAt bits i = bitAt orig.bits i) →
        dropFromBitPool { orig with bits := bits } copy s = .ok (copy', dropCount) s' := by
  have hconsumed := inv.consumed_le_filled
  have hceil := inv.filled_le_ceil
  have hbytes := inv.bytes
  have hsum := inv.requests_sum
  have hroom := hcopy.room
  have hcbytes := hcopy.bytes
  have hds : (⟨⟨0, 1⟩, ⟨0, 1⟩, 0, copy.bits⟩ : DropState).Holds copy.bits.length 0 [] :=
    ⟨Cursor.ofOffset_zero.symm, Cursor.ofOffset_zero.symm, rfl, rfl, fun i => by simp [hzero]⟩
  have hstart : Drawing s s.prng.stream s := ⟨hprng, hpool, rfl, rfl, rfl⟩
  obtain ⟨s₁, hforced, hs₁⟩ := prngBits_run hstart (by decide : 32 ≤ 64)
  obtain ⟨⟨dropCount, ds⟩, s', S', hrun, hs', hholds⟩ := dropRequests_run hbits
    (getDef s.env.dropThreshold defDropThreshold)
    (forcedDrop orig.requests.length s.prng.stream) copy.bits.length orig.bits orig.requests
    0 0 hs₁ hds (by omega) (by rw [List.length_nil]; omega)
  rw [List.nil_append] at hholds
  subst hout
  refine ⟨{ copy with bits := ds.bits, bitsFilled := ds.dstOffset }, dropCount, s', hholds.count,
    hholds.bits, hs'.env, hs'.ledger, fun bits hlen hsame => ?_⟩
  rw [← dropRequests_congr _ _ _ orig.requests hds (by omega) (by omega)
    (by rw [List.length_nil]; omega) (fun i hi => hsame i (by omega))] at hrun
  rw [dropFromBitPool, bind_apply, get_apply]
  dsimp only
  rw [bind_apply, hforced]
  dsimp only
  rw [bind_apply]
  exact hrun ▸ rfl

/-- **`drop_from_bit_pool` is an order-preserving selection.** The copy holds the bits that the
fates of the requests leave, in their order, and then zeroes; the original is only read, and only
up to the bits that were consumed. -/
theorem dropFromBitPool_selects {s : AutoState R} (hprng : s.prng.Inv)
    (hpool : s.prng.bitPool = none) (hbits : getDef s.env.dropBits defDropBits ≤ 64)
    {orig : BitPool} (inv : orig.Inv) {copy : BitPool} (hcopy : Fresh orig.bitsFilled copy)
    (hzero : ∀ i, bitAt copy.bits i = false) :
    ∃ copy' dropCount s' out, dropFromBitPool orig copy s = .ok (copy', dropCount) s' ∧
      Selection (bitAt orig.bits) 0 orig.requests
        (fates s.env orig.requests s.prng.stream) out ∧
      copy'.bitsFilled = out.length ∧ (∀ i, bitAt copy'.bits i = out.getD i false) ∧
      s'.env = s.env ∧ s'.ledger = s.ledger ∧
      ∀ bits : List Byte, orig.consumed ≤ 8 * bits.length →
        (∀ i < orig.consumed, bitAt bits i = bitAt orig.bits i) →
        dropFromBitPool { orig with bits := bits } copy s = .ok (copy', dropCount) s' := by
  obtain ⟨copy', dropCount, s', hcount, hheld, henv, hledger, hrun⟩ :=
    dropFromBitPool_run hprng hpool hbits inv hcopy hzero rfl
  have hle : orig.consumed ≤ 8 * orig.bits.length := by
    have hfilled := inv.consumed_le_filled
    have hceil := inv.filled_le_ceil
    rw [inv.bytes]
    omega
  exact ⟨copy', dropCount, s', _, hrun orig.bits hle fun _ _ => rfl,
    selected_selection (fatesFrom_fit _ _ _ _ _ _) 0, hcount, hheld, henv, hledger, hrun⟩

end

/-- A pool of two words, from which short requests and a long one were answered. -/
def mixedPool : BitPool where
  id := 1
  bits := List.replicate 16 0xA5
  shrinking := false
  bitsFilled := 128
  bitsCeil := 128
  limit := defPoolLimit
  consumed := 74
  requests := [3, 70, 1]
  requestCeil := 16
  generation := 0
  index := none

theorem mixedPool_inv : mixedPool.Inv := by
  constructor <;> decide

/-- `mixedPool` with its index. -/
def indexedPool : BitPool := { mixedPool with index := some (indexFrom 0 [3, 70, 1]) }

theorem indexedPool_source : Source indexedPool := by
  refine ⟨?_, rfl⟩
  constructor <;> decide

theorem dropFromBitPool_selects_mixed : ∃ copy copy' dropCount s' out,
    allocBitPool 2 128 defPoolLimit 16 = some copy ∧
    dropFromBitPool mixedPool copy (freshAuto 1) = .ok (copy', dropCount) s' ∧
    Selection (bitAt mixedPool.bits) 0 [3, 70, 1]
      (fates (freshAuto 1).env [3, 70, 1] (freshAuto 1).prng.stream) out ∧
    copy'.bitsFilled = out.length ∧ ∀ i, bitAt copy'.bits i = out.getD i false := by
  obtain ⟨copy, hcopy⟩ : ∃ copy, allocBitPool 2 128 defPoolLimit 16 = some copy := ⟨_, rfl⟩
  obtain ⟨hfresh, hzero⟩ := allocBitPool_fresh mixedPool_inv hcopy
  obtain ⟨copy', dropCount, s', out, hrun, hselection, hcount, hbits, -⟩ :=
    dropFromBitPool_selects (freshAuto_ready 1).prng rfl (by decide) mixedPool_inv hfresh
      hzero
  exact ⟨copy, copy', dropCount, s', out, hcopy, hrun, hselection, hcount, hbits⟩

end Theft
