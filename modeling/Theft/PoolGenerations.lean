import Theft.AutoshrinkSafe

/-!
# The pools theft comes to hold

* `allocFromBitPool_spec`: a callback that reads from a pool leaves it in `BitPool.Inv`, and
  what it returned is determined by the bits it consumed (`Played`);
* `Generation`: the pools made by `theft_autoshrink_alloc` and by any chain of
  `theft_autoshrink_shrink` steps;
* `pool_invariant`: each satisfies the invariant, and shrinking it stops for no other reason
  than a shortage of draws.
-/

namespace Theft

open PackedBits Exec

section
variable {R : Type} [Platform R] {α β : Type}

/-! ## Running the callback on a pool -/

/-- The bits that a callback consumed, and zeroes. -/
def consumedBits (pool : BitPool) (i : Nat) : Bool :=
  decide (i < pool.consumed) && bitAt pool.bits i

/-- The pool as a run of the callback left it, and what that run returned. -/
structure Played (alloc : Gen α) (res : α) (pool : BitPool) : Prop where
  result : res = alloc.eval (consumedBits pool)
  consumed : pool.consumed = min (alloc.demand (consumedBits pool)) pool.limit

/-- A callback sees no difference between a tape that ends at the limit and what it consumed of
it. -/
theorem Played.of_tape {alloc : Gen α} {S : Nat → Bool} {pool : BitPool}
    (hconsumed : pool.consumed = min (alloc.demand S) pool.limit)
    (hbits : ∀ i < pool.consumed, S i = bitAt pool.bits i)
    (hend : ∀ i, pool.limit ≤ i → S i = false) :
    Played alloc (alloc.eval S) pool := by
  have hsame : ∀ i < alloc.demand S, S i = consumedBits pool i := by
    intro i hi
    unfold consumedBits
    by_cases hlt : i < pool.consumed
    · rw [hbits i hlt, decide_eq_true hlt, Bool.true_and]
    · rw [hend i (by omega), decide_eq_false hlt, Bool.false_and]
  obtain ⟨heval, hdemand⟩ := alloc.eval_congr hsame
  exact ⟨heval, hdemand ▸ hconsumed⟩

theorem allocFromBitPool_spec {s₀ s : AutoState R} (hs : Within s₀ s) {alloc : Gen α}
    (halloc : alloc.Sized) {pool : BitPool} (shrinking : Bool)
    (inv : (pool.setShrinking shrinking).Inv) (hstart : pool.consumed = 0) :
    (shrinking = false ∧ ∃ s', allocFromBitPool alloc pool shrinking s = .error .allocation s') ∨
    ∃ res pool' s', allocFromBitPool alloc pool shrinking s = .ok (res, pool') s' ∧
      Within s₀ s' ∧ pool'.Inv ∧
      (pool.setShrinking shrinking).SameTape pool' ∧ alloc.Returns res ∧
      (alloc.Zeroed → Played alloc res pool' ∧
        res = alloc.eval (tape s.prng.rng (pool.setShrinking shrinking))) := by
  have hp : (s.prng.injectBitPool (pool.setShrinking shrinking)).Inv := by
    refine ⟨hs.prng.available, fun q hq => ?_⟩
    cases hq
    exact inv
  rcases alloc.run_inv halloc hp with ⟨⟨q, hq, hsh⟩, p', herr, -, -⟩ | ⟨res, p', n, hrun, hp', hreads⟩
  · left
    cases hq
    refine ⟨hsh, ?_⟩
    simp only [allocFromBitPool, bind_apply, modify_apply, zoom, herr]
    exact ⟨_, rfl⟩
  · right
    obtain ⟨pool', hpool', hsame⟩ := hreads.same.of_some (p := s.prng.injectBitPool _) rfl
    refine ⟨res, pool', { s with prng := p'.stopUsingBitPool }, ?_,
      ⟨⟨hp'.available, fun q hq => by cases hq⟩, rfl, hs.unscheduled, hs.ledger, hs.env⟩,
      hp'.pool pool' hpool', hsame, .of_run alloc hrun, fun hzeroed => ?_⟩
    · simp only [allocFromBitPool, bind_apply, modify_apply, zoom, hrun, get_apply, hpool']
      rfl
    · obtain ⟨hres, hread⟩ := alloc.run_eval hzeroed hp hrun
      have inv' := hp'.pool pool' hpool'
      have hsource : (s.prng.injectBitPool (pool.setShrinking shrinking)).source =
          tape s.prng.rng (pool.setShrinking shrinking) := by
        funext i
        simp only [Prng.source, Prng.injectBitPool, BitPool.setShrinking, hstart, Nat.zero_add]
      rw [hsource] at hres hread
      obtain ⟨htape, hconsumed⟩ := hread.pool _ pool' rfl hpool'
      rw [show (pool.setShrinking shrinking).consumed = 0 from hstart, Nat.zero_add] at hconsumed
      have hcf := inv'.consumed_le_filled
      have hcl := inv'.consumed_le_limit
      refine ⟨?_, hres⟩
      rw [hres]
      refine .of_tape ?_ (fun i hi => ?_) fun i hi => ?_
      · rw [hconsumed, hsame.limit]
      · rw [← tape_of_lt p'.rng (by omega) (by omega), htape]
        rfl
      · rw [hsame.limit] at hi
        exact tape_of_le hi

/-! ## Generations of pools -/

/-- Between callbacks, with an environment as theft sets it up. -/
structure AutoState.Ready (s : AutoState R) : Prop where
  prng : s.prng.Inv
  noPool : s.prng.bitPool = none
  unscheduled : s.env.model.nextAction = none
  dropBits : getDef s.env.dropBits defDropBits ≤ 64
  truncating : s.env.leaveTrailingZeroes = false

omit [Platform R] in
theorem AutoState.Ready.within {s : AutoState R} (hs : s.Ready) : Within s s :=
  ⟨hs.prng, hs.noPool, hs.unscheduled, rfl, rfl⟩

omit [Platform R] in
theorem Within.ready {s₀ s : AutoState R} (h : Within s₀ s) (hs : s₀.Ready) : s.Ready :=
  ⟨h.prng, h.noPool, h.unscheduled, by rw [h.env]; exact hs.dropBits,
    by rw [h.env]; exact hs.truncating⟩

/-- What holds of a pool between callbacks. -/
structure BitPool.Valid (pool : BitPool) : Prop where
  inv : pool.Inv
  indexed : pool.Indexed

/-- `theft_autoshrink_alloc`: no memory, or a pool as the callback left it. -/
theorem autoshrinkAlloc_spec {s : AutoState R} (hs : s.Ready) {alloc : Gen (AllocRes × β)}
    (halloc : alloc.Sized) :
    match autoshrinkAlloc alloc s with
    | .error e _ => e = .allocation
    | .ok (ares, none) s' => ares = .error ∧ s' = s
    | .ok (ares, some res) s' => s'.Ready ∧ ∃ pool, s'.env.bitPool = some pool ∧ pool.Valid ∧
        s'.ledger = s.ledger.acquirePool ∧
        s'.env = { s.env with model := s'.env.model, bitPool := some pool } ∧
        (alloc.Zeroed → Played alloc (ares, res) pool) := by
  cases hpool : allocBitPool s.ledger.nextId (getDef s.env.poolSize defPoolSize)
      (getDef s.env.poolLimit defPoolLimit) defRequestsCeil with
  | none =>
    have hrun : autoshrinkAlloc alloc s = .ok (.error, none) s := by
      simp only [autoshrinkAlloc, bind_apply, get_apply, hpool, pure_apply]
    rw [hrun]
    exact ⟨rfl, rfl⟩
  | some pool =>
    obtain ⟨inv, hfilled, hconsumed, -, hindex, hshrinking, -⟩ := allocBitPool_inv hpool (by decide)
    have hsame : pool.setShrinking false = pool := by rw [BitPool.setShrinking, ← hshrinking]
    have hready : AutoState.Ready { s with
        ledger := s.ledger.acquirePool, env := { s.env with bitPool := some pool } } :=
      ⟨hs.prng, hs.noPool, hs.unscheduled, hs.dropBits, hs.truncating⟩
    rcases allocFromBitPool_spec hready.within halloc false
      (by rw [hsame]; exact inv) hconsumed with ⟨-, s', herr⟩ |
      ⟨⟨ares, res⟩, pool', s', hrun, hwithin, inv', htape, -, hplayed⟩
    · have hstop : autoshrinkAlloc alloc s = .error .allocation s' := by
        simp only [autoshrinkAlloc, bind_apply, get_apply, hpool, set_apply, herr]
      rw [hstop]
    · have hstep : autoshrinkAlloc alloc s =
          .ok (ares, some res) { s' with env := { s'.env with bitPool := some pool' } } := by
        simp only [autoshrinkAlloc, bind_apply, get_apply, hpool, set_apply, hrun, modify_apply,
          pure_apply]
      rw [hstep]
      have hready' := hwithin.ready hready
      refine ⟨⟨hready'.prng, hready'.noPool, hready'.unscheduled, hready'.dropBits,
        hready'.truncating⟩, pool', rfl, ⟨inv', fun index hi => ?_⟩, hwithin.ledger, ?_,
        fun hz => (hplayed hz).1⟩
      · rw [htape.index, hsame, hindex] at hi
        cases hi
      · rw [hwithin.env]

theorem autoshrinkAlloc_ready {s s' : AutoState R} (hs : s.Ready) {alloc : Gen (AllocRes × β)}
    (halloc : alloc.Sized) {r : AllocRes × Option β} (h : autoshrinkAlloc alloc s = .ok r s') :
    s'.Ready := by
  have hspec := autoshrinkAlloc_spec hs halloc
  rw [h] at hspec
  obtain ⟨ares, none | res⟩ := r
  · rw [hspec.2]
    exact hs
  · exact hspec.1

/-- How `theft_autoshrink_shrink` can return, for a pool with `filled` bits in `requests`
requests, when `tries` tactics are allowed. -/
inductive ShrinkOutcome (alloc : Gen (AllocRes × β)) (tries tactic filled requests : Nat) :
    ShrinkRes × Option β × Option BitPool → Prop where
  | noMoreTactics : tries ≤ tactic →
      ShrinkOutcome alloc tries tactic filled requests (.noMoreTactics, none, none)
  | noMemory : maxBits < 64 * requests →
      ShrinkOutcome alloc tries tactic filled requests (.error, none, none)
  | shrunk {res copy} : copy.Valid → copy.shrinking = true → copy.bitsFilled ≤ filled →
      alloc.Returns (.ok, res) → (alloc.Zeroed → Played alloc (.ok, res) copy) →
      ShrinkOutcome alloc tries tactic filled requests (.ok, some res, some copy)
  | skipped {res} : alloc.Returns (.skip, res) →
      ShrinkOutcome alloc tries tactic filled requests (.deadEnd, some res, none)
  | failed {res} : alloc.Returns (.error, res) →
      ShrinkOutcome alloc tries tactic filled requests (.error, some res, none)

/-- What a shrinking step leaves in the environment: the pool it started from, perhaps with its
index built. -/
structure KeepsPool (orig : BitPool) (s s' : AutoState R) : Prop where
  ready : s'.Ready
  pool : ∃ orig', s'.env.bitPool = some orig' ∧ orig'.Valid ∧ orig' = { orig with index := orig'.index }
  env : s'.env = { s.env with model := s'.env.model, bitPool := s'.env.bitPool }

theorem allocShrinking_safe (s₀ : AutoState R) {alloc : Gen α} (halloc : alloc.Sized)
    {filled : Nat} {copy : BitPool} (hcopy : Fresh filled copy)
    (haligned : copy.bitsFilled % 8 = 0) (hlimit : copy.limit ≤ copy.bitsFilled) :
    Safe s₀ (allocFromBitPool alloc copy true) fun r => r.2.Valid ∧ r.2.shrinking = true ∧
      r.2.bitsFilled = copy.bitsFilled ∧ alloc.Returns r.1 ∧ (alloc.Zeroed → Played alloc r.1 r.2) := by
  intro s hs
  rcases allocFromBitPool_spec hs halloc true (hcopy.inv haligned hlimit) hcopy.consumed with
    ⟨hfalse, -⟩ | ⟨res, pool', s', hrun, hwithin, inv', hsame, hreturns, hplayed⟩
  · cases hfalse
  · rw [hrun]
    refine ⟨hwithin, ⟨inv', fun index hi => ?_⟩, hsame.shrinking, (hsame.fixed rfl).2.1, hreturns,
      fun hz => (hplayed hz).1⟩
    rw [hsame.index, show (copy.setShrinking true).index = none from hcopy.index] at hi
    cases hi

omit [Platform R] in
theorem freeCopy_spec {s₀ : AutoState R} (hs₀ : s₀.Ready) (copy : BitPool) :
    Spec (Within s₀) (freeCopy copy)
      (fun _ s => s.Ready ∧ s.env = { s₀.env with model := s.env.model })
      fun e _ => e = .fuel := by
  refine Spec.bind (Spec.get (Q := fun a s => a = s ∧ Within s₀ s) fun s hs => ⟨rfl, hs⟩)
    fun a s hs => ?_
  obtain ⟨rfl, hs⟩ := hs
  have hfree : freeBitPool a.prng copy a.ledger = .ok (a.ledger.release (.pool copy.id)) := by
    rw [freeBitPool, hs.noPool]
    rfl
  have hready := hs.ready hs₀
  rw [bind_apply, hfree]
  exact ⟨⟨hready.prng, hready.noPool, hready.unscheduled, hready.dropBits, hready.truncating⟩,
    hs.env⟩

theorem shrinkCopy_spec {s₀ : AutoState R} (hs₀ : s₀.Ready) (fuel : Nat)
    {alloc : Gen (AllocRes × β)} (halloc : alloc.Sized) (orig : BitPool) (ho : Source orig)
    {copy : BitPool} (hcopy : Fresh orig.bitsFilled copy) (hzero : ∀ i, bitAt copy.bits i = false)
    (tries tactic : Nat) :
    Spec (Within s₀) (shrinkCopy fuel alloc orig copy)
      (fun r s => (s.Ready ∧ s.env = { s₀.env with model := s.env.model }) ∧
        ShrinkOutcome alloc tries tactic orig.bitsFilled orig.requestCount r)
      fun e _ => e = .fuel := by
  refine Safe.andThen (.require ho.inv.requests_sum) fun _ _ => ?_
  refine Safe.andThen startModel_safe fun _ _ => ?_
  have hcopy' : Fresh orig.bitsFilled
      { copy with generation := orig.generation + 1, limit := orig.limit } :=
    ⟨hcopy.bytes, hcopy.ceil_aligned, hcopy.ceil_le, hcopy.room, hcopy.filled_le, hcopy.consumed,
      hcopy.requests, hcopy.requestCeil_pos, hcopy.index⟩
  refine Safe.andThen (changeCopy_safe hs₀.dropBits fuel ho hcopy' hzero) fun changed hchanged => ?_
  refine Safe.andThen (endCopy_safe hs₀.truncating ho.inv.filled_aligned hchanged)
    fun copy' ⟨hfresh, haligned, hlimit⟩ => ?_
  refine Safe.andThen (allocShrinking_safe s₀ halloc hfresh haligned hlimit)
    fun ⟨⟨ares, res⟩, pool⟩ ⟨hvalid, hshrinking, hfilled, hreturns, hplayed⟩ => ?_
  cases ares with
  | ok =>
    refine Spec.pure fun s hs => ⟨⟨hs.ready hs₀, hs.env⟩,
      .shrunk hvalid hshrinking ?_ hreturns hplayed⟩
    rw [hfilled]
    exact hfresh.filled_le
  | skip =>
    refine Spec.bind (freeCopy_spec hs₀ pool) fun _ => ?_
    exact Spec.pure fun s hs => ⟨hs, .skipped hreturns⟩
  | error =>
    refine Spec.bind (freeCopy_spec hs₀ pool) fun _ => ?_
    exact Spec.pure fun s hs => ⟨hs, .failed hreturns⟩

omit [Platform R] in
theorem BitPool.Inv.setIndex {pool : BitPool} (inv : pool.Inv) (index : Option (List Nat)) :
    ({ pool with index := index } : BitPool).Inv := { inv with }

omit [Platform R] in
/-- The copy as it is allocated: as many bits as there are to copy, all zero. -/
theorem allocBitPool_fresh {id limit : Nat} {orig copy : BitPool} (inv : orig.Inv)
    (h : allocBitPool id orig.bitsFilled limit orig.requestCeil = some copy) :
    Fresh orig.bitsFilled copy ∧ ∀ i, bitAt copy.bits i = false := by
  obtain ⟨cinv, hfilled, hconsumed, hrequests, hindex, -, -, hrequestCeil, hceil⟩ :=
    allocBitPool_inv h inv.requestCeil_pos
  have hle := inv.filled_le_ceil
  have hmax := inv.ceil_le
  have haligned := inv.filled_aligned
  simp only [maxBits] at hmax
  refine ⟨⟨cinv.bytes, cinv.ceil_aligned, cinv.ceil_le, ?_, ?_, hconsumed, hrequests,
    cinv.requestCeil_pos, hindex⟩, fun i => ?_⟩
  · rw [hceil, getAlignedSize]
    split <;> omega
  · rw [hfilled]
    exact Nat.zero_le _
  · simp only [allocBitPool] at h
    split at h
    · cases h
      exact bitAt_replicate_zero _ _
    · cases h

omit [Platform R] in
/-- There is memory for a second pool of the same size. -/
theorem allocBitPool_copy {orig : BitPool} (inv : orig.Inv) (id limit requestCeil : Nat) :
    allocBitPool id orig.bitsFilled limit requestCeil ≠ none := by
  have hle := inv.filled_le_ceil
  have hmax := inv.ceil_le
  have haligned := inv.ceil_aligned
  have hfilled := inv.filled_aligned
  simp only [maxBits] at hmax
  have hsize : getAlignedSize orig.bitsFilled 64 ≤ maxBits := by
    simp only [getAlignedSize, maxBits]
    split <;> omega
  simp only [allocBitPool, if_pos hsize]
  exact Option.some_ne_none _

omit [Platform R] in
theorem buildIndex_none {pool : BitPool} (h : buildIndex pool = none) :
    maxBits < 64 * pool.requestCount := by
  unfold buildIndex at h
  split at h
  · cases h
  · split at h
    · cases h
    · omega

/-- A shrinking step: it only stops when the draws for a mutation run out. -/
theorem autoshrinkShrink_spec {s : AutoState R} (hs : s.Ready) {orig : BitPool}
    (horig : s.env.bitPool = some orig) (hvalid : orig.Valid) {alloc : Gen (AllocRes × β)}
    (halloc : alloc.Sized) (fuel tactic : Nat) :
    match autoshrinkShrink fuel alloc tactic s with
    | .error e _ => e = .fuel
    | .ok r s' => KeepsPool orig s s' ∧
        ShrinkOutcome alloc (getDef s.env.maxFailedShrinks defMaxFailedShrinks) tactic
          orig.bitsFilled orig.requestCount r := by
  have hkeep : KeepsPool orig s s := ⟨hs, ⟨orig, horig, hvalid, rfl⟩, rfl⟩
  by_cases htactic : getDef s.env.maxFailedShrinks defMaxFailedShrinks ≤ tactic
  · have hrun : autoshrinkShrink fuel alloc tactic s = .ok (.noMoreTactics, none, none) s := by
      simp only [autoshrinkShrink, bind_apply, get_apply, horig, if_pos htactic, pure_apply]
    rw [hrun]
    exact ⟨hkeep, .noMoreTactics htactic⟩
  cases hindex : buildIndex orig with
  | none =>
    have hrun : autoshrinkShrink fuel alloc tactic s = .ok (.error, none, none) s := by
      simp only [autoshrinkShrink, bind_apply, get_apply, horig, if_neg htactic, hindex, pure_apply]
    rw [hrun]
    exact ⟨hkeep, .noMemory (buildIndex_none hindex)⟩
  | some orig' =>
    have horig' := buildIndex_spec hindex hvalid.indexed
    subst horig'
    have inv := hvalid.inv.setIndex (some (indexFrom 0 orig.requests))
    have hindexed : ∀ s', s'.Ready →
        s'.env = { s.env with
          model := s'.env.model
          bitPool := some { orig with index := some (indexFrom 0 orig.requests) } } →
        KeepsPool orig s s' := fun s' hready henv => by
      have hpool := congrArg AutoshrinkEnv.bitPool henv
      refine ⟨hready, ⟨_, hpool, ⟨inv, fun index hi => (Option.some.inj hi).symm⟩, rfl⟩, ?_⟩
      rw [hpool]
      exact henv
    cases hcopy : allocBitPool s.ledger.nextId orig.bitsFilled orig.limit orig.requestCeil with
    | none => exact absurd hcopy (allocBitPool_copy hvalid.inv _ _ _)
    | some copy =>
      obtain ⟨hfresh, hzero⟩ := allocBitPool_fresh hvalid.inv hcopy
      have hstart : AutoState.Ready (R := R) { s with
          ledger := s.ledger.acquirePool
          env := { s.env with
            bitPool := some { orig with index := some (indexFrom 0 orig.requests) } } } :=
        ⟨hs.prng, hs.noPool, hs.unscheduled, hs.dropBits, hs.truncating⟩
      have hrun : autoshrinkShrink fuel alloc tactic s =
          shrinkCopy fuel alloc { orig with index := some (indexFrom 0 orig.requests) } copy
            { s with
              ledger := s.ledger.acquirePool
              env := { s.env with
                bitPool := some { orig with index := some (indexFrom 0 orig.requests) } } } := by
        simp only [autoshrinkShrink, bind_apply, get_apply, horig, if_neg htactic, hindex,
          modify_apply, hcopy]
      have hpost := shrinkCopy_spec hstart fuel halloc
        { orig with index := some (indexFrom 0 orig.requests) } ⟨inv, rfl⟩ hfresh hzero
        (getDef s.env.maxFailedShrinks defMaxFailedShrinks) tactic _ hstart.within
      rw [← hrun] at hpost
      revert hpost
      cases autoshrinkShrink fuel alloc tactic s with
      | error e s' => exact id
      | ok r s' => exact fun h => ⟨hindexed s' h.1.1 h.1.2, h.2⟩

theorem autoshrinkShrink_returned {s s' : AutoState R} (hs : s.Ready) {orig : BitPool}
    (horig : s.env.bitPool = some orig) (hvalid : orig.Valid) {alloc : Gen (AllocRes × β)}
    (halloc : alloc.Sized) {fuel tactic : Nat} {r : ShrinkRes × Option β × Option BitPool}
    (h : autoshrinkShrink fuel alloc tactic s = .ok r s') :
    KeepsPool orig s s' ∧
      ShrinkOutcome alloc (getDef s.env.maxFailedShrinks defMaxFailedShrinks) tactic
        orig.bitsFilled orig.requestCount r := by
  have hspec := autoshrinkShrink_spec hs horig hvalid halloc fuel tactic
  rwa [h] at hspec

/-! ## Every pool -/

/-- The pools that can be in the environment of an argument between callbacks: made by
`theft_autoshrink_alloc`, kept by a shrinking step, or made by one. The callback is any, and
any at each step. -/
inductive Generation (R : Type) [Platform R] : BitPool → Prop where
  | alloc {β : Type} {s s' : AutoState R} {alloc : Gen (AllocRes × β)} {r pool} :
      s.Ready → alloc.Sized → autoshrinkAlloc alloc s = .ok r s' →
      s.env.bitPool = none → s'.env.bitPool = some pool → Generation R pool
  | keep {β : Type} {s s' : AutoState R} {alloc : Gen (AllocRes × β)} {fuel tactic r orig pool} :
      Generation R orig → s.Ready → s.env.bitPool = some orig → alloc.Sized →
      autoshrinkShrink fuel alloc tactic s = .ok r s' → s'.env.bitPool = some pool →
      Generation R pool
  | shrink {β : Type} {s s' : AutoState R} {alloc : Gen (AllocRes × β)}
      {fuel tactic sres res orig pool} :
      Generation R orig → s.Ready → s.env.bitPool = some orig → alloc.Sized →
      autoshrinkShrink fuel alloc tactic s = .ok (sres, res, some pool) s' →
      Generation R pool

theorem Generation.valid {pool : BitPool} (h : Generation R pool) : pool.Valid := by
  induction h with
  | @alloc β s s' alloc r pool hs halloc hrun hnone hpool =>
    have hspec := autoshrinkAlloc_spec hs halloc
    rw [hrun] at hspec
    obtain ⟨ares, none | res⟩ := r
    · rw [hspec.2, hnone] at hpool
      cases hpool
    · obtain ⟨-, pool', hpool', hvalid, -⟩ := hspec
      rw [hpool] at hpool'
      cases hpool'
      exact hvalid
  | keep _ hs horig halloc hrun hpool ih =>
    obtain ⟨pool', hpool', hvalid, -⟩ := (autoshrinkShrink_returned hs horig ih halloc hrun).1.pool
    rw [hpool] at hpool'
    cases hpool'
    exact hvalid
  | shrink _ hs horig halloc hrun ih =>
    cases (autoshrinkShrink_returned hs horig ih halloc hrun).2 with
    | shrunk hvalid => exact hvalid

/-- **Every pool theft holds satisfies the invariant, and no edit of it goes wrong.** Filling a
new pool only fails for want of memory; each pool of any generation is valid, a step from it
fails no assertion and leaves no buffer, and its copy has no more bits than it. -/
theorem pool_invariant :
    (∀ {β : Type} {s : AutoState R} {alloc : Gen (AllocRes × β)}, s.Ready → alloc.Sized →
      ∀ e s', autoshrinkAlloc alloc s = .error e s' → e = .allocation) ∧
    ∀ pool, Generation R pool → pool.Valid ∧
      ∀ {β : Type} {s : AutoState R} {alloc : Gen (AllocRes × β)} (fuel tactic : Nat), s.Ready →
        s.env.bitPool = some pool → alloc.Sized →
        (∀ e s', autoshrinkShrink fuel alloc tactic s = .error e s' → e = .fuel) ∧
        ∀ r res copy s', autoshrinkShrink fuel alloc tactic s = .ok (r, res, some copy) s' →
          copy.bitsFilled ≤ pool.bitsFilled := by
  refine ⟨fun hs halloc e s' hrun => ?_, fun pool h => ⟨h.valid, fun fuel tactic hs hpool halloc =>
    ⟨fun e s' hrun => ?_, fun r res copy s' hrun => ?_⟩⟩⟩
  · have hspec := autoshrinkAlloc_spec hs halloc
    rwa [hrun] at hspec
  · have hspec := autoshrinkShrink_spec hs hpool h.valid halloc fuel tactic
    rwa [hrun] at hspec
  · cases (autoshrinkShrink_returned hs hpool h.valid halloc hrun).2 with
    | shrunk _ _ hle => exact hle

end

/-- A runner after its seed was set, with the environment of its first argument, whose pool starts
with one word. -/
def freshAuto (seed : Word) : AutoState Rng :=
  ⟨⟨Platform.rngReset seed, 0, 0, none⟩, ⟨1, []⟩,
    autoshrinkAllocEnv 0 0 ⟨true, 64, ⟨false, false, false⟩, 0⟩⟩

theorem freshAuto_ready (seed : Word) : (freshAuto seed).Ready :=
  ⟨⟨Nat.zero_le _, fun _ h => by cases h⟩, rfl, rfl, (by decide : getDef 0 defDropBits ≤ 64), rfl⟩

/-- A callback that makes three requests. -/
def threeNumbers : Gen (AllocRes × Word) :=
  .bits 3 fun a => .bits 64 fun b => .bits 40 fun c => .ret (.ok, a + b + c)

theorem threeNumbers_sized : threeNumbers.Sized := by
  simp [threeNumbers, Gen.Sized]

/-- A pool is made for the three numbers, and a shrinking step changes it in a copy. -/
def allocAndShrink : Auto Rng (Option BitPool × ShrinkRes × Option Word × Option BitPool) := do
  let _ ← autoshrinkAlloc threeNumbers
  let s ← get
  let r ← autoshrinkShrink 20 threeNumbers 0
  return (s.env.bitPool, r)

theorem pool_invariant_shrunk : ∃ pool copy, Generation Rng pool ∧ Generation Rng copy ∧
    pool.requests = [3, 64, 40] ∧ copy.requests = [3, 64, 40] ∧ copy.bits ≠ pool.bits ∧
    pool.Valid ∧ copy.Valid ∧ copy.bitsFilled ≤ pool.bitsFilled := by
  have hpass : passes (fun r _ => r.1.any fun pool => r.2.2.2.any fun copy =>
        decide (pool.requests = [3, 64, 40] ∧ copy.requests = [3, 64, 40] ∧
          copy.bits ≠ pool.bits))
      (allocAndShrink (freshAuto 1)) = true := by decide +kernel
  obtain ⟨r, t, hrun, hpass⟩ := of_passes hpass
  obtain ⟨⟨ares, res⟩, s, halloc, hrun⟩ := bind_eq_ok.mp hrun
  obtain ⟨_, _, hget, hrun⟩ := bind_eq_ok.mp hrun
  cases hget
  obtain ⟨⟨sres, res', shrunk⟩, t', hshrink, hrun⟩ := bind_eq_ok.mp hrun
  cases hrun
  obtain ⟨pool, hpool, hpass⟩ := (Option.any_eq_true _ _).mp hpass
  obtain ⟨copy, rfl, hpass⟩ := (Option.any_eq_true _ _).mp hpass
  obtain ⟨hrequests, hrequests', hbits⟩ := of_decide_eq_true hpass
  have hready := autoshrinkAlloc_ready (freshAuto_ready 1) threeNumbers_sized halloc
  have hmade : Generation Rng pool :=
    .alloc (freshAuto_ready 1) threeNumbers_sized halloc rfl hpool
  have hcopied : Generation Rng copy := .shrink hmade hready hpool threeNumbers_sized hshrink
  obtain ⟨hvalid, hstep⟩ := pool_invariant.2 pool hmade
  exact ⟨pool, copy, hmade, hcopied, hrequests, hrequests', hbits, hvalid,
    (pool_invariant.2 copy hcopied).1,
    (hstep 20 0 hready hpool threeNumbers_sized).2 _ _ _ _ hshrink⟩

end Theft
