import Theft.TrialSeed

/-!
# Generation through a pool agrees with direct generation

`theft_generate` calls `alloc` on the generator itself, and the first trial of a run calls it on
a pool that is filled from the generator when it is read. Both make the same instance of a seed.

* `run_direct`, `run_pooled`: what a callback returns, as a function of the outputs of the generator;
* `Got`, `Pending`: whether a run has generated an instance, and which was the first;
* `pool_generation_agrees`: the first instance of a run is that of `theft_generate`.
-/

namespace Theft

open PackedBits Exec

section
variable {R I σ : Type} {n : Nat} {α β : Type} [Platform R]

/-! ## Both streams of bits -/

theorem setSeed_inv (p : Prng R) (seed : Word) : (p.setSeed seed).Inv :=
  ⟨Nat.zero_le _, fun _ h => by cases h⟩

theorem source_setSeed (p : Prng R) (seed : Word) :
    (p.setSeed seed).source = rngBits (Platform.rngReset seed : R) := by
  rw [← Prng.stream_setSeed p seed]
  rfl

/-- A callback on the generator itself. -/
theorem run_direct {g : Gen α} (hz : g.Zeroed) (p : Prng R) (seed : Word) :
    ∃ p', g.run (p.setSeed seed) = .ok (g.eval (rngBits (Platform.rngReset seed : R))) p' := by
  obtain ⟨a, p', hrun, -⟩ := g.run_noPool hz.sized (setSeed_inv p seed) rfl
  obtain ⟨ha, -⟩ := g.run_eval hz (setSeed_inv p seed) hrun
  rw [source_setSeed] at ha
  exact ⟨p', ha ▸ hrun⟩

/-- A callback on an empty pool that is filled from the generator. -/
theorem run_pooled {g : Gen α} (hz : g.Zeroed) {p : Prng R} {pool : BitPool}
    (havailable : p.bitsAvailable ≤ 64) (inv : pool.Inv) (hfilled : pool.bitsFilled = 0)
    (hconsumed : pool.consumed = 0) (hlimit : maxBits < pool.limit) {a : α} {p' : Prng R}
    (hrun : g.run (p.injectBitPool pool) = .ok a p') : a = g.eval (rngBits p.rng) := by
  have hp : (p.injectBitPool pool).Inv := by
    refine ⟨havailable, fun q hq => ?_⟩
    cases hq
    exact inv
  have hsource : (p.injectBitPool pool).source = tape p.rng pool := by
    funext i
    simp only [Prng.source, Prng.injectBitPool, hconsumed, Nat.zero_add]
  obtain ⟨ha, hreads⟩ := g.run_eval hz hp hrun
  rw [hsource] at ha hreads
  have hp' : p'.Inv := by
    obtain ⟨-, q, herr, -⟩ | ⟨b, q, k, hrun', hq, -⟩ := g.run_inv hz.sized hp
    · rw [hrun] at herr
      cases herr
    · rw [hrun] at hrun'
      cases hrun'
      exact hq
  obtain ⟨pool', hpool', -⟩ := hreads.same.of_some (p := p.injectBitPool pool) rfl
  obtain ⟨-, hread⟩ := hreads.pool pool pool' rfl hpool'
  have inv' := hp'.pool pool' hpool'
  have hcf := inv'.consumed_le_filled
  have hfc := inv'.filled_le_ceil
  have hcm := inv'.ceil_le
  -- memory ends long before the limit of the pool
  have hdemand : g.demand (tape p.rng pool) < pool.limit := by omega
  rw [ha]
  refine (g.eval_congr fun i hi => ?_).1
  rw [tape, decide_eq_true (by omega), Bool.true_and, fillStream, hfilled, if_neg (by omega),
    Nat.sub_zero]

/-- `theft_autoshrink_alloc` runs its callback on the outputs of the generator. -/
theorem autoshrinkAlloc_pooled {x : AutoState R} {alloc : Gen (AllocRes × β)} (hz : alloc.Zeroed)
    (havailable : x.prng.bitsAvailable ≤ 64) (hlimit : x.env.poolLimit = 0) :
    match autoshrinkAlloc alloc x with
    | .ok (ares, none) _ => ares = .error ∧
        allocBitPool x.ledger.nextId (getDef x.env.poolSize defPoolSize) defPoolLimit
          defRequestsCeil = none
    | .ok (ares, some res) _ => (ares, res) = alloc.eval (rngBits x.prng.rng)
    | .error e _ => e = .allocation := by
  rw [autoshrinkAlloc_run, show getDef x.env.poolLimit defPoolLimit = defPoolLimit by
    rw [hlimit]; rfl]
  cases hpool : allocBitPool x.ledger.nextId (getDef x.env.poolSize defPoolSize) defPoolLimit
      defRequestsCeil with
  | none => exact ⟨rfl, rfl⟩
  | some pool =>
    obtain ⟨inv, hfilled, hconsumed, -, -, hshrinking, hlimit, -⟩ := allocBitPool_inv hpool (by decide)
    have hsame : pool.setShrinking false = pool := by rw [BitPool.setShrinking, ← hshrinking]
    dsimp only
    rw [hsame]
    cases hrun : alloc.run (x.prng.injectBitPool pool) with
    | ok a p' =>
      obtain ⟨ares, res⟩ := a
      exact run_pooled hz havailable inv hfilled hconsumed (by rw [hlimit]; decide) hrun
    | error e p' =>
      have hp : (x.prng.injectBitPool pool).Inv := by
        refine ⟨havailable, fun q hq => ?_⟩
        cases hq
        exact inv
      obtain ⟨-, q, herr, -⟩ | ⟨b, q, k, hrun', -⟩ := alloc.run_inv hz.sized hp
      · rw [hrun] at herr
        cases herr
        rfl
      · rw [hrun] at hrun'
        cases hrun'

end

/-! ## The first instance of a run -/

section
variable {R I σ : Type} {n : Nat} {α : Type}

/-- What `alloc` answered. -/
def Event.allocated? : Event I n → Option (AllocRes × Option I)
  | .allocated res inst => some (res, inst)
  | _ => none

/-- What the first call of `alloc` that returned has answered. -/
def firstAllocated (trace : List (Event I n)) : Option (AllocRes × Option I) :=
  trace.reverse.findSome? Event.allocated?

theorem firstAllocated_append (new old : List (Event I n)) :
    firstAllocated (new ++ old) = (firstAllocated old).or (firstAllocated new) := by
  unfold firstAllocated
  rw [List.reverse_append, List.findSome?_append]

theorem firstAllocated_none {trace : List (Event I n)} (h : ∀ e ∈ trace, e.kind ≠ .alloc) :
    firstAllocated trace = none := by
  unfold firstAllocated
  rw [List.findSome?_eq_none_iff]
  intro e he
  have hkind := h e (List.mem_reverse.mp he)
  cases e with
  | allocated => exact absurd rfl hkind
  | _ => rfl

/-- The first instance of the run is this one. -/
def Got (a : AllocRes × Option I) (s : RunState R I σ n) : Prop := firstAllocated s.trace = some a

/-- No instance was generated yet. -/
def Pending (s : RunState R I σ n) : Prop := firstAllocated s.trace = none

variable {a : AllocRes × Option I} {s t : RunState R I σ n} {K : List EventKind} {excuse : Prop}

theorem Got.adds (h : Got a s) (hadds : Adds K s t) : Got a t := by
  obtain ⟨new, htrace, -⟩ := hadds
  unfold Got at h ⊢
  rw [htrace, firstAllocated_append, h]
  rfl

theorem Pending.adds (h : Pending s) (hadds : Adds K s t) (hK : .alloc ∉ K) : Pending t := by
  obtain ⟨new, htrace, hnew⟩ := hadds
  unfold Pending at h ⊢
  have hnone : firstAllocated new = none := by
    apply firstAllocated_none
    intro e he hkind
    exact hK (hkind ▸ hnew e he)
  rw [htrace, firstAllocated_append, h, hnone]
  rfl

/-- The first instance is this one, or there is none for a reason. -/
def Ends (a : AllocRes × Option I) (excuse : Prop) (s : RunState R I σ n) : Prop :=
  Got a s ∨ Pending s ∧ excuse

/-- A part of a run, which may also stop when no more memory is left for a pool. -/
abbrev Begins (a : AllocRes × Option I) (excuse : Prop) (P : RunState R I σ n → Prop)
    (m : Run R I σ n α) (Q : α → RunState R I σ n → Prop) : Prop :=
  Spec P m Q fun e => Ends a (excuse ∨ e = .allocation)

namespace Begins

theorem got {m : Run R I σ n α} (h : Effect (Adds K) m) :
    Begins a excuse (Got a) m fun _ => Got a := by
  apply Spec.mono (h.keeps fun _ _ hs hadds => Got.adds hs hadds)
  · exact fun _ h => h
  · exact fun _ _ h => h
  · exact fun _ _ h => .inl h

/-- Before the first instance, other callbacks may stop a run only for a reason. -/
theorem pending {m : Run R I σ n α} (h : Effect (Adds K) m) (hK : .alloc ∉ K) (hexcuse : excuse) :
    Begins a excuse Pending m fun _ => Pending := by
  apply Spec.mono (h.keeps fun _ _ hs hadds => Pending.adds hs hadds hK)
  · exact fun _ h => h
  · exact fun _ _ h => h
  · exact fun _ _ h => .inr ⟨h, .inl hexcuse⟩

theorem ends {m : Run R I σ n α} {c : Prop} (h : Effect (Adds K) m) (hK : .alloc ∉ K)
    (hc : c → excuse) : Begins a excuse (Ends a c) m fun _ => Ends a c := by
  intro s hs
  obtain hgot | ⟨hpending, hreason⟩ := hs
  · exact Spec.mono (got h) (fun _ h => h) (fun _ _ h => .inl h) (fun _ _ h => h) s hgot
  · exact Spec.mono (pending h hK (hc hreason)) (fun _ h => h) (fun _ _ h => .inr ⟨h, hreason⟩)
      (fun _ _ h => h) s hpending

end Begins

/-! ## The first trial -/

/-- The hooks that are called before the first instance is generated let the run go on. -/
structure Runner.Continues (r : Runner I σ n) : Prop where
  runPre : ∀ hook, r.hooks.runPre = some hook → ∀ info u, (hook info u).1 = .cont
  genArgsPre : ∀ hook, r.hooks.genArgsPre = some hook → ∀ info u, (hook info u).1 = .cont

/-- There is memory for the pool of an instance, before anything is read from it. -/
def TypeInfo.HasRoom (info : TypeInfo I σ) : Prop :=
  ∀ id, (allocBitPool id (getDef info.autoshrinkConfig.poolSize defPoolSize) defPoolLimit
    defRequestsCeil).isSome

/-- Why a run may end without an instance. -/
def Excused (r : Runner I σ 1) : Prop :=
  ¬ r.Continues ∨ ¬ (r.typeInfo 0).HasRoom ∨ r.envMemory 0 = false

section
variable [Platform R] {r : Runner I σ 1} {s t : RunState R I σ 1} {w : Word}

theorem askHook_run {Info Res : Type} (hook : Option (Info → σ → Res × σ)) (info : Info)
    (dflt : Res) (event : Event I 1) (answer : Res → Event I 1) (s : RunState R I σ 1) :
    ∃ res t, askHook hook info dflt event answer s = .ok res t ∧
      (res = dflt ∨ ∃ f u, hook = some f ∧ res = (f info u).1) := by
  cases hook with
  | none => exact ⟨dflt, s, rfl, .inl rfl⟩
  | some f => exact ⟨_, _, rfl, .inr ⟨f, s.user, rfl, rfl⟩⟩

/-- Nothing was allocated yet, and nothing generated. -/
def Unstarted (s : RunState R I σ 1) : Prop := Pending s ∧ s.ledger.nextId = 0

theorem runPreHook_unstarted :
    Begins a (Excused r) Unstarted (runPreHook r : Run R I σ 1 _) fun answer t =>
      Unstarted t ∧ (answer = .cont ∨ Excused r) := by
  rintro s ⟨hs, hid⟩
  obtain ⟨answer, t, hrun, hanswer⟩ := askHook_run r.hooks.runPre ⟨r.name, r.trialCount, r.runSeed⟩
    .cont (.runPre ⟨r.name, r.trialCount, r.runSeed⟩) .runPreRes s
  have hasked : Asked [.runPre] s t := (Asked.runPreHook (by decide) r).of_returned hrun
  rw [show runPreHook r s = _ from hrun]
  refine ⟨⟨hs.adds hasked.trace (by decide), by rw [hasked.ledger]; exact hid⟩, ?_⟩
  obtain hcont | ⟨f, u, hf, rfl⟩ := hanswer
  · exact .inl hcont
  · by_cases hcont : r.Continues
    · exact .inl (hcont.runPre f hf _ u)
    · exact .inr (.inl hcont)

/-- Just before the first argument is generated. -/
structure Poised (r : Runner I σ 1) (w : Word) (s : RunState R I σ 1) : Prop where
  pending : Pending s
  prng : ∃ p : Prng R, s.prng = p.setSeed w
  env : ∃ id, (s.trial.args 0).env =
    some (autoshrinkAllocEnv id 0 (r.typeInfo 0).autoshrinkConfig)

/-- The callback makes what `g` makes, whatever the state of user code. -/
def TypeInfo.AllocIs (info : TypeInfo I σ) (g : Gen (AllocRes × Option I)) : Prop :=
  ∀ u, (info.alloc u).map (fun a => (a.1, a.2.1)) = g

variable {g : Gen (AllocRes × Option I)}

/-- The instance that a callback makes of a seed. -/
def madeFrom (R : Type) [Platform R] (g : Gen (AllocRes × Option I)) (w : Word) :
    AllocRes × Option I := g.eval (rngBits (Platform.rngReset w : R))

theorem allocAutoshrink_first (halloc : (r.typeInfo 0).AllocIs g) (hz : g.Zeroed) :
    Begins (madeFrom R g w) (Excused r) (Poised r w) (allocAutoshrink r 0 : Run R I σ 1 _)
      fun c => Ends (madeFrom R g w) (Excused r ∧ c.1 = .error) := by
  intro s hs
  obtain ⟨p, hprng⟩ := hs.prng
  obtain ⟨id, henv⟩ := hs.env
  unfold allocAutoshrink
  rw [bind_apply, get_apply]
  dsimp only
  rw [henv]
  dsimp only
  have hzero : ((r.typeInfo 0).alloc s.user).Zeroed := by
    rw [← Gen.Zeroed.map, halloc s.user]
    exact hz
  have step : Begins (madeFrom R g w) (Excused r) (fun t => t = s)
      (zoomEnv 0 (autoshrinkAllocEnv id 0 (r.typeInfo 0).autoshrinkConfig)
        (autoshrinkAlloc ((r.typeInfo 0).alloc s.user)))
      fun c t => Pending t ∧ match c with
        | (ares, none) => ares = .error ∧ Excused r
        | (ares, some (inst, _)) => (ares, inst) = madeFrom R g w := by
    apply Spec.zoom
    rintro s rfl _ rfl
    rw [henv, Option.getD_some]
    have hpooled := autoshrinkAlloc_pooled (x := ⟨s.prng, s.ledger,
      autoshrinkAllocEnv id 0 (r.typeInfo 0).autoshrinkConfig⟩) hzero
      (by rw [hprng]; exact Nat.zero_le _) rfl
    revert hpooled
    cases autoshrinkAlloc ((r.typeInfo 0).alloc s.user) ⟨s.prng, s.ledger,
        autoshrinkAllocEnv id 0 (r.typeInfo 0).autoshrinkConfig⟩ with
    | error e x => exact fun he => .inr ⟨hs.pending, .inr he⟩
    | ok c x =>
      obtain ⟨ares, res⟩ := c
      cases res with
      | none =>
        rintro ⟨rfl, hnone⟩
        refine ⟨hs.pending, rfl, .inr (.inl fun hroom => ?_)⟩
        have hsome := hroom s.ledger.nextId
        have hnone' : allocBitPool s.ledger.nextId
          (getDef (r.typeInfo 0).autoshrinkConfig.poolSize defPoolSize) defPoolLimit
          defRequestsCeil = none := hnone
        rw [hnone'] at hsome
        cases hsome
      | some res =>
        intro hres
        refine ⟨hs.pending, ?_⟩
        have heval := Gen.eval_map (fun a => (a.1, a.2.1)) ((r.typeInfo 0).alloc s.user)
          (rngBits s.prng.rng)
        rw [halloc s.user, ← hres, hprng] at heval
        exact heval.symm
  refine Spec.bind step (fun c => ?_) s rfl
  rintro t ⟨ht, hc⟩
  obtain ⟨ares, _ | ⟨inst, u⟩⟩ := c
  · exact .inr ⟨ht, hc.2, hc.1⟩
  · refine .inl ?_
    unfold Got
    rw [← show (ares, inst) = madeFrom R g w from hc]
    show firstAllocated ([.allocated ares inst, .alloc 0] ++ t.trace) = _
    rw [firstAllocated_append, show firstAllocated t.trace = none from ht]
    rfl

theorem genAllArgs_first (halloc : (r.typeInfo 0).AllocIs g) (hz : g.Zeroed)
    (henable : r.autoshrinks 0 = true) :
    Begins (madeFrom R g w) (Excused r) (Poised r w)
      (genAllArgs r (List.finRange 1) : Run R I σ 1 _)
      fun gres => Ends (madeFrom R g w) (Excused r ∧ gres = .error) := by
  have hrest (inst : Option I) : Effect (Adds [.alloc, .hash]) (do
      setInst 0 inst
      genAllArgs r [] : Run R I σ 1 AllGenRes) := by
    apply Effect.bind ((Quiet.setInst (K := [.alloc, .hash]) 0 inst).mono fun _ _ h => h.trace)
    intro _
    exact (Quiet.genAllArgs (fun _ h => h) r []).mono fun _ _ h => h.trace
  have hgen : genArg r 0 = (allocAutoshrink r 0 : Run R I σ 1 _) := if_pos henable
  rw [show List.finRange 1 = [0] from rfl]
  unfold genAllArgs
  rw [hgen]
  apply Spec.bind (allocAutoshrink_first halloc hz)
  rintro ⟨ares, inst⟩ t ht
  obtain hgot | ⟨hpending, hexcused, rfl⟩ := ht
  · cases ares with
    | ok =>
      exact Spec.mono (Begins.got (hrest inst)) (fun _ h => h) (fun _ _ h => .inl h)
        (fun _ _ h => h) t hgot
    | skip => exact .inl hgot
    | error => exact .inl hgot
  · exact .inr ⟨hpending, hexcused, rfl⟩

/-- The trial after its argument was to be generated. -/
theorem runGenerated_first (fuel trial : Nat) (seed : Word) (gres : AllGenRes) :
    Begins a (Excused r) (Ends a (Excused r ∧ gres = .error))
      (runGenerated fuel r trial seed gres : Run R I σ 1 _)
      fun res => Ends a (Excused r ∧ res = .genError) := by
  intro s hs
  obtain hgot | ⟨hpending, hexcused, rfl⟩ := hs
  · have hgrows := (Counting.runGenerated (fun _ h => h) fuel r trial seed gres :
      Effect (Counting stepKinds) (runGenerated fuel r trial seed gres : Run R I σ 1 _))
    exact Spec.mono (Begins.got (hgrows.mono fun _ _ h => h.trace)) (fun _ h => h)
      (fun _ _ h => .inl h) (fun _ _ h => h) s hgot
  · unfold runGenerated
    rw [bind_apply, get_apply]
    have hpost (info : TrialPostInfo I 1) : Effect (Adds [.trialPost])
        (trialPostHook r info : Run R I σ 1 _) :=
      (Asked.trialPostHook (by decide) r info).mono fun _ _ h => h.trace
    refine Spec.bind (Begins.pending (hpost _) (by decide) hexcused) (fun _ => ?_) s hpending
    exact Spec.pure fun t ht => .inr ⟨ht, hexcused, rfl⟩

/-- The trial is set up, and nothing generated. -/
def SetUp (r : Runner I σ 1) (s : RunState R I σ 1) : Prop :=
  Pending s ∧ ∃ id, (s.trial.args 0).env =
    some (autoshrinkAllocEnv id 0 (r.typeInfo 0).autoshrinkConfig)

omit [Platform R] in
theorem initArgInfo_first (henable : r.autoshrinks 0 = true) :
    Begins a (Excused r) Unstarted (initArgInfo r (List.finRange 1) : Run R I σ 1 _)
      fun equipped t => if equipped then SetUp r t else Pending t ∧ Excused r := by
  rintro s ⟨hs, hid⟩
  rw [show List.finRange 1 = [0] from rfl, initArgInfo_on henable, hid]
  cases hmemory : r.envMemory 0 with
  | false => exact ⟨hs, .inr (.inr hmemory)⟩
  | true =>
    refine ⟨hs, s.ledger.nextId, ?_⟩
    simp only [RunState.equip, modifyArg_same, Fin.val_zero]

theorem genArgsPreHook_first :
    Begins a (Excused r) (SetUp r) (genArgsPreHook r : Run R I σ 1 _) fun answer t =>
      SetUp r t ∧ (answer = .cont ∨ Excused r) := by
  rintro s ⟨hs, henv⟩
  have hrun : ∃ answer t, genArgsPreHook r s = .ok answer t ∧ (answer = .cont ∨
      ∃ f info u, r.hooks.genArgsPre = some f ∧ answer = (f info u).1) := by
    let info : GenArgsPreInfo :=
      { propName := r.name
        totalTrials := r.trialCount
        failures := s.counters.fail
        runSeed := r.runSeed
        trialId := s.trial.trial
        trialSeed := s.trial.seed
        arity := 1 }
    obtain ⟨answer, t, hrun, hanswer⟩ := askHook_run r.hooks.genArgsPre info .cont
      (.genArgsPre info) .genArgsPreRes s
    refine ⟨answer, t, hrun, hanswer.imp_right ?_⟩
    exact fun ⟨f, u, hf, heq⟩ => ⟨f, _, u, hf, heq⟩
  obtain ⟨answer, t, hrun, hanswer⟩ := hrun
  have hasked : Asked [.genArgsPre] s t := (Asked.genArgsPreHook (by decide) r).of_returned hrun
  rw [hrun]
  refine ⟨⟨hs.adds hasked.trace (by decide), by rw [hasked.trial]; exact henv⟩, ?_⟩
  obtain hcont | ⟨f, info, u, hf, rfl⟩ := hanswer
  · exact .inl hcont
  · by_cases hcont : r.Continues
    · exact .inl (hcont.genArgsPre f hf info u)
    · exact .inr (.inl hcont)

omit [Platform R] in
theorem modifyTrial_unstarted (f : TrialInfo I 1 → TrialInfo I 1) :
    Begins a excuse Unstarted (modifyTrial f : Run R I σ 1 Unit) fun _ => Unstarted :=
  Spec.modify fun _ hs => hs

theorem setSeed_poised (w : Word) :
    Begins a excuse (SetUp r)
      (modify fun s => { s with prng := s.prng.setSeed w } : Run R I σ 1 PUnit)
      fun _ => Poised r w :=
  Spec.modify fun s hs => ⟨hs.1, ⟨s.prng, rfl⟩, hs.2⟩

theorem stepFromHook_first (halloc : (r.typeInfo 0).AllocIs g) (hz : g.Zeroed)
    (henable : r.autoshrinks 0 = true) (fuel : Nat) :
    Begins (madeFrom R g w) (Excused r) (SetUp r) (stepFromHook fuel r 0 w : Run R I σ 1 _)
      fun res => Ends (madeFrom R g w) (Excused r ∧ res.1 ≠ .ok) := by
  apply Spec.bind genArgsPreHook_first
  intro answer
  cases answer with
  | halt =>
    exact Spec.pure fun t ht => .inr ⟨ht.1.1, ht.2.resolve_left (by decide), by simp⟩
  | error =>
    exact Spec.pure fun t ht => .inr ⟨ht.1.1, ht.2.resolve_left (by decide), by simp⟩
  | cont =>
    apply Spec.bind (Spec.mono (setSeed_poised w) (fun _ h => h.1) (fun _ _ h => h)
      fun _ _ h => h)
    intro _
    apply Spec.bind (genAllArgs_first halloc hz henable)
    intro gres
    apply Spec.bind (runGenerated_first fuel 0 w gres)
    intro res
    apply Spec.bind (Begins.ends ((Asked.nextSeed (K := []) res w).mono fun _ _ h => h.trace)
      List.not_mem_nil fun h => h.1)
    intro seed
    apply Spec.bind (Begins.ends ((Freeing.freeArgs (K := [.free]) (by decide) r _).mono
      fun _ _ h => h.trace) (by decide) fun h => h.1)
    intro _
    apply Spec.pure
    rintro t (hgot | ⟨hpending, hexcused, rfl⟩)
    · exact .inl hgot
    · exact .inr ⟨hpending, hexcused, by simp⟩

/-- The first step of the run, which has no seed to run always. -/
theorem runStep_first (halloc : (r.typeInfo 0).AllocIs g) (hz : g.Zeroed)
    (henable : r.autoshrinks 0 = true) (halways : r.alwaysSeeds = []) (fuel : Nat) :
    Begins (madeFrom R g w) (Excused r) Unstarted (runStep fuel r 0 w : Run R I σ 1 _)
      fun res => Ends (madeFrom R g w) (Excused r ∧ res.1 ≠ .ok) := by
  have hseed : stepSeed r 0 w = w := by
    have hlength : r.alwaysSeeds.length = 0 := by rw [halways]; rfl
    rw [stepSeed, dif_neg (by omega), if_neg (by omega)]
  unfold runStep
  rw [hseed]
  apply Spec.bind (modifyTrial_unstarted _)
  intro _
  apply Spec.bind (initArgInfo_first henable)
  intro equipped
  cases equipped with
  | false => exact Spec.pure fun t ht => .inr ⟨ht.1, ht.2, by simp⟩
  | true => exact stepFromHook_first halloc hz henable fuel

/-! ## The run -/

theorem runLoop_adds (r : Runner I σ n) (fuel left : Nat) : ∀ trial seed,
    Effect (Adds runKinds) (runLoop fuel r left trial seed : Run R I σ n Bool) := by
  induction left with
  | zero =>
    intro trial seed
    exact Effect.pure _
  | succ left ih =>
    intro trial seed
    have hkinds : stepKinds ⊆ runKinds := fun _ h => List.mem_append_left _ h
    apply Effect.bind ((Onward.runStep hkinds fuel r trial seed).mono fun _ _ h => h.trace)
    rintro ⟨res, seed'⟩
    refine Effect.bind (Effect.modify fun _ => .of_eq rfl) fun _ => ?_
    cases res with
    | ok => exact ih _ _
    | halt => exact Effect.pure _
    | genError => exact Effect.pure _
    | trialError => exact Effect.pure _

theorem runLoop_first (halloc : (r.typeInfo 0).AllocIs g) (hz : g.Zeroed)
    (henable : r.autoshrinks 0 = true) (halways : r.alwaysSeeds = []) (fuel left : Nat) :
    Begins (madeFrom R g w) (Excused r) Unstarted (runLoop fuel r (left + 1) 0 w : Run R I σ 1 _)
      fun _ => Ends (madeFrom R g w) (Excused r) := by
  apply Spec.bind (runStep_first halloc hz henable halways fuel)
  rintro ⟨res, seed⟩ t ht
  -- the trial is wiped before its result is looked at
  have hended (hres : res ≠ .ok) : Ends (madeFrom R g w) (Excused r) { t with trial := .start 0 0 } :=
    Or.imp_right (fun h => ⟨h.1, h.2.1⟩) ht
  cases res with
  | ok =>
    obtain hgot | ⟨-, -, hres⟩ := ht
    · exact Spec.mono (Begins.got (runLoop_adds r fuel left 1 seed)) (fun _ h => h)
        (fun _ _ h => .inl h) (fun _ _ h => h) { t with trial := .start 0 0 } hgot
    · exact absurd rfl hres
  | halt => exact hended (by simp)
  | genError => exact hended (by simp)
  | trialError => exact hended (by simp)

theorem runTrials_first (halloc : (r.typeInfo 0).AllocIs g) (hz : g.Zeroed)
    (henable : r.autoshrinks 0 = true) (halways : r.alwaysSeeds = []) (htrials : 0 < r.trialCount)
    (fuel : Nat) :
    Begins (madeFrom R g r.runSeed) (Excused r) Unstarted (runTrials fuel r : Run R I σ 1 _)
      fun _ => Ends (madeFrom R g r.runSeed) (Excused r) := by
  apply Spec.bind runPreHook_unstarted
  intro answer
  cases answer with
  | error => exact Spec.pure fun t ht => .inr ⟨ht.1.1, ht.2.resolve_left (by decide)⟩
  | cont =>
    obtain ⟨left, hleft⟩ : ∃ left, r.trialCount = left + 1 := ⟨r.trialCount - 1, by omega⟩
    rw [hleft]
    apply Spec.bind (Spec.mono (runLoop_first halloc hz henable halways fuel left) (fun _ h => h.1)
      (fun _ _ h => h) fun _ _ h => h)
    intro more
    cases more with
    | false => exact Spec.pure fun t ht => ht
    | true =>
      apply Spec.bind (Begins.ends ((Asked.runPostHook (K := [.runPost]) (by decide) r).mono
        fun _ _ h => h.trace) (by decide) fun h => h)
      intro answer
      cases answer with
      | error => exact Spec.pure fun t ht => ht
      | cont =>
        apply Spec.bind (Spec.get fun _ h => h)
        intro s
        exact Spec.pure fun t ht => ht

/-! ## Generating without a run -/

theorem printInst_run (info : TypeInfo I σ) (argI : Fin n) (inst : Option I)
    (s : RunState R I σ n) : ∃ t, printInst info argI inst s = .ok () t := by
  unfold printInst
  cases info.print with
  | none => exact ⟨_, rfl⟩
  | some print => exact ⟨_, rfl⟩

theorem freeWith_run (info : TypeInfo I σ) (argI : Fin n) (inst : Option I)
    (s : RunState R I σ n) : ∃ t, freeWith info argI inst s = .ok () t := by
  unfold freeWith
  cases info.free with
  | none => exact ⟨_, rfl⟩
  | some free => exact ⟨_, rfl⟩

theorem generateInstance_got {info : TypeInfo I σ} (halloc : info.AllocIs g) (hz : g.Zeroed)
    (hs : Pending s) {p : Prng R} (hprng : s.prng = p.setSeed w) :
    ∃ gres t, generateInstance info s = .ok gres t ∧ Got (madeFrom R g w) t := by
  have hzero : (info.alloc s.user).Zeroed := by
    rw [← Gen.Zeroed.map, halloc s.user]
    exact hz
  obtain ⟨q, hrun⟩ := run_direct hzero p w
  have heval := Gen.eval_map (fun a => (a.1, a.2.1)) (info.alloc s.user)
    (rngBits (Platform.rngReset w : R))
  rw [halloc s.user] at heval
  generalize (info.alloc s.user).eval (rngBits (Platform.rngReset w : R)) = c at hrun heval
  obtain ⟨ares, inst, u⟩ := c
  have hmapped : (info.alloc s.user).apart.run s.prng = .ok ((ares, inst), u) q := by
    rw [Gen.apart, run_map, hprng, hrun]
    rfl
  have hask : allocBasic 0 info.alloc s = .ok (ares, inst) { s with
      prng := q, user := u, trace := .allocated ares inst :: .alloc 0 :: s.trace } :=
    allocBasic_ok hmapped
  have hgot : Got (madeFrom R g w) ({ s with
      prng := q, user := u, trace := .allocated ares inst :: .alloc 0 :: s.trace } :
      RunState R I σ 1) := by
    unfold Got madeFrom
    rw [heval]
    show firstAllocated ([.allocated ares inst, .alloc 0] ++ s.trace) = _
    rw [firstAllocated_append, show firstAllocated s.trace = none from hs]
    rfl
  unfold generateInstance
  rw [bind_apply, hask]
  cases ares with
  | skip => exact ⟨_, _, rfl, hgot⟩
  | error => exact ⟨_, _, rfl, hgot⟩
  | ok =>
    obtain ⟨t₁, hprint⟩ := printInst_run info 0 inst { s with
      prng := q, user := u, trace := .allocated .ok inst :: .alloc 0 :: s.trace }
    obtain ⟨t₂, hfree⟩ := freeWith_run info 0 inst t₁
    have hprinted : Asked [.print] _ t₁ := (Asked.printInst (by decide) info 0 inst).of_returned hprint
    have hfreed : Asked [.free] t₁ t₂ := (Asked.freeWith (by decide) info 0 inst).of_returned hfree
    refine ⟨.ok, t₂, ?_, (hgot.adds hprinted.trace).adds hfreed.trace⟩
    dsimp only
    rw [bind_apply, hprint]
    dsimp only
    rw [bind_apply, hfree]
    rfl

/-- **Generation through a pool agrees with direct generation.** What `alloc` answers in
`theft_generate` is the first that it answers in a run with the same seed. A run that has no
such answer was ended by a hook, or had no memory for the pool or for its environment. -/
theorem pool_generation_agrees {memory memory' : Memory} {cfg : Config I σ 1}
    {user user' : σ} {info : TypeInfo I σ} {res : EStateM.Result Stop (RunState R I σ 1) GenerateRes}
    (hinit : runInit memory cfg user = some (r, s)) (halways : cfg.alwaysSeeds = [])
    (henable : (cfg.typeInfo 0).autoshrinkConfig.enable = true)
    (hgenerate : generate memory' cfg.seed info user' = some res)
    (hsame : info.alloc = (cfg.typeInfo 0).alloc) (halloc : (cfg.typeInfo 0).AllocIs g)
    (hz : g.Zeroed) (fuel : Nat) :
    ∃ gres t a, res = .ok gres t ∧ firstAllocated t.trace = some a ∧
      (firstAllocated (final (runTrials fuel r) s).trace = some a ∨
        firstAllocated (final (runTrials fuel r) s).trace = none ∧
          (¬ r.Continues ∨ ¬ (cfg.typeInfo 0).HasRoom ∨ memory.env 0 = false ∨
            ∃ t', runTrials fuel r s = .error .allocation t')) := by
  have hstart := runInit_started hinit
  obtain ⟨⟨r', s'⟩, hinit', hres⟩ := Option.map_eq_some_iff.mp hgenerate
  have hstart' := runInit_started hinit'
  have hpending {trace : List (Event I 1)} (h : trace = []) : firstAllocated trace = none := by
    rw [h]
    rfl
  have hseed : r'.runSeed = r.runSeed := by
    rw [hstart'.runSeed, hstart.runSeed]
    rfl
  have hinfo : info.AllocIs g := by
    unfold TypeInfo.AllocIs
    rw [hsame]
    exact halloc
  have hprng : s'.prng = Prng.setSeed ⟨Platform.rngReset defaultSeed, 0, 0, none⟩ r.runSeed := by
    rw [hstart'.prng, hseed]
  obtain ⟨gres, t, hrun, hgot⟩ := generateInstance_got hinfo hz (hpending hstart'.trace) hprng
  refine ⟨gres, t, _, hres.symm.trans hrun, hgot, ?_⟩
  have htrials : 0 < r.trialCount := by
    rw [hstart.trialCount]
    split
    · decide
    · omega
  have hfirst := runTrials_first (r := r) (R := R) (g := g)
    (by rw [hstart.typeInfo]; exact halloc) hz
    (by unfold Runner.autoshrinks; rw [hstart.typeInfo]; exact henable)
    (hstart.alwaysSeeds.trans halways) htrials fuel s
    ⟨hpending hstart.trace, by rw [hstart.ledger]⟩
  have hexcused : Excused r →
      ¬ r.Continues ∨ ¬ (cfg.typeInfo 0).HasRoom ∨ memory.env 0 = false := by
    unfold Excused
    rw [hstart.typeInfo, hstart.envMemory]
    exact id
  unfold final
  cases hend : runTrials fuel r s with
  | ok a t' =>
    rw [hend] at hfirst
    obtain hgot' | ⟨hnone, hexcuse⟩ := hfirst
    · exact .inl hgot'
    · exact .inr ⟨hnone, (hexcused hexcuse).imp_right fun h => h.imp_right .inl⟩
  | error e t' =>
    rw [hend] at hfirst
    obtain hgot' | ⟨hnone, hexcuse | rfl⟩ := hfirst
    · exact .inl hgot'
    · exact .inr ⟨hnone, (hexcused hexcuse).imp_right fun h => h.imp_right .inl⟩
    · exact .inr ⟨hnone, .inr (.inr (.inr ⟨t', rfl⟩))⟩

end

end

/-! ## A pool that grows -/

/-- Twice forty bits, for which a pool of 64 bits grows. -/
def fortyTwice : Config (Word × Word) Unit 1 where
  name := none
  prop := some fun _ u => .ret (.pass, u)
  typeInfo := fun _ =>
    { alloc := fun u => .bits 40 fun a => .bits 40 fun b => .ret (.ok, some (a, b), u)
      free := none
      hash := none
      print := none
      shrink := none
      autoshrinkConfig := ⟨true, 64, ⟨false, false, false⟩, 0⟩ }
  trials := 1
  seed := 1
  alwaysSeeds := []
  hooks := ⟨none, none, none, none, none, none, none, none, none⟩

theorem pool_generation_agrees_forty : ∃ r s res t gres t',
    runInit ⟨false, granted, granted⟩ fortyTwice () = some (r, s) ∧
    generate (R := Nat) ⟨false, granted, granted⟩ 1 (fortyTwice.typeInfo 0) () = some res ∧
    runTrials 1 r (s : RunState Nat (Word × Word) Unit 1) = .ok .pass t ∧
    firstAllocated t.trace = some (.ok, some (0xffffffffff, 0xffffff)) ∧
    res = .ok gres t' ∧ firstAllocated t'.trace = firstAllocated t.trace := by
  have hrun : (runInit (R := Nat) ⟨false, granted, granted⟩ fortyTwice ()).any (fun a =>
      passes (fun res t => decide (res = .pass ∧
        firstAllocated t.trace = some (.ok, some (0xffffffffff, 0xffffff))))
        (runTrials 1 a.1 a.2)) = true := by decide +kernel
  obtain ⟨⟨r, s⟩, hinit, hpass⟩ := (Option.any_eq_true _ _).mp hrun
  obtain ⟨outcome, t, hstep, hpass⟩ := of_passes hpass
  obtain ⟨rfl, hfirst⟩ := of_decide_eq_true hpass
  have halloc : (fortyTwice.typeInfo 0).AllocIs
      (.bits 40 fun a => .bits 40 fun b => .ret (.ok, some (a, b))) := fun _ => rfl
  obtain ⟨res, hgenerate⟩ : ∃ res,
      generate (R := Nat) ⟨false, granted, granted⟩ 1 (fortyTwice.typeInfo 0) () = some res :=
    ⟨_, rfl⟩
  obtain ⟨gres, t', a, hres, ha, hagrees⟩ := pool_generation_agrees hinit rfl rfl hgenerate rfl
    halloc (fun _ _ => trivial) 1
  rw [final, hstep] at hagrees
  refine ⟨r, s, res, t, gres, t', hinit, hgenerate, hstep, hfirst, hres, ?_⟩
  obtain hgot | ⟨hnone, -⟩ := hagrees
  · rw [ha, hgot]
  · rw [hfirst] at hnone
    cases hnone

end Theft
