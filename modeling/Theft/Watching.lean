import Theft.Lib.Mirror
import Theft.Frames
import Theft.TrialSeed

/-!
# Hooks that only watch

`Config.Watched`: a configuration with more hooks, which always answer `CONTINUE` and change only
what a view of the state of user code hides. Calls and shrinking with them are what they are
without them (`Unwatched`).

An installed `counterexample` replaces the printing of the arguments, and an installed
`shrink_post` asserts that no callback for shrinking answered an error: these two are no mere
watchers, and both configurations have them or neither.
-/

namespace Theft

open PackedBits Exec

section
variable {R I σ τ : Type} {n : Nat} {α β : Type} {view : σ → τ}

/-! ## Configurations with watchers -/

/-- The second callback is the first one, seen through the view. -/
structure TypeInfo.Viewed (view : σ → τ) (info : TypeInfo I σ) (info' : TypeInfo I τ) : Prop where
  alloc : ∀ u, info'.alloc (view u) = (info.alloc u).map (Prod.map id (Prod.map id view))
  free : Option.Rel (fun free free' => ∀ inst u, free' inst (view u) = view (free inst u))
    info.free info'.free
  hash : Option.Rel (fun hash hash' => ∀ inst u,
    hash' inst (view u) = Prod.map id view (hash inst u)) info.hash info'.hash
  print : Option.Rel (fun print print' => ∀ inst u, print' inst (view u) = view (print inst u))
    info.print info'.print
  shrink : Option.Rel (fun shrink shrink' => ∀ inst tactic u, shrink' inst tactic (view u) =
    (shrink inst tactic u).map (Prod.map id (Prod.map id view))) info.shrink info'.shrink
  autoshrinkConfig : info'.autoshrinkConfig = info.autoshrinkConfig

/-- The second hook is the first one, seen through the view; or there is no second one, and the
first one only watches. -/
inductive Watches {Info Res : Type} (view : σ → τ) (cont : Res) :
    Option (Info → σ → Gen (Res × σ)) → Option (Info → τ → Gen (Res × τ)) → Prop
  | none : Watches view cont none none
  | viewed {hook : Info → σ → Gen (Res × σ)} {hook' : Info → τ → Gen (Res × τ)} :
      (∀ info u, hook' info (view u) = (hook info u).map (Prod.map id view)) →
        Watches view cont (some hook) (some hook')
  | only {hook : Info → σ → Gen (Res × σ)} :
      (∀ info u, ∃ v, hook info u = .ret (cont, v) ∧ view v = view u) →
        Watches view cont (some hook) none

theorem both_or_neither {γ δ : Type} {rel : γ → δ → Prop} {o : Option γ} {o' : Option δ}
    (h : Option.Rel rel o o') :
    o = none ∧ o' = none ∨ ∃ a b, o = some a ∧ o' = some b ∧ rel a b := by
  cases h with
  | none => exact .inl ⟨rfl, rfl⟩
  | some h => exact .inr ⟨_, _, rfl, rfl, h⟩

theorem isSome_eq {γ δ : Type} {rel : γ → δ → Prop} {o : Option γ} {o' : Option δ}
    (h : Option.Rel rel o o') : o'.isSome = o.isSome := by
  cases h <;> rfl

/-- A hook that is not handed `t` -/
def plainHook {Info Res : Type} (hook : Info → σ → Res × σ) (info : Info) (u : σ) : Gen (Res × σ) :=
  .ret (hook info u)

structure Hooks.Watched (view : σ → τ) (hooks : Hooks I σ n) (hooks' : Hooks I τ n) : Prop where
  runPre : Watches view .cont (hooks.runPre.map plainHook) (hooks'.runPre.map plainHook)
  runPost : Watches view .cont (hooks.runPost.map plainHook) (hooks'.runPost.map plainHook)
  genArgsPre : Watches view .cont (hooks.genArgsPre.map plainHook) (hooks'.genArgsPre.map plainHook)
  trialPre : Watches view .cont (hooks.trialPre.map plainHook) (hooks'.trialPre.map plainHook)
  trialPost : Watches view .cont hooks.trialPost hooks'.trialPost
  counterexample : Option.Rel (fun hook hook' => ∀ info u,
    hook' info (view u) = (hook info u).map (Prod.map id view))
    hooks.counterexample hooks'.counterexample
  shrinkPre : Watches view .cont (hooks.shrinkPre.map plainHook) (hooks'.shrinkPre.map plainHook)
  shrinkPost : Option.Rel (fun hook hook' => ∀ info u,
    hook' info (view u) = Prod.map id view (hook info u)) hooks.shrinkPost hooks'.shrinkPost
  shrinkTrialPost : Watches view .cont (hooks.shrinkTrialPost.map plainHook)
    (hooks'.shrinkTrialPost.map plainHook)

/-- The first configuration is the second one, with hooks that only watch. -/
structure Config.Watched (view : σ → τ) (cfg : Config I σ n) (cfg' : Config I τ n) : Prop where
  name : cfg'.name = cfg.name
  prop : Option.Rel (fun prop prop' => ∀ args u,
    prop' args (view u) = (prop args u).map (Prod.map id view)) cfg.prop cfg'.prop
  typeInfo : ∀ i, (cfg.typeInfo i).Viewed view (cfg'.typeInfo i)
  trials : cfg'.trials = cfg.trials
  seed : cfg'.seed = cfg.seed
  alwaysSeeds : cfg'.alwaysSeeds = cfg.alwaysSeeds
  hooks : cfg.hooks.Watched view cfg'.hooks

/-- The same for what `theft_run_init` makes of them -/
structure Runner.Watched (view : σ → τ) (r : Runner I σ n) (r' : Runner I τ n) : Prop where
  name : r'.name = r.name
  propFun : ∀ args u, r'.propFun args (view u) = (r.propFun args u).map (Prod.map id view)
  trialCount : r'.trialCount = r.trialCount
  typeInfo : ∀ i, (r.typeInfo i).Viewed view (r'.typeInfo i)
  runSeed : r'.runSeed = r.runSeed
  alwaysSeeds : r'.alwaysSeeds = r.alwaysSeeds
  hooks : r.hooks.Watched view r'.hooks
  filterMemory : r'.filterMemory = r.filterMemory
  envMemory : r'.envMemory = r.envMemory

/-- Whether a callback of this kind is called with these hooks. -/
def Hooks.hears (hooks : Hooks I τ n) : EventKind → Bool
  | .runPre => hooks.runPre.isSome
  | .runPost => hooks.runPost.isSome
  | .genArgsPre => hooks.genArgsPre.isSome
  | .trialPre => hooks.trialPre.isSome
  | .trialPost => hooks.trialPost.isSome
  | .shrinkPre => hooks.shrinkPre.isSome
  | .shrinkTrialPost => hooks.shrinkTrialPost.isSome
  | _ => true

/-- The events of a run with these hooks, among others -/
def Hooks.heard (hooks : Hooks I τ n) (trace : List (Event I n)) : List (Event I n) :=
  trace.filter fun event => hooks.hears event.kind

/-- What the run with these hooks has of a state. -/
def RunState.unwatched (view : σ → τ) (hooks : Hooks I τ n) (s : RunState R I σ n) :
    RunState R I τ n where
  bloom := s.bloom
  prng := s.prng
  ledger := s.ledger
  counters := s.counters
  trial := s.trial
  user := view s.user
  trace := hooks.heard s.trace

theorem Hooks.heard_cons {hooks : Hooks I τ n} {event : Event I n}
    (h : hooks.hears event.kind = true) (trace : List (Event I n)) :
    hooks.heard (event :: trace) = event :: hooks.heard trace := List.filter_cons_of_pos h

theorem Hooks.heard_cons_of_not {hooks : Hooks I τ n} {event : Event I n}
    (h : hooks.hears event.kind = false) (trace : List (Event I n)) :
    hooks.heard (event :: trace) = hooks.heard trace :=
  List.filter_cons_of_neg (ne_true_of_eq_false h)

variable [Platform R]

/-- The second program does what the first one does, but for the watching. -/
abbrev Unwatched (view : σ → τ) (hooks : Hooks I τ n) (m : Run R I σ n α) (m' : Run R I τ n α) :
    Prop := Mirrors (RunState.unwatched view hooks) id m m'

/-! ## Callbacks -/

theorem mirrors_gen (g : α → β) (gen : Gen α) :
    Mirrors id g (gen.run : Draw R α) ((gen.map g).run : Draw R β) := by
  constructor
  intro p
  rw [id, run_map]
  cases gen.run p <;> rfl

namespace Unwatched
variable {hooks : Hooks I τ n}

omit [Platform R] in
theorem record {event : Event I n} (h : hooks.hears event.kind = true) :
    Unwatched view hooks (record event : Run R I σ n Unit) (record event) :=
  .modify fun s => congrArg (fun trace => { s.unwatched view hooks with trace := trace })
    (hooks.heard_cons h s.trace).symm

omit [Platform R] in
theorem modifyTrial (f : TrialInfo I n → TrialInfo I n) :
    Unwatched view hooks (modifyTrial f : Run R I σ n Unit) (modifyTrial f) := .modify fun _ => rfl

omit [Platform R] in
theorem modifyCounters (f : RunReport → RunReport) :
    Unwatched view hooks (modifyCounters f : Run R I σ n Unit) (modifyCounters f) :=
  .modify fun _ => rfl

theorem runCallback {g : σ → Gen (α × σ)} {g' : τ → Gen (α × τ)}
    (hg : ∀ u, g' (view u) = (g u).map (Prod.map id view)) :
    Unwatched view hooks (runCallback g : Run R I σ n α) (runCallback g') := by
  apply Mirrors.bind Mirrors.get
  intro s
  refine .bind (.zoom (p := id) (g := Prod.map id view) ?_ (fun _ => rfl) fun _ _ => rfl)
    fun a => ?_
  · rw [show (RunState.unwatched view hooks s).user = view s.user from rfl, hg]
    exact mirrors_gen _ _
  refine .bind (.modify fun _ => rfl) fun _ => ?_
  exact .same _

theorem runPlain {f : σ → α × σ} {f' : τ → α × τ}
    (hf : ∀ u, f' (view u) = Prod.map id view (f u)) :
    Unwatched view hooks (runPlain f : Run R I σ n α) (runPlain f') :=
  runCallback fun u => congrArg Gen.ret (hf u)

theorem ask {event : Event I n} {answer : α → Event I n} {g : σ → Gen (α × σ)}
    {g' : τ → Gen (α × τ)} (hevent : hooks.hears event.kind = true)
    (hanswer : ∀ a, hooks.hears (answer a).kind = true)
    (hg : ∀ u, g' (view u) = (g u).map (Prod.map id view)) :
    Unwatched view hooks (ask event answer g : Run R I σ n α) (ask event answer g') := by
  apply Mirrors.andThen (record hevent)
  intro _
  apply Mirrors.andThen (runCallback hg)
  intro a
  apply Mirrors.andThen (record (hanswer a))
  intro _
  exact .same a

/-- A hook that only watches, where there is none. -/
theorem ask_only {event : Event I n} {answer : α → Event I n} {g : σ → Gen (α × σ)} {a : α}
    (hevent : hooks.hears event.kind = false) (hanswer : hooks.hears (answer a).kind = false)
    (hg : ∀ u, ∃ v, g u = .ret (a, v) ∧ view v = view u) :
    Unwatched view hooks (Theft.ask event answer g : Run R I σ n α) (pure a) := by
  refine .skip rfl fun s => ?_
  obtain ⟨v, hrun, hv⟩ := hg s.user
  refine ⟨{ s with user := v, trace := answer a :: event :: s.trace }, ?_, ?_⟩
  · simp only [Theft.ask, Theft.record, Theft.runCallback, bind_apply, modify_apply, get_apply,
      zoom, hrun, Gen.run, pure_apply]
  · have htrace : hooks.heard (answer a :: event :: s.trace) = hooks.heard s.trace :=
      (hooks.heard_cons_of_not hanswer _).trans (hooks.heard_cons_of_not hevent _)
    rw [RunState.unwatched, RunState.unwatched, hv, htrace]

theorem askHook {Info Res : Type} {hook : Option (Info → σ → Res × σ)}
    {hook' : Option (Info → τ → Res × τ)} {info : Info} {cont : Res} {event : Event I n}
    {answer : Res → Event I n} (h : Watches view cont (hook.map plainHook) (hook'.map plainHook))
    (hevent : hooks.hears event.kind = hook'.isSome)
    (hanswer : ∀ a, hooks.hears (answer a).kind = hook'.isSome) :
    Unwatched view hooks (askHook hook info cont event answer : Run R I σ n Res)
      (askHook hook' info cont event answer) := by
  cases hook with
  | none =>
    cases hook' with
    | none => exact .same cont
    | some hook' => cases h
  | some hook =>
    cases hook' with
    | none =>
      cases h with
      | only h => exact ask_only hevent (hanswer cont) (h info)
    | some hook' =>
      cases h with
      | viewed h => exact ask hevent hanswer (h info)

/-! ## Hooks -/

variable {r : Runner I σ n} {r' : Runner I τ n} (h : r.Watched view r')

include h

theorem trialPostHook (info : TrialPostInfo I n) :
    Unwatched view r'.hooks (trialPostHook r info : Run R I σ n _) (trialPostHook r' info) := by
  have hhook := h.hooks.trialPost
  have hhears : r'.hooks.hears .trialPost = r'.hooks.trialPost.isSome := rfl
  unfold Theft.trialPostHook
  cases hr : r.hooks.trialPost with
  | none =>
    cases hr' : r'.hooks.trialPost with
    | none => exact .same _
    | some hook' =>
      rw [hr, hr'] at hhook
      cases hhook
  | some hook =>
    cases hr' : r'.hooks.trialPost with
    | none =>
      rw [hr, hr'] at hhook
      rw [hr'] at hhears
      cases hhook with
      | only hhook => exact ask_only hhears hhears (hhook info)
    | some hook' =>
      rw [hr, hr'] at hhook
      rw [hr'] at hhears
      cases hhook with
      | viewed hhook => exact ask hhears (fun _ => hhears) (hhook info)

theorem runPreHook :
    Unwatched view r'.hooks (runPreHook r : Run R I σ n _) (runPreHook r') := by
  unfold Theft.runPreHook
  rw [h.name, h.trialCount, h.runSeed]
  exact askHook h.hooks.runPre rfl fun _ => rfl

theorem runPostHook :
    Unwatched view r'.hooks (runPostHook r : Run R I σ n _) (runPostHook r') := by
  refine .bind .get fun s => ?_
  rw [h.name, h.trialCount, h.runSeed]
  exact askHook h.hooks.runPost rfl fun _ => rfl

theorem genArgsPreHook :
    Unwatched view r'.hooks (genArgsPreHook r : Run R I σ n _) (genArgsPreHook r') := by
  refine .bind .get fun s => ?_
  rw [h.name, h.trialCount, h.runSeed]
  exact askHook h.hooks.genArgsPre rfl fun _ => rfl

theorem trialPreHook (trial : Nat) (seed : Word) :
    Unwatched view r'.hooks (trialPreHook r trial seed : Run R I σ n _)
      (trialPreHook r' trial seed) := by
  refine .bind .get fun s => ?_
  rw [h.name, h.trialCount, h.runSeed]
  exact askHook h.hooks.trialPre rfl fun _ => rfl

theorem shrinkPreHook (argIndex : Fin n) (arg : Option I) (tactic : Nat) :
    Unwatched view r'.hooks (shrinkPreHook r argIndex arg tactic : Run R I σ n _)
      (shrinkPreHook r' argIndex arg tactic) := by
  refine .bind .get fun s => ?_
  rw [h.name, h.trialCount, h.runSeed]
  exact askHook h.hooks.shrinkPre rfl fun _ => rfl

theorem shrinkTrialPostHook (argIndex : Fin n) (args : Args I n) (lastTactic : Nat)
    (result : TrialRes) :
    Unwatched view r'.hooks
      (shrinkTrialPostHook r argIndex args lastTactic result : Run R I σ n _)
      (shrinkTrialPostHook r' argIndex args lastTactic result) := by
  refine .bind .get fun s => ?_
  rw [h.name, h.trialCount, h.runSeed]
  exact askHook h.hooks.shrinkTrialPost rfl fun _ => rfl

theorem shrinkPostHook (argIndex : Fin n) (arg : Option I) (tactic : Nat) (sres : ShrinkRes) :
    Unwatched view r'.hooks (shrinkPostHook r argIndex arg tactic sres : Run R I σ n _)
      (shrinkPostHook r' argIndex arg tactic sres) := by
  unfold Theft.shrinkPostHook
  rw [h.name, h.trialCount, h.runSeed]
  obtain ⟨hr, hr'⟩ | ⟨hook, hook', hr, hr', hhook⟩ := both_or_neither h.hooks.shrinkPost
  · rw [hr, hr']
    exact .same _
  · rw [hr, hr']
    dsimp only
    cases shrinkPostState sres with
    | none => exact .throw _
    | some state =>
      exact .bind .get fun s => ask rfl (fun _ => rfl) fun u => congrArg Gen.ret (hhook _ u)

omit h in
theorem printInst {info : TypeInfo I σ} {info' : TypeInfo I τ} (hinfo : info.Viewed view info')
    (argI : Fin n) (inst : Option I) :
    Unwatched view r'.hooks (printInst info argI inst : Run R I σ n _)
      (printInst info' argI inst) := by
  unfold Theft.printInst
  obtain ⟨hr, hr'⟩ | ⟨print, print', hr, hr', hprint⟩ := both_or_neither hinfo.print
  · rw [hr, hr']
    exact .same _
  · rw [hr, hr']
    exact (record rfl).andThen fun _ => runPlain fun u => congrArg (Prod.mk ()) (hprint inst u)

theorem printArgs (args : Args I n) (is : List (Fin n)) :
    Unwatched view r'.hooks (printArgs r args is : Run R I σ n _) (printArgs r' args is) := by
  induction is with
  | nil => exact .same _
  | cons argI rest ih => exact (printInst (h.typeInfo argI) argI (args argI)).andThen fun _ => ih

theorem counterexampleHook (info : CounterexampleInfo I n) :
    Unwatched view r'.hooks (counterexampleHook r info : Run R I σ n _)
      (counterexampleHook r' info) := by
  unfold Theft.counterexampleHook
  obtain ⟨hr, hr'⟩ | ⟨hook, hook', hr, hr', hhook⟩ := both_or_neither h.hooks.counterexample
  · rw [hr, hr']
    exact (printArgs h info.args _).andThen fun _ => .same _
  · rw [hr, hr']
    exact ask rfl (fun _ => rfl) (hhook info)

/-! ## Calls -/

theorem call (args : Args I n) (rerun : Bool) :
    Unwatched view r'.hooks (call r args rerun : Run R I σ n _) (call r' args rerun) :=
  .bind .get fun _ => ask rfl (fun _ => rfl) (h.propFun args)

theorem hashArg (argI : Fin n) :
    Unwatched view r'.hooks (hashArg r argI : Run R I σ n _) (hashArg r' argI) := by
  refine .bind .get fun s => ?_
  obtain ⟨hr, hr'⟩ | ⟨hash, hash', hr, hr', hhash⟩ := both_or_neither (h.typeInfo argI).hash
  · rw [hr, hr']
    dsimp only [RunState.unwatched]
    cases henv : (s.trial.args argI).env with
    | none => exact .throw _
    | some env => exact .attempt _
  · rw [hr, hr']
    exact (record rfl).andThen fun _ => runPlain (hhash _)

theorem getArgHashBuffer (is : List (Fin n)) :
    Unwatched view r'.hooks (getArgHashBuffer r is : Run R I σ n _) (getArgHashBuffer r' is) := by
  induction is with
  | nil => exact .same _
  | cons argI rest ih =>
    apply Mirrors.andThen (hashArg h argI)
    intro _
    apply Mirrors.andThen ih
    intro _
    exact .same _

theorem callCheckCalled :
    Unwatched view r'.hooks (callCheckCalled r : Run R I σ n _) (callCheckCalled r') := by
  apply Mirrors.andThen (getArgHashBuffer h _)
  intro buffer
  apply Mirrors.bind Mirrors.get
  intro s
  dsimp only [RunState.unwatched]
  cases s.bloom with
  | none => exact .throw _
  | some bloom => exact .attempt _

theorem callMarkCalled :
    Unwatched view r'.hooks (callMarkCalled r : Run R I σ n _) (callMarkCalled r') := by
  apply Mirrors.andThen (getArgHashBuffer h _)
  intro buffer
  apply Mirrors.bind Mirrors.get
  intro s
  rw [h.filterMemory]
  dsimp only [RunState.unwatched]
  cases s.bloom with
  | none => exact .throw _
  | some bloom => exact (Mirrors.attempt _).andThen fun _ => .modify fun _ => rfl

/-! ## Autoshrinking -/

omit [Platform R] h in
/-- What the callback makes of the state of user code passes through a step of autoshrinking. -/
theorem zoomEnv {m : Auto R α} {m' : Auto R β} {g : α → β} (hm : Mirrors id g m m') (argI : Fin n)
    (env : AutoshrinkEnv) :
    Mirrors (RunState.unwatched view r'.hooks) g (zoomEnv argI env m : Run R I σ n α)
      (zoomEnv argI env m') := .zoom hm (fun _ => rfl) fun _ _ => rfl

theorem alloc (argI : Fin n) (u : σ) : (r'.typeInfo argI).alloc (view u) =
    ((r.typeInfo argI).alloc u).map (Prod.map id (Prod.map id view)) := (h.typeInfo argI).alloc u

end Unwatched

section
variable {g : α → β}

theorem allocFromBitPool_mirrors (alloc : Gen α) (pool : BitPool) (shrinking : Bool) :
    Mirrors id (Prod.map g id) (allocFromBitPool alloc pool shrinking : Auto R (α × BitPool))
      (allocFromBitPool (alloc.map g) pool shrinking) := by
  refine .bind (.modify fun _ => rfl) fun _ => ?_
  refine .bind (.zoom (mirrors_gen g alloc) (fun _ => rfl) fun _ _ => rfl) fun _ => ?_
  apply Mirrors.bind Mirrors.get
  intro _
  refine .bind (.modify fun _ => rfl) fun _ => ?_
  exact .pure rfl

theorem autoshrinkAlloc_mirrors (alloc : Gen (AllocRes × α)) :
    Mirrors id (Prod.map id (Option.map g)) (autoshrinkAlloc alloc : Auto R _)
      (autoshrinkAlloc (alloc.map (Prod.map id g))) := by
  refine .bind .get fun s => ?_
  dsimp only [id]
  cases allocBitPool s.ledger.nextId (getDef s.env.poolSize defPoolSize)
      (getDef s.env.poolLimit defPoolLimit) defRequestsCeil with
  | none => exact .pure rfl
  | some pool =>
    apply Mirrors.bind (.set rfl)
    intro _
    apply Mirrors.bind (allocFromBitPool_mirrors alloc pool false)
    intro _
    refine .bind (.modify fun _ => rfl) fun _ => ?_
    exact .pure rfl

/-- A program on the same states -/
theorem mirrors_refl {ε σ : Type} (m : EStateM ε σ α) : Mirrors id id m m := by
  constructor
  intro s
  cases hm : m s <;> simp only [id, seen, hm]

theorem shrinkCopy_mirrors (fuel : Nat) (alloc : Gen (AllocRes × α)) (orig copy : BitPool) :
    Mirrors id (Prod.map id (Prod.map (Option.map g) id))
      (shrinkCopy fuel alloc orig copy : Auto R _)
      (shrinkCopy fuel (alloc.map (Prod.map id g)) orig copy) := by
  unfold shrinkCopy
  apply Mirrors.bind (mirrors_refl _)
  intro _
  apply Mirrors.bind (mirrors_refl _)
  intro _
  apply Mirrors.bind (mirrors_refl _)
  intro copy
  apply Mirrors.bind (mirrors_refl _)
  intro copy
  apply Mirrors.bind (allocFromBitPool_mirrors alloc copy true)
  intro res
  obtain ⟨⟨ares, res⟩, copy⟩ := res
  cases ares with
  | ok => exact .pure rfl
  | skip => exact .bind (mirrors_refl _) fun _ => .pure rfl
  | error => exact .bind (mirrors_refl _) fun _ => .pure rfl

theorem autoshrinkShrink_mirrors (fuel : Nat) (alloc : Gen (AllocRes × α)) (tactic : Nat) :
    Mirrors id (Prod.map id (Prod.map (Option.map g) id))
      (autoshrinkShrink fuel alloc tactic : Auto R _)
      (autoshrinkShrink fuel (alloc.map (Prod.map id g)) tactic) := by
  refine .bind .get fun s => ?_
  dsimp only [id]
  cases s.env.bitPool with
  | none => exact .throw _
  | some orig =>
    dsimp only
    split
    · exact .pure rfl
    · cases buildIndex orig with
      | none => exact .pure rfl
      | some orig =>
        refine .bind (mirrors_refl _) fun _ => ?_
        cases allocBitPool s.ledger.nextId orig.bitsFilled orig.limit orig.requestCeil with
        | none => exact .pure rfl
        | some copy => exact .bind (mirrors_refl _) fun _ => shrinkCopy_mirrors fuel alloc orig copy

end

namespace Unwatched
variable {r : Runner I σ n} {r' : Runner I τ n} (h : r.Watched view r')

include h

theorem autoshrinkCandidate (fuel : Nat) (argI : Fin n) (tactic : Nat) :
    Unwatched view r'.hooks (autoshrinkCandidate fuel r argI tactic : Run R I σ n _)
      (autoshrinkCandidate fuel r' argI tactic) := by
  refine .bind .get fun s => ?_
  dsimp only [RunState.unwatched]
  rw [alloc h]
  cases (s.trial.args argI).env with
  | none => exact .throw _
  | some env =>
    refine .bind (zoomEnv (autoshrinkShrink_mirrors fuel _ tactic) argI env) fun res => ?_
    obtain ⟨sres, res, pool⟩ := res
    cases res with
    | none => exact .same _
    | some res =>
      apply Mirrors.andThen (record rfl)
      intro _
      apply Mirrors.andThen (record rfl)
      intro _
      refine .andThen (.modify fun _ => rfl) fun _ => ?_
      exact .same _

theorem userCandidate (argI : Fin n) (current : Option I) (tactic : Nat) :
    Unwatched view r'.hooks (userCandidate r argI current tactic : Run R I σ n _)
      (userCandidate r' argI current tactic) := by
  unfold Theft.userCandidate
  obtain ⟨hr, hr'⟩ | ⟨shrink, shrink', hr, hr', hshrink⟩ :=
    both_or_neither (h.typeInfo argI).shrink
  · rw [hr, hr']
    exact .throw _
  · rw [hr, hr']
    refine .andThen (ask rfl (fun _ => rfl) fun u => ?_) fun _ => .same _
    rw [hshrink, gen_map_map, gen_map_map]
    rfl

/-! ## Shrinking -/

omit [Platform R] h in
theorem currentPool (argI : Fin n) :
    Unwatched view r'.hooks (currentPool argI : Run R I σ n _) (currentPool argI) :=
  .bind .get fun _ => .same _

omit [Platform R] h in
theorem freePool (pool : BitPool) :
    Unwatched view r'.hooks (freePool pool : Run R I σ n _) (freePool pool) := by
  apply Mirrors.bind Mirrors.get
  intro _
  apply Mirrors.bind (Mirrors.attempt _)
  intro _
  exact .set rfl

omit [Platform R] h in
theorem freePoolPtr (pool : Option BitPool) :
    Unwatched view r'.hooks (freePoolPtr pool : Run R I σ n _) (freePoolPtr pool) := by
  cases pool with
  | none => exact .throw _
  | some pool => exact freePool pool

omit [Platform R] h in
theorem freePoolIf (pool : Option BitPool) :
    Unwatched view r'.hooks (freePoolIf pool : Run R I σ n _) (freePoolIf pool) := by
  cases pool with
  | none => exact .same _
  | some pool => exact freePool pool

omit [Platform R] in
theorem ifAutoshrink (argI : Fin n) {m : Run R I σ n Unit} {m' : Run R I τ n Unit}
    (hm : Unwatched view r'.hooks m m') :
    Unwatched view r'.hooks (ifAutoshrink r argI m) (ifAutoshrink r' argI m') := by
  unfold Theft.ifAutoshrink
  rw [(h.typeInfo argI).autoshrinkConfig]
  split
  · exact hm
  · exact .same _

theorem freeInst (argI : Fin n) (inst : Option I) :
    Unwatched view r'.hooks (freeInst r argI inst : Run R I σ n _) (freeInst r' argI inst) := by
  unfold Theft.freeInst freeWith
  obtain ⟨hr, hr'⟩ | ⟨free, free', hr, hr', hfree⟩ := both_or_neither (h.typeInfo argI).free
  · rw [hr, hr']
    exact .same _
  · rw [hr, hr']
    exact (record rfl).andThen fun _ => runPlain fun u => congrArg (Prod.mk ()) (hfree inst u)

omit [Platform R] in
theorem countShrink (argI : Fin n) (res : TrialRes) (repeated : Bool) :
    Unwatched view r'.hooks (countShrink r argI res repeated : Run R I σ n _)
      (countShrink r' argI res repeated) := by
  unfold Theft.countShrink
  split
  · exact .same _
  · split
    · exact (modifyTrial _).andThen fun _ => ifAutoshrink h argI (modifyTrial _)
    · exact modifyTrial _

theorem shrinkTrials (argI : Fin n) (tactic fuel : Nat) : ∀ repeated,
    Unwatched view r'.hooks (shrinkTrials r argI tactic fuel repeated : Run R I σ n _)
      (shrinkTrials r' argI tactic fuel repeated) := by
  induction fuel with
  | zero => exact fun _ => .throw _
  | succ fuel ih =>
    intro repeated
    apply Mirrors.bind Mirrors.get
    intro s
    apply Mirrors.andThen (call h _ repeated)
    intro res
    apply Mirrors.andThen (countShrink h argI res repeated)
    intro _
    apply Mirrors.andThen (shrinkTrialPostHook h argI _ tactic res)
    intro stpres
    cases stpres with
    | repeat_ => exact ih true
    | repeatOnce =>
      dsimp only
      split
      · exact .same _
      · exact ih true
    | cont => exact .same _
    | error => exact .same _

omit [Platform R] in
theorem revertPool (argI : Fin n) (current candidate : Option BitPool) :
    Unwatched view r'.hooks (revertPool r argI current candidate : Run R I σ n _)
      (revertPool r' argI current candidate) :=
  ifAutoshrink h argI ((modifyTrial _).andThen fun _ => freePoolPtr candidate)

theorem skipCalled :
    Unwatched view r'.hooks (skipCalled r : Run R I σ n _) (skipCalled r') := by
  refine .bind .get fun s => ?_
  dsimp only [RunState.unwatched]
  split
  · refine (callCheckCalled h).andThen fun called => ?_
    split
    · exact .same _
    · exact (callMarkCalled h).andThen fun _ => .same _
  · exact .same _

theorem judgeCandidate (argI : Fin n) (current candidate : Option I)
    (currentPool candidatePool : Option BitPool) (res : TrialRes) :
    Unwatched view r'.hooks
      (judgeCandidate r argI current candidate currentPool candidatePool res : Run R I σ n _)
      (judgeCandidate r' argI current candidate currentPool candidatePool res) := by
  refine .andThen (ifAutoshrink h argI (modifyTrial _)) fun _ => ?_
  have revert : Unwatched view r'.hooks (do
      setInst argI current
      Theft.revertPool r argI currentPool candidatePool
      Theft.freeInst r argI candidate
      return none : Run R I σ n (Option AttemptRes)) (do
      setInst argI current
      Theft.revertPool r' argI currentPool candidatePool
      Theft.freeInst r' argI candidate
      return none) := by
    apply Mirrors.andThen (modifyTrial _)
    intro _
    apply Mirrors.andThen (revertPool h argI currentPool candidatePool)
    intro _
    apply Mirrors.andThen (freeInst h argI candidate)
    intro _
    exact .same none
  have fail : Unwatched view r'.hooks (do
      Theft.freeInst r argI current
      Theft.ifAutoshrink r argI (Theft.freePoolPtr currentPool)
      return some .error : Run R I σ n (Option AttemptRes)) (do
      Theft.freeInst r' argI current
      Theft.ifAutoshrink r' argI (Theft.freePoolPtr currentPool)
      return some .error) := by
    apply Mirrors.andThen (freeInst h argI current)
    intro _
    apply Mirrors.andThen (ifAutoshrink h argI (freePoolPtr currentPool))
    intro _
    exact .same _
  cases res with
  | pass => exact revert
  | skip => exact revert
  | fail =>
    apply Mirrors.andThen (ifAutoshrink h argI (freePoolPtr currentPool))
    intro _
    apply Mirrors.andThen (freeInst h argI current)
    intro _
    exact .same _
  | dup => exact fail
  | error => exact fail

theorem tryCandidate (fuel : Nat) (argI : Fin n) (tactic : Nat) (current candidate : Option I)
    (currentPool candidatePool : Option BitPool) :
    Unwatched view r'.hooks
      (tryCandidate fuel r argI tactic current candidate currentPool candidatePool : Run R I σ n _)
      (tryCandidate fuel r' argI tactic current candidate currentPool candidatePool) := by
  apply Mirrors.andThen (modifyTrial _)
  intro _
  apply Mirrors.andThen (ifAutoshrink h argI (modifyTrial _))
  intro _
  apply Mirrors.andThen (skipCalled h)
  intro called
  split
  · apply Mirrors.andThen (freeInst h argI candidate)
    intro _
    apply Mirrors.andThen (revertPool h argI currentPool candidatePool)
    intro _
    apply Mirrors.andThen (modifyTrial _)
    intro _
    exact .same _
  · refine (shrinkTrials h argI tactic fuel false).andThen fun res => ?_
    cases res with
    | some res => exact judgeCandidate h argI current candidate currentPool candidatePool res
    | none =>
      apply Mirrors.andThen (freeInst h argI current)
      intro _
      apply Mirrors.andThen (ifAutoshrink h argI (freePoolIf currentPool))
      intro _
      exact .same _

theorem attemptTactic (fuel : Nat) (argI : Fin n) (tactic : Nat) :
    Unwatched view r'.hooks (attemptTactic fuel r argI tactic : Run R I σ n _)
      (attemptTactic fuel r' argI tactic) := by
  apply Mirrors.bind Mirrors.get
  intro s
  apply Mirrors.andThen (shrinkPreHook h argI _ tactic)
  intro answer
  cases answer with
  | halt => exact .same _
  | error => exact .same _
  | cont =>
    refine .andThen ?_ fun res => ?_
    · rw [(h.typeInfo argI).autoshrinkConfig]
      split
      · exact autoshrinkCandidate h fuel argI tactic
      · exact userCandidate h argI _ tactic
    · obtain ⟨sres, candidate, candidatePool⟩ := res
      apply Mirrors.andThen (currentPool argI)
      intro pool
      apply Mirrors.andThen (modifyTrial _)
      intro _
      apply Mirrors.andThen (shrinkPostHook h argI _ tactic sres)
      intro answer
      cases answer with
      | error =>
        apply Mirrors.andThen (freeInst h argI candidate)
        intro _
        apply Mirrors.andThen (freePoolIf candidatePool)
        intro _
        exact .same _
      | cont =>
        cases sres with
        | ok => exact tryCandidate h fuel argI tactic _ candidate pool candidatePool
        | deadEnd => exact .same _
        | noMoreTactics => exact .same _
        | error => exact .same _

theorem attemptTactics (fuel : Nat) (argI : Fin n) (left : Nat) : ∀ tactic,
    Unwatched view r'.hooks (attemptTactics fuel r argI left tactic : Run R I σ n _)
      (attemptTactics fuel r' argI left tactic) := by
  induction left with
  | zero => exact fun _ => .same _
  | succ left ih =>
    intro tactic
    refine (attemptTactic h fuel argI tactic).andThen fun res => ?_
    cases res with
    | some res => exact .same _
    | none => exact ih (tactic + 1)

theorem attemptToShrinkArg (fuel : Nat) (argI : Fin n) :
    Unwatched view r'.hooks (attemptToShrinkArg fuel r argI : Run R I σ n _)
      (attemptToShrinkArg fuel r' argI) := attemptTactics h fuel argI maxTactics 0

omit [Platform R] in
theorem shrinks (argI : Fin n) :
    (r'.typeInfo argI).shrink.isSome = (r.typeInfo argI).shrink.isSome :=
  isSome_eq (h.typeInfo argI).shrink

theorem shrinkFrom (inner fuel : Nat) : ∀ argI progress,
    Unwatched view r'.hooks (shrinkFrom inner r fuel argI progress : Run R I σ n _)
      (shrinkFrom inner r' fuel argI progress) := by
  induction fuel with
  | zero => exact fun _ _ => .throw _
  | succ fuel ih =>
    intro argI progress
    unfold Theft.shrinkFrom
    by_cases hlt : argI < n
    · simp only [dif_pos hlt, shrinks h, (h.typeInfo ⟨argI, hlt⟩).autoshrinkConfig]
      split
      · refine (attemptToShrinkArg h inner ⟨argI, hlt⟩).andThen fun res => ?_
        cases res with
        | ok => exact ih argI true
        | halt => exact .same _
        | deadEnd => exact ih (argI + 1) progress
        | error => exact .same _
      · exact ih (argI + 1) progress
    · simp only [dif_neg hlt]
      split
      · exact ih 0 false
      · exact .same _

theorem shrink (fuel : Nat) :
    Unwatched view r'.hooks (shrink fuel r : Run R I σ n _) (shrink fuel r') :=
  (Mirrors.require _).andThen fun _ => shrinkFrom h fuel fuel 0 false

end Unwatched

end

end Theft
