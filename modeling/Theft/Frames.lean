import Theft.AutoshrinkFrame
import Theft.BloomExact
import Theft.Run

/-!
# What the programs of the runner leave alone

From the narrowest to the widest, each with the kinds of callbacks that may have been called:

* `Asked`: random bits, user code and the trace are all that changed;
* `Freeing`: also, something was freed;
* `Steady`: no argument was exchanged;
* `Quiet`: nothing was marked in the bloom filter, and the trial is the same one;
* `Marking`: the trial is the same one, and nothing was counted;
* `Counting`: the trial is the same one;
* `Onward`: the trace went on, and the bloom filter stayed well formed.

`Effect (Asked K) m` is a statement about every run of `m`, returned or stopped.
-/

namespace Theft

open PackedBits Exec

/-- The callbacks. -/
inductive EventKind
  | alloc
  | free
  | hash
  | print
  | shrink
  | call
  | runPre
  | runPost
  | genArgsPre
  | trialPre
  | trialPost
  | counterexample
  | shrinkPre
  | shrinkPost
  | shrinkTrialPost
  deriving DecidableEq, Repr

section
variable {R I σ : Type} {n : Nat} {α β : Type}

/-- The callback that was called, or that answered. -/
def Event.kind : Event I n → EventKind
  | .alloc _ | .allocated _ _ => .alloc
  | .free _ _ => .free
  | .hash _ _ => .hash
  | .print _ _ => .print
  | .shrink _ _ _ | .shrunk _ _ => .shrink
  | .call _ _ _ | .returned _ => .call
  | .runPre _ | .runPreRes _ => .runPre
  | .runPost _ | .runPostRes _ => .runPost
  | .genArgsPre _ | .genArgsPreRes _ => .genArgsPre
  | .trialPre _ | .trialPreRes _ => .trialPre
  | .trialPost _ | .trialPostRes _ => .trialPost
  | .counterexample _ | .counterexampleRes _ => .counterexample
  | .shrinkPre _ | .shrinkPreRes _ => .shrinkPre
  | .shrinkPost _ | .shrinkPostRes _ => .shrinkPost
  | .shrinkTrialPost _ | .shrinkTrialPostRes _ => .shrinkTrialPost

/-- What shrinking steps leave alone in an argument that is not exchanged. -/
def ArgInfo.core (a : ArgInfo I) : ArgInfo I := { a with env := a.env.map AutoshrinkEnv.core }

/-! ## Relations between states -/

/-- The trace was continued by events of some kinds. -/
def Adds (K : List EventKind) (s t : RunState R I σ n) : Prop :=
  ∃ new, t.trace = new ++ s.trace ∧ ∀ e ∈ new, e.kind ∈ K

/-- The bloom filter is still there, and well formed if it was. -/
structure KeepsFilter (s t : RunState R I σ n) : Prop where
  isSome : t.bloom.isSome = s.bloom.isSome
  inv : (∀ b, s.bloom = some b → b.Inv) → ∀ b, t.bloom = some b → b.Inv

/-- The same trial, with nothing counted. -/
structure SameTrial (s t : RunState R I σ n) : Prop where
  counters : t.counters = s.counters
  trial : t.trial.trial = s.trial.trial
  seed : t.trial.seed = s.trial.seed

structure Asked (K : List EventKind) (s t : RunState R I σ n) : Prop where
  bloom : t.bloom = s.bloom
  ledger : t.ledger = s.ledger
  counters : t.counters = s.counters
  trial : t.trial = s.trial
  trace : Adds K s t

structure Freeing (K : List EventKind) (s t : RunState R I σ n) : Prop where
  bloom : t.bloom = s.bloom
  counters : t.counters = s.counters
  trial : t.trial = s.trial
  trace : Adds K s t

structure Steady (K : List EventKind) (s t : RunState R I σ n) : Prop where
  bloom : t.bloom = s.bloom
  same : SameTrial s t
  core : ∀ i, (t.trial.args i).core = (s.trial.args i).core
  trace : Adds K s t

structure Quiet (K : List EventKind) (s t : RunState R I σ n) : Prop where
  bloom : t.bloom = s.bloom
  same : SameTrial s t
  trace : Adds K s t

structure Marking (K : List EventKind) (s t : RunState R I σ n) : Prop where
  bloom : KeepsFilter s t
  same : SameTrial s t
  trace : Adds K s t

structure Counting (K : List EventKind) (s t : RunState R I σ n) : Prop where
  bloom : KeepsFilter s t
  trial : t.trial.trial = s.trial.trial
  seed : t.trial.seed = s.trial.seed
  trace : Adds K s t

structure Onward (K : List EventKind) (s t : RunState R I σ n) : Prop where
  bloom : KeepsFilter s t
  trace : Adds K s t

section
variable {K K' : List EventKind}

theorem Adds.of_eq {s t : RunState R I σ n} (h : t.trace = s.trace) : Adds K s t := ⟨[], h, nofun⟩

theorem Adds.of_cons {s t : RunState R I σ n} {event : Event I n} (hevent : event.kind ∈ K)
    (h : t.trace = event :: s.trace) : Adds K s t := by
  refine ⟨[event], h, ?_⟩
  intro e he
  rw [List.mem_singleton.mp he]
  exact hevent

theorem KeepsFilter.of_eq {s t : RunState R I σ n} (h : t.bloom = s.bloom) : KeepsFilter s t :=
  ⟨by rw [h], fun hinv => by rw [h]; exact hinv⟩

instance : IsPreorder (RunState R I σ n) (Adds K) where
  refl _ := .of_eq rfl
  trans s t u h₁ h₂ := by
    obtain ⟨new₁, ht, hnew₁⟩ := h₁
    obtain ⟨new₂, hu, hnew₂⟩ := h₂
    refine ⟨new₂ ++ new₁, by rw [hu, ht, List.append_assoc], ?_⟩
    intro e he
    exact (List.mem_append.mp he).elim (hnew₂ e) (hnew₁ e)

instance : IsPreorder (RunState R I σ n) KeepsFilter where
  refl _ := .of_eq rfl
  trans _ _ _ h₁ h₂ := ⟨h₂.isSome.trans h₁.isSome, fun h => h₂.inv (h₁.inv h)⟩

instance : IsPreorder (RunState R I σ n) SameTrial where
  refl _ := ⟨rfl, rfl, rfl⟩
  trans _ _ _ h₁ h₂ :=
    ⟨h₂.counters.trans h₁.counters, h₂.trial.trans h₁.trial, h₂.seed.trans h₁.seed⟩

instance : IsPreorder (RunState R I σ n) (Asked K) where
  refl s := ⟨rfl, rfl, rfl, rfl, Std.Refl.refl s⟩
  trans _ _ _ h₁ h₂ := ⟨h₂.bloom.trans h₁.bloom, h₂.ledger.trans h₁.ledger,
    h₂.counters.trans h₁.counters, h₂.trial.trans h₁.trial, IsTrans.trans _ _ _ h₁.trace h₂.trace⟩

instance : IsPreorder (RunState R I σ n) (Freeing K) where
  refl s := ⟨rfl, rfl, rfl, Std.Refl.refl s⟩
  trans _ _ _ h₁ h₂ := ⟨h₂.bloom.trans h₁.bloom, h₂.counters.trans h₁.counters,
    h₂.trial.trans h₁.trial, IsTrans.trans _ _ _ h₁.trace h₂.trace⟩

instance : IsPreorder (RunState R I σ n) (Steady K) where
  refl s := ⟨rfl, Std.Refl.refl s, fun _ => rfl, Std.Refl.refl s⟩
  trans _ _ _ h₁ h₂ := ⟨h₂.bloom.trans h₁.bloom, IsTrans.trans _ _ _ h₁.same h₂.same,
    fun i => (h₂.core i).trans (h₁.core i), IsTrans.trans _ _ _ h₁.trace h₂.trace⟩

instance : IsPreorder (RunState R I σ n) (Quiet K) where
  refl s := ⟨rfl, Std.Refl.refl s, Std.Refl.refl s⟩
  trans _ _ _ h₁ h₂ := ⟨h₂.bloom.trans h₁.bloom, IsTrans.trans _ _ _ h₁.same h₂.same,
    IsTrans.trans _ _ _ h₁.trace h₂.trace⟩

instance : IsPreorder (RunState R I σ n) (Marking K) where
  refl s := ⟨Std.Refl.refl s, Std.Refl.refl s, Std.Refl.refl s⟩
  trans _ _ _ h₁ h₂ := ⟨IsTrans.trans _ _ _ h₁.bloom h₂.bloom,
    IsTrans.trans _ _ _ h₁.same h₂.same, IsTrans.trans _ _ _ h₁.trace h₂.trace⟩

instance : IsPreorder (RunState R I σ n) (Counting K) where
  refl s := ⟨Std.Refl.refl s, rfl, rfl, Std.Refl.refl s⟩
  trans _ _ _ h₁ h₂ := ⟨IsTrans.trans _ _ _ h₁.bloom h₂.bloom, h₂.trial.trans h₁.trial,
    h₂.seed.trans h₁.seed, IsTrans.trans _ _ _ h₁.trace h₂.trace⟩

theorem Adds.mono {s t : RunState R I σ n} (h : Adds K s t) (hK : K ⊆ K') : Adds K' s t := by
  obtain ⟨new, htrace, hnew⟩ := h
  exact ⟨new, htrace, fun e he => hK (hnew e he)⟩

theorem Asked.freeing {s t : RunState R I σ n} (h : Asked K s t) : Freeing K s t :=
  ⟨h.bloom, h.counters, h.trial, h.trace⟩

theorem Freeing.steady {s t : RunState R I σ n} (h : Freeing K s t) : Steady K s t :=
  ⟨h.bloom, ⟨h.counters, by rw [h.trial], by rw [h.trial]⟩, fun i => by rw [h.trial], h.trace⟩

theorem Steady.quiet {s t : RunState R I σ n} (h : Steady K s t) : Quiet K s t :=
  ⟨h.bloom, h.same, h.trace⟩

theorem Quiet.marking {s t : RunState R I σ n} (h : Quiet K s t) : Marking K s t :=
  ⟨.of_eq h.bloom, h.same, h.trace⟩

theorem Marking.counting {s t : RunState R I σ n} (h : Marking K s t) : Counting K s t :=
  ⟨h.bloom, h.same.trial, h.same.seed, h.trace⟩

/-! ### Programs -/

theorem Asked.toFreeing {m : Run R I σ n α} (h : Effect (Asked K) m) : Effect (Freeing K) m :=
  h.mono fun _ _ => Asked.freeing

theorem Freeing.toSteady {m : Run R I σ n α} (h : Effect (Freeing K) m) : Effect (Steady K) m :=
  h.mono fun _ _ => Freeing.steady

theorem Steady.toQuiet {m : Run R I σ n α} (h : Effect (Steady K) m) : Effect (Quiet K) m :=
  h.mono fun _ _ => Steady.quiet

theorem Quiet.toMarking {m : Run R I σ n α} (h : Effect (Quiet K) m) : Effect (Marking K) m :=
  h.mono fun _ _ => Quiet.marking

theorem Marking.toCounting {m : Run R I σ n α} (h : Effect (Marking K) m) :
    Effect (Counting K) m := h.mono fun _ _ => Marking.counting

theorem Asked.toSteady {m : Run R I σ n α} (h : Effect (Asked K) m) : Effect (Steady K) m :=
  Freeing.toSteady (Asked.toFreeing h)

theorem Freeing.toQuiet {m : Run R I σ n α} (h : Effect (Freeing K) m) : Effect (Quiet K) m :=
  Steady.toQuiet (Freeing.toSteady h)

theorem Asked.toQuiet {m : Run R I σ n α} (h : Effect (Asked K) m) : Effect (Quiet K) m :=
  Steady.toQuiet (Asked.toSteady h)

theorem Asked.toMarking {m : Run R I σ n α} (h : Effect (Asked K) m) : Effect (Marking K) m :=
  Quiet.toMarking (Asked.toQuiet h)

theorem Asked.toCounting {m : Run R I σ n α} (h : Effect (Asked K) m) : Effect (Counting K) m :=
  Marking.toCounting (Asked.toMarking h)

/-! ## Callbacks -/

theorem ask_ok [Platform R] {g : σ → Gen (α × σ)} {s : RunState R I σ n} {a : α} {u : σ}
    {p : Prng R} (event : Event I n) (answer : α → Event I n)
    (hrun : (g s.user).run s.prng = .ok (a, u) p) : ask event answer g s =
      .ok a { s with prng := p, user := u, trace := answer a :: event :: s.trace } := by
  simp only [ask, record, runCallback, bind_apply, modify_apply, get_apply, zoom, hrun, pure_apply]

theorem ask_error [Platform R] {g : σ → Gen (α × σ)} {s : RunState R I σ n} {e : Stop}
    {p : Prng R} (event : Event I n) (answer : α → Event I n)
    (hrun : (g s.user).run s.prng = .error e p) :
    ask event answer g s = .error e { s with prng := p, trace := event :: s.trace } := by
  simp only [ask, record, runCallback, bind_apply, modify_apply, get_apply, zoom, hrun]

/-- What a callback leaves: its call and its answer are in the trace, unless its random bits
stopped it. -/
theorem ask_cases [Platform R] (event : Event I n) (answer : α → Event I n) (g : σ → Gen (α × σ))
    (s : RunState R I σ n) :
    (∃ a u p, (g s.user).run s.prng = .ok (a, u) p ∧ ask event answer g s =
      .ok a { s with prng := p, user := u, trace := answer a :: event :: s.trace }) ∨
    ∃ e p, (g s.user).run s.prng = .error e p ∧
      ask event answer g s = .error e { s with prng := p, trace := event :: s.trace } := by
  cases hrun : (g s.user).run s.prng with
  | ok res p => exact .inl ⟨res.1, res.2, p, rfl, ask_ok event answer hrun⟩
  | error e p => exact .inr ⟨e, p, rfl, ask_error event answer hrun⟩

theorem allocBasic_ok [Platform R] {argI : Fin n} {alloc : σ → Gen (AllocRes × Option I × σ)}
    {s : RunState R I σ n} {a : AllocRes × Option I} {u : σ} {p : Prng R}
    (hrun : (alloc s.user).apart.run s.prng = .ok (a, u) p) : allocBasic argI alloc s =
      .ok a { s with prng := p, user := u, trace := .allocated a.1 a.2 :: .alloc argI :: s.trace } :=
  ask_ok (.alloc argI) _ hrun

theorem allocBasic_error [Platform R] {argI : Fin n} {alloc : σ → Gen (AllocRes × Option I × σ)}
    {s : RunState R I σ n} {e : Stop} {p : Prng R}
    (hrun : (alloc s.user).apart.run s.prng = .error e p) :
    allocBasic argI alloc s = .error e { s with prng := p, trace := .alloc argI :: s.trace } :=
  ask_error (.alloc argI) _ hrun

theorem allocBasic_cases [Platform R] (argI : Fin n) (alloc : σ → Gen (AllocRes × Option I × σ))
    (s : RunState R I σ n) :
    (∃ a u p, (alloc s.user).apart.run s.prng = .ok (a, u) p ∧ allocBasic argI alloc s =
      .ok a { s with
        prng := p, user := u, trace := .allocated a.1 a.2 :: .alloc argI :: s.trace }) ∨
    ∃ e p, (alloc s.user).apart.run s.prng = .error e p ∧
      allocBasic argI alloc s = .error e { s with prng := p, trace := .alloc argI :: s.trace } :=
  ask_cases (.alloc argI) _ (fun u => (alloc u).apart) s

/-- The same for the `shrink` callback of a type. -/
theorem userCandidate_cases [Platform R] {r : Runner I σ n} {argI : Fin n}
    {shrink : Option I → Nat → σ → Gen (ShrinkRes × Option I × σ)}
    (hshrink : (r.typeInfo argI).shrink = some shrink) (current : Option I) (tactic : Nat)
    (s : RunState R I σ n) :
    (∃ a u p, (shrink current tactic s.user).apart.run s.prng = .ok (a, u) p ∧
      userCandidate r argI current tactic s = .ok (a.1, a.2, none) { s with
        prng := p, user := u, trace := .shrunk a.1 a.2 :: .shrink argI current tactic :: s.trace }) ∨
    ∃ e p, (shrink current tactic s.user).apart.run s.prng = .error e p ∧
      userCandidate r argI current tactic s =
        .error e { s with prng := p, trace := .shrink argI current tactic :: s.trace } := by
  unfold userCandidate
  rw [hshrink]
  obtain ⟨a, u, p, hg, hrun⟩ | ⟨e, p, hg, hrun⟩ := ask_cases (.shrink argI current tactic)
    (fun a : ShrinkRes × Option I => .shrunk a.1 a.2) (fun u => (shrink current tactic u).apart) s
  · exact .inl ⟨a, u, p, hg, bind_of_ok hrun⟩
  · exact .inr ⟨e, p, hg, bind_of_error hrun⟩

namespace Asked

theorem record {event : Event I n} (h : event.kind ∈ K) :
    Effect (Asked K) (record event : Run R I σ n Unit) :=
  Effect.modify fun _ => ⟨rfl, rfl, rfl, rfl, .of_cons h rfl⟩

/-- A step on the random bits. -/
theorem onPrng (m : EStateM Stop (Prng R) α) :
    Effect (Asked K) (zoom RunState.prng (fun p s => { s with prng := p }) m : Run R I σ n α) :=
  Effect.zoom fun _ => ⟨rfl, rfl, rfl, rfl, .of_eq rfl⟩

variable [Platform R]

theorem runCallback (g : σ → Gen (α × σ)) :
    Effect (Asked K) (runCallback g : Run R I σ n α) := by
  apply Effect.bind Effect.get
  intro s
  apply Effect.bind (onPrng _)
  intro a
  apply Effect.bind (Effect.modify fun s => ⟨rfl, rfl, rfl, rfl, .of_eq rfl⟩)
  intro _
  exact Effect.pure _

theorem ask {event : Event I n} {answer : α → Event I n} (hevent : event.kind ∈ K)
    (hanswer : ∀ a, (answer a).kind ∈ K) (g : σ → Gen (α × σ)) :
    Effect (Asked K) (ask event answer g : Run R I σ n α) := by
  apply Effect.bind (record hevent)
  intro _
  apply Effect.bind (runCallback g)
  intro a
  apply Effect.bind (record (hanswer a))
  intro _
  exact Effect.pure a

theorem askHook {Info Res : Type} {event : Event I n} {answer : Res → Event I n}
    (hevent : event.kind ∈ K) (hanswer : ∀ a, (answer a).kind ∈ K)
    (hook : Option (Info → σ → Res × σ)) (info : Info) (dflt : Res) :
    Effect (Asked K) (askHook hook info dflt event answer : Run R I σ n Res) := by
  cases hook with
  | none => exact Effect.pure dflt
  | some hook => exact ask hevent hanswer _

theorem freeWith (hK : .free ∈ K) (info : TypeInfo I σ) (argI : Fin n) (inst : Option I) :
    Effect (Asked K) (freeWith info argI inst : Run R I σ n Unit) := by
  unfold Theft.freeWith
  split
  · exact Effect.pure ()
  · apply Effect.bind (record hK)
    intro _
    exact runCallback _

theorem freeInst (hK : .free ∈ K) (r : Runner I σ n) (argI : Fin n) (inst : Option I) :
    Effect (Asked K) (freeInst r argI inst : Run R I σ n Unit) := freeWith hK _ _ _

theorem hashArg (hK : .hash ∈ K) (r : Runner I σ n) (argI : Fin n) :
    Effect (Asked K) (hashArg r argI : Run R I σ n Word) := by
  apply Effect.bind Effect.get
  intro s
  dsimp only
  split
  · apply Effect.bind (record hK)
    intro _
    exact runCallback _
  · split
    · exact Effect.attempt _
    · exact Effect.throw _

theorem getArgHashBuffer (hK : .hash ∈ K) (r : Runner I σ n) (is : List (Fin n)) :
    Effect (Asked K) (getArgHashBuffer r is : Run R I σ n (List Word)) := by
  induction is with
  | nil => exact Effect.pure []
  | cons i is ih =>
    apply Effect.bind (hashArg hK r i)
    intro w
    apply Effect.bind ih
    intro ws
    exact Effect.pure _

theorem callCheckCalled (hK : .hash ∈ K) (r : Runner I σ n) :
    Effect (Asked K) (callCheckCalled r : Run R I σ n Bool) := by
  apply Effect.bind (getArgHashBuffer hK r _)
  intro buffer
  apply Effect.bind Effect.get
  intro s
  split
  · exact Effect.throw _
  · exact Effect.attempt _

theorem call (hK : .call ∈ K) (r : Runner I σ n) (args : Args I n) (rerun : Bool) :
    Effect (Asked K) (call r args rerun : Run R I σ n TrialRes) := by
  apply Effect.bind Effect.get
  intro s
  exact ask hK (fun _ => hK) _

/-! ### Hooks -/

theorem shrinkPreHook (hK : .shrinkPre ∈ K) (r : Runner I σ n) (argI : Fin n) (arg : Option I)
    (tactic : Nat) : Effect (Asked K) (shrinkPreHook r argI arg tactic : Run R I σ n _) := by
  apply Effect.bind Effect.get
  intro s
  exact askHook hK (fun _ => hK) _ _ _

theorem shrinkPostHook (hK : .shrinkPost ∈ K) (r : Runner I σ n) (argI : Fin n) (arg : Option I)
    (tactic : Nat) (sres : ShrinkRes) :
    Effect (Asked K) (shrinkPostHook r argI arg tactic sres : Run R I σ n _) := by
  unfold Theft.shrinkPostHook
  split
  · exact Effect.pure _
  · split
    · exact Effect.throw _
    · apply Effect.bind Effect.get
      intro s
      exact askHook hK (fun _ => hK) _ _ _

theorem shrinkTrialPostHook (hK : .shrinkTrialPost ∈ K) (r : Runner I σ n) (argI : Fin n)
    (args : Args I n) (tactic : Nat) (res : TrialRes) :
    Effect (Asked K) (shrinkTrialPostHook r argI args tactic res : Run R I σ n _) := by
  apply Effect.bind Effect.get
  intro s
  exact askHook hK (fun _ => hK) _ _ _

theorem trialPostHook (hK : .trialPost ∈ K) (r : Runner I σ n) (info : TrialPostInfo I n) :
    Effect (Asked K) (trialPostHook r info : Run R I σ n _) := by
  unfold Theft.trialPostHook
  split
  · exact Effect.pure _
  · exact ask hK (fun _ => hK) _

theorem printInst (hK : .print ∈ K) (info : TypeInfo I σ) (argI : Fin n) (inst : Option I) :
    Effect (Asked K) (printInst info argI inst : Run R I σ n Unit) := by
  unfold Theft.printInst
  split
  · exact Effect.pure ()
  · apply Effect.bind (record hK)
    intro _
    exact runCallback _

theorem printArgs (hK : .print ∈ K) (r : Runner I σ n) (args : Args I n) (is : List (Fin n)) :
    Effect (Asked K) (printArgs r args is : Run R I σ n Unit) := by
  induction is with
  | nil => exact Effect.pure ()
  | cons i is ih =>
    apply Effect.bind (printInst hK _ i _)
    intro _
    exact ih

theorem counterexampleHook (hK : [.print, .counterexample] ⊆ K) (r : Runner I σ n)
    (info : CounterexampleInfo I n) :
    Effect (Asked K) (counterexampleHook r info : Run R I σ n _) := by
  unfold Theft.counterexampleHook
  split
  · apply Effect.bind (printArgs (hK (by decide)) r _ _)
    intro _
    exact Effect.pure _
  · have hcex : EventKind.counterexample ∈ K := hK (by decide)
    exact ask hcex (fun _ => hcex) _

theorem genArgsPreHook (hK : .genArgsPre ∈ K) (r : Runner I σ n) :
    Effect (Asked K) (genArgsPreHook r : Run R I σ n _) := by
  apply Effect.bind Effect.get
  intro s
  exact askHook hK (fun _ => hK) _ _ _

theorem trialPreHook (hK : .trialPre ∈ K) (r : Runner I σ n) (trial : Nat) (seed : Word) :
    Effect (Asked K) (trialPreHook r trial seed : Run R I σ n _) := by
  apply Effect.bind Effect.get
  intro s
  exact askHook hK (fun _ => hK) _ _ _

theorem runPreHook (hK : .runPre ∈ K) (r : Runner I σ n) :
    Effect (Asked K) (runPreHook r : Run R I σ n _) :=
  askHook hK (fun _ => hK) _ _ _

theorem runPostHook (hK : .runPost ∈ K) (r : Runner I σ n) :
    Effect (Asked K) (runPostHook r : Run R I σ n _) := by
  apply Effect.bind Effect.get
  intro s
  exact askHook hK (fun _ => hK) _ _ _

theorem nextSeed (res : RunStepRes) (seed : Word) :
    Effect (Asked K) (nextSeed res seed : Run R I σ n Word) := by
  unfold Theft.nextSeed
  split
  · exact onPrng _
  · exact Effect.pure seed

end Asked

/-! ## Freeing -/

namespace Freeing

theorem freePool (pool : BitPool) : Effect (Freeing K) (freePool pool : Run R I σ n Unit) := by
  constructor
  intro s
  simp only [final, Theft.freePool, bind_apply, get_apply, attempt]
  cases freeBitPool s.prng pool s.ledger <;> exact ⟨rfl, rfl, rfl, .of_eq rfl⟩

theorem freePoolPtr (pool : Option BitPool) :
    Effect (Freeing K) (freePoolPtr pool : Run R I σ n Unit) := by
  cases pool with
  | none => exact Effect.throw _
  | some pool => exact freePool pool

theorem freePoolIf (pool : Option BitPool) :
    Effect (Freeing K) (freePoolIf pool : Run R I σ n Unit) := by
  cases pool with
  | none => exact Effect.pure _
  | some pool => exact freePool pool

theorem freeEnvIf (env : Option AutoshrinkEnv) :
    Effect (Freeing K) (freeEnvIf env : Run R I σ n Unit) := by
  cases env with
  | none => exact Effect.pure _
  | some env =>
    apply Effect.bind (freePoolIf _)
    intro _
    exact Effect.modify fun _ => ⟨rfl, rfl, rfl, .of_eq rfl⟩

variable [Platform R]

theorem freeArg (hK : .free ∈ K) (r : Runner I σ n) (argI : Fin n) :
    Effect (Freeing K) (freeArg r argI : Run R I σ n Unit) := by
  apply Effect.bind Effect.get
  intro s
  apply Effect.bind (freeEnvIf _)
  intro _
  split
  · exact Asked.toFreeing (Asked.freeInst hK r argI _)
  · exact Effect.pure _

theorem freeArgs (hK : .free ∈ K) (r : Runner I σ n) (is : List (Fin n)) :
    Effect (Freeing K) (freeArgs r is : Run R I σ n Unit) := by
  induction is with
  | nil => exact Effect.pure _
  | cons i is ih =>
    apply Effect.bind (freeArg hK r i)
    intro _
    exact ih

end Freeing

/-! ## Candidates and counters -/

/-- New environments make a change, when each of them does. -/
theorem initArgInfo_effect {Rel : RunState R I σ n → RunState R I σ n → Prop}
    [IsPreorder (RunState R I σ n) Rel] {r : Runner I σ n} (hequip : ∀ s i, Rel s (s.equip r i))
    (is : List (Fin n)) : Effect Rel (initArgInfo r is : Run R I σ n Bool) := by
  induction is with
  | nil => exact Effect.pure _
  | cons i is ih =>
    unfold initArgInfo
    split
    · apply Effect.bind Effect.get
      intro s
      split
      · apply Effect.bind (Effect.modify fun s => hequip s i)
        intro _
        exact ih
      · exact Effect.pure _
    · exact ih

theorem Steady.ifAutoshrink {Rel : RunState R I σ n → RunState R I σ n → Prop}
    [IsPreorder (RunState R I σ n) Rel] (r : Runner I σ n) (argI : Fin n) {m : Run R I σ n Unit}
    (hm : Effect Rel m) : Effect Rel (ifAutoshrink r argI m) := by
  unfold Theft.ifAutoshrink
  split
  · exact hm
  · exact Effect.pure _

namespace Steady

/-- A change outside of filter, counters, trial and trace. -/
theorem modify {f : RunState R I σ n → RunState R I σ n} (hbloom : ∀ s, (f s).bloom = s.bloom)
    (hcounters : ∀ s, (f s).counters = s.counters) (htrial : ∀ s, (f s).trial = s.trial)
    (htrace : ∀ s, (f s).trace = s.trace) : Effect (Steady K) (modify f : Run R I σ n PUnit) :=
  Effect.modify fun s => ⟨hbloom s, ⟨hcounters s, by rw [htrial], by rw [htrial]⟩,
    fun i => by rw [htrial], .of_eq (htrace s)⟩

theorem modifyTrial {f : TrialInfo I n → TrialInfo I n} (htrial : ∀ t, (f t).trial = t.trial)
    (hseed : ∀ t, (f t).seed = t.seed) (hargs : ∀ t, (f t).args = t.args) :
    Effect (Steady K) (modifyTrial f : Run R I σ n Unit) :=
  Effect.modify fun s => ⟨rfl, ⟨rfl, htrial s.trial, hseed s.trial⟩,
    fun i => by rw [show (f s.trial).args = s.trial.args from hargs s.trial], .of_eq rfl⟩

/-- One argument is changed, but not its core. -/
theorem modifyArg {f : ArgInfo I → ArgInfo I} (hf : ∀ a, (f a).core = a.core) (argI : Fin n) :
    Effect (Steady K) (Theft.modifyTrial fun t => t.modifyArg argI f : Run R I σ n Unit) := by
  apply Effect.modify
  intro s
  refine ⟨rfl, ⟨rfl, rfl, rfl⟩, fun i => ?_, .of_eq rfl⟩
  dsimp only [TrialInfo.modifyArg, update]
  split
  · rename_i hi
    rw [hi]
    exact hf _
  · rfl

theorem autoshrinkUpdateModel (r : Runner I σ n) (argI : Fin n) (res : TrialRes)
    (adjustment : Byte) :
    Effect (Steady K) (autoshrinkUpdateModel r argI res adjustment : Run R I σ n Unit) := by
  apply ifAutoshrink
  apply modifyArg
  intro a
  unfold ArgInfo.core
  cases a.env <;> rfl

theorem countShrink (r : Runner I σ n) (argI : Fin n) (res : TrialRes) (repeated : Bool) :
    Effect (Steady K) (countShrink r argI res repeated : Run R I σ n Unit) := by
  unfold Theft.countShrink
  split
  · exact Effect.pure _
  · split
    · refine Effect.bind (modifyTrial (fun _ => rfl) (fun _ => rfl) fun _ => rfl) fun _ => ?_
      exact autoshrinkUpdateModel r argI res 3
    · exact modifyTrial (fun _ => rfl) (fun _ => rfl) fun _ => rfl

variable [Platform R]

theorem autoshrinkCandidate (hK : .alloc ∈ K) (fuel : Nat) (r : Runner I σ n) (argI : Fin n)
    (tactic : Nat) : Effect (Steady K) (autoshrinkCandidate fuel r argI tactic : Run R I σ n _) := by
  constructor
  intro s
  unfold Theft.autoshrinkCandidate
  rw [final_get_bind]
  cases henv : (s.trial.args argI).env with
  | none => exact Std.Refl.refl s
  | some env =>
    have step : Steady K s (final (zoomEnv argI env
        (autoshrinkShrink fuel ((r.typeInfo argI).alloc s.user) tactic)) s) := by
      rw [zoomEnv, final_zoom]
      refine ⟨rfl, ⟨rfl, rfl, rfl⟩, fun i => ?_, .of_eq rfl⟩
      dsimp only [TrialInfo.modifyArg, update]
      split
      · rename_i hi
        subst hi
        have hcore := (CoreOnly.autoshrinkShrink fuel ((r.typeInfo i).alloc s.user) tactic).change
          ⟨s.prng, s.ledger, (s.trial.args i).env.getD env⟩
        unfold CoreOnly at hcore
        simp only [ArgInfo.core, henv, Option.map_some, Option.getD_some] at hcore ⊢
        rw [hcore]
      · rfl
    refine Effect.bind_at step fun a => ?_
    obtain ⟨sres, res, pool⟩ := a
    cases res with
    | none => exact Effect.pure _
    | some res =>
      obtain ⟨inst, user⟩ := res
      apply Effect.bind (Asked.toSteady (Asked.record hK))
      intro _
      apply Effect.bind (Asked.toSteady (Asked.record hK))
      intro _
      refine Effect.bind (Steady.modify (fun _ => rfl) (fun _ => rfl) (fun _ => rfl)
        fun _ => rfl) fun _ => ?_
      exact Effect.pure _

theorem userCandidate (hK : .shrink ∈ K) (r : Runner I σ n) (argI : Fin n) (current : Option I)
    (tactic : Nat) :
    Effect (Steady K) (userCandidate r argI current tactic : Run R I σ n _) := by
  unfold Theft.userCandidate
  split
  · exact Effect.throw _
  · apply Effect.bind (Asked.toSteady (Asked.ask hK (fun _ => hK) _))
    intro a
    exact Effect.pure _

/-- Whatever offers the candidate. -/
theorem candidate (hK : [.alloc, .shrink] ⊆ K) (fuel : Nat) (r : Runner I σ n) (argI : Fin n)
    (current : Option I) (tactic : Nat) : Effect (Steady K)
      (if (r.typeInfo argI).autoshrinkConfig.enable then
        Theft.autoshrinkCandidate fuel r argI tactic
      else Theft.userCandidate r argI current tactic : Run R I σ n _) := by
  split
  · exact autoshrinkCandidate (hK (by decide)) fuel r argI tactic
  · exact userCandidate (hK (by decide)) r argI current tactic

end Steady

/-! ## Arguments -/

namespace Quiet

/-- A change outside of filter, counters, trial and trace. -/
theorem modify {f : RunState R I σ n → RunState R I σ n} (hbloom : ∀ s, (f s).bloom = s.bloom)
    (hsame : ∀ s, SameTrial s (f s)) (htrace : ∀ s, (f s).trace = s.trace) :
    Effect (Quiet K) (modify f : Run R I σ n PUnit) :=
  Effect.modify fun s => ⟨hbloom s, hsame s, .of_eq (htrace s)⟩

theorem modifyArg (argI : Fin n) (f : ArgInfo I → ArgInfo I) :
    Effect (Quiet K) (modifyTrial fun t => t.modifyArg argI f : Run R I σ n Unit) :=
  Quiet.modify (fun _ => rfl) (fun _ => ⟨rfl, rfl, rfl⟩) fun _ => rfl

theorem setInst (argI : Fin n) (inst : Option I) :
    Effect (Quiet K) (setInst argI inst : Run R I σ n Unit) := modifyArg _ _

theorem setPool (argI : Fin n) (pool : Option BitPool) :
    Effect (Quiet K) (setPool argI pool : Run R I σ n Unit) := modifyArg _ _

theorem revertPool (r : Runner I σ n) (argI : Fin n) (current candidate : Option BitPool) :
    Effect (Quiet K) (revertPool r argI current candidate : Run R I σ n Unit) := by
  apply Steady.ifAutoshrink
  apply Effect.bind (setPool _ _)
  intro _
  exact Freeing.toQuiet (Freeing.freePoolPtr _)

theorem initArgInfo (r : Runner I σ n) (is : List (Fin n)) :
    Effect (Quiet K) (initArgInfo r is : Run R I σ n Bool) :=
  initArgInfo_effect (fun _ _ => ⟨rfl, ⟨rfl, rfl, rfl⟩, .of_eq rfl⟩) is

variable [Platform R]

theorem allocAutoshrink (hK : .alloc ∈ K) (r : Runner I σ n) (argI : Fin n) :
    Effect (Quiet K) (allocAutoshrink r argI : Run R I σ n _) := by
  apply Effect.bind Effect.get
  intro s
  dsimp only
  split
  · exact Effect.throw _
  · rename_i env _
    have step : Effect (Quiet K) (zoomEnv argI env
        (autoshrinkAlloc ((r.typeInfo argI).alloc s.user)) : Run R I σ n _) := by
      apply Effect.zoom
      intro s
      exact ⟨rfl, ⟨rfl, rfl, rfl⟩, .of_eq rfl⟩
    apply Effect.bind step
    intro a
    obtain ⟨ares, res⟩ := a
    cases res with
    | none => exact Effect.pure _
    | some res =>
      apply Effect.bind (Asked.toQuiet (Asked.record hK))
      intro _
      apply Effect.bind (Asked.toQuiet (Asked.record hK))
      intro _
      refine Effect.bind (Quiet.modify (fun _ => rfl) (fun _ => ⟨rfl, rfl, rfl⟩)
        fun _ => rfl) fun _ => ?_
      exact Effect.pure _

theorem genArg (hK : .alloc ∈ K) (r : Runner I σ n) (argI : Fin n) :
    Effect (Quiet K) (genArg r argI : Run R I σ n _) := by
  unfold Theft.genArg
  split
  · exact allocAutoshrink hK r argI
  · exact Asked.toQuiet (Asked.ask hK (fun _ => hK) _)

theorem genAllArgs (hK : [.alloc, .hash] ⊆ K) (r : Runner I σ n) (is : List (Fin n)) :
    Effect (Quiet K) (genAllArgs r is : Run R I σ n _) := by
  induction is with
  | nil =>
    apply Effect.bind Effect.get
    intro s
    split
    · apply Effect.bind (Asked.toQuiet (Asked.callCheckCalled (hK (by decide)) r))
      intro found
      split <;> exact Effect.pure _
    · exact Effect.pure _
  | cons i is ih =>
    apply Effect.bind (genArg (hK (by decide)) r i)
    intro a
    obtain ⟨ares, inst⟩ := a
    cases ares with
    | skip => exact Effect.pure _
    | error => exact Effect.pure _
    | ok =>
      apply Effect.bind (setInst i inst)
      intro _
      exact ih

theorem judgeCandidate (hK : .free ∈ K) (r : Runner I σ n) (argI : Fin n)
    (current candidate : Option I) (currentPool candidatePool : Option BitPool) (res : TrialRes) :
    Effect (Quiet K) (judgeCandidate r argI current candidate currentPool candidatePool res :
      Run R I σ n _) := by
  have hfree : ∀ inst, Effect (Quiet K) (freeInst r argI inst : Run R I σ n Unit) :=
    fun inst => Asked.toQuiet (Asked.freeInst hK r argI inst)
  have hpool : Effect (Quiet K)
      (ifAutoshrink r argI (Theft.freePoolPtr currentPool) : Run R I σ n Unit) :=
    Steady.ifAutoshrink r argI (Freeing.toQuiet (Freeing.freePoolPtr currentPool))
  have back : Effect (Quiet K) (do
      Theft.setInst argI current
      Theft.revertPool r argI currentPool candidatePool
      freeInst r argI candidate
      return none : Run R I σ n (Option AttemptRes)) := by
    apply Effect.bind (setInst argI current)
    intro _
    apply Effect.bind (revertPool r argI currentPool candidatePool)
    intro _
    apply Effect.bind (hfree _)
    intro _
    exact Effect.pure _
  have lost : Effect (Quiet K) (do
      freeInst r argI current
      ifAutoshrink r argI (Theft.freePoolPtr currentPool)
      return some .error : Run R I σ n (Option AttemptRes)) := by
    apply Effect.bind (hfree _)
    intro _
    apply Effect.bind hpool
    intro _
    exact Effect.pure _
  apply Effect.bind (Steady.toQuiet (Steady.autoshrinkUpdateModel r argI res 8))
  intro _
  cases res with
  | pass => exact back
  | skip => exact back
  | fail =>
    apply Effect.bind hpool
    intro _
    apply Effect.bind (hfree _)
    intro _
    exact Effect.pure _
  | dup => exact lost
  | error => exact lost

end Quiet

end

end

end Theft
