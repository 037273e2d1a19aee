import Theft.Genuine
import Theft.Trials

/-!
# What the hooks around a trial are told

* `PreView`, `PostView`: what a hook is told agrees with the run;
* `runStep_views`: what `trial_post` is told in one step of the run;
* `hooks_view_iff`: which calls of the two hooks agree with the run.

`trial_post` is called when the trial has counted and its arguments are no longer exchanged, so
its view is compared with the state that the step leaves.
-/

namespace Theft

open PackedBits Exec

section
variable {R I σ : Type} {n : Nat} {α β : Type}

/-! ## Views that agree with the run -/

/-- What `trial_pre` is told is what the run is at. -/
structure PreView (r : Runner I σ n) (s : RunState R I σ n) (info : TrialPreInfo I n) : Prop where
  runSeed : info.runSeed = r.runSeed
  trialSeed : info.trialSeed = s.trial.seed
  failures : info.failures = s.counters.fail
  args : info.args = some s.trial.getArgs

/-- What `trial_post` is told is what the run is at. The arguments may be gone when the property
failed and shrinking did. -/
structure PostView (r : Runner I σ n) (s : RunState R I σ n) (new : List (Event I n))
    (info : TrialPostInfo I n) : Prop where
  runSeed : info.runSeed = r.runSeed
  trialSeed : info.trialSeed = s.trial.seed
  failures : info.failures = s.counters.fail
  args : info.args = s.trial.getArgs ∨
    .returned .fail ∈ new ∧ info.result = .error ∧ ∀ i, info.args i = none

/-- The property was called. -/
def Called (new : List (Event I n)) : Prop := ∃ e ∈ new, e.kind = .call

/-! ## Added events -/

/-- Every event since then is in `P`. -/
def Tells (P : Event I n → Prop) (s t : RunState R I σ n) : Prop :=
  ∃ new, t.trace = new ++ s.trace ∧ ∀ e ∈ new, P e

instance {P : Event I n → Prop} : IsPreorder (RunState R I σ n) (Tells P) where
  refl _ := ⟨[], rfl, nofun⟩
  trans s t u h₁ h₂ := by
    obtain ⟨new₁, ht, hnew₁⟩ := h₁
    obtain ⟨new₂, hu, hnew₂⟩ := h₂
    refine ⟨new₂ ++ new₁, by rw [hu, ht, List.append_assoc], ?_⟩
    intro e he
    exact (List.mem_append.mp he).elim (hnew₂ e) (hnew₁ e)

/-- Every call of `trial_post` was told something in `P`. -/
def PostTold (P : TrialPostInfo I n → Prop) (e : Event I n) : Prop :=
  ∀ info, e = .trialPost info → P info

/-- No call of `trial_pre` was told its arguments. -/
def NoPreArgs (e : Event I n) : Prop := ∀ info, e = .trialPre info → info.args = none

variable {P : Event I n → Prop} {K : List EventKind}

theorem Tells.of_adds {m : Run R I σ n α} (h : Effect (Adds K) m) (hK : ∀ e, e.kind ∈ K → P e) :
    Effect (Tells P) m := by
  refine h.mono fun s t hst => ?_
  obtain ⟨new, htrace, hnew⟩ := hst
  exact ⟨new, htrace, fun e he => hK e (hnew e he)⟩

theorem Tells.of_asked {m : Run R I σ n α} (h : Effect (Asked K) m) (hK : ∀ e, e.kind ∈ K → P e) :
    Effect (Tells P) m := Tells.of_adds (h.mono fun _ _ hst => hst.trace) hK

theorem Tells.of_counting {m : Run R I σ n α} (h : Effect (Counting K) m)
    (hK : ∀ e, e.kind ∈ K → P e) : Effect (Tells P) m :=
  Tells.of_adds (h.mono fun _ _ hst => hst.trace) hK

theorem Tells.record {event : Event I n} (hevent : P event) :
    Effect (Tells P) (record event : Run R I σ n Unit) := by
  apply Effect.modify
  intro s
  refine ⟨[event], rfl, fun e he => ?_⟩
  rw [List.mem_singleton.mp he]
  exact hevent

/-- Events of other kinds tell `trial_post` nothing. -/
theorem PostTold.of_kind {Q : TrialPostInfo I n → Prop} (hK : .trialPost ∉ K) (e : Event I n)
    (he : e.kind ∈ K) : PostTold Q e := by
  rintro info rfl
  exact absurd he hK

theorem NoPreArgs.of_kind (hK : .trialPre ∉ K) (e : Event I n) (he : e.kind ∈ K) :
    NoPreArgs e := by
  rintro info rfl
  exact absurd he hK

/-! ## One step of the run -/

/-- What one call of `trial_post` was told, in a trial with the given arguments: `f` trials had
failed before it and `c` have now, and `res` is what the property returned, if it was called. -/
structure Told (r : Runner I σ n) (seed : Word) (f : Nat) (res : Option TrialRes) (c : Nat)
    (args : Args I n) (info : TrialPostInfo I n) : Prop where
  runSeed : info.runSeed = if res.isSome then r.runSeed else seed
  trialSeed : info.trialSeed = seed
  failures : info.failures = if res.isSome then 0 else f
  fail : c = if res.isSome = true ∧ info.result = .fail then f + 1 else f
  args : info.args = args ∨
    res = some .fail ∧ info.result = .error ∧ ∀ i, info.args i = none

/-- What a trial added to the trace `base`. -/
structure Added (base : List (Event I n)) (res : Option TrialRes) (s : RunState R I σ n)
    (new : List (Event I n)) : Prop where
  trace : s.trace = new ++ base
  called : Called new ↔ res.isSome = true
  returned : ∀ tres ∈ res, .returned tres ∈ new

/-- A trial that has not called `trial_post` yet. -/
structure Untold (seed : Word) (base : List (Event I n)) (res : Option TrialRes) (c : Nat)
    (s : RunState R I σ n) : Prop where
  seed : s.trial.seed = seed
  fail : s.counters.fail = c
  added : ∃ new, Added base res s new ∧ ∀ info, .trialPost info ∉ new

/-- A trial with the calls of `trial_post` it has made. -/
structure Viewed (r : Runner I σ n) (seed : Word) (f : Nat) (base : List (Event I n))
    (s : RunState R I σ n) : Prop where
  trialSeed : s.trial.seed = seed
  added : ∃ new, s.trace = new ++ base ∧ ∀ info, .trialPost info ∈ new → ∃ res,
    Added base res s new ∧ Told r seed f res s.counters.fail s.trial.getArgs info

variable {r : Runner I σ n} {seed : Word} {base : List (Event I n)} {res : Option TrialRes}
variable {c f : Nat}

theorem Untold.viewed {s : RunState R I σ n} (h : Untold seed base res c s) :
    Viewed r seed f base s := by
  obtain ⟨new, hadded, hnone⟩ := h.added
  exact ⟨h.seed, new, hadded.trace, fun info hinfo => absurd hinfo (hnone info)⟩

theorem Added.adds {s t : RunState R I σ n} {new : List (Event I n)} (h : Added base res s new)
    (hst : Adds K s t) (hcall : .call ∈ K → res.isSome = true) :
    ∃ new', Added base res t (new' ++ new) ∧ t.trace = new' ++ s.trace ∧
      ∀ e ∈ new', e.kind ∈ K := by
  obtain ⟨new', htrace, hkinds⟩ := hst
  refine ⟨new', ⟨?_, ?_, fun tres hres => List.mem_append_right _ (h.returned tres hres)⟩, htrace,
    hkinds⟩
  · rw [htrace, h.trace, List.append_assoc]
  · constructor
    · rintro ⟨e, he, hkind⟩
      obtain he | he := List.mem_append.mp he
      · exact hcall (hkind ▸ hkinds e he)
      · exact h.called.mp ⟨e, he, hkind⟩
    · intro hsome
      obtain ⟨e, he, hkind⟩ := h.called.mpr hsome
      exact ⟨e, List.mem_append_right _ he, hkind⟩

theorem Untold.adds {s t : RunState R I σ n} (h : Untold seed base res c s)
    (hseed : t.trial.seed = s.trial.seed) (hcounters : t.counters = s.counters) (hst : Adds K s t)
    (hpost : .trialPost ∉ K) (hcall : .call ∈ K → res.isSome = true) :
    Untold seed base res c t := by
  obtain ⟨new, hadded, hnone⟩ := h.added
  obtain ⟨new', hadded', -, hkinds⟩ := hadded.adds hst hcall
  refine ⟨hseed.trans h.seed, by rw [hcounters, h.fail], new' ++ new, hadded', ?_⟩
  intro info hinfo
  obtain hinfo | hinfo := List.mem_append.mp hinfo
  · exact hpost (hkinds _ hinfo)
  · exact hnone info hinfo

theorem Viewed.adds {s t : RunState R I σ n} (h : Viewed r seed f base s) (hst : Freeing K s t)
    (hpost : .trialPost ∉ K) (hcall : .call ∉ K) : Viewed r seed f base t := by
  obtain ⟨new, hbase, htold⟩ := h.added
  obtain ⟨new', htrace, hkinds⟩ := hst.trace
  refine ⟨by rw [hst.trial, h.trialSeed], new' ++ new, ?_, ?_⟩
  · rw [htrace, hbase, List.append_assoc]
  · intro info hinfo
    obtain hinfo | hinfo := List.mem_append.mp hinfo
    · exact absurd (hkinds _ hinfo) hpost
    · obtain ⟨res, hadded, htold⟩ := htold info hinfo
      obtain ⟨new'', hadded', htrace', -⟩ := hadded.adds hst.trace fun hK => absurd hK hcall
      cases List.append_cancel_right (htrace'.symm.trans htrace)
      rw [hst.counters, hst.trial]
      exact ⟨res, hadded', htold⟩

/-- The calls of `trial_post` of a program that exchanges no argument and counts nothing. -/
theorem Untold.told {m : Run R I σ n α} (hm : Effect (Asked K) m)
    (hcall : .call ∈ K → res.isSome = true) {args : Args I n}
    (htells : Effect (Tells (PostTold (Told r seed f res c args))) m) :
    Spec (fun s => Untold seed base res c s ∧ s.trial.getArgs = args) m
      (fun _ => Viewed r seed f base) fun _ => Viewed r seed f base := by
  have step : ∀ s t : RunState R I σ n, Untold seed base res c s ∧ s.trial.getArgs = args →
      Asked K s t → Tells (PostTold (Told r seed f res c args)) s t → Viewed r seed f base t := by
    rintro s t ⟨hs, rfl⟩ hst ⟨told, htrace, htold⟩
    obtain ⟨new, hadded, hnone⟩ := hs.added
    obtain ⟨new', hadded', htrace', -⟩ := hadded.adds hst.trace hcall
    cases List.append_cancel_right (htrace.symm.trans htrace')
    refine ⟨by rw [hst.trial, hs.seed], told ++ new, hadded'.trace, ?_⟩
    intro info hinfo
    rw [hst.counters, hst.trial, hs.fail]
    obtain hinfo | hinfo := List.mem_append.mp hinfo
    · exact ⟨res, hadded', htold _ hinfo info rfl⟩
    · exact absurd hinfo (hnone info)
  intro s hs
  have hasked := hm.change s
  have htold := htells.change s
  unfold final at hasked htold
  cases hrun : m s with
  | ok a t =>
    rw [hrun] at hasked htold
    exact step s t hs hasked htold
  | error e t =>
    rw [hrun] at hasked htold
    exact step s t hs hasked htold

/-- A program before any call of `trial_post`. -/
theorem Untold.marking {m : Run R I σ n α} (hm : Effect (Marking K) m) (hpost : .trialPost ∉ K)
    (hcall : .call ∈ K → res.isSome = true) :
    Spec (Untold seed base res c) m (fun _ => Untold seed base res c)
      fun _ => Viewed r seed f base :=
  Spec.mono (hm.keeps fun _ _ hs hst => hs.adds hst.same.seed hst.same.counters hst.trace hpost
    hcall) (fun _ h => h) (fun _ _ h => h) fun _ _ h => h.viewed

/-- A change of the counters, with the number of failures it leaves. -/
theorem Untold.count {args : Args I n} {g : RunReport → RunReport} (d : Nat)
    (hg : ∀ c₀ : RunReport, (g c₀).fail = c₀.fail + d) :
    Spec (fun s => Untold seed base res c s ∧ s.trial.getArgs = args)
      (modifyCounters g : Run R I σ n Unit)
      (fun _ s => Untold seed base res (c + d) s ∧ s.trial.getArgs = args)
      fun _ => Viewed r seed f base :=
  Spec.modify fun s ⟨hs, hargs⟩ => by
    obtain ⟨new, hadded, hnone⟩ := hs.added
    have hfail : (g s.counters).fail = c + d := by rw [hg, hs.fail]
    exact ⟨⟨hs.seed, hfail, new, ⟨hadded.trace, hadded.called, hadded.returned⟩, hnone⟩, hargs⟩

/-! ### Its programs -/

variable [Platform R]

variable {Q : TrialPostInfo I n → Prop}

theorem Tells.trialPostHook {info : TrialPostInfo I n} (hinfo : Q info) :
    Effect (Tells (PostTold Q)) (trialPostHook r info : Run R I σ n _) := by
  unfold Theft.trialPostHook
  split
  · exact Effect.pure _
  · apply Effect.bind (Tells.record fun info' h => by cases h; exact hinfo)
    intro _
    apply Effect.bind (Tells.of_asked (Asked.runCallback (K := []) _) nofun)
    intro res
    apply Effect.bind (Tells.record nofun)
    intro _
    exact Effect.pure _

theorem Tells.repeatFailure {info : TrialPostInfo I n} (hinfo : Q { info with repeat_ := true })
    (fuel : Nat) (res : HookTrialPostRes) :
    Effect (Tells (PostTold Q)) (repeatFailure r info fuel res : Run R I σ n _) := by
  apply repeatFailure_induct (P := Effect (Tells (PostTold Q))) Effect.pure (Effect.throw _)
  · intro k _ ih
    apply Effect.bind _ ih
    exact Tells.of_asked (Asked.call (K := [.call]) List.mem_cons_self r _ _)
      (PostTold.of_kind (by decide))
  · intro k _ ih
    exact Effect.bind (Tells.trialPostHook hinfo) ih

theorem Tells.reportOnFailure {info : TrialPostInfo I n} (hinfo : Q info)
    (hagain : Q { info with repeat_ := true }) (fuel : Nat) :
    Effect (Tells (PostTold Q)) (reportOnFailure fuel r info : Run R I σ n _) := by
  apply Effect.bind Effect.get
  intro s
  apply Effect.bind (Tells.of_asked
    (Asked.counterexampleHook (K := [.print, .counterexample]) (fun _ h => h) r _)
    (PostTold.of_kind (by decide)))
  intro answer
  cases answer with
  | error => exact Effect.pure _
  | cont =>
    apply Effect.bind (Tells.trialPostHook hinfo)
    intro res
    exact Tells.repeatFailure hagain fuel res

/-- A call of `trial_post`, with what comes of its answer. -/
theorem Untold.post {args : Args I n} {info : TrialPostInfo I n}
    (hinfo : Told r seed f res c args info) (g : HookTrialPostRes → α) :
    Spec (fun s => Untold seed base res c s ∧ s.trial.getArgs = args)
      (do
        let tpres ← trialPostHook r info
        return g tpres : Run R I σ n α)
      (fun _ => Viewed r seed f base) fun _ => Viewed r seed f base := by
  have hm : Effect (Asked [.trialPost]) (do
      let tpres ← trialPostHook r info
      return g tpres : Run R I σ n α) := by
    apply Effect.bind (Asked.trialPostHook List.mem_cons_self r info)
    intro tpres
    exact Effect.pure _
  have htells : Effect (Tells (PostTold (Told r seed f res c args))) (do
      let tpres ← trialPostHook r info
      return g tpres : Run R I σ n α) := by
    apply Effect.bind (Tells.trialPostHook hinfo)
    intro tpres
    exact Effect.pure _
  exact Untold.told hm (fun h => absurd h (by decide)) htells

/-- What `theft_trial_run` tells after the first call. -/
theorem judgeTrial_viewed (fuel : Nat) {info : TrialPostInfo I n} {tres : TrialRes}
    {args : Args I n} (hrun : info.runSeed = r.runSeed) (hseed : info.trialSeed = seed)
    (hfailures : info.failures = 0) (htres : info.result = tres) (hargs : info.args = args) :
    Spec (fun s => Untold seed base (some tres) f s ∧ s.trial.getArgs = args)
      (judgeTrial fuel r info : Run R I σ n _) (fun _ => Viewed r seed f base)
      fun _ => Viewed r seed f base := by
  subst htres hargs
  have told : ∀ tres, info.result = tres → tres ≠ .fail →
      Told r seed f (some tres) f info.args info := by
    rintro tres rfl hne
    exact ⟨hrun, hseed, hfailures, by simp [hne], .inl rfl⟩
  unfold judgeTrial
  split
  · rename_i hres
    rw [hres]
    refine Spec.bind (Untold.count 0 fun _ => rfl) fun _ => ?_
    exact Untold.post (told _ hres (by decide)) _
  · rename_i hres
    rw [hres]
    intro s hs
    refine Spec.bind (Untold.marking (r := r) (f := f)
      (Marking.shrink (K := shrinkKinds) (fun _ h => h) fuel r) (by decide) fun _ => rfl)
      (fun shrunk => ?_) s hs.1
    intro s hs
    cases shrunk with
    | true =>
      refine Spec.bind (Untold.count 1 fun _ => rfl) (fun _ => ?_) s ⟨hs, rfl⟩
      rintro t ⟨ht, hargs⟩
      rw [bind_apply, get_apply]
      dsimp only
      have hm : Effect (Asked [.call, .trialPost, .print, .counterexample]) (do
          let tpres ← reportOnFailure fuel r { info with args := t.trial.getArgs, result := .fail }
          return (decide (tpres ≠ .error), tpres) : Run R I σ n _) := by
        apply Effect.bind (Asked.reportOnFailure (fun _ h => h) fuel r _)
        intro tpres
        exact Effect.pure _
      have htold : ∀ again, Told r seed f (some .fail) (f + 1) t.trial.getArgs
          { info with args := t.trial.getArgs, result := .fail, repeat_ := again } := by
        intro again
        exact ⟨hrun, hseed, hfailures, by simp, .inl rfl⟩
      have htells : Effect (Tells (PostTold (Told r seed f (some .fail) (f + 1) t.trial.getArgs))) (do
          let tpres ← reportOnFailure fuel r { info with args := t.trial.getArgs, result := .fail }
          return (decide (tpres ≠ .error), tpres) : Run R I σ n _) := by
        apply Effect.bind (Tells.reportOnFailure (htold _) (htold true) fuel)
        intro tpres
        exact Effect.pure _
      exact Untold.told hm (fun _ => rfl) htells t ⟨ht, rfl⟩
    | false =>
      have hlost : Told r seed f (some .fail) f s.trial.getArgs
          { info with result := .error, args := fun _ => none } :=
        ⟨hrun, hseed, hfailures, by simp, .inr ⟨rfl, rfl, fun _ => rfl⟩⟩
      exact Untold.post hlost _ s ⟨hs, rfl⟩
  · rename_i hres
    rw [hres]
    refine Spec.bind (Untold.count 0 fun _ => rfl) fun _ => ?_
    exact Untold.post (told _ hres (by decide)) _
  · rename_i hres
    rw [hres]
    exact Untold.post (told _ hres (by decide)) _
  · rename_i hres
    rw [hres]
    exact Untold.post (told _ hres (by decide)) _

/-- The first call of the property. -/
theorem Untold.call (args : Args I n) :
    Spec (fun s => Untold seed base none c s ∧ s.trial.getArgs = args)
      (Theft.call r args false : Run R I σ n _)
      (fun tres s => Untold seed base (some tres) c s ∧ s.trial.getArgs = args)
      fun _ => Viewed r seed f base := by
  rintro s ⟨hs, hargs⟩
  obtain ⟨new, hadded, hnone⟩ := hs.added
  rw [Theft.call, bind_apply, get_apply]
  dsimp only
  obtain ⟨tres, u, p, -, hask⟩ | ⟨e, p, -, hask⟩ :=
    ask_cases (.call args s.trial.args false) .returned (r.propFun args) s
  · rw [hask]
    refine ⟨⟨hs.seed, hs.fail, .returned tres :: .call args s.trial.args false :: new,
      ⟨?_, ?_, ?_⟩, ?_⟩, hargs⟩
    · rw [hadded.trace]
      rfl
    · exact ⟨fun _ => rfl, fun _ => ⟨_, List.mem_cons_self, rfl⟩⟩
    · rintro _ ⟨⟩
      exact List.mem_cons_self
    · intro info hinfo
      simp only [List.mem_cons, reduceCtorEq, false_or] at hinfo
      exact hnone info hinfo
  · rw [hask]
    refine ⟨hs.seed, .call args s.trial.args false :: new, ?_, fun info hinfo => ?_⟩
    · rw [hadded.trace]
      rfl
    · simp only [List.mem_cons, reduceCtorEq, false_or] at hinfo
      exact absurd hinfo (hnone info)

/-- A trial with generated arguments. -/
theorem trialRun_viewed (fuel : Nat) :
    Spec (Untold seed base none f) (trialRun fuel r : Run R I σ n _)
      (fun _ => Viewed r seed f base) fun _ => Viewed r seed f base := by
  have hrequire : Effect (Marking []) (require (0 < n) .assertion : Run R I σ n Unit) :=
    Effect.require
  apply Spec.bind (Untold.marking hrequire (by decide) (by decide))
  intro _
  apply Spec.bind (Untold.marking (Marking.markTrial (K := [.hash]) (by decide) r) (by decide)
    (by decide))
  intro _ s hs
  rw [bind_apply, get_apply]
  dsimp only
  refine Spec.bind (Untold.call s.trial.getArgs) (fun tres => ?_) s ⟨hs, rfl⟩
  have hseed := hs.seed
  subst hseed
  apply judgeTrial_viewed fuel <;> rfl

/-- The rest of a trial after its arguments were generated. -/
theorem runGenerated_viewed (fuel : Nat) (trial : Nat) (gres : AllGenRes) :
    Spec (Untold seed base none f) (runGenerated fuel r trial seed gres : Run R I σ n _)
      (fun _ => Viewed r seed f base) fun _ => Viewed r seed f base := by
  intro s hs
  rw [runGenerated, bind_apply, get_apply]
  dsimp only
  have told : ∀ res args, Told r seed f none f args
      { propName := r.name, totalTrials := r.trialCount, failures := s.counters.fail
        runSeed := seed, trialId := trial, trialSeed := seed, arity := n, args := args
        result := res, repeat_ := false } := by
    intro res args
    exact ⟨rfl, rfl, hs.fail, rfl, .inl rfl⟩
  have counted : ∀ res (g : RunReport → RunReport), (∀ c₀, (g c₀).fail = c₀.fail) →
      Spec (fun t => Untold seed base none f t ∧ t.trial.getArgs = s.trial.getArgs)
        (do
          modifyCounters g
          let pres ← trialPostHook r
            { propName := r.name, totalTrials := r.trialCount, failures := s.counters.fail
              runSeed := seed, trialId := trial, trialSeed := seed, arity := n
              args := s.trial.getArgs, result := res, repeat_ := false }
          return stepRes pres : Run R I σ n RunStepRes)
        (fun _ => Viewed r seed f base) fun _ => Viewed r seed f base := by
    intro res g hg
    apply Spec.bind (Untold.count 0 hg)
    intro _
    exact Untold.post (told _ _) _
  cases gres with
  | skip => exact counted .skip (fun c => { c with skip := c.skip + 1 }) (fun _ => rfl) s ⟨hs, rfl⟩
  | dup => exact counted .dup (fun c => { c with dup := c.dup + 1 }) (fun _ => rfl) s ⟨hs, rfl⟩
  | error => exact Untold.post (told _ _) _ s ⟨hs, rfl⟩
  | ok =>
    have hpre : Effect (Marking [.trialPre]) (trialPreHook r trial seed : Run R I σ n _) :=
      Asked.toMarking (Asked.trialPreHook List.mem_cons_self r trial seed)
    refine Spec.bind (Untold.marking hpre (by decide) (by decide)) (fun answer => ?_) s hs
    cases answer with
    | halt => exact Spec.pure fun _ h => h.viewed
    | error => exact Spec.pure fun _ h => h.viewed
    | cont =>
      apply Spec.bind (trialRun_viewed fuel)
      rintro ⟨more, pres⟩
      exact Spec.pure fun _ h => h

/-- What a step of the run tells `trial_post` from its hook on. -/
theorem stepFromHook_viewed (fuel : Nat) (trial : Nat) :
    Spec (Untold seed base none f) (stepFromHook fuel r trial seed : Run R I σ n _)
      (fun _ => Viewed r seed f base) fun _ => Viewed r seed f base := by
  apply Spec.bind (Untold.marking (K := [.genArgsPre])
    (Asked.toMarking (Asked.genArgsPreHook List.mem_cons_self r)) (by decide) (by decide))
  intro answer
  cases answer with
  | halt => exact Spec.pure fun _ h => h.viewed
  | error => exact Spec.pure fun _ h => h.viewed
  | cont =>
    have hseed : Effect (Marking []) (modify fun s => { s with
        prng := s.prng.setSeed seed } : Run R I σ n PUnit) :=
      Effect.modify fun _ => ⟨.of_eq rfl, ⟨rfl, rfl, rfl⟩, .of_eq rfl⟩
    apply Spec.bind (Untold.marking hseed (by decide) (by decide))
    intro _
    apply Spec.bind (Untold.marking (K := [.alloc, .hash])
      (Quiet.toMarking (Quiet.genAllArgs (fun _ h => h) r _))
      (by decide) (by decide))
    intro gres
    apply Spec.bind (runGenerated_viewed fuel trial gres)
    intro res
    have hkeep : ∀ {α : Type} {m : Run R I σ n α} {K : List EventKind}, Effect (Freeing K) m →
        .trialPost ∉ K → .call ∉ K →
        Spec (Viewed r seed f base) m
          (fun _ => Viewed r seed f base)
          fun _ => Viewed r seed f base :=
      fun hm hpost hcall => hm.keeps fun _ _ hs hst => hs.adds hst hpost hcall
    apply Spec.bind (hkeep (K := []) (Asked.toFreeing (Asked.nextSeed res _)) (by decide)
      (by decide))
    intro seed'
    apply Spec.bind (hkeep (K := [.free]) (Freeing.freeArgs List.mem_cons_self r _) (by decide)
      (by decide))
    intro _
    exact Spec.pure fun _ h => h
/-- **What one step of the run tells `trial_post`.** -/
theorem runStep_viewed (fuel : Nat) (trial : Nat) (seed : Word) (s : RunState R I σ n) :
    Viewed r (stepSeed r trial seed) s.counters.fail s.trace
      (final (runStep fuel r trial seed) s) := by
  have hspec : Spec (fun t => t = s) (runStep fuel r trial seed : Run R I σ n _)
      (fun _ => Viewed r (stepSeed r trial seed) s.counters.fail s.trace)
      fun _ => Viewed r (stepSeed r trial seed) s.counters.fail s.trace := by
    have hstart : Spec (fun t => t = s)
        (modifyTrial fun _ => .start trial (stepSeed r trial seed) : Run R I σ n Unit)
        (fun _ => Untold (stepSeed r trial seed) s.trace none s.counters.fail)
        fun _ => Viewed r (stepSeed r trial seed) s.counters.fail s.trace := by
      apply Spec.modify
      rintro _ rfl
      refine ⟨rfl, rfl, [], ⟨rfl, ⟨?_, nofun⟩, nofun⟩, nofun⟩
      rintro ⟨e, he, -⟩
      cases he
    apply Spec.bind hstart
    intro _
    apply Spec.bind (Untold.marking (K := []) (Quiet.toMarking (Quiet.initArgInfo r _)) (by decide)
      (by decide))
    intro equipped
    cases equipped with
    | false => exact Spec.pure fun _ h => h.viewed
    | true => exact stepFromHook_viewed fuel trial
  have h := hspec s rfl
  unfold final
  cases hrun : runStep fuel r trial seed s with
  | ok a t =>
    rw [hrun] at h
    exact h
  | error e t =>
    rw [hrun] at h
    exact h

/-! ## `trial_pre` -/

theorem Tells.trialPreHook (trial : Nat) (seed : Word) :
    Effect (Tells NoPreArgs) (trialPreHook r trial seed : Run R I σ n _) := by
  apply Effect.bind Effect.get
  intro s
  unfold askHook
  split
  · exact Effect.pure _
  · apply Effect.bind (Tells.record fun info h => by cases h; rfl)
    intro _
    apply Effect.bind (Tells.of_asked (Asked.runCallback (K := []) _) nofun)
    intro res
    apply Effect.bind (Tells.record nofun)
    intro _
    exact Effect.pure _

theorem runGenerated_pre (fuel : Nat) (trial : Nat) (seed : Word) (gres : AllGenRes) :
    Effect (Tells NoPreArgs) (runGenerated fuel r trial seed gres : Run R I σ n _) := by
  have hcount : ∀ g, Effect (Tells NoPreArgs) (modifyCounters g : Run R I σ n Unit) :=
    fun g => Tells.of_counting (Counting.modifyCounters (K := []) g) nofun
  have hpost : ∀ info, Effect (Tells NoPreArgs) (Theft.trialPostHook r info : Run R I σ n _) :=
    fun info => Tells.of_asked (Asked.trialPostHook (K := [.trialPost]) (by decide) r info)
      (NoPreArgs.of_kind (by decide))
  apply Effect.bind Effect.get
  intro s
  cases gres with
  | skip =>
    apply Effect.bind (hcount _)
    intro _
    apply Effect.bind (hpost _)
    intro pres
    exact Effect.pure _
  | dup =>
    apply Effect.bind (hcount _)
    intro _
    apply Effect.bind (hpost _)
    intro pres
    exact Effect.pure _
  | error =>
    apply Effect.bind (hpost _)
    intro pres
    exact Effect.pure _
  | ok =>
    apply Effect.bind (Tells.trialPreHook trial seed)
    intro answer
    cases answer with
    | halt => exact Effect.pure _
    | error => exact Effect.pure _
    | cont =>
      apply Effect.bind (Tells.of_counting (Counting.trialRun (fun _ h => h) fuel r)
        (NoPreArgs.of_kind (by decide)))
      intro res
      exact Effect.pure _

omit [Platform R] in
theorem Tells.of_quiet {α : Type} {m : Run R I σ n α} {K : List EventKind}
    (hm : Effect (Quiet K) m) (hK : .trialPre ∉ K) : Effect (Tells NoPreArgs) m :=
  Tells.of_adds (hm.mono fun _ _ hst => hst.trace) (NoPreArgs.of_kind hK)

omit [Platform R] in
theorem Tells.set (f : RunState R I σ n → RunState R I σ n) (hf : ∀ s, (f s).trace = s.trace) :
    Effect (Tells NoPreArgs) (modify f : Run R I σ n PUnit) :=
  Tells.of_adds (K := []) (Effect.modify fun s => .of_eq (hf s)) nofun

/-- From its hook on, `trial_pre` is told no arguments. -/
theorem stepFromHook_pre (fuel : Nat) (trial : Nat) (seed : Word) :
    Effect (Tells NoPreArgs) (stepFromHook fuel r trial seed : Run R I σ n _) := by
  apply Effect.bind (Tells.of_quiet (K := [.genArgsPre])
    (Asked.toQuiet (Asked.genArgsPreHook (by decide) r)) (by decide))
  intro answer
  cases answer with
  | halt => exact Effect.pure _
  | error => exact Effect.pure _
  | cont =>
    refine Effect.bind (Tells.set _ fun _ => rfl) fun _ => ?_
    apply Effect.bind (Tells.of_quiet (Quiet.genAllArgs (fun _ h => h) r _) (by decide))
    intro gres
    apply Effect.bind (runGenerated_pre fuel trial _ gres)
    intro res
    apply Effect.bind (Tells.of_quiet (K := []) (Asked.toQuiet (Asked.nextSeed res _)) (by decide))
    intro seed'
    apply Effect.bind (Tells.of_quiet (K := [.free])
      (Freeing.toQuiet (Freeing.freeArgs (by decide) r _)) (by decide))
    intro _
    exact Effect.pure _

/-- In a step of the run `trial_pre` is told no arguments. -/
theorem runStep_pre (fuel : Nat) (trial : Nat) (seed : Word) :
    Effect (Tells NoPreArgs) (runStep fuel r trial seed : Run R I σ n _) := by
  refine Effect.bind (Tells.set _ fun _ => rfl) fun _ => ?_
  apply Effect.bind (Tells.of_quiet (K := []) (Quiet.initArgInfo r _) (by decide))
  intro equipped
  cases equipped with
  | false => exact Effect.pure _
  | true => exact stepFromHook_pre fuel trial _

/-! ## Every call of the two hooks -/

/-- Where `trial_post` agrees with the run: in a trial whose property was called, when none has
failed yet; in any other, when its seed is that of the run. -/
def PostAgrees (r : Runner I σ n) (seed : Word) (f : Nat) (new : List (Event I n))
    (info : TrialPostInfo I n) : Prop :=
  (Called new → f = 0 ∧ info.result ≠ .fail) ∧ (¬ Called new → seed = r.runSeed)

omit [Platform R] in
theorem Viewed.view_iff {s : RunState R I σ n} (h : Viewed r seed f base s)
    {new : List (Event I n)} (hnew : s.trace = new ++ base) {info : TrialPostInfo I n}
    (hinfo : .trialPost info ∈ new) : PostView r s new info ↔ PostAgrees r seed f new info := by
  obtain ⟨new', htrace, htold⟩ := h.added
  cases List.append_cancel_right (htrace.symm.trans hnew)
  obtain ⟨res, hadded, htold⟩ := htold info hinfo
  have hargs : info.args = s.trial.getArgs ∨
      .returned .fail ∈ new ∧ info.result = .error ∧ ∀ i, info.args i = none := by
    obtain hargs | ⟨rfl, hresult, hnone⟩ := htold.args
    · exact .inl hargs
    · exact .inr ⟨hadded.returned .fail rfl, hresult, hnone⟩
  have hseed : info.trialSeed = s.trial.seed := htold.trialSeed.trans h.trialSeed.symm
  have hview : PostView r s new info ↔
      info.runSeed = r.runSeed ∧ info.failures = s.counters.fail :=
    ⟨fun h => ⟨h.runSeed, h.failures⟩, fun h => ⟨h.1, hseed, h.2, hargs⟩⟩
  rw [hview, htold.runSeed, htold.failures, htold.fail, PostAgrees, hadded.called]
  cases res with
  | none => simp
  | some tres =>
    by_cases hresult : info.result = .fail
    · simp [hresult]
    · simp [hresult, eq_comm]

/-- **What the hooks around a trial are told.** `trial_pre` is never told the arguments;
`trial_post` is told a consistent view of the run in the trials of `PostAgrees` and in no other. -/
theorem hooks_view_iff {memory : Memory} {cfg : Config I σ n} {user : σ}
    {s₀ : RunState R I σ n} (hinit : runInit memory cfg user = some (r, s₀)) (fuel : Nat) :
    (∀ info, .trialPre info ∈ (final (runTrials fuel r) s₀).trace → ∀ s : RunState R I σ n,
      ¬ PreView r s info) ∧
    ∀ info, .trialPost info ∈ (final (runTrials fuel r) s₀).trace →
      ∃ k seed s t new, TrialAt fuel r s₀ k seed s ∧ k < r.trialCount ∧
        t = final (runStep fuel r k seed) s ∧ t.trace = new ++ s.trace ∧ .trialPost info ∈ new ∧
        (PostView r t new info ↔ PostAgrees r (stepSeed r k seed) s.counters.fail new info) := by
  have hstart : s₀.trace = [] := (runInit_started hinit).trace
  constructor
  · intro info hinfo s hview
    obtain h | ⟨k, seed, s, new, -, -, htrace, hmem⟩ := runTrials_event hinfo nofun nofun
    · rw [hstart] at h
      cases h
    · obtain ⟨new', htrace', hnone⟩ := (runStep_pre (r := r) fuel k seed).change s
      cases List.append_cancel_right (htrace.symm.trans htrace')
      have hargs := hview.args
      rw [hnone _ hmem info rfl] at hargs
      cases hargs
  · intro info hinfo
    obtain h | ⟨k, seed, s, new, hs, hlt, htrace, hmem⟩ := runTrials_event hinfo nofun nofun
    · rw [hstart] at h
      cases h
    · exact ⟨k, seed, s, _, new, hs, hlt, rfl, htrace, hmem,
        (runStep_viewed fuel k seed s).view_iff htrace hmem⟩

end

/-! ## A failing trial -/

/-- Three random bits, of which every value is a counter-example, and hooks around the trial. -/
def noThreeBits : Config Word Unit 1 where
  name := none
  prop := some fun _ u => .ret (.fail, u)
  typeInfo _ := { threeBitsType with autoshrinkConfig := ⟨false, 0, ⟨false, false, false⟩, 0⟩ }
  trials := 1
  seed := 1
  alwaysSeeds := []
  hooks := { runPre := none, runPost := none, genArgsPre := none
             trialPre := some fun _ u => (.cont, u)
             trialPost := some fun _ u => .ret (.cont, u)
             counterexample := none, shrinkPre := none, shrinkPost := none
             shrinkTrialPost := none }

/-- A call of `trial_post` that is told of no failure. -/
def Event.toldNoFailure : Event Word 1 → Bool
  | .trialPost info => info.failures = 0
  | _ => false

/-- A call of `trial_pre` that is told no arguments. -/
def Event.toldNoArgs : Event Word 1 → Bool
  | .trialPre info => info.args.isNone
  | _ => false

theorem noThreeBits_run : ∃ r s₀ t,
    runInit ⟨false, granted, granted⟩ noThreeBits () = some (r, s₀) ∧
    runTrials 3 r s₀ = .ok .fail (t : RunState Nat Word Unit 1) ∧ t.counters.fail = 1 ∧
    t.trace.any Event.toldNoArgs = true ∧ t.trace.any Event.toldNoFailure = true := by
  have hrun : (runInit (R := Nat) ⟨false, granted, granted⟩ noThreeBits ()).any (fun a =>
      passes (fun res t => decide (res = .fail ∧ t.counters.fail = 1 ∧
        t.trace.any Event.toldNoArgs = true ∧ t.trace.any Event.toldNoFailure = true))
        (runTrials 3 a.1 a.2)) = true := by decide +kernel
  obtain ⟨⟨r, s₀⟩, hinit, hpass⟩ := (Option.any_eq_true _ _).mp hrun
  obtain ⟨res, t, hres, hpass⟩ := of_passes hpass
  obtain ⟨rfl, hfacts⟩ := of_decide_eq_true hpass
  exact ⟨r, s₀, t, hinit, hres, hfacts⟩

/-- `trial_pre` is called without arguments, and `trial_post` is told of no failure although one
was counted. -/
theorem hooks_view_differs : ∃ r s₀ t pre post,
    runInit ⟨false, granted, granted⟩ noThreeBits () = some (r, s₀) ∧
    runTrials 3 r s₀ = .ok .fail (t : RunState Nat Word Unit 1) ∧
    .trialPre pre ∈ t.trace ∧ (∀ s : RunState Nat Word Unit 1, ¬ PreView r s pre) ∧
    .trialPost post ∈ t.trace ∧ t.counters.fail = 1 ∧ post.failures = 0 := by
  obtain ⟨r, s₀, t, hinit, hrun, hfail, hpre, hpost⟩ := noThreeBits_run
  obtain ⟨e, he, hpre⟩ := List.any_eq_true.mp hpre
  obtain ⟨e', he', hpost⟩ := List.any_eq_true.mp hpost
  cases e with
  | trialPre pre =>
    cases e' with
    | trialPost post =>
      refine ⟨r, s₀, t, pre, post, hinit, hrun, he, ?_, he', hfail, of_decide_eq_true hpost⟩
      intro s hview
      have hnone : pre.args.isNone = true := hpre
      rw [hview.args] at hnone
      cases hnone
    | _ => cases hpost
  | _ => cases hpre

theorem hooks_view_iff_one : ∃ r s₀ post, ∃ k seed, ∃ s t : RunState Nat Word Unit 1, ∃ new,
    runInit ⟨false, granted, granted⟩ noThreeBits () = some (r, s₀) ∧ TrialAt 3 r s₀ k seed s ∧
    t = final (runStep 3 r k seed) s ∧ .trialPost post ∈ new ∧
    (PostView r t new post ↔ PostAgrees r (stepSeed r k seed) s.counters.fail new post) := by
  obtain ⟨r, s₀, t, hinit, hrun, -, -, hpost⟩ := noThreeBits_run
  obtain ⟨e, he, hpost⟩ := List.any_eq_true.mp hpost
  cases e with
  | trialPost post =>
    have hmem : .trialPost post ∈ (final (runTrials 3 r) s₀).trace := by
      rw [final, hrun]
      exact he
    obtain ⟨k, seed, s, t, new, hs, -, ht, -, hnew, hiff⟩ := (hooks_view_iff hinit 3).2 post hmem
    exact ⟨r, s₀, post, k, seed, s, t, new, hinit, hs, ht, hnew, hiff⟩
  | _ => cases hpost

end Theft
