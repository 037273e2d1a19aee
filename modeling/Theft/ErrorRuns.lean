import Theft.ErrorPaths

/-!
# Errors end the run

`errors_end_run`: in a run without a clash, an error is the last thing that any callback or hook
answers before `theft_run` returns `THEFT_RUN_ERROR`.
-/

namespace Theft

open PackedBits Exec

section
variable {R I σ : Type} {n : Nat} {α β : Type} [Platform R]
variable {r : Runner I σ n} {base : List (Event I n)} {called : Prop} {s t : RunState R I σ n}

/-! ## Reports -/

theorem repeatFailure_quits (info : TrialPostInfo I n) (fuel : Nat) :
    Quits (repeatFailure r info fuel .error : Run R I σ n _) fun res => res = .error := by
  cases fuel <;> exact Quits.pure rfl

theorem repeatFailure_heeds (info : TrialPostInfo I n) (fuel : Nat) (res : HookTrialPostRes) :
    Heeds r base (Calm base True) (repeatFailure r info fuel res : Run R I σ n _)
      (fun res => res = .error) fun _ => Calm base True := by
  apply repeatFailure_induct
    (P := fun x => Heeds r base (Calm base True) x (fun res => res = .error) fun _ => Calm base True)
  · exact fun _ => .pure fun _ hs => hs
  · exact .throw fun _ hs => hs.quiet
  · intro k hk ih
    apply Heeds.bind (Heeds.call info.args true) _ ih
    rintro _ rfl
    rw [hk]
    exact Quits.pure rfl
  · intro k hk ih
    apply Heeds.bind (Heeds.trialPostHook _) _ ih
    rintro _ rfl
    rw [hk]
    exact Quits.pure rfl

theorem reportOnFailure_heeds (fuel : Nat) (info : TrialPostInfo I n) :
    Heeds r base (Calm base True) (reportOnFailure fuel r info : Run R I σ n _)
      (fun res => res = .error) fun _ => Calm base True := by
  apply Heeds.getThen
  intro s
  apply Heeds.bind (Heeds.counterexampleHook _)
  · rintro _ rfl
    exact Quits.pure rfl
  · intro answer
    cases answer with
    | error => exact .pure fun _ hs => hs
    | cont =>
      apply Heeds.bind (Heeds.trialPostHook info)
      · rintro _ rfl
        exact repeatFailure_quits info fuel
      · intro res
        exact repeatFailure_heeds info fuel res

/-! ## The trial -/

omit [Platform R] in
theorem modifyCounters_heeds (f : RunReport → RunReport) :
    Heeds r base (Calm base called) (modifyCounters f : Run R I σ n Unit) (fun _ => False)
      fun _ => Calm base called := Heeds.change (fun _ => rfl) fun _ => rfl

/-- What the hook answers decides. -/
theorem answered_heeds (info : TrialPostInfo I n) :
    Heeds r base (Calm base called) (do
      let tpres ← trialPostHook r info
      return (decide (tpres ≠ .error), tpres) : Run R I σ n (Bool × HookTrialPostRes))
      (fun out => out.1 = false) fun _ => Calm base called := by
  apply Heeds.bind (Heeds.trialPostHook info)
  · rintro _ rfl
    exact Quits.pure rfl
  · intro tpres
    exact .pure fun _ hs => hs

theorem judgeTrial_heeds (hpost : r.PostSized) (fuel : Nat) (info : TrialPostInfo I n) :
    Heeds r base (Calm base True) (judgeTrial fuel r info : Run R I σ n _)
      (fun out => out.1 = false) fun _ => Calm base True := by
  unfold judgeTrial
  split
  · exact Heeds.andThen (modifyCounters_heeds _) fun _ => answered_heeds info
  · apply Heeds.bind (shrink_heeds fuel)
    · rintro _ rfl
      exact Quits.after (Quits.trialPostHook hpost _) fun _ _ => Quits.pure rfl
    · intro shrunk
      split
      · apply Heeds.andThen (modifyCounters_heeds _)
        intro _
        apply Heeds.getThen
        intro s
        apply Heeds.bind (reportOnFailure_heeds fuel _)
        · rintro _ rfl
          exact Quits.pure rfl
        · intro tpres
          exact .pure fun _ hs => hs
      · apply Heeds.bind (Heeds.trialPostHook _)
        · rintro _ rfl
          exact Quits.pure rfl
        · intro tpres
          exact .pure fun _ hs => hs
  · exact Heeds.andThen (modifyCounters_heeds _) fun _ => answered_heeds info
  · apply Heeds.bind (Heeds.trialPostHook _)
    · rintro _ rfl
      exact Quits.pure rfl
    · intro tpres
      exact .pure fun _ hs => hs
  · apply Heeds.bind (Heeds.trialPostHook _)
    · rintro _ rfl
      exact Quits.pure rfl
    · intro tpres
      exact .pure fun _ hs => hs

theorem judgeTrial_quits (hpost : r.PostSized) (fuel : Nat) {info : TrialPostInfo I n}
    (hresult : info.result = .error) :
    Quits (judgeTrial fuel r info : Run R I σ n _) fun out => out.1 = false := by
  unfold judgeTrial
  rw [hresult]
  exact Quits.after (Quits.trialPostHook hpost _) fun _ _ => Quits.pure rfl

theorem trialRun_heeds (hpost : r.PostSized) (fuel : Nat) :
    Heeds r base (Calm base called) (trialRun fuel r : Run R I σ n _) (fun out => out.1 = false)
      fun _ => Calm base True := by
  have hrequire : Heeds r base (Calm base called) (require (0 < n) .assertion : Run R I σ n Unit)
      (fun _ => False) fun _ => Calm base called := by
    unfold require
    split
    · exact .pure fun _ hs => hs
    · exact .throw fun _ hs => hs.quiet
  apply Heeds.andThen hrequire
  intro _
  apply Heeds.andThen Heeds.markTrial
  intro _
  apply Heeds.getThen
  intro s
  apply Heeds.bind (Heeds.call _ false)
  · rintro _ rfl
    exact judgeTrial_quits hpost fuel rfl
  · intro tres
    exact judgeTrial_heeds hpost fuel _

/-! ## Generation -/

theorem allocAutoshrink_heeds (argI : Fin n) :
    Heeds r base (Calm base called) (allocAutoshrink r argI : Run R I σ n _)
      (fun a => a.1 = .error) fun _ => Calm base called := by
  refine ⟨Effect.mono (Quiet.allocAutoshrink (K := [.alloc]) (by decide) r argI)
    fun _ _ h => h.trace.grows, fun s hs => ?_⟩
  unfold allocAutoshrink
  rw [bind_apply, get_apply]
  dsimp only
  cases henv : (s.trial.args argI).env with
  | none => exact .inr hs.quiet
  | some env =>
    dsimp only
    rw [bind_apply]
    simp only [zoomEnv, zoom]
    cases hrun : autoshrinkAlloc ((r.typeInfo argI).alloc s.user)
        ⟨s.prng, s.ledger, (s.trial.args argI).env.getD env⟩ with
    | error e t => exact .inr hs.quiet
    | ok a t =>
      obtain ⟨ares, res⟩ := a
      obtain ⟨rfl, rfl, rfl⟩ | ⟨b, pool, rfl, -, hpool, -⟩ := autoshrinkAlloc_ledger hrun
      · exact .inr (.inr ⟨hs.noPool, hs.trace, hs.quiet⟩)
      · obtain ⟨inst, user⟩ := b
        have halloc : Calm base called { s with
            prng := t.prng
            ledger := t.ledger
            trial := s.trial.modifyArg argI fun a => { a with env := some t.env }
            trace := .alloc argI :: s.trace } :=
          hs.cons (e := .alloc argI) rfl hpool rfl
        cases ares with
        | ok => exact .inr (.inr (halloc.cons rfl hpool rfl))
        | skip => exact .inr (.inr (halloc.cons rfl hpool rfl))
        | error => exact .inr (.inl ⟨hpool, rfl⟩)

theorem genArg_heeds (argI : Fin n) :
    Heeds r base (Calm base called) (genArg r argI : Run R I σ n _)
      (fun a => a.1 = .error) fun _ => Calm base called := by
  unfold genArg
  split
  · exact allocAutoshrink_heeds argI
  · apply Heeds.ask rfl
    rintro ⟨ares, inst⟩ ha
    cases ares <;> first | rfl | cases ha

theorem genAllArgs_heeds (is : List (Fin n)) :
    Heeds r base (Calm base called) (genAllArgs r is : Run R I σ n _) (fun res => res = .error)
      fun _ => Calm base called := by
  induction is with
  | nil =>
    apply Heeds.getThen
    intro s
    split
    · have hcheck : Heeds r base (Calm base called) (callCheckCalled r : Run R I σ n Bool)
          (fun _ => False) fun _ => Calm base called := by
        apply Heeds.quiet
        · exact .of_even fun s => Even.callCheckCalled (Nat.le_of_eq (Account.zero_ofArgs _))
        · exact Effect.mono (Asked.callCheckCalled (by decide) r) fun _ _ h => h.trace
      apply Heeds.andThen hcheck
      intro found
      split
      · exact .pure fun _ hs => hs
      · exact .pure fun _ hs => hs
    · exact .pure fun _ hs => hs
  | cons i is ih =>
    apply Heeds.bind (genArg_heeds i)
    · rintro ⟨_, inst⟩ rfl
      exact Quits.pure rfl
    · rintro ⟨ares, inst⟩
      cases ares with
      | ok => exact Heeds.andThen (Heeds.modifyTrial _) fun _ => ih
      | skip => exact .pure fun _ hs => hs
      | error => exact .pure fun _ hs => hs

/-! ## A step of the run -/

/-- The step ended in an error. -/
def RunStepRes.isError (res : RunStepRes) : Prop := res = .genError ∨ res = .trialError

theorem runGenerated_quits (hpost : r.PostSized) (fuel trial : Nat) (seed : Word) :
    Quits (runGenerated fuel r trial seed .error : Run R I σ n _) RunStepRes.isError := by
  apply Quits.getThen
  intro s
  exact Quits.after (Quits.trialPostHook hpost _) fun _ _ => Quits.pure (.inl rfl)

theorem runGenerated_heeds (hpost : r.PostSized) (fuel trial : Nat) (seed : Word)
    (gres : AllGenRes) :
    Heeds r base (Calm base called) (runGenerated fuel r trial seed gres : Run R I σ n _)
      RunStepRes.isError fun _ => Calm base called := by
  have posted : ∀ info, Heeds r base (Calm base called) (do
      let pres ← trialPostHook r info
      return stepRes pres : Run R I σ n RunStepRes) RunStepRes.isError
      fun _ => Calm base called := by
    intro info
    apply Heeds.bind (Heeds.trialPostHook info)
    · rintro _ rfl
      exact Quits.pure (.inr rfl)
    · intro pres
      exact .pure fun _ hs => hs
  apply Heeds.getThen
  intro s
  cases gres with
  | skip => exact Heeds.andThen (modifyCounters_heeds _) fun _ => posted _
  | dup => exact Heeds.andThen (modifyCounters_heeds _) fun _ => posted _
  | error =>
    apply Heeds.bind (Heeds.trialPostHook _)
    · rintro _ rfl
      exact Quits.pure (.inl rfl)
    · intro pres
      exact .pure fun _ hs => hs
  | ok =>
    apply Heeds.bind (Heeds.trialPreHook trial seed)
    · rintro _ rfl
      exact Quits.pure (.inr rfl)
    intro answer
    cases answer with
    | halt => exact .pure fun _ hs => hs
    | error => exact .pure fun _ hs => hs
    | cont =>
      apply Heeds.bind (trialRun_heeds hpost fuel)
      · rintro ⟨_, pres⟩ rfl
        exact Quits.pure (.inr rfl)
      · rintro ⟨more, pres⟩
        exact .pure fun _ hs => hs.forget

omit [Platform R] in
theorem initArgInfo_quits (is : List (Fin n)) :
    Quits (initArgInfo r is : Run R I σ n Bool) fun _ => True := by
  induction is with
  | nil => exact Quits.pure trivial
  | cons i is ih =>
    unfold initArgInfo
    split
    · apply Quits.getThen
      intro s
      split
      · exact Quits.after (Quits.modify fun _ => rfl) fun _ _ => ih
      · exact Quits.pure trivial
    · exact ih

theorem nextSeed_poolless (res : RunStepRes) (seed : Word) :
    Poolless (nextSeed res seed : Run R I σ n Word) :=
  .of_even fun _ => Even.nextSeed res seed

theorem stepFromHook_heeds (hpost : r.PostSized) (fuel trial : Nat) (seed : Word) :
    Heeds r base (Calm base called) (stepFromHook fuel r trial seed : Run R I σ n _)
      (fun out => out.1.isError) fun _ => Calm base called := by
  apply Heeds.bind Heeds.genArgsPreHook
  · rintro _ rfl
    exact Quits.pure (.inl rfl)
  intro answer
  cases answer with
  | halt => exact .pure fun _ hs => hs
  | error => exact .pure fun _ hs => hs
  | cont =>
    have hseed : Heeds r base (Calm base called)
        (modify fun s => { s with prng := s.prng.setSeed seed } :
          Run R I σ n Unit) (fun _ => False) fun _ => Calm base called :=
      ⟨Effect.modify fun _ => List.suffix_rfl, fun _ hs => .inr (.inr ⟨rfl, hs.trace, hs.quiet⟩)⟩
    -- after an error the seed stays, and the arguments are freed
    have finish : ∀ res, RunStepRes.isError res → Quits (do
        let seed ← nextSeed res seed
        freeArgs r (List.finRange n)
        return (res, seed) : Run R I σ n (RunStepRes × Word)) fun out => out.1.isError := by
      intro res hres
      have hsame : Quits (nextSeed res seed : Run R I σ n Word)
          fun _ => True := by
        obtain rfl | rfl := hres
        · exact Quits.pure trivial
        · exact Quits.pure trivial
      apply Quits.after hsame
      intro _ _
      apply Quits.after (Quits.freeArgs _)
      intro _ _
      exact Quits.pure hres
    apply Heeds.andThen hseed
    intro _
    apply Heeds.bind (genAllArgs_heeds _)
    · rintro _ rfl
      exact Quits.after (runGenerated_quits hpost fuel trial _) finish
    intro gres
    apply Heeds.bind (runGenerated_heeds hpost fuel trial _ gres)
    · exact finish
    intro res
    have hnext : Heeds r base (Calm base called)
        (nextSeed res seed : Run R I σ n Word) (fun _ => False)
        fun _ => Calm base called := by
      apply Heeds.quiet (nextSeed_poolless res _)
      exact Effect.mono (Asked.nextSeed res _) fun _ _ h => h.trace
    apply Heeds.andThen hnext
    intro seed'
    have hfree : Heeds r base (Calm base called)
        (freeArgs r (List.finRange n) : Run R I σ n Unit) (fun _ => False)
        fun _ => Calm base called := by
      apply Heeds.quiet (.of_quits (Quits.freeArgs _))
      exact Effect.mono (Freeing.freeArgs (by decide) r _) fun _ _ h => h.trace
    apply Heeds.andThen hfree
    intro _
    exact .pure fun _ hs => hs

/-- **One step of the run.** -/
theorem runStep_heeds (hpost : r.PostSized) (fuel trial : Nat) (seed : Word) :
    Heeds r base (Calm base called) (runStep fuel r trial seed : Run R I σ n _)
      (fun out => out.1.isError) fun _ => Calm base called := by
  apply Heeds.andThen (Heeds.modifyTrial _)
  intro _
  have hinit : Heeds r base (Calm base called)
      (initArgInfo r (List.finRange n) : Run R I σ n Bool) (fun _ => False)
      fun _ => Calm base called := by
    apply Heeds.quiet (.of_quits (initArgInfo_quits _))
    exact Effect.mono (Quiet.initArgInfo r _) fun _ _ h => h.trace
  apply Heeds.andThen hinit
  intro equipped
  cases equipped with
  | false => exact .pure fun _ hs => hs
  | true => exact stepFromHook_heeds hpost fuel trial _

/-! ## The run -/

variable {memory : Memory} {cfg : Config I σ n} {user : σ} {s₀ : RunState R I σ n}
  {fuel : Nat}

/-- No trial of the run loses an error. -/
def Orderly (fuel : Nat) (r : Runner I σ n) (s₀ : RunState R I σ n) : Prop :=
  ∀ k seed s new, TrialAt fuel r s₀ k seed s → k < r.trialCount →
    (final (runStep fuel r k seed) s).trace = new ++ s.trace → ¬ Clash r new

/-- What a step of an orderly run comes to. -/
theorem Orderly.step (h : Orderly fuel r s₀) (hpost : r.PostSized) {k : Nat} {seed : Word}
    (hs : TrialAt fuel r s₀ k seed s) (hlt : k < r.trialCount) (hcalm : Calm s.trace False s) :
    Spec (fun t => t = s) (runStep fuel r k seed : Run R I σ n _)
      (fun out t => (t.prng.bitPool = none ∧ out.1.isError) ∨ Calm s.trace False t)
      fun _ t => ¬ Loud t := by
  rintro s' rfl
  have hspec : Heeds r s'.trace (Calm s'.trace False) (runStep fuel r k seed : Run R I σ n _)
      (fun out => out.1.isError) fun _ => Calm s'.trace False := runStep_heeds hpost fuel k seed
  have hstep := hspec.spec s' hcalm
  have hclash := fun new => h k seed s' new hs hlt
  unfold final at hclash
  cases hrun : runStep fuel r k seed s' with
  | ok out t =>
    rw [hrun] at hstep hclash
    refine hstep.resolve_left ?_
    rintro ⟨new, htrace, hlost⟩
    exact hclash new htrace hlost
  | error e t =>
    rw [hrun] at hstep hclash
    refine hstep.resolve_left ?_
    rintro ⟨new, htrace, hlost⟩
    exact hclash new htrace hlost

/-- An error of a hook of the run is its answer. -/
theorem askHook_loud {Info Res : Type} {hook : Option (Info → σ → Res × σ)} {info : Info}
    {dflt a : Res} (event : Event I n) (answer : Res → Event I n) (hevent : event.isError = false)
    (h : askHook hook info dflt event answer s = .ok a t) :
    t.prng = s.prng ∧ (Loud t → Loud s ∨ (answer a).isError = true) := by
  cases hook with
  | none =>
    cases h
    exact ⟨rfl, .inl⟩
  | some hook =>
    cases h
    refine ⟨rfl, ?_⟩
    rintro ⟨e, he, herror⟩
    obtain rfl | he := List.mem_cons.mp he
    · exact .inr herror
    obtain rfl | he := List.mem_cons.mp he
    · rw [hevent] at herror
      cases herror
    · exact .inl ⟨e, he, herror⟩

/-- **Every trial starts without an error before it.** -/
theorem TrialAt.calm (hinit : runInit memory cfg user = some (r, s₀)) (hpost : r.PostSized)
    (horderly : Orderly fuel r s₀) {k : Nat} {seed : Word} {s : RunState R I σ n}
    (h : TrialAt fuel r s₀ k seed s) : Calm s.trace False s := by
  induction h with
  | @first s hpre =>
    have hstart := runInit_started hinit
    obtain ⟨hprng, hloud⟩ := askHook_loud (.runPre _) .runPreRes rfl hpre
    refine ⟨?_, ⟨[], rfl, False.elim⟩, fun h => ?_⟩
    · rw [hprng, hstart.prng]
      rfl
    · obtain ⟨e, he, -⟩ | herror := hloud h
      · rw [hstart.trace] at he
        cases he
      · cases herror
  | @next k seed seed' s t hs hlt hstep ih =>
    obtain ⟨-, herror⟩ | hcalm := (horderly.step hpost hs hlt ih).returned rfl hstep
    · obtain herror | herror := herror <;> cases herror
    · exact ⟨hcalm.noPool, ⟨[], rfl, False.elim⟩, hcalm.quiet⟩

/-- **Errors end the run.** When no trial loses an error, no trial is started after one; and a run
in which an error was answered returns `THEFT_RUN_ERROR`. -/
theorem errors_end_run (hinit : runInit memory cfg user = some (r, s₀)) (hpost : r.PostSized)
    (horderly : Orderly fuel r s₀) :
    (∀ k seed s, TrialAt fuel r s₀ k seed s → ¬ Loud s) ∧
      (Loud (final (runTrials fuel r) s₀) → ∃ t, runTrials fuel r s₀ = .ok .error t) := by
  have hcalm : ∀ {k : Nat} {seed : Word} {s : RunState R I σ n}, TrialAt fuel r s₀ k seed s →
      Calm s.trace False s := fun hs => hs.calm hinit hpost horderly
  refine ⟨fun k seed s hs => (hcalm hs).quiet, fun hloud => ?_⟩
  unfold final at hloud
  cases hrun : runTrials fuel r s₀ with
  | ok res t =>
    rw [hrun] at hloud
    obtain ⟨rfl, -⟩ | ⟨k, s, answer, hfinished, hpostHook, rfl⟩ := runTrials_cases hrun
    · exact ⟨t, rfl⟩
    · have hs : ¬ Loud s := by
        cases hfinished with
        | all hs => exact (hcalm hs).quiet
        | halted hs hlt hstep =>
          obtain ⟨-, herror⟩ | hafter := (horderly.step hpost hs hlt (hcalm hs)).returned rfl hstep
          · obtain herror | herror := herror <;> cases herror
          · exact hafter.quiet
      obtain ⟨_, _, hget, hask⟩ := bind_eq_ok.mp hpostHook
      cases hget
      obtain ⟨-, hanswer⟩ := askHook_loud (.runPost _) .runPostRes rfl hask
      have herror := (hanswer hloud).resolve_left hs
      cases answer with
      | error => exact ⟨t, rfl⟩
      | cont => cases herror
  | error e t =>
    rw [hrun] at hloud
    obtain ⟨k, seed, s, hs, hlt, hstep⟩ := runTrials_stopped hrun
    exact absurd hloud ((horderly.step hpost hs hlt (hcalm hs)).stopped rfl hstep)

end

/-! ## Errors that are lost -/

/-- One number, one trial, and a property that counts its calls. -/
def answering (prop : Nat → TrialRes) (shrink : ShrinkRes) (hooks : Hooks Nat Nat 1) :
    Config Nat Nat 1 where
  name := none
  prop := some fun _ u => .ret (prop u, u + 1)
  typeInfo := fun _ =>
    { alloc := fun u => .ret (.ok, some 1, u)
      free := none
      hash := none
      print := none
      shrink := some fun _ tactic u =>
        .ret (if tactic = 0 then (shrink, some 0, u) else (.noMoreTactics, none, u))
      autoshrinkConfig := ⟨false, 0, ⟨false, false, false⟩, 0⟩ }
  trials := 1
  seed := 1
  alwaysSeeds := []
  hooks := hooks

def noHooks : Hooks Nat Nat 1 := ⟨none, none, none, none, none, none, none, none, none⟩

/-- `shrink` answers an error where a hook waits for the state of the shrinking. -/
def refusing : Config Nat Nat 1 :=
  answering (fun _ => .fail) .error { noHooks with shrinkPost := some fun _ u => (.cont, u) }

/-- The second call answers an error, and is run again. -/
def forgetting : Config Nat Nat 1 :=
  answering (fun calls => if calls = 0 then .fail else if calls = 1 then .error else .pass) .ok
    { noHooks with shrinkTrialPost := some fun _ u => (.repeatOnce, u) }

/-- The first call answers an error. -/
def erring : Config Nat Nat 1 := answering (fun _ => .error) .ok noHooks

/-- A run that stops in an assertion, and one that returns as if there had been no error. -/
theorem errors_are_lost :
    (∃ r s₀ t, runInit ⟨false, granted, granted⟩ refusing 0 = some (r, s₀) ∧
      runTrials 4 r (s₀ : RunState Nat Nat Nat 1) = .error .assertion t ∧ Loud t) ∧
    ∃ r s₀ t, runInit ⟨false, granted, granted⟩ forgetting 0 = some (r, s₀) ∧
      runTrials 4 r (s₀ : RunState Nat Nat Nat 1) = .ok .fail t ∧ Loud t := by
  constructor
  · have hrun : (match runInit (R := Nat) ⟨false, granted, granted⟩ refusing 0 with
        | some (r, s₀) =>
          match runTrials 4 r s₀ with
          | .error e t => decide (e = .assertion ∧ t.trace.any Event.isError = true)
          | .ok _ _ => false
        | none => false) = true := by decide +kernel
    split at hrun
    · rename_i r s₀ hinit
      split at hrun
      · rename_i e t hstep
        obtain ⟨rfl, hloud⟩ := of_decide_eq_true hrun
        exact ⟨r, s₀, t, hinit, hstep, List.any_eq_true.mp hloud⟩
      · cases hrun
    · cases hrun
  · have hrun : (runInit (R := Nat) ⟨false, granted, granted⟩ forgetting 0).any (fun a =>
        passes (fun res t => decide (res = .fail ∧ t.trace.any Event.isError = true))
          (runTrials 4 a.1 a.2)) = true := by decide +kernel
    obtain ⟨⟨r, s₀⟩, hinit, hpass⟩ := (Option.any_eq_true _ _).mp hrun
    obtain ⟨res, t, hstep, hpass⟩ := of_passes hpass
    obtain ⟨rfl, hloud⟩ := of_decide_eq_true hpass
    exact ⟨r, s₀, t, hinit, hstep, List.any_eq_true.mp hloud⟩

theorem errors_end_run_one : ∃ r s₀ t, runInit ⟨false, granted, granted⟩ erring 0 = some (r, s₀) ∧
    runTrials 4 r (s₀ : RunState Nat Nat Nat 1) = .ok .error t ∧ Loud t := by
  have hrun : (match runInit (R := Nat) ⟨false, granted, granted⟩ erring 0 with
      | some (r, s₀) =>
        match runPreHook r s₀ with
        | .ok _ s => decide (r.trialCount = 1 ∧ s.trace = [] ∧ r.hooks.shrinkPost.isNone ∧
          r.hooks.trialPost.isNone ∧
          (final (runTrials 4 r) s₀).trace.any Event.isError = true ∧
          (final (runStep 4 r 0 r.runSeed) s).trace.any (fun e =>
            e.kind = .shrinkTrialPost) = false)
        | .error _ _ => false
      | none => false) = true := by decide +kernel
  split at hrun
  · rename_i r s₀ hinit
    split at hrun
    · rename_i answer s hpre
      obtain ⟨hone, hs, hshrinkPost, htrialPost, hloud, hagain⟩ := of_decide_eq_true hrun
      have hpost : r.PostSized := by
        intro hook hhook
        rw [hhook] at htrialPost
        cases htrialPost
      have horderly : Orderly 4 r s₀ := by
        intro k seed s' new hat hlt htrace hclash
        cases hat with
        | next => omega
        | first hpre' =>
          obtain ⟨-, rfl⟩ := EStateM.Result.ok.inj (hpre.symm.trans hpre')
          rw [hs, List.append_nil] at htrace
          rw [htrace] at hagain
          cases hclash with
          | shrinkPost hsome =>
            rw [Option.isNone_iff_eq_none.mp hshrinkPost] at hsome
            cases hsome
          | @again newer older answer info args held rerun _ =>
            exact List.any_eq_false.mp hagain (.shrinkTrialPost info) (by simp) rfl
      have hloud : Loud (final (runTrials 4 r) s₀) := List.any_eq_true.mp hloud
      obtain ⟨t, hstep⟩ := (errors_end_run hinit hpost horderly).2 hloud
      rw [final, hstep] at hloud
      exact ⟨r, s₀, t, hinit, hstep, hloud⟩
    · cases hrun
  · cases hrun

end Theft
