import Theft.Frames

/-!
# What shrinking, trials and steps of the run leave alone

Shrinking is `Marking`, a report is `Asked`, the trial is `Counting` and the step of the run is
`Onward`, for every run of them, returned or stopped.
-/

namespace Theft

open PackedBits Exec

section
variable {R I σ : Type} {n : Nat} {α β : Type} {K : List EventKind} [Platform R]

/-! ## Calls and marks -/

/-- The callbacks that shrinking calls. -/
def shrinkKinds : List EventKind :=
  [.alloc, .free, .hash, .shrink, .call, .shrinkPre, .shrinkPost, .shrinkTrialPost]

namespace Marking

theorem callMarkCalled (hK : .hash ∈ K) (r : Runner I σ n) :
    Effect (Marking K) (callMarkCalled r : Run R I σ n Unit) := by
  apply Effect.bind (Asked.toMarking (Asked.getArgHashBuffer hK r _))
  intro buffer
  constructor
  intro s
  rw [final_get_bind]
  cases hbloom : s.bloom with
  | none => exact Std.Refl.refl s
  | some b =>
    dsimp only
    cases hmark : bloomMark r.filterMemory b (hashBytes buffer) with
    | error e => exact Std.Refl.refl s
    | ok res =>
      obtain ⟨ok, b'⟩ := res
      refine ⟨⟨by rw [hbloom]; rfl, fun hinv => ?_⟩, ⟨rfl, rfl, rfl⟩, .of_eq rfl⟩
      rintro _ ⟨⟩
      obtain ⟨ok', b'', hany, hb''⟩ := mark_any r.filterMemory (hinv b hbloom)
        (hashOnepass (hashBytes buffer))
      rw [bloomMark, hany] at hmark
      cases hmark
      exact hb''

theorem skipCalled (hK : .hash ∈ K) (r : Runner I σ n) :
    Effect (Marking K) (skipCalled r : Run R I σ n Bool) := by
  apply Effect.bind Effect.get
  intro s
  split
  · apply Effect.bind (Asked.toMarking (Asked.callCheckCalled hK r))
    intro found
    split
    · exact Effect.pure _
    · apply Effect.bind (callMarkCalled hK r)
      intro _
      exact Effect.pure _
  · exact Effect.pure _

theorem markTrial (hK : .hash ∈ K) (r : Runner I σ n) :
    Effect (Marking K) (markTrial r : Run R I σ n Unit) := by
  apply Effect.bind Effect.get
  intro s
  split
  · exact callMarkCalled hK r
  · exact Effect.pure _

theorem shrinkTrials (hK : shrinkKinds ⊆ K) (r : Runner I σ n) (argI : Fin n) (tactic fuel : Nat) :
    ∀ repeated, Effect (Marking K) (shrinkTrials r argI tactic fuel repeated : Run R I σ n _) := by
  induction fuel with
  | zero =>
    intro repeated
    exact Effect.throw _
  | succ fuel ih =>
    intro repeated
    apply Effect.bind Effect.get
    intro s
    apply Effect.bind (Asked.toMarking (Asked.call (hK (by decide)) r _ _))
    intro res
    apply Effect.bind (Quiet.toMarking (Steady.toQuiet (Steady.countShrink r argI res repeated)))
    intro _
    apply Effect.bind (Asked.toMarking (Asked.shrinkTrialPostHook (hK (by decide)) r argI _ _ _))
    intro answer
    cases answer with
    | repeat_ => exact ih true
    | repeatOnce =>
      cases repeated with
      | true => exact Effect.pure _
      | false => exact ih true
    | cont => exact Effect.pure _
    | error => exact Effect.pure _

theorem tryCandidate (hK : shrinkKinds ⊆ K) (fuel : Nat) (r : Runner I σ n) (argI : Fin n)
    (tactic : Nat) (current candidate : Option I) (currentPool candidatePool : Option BitPool) :
    Effect (Marking K) (tryCandidate fuel r argI tactic current candidate currentPool
      candidatePool : Run R I σ n _) := by
  have hfree : ∀ inst, Effect (Marking K) (freeInst r argI inst : Run R I σ n Unit) :=
    fun inst => Asked.toMarking (Asked.freeInst (hK (by decide)) r argI inst)
  apply Effect.bind (Quiet.toMarking (Quiet.setInst argI candidate))
  intro _
  apply Effect.bind (Quiet.toMarking (Steady.ifAutoshrink r argI (Quiet.setPool _ _)))
  intro _
  apply Effect.bind (skipCalled (hK (by decide)) r)
  intro found
  split
  · apply Effect.bind (hfree _)
    intro _
    apply Effect.bind (Quiet.toMarking (Quiet.revertPool r argI _ _))
    intro _
    apply Effect.bind (Quiet.toMarking (Quiet.setInst argI current))
    intro _
    exact Effect.pure _
  · apply Effect.bind (shrinkTrials hK r argI tactic fuel false)
    intro out
    cases out with
    | some res => exact Quiet.toMarking (Quiet.judgeCandidate (hK (by decide)) r argI _ _ _ _ res)
    | none =>
      apply Effect.bind (hfree _)
      intro _
      apply Effect.bind (Quiet.toMarking (Steady.ifAutoshrink r argI
        (Freeing.toQuiet (Freeing.freePoolIf currentPool))))
      intro _
      exact Effect.pure _

theorem attemptTactic (hK : shrinkKinds ⊆ K) (fuel : Nat) (r : Runner I σ n) (argI : Fin n)
    (tactic : Nat) : Effect (Marking K) (attemptTactic fuel r argI tactic : Run R I σ n _) := by
  apply Effect.bind Effect.get
  intro s
  apply Effect.bind (Asked.toMarking (Asked.shrinkPreHook (hK (by decide)) r argI _ tactic))
  intro answer
  cases answer with
  | halt => exact Effect.pure _
  | error => exact Effect.pure _
  | cont =>
    have hoffer : [.alloc, .shrink] ⊆ K := fun k hk => hK (by revert k; decide)
    apply Effect.bind (Quiet.toMarking (Steady.toQuiet (Steady.candidate hoffer fuel r argI _ _)))
    intro c
    apply Effect.bind (Effect.bind Effect.get fun _ => Effect.pure _)
    intro currentPool
    refine Effect.bind (Quiet.toMarking (Steady.toQuiet
      (Steady.modifyTrial (fun _ => rfl) (fun _ => rfl) fun _ => rfl))) fun _ => ?_
    apply Effect.bind (Asked.toMarking (Asked.shrinkPostHook (hK (by decide)) r argI _ _ _))
    intro answer
    cases answer with
    | error =>
      apply Effect.bind (Asked.toMarking (Asked.freeInst (hK (by decide)) r argI _))
      intro _
      apply Effect.bind (Quiet.toMarking (Freeing.toQuiet (Freeing.freePoolIf _)))
      intro _
      exact Effect.pure _
    | cont =>
      dsimp only
      split
      · exact tryCandidate hK fuel r argI tactic _ _ _ _
      · exact Effect.pure _
      · exact Effect.pure _
      · exact Effect.pure _

theorem attemptTactics (hK : shrinkKinds ⊆ K) (fuel : Nat) (r : Runner I σ n) (argI : Fin n)
    (left : Nat) : ∀ tactic,
    Effect (Marking K) (attemptTactics fuel r argI left tactic : Run R I σ n _) := by
  induction left with
  | zero =>
    intro tactic
    exact Effect.pure _
  | succ left ih =>
    intro tactic
    apply Effect.bind (attemptTactic hK fuel r argI tactic)
    intro out
    cases out with
    | some res => exact Effect.pure _
    | none => exact ih _

theorem shrinkFrom (hK : shrinkKinds ⊆ K) (inner : Nat) (r : Runner I σ n) (fuel : Nat) :
    ∀ argI progress, Effect (Marking K) (shrinkFrom inner r fuel argI progress : Run R I σ n _) := by
  induction fuel with
  | zero =>
    intro argI progress
    exact Effect.throw _
  | succ fuel ih =>
    intro argI progress
    unfold Theft.shrinkFrom
    split
    · split
      · apply Effect.bind (attemptTactics hK inner r _ _ _)
        intro res
        cases res with
        | ok => exact ih _ _
        | halt => exact Effect.pure _
        | deadEnd => exact ih _ _
        | error => exact Effect.pure _
      · exact ih _ _
    · split
      · exact ih _ _
      · exact Effect.pure _

theorem shrink (hK : shrinkKinds ⊆ K) (fuel : Nat) (r : Runner I σ n) :
    Effect (Marking K) (shrink fuel r : Run R I σ n _) := by
  apply Effect.bind Effect.require
  intro _
  exact shrinkFrom hK fuel r fuel _ _

end Marking

/-! ## Reporting -/

namespace Asked

theorem repeatFailure (hK : [.call, .trialPost] ⊆ K) (r : Runner I σ n) (info : TrialPostInfo I n)
    (fuel : Nat) (res : HookTrialPostRes) :
    Effect (Asked K) (repeatFailure r info fuel res : Run R I σ n _) := by
  apply repeatFailure_induct (P := Effect (Asked K)) Effect.pure (Effect.throw _)
  · intro k _ ih
    exact Effect.bind (Asked.call (hK (by decide)) r _ _) ih
  · intro k _ ih
    exact Effect.bind (Asked.trialPostHook (hK (by decide)) r _) ih

theorem reportOnFailure (hK : [.call, .trialPost, .print, .counterexample] ⊆ K) (fuel : Nat)
    (r : Runner I σ n) (info : TrialPostInfo I n) :
    Effect (Asked K) (reportOnFailure fuel r info : Run R I σ n _) := by
  have hprint : [.print, .counterexample] ⊆ K := fun k hk => hK (by revert k; decide)
  have hcall : [.call, .trialPost] ⊆ K := fun k hk => hK (by revert k; decide)
  apply Effect.bind Effect.get
  intro s
  apply Effect.bind (Asked.counterexampleHook hprint r _)
  intro answer
  cases answer with
  | error => exact Effect.pure _
  | cont =>
    apply Effect.bind (Asked.trialPostHook (hK (by decide)) r _)
    intro res
    exact repeatFailure hcall r _ _ _

end Asked

/-! ## Trials and runs -/

/-- The callbacks of a trial, after its arguments were generated. -/
def trialKinds : List EventKind := shrinkKinds ++ [.print, .trialPost, .counterexample]

/-- The callbacks of a step of the run. -/
def stepKinds : List EventKind := trialKinds ++ [.genArgsPre, .trialPre]

/-- The callbacks of a run. -/
def runKinds : List EventKind := stepKinds ++ [.runPre, .runPost]

namespace Counting

omit [Platform R] in
theorem modifyCounters (f : RunReport → RunReport) :
    Effect (Counting K) (modifyCounters f : Run R I σ n Unit) :=
  Effect.modify fun _ => ⟨.of_eq rfl, rfl, rfl, .of_eq rfl⟩

theorem judgeTrial (hK : trialKinds ⊆ K) (fuel : Nat) (r : Runner I σ n)
    (info : TrialPostInfo I n) : Effect (Counting K) (judgeTrial fuel r info : Run R I σ n _) := by
  have hpost : ∀ info, Effect (Counting K) (trialPostHook r info : Run R I σ n _) :=
    fun info => Asked.toCounting (Asked.trialPostHook (hK (by decide)) r info)
  have hshrink : shrinkKinds ⊆ K := fun k hk => hK (by revert k; decide)
  have hreport : [.call, .trialPost, .print, .counterexample] ⊆ K :=
    fun k hk => hK (by revert k; decide)
  unfold Theft.judgeTrial
  split
  · apply Effect.bind (modifyCounters _)
    intro _
    apply Effect.bind (hpost _)
    intro answer
    exact Effect.pure _
  · apply Effect.bind (Marking.toCounting (Marking.shrink hshrink fuel r))
    intro shrunk
    split
    · apply Effect.bind (modifyCounters _)
      intro _
      apply Effect.bind Effect.get
      intro s
      apply Effect.bind (Asked.toCounting (Asked.reportOnFailure hreport fuel r _))
      intro answer
      exact Effect.pure _
    · apply Effect.bind (hpost _)
      intro answer
      exact Effect.pure _
  · apply Effect.bind (modifyCounters _)
    intro _
    apply Effect.bind (hpost _)
    intro answer
    exact Effect.pure _
  · apply Effect.bind (hpost _)
    intro answer
    exact Effect.pure _
  · apply Effect.bind (hpost _)
    intro answer
    exact Effect.pure _

theorem trialRun (hK : trialKinds ⊆ K) (fuel : Nat) (r : Runner I σ n) :
    Effect (Counting K) (trialRun fuel r : Run R I σ n _) := by
  apply Effect.bind Effect.require
  intro _
  apply Effect.bind (Marking.toCounting (Marking.markTrial (hK (by decide)) r))
  intro _
  apply Effect.bind Effect.get
  intro s
  apply Effect.bind (Asked.toCounting (Asked.call (hK (by decide)) r _ _))
  intro res
  exact judgeTrial hK fuel r _

theorem runGenerated (hK : stepKinds ⊆ K) (fuel : Nat) (r : Runner I σ n) (trial : Nat)
    (seed : Word) (gres : AllGenRes) :
    Effect (Counting K) (runGenerated fuel r trial seed gres : Run R I σ n _) := by
  have hpost : ∀ info, Effect (Counting K) (trialPostHook r info : Run R I σ n _) :=
    fun info => Asked.toCounting (Asked.trialPostHook (hK (by decide)) r info)
  have htrial : trialKinds ⊆ K := fun k hk => hK (by revert k; decide)
  apply Effect.bind Effect.get
  intro s
  cases gres with
  | skip =>
    apply Effect.bind (modifyCounters _)
    intro _
    apply Effect.bind (hpost _)
    intro answer
    exact Effect.pure _
  | dup =>
    apply Effect.bind (modifyCounters _)
    intro _
    apply Effect.bind (hpost _)
    intro answer
    exact Effect.pure _
  | error =>
    apply Effect.bind (hpost _)
    intro answer
    exact Effect.pure _
  | ok =>
    apply Effect.bind (Asked.toCounting (Asked.trialPreHook (hK (by decide)) r trial seed))
    intro answer
    cases answer with
    | halt => exact Effect.pure _
    | error => exact Effect.pure _
    | cont =>
      apply Effect.bind (trialRun htrial fuel r)
      intro res
      exact Effect.pure _

/-- A step of the run, from the trial it sets up. -/
theorem runStep (hK : stepKinds ⊆ K) (fuel : Nat) (r : Runner I σ n) (trial : Nat) (seed : Word)
    (s : RunState R I σ n) : Counting K { s with trial := .start trial (stepSeed r trial seed) }
      (final (runStep fuel r trial seed) s) := by
  have hgen : [.alloc, .hash] ⊆ K := fun k hk => hK (by revert k; decide)
  have hook : Effect (Counting K) (stepFromHook fuel r trial (stepSeed r trial seed) :
      Run R I σ n (RunStepRes × Word)) := by
    apply Effect.bind (Asked.toCounting (Asked.genArgsPreHook (hK (by decide)) r))
    intro answer
    cases answer with
    | halt => exact Effect.pure _
    | error => exact Effect.pure _
    | cont =>
      apply Effect.bind (Effect.modify fun _ => ⟨.of_eq rfl, rfl, rfl, .of_eq rfl⟩)
      intro _
      apply Effect.bind (Marking.toCounting (Quiet.toMarking (Quiet.genAllArgs hgen r _)))
      intro gres
      apply Effect.bind (runGenerated hK fuel r trial _ gres)
      intro res
      apply Effect.bind (Asked.toCounting (Asked.nextSeed res _))
      intro seed'
      apply Effect.bind (Marking.toCounting (Quiet.toMarking (Freeing.toQuiet
        (Freeing.freeArgs (hK (by decide)) r _))))
      intro _
      exact Effect.pure _
  have rest : Effect (Counting K) (initArgInfo r (List.finRange n) >>=
      stepFrom fuel r trial (stepSeed r trial seed) : Run R I σ n (RunStepRes × Word)) := by
    apply Effect.bind (Marking.toCounting (Quiet.toMarking (Quiet.initArgInfo r _)))
    intro equipped
    cases equipped with
    | false => exact Effect.pure _
    | true => exact hook
  have hchange := rest.change { s with trial := .start trial (stepSeed r trial seed) }
  unfold final at hchange ⊢
  rwa [runStep_eq]

end Counting

/-- A step of the run, from the state before. -/
theorem Onward.runStep (hK : stepKinds ⊆ K) (fuel : Nat) (r : Runner I σ n) (trial : Nat)
    (seed : Word) : Effect (Onward K) (runStep fuel r trial seed : Run R I σ n _) := by
  constructor
  intro s
  obtain ⟨hbloom, -, -, htrace⟩ := Counting.runStep hK fuel r trial seed s
  exact ⟨⟨hbloom.isSome, hbloom.inv⟩, htrace⟩

end

end Theft
