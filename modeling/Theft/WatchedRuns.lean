import Theft.RunProtocol
import Theft.Watching

/-!
# Watched runs

Trials and runs with hooks that only watch, and `watched_run`: they are the ones without them.
-/

namespace Theft

open PackedBits Exec

section
variable {R I σ τ : Type} {n : Nat} {view : σ → τ} [Platform R]

namespace Unwatched
variable {r : Runner I σ n} {r' : Runner I τ n} (h : r.Watched view r')

include h

/-! ## Trials -/

theorem repeatFailure (info : TrialPostInfo I n) (fuel : Nat) : ∀ res,
    Unwatched view r'.hooks (repeatFailure r info fuel res : Run R I σ n _)
      (repeatFailure r' info fuel res) := by
  induction fuel with
  | zero =>
    intro res
    cases res with
    | cont => exact .same _
    | error => exact .same _
    | repeat_ => exact .throw _
    | repeatOnce => exact .throw _
  | succ fuel ih =>
    have again (asked : HookTrialPostRes) (hcont : asked ≠ .cont) (herror : asked ≠ .error) :
        Unwatched view r'.hooks (Theft.repeatFailure r info (fuel + 1) asked : Run R I σ n _)
          (Theft.repeatFailure r' info (fuel + 1) asked) := by
      rw [Theft.repeatFailure, Theft.repeatFailure]
      · refine (call h info.args true).andThen fun res => ?_
        cases res with
        | fail =>
          refine (trialPostHook h { info with repeat_ := true }).andThen fun res => ?_
          split
          · exact .same _
          · exact ih res
        | pass => exact .same _
        | error => exact .same _
        | skip => exact .same _
        | dup => exact .same _
      all_goals assumption
    intro res
    cases res with
    | cont => exact .same _
    | error => exact .same _
    | repeat_ => exact again _ nofun nofun
    | repeatOnce => exact again _ nofun nofun

theorem reportOnFailure (fuel : Nat) (info : TrialPostInfo I n) :
    Unwatched view r'.hooks (reportOnFailure fuel r info : Run R I σ n _)
      (reportOnFailure fuel r' info) := by
  refine .bind .get fun s => ?_
  rw [h.name, h.trialCount]
  refine (counterexampleHook h _).andThen fun answer => ?_
  cases answer with
  | error => exact .same _
  | cont => exact (trialPostHook h info).andThen fun res => repeatFailure h info fuel res

theorem judgeTrial (fuel : Nat) (info : TrialPostInfo I n) :
    Unwatched view r'.hooks (judgeTrial fuel r info : Run R I σ n _)
      (judgeTrial fuel r' info) := by
  unfold Theft.judgeTrial
  cases info.result with
  | pass =>
    apply Mirrors.andThen (modifyCounters _)
    intro _
    apply Mirrors.andThen (trialPostHook h info)
    intro _
    exact .same _
  | fail =>
    refine (shrink h fuel).andThen fun shrunk => ?_
    split
    · apply Mirrors.andThen (modifyCounters _)
      intro _
      apply Mirrors.bind Mirrors.get
      intro s
      apply Mirrors.andThen (reportOnFailure h fuel _)
      intro _
      exact .same _
    · exact (trialPostHook h _).andThen fun _ => .same _
  | skip =>
    apply Mirrors.andThen (modifyCounters _)
    intro _
    apply Mirrors.andThen (trialPostHook h info)
    intro _
    exact .same _
  | dup => exact (trialPostHook h info).andThen fun _ => .same _
  | error => exact (trialPostHook h info).andThen fun _ => .same _

theorem markTrial :
    Unwatched view r'.hooks (markTrial r : Run R I σ n _) (markTrial r') := by
  refine .bind .get fun s => ?_
  dsimp only [RunState.unwatched]
  split
  · exact callMarkCalled h
  · exact .same _

theorem trialRun (fuel : Nat) :
    Unwatched view r'.hooks (trialRun fuel r : Run R I σ n _) (trialRun fuel r') := by
  apply Mirrors.andThen (Mirrors.require _)
  intro _
  apply Mirrors.andThen (markTrial h)
  intro _
  apply Mirrors.bind Mirrors.get
  intro s
  rw [h.name, h.trialCount, h.runSeed]
  exact (call h _ false).andThen fun tres => judgeTrial h fuel _

omit [Platform R] h in
theorem freeEnv (env : AutoshrinkEnv) :
    Unwatched view r'.hooks (freeEnv env : Run R I σ n _) (freeEnv env) :=
  (freePoolIf env.bitPool).andThen fun _ => .modify fun _ => rfl

theorem freeArg (argI : Fin n) :
    Unwatched view r'.hooks (freeArg r argI : Run R I σ n _) (freeArg r' argI) := by
  refine .bind .get fun s => ?_
  dsimp only [RunState.unwatched]
  refine .andThen ?_ fun _ => ?_
  · cases (s.trial.args argI).env with
    | none => exact .same _
    | some env => exact freeEnv env
  · split
    · exact freeInst h argI _
    · exact .same _

theorem freeArgs (is : List (Fin n)) :
    Unwatched view r'.hooks (freeArgs r is : Run R I σ n _) (freeArgs r' is) := by
  induction is with
  | nil => exact .same _
  | cons argI rest ih => exact (freeArg h argI).andThen fun _ => ih

/-! ## Runs -/

omit [Platform R] in
theorem initArgInfo (is : List (Fin n)) :
    Unwatched view r'.hooks (initArgInfo r is : Run R I σ n _) (initArgInfo r' is) := by
  induction is with
  | nil => exact .same _
  | cons argI rest ih =>
    unfold Theft.initArgInfo
    rw [(h.typeInfo argI).autoshrinkConfig, h.envMemory]
    split
    · refine .bind .get fun s => ?_
      dsimp only [RunState.unwatched]
      split
      · refine .andThen (.modify fun s => ?_) fun _ => ih
        simp only [RunState.equip, (h.typeInfo argI).autoshrinkConfig]
        rfl
      · exact .same _
    · exact ih

theorem allocBasic (argI : Fin n) :
    Unwatched view r'.hooks (allocBasic argI (r.typeInfo argI).alloc : Run R I σ n _)
      (allocBasic argI (r'.typeInfo argI).alloc) := by
  refine ask rfl (fun _ => rfl) fun u => ?_
  rw [alloc h, gen_map_map, gen_map_map]
  rfl

theorem allocAutoshrink (argI : Fin n) :
    Unwatched view r'.hooks (allocAutoshrink r argI : Run R I σ n _) (allocAutoshrink r' argI) := by
  refine .bind .get fun s => ?_
  dsimp only [RunState.unwatched]
  rw [alloc h]
  cases (s.trial.args argI).env with
  | none => exact .throw _
  | some env =>
    refine .bind (zoomEnv (autoshrinkAlloc_mirrors _) argI env) fun res => ?_
    obtain ⟨ares, res⟩ := res
    cases res with
    | none => exact .same _
    | some res =>
      apply Mirrors.andThen (record rfl)
      intro _
      apply Mirrors.andThen (record rfl)
      intro _
      refine .andThen (.modify fun _ => rfl) fun _ => ?_
      exact .same _

theorem genArg (argI : Fin n) :
    Unwatched view r'.hooks (genArg r argI : Run R I σ n _) (genArg r' argI) := by
  unfold Theft.genArg
  rw [(h.typeInfo argI).autoshrinkConfig]
  split
  · exact allocAutoshrink h argI
  · exact allocBasic h argI

theorem genAllArgs (is : List (Fin n)) :
    Unwatched view r'.hooks (genAllArgs r is : Run R I σ n _) (genAllArgs r' is) := by
  induction is with
  | nil =>
    refine .bind .get fun s => ?_
    dsimp only [RunState.unwatched]
    split
    · refine (callCheckCalled h).andThen fun called => ?_
      split
      · exact .same _
      · exact .same _
    · exact .same _
  | cons argI rest ih =>
    refine (genArg h argI).andThen fun res => ?_
    obtain ⟨ares, inst⟩ := res
    cases ares with
    | skip => exact .same _
    | error => exact .same _
    | ok => exact (modifyTrial _).andThen fun _ => ih

theorem runGenerated (fuel trial : Nat) (seed : Word) (gres : AllGenRes) :
    Unwatched view r'.hooks (runGenerated fuel r trial seed gres : Run R I σ n _)
      (runGenerated fuel r' trial seed gres) := by
  refine .bind .get fun s => ?_
  rw [h.name, h.trialCount]
  cases gres with
  | skip =>
    apply Mirrors.andThen (modifyCounters _)
    intro _
    apply Mirrors.andThen (trialPostHook h _)
    intro _
    exact .same _
  | dup =>
    apply Mirrors.andThen (modifyCounters _)
    intro _
    apply Mirrors.andThen (trialPostHook h _)
    intro _
    exact .same _
  | error => exact (trialPostHook h _).andThen fun _ => .same _
  | ok =>
    refine (trialPreHook h trial seed).andThen fun answer => ?_
    cases answer with
    | halt => exact .same _
    | error => exact .same _
    | cont => exact (trialRun h fuel).andThen fun _ => .same _

omit h in
theorem nextSeed (res : RunStepRes) (seed : Word) :
    Unwatched view r'.hooks (nextSeed res seed : Run R I σ n _) (nextSeed res seed) := by
  unfold Theft.nextSeed
  split
  · exact .zoom (mirrors_refl random) (fun _ => rfl) fun _ _ => rfl
  · exact .same _

omit [Platform R] in
theorem stepSeed (trial : Nat) (seed : Word) :
    Theft.stepSeed r' trial seed = Theft.stepSeed r trial seed := by
  simp only [Theft.stepSeed, h.alwaysSeeds, h.runSeed]

theorem stepFromHook (fuel trial : Nat) (seed : Word) :
    Unwatched view r'.hooks (stepFromHook fuel r trial seed : Run R I σ n _)
      (stepFromHook fuel r' trial seed) := by
  refine (genArgsPreHook h).andThen fun answer => ?_
  cases answer with
  | halt => exact .same _
  | error => exact .same _
  | cont =>
    refine .andThen (.modify fun _ => rfl) fun _ => ?_
    apply Mirrors.andThen (genAllArgs h _)
    intro gres
    apply Mirrors.andThen (runGenerated h fuel trial _ gres)
    intro res
    apply Mirrors.andThen (nextSeed res _)
    intro _
    apply Mirrors.andThen (freeArgs h _)
    intro _
    exact .same _

theorem runStep (fuel trial : Nat) (seed : Word) :
    Unwatched view r'.hooks (runStep fuel r trial seed : Run R I σ n _)
      (runStep fuel r' trial seed) := by
  unfold Theft.runStep
  rw [stepSeed h]
  apply Mirrors.andThen (modifyTrial _)
  intro _
  apply Mirrors.andThen (initArgInfo h _)
  intro equipped
  cases equipped with
  | false => exact .same _
  | true => exact stepFromHook h fuel trial _

theorem runLoop (fuel left : Nat) : ∀ trial seed,
    Unwatched view r'.hooks (runLoop fuel r left trial seed : Run R I σ n _)
      (runLoop fuel r' left trial seed) := by
  induction left with
  | zero => exact fun _ _ => .same _
  | succ left ih =>
    intro trial seed
    apply Mirrors.andThen (runStep h fuel trial seed)
    intro step
    apply Mirrors.andThen (modifyTrial _)
    intro _
    obtain ⟨res, seed⟩ := step
    cases res with
    | ok => exact ih (trial + 1) seed
    | halt => exact .same _
    | genError => exact .same _
    | trialError => exact .same _

theorem runTrials (fuel : Nat) :
    Unwatched view r'.hooks (runTrials fuel r : Run R I σ n _) (runTrials fuel r') := by
  unfold Theft.runTrials
  refine (runPreHook h).andThen fun answer => ?_
  cases answer with
  | error => exact .same _
  | cont =>
    rw [h.trialCount, h.runSeed]
    refine (runLoop h fuel _ 0 _).andThen fun done => ?_
    split
    · refine (runPostHook h).andThen fun answer => ?_
      cases answer with
      | error => exact .same _
      | cont => exact .bind .get fun _ => .same _
    · exact .same _

end Unwatched

/-! ## From `theft_run` on -/

section
variable {cfg : Config I σ n} {cfg' : Config I τ n}

omit [Platform R] in
theorem Config.Watched.checkAllArgs (h : cfg.Watched view cfg') :
    checkAllArgs cfg'.typeInfo = checkAllArgs cfg.typeInfo := by
  unfold Theft.checkAllArgs
  congr 1
  funext i
  rw [(h.typeInfo i).autoshrinkConfig, isSome_eq (h.typeInfo i).shrink]

omit [Platform R] in
theorem Config.Watched.allHashable (h : cfg.Watched view cfg') :
    allHashable cfg'.typeInfo = allHashable cfg.typeInfo := by
  unfold Theft.allHashable
  congr 1
  funext i
  rw [(h.typeInfo i).autoshrinkConfig, isSome_eq (h.typeInfo i).hash]

theorem runInit_watched (h : cfg.Watched view cfg') (memory : Memory) (user : σ) :
    runInit memory cfg user = (none : Option (Runner I σ n × RunState R I σ n)) ∧
      runInit memory cfg' (view user) = (none : Option (Runner I τ n × RunState R I τ n)) ∨
    ∃ r r', ∃ s₀ : RunState R I σ n, runInit memory cfg user = some (r, s₀) ∧
      runInit memory cfg' (view user) = some (r', s₀.unwatched view r'.hooks) ∧
      r.Watched view r' ∧ r'.hooks = cfg'.hooks := by
  unfold runInit
  rw [h.checkAllArgs, h.allHashable, h.seed, h.trials]
  split
  · exact .inl ⟨rfl, rfl⟩
  · split
    · obtain ⟨hr, hr'⟩ | ⟨prop, prop', hr, hr', hprop⟩ := both_or_neither h.prop
      · rw [hr, hr']
        exact .inl ⟨rfl, rfl⟩
      · rw [hr, hr']
        exact .inr ⟨_, _, _, rfl, rfl,
          ⟨h.name, hprop, rfl, h.typeInfo, rfl, h.alwaysSeeds, h.hooks, rfl, rfl⟩, rfl⟩
    · exact .inl ⟨rfl, rfl⟩

/-- **Watching is free.** A run whose configuration has more hooks, which always answer `CONTINUE`
and change only what the view of the user's state hides, comes to the same end as the run without
them, in the same state, after the same calls of everything else in the same order. -/
theorem watched_run (h : cfg.Watched view cfg') (fuel : Nat) (memory : Memory) (user : σ) :
    run (R := R) fuel memory cfg' (view user) =
      (run fuel memory cfg user).map (seen (RunState.unwatched view cfg'.hooks) id) := by
  unfold run
  obtain ⟨hinit, hinit'⟩ | ⟨r, r', s₀, hinit, hinit', hwatched, hhooks⟩ :=
    runInit_watched (R := R) h memory user
  · rw [hinit, hinit']
    rfl
  · rw [hinit, hinit', ← hhooks, Option.map_some, Option.map_some, Option.map_some]
    exact congrArg some ((Unwatched.runTrials hwatched fuel).run s₀)

end

end

/-- `countdown` with hooks that count their calls -/
def watchedCountdown : Config Nat Nat 1 where
  name := none
  prop := some fun args u => .ret (if (args 0).any (3 ≤ ·) then .fail else .pass, u)
  typeInfo _ :=
    { alloc := fun u => .ret (.ok, some 5, u)
      free := none
      hash := none
      print := none
      shrink := some fun inst tactic u =>
        .ret (if tactic = 0 then .ok else .noMoreTactics, inst.map (· - 1), u)
      autoshrinkConfig := ⟨false, 0, ⟨false, false, false⟩, 0⟩ }
  trials := 3
  seed := 1
  alwaysSeeds := []
  hooks := { runPre := some fun _ u => (.cont, u + 1)
             runPost := some fun _ u => (.cont, u + 1)
             genArgsPre := some fun _ u => (.cont, u + 1)
             trialPre := some fun info u => (if 0 < info.failures then .halt else .cont, u)
             trialPost := some fun _ u => .ret (.cont, u + 1)
             counterexample := none
             shrinkPre := some fun _ u => (.cont, u)
             shrinkPost := none
             shrinkTrialPost := some fun _ u => (.cont, u + 1) }

theorem watchedCountdown_watched : watchedCountdown.Watched (fun _ => ()) countdown where
  name := rfl
  prop := .some fun _ _ => rfl
  typeInfo _ := ⟨fun _ => rfl, .none, .none, .none, .some fun _ _ _ => rfl, rfl⟩
  trials := rfl
  seed := rfl
  alwaysSeeds := rfl
  hooks :=
    { runPre := .only fun _ u => ⟨u + 1, rfl, rfl⟩
      runPost := .only fun _ u => ⟨u + 1, rfl, rfl⟩
      genArgsPre := .only fun _ u => ⟨u + 1, rfl, rfl⟩
      trialPre := .viewed fun _ _ => rfl
      trialPost := .only fun _ u => ⟨u + 1, rfl, rfl⟩
      counterexample := .none
      shrinkPre := .viewed fun _ _ => rfl
      shrinkPost := .none
      shrinkTrialPost := .only fun _ u => ⟨u + 1, rfl, rfl⟩ }

theorem watchedCountdown_run : (∃ t : RunState Nat Nat Nat 1,
      run 9 ⟨false, granted, granted⟩ watchedCountdown 0 = some (.ok .fail t) ∧ t.user = 9) ∧
    run (R := Nat) 9 ⟨false, granted, granted⟩ countdown () =
      (run 9 ⟨false, granted, granted⟩ watchedCountdown 0).map
        (seen (RunState.unwatched (fun _ => ()) countdown.hooks) id) := by
  have hcalls : (run (R := Nat) 9 ⟨false, granted, granted⟩ watchedCountdown 0).any
      (passes fun res t => decide (res = .fail ∧ t.user = 9)) = true := by decide +kernel
  obtain ⟨x, hrun, hpass⟩ := (Option.any_eq_true _ _).mp hcalls
  obtain ⟨res, t, rfl, hpass⟩ := of_passes hpass
  obtain ⟨rfl, huser⟩ := of_decide_eq_true hpass
  exact ⟨⟨t, hrun, huser⟩, watched_run watchedCountdown_watched 9 _ 0⟩

end Theft
