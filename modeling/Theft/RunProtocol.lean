import Theft.Genuine
import Theft.ShrinkProtocol
import Theft.Trials

/-!
# Every run keeps to the protocol

The trials of a run, what is generated for them, and the run: `runTrials_protocol` has what all
of its callbacks may rely on.
-/

namespace Theft

open PackedBits Exec Dialogue

section
variable {R I σ : Type} {n : Nat} {α : Type} [Platform R]
variable {r : Runner I σ n} {p : Stage I n} {v v₀ : View I n}

/-! ## Trials -/

theorem Proceeds.trialPostHook (info : TrialPostInfo I n) (use : PostUse) :
    Proceeds r (.posting info use) v (trialPostHook r info : Run R I σ n _)
      (Stage.afterTrialPost info use) := by
  unfold Theft.trialPostHook
  split
  · rename_i hnone
    exact Proceeds.last (.noTrialPost hnone)
  · rename_i hook hsome
    exact Proceeds.ask fun _ _ _ hres => .trialPost hsome hres

/-- The arguments from one on are printed. -/
theorem Proceeds.printArgs {info : TrialPostInfo I n} (is : List (Fin n)) : ∀ argI, argI ≤ n →
    is = (List.finRange n).drop argI → Proceeds r (.printing argI info) v
      (printArgs r info.args is : Run R I σ n Unit) fun _ => .printing n info := by
  induction is with
  | nil =>
    intro argI hle his
    obtain rfl := drop_finRange_nil hle his
    exact Proceeds.ret rfl
  | cons i is ih =>
    intro argI hle his
    obtain ⟨rfl, hrest⟩ := drop_finRange_cons his
    have hprint : Proceeds r (.printing i info) v
        (printInst (r.typeInfo i) i (info.args i) : Run R I σ n Unit)
        fun _ => .printing (i + 1) info := by
      unfold printInst
      split
      · rename_i hnone
        exact Proceeds.last (.noPrint hnone)
      · rename_i print hsome
        apply Spec.bind (Proceeds.record (.print (by rw [hsome]; rfl)))
        intro _
        exact Proceeds.runPlain _
    exact Spec.bind hprint fun _ => ih (i + 1) i.isLt hrest

theorem Proceeds.counterexampleHook (info : TrialPostInfo I n) :
    Proceeds r (.reporting info) v
      (counterexampleHook r (v.counterexampleInfo r info.args) : Run R I σ n _)
      (Stage.afterCounterexample info) := by
  unfold Theft.counterexampleHook
  split
  · rename_i hnone
    apply In.before (.noCounterexample hnone)
    apply Spec.bind (Proceeds.printArgs _ 0 (Nat.zero_le n) rfl)
    intro _
    exact Proceeds.last .allPrinted
  · rename_i hook hsome
    exact Proceeds.ask fun _ _ _ hres => .counterexample hsome hres

/-- The failure is run again in the stage that the answer of the hook led to. What the hook was
told may already say that it was run again. -/
theorem Proceeds.repeatFailure (info : TrialPostInfo I n) (fuel : Nat) :
    ∀ (told : TrialPostInfo I n) (res : HookTrialPostRes),
      { told with repeat_ := true } = { info with repeat_ := true } →
      Proceeds r (.afterTrialPost told (.failure false) res) v
        (repeatFailure r info fuel res : Run R I σ n _) fun res => .ended (stepRes res) := by
  induction fuel with
  | zero =>
    intro told res _
    cases res with
    | cont => exact Proceeds.ret rfl
    | error => exact Proceeds.ret rfl
    | repeat_ => exact Proceeds.stop
    | repeatOnce => exact Proceeds.stop
  | succ fuel ih =>
    intro told res htold
    have hargs : told.args = info.args := by
      have h := congrArg TrialPostInfo.args htold
      exact h
    have again : Proceeds r (.again told) v
        (Theft.repeatFailure r info (fuel + 1) .repeat_ : Run R I σ n HookTrialPostRes)
        fun res => .ended (stepRes res) := by
      have hcall : Proceeds r (.again told) v (Theft.call r info.args true : Run R I σ n TrialRes)
          (Stage.afterAgain told) :=
        Proceeds.call fun _ _ _ _ hres => hargs ▸ .callAgain (hargs ▸ hres)
      apply Spec.bind hcall
      intro res
      cases res with
      | fail =>
        dsimp only [Stage.afterAgain]
        rw [htold]
        apply Spec.bind (Proceeds.trialPostHook { info with repeat_ := true } (.failure true))
        intro answer
        cases answer with
        | repeatOnce => exact Proceeds.ret rfl
        | repeat_ => exact ih _ .repeat_ rfl
        | cont => exact ih _ .cont rfl
        | error => exact ih _ .error rfl
      | pass => exact Proceeds.ret rfl
      | error => exact Proceeds.ret rfl
      | skip => exact Proceeds.ret rfl
      | dup => exact Proceeds.ret rfl
    cases res with
    | cont => exact Proceeds.ret rfl
    | error => exact Proceeds.ret rfl
    | repeat_ => exact again
    | repeatOnce => exact again

theorem Proceeds.reportOnFailure (fuel : Nat) (info : TrialPostInfo I n) :
    Proceeds r (.reporting info) v (reportOnFailure fuel r info : Run R I σ n _)
      fun res => .ended (stepRes res) := by
  apply Proceeds.read
  rintro s rfl
  apply Spec.bind (Proceeds.counterexampleHook info)
  intro answer
  cases answer with
  | error => exact Proceeds.ret rfl
  | cont =>
    apply Spec.bind (Proceeds.trialPostHook info (.failure false))
    intro res
    exact Proceeds.repeatFailure info fuel info res rfl

/-- The run is in a stage of a trial with this number. -/
def Through (r : Runner I σ n) (trial : Nat) (stage : Stage I n) (s : RunState R I σ n) : Prop :=
  ∃ v, v.trial = trial ∧ In r stage v s

omit [Platform R] in
theorem Proceeds.through {m : Run R I σ n α} {q : α → Stage I n} {trial : Nat}
    (hv : v.trial = trial) (h : Proceeds r p v m q) :
    Spec (In r p v) m (fun a => Through r trial (q a)) (Off r) :=
  h.mono (fun _ hs => hs) (fun _ _ ht => ⟨v, hv, ht⟩) fun _ _ ht => ht

/-- How a trial ends whose hook answered -/
theorem Proceeds.postTrial {info : TrialPostInfo I n} {trial : Nat} (hv : v.trial = trial) :
    Spec (In r (.posting info .trial) v) (do
        let pres ← Theft.trialPostHook r info
        return stepRes pres : Run R I σ n RunStepRes)
      (fun res => Through r trial (.ended res)) (Off r) := by
  refine Spec.bind (Proceeds.trialPostHook info .trial) fun answer =>
    Proceeds.through hv (Proceeds.ret ?_)
  cases answer <;> rfl

/-- The result of a trial and the answer of its hook, as `run_step` sees them -/
def trialStepRes (res : Bool × HookTrialPostRes) : RunStepRes :=
  if res.1 then stepRes res.2 else .trialError

/-- **What the first call comes to.** -/
theorem judgeTrial_through (fuel : Nat) (res : TrialRes) :
    Spec (In r (.judged res) v) (judgeTrial fuel r (v.calledInfo r res) : Run R I σ n _)
      (fun res => Through r v.trial (.ended (trialStepRes res))) (Off r) := by
  have hmore : ∀ answer, stepRes answer = trialStepRes (decide (answer ≠ .error), answer) := by
    intro answer
    cases answer <;> rfl
  have counted : ∀ {v' : View I n} {info : TrialPostInfo I n}, v'.trial = v.trial →
      Spec (In r (.posting info .trial) v') (do
          let tpres ← Theft.trialPostHook r info
          return (decide (tpres ≠ .error), tpres) : Run R I σ n (Bool × HookTrialPostRes))
        (fun res => Through r v.trial (.ended (trialStepRes res))) (Off r) := by
    intro v' info hv'
    refine Spec.bind (Proceeds.trialPostHook info .trial) fun answer =>
      Proceeds.through hv' (Proceeds.ret ?_)
    cases answer <;> rfl
  have erred : ∀ {v' : View I n} {info : TrialPostInfo I n}, v'.trial = v.trial →
      Spec (In r (.posting info (.nothing .trialError)) v') (do
          let tpres ← Theft.trialPostHook r info
          return (false, tpres) : Run R I σ n (Bool × HookTrialPostRes))
        (fun res => Through r v.trial (.ended (trialStepRes res))) (Off r) :=
    fun hv' => Spec.bind (Proceeds.trialPostHook _ _) fun answer =>
      Proceeds.through hv' (Proceeds.ret rfl)
  cases res with
  | pass =>
    refine Spec.bind (In.change (fun _ => rfl) ?_ .passed) fun _ => counted rfl
    rintro s rfl
    rfl
  | skip =>
    refine Spec.bind (In.change (fun _ => rfl) ?_ .skipped) fun _ => counted rfl
    rintro s rfl
    rfl
  | dup => exact In.before (.erred (.inl rfl)) (erred rfl)
  | error => exact In.before (.erred (.inr rfl)) (erred rfl)
  | fail =>
    have hself : v.Sibling v := ⟨rfl, rfl, rfl⟩
    refine In.before .failed (Spec.bind ((Shrinks.shrink fuel).run hself) fun done => ?_)
    rintro s ⟨v', hv', hs⟩
    revert s
    have hfail : { v.calledInfo r .fail with args := v'.args } = v'.calledInfo r .fail := by
      simp only [View.calledInfo, hv'.trial, hv'.seed]
    have hlost : ({ v.calledInfo r .fail with result := .error, args := fun _ => none } :
        TrialPostInfo I n) = { v'.calledInfo r .error with args := fun _ => none } := by
      simp only [View.calledInfo, hv'.trial, hv'.seed]
    dsimp only at hfail hlost
    cases done with
    | true =>
      refine Spec.bind (In.change (fun _ => rfl) ?_ .report) fun _ => ?_
      · rintro s rfl
        rfl
      apply Proceeds.read
      intro s hs
      have hargs : s.trial.getArgs = v'.args := congrArg View.args hs
      dsimp only
      rw [hargs, hfail]
      refine Spec.bind (Proceeds.reportOnFailure fuel (v'.calledInfo r .fail)) fun tpres =>
        Proceeds.through hv'.trial (Proceeds.ret ?_)
      exact congrArg Stage.ended (hmore tpres).symm
    | false =>
      refine In.before .lost ?_
      dsimp only
      rw [hlost]
      exact erred hv'.trial

theorem trialRun_through (fuel : Nat) :
    Spec (In r .running v) (trialRun fuel r : Run R I σ n _)
      (fun res => Through r v.trial (.ended (trialStepRes res))) (Off r) := by
  have hrequire : Proceeds r .running v (require (0 < n) .assertion : Run R I σ n Unit)
      fun _ => .running := by
    unfold Exec.require
    split
    · exact Proceeds.ret rfl
    · exact Proceeds.stop
  apply Spec.bind hrequire
  intro _
  apply Spec.bind Proceeds.markTrial
  intro _
  apply Proceeds.read
  rintro s rfl
  apply Spec.bind (Proceeds.call fun _ _ _ _ hres => .call hres)
  intro res
  exact judgeTrial_through fuel res

/-! ## Steps of the run -/

theorem Proceeds.trialPreHook : Proceeds r (.generated .ok) v
    (trialPreHook r v.trial v.seed : Run R I σ n _) Stage.afterTrialPre := by
  apply Proceeds.read
  rintro s rfl
  exact Proceeds.askHook SilentStep.noTrialPre fun f u h => .trialPre h rfl

theorem runGenerated_through (fuel : Nat) (gres : AllGenRes) :
    Spec (In r (.generated gres) v) (runGenerated fuel r v.trial v.seed gres : Run R I σ n _)
      (fun res => Through r v.trial (.ended res)) (Off r) := by
  apply Proceeds.read
  rintro s hs
  have hargs : s.trial.getArgs = v.args := congrArg View.args hs
  have hcounters : s.counters = v.counters := congrArg View.counters hs
  dsimp only
  rw [hargs, hcounters]
  cases gres with
  | skip =>
    refine Spec.bind (In.change (fun _ => rfl) ?_ .genSkip) fun _ => Proceeds.postTrial rfl
    rintro s rfl
    rfl
  | dup =>
    refine Spec.bind (In.change (fun _ => rfl) ?_ .genDup) fun _ => Proceeds.postTrial rfl
    rintro s rfl
    rfl
  | error =>
    refine In.before .genError (Spec.bind (Proceeds.trialPostHook _ _) fun answer => ?_)
    exact Proceeds.through rfl (Proceeds.ret rfl)
  | ok =>
    apply Spec.bind Proceeds.trialPreHook
    intro answer
    cases answer with
    | halt => exact Proceeds.through rfl (Proceeds.ret rfl)
    | error => exact Proceeds.through rfl (Proceeds.ret rfl)
    | cont =>
      apply Spec.bind (trialRun_through fuel)
      intro res
      exact Spec.pure fun _ h => h

theorem Proceeds.genArgsPreHook : Proceeds r .begun v (genArgsPreHook r : Run R I σ n _)
    Stage.afterGenArgsPre := by
  apply Proceeds.read
  rintro s rfl
  exact Proceeds.askHook SilentStep.noGenArgsPre fun f u h => .genArgsPre h rfl

theorem Proceeds.allocBasic (argI : Fin n) (alloc : σ → Gen (AllocRes × Option I × σ)) :
    Proceeds r (.generating argI) v (allocBasic argI alloc : Run R I σ n _)
      fun x => .afterAlloc argI x.2 x.1 :=
  Proceeds.ask fun _ _ _ _ => .alloc

/-- What `alloc` returned is lost only as an error. -/
theorem autoshrinkAlloc_uncalled {β : Type} {alloc : Gen (AllocRes × β)} :
    Yields (autoshrinkAlloc alloc : Auto R _) fun x => x.2 = none → x.1 = .error := by
  unfold autoshrinkAlloc
  apply Yields.after
  intro s
  split
  · exact Yields.pure fun _ => rfl
  · refine Yields.after fun _ => Yields.after ?_
    rintro ⟨⟨ares, res⟩, pool⟩
    exact Yields.after fun _ => Yields.pure nofun

theorem Proceeds.allocAutoshrink {argI : Fin n}
    (henable : (r.typeInfo argI).autoshrinkConfig.enable = true) :
    Proceeds r (.generating argI) v (allocAutoshrink r argI : Run R I σ n _)
      fun x => .afterAlloc argI x.2 x.1 := by
  apply Proceeds.read
  intro s hs
  dsimp only
  split
  · exact Proceeds.stop
  · rename_i env _
    have hzoom := (Proceeds.unseen (r := r) (p := .generating argI) (v := v)
      (Unseen.zoomEnv (R := R) (σ := σ) argI env
        (autoshrinkAlloc ((r.typeInfo argI).alloc s.user)))).also
      (F := fun x _ => x.2 = none → x.1 = .error) fun s x t _ hrun => by
        unfold Theft.zoomEnv Exec.zoom at hrun
        split at hrun
        · rename_i x' t' hinner
          cases hrun
          exact autoshrinkAlloc_uncalled.returned hinner
        · cases hrun
    apply Spec.bind hzoom
    rintro ⟨ares, res⟩
    cases res with
    | none =>
      refine Spec.pure fun t ht => ?_
      obtain rfl : ares = .error := ht.2 rfl
      exact ht.1.silent (.noMemory henable)
    | some res =>
      obtain ⟨inst, user⟩ := res
      refine Spec.mono (In.exchanged .alloc ?_) (fun _ h => h.1) (fun _ _ h => h)
        fun _ _ h => h
      refine Spec.bind (Proceeds.unseen (Effect.modify fun _ => ⟨rfl, rfl⟩)) fun _ => ?_
      exact Proceeds.ret rfl

theorem Proceeds.genArg (argI : Fin n) : Proceeds r (.generating argI) v
    (genArg r argI : Run R I σ n _) fun x => .afterAlloc argI x.2 x.1 := by
  unfold Theft.genArg
  split
  · rename_i henable
    exact Proceeds.allocAutoshrink henable
  · exact Proceeds.allocBasic argI _

/-- The arguments from one on are generated. -/
theorem Shrinks.genAllArgs (is : List (Fin n)) : ∀ argI, argI ≤ n →
    is = (List.finRange n).drop argI → Shrinks r v₀ (.generating argI)
      (genAllArgs r is : Run R I σ n AllGenRes) Stage.generated := by
  induction is with
  | nil =>
    intro argI hle his
    obtain rfl := drop_finRange_nil hle his
    apply Shrinks.of_in
    intro v hv
    apply Proceeds.read
    intro s hs
    split
    · apply In.before .hashGenerated
      apply Spec.bind Proceeds.callCheckCalled
      intro called
      split
      · exact Proceeds.within hv (Proceeds.last .duplicate)
      · exact Proceeds.within hv (Proceeds.last .original)
    · exact Proceeds.within hv (Proceeds.last .allGenerated)
  | cons i is ih =>
    intro argI hle his
    obtain ⟨rfl, hrest⟩ := drop_finRange_cons his
    apply Shrinks.of_in
    intro v hv
    apply Spec.bind (Proceeds.genArg i)
    rintro ⟨ares, inst⟩
    cases ares with
    | skip => exact Proceeds.within hv (Proceeds.ret rfl)
    | error => exact Proceeds.within hv (Proceeds.ret rfl)
    | ok =>
      apply Spec.bind (In.setInst .nextArg)
      intro _
      exact (ih (i + 1) i.isLt hrest).run (hv.setArg i inst)

theorem Proceeds.freeArg (res : RunStepRes) (argI : Fin n) : Proceeds r (.releasing argI res) v
    (freeArg r argI : Run R I σ n Unit) fun _ => .releasing (argI + 1) res := by
  apply Proceeds.read
  intro s hs
  have hinst : (s.trial.args argI).inst = v.args argI := by
    rw [← hs]
    rfl
  apply Spec.bind (Proceeds.unseen (Unseen.of_freeing (Freeing.freeEnvIf _)))
  intro _
  rw [hinst]
  split
  · rename_i harg
    unfold freeInst freeWith
    split
    · rename_i hnone
      exact Proceeds.last (.noRelease (.inl hnone))
    · rename_i free hsome
      apply Spec.bind (Proceeds.record (.release (by rw [hsome]; rfl) harg))
      intro _
      exact Proceeds.runPlain _
  · rename_i hnot
    exact Proceeds.last (.noRelease (.inr (Option.not_isSome_iff_eq_none.mp hnot)))

/-- The arguments from one on are freed. -/
theorem Proceeds.freeArgs (res : RunStepRes) (is : List (Fin n)) : ∀ argI, argI ≤ n →
    is = (List.finRange n).drop argI → Proceeds r (.releasing argI res) v
      (freeArgs r is : Run R I σ n Unit) fun _ => .releasing n res := by
  induction is with
  | nil =>
    intro argI hle his
    obtain rfl := drop_finRange_nil hle his
    exact Proceeds.ret rfl
  | cons i is ih =>
    intro argI hle his
    obtain ⟨rfl, hrest⟩ := drop_finRange_cons his
    exact Spec.bind (Proceeds.freeArg res i) fun _ => ih (i + 1) i.isLt hrest

omit [Platform R] in
/-- Without memory for an environment there is no trial. -/
theorem Proceeds.initArgInfo (is : List (Fin n)) : Proceeds r .begun v
    (initArgInfo r is : Run R I σ n Bool)
    fun equipped => if equipped then .begun else .freed .genError := by
  induction is with
  | nil => exact Proceeds.ret rfl
  | cons i is ih =>
    unfold Theft.initArgInfo
    split
    · rename_i henable
      apply Proceeds.read
      intro s hs
      split
      · have hequip : Proceeds r .begun v (modify fun s => s.equip r i : Run R I σ n PUnit)
            fun _ => .begun :=
          Proceeds.unseen (Effect.modify fun _ =>
            ⟨rfl, Unseen.view_modifyEnv i (fun _ => some _) rfl rfl⟩)
        exact Spec.bind hequip fun _ => ih
      · exact Proceeds.last (.noEnvironment henable)
    · exact ih

theorem stepFromHook_through (fuel : Nat) :
    Spec (In r .begun v) (stepFromHook fuel r v.trial v.seed : Run R I σ n _)
      (fun res => Through r v.trial (.freed res.1)) (Off r) := by
  apply Spec.bind Proceeds.genArgsPreHook
  intro answer
  cases answer with
  | halt => exact Proceeds.through rfl (Proceeds.ret rfl)
  | error => exact Proceeds.through rfl (Proceeds.ret rfl)
  | cont =>
    refine Spec.bind (Proceeds.unseen (Effect.modify fun _ => ⟨rfl, rfl⟩)) fun _ => ?_
    have hself : v.Sibling v := ⟨rfl, rfl, rfl⟩
    apply Spec.bind ((Shrinks.genAllArgs (List.finRange n) 0 (Nat.zero_le n) rfl).run hself)
    intro gres
    rintro s ⟨v', hv', hs⟩
    revert s
    have hrun := runGenerated_through (R := R) (r := r) (v := v') fuel gres
    rw [hv'.trial, hv'.seed] at hrun
    refine Spec.bind hrun fun res => ?_
    rintro s ⟨v'', hv'', hs⟩
    revert s
    apply Spec.bind (Proceeds.unseen (Unseen.of_asked (Asked.nextSeed res _)))
    intro seed'
    apply In.before .release
    apply Spec.bind (Proceeds.freeArgs res _ 0 (Nat.zero_le n) rfl)
    intro _
    exact Proceeds.through hv'' (Proceeds.last .allReleased)

/-- **One step of the run.** -/
theorem runStep_through (fuel : Nat) {trial : Nat} {seed : Word} (htrial : trial < r.trialCount) :
    Spec (In r (.between trial seed) v) (runStep fuel r trial seed : Run R I σ n _)
      (fun res => Through r trial (.freed res.1)) (Off r) := by
  have hstart : Spec (In r (.between trial seed) v)
      (modifyTrial fun _ => .start trial (stepSeed r trial seed) : Run R I σ n Unit)
      (fun _ => In r .begun (v.start trial (stepSeed r trial seed))) (Off r) := by
    refine In.change (fun _ => rfl) ?_ (.trial htrial)
    rintro s rfl
    rfl
  apply Spec.bind hstart
  intro _
  apply Spec.bind (Proceeds.initArgInfo _)
  intro equipped
  cases equipped with
  | false => exact Proceeds.through rfl (Proceeds.ret rfl)
  | true => exact stepFromHook_through fuel

/-! ## The run -/

/-- The run is in a stage. -/
def Reaches (r : Runner I σ n) (stage : Stage I n) (s : RunState R I σ n) : Prop :=
  ∃ v, In r stage v s

omit [Platform R] in
theorem Proceeds.reaches {m : Run R I σ n α} {q : α → Stage I n} (h : Proceeds r p v m q) :
    Spec (In r p v) m (fun a => Reaches r (q a)) (Off r) :=
  h.mono (fun _ hs => hs) (fun _ _ ht => ⟨v, ht⟩) fun _ _ ht => ht

theorem runLoop_reaches (fuel left : Nat) : ∀ trial seed, trial + left = r.trialCount →
    Spec (Reaches r (.between trial seed)) (runLoop fuel r left trial seed : Run R I σ n Bool)
      (fun more => Reaches r (if more then .closing else .finished .error)) (Off r) := by
  induction left with
  | zero =>
    rintro trial seed htrial s ⟨v, hs⟩
    rw [Nat.add_zero] at htrial
    rw [htrial] at hs
    exact ⟨v, hs.silent .lastTrial⟩
  | succ left ih =>
    rintro trial seed htrial s ⟨v, hs⟩
    revert s
    apply Spec.bind (runStep_through fuel (by omega))
    rintro ⟨res, seed'⟩
    rintro s ⟨v', hv', hs⟩
    revert s
    have hclear : ∀ {q : Stage I n}, SilentStep r (.freed res, v') (q, v'.start 0 0) →
        Spec (In r (.freed res) v') (modifyTrial fun _ => .start 0 0 : Run R I σ n Unit)
          (fun _ => In r q (v'.start 0 0)) (Off r) := by
      intro q hstep
      refine In.change (fun _ => rfl) ?_ hstep
      rintro s rfl
      rfl
    cases res with
    | ok =>
      have hstep : SilentStep r (.freed .ok, v') (.between (trial + 1) seed', v'.start 0 0) :=
        hv' ▸ .nextTrial
      refine Spec.bind (hclear hstep) fun _ => ?_
      exact (ih (trial + 1) seed' (by omega)).mono (fun s hs => ⟨_, hs⟩) (fun _ _ h => h)
        fun _ _ h => h
    | halt => exact Spec.bind (hclear .halt) fun _ => Proceeds.reaches (Proceeds.ret rfl)
    | genError =>
      exact Spec.bind (hclear (.stop (.inl rfl))) fun _ => Proceeds.reaches (Proceeds.ret rfl)
    | trialError =>
      exact Spec.bind (hclear (.stop (.inr rfl))) fun _ => Proceeds.reaches (Proceeds.ret rfl)

theorem Proceeds.runPreHook : Proceeds r .start v (runPreHook r : Run R I σ n _)
    (Stage.afterRunPre r.runSeed) :=
  Proceeds.askHook SilentStep.noRunPre fun _ _ h => .runPre h rfl

theorem Proceeds.runPostHook : Proceeds r .closing v (runPostHook r : Run R I σ n _)
    (Stage.afterRunPost v.counters) := by
  apply Proceeds.read
  rintro s rfl
  exact Proceeds.askHook SilentStep.noRunPost fun f u h => .runPost h rfl

theorem runTrials_reaches (fuel : Nat) : Spec (In r .start v) (runTrials fuel r : Run R I σ n _)
    (fun res => Reaches r (.finished res)) (Off r) := by
  apply Spec.bind Proceeds.runPreHook
  intro answer
  cases answer with
  | error => exact Proceeds.reaches (Proceeds.ret rfl)
  | cont =>
    have hloop := runLoop_reaches (R := R) (r := r) fuel r.trialCount 0 r.runSeed (Nat.zero_add _)
    refine Spec.bind (hloop.mono (fun s hs => ⟨v, hs⟩) (fun _ _ h => h) fun _ _ h => h)
      fun more => ?_
    cases more with
    | false => exact Spec.pure fun _ h => h
    | true =>
      rintro s ⟨v', hs⟩
      revert s
      apply Spec.bind Proceeds.runPostHook
      intro answer
      cases answer with
      | error => exact Proceeds.reaches (Proceeds.ret rfl)
      | cont =>
        apply Proceeds.read
        rintro s rfl
        exact Proceeds.reaches (Proceeds.ret rfl)

section
variable {memory : Memory} {cfg : Config I σ n} {user : σ} {s₀ : RunState R I σ n}

theorem runInit_in (hinit : runInit memory cfg user = some (r, s₀)) : In r .start .initial s₀ := by
  have hstarted := runInit_started hinit
  have hview : s₀.view = .initial := by
    unfold RunState.view
    rw [hstarted.counters, hstarted.trial]
    rfl
  exact ⟨hview, (congrArg (fun trace => Admits (protocol r) trace _) hstarted.trace).mpr .start⟩

/-- The events of a run, wherever it stops -/
theorem runTrials_follows (hinit : runInit memory cfg user = some (r, s₀)) (fuel : Nat) :
    Follows (protocol r) (final (runTrials fuel r) s₀).trace := by
  have hrun := runTrials_reaches (R := R) (r := r) (v := .initial) fuel
  refine hrun.final (fun res t ht => ?_) (fun _ _ h => h) (runInit_in hinit)
  obtain ⟨v, ht⟩ := ht
  exact ht.follows

/-- The events of a run that returns -/
theorem runTrials_admits (hinit : runInit memory cfg user = some (r, s₀)) {fuel : Nat}
    {res : RunRes} {t : RunState R I σ n} (hres : runTrials fuel r s₀ = .ok res t) :
    Admits (protocol r) t.trace (.finished res, t.view) := by
  have hrun := runTrials_reaches (R := R) (r := r) (v := .initial) fuel
  obtain ⟨v, ht⟩ := hrun.returned (runInit_in hinit) hres
  obtain ⟨rfl, hadmits⟩ := ht
  exact hadmits

/-- **Every run keeps to the protocol of the callbacks.** When it returns, its events lead to the
end with its result; where it stops, they follow the protocol up to there. -/
theorem runTrials_protocol (hinit : runInit memory cfg user = some (r, s₀)) (fuel : Nat) :
    Follows (protocol r) (final (runTrials fuel r) s₀).trace ∧
    ∀ res t, runTrials fuel r s₀ = .ok res t →
      Admits (protocol r) t.trace (.finished res, t.view) :=
  ⟨runTrials_follows hinit fuel, fun _ _ hres => runTrials_admits hinit hres⟩

end

end

/-! ## A run that shrinks -/

/-- A number that is a counter-example from 3 on and is shrunk from 5, with hooks that stop the run
after a failure. -/
def countdown : Config Nat Unit 1 where
  name := none
  prop := some fun args u => .ret (if (args 0).any (3 ≤ ·) then .fail else .pass, u)
  typeInfo _ :=
    { alloc := fun u => .ret (.ok, some 5, u)
      free := none
      hash := none
      print := none
      shrink := some fun inst tactic u =>
        .ret (if tactic = 0 then .ok else .noMoreTactics, inst.map (· - 1), u)
      autoshrinkConfig := ⟨false, 0, ⟨false, false, false⟩, 0⟩ }
  trials := 3
  seed := 1
  alwaysSeeds := []
  hooks := { runPre := none, runPost := none, genArgsPre := none
             trialPre := some fun info u => (if 0 < info.failures then .halt else .cont, u)
             trialPost := none, counterexample := none
             shrinkPre := some fun _ u => (.cont, u)
             shrinkPost := none, shrinkTrialPost := none }

/-- A call of `shrink_pre` after two successes and a failure -/
def Event.toldThree : Event Nat 1 → Bool
  | .shrinkPre info => decide (info.shrinkCount = 3 ∧ info.successfulShrinks = 2)
  | _ => false

theorem countdown_run : ∃ r s₀ t, runInit ⟨false, granted, granted⟩ countdown () = some (r, s₀) ∧
    runTrials 9 r s₀ = .ok .fail (t : RunState Nat Nat Unit 1) ∧ t.counters.fail = 1 ∧
    t.trace.any Event.toldThree = true := by
  have hrun : (runInit (R := Nat) ⟨false, granted, granted⟩ countdown ()).any (fun a =>
      passes (fun res t => decide (res = .fail ∧ t.counters.fail = 1 ∧
        t.trace.any Event.toldThree = true)) (runTrials 9 a.1 a.2)) = true := by decide +kernel
  obtain ⟨⟨r, s₀⟩, hinit, hpass⟩ := (Option.any_eq_true _ _).mp hrun
  obtain ⟨res, t, hres, hpass⟩ := of_passes hpass
  obtain ⟨rfl, hfacts⟩ := of_decide_eq_true hpass
  exact ⟨r, s₀, t, hinit, hres, hfacts⟩

theorem countdown_protocol : ∃ r s₀ t,
    runInit ⟨false, granted, granted⟩ countdown () = some (r, s₀) ∧
    runTrials 9 r s₀ = .ok .fail (t : RunState Nat Nat Unit 1) ∧
    Admits (protocol r) t.trace (.finished .fail, t.view) := by
  obtain ⟨r, s₀, t, hinit, hrun, -⟩ := countdown_run
  exact ⟨r, s₀, t, hinit, hrun, (runTrials_protocol hinit 9).2 .fail t hrun⟩

end Theft
