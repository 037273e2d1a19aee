import Theft.Accounting
import Theft.Weights

/-!
# Weights over whole runs

`weights_bounded`: whatever the callbacks do, no weight of an argument leaves its bounds.
-/

namespace Theft

open PackedBits Exec

section
variable {R I σ : Type} {n : Nat} {α : Type}

/-- The models of these arguments are sound. -/
def SoundModels (args : Fin n → ArgInfo I) : Prop :=
  ∀ i env, (args i).env = some env → env.model.Sound

/-- The models are sound, and were in every call of the property. -/
structure SoundRun (s : RunState R I σ n) : Prop where
  args : SoundModels s.trial.args
  calls : ∀ args held rerun, Event.call args held rerun ∈ s.trace → SoundModels held

theorem SoundModels.modifyArg {t : TrialInfo I n} (h : SoundModels t.args) {argI : Fin n}
    {f : ArgInfo I → ArgInfo I}
    (hf : ∀ a, (∀ env, a.env = some env → env.model.Sound) →
      ∀ env, (f a).env = some env → env.model.Sound) :
    SoundModels (t.modifyArg argI f).args := by
  intro i
  dsimp only [TrialInfo.modifyArg, update]
  split
  · exact hf _ (h argI)
  · exact h i

theorem SoundModels.none {args : Fin n → ArgInfo I} (h : ∀ i, (args i).env = none) :
    SoundModels args := by
  intro i env henv
  rw [h i] at henv
  cases henv

/-- A change of the trial and of what is not looked at -/
theorem SoundRun.of_trial {s t : RunState R I σ n} (htrace : t.trace = s.trace)
    (h : SoundModels s.trial.args → SoundModels t.trial.args) : Keeping SoundRun s t :=
  fun hs => ⟨h hs.args, htrace ▸ hs.calls⟩

/-- The program keeps the models sound. -/
abbrev Sounding (m : Run R I σ n α) : Prop := Effect (Keeping SoundRun) m

/-! ## Steps -/

namespace Sounding

theorem freeing {K : List EventKind} (hK : .call ∉ K) {m : Run R I σ n α}
    (h : Effect (Freeing K) m) : Sounding m := by
  refine h.mono fun s t hst hs => ⟨by rw [hst.trial]; exact hs.args, ?_⟩
  obtain ⟨new, htrace, hnew⟩ := hst.trace
  intro args held rerun hmem
  rw [htrace] at hmem
  obtain hmem | hmem := List.mem_append.mp hmem
  · exact absurd (hnew _ hmem) hK
  · exact hs.calls args held rerun hmem

theorem asked {K : List EventKind} (hK : .call ∉ K) {m : Run R I σ n α}
    (h : Effect (Asked K) m) : Sounding m := freeing hK (Asked.toFreeing h)

theorem modifyTrial {f : TrialInfo I n → TrialInfo I n}
    (hf : ∀ t, SoundModels t.args → SoundModels (f t).args) :
    Sounding (modifyTrial f : Run R I σ n Unit) :=
  .modify fun s => .of_trial rfl (hf s.trial)

theorem modifyCounters (f : RunReport → RunReport) :
    Sounding (modifyCounters f : Run R I σ n Unit) := .modify fun _ => .of_trial rfl id

theorem setInst (argI : Fin n) (inst : Option I) :
    Sounding (setInst argI inst : Run R I σ n Unit) :=
  modifyTrial fun _ h => h.modifyArg fun _ ha => ha

/-- The environment changed, but not its model -/
theorem setPool (argI : Fin n) (pool : Option BitPool) :
    Sounding (setPool argI pool : Run R I σ n Unit) := by
  refine modifyTrial fun t h => h.modifyArg fun a ha env henv => ?_
  obtain ⟨env', henv', rfl⟩ := Option.map_eq_some_iff.mp henv
  exact ha env' henv'

theorem autoshrinkUpdateModel (r : Runner I σ n) (argI : Fin n) (res : TrialRes)
    {adjustment : Byte} (hpos : 0 < adjustment.toNat) (hsmall : adjustment.toNat ≤ 8) :
    Sounding (autoshrinkUpdateModel r argI res adjustment : Run R I σ n Unit) := by
  refine Steady.ifAutoshrink r argI (modifyTrial fun t h => h.modifyArg fun a ha env henv => ?_)
  obtain ⟨env', henv', rfl⟩ := Option.map_eq_some_iff.mp henv
  exact (ha env' henv').updateModel res hpos hsmall

theorem countShrink (r : Runner I σ n) (argI : Fin n) (res : TrialRes) (repeated : Bool) :
    Sounding (countShrink r argI res repeated : Run R I σ n Unit) := by
  unfold Theft.countShrink
  split
  · exact .pure _
  · split
    · exact .bind (modifyTrial fun _ => id) fun _ =>
        autoshrinkUpdateModel r argI res (by decide) (by decide)
    · exact modifyTrial fun _ => id

theorem revertPool (r : Runner I σ n) (argI : Fin n) (current candidate : Option BitPool) :
    Sounding (revertPool r argI current candidate : Run R I σ n Unit) :=
  Steady.ifAutoshrink r argI (.bind (setPool _ _) fun _ =>
    freeing (K := []) nofun (Freeing.freePoolPtr _))

/-- A step of autoshrinking keeps the model of its environment sound. -/
theorem zoomEnv {m : Auto R α} (hm : Effect (Keeping SoundModel) m) (argI : Fin n)
    {env : AutoshrinkEnv} {s : RunState R I σ n} (henv : (s.trial.args argI).env = some env) :
    Keeping SoundRun s (final (zoomEnv argI env m : Run R I σ n α) s) := by
  rw [Theft.zoomEnv, final_zoom]
  refine .of_trial rfl fun hs => hs.modifyArg fun a ha env' henv' => ?_
  cases henv'
  apply hm.change
  dsimp only [SoundModel]
  rw [henv]
  exact hs argI env henv

/-- What is recorded when `alloc` was run by a step of autoshrinking -/
theorem recordAlloc (argI : Fin n) (ares : AllocRes) (inst : Option I) (user : σ) (a : α) :
    Sounding (do
      record (.alloc argI)
      record (.allocated ares inst)
      modify fun s => { s with user := user }
      return a : Run R I σ n α) := by
  apply Effect.bind (asked (K := [.alloc]) (by decide) (Asked.record List.mem_cons_self))
  intro _
  apply Effect.bind (asked (K := [.alloc]) (by decide) (Asked.record List.mem_cons_self))
  intro _
  refine .bind (.modify fun _ => .of_trial rfl id) fun _ => ?_
  exact .pure _

variable [Platform R]

/-- A call is recorded with the arguments of the trial. -/
theorem call (r : Runner I σ n) (args : Args I n) (rerun : Bool) :
    Sounding (call r args rerun : Run R I σ n TrialRes) := by
  constructor
  intro s hs
  have called (answers : List (Event I n)) (hanswers : ∀ e ∈ answers, ∃ res, e = .returned res)
      (p : Prng R) (u : σ) : SoundRun { s with
        prng := p, user := u, trace := answers ++ .call args s.trial.args rerun :: s.trace } := by
    refine ⟨hs.args, fun args' held rerun' hmem => ?_⟩
    obtain hmem | hmem := List.mem_append.mp hmem
    · obtain ⟨res, hres⟩ := hanswers _ hmem
      cases hres
    · obtain heq | hmem := List.mem_cons.mp hmem
      · cases heq
        exact hs.args
      · exact hs.calls args' held rerun' hmem
  unfold Theft.call
  rw [final_get_bind, final]
  obtain ⟨res, u, p, -, hask⟩ | ⟨e, p, -, hask⟩ :=
    ask_cases (.call args s.trial.args rerun) .returned (r.propFun args) s
  · rw [hask]
    exact called [.returned res] (fun e he => ⟨res, List.mem_singleton.mp he⟩) p u
  · rw [hask]
    exact called [] (fun _ he => absurd he List.not_mem_nil) p s.user

theorem getArgHashBuffer (r : Runner I σ n) (is : List (Fin n)) :
    Sounding (getArgHashBuffer r is : Run R I σ n _) :=
  asked (K := [.hash]) (by decide) (Asked.getArgHashBuffer List.mem_cons_self r is)

theorem callMarkCalled (r : Runner I σ n) : Sounding (callMarkCalled r : Run R I σ n Unit) := by
  apply Effect.bind (getArgHashBuffer r _)
  intro buffer
  apply Effect.bind Effect.get
  intro s
  cases s.bloom with
  | none => exact .throw _
  | some bloom => exact .bind (.attempt _) fun _ => .modify fun _ => .of_trial rfl id

theorem callCheckCalled (r : Runner I σ n) : Sounding (callCheckCalled r : Run R I σ n Bool) :=
  asked (K := [.hash]) (by decide) (Asked.callCheckCalled List.mem_cons_self r)

theorem skipCalled (r : Runner I σ n) : Sounding (skipCalled r : Run R I σ n Bool) := by
  refine .bind .get fun s => ?_
  split
  · refine .bind (callCheckCalled r) fun called => ?_
    split
    · exact .pure _
    · exact .bind (callMarkCalled r) fun _ => .pure _
  · exact .pure _

theorem freeInst (r : Runner I σ n) (argI : Fin n) (inst : Option I) :
    Sounding (freeInst r argI inst : Run R I σ n Unit) :=
  asked (K := [.free]) (by decide) (Asked.freeInst List.mem_cons_self r argI inst)

omit [Platform R] in
theorem freePoolIf (pool : Option BitPool) : Sounding (freePoolIf pool : Run R I σ n Unit) :=
  freeing (K := []) nofun (Freeing.freePoolIf pool)

omit [Platform R] in
theorem ifFreePool (r : Runner I σ n) (argI : Fin n) (pool : Option BitPool) :
    Sounding (ifAutoshrink r argI (freePoolPtr pool) : Run R I σ n Unit) :=
  Steady.ifAutoshrink r argI (freeing (K := []) nofun (Freeing.freePoolPtr pool))

/-! ## Shrinking -/

theorem autoshrinkCandidate (fuel : Nat) (r : Runner I σ n) (argI : Fin n) (tactic : Nat) :
    Sounding (autoshrinkCandidate fuel r argI tactic : Run R I σ n _) := by
  constructor
  intro s
  unfold Theft.autoshrinkCandidate
  rw [final_get_bind]
  cases henv : (s.trial.args argI).env with
  | none => exact id
  | some env =>
    refine Effect.bind_at (zoomEnv (autoshrinkShrink_sound _ _ _) argI henv) fun a => ?_
    obtain ⟨sres, res, pool⟩ := a
    cases res with
    | none => exact .pure _
    | some res => exact recordAlloc argI _ _ _ _

theorem userCandidate (r : Runner I σ n) (argI : Fin n) (current : Option I) (tactic : Nat) :
    Sounding (userCandidate r argI current tactic : Run R I σ n _) := by
  unfold Theft.userCandidate
  cases (r.typeInfo argI).shrink with
  | none => exact .throw _
  | some shrink =>
    have hK : EventKind.shrink ∈ [EventKind.shrink] := List.mem_cons_self
    exact .bind (asked (by decide) (Asked.ask hK (fun _ => hK) _)) fun _ => .pure _

theorem shrinkTrials (r : Runner I σ n) (argI : Fin n) (tactic fuel : Nat) : ∀ repeated,
    Sounding (shrinkTrials r argI tactic fuel repeated : Run R I σ n _) := by
  induction fuel with
  | zero => exact fun _ => .throw _
  | succ fuel ih =>
    intro repeated
    apply Effect.bind Effect.get
    intro s
    apply Effect.bind (call r _ repeated)
    intro res
    apply Effect.bind (countShrink r argI res repeated)
    intro _
    apply Effect.bind (asked (K := [.shrinkTrialPost]) (by decide)
      (Asked.shrinkTrialPostHook List.mem_cons_self r argI _ tactic res))
    intro stpres
    cases stpres with
    | repeat_ => exact ih true
    | repeatOnce =>
      dsimp only
      split
      · exact .pure _
      · exact ih true
    | cont => exact .pure _
    | error => exact .pure _

theorem judgeCandidate (r : Runner I σ n) (argI : Fin n) (current candidate : Option I)
    (currentPool candidatePool : Option BitPool) (res : TrialRes) : Sounding
      (judgeCandidate r argI current candidate currentPool candidatePool res : Run R I σ n _) := by
  refine .bind (autoshrinkUpdateModel r argI res (by decide) (by decide)) fun _ => ?_
  have revert : Sounding (do
      Theft.setInst argI current
      Theft.revertPool r argI currentPool candidatePool
      Theft.freeInst r argI candidate
      return none : Run R I σ n (Option AttemptRes)) := by
    apply Effect.bind (setInst argI current)
    intro _
    apply Effect.bind (revertPool r argI _ _)
    intro _
    apply Effect.bind (freeInst r argI _)
    intro _
    exact .pure _
  have fail : Sounding (do
      Theft.freeInst r argI current
      ifAutoshrink r argI (freePoolPtr currentPool)
      return some .error : Run R I σ n (Option AttemptRes)) := by
    apply Effect.bind (freeInst r argI _)
    intro _
    apply Effect.bind (ifFreePool r argI _)
    intro _
    exact .pure _
  cases res with
  | pass => exact revert
  | skip => exact revert
  | fail =>
    apply Effect.bind (ifFreePool r argI _)
    intro _
    apply Effect.bind (freeInst r argI _)
    intro _
    exact .pure _
  | dup => exact fail
  | error => exact fail

theorem tryCandidate (fuel : Nat) (r : Runner I σ n) (argI : Fin n) (tactic : Nat)
    (current candidate : Option I) (currentPool candidatePool : Option BitPool) : Sounding
      (tryCandidate fuel r argI tactic current candidate currentPool candidatePool :
        Run R I σ n _) := by
  apply Effect.bind (setInst argI candidate)
  intro _
  apply Effect.bind (Steady.ifAutoshrink r argI (setPool argI _))
  intro _
  apply Effect.bind (skipCalled r)
  intro called
  split
  · apply Effect.bind (freeInst r argI candidate)
    intro _
    apply Effect.bind (revertPool r argI _ _)
    intro _
    apply Effect.bind (setInst argI current)
    intro _
    exact .pure _
  · refine .bind (shrinkTrials r argI tactic fuel false) fun res => ?_
    cases res with
    | some res => exact judgeCandidate r argI current candidate currentPool candidatePool res
    | none =>
      apply Effect.bind (freeInst r argI current)
      intro _
      apply Effect.bind (Steady.ifAutoshrink r argI (freePoolIf currentPool))
      intro _
      exact .pure _

theorem attemptTactic (fuel : Nat) (r : Runner I σ n) (argI : Fin n) (tactic : Nat) :
    Sounding (attemptTactic fuel r argI tactic : Run R I σ n _) := by
  apply Effect.bind Effect.get
  intro s
  apply Effect.bind (asked (K := [.shrinkPre]) (by decide)
    (Asked.shrinkPreHook List.mem_cons_self r argI _ tactic))
  intro answer
  cases answer with
  | halt => exact .pure _
  | error => exact .pure _
  | cont =>
    refine .bind ?_ fun a => ?_
    · split
      · exact autoshrinkCandidate fuel r argI tactic
      · exact userCandidate r argI _ tactic
    · obtain ⟨sres, candidate, candidatePool⟩ := a
      refine .bind (.bind .get fun _ => .pure _) fun pool => ?_
      refine .bind (modifyTrial fun _ => id) fun _ => ?_
      apply Effect.bind (asked (K := [.shrinkPost]) (by decide)
        (Asked.shrinkPostHook List.mem_cons_self r argI _ tactic sres))
      intro answer
      cases answer with
      | error =>
        apply Effect.bind (freeInst r argI candidate)
        intro _
        apply Effect.bind (freePoolIf candidatePool)
        intro _
        exact .pure _
      | cont =>
        cases sres with
        | ok => exact tryCandidate fuel r argI tactic _ candidate pool candidatePool
        | deadEnd => exact .pure _
        | noMoreTactics => exact .pure _
        | error => exact .pure _

theorem attemptTactics (fuel : Nat) (r : Runner I σ n) (argI : Fin n) (left : Nat) : ∀ tactic,
    Sounding (attemptTactics fuel r argI left tactic : Run R I σ n _) := by
  induction left with
  | zero => exact fun _ => .pure _
  | succ left ih =>
    intro tactic
    refine .bind (attemptTactic fuel r argI tactic) fun res => ?_
    cases res with
    | some res => exact .pure _
    | none => exact ih (tactic + 1)

theorem shrinkFrom (inner : Nat) (r : Runner I σ n) (fuel : Nat) : ∀ argI progress,
    Sounding (shrinkFrom inner r fuel argI progress : Run R I σ n Bool) := by
  induction fuel with
  | zero => exact fun _ _ => .throw _
  | succ fuel ih =>
    intro argI progress
    unfold Theft.shrinkFrom
    split
    · split
      · refine .bind (attemptTactics inner r _ maxTactics 0) fun res => ?_
        cases res with
        | ok => exact ih argI true
        | halt => exact .pure _
        | deadEnd => exact ih (argI + 1) progress
        | error => exact .pure _
      · exact ih (argI + 1) progress
    · split
      · exact ih 0 false
      · exact .pure _

theorem shrink (fuel : Nat) (r : Runner I σ n) : Sounding (shrink fuel r : Run R I σ n Bool) :=
  .bind .require fun _ => shrinkFrom fuel r fuel 0 false

/-! ## Trials -/

theorem trialPostHook (r : Runner I σ n) (info : TrialPostInfo I n) :
    Sounding (trialPostHook r info : Run R I σ n _) :=
  asked (K := [.trialPost]) (by decide) (Asked.trialPostHook List.mem_cons_self r info)

theorem reportOnFailure (fuel : Nat) (r : Runner I σ n) (info : TrialPostInfo I n) :
    Sounding (reportOnFailure fuel r info : Run R I σ n _) := by
  apply Effect.bind Effect.get
  intro s
  apply Effect.bind (asked (K := [.counterexample, .print]) (by decide)
    (Asked.counterexampleHook (by decide) r _))
  intro answer
  cases answer with
  | error => exact .pure _
  | cont =>
    exact .bind (trialPostHook r info) fun res => repeatFailure_induct (P := Sounding)
      (fun _ => .pure _) (.throw _) (fun k _ hk => .bind (call r info.args true) hk)
      (fun k _ hk => .bind (trialPostHook r _) hk) fuel res

theorem judgeTrial (fuel : Nat) (r : Runner I σ n) (info : TrialPostInfo I n) :
    Sounding (judgeTrial fuel r info : Run R I σ n _) := by
  unfold Theft.judgeTrial
  cases info.result with
  | pass =>
    apply Effect.bind (modifyCounters _)
    intro _
    apply Effect.bind (trialPostHook r info)
    intro _
    exact .pure _
  | fail =>
    refine .bind (shrink fuel r) fun shrunk => ?_
    split
    · apply Effect.bind (modifyCounters _)
      intro _
      apply Effect.bind Effect.get
      intro s
      apply Effect.bind (reportOnFailure fuel r _)
      intro _
      exact .pure _
    · exact .bind (trialPostHook r _) fun _ => .pure _
  | skip =>
    apply Effect.bind (modifyCounters _)
    intro _
    apply Effect.bind (trialPostHook r info)
    intro _
    exact .pure _
  | dup => exact .bind (trialPostHook r info) fun _ => .pure _
  | error => exact .bind (trialPostHook r info) fun _ => .pure _

theorem markTrial (r : Runner I σ n) : Sounding (markTrial r : Run R I σ n Unit) := by
  apply Effect.bind Effect.get
  intro s
  split
  · exact callMarkCalled r
  · exact .pure _

theorem trialRun (fuel : Nat) (r : Runner I σ n) : Sounding (trialRun fuel r : Run R I σ n _) := by
  apply Effect.bind Effect.require
  intro _
  apply Effect.bind (markTrial r)
  intro _
  apply Effect.bind Effect.get
  intro s
  apply Effect.bind (call r _ false)
  intro tres
  exact judgeTrial fuel r _

/-! ## Runs -/

omit [Platform R] in
/-- New environments have no weights yet. -/
theorem initArgInfo (r : Runner I σ n) (is : List (Fin n)) :
    Sounding (initArgInfo r is : Run R I σ n Bool) := by
  refine initArgInfo_effect (fun s i => .of_trial rfl fun hs => ?_) is
  refine hs.modifyArg fun a _ env henv => ?_
  cases henv
  exact .zero

theorem genArg (r : Runner I σ n) (argI : Fin n) : Sounding (genArg r argI : Run R I σ n _) := by
  unfold Theft.genArg
  split
  · constructor
    intro s
    unfold allocAutoshrink
    rw [final_get_bind]
    cases henv : (s.trial.args argI).env with
    | none => exact id
    | some env =>
      refine Effect.bind_at
        (zoomEnv (keeping_of_model (autoshrinkAlloc_model _)) argI henv) fun a => ?_
      obtain ⟨ares, res⟩ := a
      cases res with
      | none => exact .pure _
      | some res => exact recordAlloc argI _ _ _ _
  · have hK : EventKind.alloc ∈ [EventKind.alloc] := List.mem_cons_self
    exact asked (by decide) (Asked.ask hK (fun _ => hK) _)

theorem genAllArgs (r : Runner I σ n) (is : List (Fin n)) :
    Sounding (genAllArgs r is : Run R I σ n _) := by
  induction is with
  | nil =>
    refine .bind .get fun s => ?_
    split
    · refine .bind (callCheckCalled r) fun called => ?_
      split
      · exact .pure _
      · exact .pure _
    · exact .pure _
  | cons argI rest ih =>
    refine .bind (genArg r argI) fun res => ?_
    obtain ⟨ares, inst⟩ := res
    cases ares with
    | skip => exact .pure _
    | error => exact .pure _
    | ok => exact .bind (setInst argI inst) fun _ => ih

theorem runGenerated (fuel : Nat) (r : Runner I σ n) (trial : Nat) (seed : Word)
    (gres : AllGenRes) : Sounding (runGenerated fuel r trial seed gres : Run R I σ n _) := by
  refine .bind .get fun s => ?_
  cases gres with
  | skip =>
    apply Effect.bind (modifyCounters _)
    intro _
    apply Effect.bind (trialPostHook r _)
    intro _
    exact .pure _
  | dup =>
    apply Effect.bind (modifyCounters _)
    intro _
    apply Effect.bind (trialPostHook r _)
    intro _
    exact .pure _
  | error => exact .bind (trialPostHook r _) fun _ => .pure _
  | ok =>
    refine .bind (asked (K := [.trialPre]) (by decide)
      (Asked.trialPreHook List.mem_cons_self r trial seed)) fun answer => ?_
    cases answer with
    | halt => exact .pure _
    | error => exact .pure _
    | cont => exact .bind (trialRun fuel r) fun _ => .pure _

omit [Platform R] in
/-- A trial without environments -/
theorem startTrial (trial : Nat) (seed : Word) :
    Sounding (Theft.modifyTrial fun _ => .start trial seed : Run R I σ n Unit) :=
  modifyTrial fun _ _ => SoundModels.none fun _ => rfl

theorem stepFromHook (fuel : Nat) (r : Runner I σ n) (trial : Nat) (seed : Word) :
    Sounding (stepFromHook fuel r trial seed : Run R I σ n _) := by
  refine .bind (asked (K := [.genArgsPre]) (by decide) (Asked.genArgsPreHook List.mem_cons_self r))
    fun answer => ?_
  cases answer with
  | halt => exact .pure _
  | error => exact .pure _
  | cont =>
    refine .bind (.modify fun _ => .of_trial rfl id) fun _ => ?_
    apply Effect.bind (genAllArgs r _)
    intro gres
    apply Effect.bind (runGenerated fuel r trial _ gres)
    intro res
    refine .bind (asked (K := []) nofun (Asked.nextSeed res _)) fun _ => ?_
    apply Effect.bind (freeing (K := [.free]) (by decide) (Freeing.freeArgs List.mem_cons_self r _))
    intro _
    exact .pure _

theorem runStep (fuel : Nat) (r : Runner I σ n) (trial : Nat) (seed : Word) :
    Sounding (runStep fuel r trial seed : Run R I σ n _) := by
  apply Effect.bind (startTrial _ _)
  intro _
  apply Effect.bind (initArgInfo r _)
  intro equipped
  cases equipped with
  | false => exact .pure _
  | true => exact stepFromHook fuel r trial _

theorem runLoop (fuel : Nat) (r : Runner I σ n) (left : Nat) : ∀ trial seed,
    Sounding (runLoop fuel r left trial seed : Run R I σ n Bool) := by
  induction left with
  | zero => exact fun _ _ => .pure _
  | succ left ih =>
    intro trial seed
    apply Effect.bind (runStep fuel r trial seed)
    intro step
    apply Effect.bind (startTrial 0 0)
    intro _
    obtain ⟨res, seed⟩ := step
    cases res with
    | ok => exact ih (trial + 1) seed
    | halt => exact .pure _
    | genError => exact .pure _
    | trialError => exact .pure _

theorem runTrials (fuel : Nat) (r : Runner I σ n) :
    Sounding (runTrials fuel r : Run R I σ n RunRes) := by
  refine .bind (asked (K := [.runPre]) (by decide) (Asked.runPreHook List.mem_cons_self r))
    fun answer => ?_
  cases answer with
  | error => exact .pure _
  | cont =>
    refine .bind (runLoop fuel r _ 0 _) fun done => ?_
    split
    · refine .bind (asked (K := [.runPost]) (by decide) (Asked.runPostHook List.mem_cons_self r))
        fun answer => ?_
      cases answer with
      | error => exact .pure _
      | cont => exact .bind .get fun _ => .pure _
    · exact .pure _

end Sounding

/-- **No weight leaves its bounds.** In every run, at every call of the property and wherever the
run ends or stops, the weights of each autoshrunk argument are within their bounds, or none was set
because the argument was not shrunk yet. -/
theorem weights_bounded [Platform R] {memory : Memory} {cfg : Config I σ n} {user : σ}
    {r : Runner I σ n} {s₀ : RunState R I σ n} (hinit : runInit memory cfg user = some (r, s₀))
    (fuel : Nat) :
    SoundModels (final (runTrials fuel r) s₀).trial.args ∧
    ∀ args held rerun, Event.call args held rerun ∈ (final (runTrials fuel r) s₀).trace →
      SoundModels held := by
  have hstart := runInit_started hinit
  have hsound : SoundRun s₀ := by
    refine ⟨SoundModels.none fun i => ?_, fun args held rerun hmem => ?_⟩
    · rw [hstart.trial]
      rfl
    · rw [hstart.trace] at hmem
      cases hmem
  have h := (Sounding.runTrials fuel r).change s₀ hsound
  exact ⟨h.args, h.calls⟩

end

/-- One trial, whose number is a counter-example if it is 7 -/
def oneNotSeven : Config Word Unit 1 :=
  { anyThreeBits with prop := some fun args u => .ret (notSeven args, u), trials := 1 }

/-- A call of the property after the weights were set -/
def Event.weighed : Event Word 1 → Bool
  | .call _ held _ => (held 0).env.any fun env => decide (env.model.weights .drop ≠ 0)
  | _ => false

theorem oneNotSeven_bounded : ∃ r s₀ args held rerun,
    runInit ⟨false, granted, granted⟩ oneNotSeven () = some (r, (s₀ : RunState Nat Word Unit 1)) ∧
    Event.call args held rerun ∈ (final (runTrials 20 r) s₀).trace ∧
    ∃ env, (held 0).env = some env ∧ env.model.weights .drop ≠ 0 ∧ env.model.Sound := by
  have hrun : (runInit (R := Nat) ⟨false, granted, granted⟩ oneNotSeven ()).any (fun a =>
      (final (runTrials 20 a.1) a.2).trace.any Event.weighed) = true := by decide +kernel
  obtain ⟨⟨r, s₀⟩, hinit, hany⟩ := (Option.any_eq_true _ _).mp hrun
  obtain ⟨e, hmem, hweighed⟩ := List.any_eq_true.mp hany
  cases e with
  | call args held rerun =>
    obtain ⟨env, henv, hdrop⟩ := (Option.any_eq_true _ _).mp hweighed
    exact ⟨r, s₀, args, held, rerun, hinit, hmem, env, henv, of_decide_eq_true hdrop,
      (weights_bounded hinit 20).2 args held rerun hmem 0 env henv⟩
  | _ => cases hweighed

end Theft
