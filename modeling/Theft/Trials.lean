import Theft.RunFrames

/-!
# The trials of a run

* `TrialAt`: a trial is about to start, with its number and the seed carried to it;
* `Finished`: no trial is left, because there were enough or because a hook halted the run;
* `runTrials_cases`, `runTrials_stopped`: how a run ends.

What holds of every trial of every run is proved from one step of the run.
-/

namespace Theft

open PackedBits Exec

section
variable {R I σ : Type} {n : Nat} [Platform R]

/-- The state after a step of the run, with the trial wiped. -/
def RunState.wiped (s : RunState R I σ n) : RunState R I σ n := { s with trial := .start 0 0 }

/-- Trial `k` is about to start, with the seed from the trials before. -/
inductive TrialAt (fuel : Nat) (r : Runner I σ n) (s₀ : RunState R I σ n) :
    Nat → Word → RunState R I σ n → Prop where
  | first {s} : runPreHook r s₀ = .ok .cont s → TrialAt fuel r s₀ 0 r.runSeed s
  | next {k seed seed' s t} : TrialAt fuel r s₀ k seed s → k < r.trialCount →
      runStep fuel r k seed s = .ok (.ok, seed') t → TrialAt fuel r s₀ (k + 1) seed' t.wiped

/-- The run came to its end after `k` trials. -/
inductive Finished (fuel : Nat) (r : Runner I σ n) (s₀ : RunState R I σ n) :
    Nat → RunState R I σ n → Prop where
  | all {seed s} : TrialAt fuel r s₀ r.trialCount seed s → Finished fuel r s₀ r.trialCount s
  | halted {k seed seed' s t} : TrialAt fuel r s₀ k seed s → k < r.trialCount →
      runStep fuel r k seed s = .ok (.halt, seed') t → Finished fuel r s₀ k t.wiped

/-- A step that ended in an error ends the run. -/
structure StepError (fuel : Nat) (r : Runner I σ n) (s₀ t : RunState R I σ n) : Prop where
  step : ∃ k seed seed' s res u, TrialAt fuel r s₀ k seed s ∧ k < r.trialCount ∧
    runStep fuel r k seed s = .ok (res, seed') u ∧ (res = .genError ∨ res = .trialError) ∧
    t = u.wiped

/-- What `theft_run_trials` answers after its trials. -/
def runRes (counters : RunReport) : HookRunPostRes → RunRes
  | .error => .error
  | .cont => if 0 < counters.fail then .fail else if 0 < counters.pass then .pass else .skip

variable {fuel : Nat} {r : Runner I σ n} {s₀ : RunState R I σ n}

/-- The loop over the trials, from any of them on. -/
theorem runLoop_cases (left : Nat) : ∀ {k : Nat} {seed : Word} {s t : RunState R I σ n} {more : Bool},
    TrialAt fuel r s₀ k seed s → k + left = r.trialCount →
    runLoop fuel r left k seed s = .ok more t →
    (more = true ∧ ∃ k, Finished fuel r s₀ k t) ∨ (more = false ∧ StepError fuel r s₀ t) := by
  induction left with
  | zero =>
    intro k seed s t more hs hk hrun
    cases hrun
    refine .inl ⟨rfl, r.trialCount, .all (?_ : TrialAt fuel r s₀ r.trialCount seed s)⟩
    rw [← hk]
    exact hs
  | succ left ih =>
    intro k seed s t more hs hk hrun
    obtain ⟨⟨res, seed'⟩, u, hstep, hrest⟩ := bind_eq_ok.mp hrun
    have hlt : k < r.trialCount := by omega
    cases res with
    | ok => exact ih (.next hs hlt hstep) (by omega) hrest
    | halt =>
      cases hrest
      exact .inl ⟨rfl, k, .halted hs hlt hstep⟩
    | genError =>
      cases hrest
      exact .inr ⟨rfl, k, seed, seed', s, _, u, hs, hlt, hstep, .inl rfl, rfl⟩
    | trialError =>
      cases hrest
      exact .inr ⟨rfl, k, seed, seed', s, _, u, hs, hlt, hstep, .inr rfl, rfl⟩

/-- **How a run returns.** -/
theorem runTrials_cases {res : RunRes} {t : RunState R I σ n}
    (h : runTrials fuel r s₀ = .ok res t) :
    (res = .error ∧ (runPreHook r s₀ = .ok .error t ∨ StepError fuel r s₀ t)) ∨
    ∃ k s answer, Finished fuel r s₀ k s ∧ runPostHook r s = .ok answer t ∧
      res = runRes t.counters answer := by
  obtain ⟨pre, s, hpre, hrest⟩ := bind_eq_ok.mp h
  cases pre with
  | error =>
    cases hrest
    exact .inl ⟨rfl, .inl hpre⟩
  | cont =>
    obtain ⟨more, u, hloop, hrest⟩ := bind_eq_ok.mp hrest
    obtain ⟨rfl, k, hfinished⟩ | ⟨rfl, herror⟩ :=
      runLoop_cases r.trialCount (.first hpre) (Nat.zero_add _) hloop
    · obtain ⟨answer, v, hpost, hrest⟩ := bind_eq_ok.mp hrest
      right
      cases answer with
      | error =>
        cases hrest
        exact ⟨k, u, .error, hfinished, hpost, rfl⟩
      | cont =>
        cases hrest
        exact ⟨k, u, .cont, hfinished, hpost, rfl⟩
    · cases hrest
      exact .inl ⟨rfl, .inr herror⟩

/-- The hooks of the run always answer. -/
theorem askHook_ok {Info Res : Type} (hook : Option (Info → σ → Res × σ)) (info : Info) (dflt : Res)
    (event : Event I n) (answer : Res → Event I n) (s : RunState R I σ n) :
    ∃ a t, askHook hook info dflt event answer s = .ok a t := by
  cases hook with
  | none => exact ⟨dflt, s, rfl⟩
  | some hook => exact ⟨_, _, rfl⟩

theorem runLoop_stopped (left : Nat) : ∀ {k : Nat} {seed : Word} {s t : RunState R I σ n} {e : Stop},
    TrialAt fuel r s₀ k seed s → k + left = r.trialCount →
    runLoop fuel r left k seed s = .error e t →
    ∃ k seed s, TrialAt fuel r s₀ k seed s ∧ k < r.trialCount ∧
      runStep fuel r k seed s = .error e t := by
  induction left with
  | zero =>
    intro k seed s t e _ _ hrun
    cases hrun
  | succ left ih =>
    intro k seed s t e hs hk hrun
    have hlt : k < r.trialCount := by omega
    rw [runLoop, bind_apply] at hrun
    cases hstep : runStep fuel r k seed s with
    | error e' u =>
      rw [hstep] at hrun
      cases hrun
      exact ⟨k, seed, s, hs, hlt, hstep⟩
    | ok a u =>
      obtain ⟨res, seed'⟩ := a
      rw [hstep] at hrun
      cases res with
      | ok => exact ih (.next hs hlt hstep) (by omega) hrun
      | halt => cases hrun
      | genError => cases hrun
      | trialError => cases hrun

/-- **A run stops in one of its trials only.** -/
theorem runTrials_stopped {e : Stop} {t : RunState R I σ n}
    (h : runTrials fuel r s₀ = .error e t) :
    ∃ k seed s, TrialAt fuel r s₀ k seed s ∧ k < r.trialCount ∧
      runStep fuel r k seed s = .error e t := by
  obtain ⟨pre, s, hpre⟩ : ∃ a t, runPreHook r s₀ = .ok a t := askHook_ok _ _ _ _ _ _
  rw [runTrials, bind_apply, hpre] at h
  cases pre with
  | error => cases h
  | cont =>
    dsimp only at h
    rw [bind_apply] at h
    cases hloop : runLoop fuel r r.trialCount 0 r.runSeed s with
    | error e' u =>
      rw [hloop] at h
      cases h
      exact runLoop_stopped r.trialCount (.first hpre) (Nat.zero_add _) hloop
    | ok more u =>
      rw [hloop] at h
      cases more with
      | false => cases h
      | true =>
        obtain ⟨answer, v, hpost⟩ : ∃ a t, runPostHook r u = .ok a t := askHook_ok _ _ _ _ _ _
        simp only [if_true, bind_apply, hpost] at h
        cases answer <;> cases h

/-! ## The events of a run -/

/-- An event that a trial of the run added to the trace. -/
def InTrial (fuel : Nat) (r : Runner I σ n) (s₀ : RunState R I σ n) (e : Event I n) : Prop :=
  ∃ k seed s new, TrialAt fuel r s₀ k seed s ∧ k < r.trialCount ∧
    (final (runStep fuel r k seed) s).trace = new ++ s.trace ∧ e ∈ new

theorem runLoop_event {e : Event I n} (left : Nat) : ∀ {k : Nat} {seed : Word}
    {s : RunState R I σ n}, TrialAt fuel r s₀ k seed s → k + left = r.trialCount →
    e ∈ (final (runLoop fuel r left k seed) s).trace → e ∈ s.trace ∨ InTrial fuel r s₀ e := by
  induction left with
  | zero =>
    intro k seed s _ _ he
    exact .inl he
  | succ left ih =>
    intro k seed s hs hk he
    have hlt : k < r.trialCount := by omega
    obtain ⟨new, htrace, -⟩ := (Onward.runStep (fun _ h => h) fuel r k seed).change s |>.trace
    have split : e ∈ (final (runStep fuel r k seed) s).trace → e ∈ s.trace ∨ InTrial fuel r s₀ e := by
      intro he
      rw [htrace] at he
      obtain he | he := List.mem_append.mp he
      · exact .inr ⟨k, seed, s, new, hs, hlt, htrace, he⟩
      · exact .inl he
    unfold final at split
    unfold final runLoop at he
    rw [bind_apply] at he
    cases hstep : runStep fuel r k seed s with
    | error _ u =>
      rw [hstep] at he split
      exact split he
    | ok a u =>
      rw [hstep] at he split
      obtain ⟨res, seed'⟩ := a
      cases res with
      | ok =>
        obtain he | hin := ih (.next hs hlt hstep) (by omega) he
        · exact split he
        · exact .inr hin
      | halt => exact split he
      | genError => exact split he
      | trialError => exact split he

/-- **Whatever is called between the two hooks of the run is called in one of its trials.** -/
theorem runTrials_event {e : Event I n} (he : e ∈ (final (runTrials fuel r) s₀).trace)
    (hpre : e.kind ≠ .runPre) (hpost : e.kind ≠ .runPost) :
    e ∈ s₀.trace ∨ InTrial fuel r s₀ e := by
  have hpres : ∀ {α : Type} {m : Run R I σ n α} {K : List EventKind} {s : RunState R I σ n},
      Effect (Asked K) m → e.kind ∉ K → e ∈ (final m s).trace → e ∈ s.trace := by
    intro α m K s hm hK he
    obtain ⟨new, htrace, hnew⟩ := (hm.change s).trace
    rw [htrace] at he
    exact (List.mem_append.mp he).resolve_left fun he => hK (hnew e he)
  have hrunPre : ∀ {t : RunState R I σ n} {a}, runPreHook r s₀ = .ok a t → e ∈ t.trace →
      e ∈ s₀.trace := by
    intro t a hrun het
    apply hpres (Asked.runPreHook (K := [.runPre]) (by decide) r)
    · rw [List.mem_singleton]
      exact hpre
    · rw [final, hrun]
      exact het
  obtain ⟨pre, s, hrun⟩ : ∃ a t, runPreHook r s₀ = .ok a t := askHook_ok _ _ _ _ _ _
  rw [final, runTrials, bind_apply, hrun] at he
  cases pre with
  | error => exact .inl (hrunPre hrun he)
  | cont =>
    have hloop : ∀ {t : RunState R I σ n}, e ∈ t.trace →
        t.trace = (final (runLoop fuel r r.trialCount 0 r.runSeed) s).trace →
        e ∈ s₀.trace ∨ InTrial fuel r s₀ e := by
      intro t het ht
      rw [ht] at het
      obtain hes | hin := runLoop_event r.trialCount (.first hrun) (Nat.zero_add _) het
      · exact .inl (hrunPre hrun hes)
      · exact .inr hin
    dsimp only at he
    rw [bind_apply] at he
    unfold final at hloop
    cases hres : runLoop fuel r r.trialCount 0 r.runSeed s with
    | error _ u =>
      rw [hres] at he hloop
      exact hloop he rfl
    | ok more u =>
      rw [hres] at he hloop
      cases more with
      | false => exact hloop he rfl
      | true =>
        obtain ⟨answer, v, hrunPost⟩ : ∃ a t, runPostHook r u = .ok a t :=
          askHook_ok _ _ _ _ _ _
        have heu : e ∈ v.trace → e ∈ u.trace := by
          intro hev
          apply hpres (Asked.runPostHook (K := [.runPost]) (by decide) r)
          · rw [List.mem_singleton]
            exact hpost
          · rw [final, hrunPost]
            exact hev
        simp only [if_true, bind_apply, hrunPost] at he
        cases answer with
        | error => exact hloop (heu he) rfl
        | cont => exact hloop (heu he) rfl

/-! ## What is set up before the first trial -/

/-- What `theft_run_init` makes of a configuration it accepts. -/
structure Started (memory : Memory) (cfg : Config I σ n) (user : σ) (r : Runner I σ n)
    (s₀ : RunState R I σ n) : Prop where
  arity : n ≠ 0
  checked : checkAllArgs cfg.typeInfo = true
  propFun : cfg.prop = some r.propFun
  name : r.name = cfg.name
  trialCount : r.trialCount = if cfg.trials = 0 then defTrials else cfg.trials
  typeInfo : r.typeInfo = cfg.typeInfo
  runSeed : r.runSeed = if cfg.seed ≠ 0 then cfg.seed else defaultSeed
  alwaysSeeds : r.alwaysSeeds = cfg.alwaysSeeds
  hooks : r.hooks = cfg.hooks
  filterMemory : r.filterMemory = memory.filter
  envMemory : r.envMemory = memory.env
  bloom : s₀.bloom =
    if allHashable cfg.typeInfo && memory.table then some (bloomInit none) else none
  prng : s₀.prng = Prng.setSeed ⟨Platform.rngReset defaultSeed, 0, 0, none⟩ r.runSeed
  ledger : s₀.ledger = ⟨0, []⟩
  counters : s₀.counters = ⟨0, 0, 0, 0⟩
  trial : s₀.trial = .start 0 0
  user : s₀.user = user
  trace : s₀.trace = []

theorem runInit_started {memory : Memory} {cfg : Config I σ n} {user : σ}
    (h : runInit memory cfg user = some (r, s₀)) : Started memory cfg user r s₀ := by
  unfold runInit at h
  split at h
  · cases h
  · rename_i hn
    split at h
    · rename_i hchecked
      split at h
      · cases h
      · rename_i propFun hprop
        cases h
        exact ⟨hn, hchecked, hprop, rfl, rfl, rfl, rfl, rfl, rfl, rfl, rfl, rfl, rfl, rfl,
          rfl, rfl, rfl, rfl⟩
    · cases h

/-- The hook before the run changes neither the filter nor the counters. -/
theorem runPre_asked {answer : HookRunPreRes} {s : RunState R I σ n}
    (h : runPreHook r s₀ = .ok answer s) : Asked [.runPre] s₀ s :=
  Effect.of_returned (Asked.runPreHook (by decide) r) h

end

end Theft
