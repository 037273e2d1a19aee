import Theft.Genuine
import Theft.Trials

/-!
# Trials and their counters

* `step_counts`: a finished trial raises one counter by one, however it went, and a trial that a
  hook halts raises none;
* `trial_accounting`: the counters add up to the trials that finished, and decide the result.
-/

namespace Theft

open PackedBits Exec

/-- The trials that were counted. -/
def RunReport.total (c : RunReport) : Nat := c.pass + c.fail + c.skip + c.dup

/-- One counter is one more than before. -/
inductive Raised (c : RunReport) : RunReport → Prop where
  | pass : Raised c { c with pass := c.pass + 1 }
  | fail : Raised c { c with fail := c.fail + 1 }
  | skip : Raised c { c with skip := c.skip + 1 }
  | dup : Raised c { c with dup := c.dup + 1 }

theorem Raised.total {c c' : RunReport} (h : Raised c c') : c'.total = c.total + 1 := by
  cases h <;> simp only [RunReport.total] <;> omega

section
variable {R I σ : Type} {n : Nat} {α : Type}

/-- A hook answered that the run is to halt. -/
def HaltAnswered (trace : List (Event I n)) : Prop :=
  .genArgsPreRes .halt ∈ trace ∨ .trialPreRes .halt ∈ trace

/-- A hook's answer that the run is to halt. -/
def Event.halts : Event I n → Bool
  | .genArgsPreRes res => res = .halt
  | .trialPreRes res => res = .halt
  | _ => false

theorem haltAnswered_iff (trace : List (Event I n)) :
    HaltAnswered trace ↔ trace.any Event.halts = true := by
  rw [List.any_eq_true]
  constructor
  · rintro (h | h)
    · exact ⟨_, h, rfl⟩
    · exact ⟨_, h, rfl⟩
  · rintro ⟨e, he, hhalts⟩
    cases e with
    | genArgsPreRes res =>
      cases of_decide_eq_true hhalts
      exact .inl he
    | trialPreRes res =>
      cases of_decide_eq_true hhalts
      exact .inr he
    | _ => cases hhalts

instance (trace : List (Event I n)) : Decidable (HaltAnswered trace) :=
  decidable_of_iff _ (haltAnswered_iff trace).symm

/-- The counters are `c`, and no hook has halted the run. -/
structure Counted (c : RunReport) (s : RunState R I σ n) : Prop where
  counters : s.counters = c
  going : ¬ HaltAnswered s.trace

theorem Adds.haltAnswered {K : List EventKind} {s t : RunState R I σ n} (h : Adds K s t)
    (hgen : EventKind.genArgsPre ∉ K) (htrial : EventKind.trialPre ∉ K) :
    HaltAnswered t.trace ↔ HaltAnswered s.trace := by
  obtain ⟨new, htrace, hnew⟩ := h
  have hg : Event.genArgsPreRes .halt ∉ new := fun hmem => hgen (hnew _ hmem)
  have ht : Event.trialPreRes .halt ∉ new := fun hmem => htrial (hnew _ hmem)
  simp only [HaltAnswered, htrace, List.mem_append, hg, ht, false_or]

theorem Counted.adds {K : List EventKind} {c : RunReport} {s t : RunState R I σ n}
    (h : Counted c s) (hcounters : t.counters = s.counters) (hadds : Adds K s t)
    (hgen : EventKind.genArgsPre ∉ K) (htrial : EventKind.trialPre ∉ K) : Counted c t :=
  ⟨hcounters.trans h.counters, fun hhalt => h.going ((hadds.haltAnswered hgen htrial).mp hhalt)⟩

/-- A program that counts nothing and calls neither of the two hooks. -/
theorem counted_marking {m : Run R I σ n α} (h : Effect (Marking trialKinds) m) (c : RunReport) :
    Spec (Counted c) m (fun _ => Counted c) fun _ _ => True :=
  Spec.mono (h.keeps fun _ _ hs hst => hs.adds hst.same.counters hst.trace (by decide) (by decide))
    (fun _ h => h) (fun _ _ h => h) fun _ _ _ => trivial

theorem counted_modify {f : RunReport → RunReport} {c : RunReport} :
    Spec (Counted c) (modifyCounters f : Run R I σ n Unit) (fun _ => Counted (f c))
      fun _ _ => True :=
  Spec.modify fun _ hs => ⟨congrArg f hs.counters, hs.going⟩

variable [Platform R] {r : Runner I σ n}

theorem trialPostHook_counted (info : TrialPostInfo I n) (c : RunReport) :
    Spec (Counted c) (trialPostHook r info : Run R I σ n _) (fun _ => Counted c) fun _ _ => True :=
  counted_marking (Asked.toMarking (Asked.trialPostHook (by decide) r info)) c

/-- After its first call a trial raises one counter, unless it ends in an error. -/
theorem judgeTrial_counted (fuel : Nat) (info : TrialPostInfo I n) (c : RunReport) :
    Spec (Counted c) (judgeTrial fuel r info : Run R I σ n _)
      (fun a t => ∃ c', Counted c' t ∧ (a.1 = true → a.2 ≠ .error ∧ Raised c c'))
      fun _ _ => True := by
  -- after the counter was raised only the hooks are left
  have post : ∀ info c', Raised c c' → Spec (Counted c')
      (do
        let tpres ← trialPostHook r info
        return (decide (tpres ≠ .error), tpres) : Run R I σ n _)
      (fun a t => ∃ c', Counted c' t ∧ (a.1 = true → a.2 ≠ .error ∧ Raised c c'))
      fun _ _ => True := by
    intro info c' hraised
    apply Spec.bind (trialPostHook_counted info c')
    intro tpres
    exact Spec.pure fun t ht => ⟨c', ht, fun h => ⟨of_decide_eq_true h, hraised⟩⟩
  have failed : ∀ info, Spec (Counted c)
      (do
        let tpres ← trialPostHook r info
        return (false, tpres) : Run R I σ n _)
      (fun a t => ∃ c', Counted c' t ∧ (a.1 = true → a.2 ≠ .error ∧ Raised c c'))
      fun _ _ => True := by
    intro info
    apply Spec.bind (trialPostHook_counted info c)
    intro tpres
    exact Spec.pure fun t ht => ⟨c, ht, fun h => Bool.noConfusion h⟩
  unfold judgeTrial
  split
  · apply Spec.bind counted_modify
    intro _
    exact post _ _ .pass
  · apply Spec.bind (counted_marking (Marking.shrink (by decide) fuel r) c)
    intro shrunk
    cases shrunk with
    | false => exact failed _
    | true =>
      apply Spec.bind counted_modify
      intro _ s hs
      refine Spec.bind
        (counted_marking (Asked.toMarking (Asked.reportOnFailure (by decide) fuel r _)) _)
        (fun tpres => ?_) s hs
      exact Spec.pure fun t ht => ⟨_, ht, fun h => ⟨of_decide_eq_true h, .fail⟩⟩
  · apply Spec.bind counted_modify
    intro _
    exact post _ _ .skip
  · exact failed _
  · exact failed _

/-- A trial with generated arguments. -/
theorem trialRun_counted (fuel : Nat) (c : RunReport) :
    Spec (Counted c) (trialRun fuel r : Run R I σ n _)
      (fun a t => ∃ c', Counted c' t ∧ (a.1 = true → a.2 ≠ .error ∧ Raised c c'))
      fun _ _ => True := by
  apply Spec.bind (counted_marking Effect.require c)
  intro _
  apply Spec.bind (counted_marking (Marking.markTrial (by decide) r) c)
  intro _ s hs
  rw [bind_apply, get_apply]
  dsimp only
  refine Spec.bind (counted_marking (Asked.toMarking (Asked.call (by decide) r _ _)) c)
    (fun res => ?_) s hs
  exact judgeTrial_counted fuel _ c

/-- What a step leaves of the counters, and whether it halted the run. -/
structure StepCounts (c : RunReport) (res : RunStepRes) (t : RunState R I σ n) : Prop where
  raised : res = .ok → Raised c t.counters
  halted : res = .halt → t.counters = c
  answered : res = .halt ↔ HaltAnswered t.trace

omit [Platform R] in
theorem StepCounts.of_counted {c c' : RunReport} {res : RunStepRes} {t : RunState R I σ n}
    (h : Counted c' t) (hres : res ≠ .halt) (hraised : res = .ok → Raised c c') :
    StepCounts c res t where
  raised := by rw [h.counters]; exact hraised
  halted := fun hh => absurd hh hres
  answered := ⟨fun hh => absurd hh hres, fun hh => absurd hh h.going⟩

omit [Platform R] in
theorem StepCounts.asked {K : List EventKind} {c : RunReport} {res : RunStepRes}
    {s t : RunState R I σ n} (h : StepCounts c res s) (hcounters : t.counters = s.counters)
    (hadds : Adds K s t) (hgen : EventKind.genArgsPre ∉ K) (htrial : EventKind.trialPre ∉ K) :
    StepCounts c res t where
  raised := by rw [hcounters]; exact h.raised
  halted := by rw [hcounters]; exact h.halted
  answered := h.answered.trans (hadds.haltAnswered hgen htrial).symm

theorem stepRes_ne_halt (pres : HookTrialPostRes) : stepRes pres ≠ .halt := by
  unfold stepRes
  split <;> exact RunStepRes.noConfusion

/-- A hook that may halt the run: its answer is in the trace. -/
theorem askHook_answered {Info Res : Type} {hook : Option (Info → σ → Res × σ)} {info : Info}
    {dflt : Res} {event : Event I n} {answer : Res → Event I n} {s t : RunState R I σ n} {a : Res}
    (h : askHook hook info dflt event answer s = .ok a t) :
    t.counters = s.counters ∧
      (a = dflt ∧ t.trace = s.trace ∨ t.trace = answer a :: event :: s.trace) := by
  cases hook with
  | none =>
    cases h
    exact ⟨rfl, .inl ⟨rfl, rfl⟩⟩
  | some hook =>
    cases h
    exact ⟨rfl, .inr rfl⟩

/-- A hook that may halt the run, from a state that no hook has halted. -/
theorem askHook_counted {Info Res : Type} {hook : Option (Info → σ → Res × σ)} {info : Info}
    {dflt halt : Res} {event : Event I n} {answer : Res → Event I n} (hdflt : dflt ≠ halt)
    (hanswer : ∀ a trace, ¬ HaltAnswered trace →
      (a = halt ↔ HaltAnswered (answer a :: event :: trace))) (c : RunReport) :
    Spec (Counted c) (askHook hook info dflt event answer : Run R I σ n Res)
      (fun a t => t.counters = c ∧ (a = halt ↔ HaltAnswered t.trace)) fun _ _ => True := by
  intro s hs
  split
  · rename_i a t hrun
    obtain ⟨hcounters, ⟨rfl, htrace⟩ | htrace⟩ := askHook_answered hrun
    · rw [htrace]
      exact ⟨hcounters.trans hs.counters, fun h => absurd h hdflt, fun h => absurd h hs.going⟩
    · rw [htrace]
      exact ⟨hcounters.trans hs.counters, hanswer a s.trace hs.going⟩
  · trivial

theorem genArgsPreHook_counted (c : RunReport) :
    Spec (Counted c) (genArgsPreHook r : Run R I σ n _)
      (fun a t => t.counters = c ∧ (a = .halt ↔ HaltAnswered t.trace)) fun _ _ => True := by
  intro s hs
  refine askHook_counted (by decide) (fun a trace hgoing => ?_) c s hs
  simp only [HaltAnswered, not_or] at hgoing
  simp [HaltAnswered, hgoing, eq_comm]

theorem trialPreHook_counted (trial : Nat) (seed : Word) (c : RunReport) :
    Spec (Counted c) (trialPreHook r trial seed : Run R I σ n _)
      (fun a t => t.counters = c ∧ (a = .halt ↔ HaltAnswered t.trace)) fun _ _ => True := by
  intro s hs
  refine askHook_counted (by decide) (fun a trace hgoing => ?_) c s hs
  simp only [HaltAnswered, not_or] at hgoing
  simp [HaltAnswered, hgoing, eq_comm]

/-- The trial after its arguments were generated raises one counter, unless the run ends. -/
theorem runGenerated_counts (fuel : Nat) (trial : Nat) (seed : Word) (gres : AllGenRes)
    (c : RunReport) :
    Spec (Counted c) (runGenerated fuel r trial seed gres : Run R I σ n _)
      (fun res t => StepCounts c res t) fun _ _ => True := by
  have counted : ∀ info c' (res : HookTrialPostRes → RunStepRes), (∀ pres, res pres ≠ .halt) →
      (∀ pres, res pres = .ok → Raised c c') →
      Spec (Counted c')
        (do
          let pres ← trialPostHook r info
          return res pres : Run R I σ n RunStepRes)
        (fun res t => StepCounts c res t) fun _ _ => True := by
    intro info c' res hres hraised
    apply Spec.bind (trialPostHook_counted info c')
    intro pres
    exact Spec.pure fun t ht => .of_counted ht (hres pres) (hraised pres)
  intro s hs
  rw [runGenerated, bind_apply, get_apply]
  dsimp only
  cases gres with
  | skip =>
    refine Spec.bind counted_modify (fun _ => ?_) s hs
    exact counted _ _ stepRes stepRes_ne_halt fun _ _ => .skip
  | dup =>
    refine Spec.bind counted_modify (fun _ => ?_) s hs
    exact counted _ _ stepRes stepRes_ne_halt fun _ _ => .dup
  | error => exact counted _ c (fun _ => .genError) (fun _ => nofun) (fun _ => nofun) s hs
  | ok =>
    refine Spec.bind (trialPreHook_counted trial seed c) (fun answer => ?_) s hs
    rintro t ⟨hcounters, hanswer⟩
    cases answer with
    | halt => exact ⟨nofun, fun _ => hcounters, fun _ => hanswer.mp rfl, fun _ => rfl⟩
    | error => exact .of_counted ⟨hcounters, fun h => by cases hanswer.mpr h⟩ nofun nofun
    | cont =>
      have ht : Counted c t := ⟨hcounters, fun h => by cases hanswer.mpr h⟩
      refine Spec.bind (trialRun_counted fuel c) (fun a => ?_) t ht
      obtain ⟨more, pres⟩ := a
      rintro u ⟨c', hu, hraised⟩
      cases more with
      | false => exact .of_counted hu nofun nofun
      | true => exact .of_counted hu (stepRes_ne_halt pres) fun _ => (hraised rfl).2

omit [Platform R] in
theorem quiet_counted {α : Type} {m : Run R I σ n α} (c : RunReport)
    (h : Effect (Quiet trialKinds) m) : Spec (Counted c) m (fun _ => Counted c) fun _ _ => True :=
  counted_marking (Quiet.toMarking h) c

/-- A step from its hook on. -/
theorem stepFromHook_counts (fuel : Nat) (trial : Nat) (seed : Word) (c : RunReport) :
    Spec (Counted c) (stepFromHook fuel r trial seed : Run R I σ n _)
      (fun a t => StepCounts c a.1 t) fun _ _ => True := by
  apply Spec.bind (genArgsPreHook_counted c)
  intro answer t ht
  obtain ⟨hcounters, hanswer⟩ := ht
  cases answer with
  | halt => exact ⟨nofun, fun _ => hcounters, fun _ => hanswer.mp rfl, fun _ => rfl⟩
  | error => exact .of_counted ⟨hcounters, fun h => by cases hanswer.mpr h⟩ nofun nofun
  | cont =>
    have hgoing : ¬ HaltAnswered t.trace := fun h => by cases hanswer.mpr h
    have hseed : Spec (Counted c) (modify fun s : RunState R I σ n =>
        { s with prng := s.prng.setSeed seed }) (fun _ => Counted c)
        fun (_ : Stop) _ => True := Spec.modify fun s hs => ⟨hs.counters, hs.going⟩
    refine Spec.bind hseed (fun _ => ?_) t ⟨hcounters, hgoing⟩
    apply Spec.bind (quiet_counted c (Quiet.genAllArgs (by decide) r _))
    intro gres
    apply Spec.bind (runGenerated_counts fuel trial _ gres c)
    intro res
    have hnext : Effect (Asked trialKinds) (nextSeed res seed : Run R I σ n _) :=
      Asked.nextSeed res _
    apply Spec.bind (Spec.mono (hnext.keeps fun s u hs hu =>
      hs.asked hu.counters hu.trace (by decide) (by decide)) (fun _ h => h) (fun _ _ h => h)
        fun _ _ _ => trivial)
    intro seed'
    have hfree : Effect (Freeing trialKinds) (freeArgs r (List.finRange n) : Run R I σ n Unit) :=
      Freeing.freeArgs (by decide) r _
    apply Spec.bind (Spec.mono (hfree.keeps fun s u hs hu =>
      hs.asked hu.counters hu.trace (by decide) (by decide)) (fun _ h => h) (fun _ _ h => h)
        fun _ _ _ => trivial)
    intro _
    exact Spec.pure fun _ h => h

/-- **One step of the run counts one trial.** -/
theorem runStep_counts (fuel : Nat) (trial : Nat) (seed : Word) (c : RunReport) :
    Spec (Counted c) (runStep fuel r trial seed : Run R I σ n _)
      (fun a t => StepCounts c a.1 t) fun _ _ => True := by
  apply Spec.bind (Q := fun _ => Counted c) (Spec.modify fun s hs => ⟨hs.counters, hs.going⟩)
  intro _
  apply Spec.bind (quiet_counted c (Quiet.initArgInfo r _))
  intro equipped
  cases equipped with
  | false => exact Spec.pure fun s hs => .of_counted hs nofun nofun
  | true => exact stepFromHook_counts fuel trial _ c

omit [Platform R] in
theorem runRes_cont {c : RunReport} {res : RunRes} (h : res = runRes c .cont) :
    (res = .fail ↔ 0 < c.fail) ∧ (res = .pass ↔ c.fail = 0 ∧ 0 < c.pass) ∧
      (res = .skip ↔ c.fail = 0 ∧ c.pass = 0) := by
  simp only [runRes] at h
  split at h
  · rename_i hfail
    subst h
    have hne : c.fail ≠ 0 := Nat.ne_of_gt hfail
    simp [hfail, hne]
  · rename_i hfail
    have hzero : c.fail = 0 := by omega
    split at h
    · rename_i hpass
      subst h
      have hne : c.pass ≠ 0 := Nat.ne_of_gt hpass
      simp [hzero, hpass, hne]
    · rename_i hpass
      have hzero' : c.pass = 0 := by omega
      subst h
      simp [hzero, hzero']

/-! ## Every trial of a run -/

variable {memory : Memory} {cfg : Config I σ n} {user : σ} {s₀ : RunState R I σ n} {fuel : Nat}

/-- Before a trial, the ones before it are counted, and none of them halted the run. -/
theorem TrialAt.counted (hinit : runInit memory cfg user = some (r, s₀)) {k : Nat} {seed : Word}
    {s : RunState R I σ n} (h : TrialAt fuel r s₀ k seed s) :
    Counted s.counters s ∧ s.counters.total = k := by
  induction h with
  | @first s hpre =>
    have hasked := runPre_asked hpre
    have hstart := runInit_started hinit
    have hnone : ¬ HaltAnswered s.trace := by
      rw [hasked.trace.haltAnswered (by decide) (by decide), hstart.trace]
      rintro (h | h) <;> cases h
    refine ⟨⟨rfl, hnone⟩, ?_⟩
    rw [hasked.counters, hstart.counters]
    rfl
  | @next k seed seed' s t hs hlt hstep ih =>
    have hcounts := (runStep_counts fuel k seed s.counters).returned ih.1 hstep
    have hgoing : ¬ HaltAnswered t.trace := fun hh => by cases hcounts.answered.mpr hh
    exact ⟨⟨rfl, hgoing⟩, (hcounts.raised rfl).total.trans (congrArg (· + 1) ih.2)⟩

theorem Finished.counted (hinit : runInit memory cfg user = some (r, s₀)) {k : Nat}
    {s : RunState R I σ n} (h : Finished fuel r s₀ k s) :
    s.counters.total = k ∧
      (k = r.trialCount ∧ ¬ HaltAnswered s.trace ∨ k < r.trialCount ∧ HaltAnswered s.trace) := by
  cases h with
  | all hs =>
    obtain ⟨hcounted, htotal⟩ := hs.counted hinit
    exact ⟨htotal, .inl ⟨rfl, hcounted.going⟩⟩
  | @halted _ seed seed' s t hs hlt hstep =>
    obtain ⟨hcounted, htotal⟩ := hs.counted hinit
    have hcounts := (runStep_counts fuel k seed s.counters).returned hcounted hstep
    have hsame : t.wiped.counters = s.counters := hcounts.halted rfl
    exact ⟨by rw [hsame, htotal], .inr ⟨hlt, hcounts.answered.mp rfl⟩⟩

/-- **The trials of a run and its counters.** Each trial that finishes raises one counter by one;
`run_post` is reached after all trials, or right after the one that a hook halted, with the
counters adding up to those before it; and the counters decide what the run comes to. -/
theorem trial_accounting (hinit : runInit memory cfg user = some (r, s₀)) (fuel : Nat) :
    (∀ k seed s res seed' t, TrialAt fuel r s₀ k seed s →
      runStep fuel r k seed s = .ok (res, seed') t →
      s.counters.total = k ∧ ¬ HaltAnswered s.trace ∧ (res = .ok → Raised s.counters t.counters) ∧
        (res = .halt → t.counters = s.counters) ∧ (res = .halt ↔ HaltAnswered t.trace)) ∧
    ∀ res t, runTrials fuel r s₀ = .ok res t →
      (res = .error ∧ (runPreHook r s₀ = .ok .error t ∨ StepError fuel r s₀ t)) ∨
      ∃ k s answer, Finished fuel r s₀ k s ∧ runPostHook r s = .ok answer t ∧
        t.counters = s.counters ∧ t.counters.total = k ∧
        (k = r.trialCount ∧ ¬ HaltAnswered s.trace ∨ k < r.trialCount ∧ HaltAnswered s.trace) ∧
        (answer = .error → res = .error) ∧
        (answer = .cont →
          (res = .fail ↔ 0 < t.counters.fail) ∧
          (res = .pass ↔ t.counters.fail = 0 ∧ 0 < t.counters.pass) ∧
          (res = .skip ↔ t.counters.fail = 0 ∧ t.counters.pass = 0)) := by
  constructor
  · intro k seed s res seed' t hs hstep
    obtain ⟨hcounted, htotal⟩ := hs.counted hinit
    have hcounts := (runStep_counts fuel k seed s.counters).returned hcounted hstep
    exact ⟨htotal, hcounted.going, hcounts.raised, hcounts.halted, hcounts.answered⟩
  · intro res t hrun
    obtain herror | ⟨k, s, answer, hfinished, hpost, hres⟩ := runTrials_cases hrun
    · exact .inl herror
    · right
      have hasked : Asked [.runPost] s t := Effect.of_returned (Asked.runPostHook (by decide) r) hpost
      obtain ⟨htotal, hhalt⟩ := hfinished.counted hinit
      refine ⟨k, s, answer, hfinished, hpost, hasked.counters, ?_, hhalt, ?_, ?_⟩
      · rw [hasked.counters, htotal]
      · rintro rfl
        exact hres
      · rintro rfl
        exact runRes_cont hres

end

/-! ## Two trials that pass -/

/-- Three random bits, of which every value is accepted. -/
def anyThreeBits : Config Word Unit 1 where
  name := none
  prop := some fun _ u => .ret (.pass, u)
  typeInfo _ := threeBitsType
  trials := 2
  seed := 1
  alwaysSeeds := []
  hooks := ⟨none, none, none, none, none, none, none, none, none⟩

theorem anyThreeBits_run : ∃ r s₀ t,
    runInit ⟨false, granted, granted⟩ anyThreeBits () = some (r, s₀) ∧
    runTrials 1 r s₀ = .ok .pass (t : RunState Nat Word Unit 1) := by
  have hrun : (runInit (R := Nat) ⟨false, granted, granted⟩ anyThreeBits ()).any (fun a =>
      passes (fun res _ => decide (res = .pass)) (runTrials 1 a.1 a.2)) = true := by decide +kernel
  obtain ⟨⟨r, s₀⟩, hinit, hpass⟩ := (Option.any_eq_true _ _).mp hrun
  obtain ⟨res, t, hres, hpass⟩ := of_passes hpass
  rw [of_decide_eq_true hpass] at hres
  exact ⟨r, s₀, t, hinit, hres⟩

theorem trial_accounting_two : ∃ r s₀ t,
    runInit ⟨false, granted, granted⟩ anyThreeBits () = some (r, s₀) ∧
    runTrials 1 r s₀ = .ok .pass (t : RunState Nat Word Unit 1) ∧
    t.counters.fail = 0 ∧ 0 < t.counters.pass := by
  obtain ⟨r, s₀, t, hinit, hrun⟩ := anyThreeBits_run
  refine ⟨r, s₀, t, hinit, hrun, ?_⟩
  obtain ⟨h, -⟩ | ⟨k, s, answer, -, hpost, -, -, -, herror, hcont⟩ :=
    (trial_accounting hinit 1).2 _ _ hrun
  · cases h
  · have hanswer : answer ≠ .error := fun h => RunRes.noConfusion (herror h)
    cases answer with
    | error => exact absurd rfl hanswer
    | cont => exact (hcont rfl).2.1.mp rfl

end Theft
