import Theft.ArgHashes

/-!
# One attempt to shrink an argument

* `Candidate`: what a shrinking step offers, and where it comes from;
* `Committed`: an attempt exchanged an argument, and the property fails on the new ones;
* `attemptToShrinkArg_spec`: every other attempt leaves all arguments as they were.
-/

namespace Theft

open PackedBits Exec

section
variable {R I σ : Type} {n : Nat} {α β : Type}
variable {r : Runner I σ n} {s₀ s : RunState R I σ n}

/-! ## Hooks and counters -/

theorem adjust_nextAction (model : AutoshrinkModel) (w : AutoshrinkAction)
    (min max adjustment : Byte) :
    (adjust model w min max adjustment).nextAction = model.nextAction := by
  simp only [adjust, apply_ite AutoshrinkModel.nextAction, ite_self]

theorem updateModel_nextAction (model : AutoshrinkModel) (res : TrialRes) (adjustment : Byte) :
    (updateModel model res adjustment).nextAction = model.nextAction := by
  unfold updateModel
  split
  · simp only [adjust_nextAction]
  · rfl

namespace Keeps

theorem autoshrinkUpdateModel (argI : Fin n) (res : TrialRes) (adjustment : Byte) :
    Keeps r s₀ (autoshrinkUpdateModel r argI res adjustment) fun _ => True := by
  apply ifAutoshrink
  intro henable
  refine Spec.modify fun s hs => ⟨?_, trivial⟩
  apply hs.sameCore
  · simp only [ArgInfo.core]
    cases (s.trial.args argI).env <;> rfl
  · intro _
    obtain ⟨env, pool, ha⟩ := hs.ready.args argI henable
    refine ⟨{ env with model := updateModel env.model res adjustment }, pool, ?_, ?_,
      ha.dropBits, ha.truncating, ha.hasPool, ha.valid⟩
    · rw [ha.hasEnv]
      rfl
    · rw [updateModel_nextAction]
      exact ha.unscheduled

theorem modifyTrial {f : TrialInfo I n → TrialInfo I n} (h : ∀ t, (f t).args = t.args) :
    Keeps r s₀ (modifyTrial f) fun _ => True :=
  modify (fun _ => rfl) (fun _ => rfl) fun _ => h _

theorem countShrink (argI : Fin n) (res : TrialRes) (repeated : Bool) :
    Keeps r s₀ (countShrink r argI res repeated) fun _ => True := by
  unfold Theft.countShrink
  split
  · exact pure trivial
  · split
    · refine bind (modifyTrial fun _ => rfl) fun _ _ => ?_
      exact autoshrinkUpdateModel argI res 3
    · exact modifyTrial fun _ => rfl

/-- The pool that the environment of an argument holds. -/
theorem currentPool_run (argI : Fin n) (s : RunState R I σ n) :
    currentPool argI s = .ok ((s.trial.args argI).env.bind AutoshrinkEnv.bitPool) s := rfl

variable [Platform R]

theorem shrinkPreHook (argI : Fin n) (arg : Option I) (tactic : Nat) :
    Keeps r s₀ (shrinkPreHook r argI arg tactic) fun answer =>
      answer = .cont ∨ r.hooks.shrinkPre.isSome := by
  apply bind get
  intro s _
  refine mono (askHook _ _ _ _ _) ?_
  rintro answer (rfl | ⟨f, u, hf, -⟩)
  · exact .inl rfl
  · exact .inr (hf ▸ rfl)

theorem shrinkPostHook (argI : Fin n) (arg : Option I) (tactic : Nat) {sres : ShrinkRes}
    (hsres : r.hooks.shrinkPost.isSome → sres ≠ .error) :
    Keeps r s₀ (shrinkPostHook r argI arg tactic sres) fun answer =>
      answer = .cont ∨ r.hooks.shrinkPost.isSome := by
  unfold Theft.shrinkPostHook
  cases hhook : r.hooks.shrinkPost with
  | none => exact pure (.inl rfl)
  | some hook =>
    have hsres := hsres (by rw [hhook]; rfl)
    obtain ⟨state, hstate⟩ : ∃ state, shrinkPostState sres = some state := by
      cases sres with
      | error => exact absurd rfl hsres
      | ok => exact ⟨_, rfl⟩
      | deadEnd => exact ⟨_, rfl⟩
      | noMoreTactics => exact ⟨_, rfl⟩
    simp only [hstate]
    apply bind get
    intro s _
    exact mono (askHook _ _ _ _ _) fun _ _ => .inr rfl

theorem shrinkTrialPostHook (argI : Fin n) (args : Args I n) (tactic : Nat) (res : TrialRes) :
    Keeps r s₀ (shrinkTrialPostHook r argI args tactic res) fun answer =>
      answer = .cont ∨ ∃ f info u, r.hooks.shrinkTrialPost = some f ∧ answer = (f info u).1 := by
  apply bind get
  intro s _
  refine mono (askHook _ _ _ _ _) ?_
  rintro answer (rfl | ⟨f, u, hf, rfl⟩)
  · exact .inl rfl
  · exact .inr ⟨f, _, u, hf, rfl⟩

/-! ## Calling the property -/

theorem call (hr : r.Sized) (args : Args I n) (rerun : Bool) :
    Keeps r s₀ (call r args rerun) fun res => ∃ u u', (r.propFun args u).Returns (res, u') := by
  apply bind get
  intro s _
  exact ask fun u => hr.propFun args u

/-- Every call with a candidate is a call with all that is held, and so is the last. -/
theorem shrinkTrials (hr : r.Sized) (argI : Fin n) (tactic fuel : Nat) : ∀ repeated,
    Keeps r s₀ (shrinkTrials r argI tactic fuel repeated) fun res =>
      (res = none → r.hooks.shrinkTrialPost.isSome) ∧ ∀ tres, res = some tres →
        ∃ u u', (r.propFun s₀.trial.getArgs u).Returns (tres, u') := by
  induction fuel with
  | zero =>
    intro repeated
    exact throw rfl
  | succ fuel ih =>
    intro repeated
    apply bind get
    intro s hs
    apply bind (call hr s.trial.getArgs repeated)
    intro tres htres
    rw [hs.getArgs] at htres
    have last : (some tres = none → r.hooks.shrinkTrialPost.isSome) ∧
        ∀ tres', some tres = some tres' →
          ∃ u u', (r.propFun s₀.trial.getArgs u).Returns (tres', u') := by
      constructor
      · rintro ⟨⟩
      · rintro _ ⟨⟩
        exact htres
    apply bind (countShrink argI tres repeated)
    intro _ _
    apply bind (shrinkTrialPostHook argI _ tactic tres)
    intro answer hanswer
    cases answer with
    | error =>
      refine pure ⟨fun _ => ?_, fun _ h => by cases h⟩
      obtain h | ⟨f, info, u, hf, -⟩ := hanswer
      · cases h
      · rw [hf]
        rfl
    | cont => exact pure last
    | repeat_ => exact ih true
    | repeatOnce =>
      cases repeated with
      | false => exact ih true
      | true => exact pure last

end Keeps

/-! ## Candidates -/

/-- What a shrinking step answers for an argument: what `alloc` returned when it read from a
changed copy of the pool, or what the `shrink` callback returned. -/
inductive Offered (r : Runner I σ n) (argI : Fin n) (a : ArgInfo I) (tactic : Nat) :
    ShrinkRes × Option I × Option BitPool → Prop where
  | exhausted {env pool} : r.autoshrinks argI = true → a.Ready env pool →
      getDef env.maxFailedShrinks defMaxFailedShrinks ≤ tactic →
      Offered r argI a tactic (.noMoreTactics, none, none)
  | noMemory {env pool} : r.autoshrinks argI = true → a.Ready env pool →
      maxBits < 64 * pool.requestCount → Offered r argI a tactic (.error, none, none)
  | replayed {env pool copy inst u u'} : r.autoshrinks argI = true → a.Ready env pool →
      copy.Valid → copy.bitsFilled ≤ pool.bitsFilled →
      ((r.typeInfo argI).alloc u).Returns (.ok, inst, u') →
      (((r.typeInfo argI).alloc u).Zeroed →
        Played ((r.typeInfo argI).alloc u) (.ok, inst, u') copy) →
      Offered r argI a tactic (.ok, inst, some copy)
  | skipped {inst u u'} : r.autoshrinks argI = true →
      ((r.typeInfo argI).alloc u).Returns (.skip, inst, u') →
      Offered r argI a tactic (.deadEnd, none, none)
  | failed {inst u u'} : r.autoshrinks argI = true →
      ((r.typeInfo argI).alloc u).Returns (.error, inst, u') →
      Offered r argI a tactic (.error, none, none)
  | user {shrink sres inst u u'} : r.autoshrinks argI = false →
      (r.typeInfo argI).shrink = some shrink →
      (shrink a.inst tactic u).Returns (sres, inst, u') →
      Offered r argI a tactic (sres, inst, none)

theorem ArgInfo.Ready.auto {a : ArgInfo I} {env : AutoshrinkEnv} {pool : BitPool}
    (h : a.Ready env pool) (hs : s.Ready r) : AutoState.Ready ⟨s.prng, s.ledger, env⟩ :=
  ⟨hs.prng, hs.noPool, h.unscheduled, h.dropBits, h.truncating⟩

/-- A step on the environment of an argument that leaves its pool there. -/
theorem Held.zoomEnv (h : Held r s₀ s) {argI : Fin n} {env : AutoshrinkEnv} {pool : BitPool}
    (ha : (s.trial.args argI).Ready env pool) {t : AutoState R}
    (ht : KeepsPool pool ⟨s.prng, s.ledger, env⟩ t) :
    Held r s₀ { s with
      prng := t.prng
      ledger := t.ledger
      trial := s.trial.modifyArg argI fun a => { a with env := some t.env } } := by
  obtain ⟨pool', hpool', hvalid, hsame⟩ := ht.pool
  have henv : t.env = { env with model := t.env.model, bitPool := some pool' } := by
    rw [← hpool']
    exact ht.env
  have hcore : ({ s.trial.args argI with env := some t.env } : ArgInfo I).core =
      (s.trial.args argI).core := by
    simp only [ArgInfo.core, AutoshrinkEnv.core, ha.hasEnv, Option.map_some]
    rw [henv]
    simp only [Option.map_some, ha.hasPool]
    rw [hsame]
  have hheld := h.sameCore hcore fun _ =>
    ⟨t.env, pool', rfl, ht.ready.unscheduled, ht.ready.dropBits, ht.ready.truncating, hpool',
      hvalid⟩
  exact hheld.sameArgs ht.ready.prng ht.ready.noPool rfl rfl

namespace Keeps
variable [Platform R]

theorem autoshrinkCandidate (hr : r.Sized) (hs₀ : s₀.Ready r) {argI : Fin n}
    (henable : r.autoshrinks argI = true) (fuel tactic : Nat) :
    Keeps r s₀ (autoshrinkCandidate fuel r argI tactic)
      (Offered r argI (s₀.trial.args argI) tactic) := by
  apply getThen
  rintro _ hs s rfl
  obtain ⟨env, pool, ha⟩ := hs.ready.args argI henable
  obtain ⟨env₀, pool₀, ha₀⟩ := hs₀.args argI henable
  have hcore := (hs.core argI).symm
  have hpool := ha₀.pool_of_core ha hcore
  have htries := ha₀.tries_of_core ha hcore
  rw [ha.hasEnv]
  have step : Spec (fun t => t = s)
      (zoomEnv argI env (autoshrinkShrink fuel ((r.typeInfo argI).alloc s.user) tactic))
      (fun c t => Held r s₀ t ∧ ShrinkOutcome ((r.typeInfo argI).alloc s.user)
        (getDef env₀.maxFailedShrinks defMaxFailedShrinks) tactic pool₀.bitsFilled
        pool₀.requestCount c)
      fun e _ => e = .fuel := by
    apply Spec.zoom
    rintro s rfl _ rfl
    have hspec := autoshrinkShrink_spec (ha.auto hs.ready) ha.hasPool ha.valid
      (hr.alloc argI s.user) fuel tactic
    rw [ha.hasEnv, Option.getD_some]
    revert hspec
    cases autoshrinkShrink fuel ((r.typeInfo argI).alloc s.user) tactic ⟨s.prng, s.ledger, env⟩ with
    | error e t => exact fun h => h
    | ok c t =>
      rintro ⟨hkeeps, houtcome⟩
      rw [htries, hpool] at houtcome
      exact ⟨hs.zoomEnv ha hkeeps, houtcome⟩
  refine Spec.bind step (fun c => ?_) s rfl
  rintro t ⟨ht, houtcome⟩
  cases houtcome with
  | noMoreTactics h => exact ⟨ht, .exhausted henable ha₀ h⟩
  | noMemory h => exact ⟨ht, .noMemory henable ha₀ h⟩
  | @shrunk res copy hvalid _ hle hreturns hplayed =>
    obtain ⟨inst, u'⟩ := res
    exact ⟨ht.sameArgs ht.ready.prng ht.ready.noPool rfl rfl,
      .replayed henable ha₀ hvalid hle hreturns hplayed⟩
  | @skipped res hreturns =>
    obtain ⟨inst, u'⟩ := res
    exact ⟨ht.sameArgs ht.ready.prng ht.ready.noPool rfl rfl, .skipped henable hreturns⟩
  | @failed res hreturns =>
    obtain ⟨inst, u'⟩ := res
    exact ⟨ht.sameArgs ht.ready.prng ht.ready.noPool rfl rfl, .failed henable hreturns⟩

theorem userCandidate (hr : r.Sized) {argI : Fin n} (henable : r.autoshrinks argI = false)
    (hshrink : (r.typeInfo argI).shrink.isSome) (tactic : Nat) :
    Keeps r s₀ (userCandidate r argI (s₀.trial.args argI).inst tactic)
      (Offered r argI (s₀.trial.args argI) tactic) := by
  obtain ⟨shrink, hsome⟩ := Option.isSome_iff_exists.mp hshrink
  unfold Theft.userCandidate
  rw [hsome]
  refine bind (ask fun u => (hr.shrink argI shrink hsome _ _ u).map) ?_
  rintro ⟨sres, inst⟩ ⟨u, u', hreturns⟩
  obtain ⟨⟨sres', inst', u''⟩, h, heq⟩ := hreturns.of_map
  cases heq
  exact pure (.user henable hsome h)

end Keeps

/-! ## Trying a candidate -/

/-- The property may answer something else than `FAIL`. -/
def Runner.MayNotFail (r : Runner I σ n) : Prop :=
  ∃ args u u' tres, (r.propFun args u).Returns (tres, u') ∧ tres ≠ TrialRes.fail

/-- What is left of a candidate for the state `s`, when `s₁` is the state with the candidate. -/
inductive Tried (r : Runner I σ n) (s s₁ : RunState R I σ n) :
    Option AttemptRes → RunState R I σ n → Prop where
  | reverted {t} : Held r s t → (s.bloom.isSome ∨ r.MayNotFail) → Tried r s s₁ none t
  | committed {t} : Held r s₁ t →
      (∃ u u', (r.propFun s₁.trial.getArgs u).Returns (.fail, u')) →
      (r.filterMemory = granted → s.bloom.isSome → ∀ hashes, HashesBy r hashes →
        ∃ w, ¬ s.Seen w ∧ t.Seen w) →
      Tried r s s₁ (some .ok) t
  | failed {t} : (r.MayNotFail ∨ r.hooks.shrinkTrialPost.isSome) → Tried r s s₁ (some .error) t

theorem Held.setInst (h : Held r s₀ s) (argI : Fin n) (inst : Option I) :
    Spec (fun t => t = s) (setInst argI inst) (fun _ => Held r (s₀.withInst argI inst))
      fun e _ => e = .fuel := by
  rintro s rfl
  exact h.withInst argI inst

/-- The pool goes back to the environment, and that of the candidate is freed. -/
theorem revertPool_spec {b : RunState R I σ n} {argI : Fin n} {pool candidatePool : Option BitPool}
    (hpool : r.autoshrinks argI = true → ∃ p, pool = some p ∧ p.Valid)
    (hcandidate : r.autoshrinks argI = true → candidatePool.isSome) :
    Spec (Held r b) (revertPool r argI pool candidatePool)
      (fun _ => Held r (b.withPoolIf r argI pool)) fun e _ => e = .fuel := by
  intro s hs
  have hback := hs.withPoolIf argI hpool
  by_cases henable : r.autoshrinks argI = true
  · obtain ⟨p, hp⟩ := Option.isSome_iff_exists.mp (hcandidate henable)
    rw [hp]
    simp only [RunState.withPoolIf, revertPool, ifAutoshrink, if_pos henable] at hback ⊢
    exact Spec.mono (Keeps.freePool p) (fun _ h => h) (fun _ _ h => h.1) (fun _ _ h => h) _ hback
  · simp only [RunState.withPoolIf, revertPool, ifAutoshrink, if_neg henable] at hback ⊢
    exact hback

theorem freePoolPtr_keeps (b : RunState R I σ n) (argI : Fin n) {pool : Option BitPool}
    (h : r.autoshrinks argI = true → ∃ p, pool = some p ∧ p.Valid) :
    Keeps r b (ifAutoshrink r argI (freePoolPtr pool)) fun _ => True := by
  apply Keeps.ifAutoshrink
  intro henable
  obtain ⟨p, rfl, -⟩ := h henable
  exact Keeps.freePool p

/-- What a candidate with its pool, and the argument that it replaces, must be like. -/
structure Exchange (r : Runner I σ n) (argI : Fin n) (s : RunState R I σ n)
    (copy : Option BitPool) : Prop where
  copy : r.autoshrinks argI = true → ∃ p, copy = some p ∧ p.Valid
  pool : r.autoshrinks argI = true →
    ∃ p, (s.trial.args argI).env.bind AutoshrinkEnv.bitPool = some p ∧ p.Valid

/-- What one tactic does to an argument of the state `s`. -/
inductive Attempted (r : Runner I σ n) (argI : Fin n) (tactic : Nat) (s : RunState R I σ n) :
    Option AttemptRes → RunState R I σ n → Prop where
  | next {t} : Held r s t →
      (s.bloom.isSome ∨ r.MayNotFail ∨
        ∃ inst copy, Offered r argI (s.trial.args argI) tactic (.deadEnd, inst, copy)) →
      Attempted r argI tactic s none t
  | halted {t} : Held r s t → r.hooks.shrinkPre.isSome → Attempted r argI tactic s (some .halt) t
  | deadEnd {t inst copy} : Held r s t →
      Offered r argI (s.trial.args argI) tactic (.noMoreTactics, inst, copy) →
      Attempted r argI tactic s (some .deadEnd) t
  | committed {t inst copy} :
      Offered r argI (s.trial.args argI) tactic (.ok, inst, copy) →
      Held r ((s.withInst argI inst).withPoolIf r argI copy) t →
      (∃ u u', (r.propFun t.trial.getArgs u).Returns (.fail, u')) →
      (r.filterMemory = granted → s.bloom.isSome → ∀ hashes, HashesBy r hashes →
        ∃ w, ¬ s.Seen w ∧ t.Seen w) →
      Attempted r argI tactic s (some .ok) t
  | failed {t} :
      (r.MayNotFail ∨ r.hooks.shrinkPre.isSome ∨ r.hooks.shrinkPost.isSome ∨
        r.hooks.shrinkTrialPost.isSome ∨
        ∃ inst copy, Offered r argI (s.trial.args argI) tactic (.error, inst, copy)) →
      Attempted r argI tactic s (some .error) t

theorem Offered.exchange {argI : Fin n} {a : ArgInfo I} {tactic : Nat} {inst : Option I}
    {copy : Option BitPool} (h : Offered r argI a tactic (.ok, inst, copy)) (hs : s.Ready r) :
    Exchange r argI s copy where
  copy := by
    intro henable
    cases h with
    | replayed _ _ hvalid => exact ⟨_, rfl, hvalid⟩
    | user hdisabled => rw [henable] at hdisabled; cases hdisabled
  pool := by
    intro henable
    obtain ⟨env, pool, ha⟩ := hs.args argI henable
    refine ⟨pool, ?_, ha.valid⟩
    rw [ha.hasEnv]
    exact ha.hasPool

/-- What is tried from a state with the same arguments is tried from the state itself. -/
theorem Tried.attempted {t t' : RunState R I σ n} (ht : Held r s t) {argI : Fin n} {tactic : Nat}
    {inst : Option I} {copy : Option BitPool}
    (hoffered : Offered r argI (s.trial.args argI) tactic (.ok, inst, copy))
    {res : Option AttemptRes}
    (h : Tried r t ((t.withInst argI inst).withPoolIf r argI copy) res t') :
    Attempted r argI tactic s res t' := by
  cases h with
  | reverted hheld hwhy =>
    apply Attempted.next (ht.trans hheld)
    obtain hbloom | hprop := hwhy
    · exact .inl (ht.bloom.symm.trans hbloom)
    · exact .inr (.inl hprop)
  | committed hheld hfails hfresh =>
    have hexchange := hoffered.exchange ht.ready
    have hbase := (ht.withInst argI inst).withPoolIf argI hexchange.copy
    refine .committed hoffered (hbase.trans hheld) ?_ ?_
    · rw [hheld.getArgs]
      exact hfails
    · intro hgranted hsome hashes hby
      obtain ⟨w, hnot, hmarked⟩ := hfresh hgranted (ht.bloom.trans hsome) hashes hby
      exact ⟨w, fun h => hnot (ht.seen hgranted w h), hmarked⟩
  | failed hwhy =>
    apply Attempted.failed
    obtain hprop | hhook := hwhy
    · exact .inl hprop
    · exact .inr (.inr (.inr (.inl hhook)))

variable [Platform R]

theorem skipCalled_spec :
    Spec (Held r s₀) (skipCalled r)
      (fun found s => Held r s₀ s ∧ (found = true → s₀.bloom.isSome) ∧
        (found = false → r.filterMemory = granted → s₀.bloom.isSome → ∀ hashes,
          HashesBy r hashes → ∃ w, ¬ s₀.Seen w ∧ s.Seen w))
      fun e _ => e = .fuel := by
  apply Keeps.getThen
  rintro _ hs s rfl
  by_cases hbloom : s.bloom.isSome
  · have hs₀ := hs.bloom.symm.trans hbloom
    rw [if_pos hbloom]
    refine Spec.bind (Keeps.callCheckCalled hs₀) (fun found => ?_) s hs
    rintro t ⟨ht, hunseen⟩
    cases found with
    | true => exact ⟨ht, fun _ => hs₀, fun h => Bool.noConfusion h⟩
    | false =>
      refine Spec.bind (Keeps.callMarkCalled hs₀) (fun _ => ?_) t ht
      rintro t' ⟨ht', hseen⟩
      refine ⟨ht', ⟨fun h => Bool.noConfusion h, fun _ hgranted _ hashes hby => ?_⟩⟩
      obtain ⟨w, hw, hnot⟩ := hunseen rfl hgranted hashes hby
      obtain ⟨w', hw', hmarked⟩ := hseen hgranted hashes hby
      rw [hw] at hw'
      cases hw'
      exact ⟨w, hnot, hmarked⟩
  · rw [if_neg hbloom]
    refine ⟨hs, ⟨fun h => Bool.noConfusion h, fun _ _ h => ?_⟩⟩
    exact absurd (hs.bloom.trans h) hbloom

/-- The last of the calls with a candidate decides. -/
theorem judgeCandidate_spec {s t : RunState R I σ n} {argI : Fin n} {inst : Option I}
    {copy : Option BitPool} (hex : Exchange r argI s copy)
    (ht : Held r ((s.withInst argI inst).withPoolIf r argI copy) t) (res : TrialRes) :
    Spec (Held r t)
      (judgeCandidate r argI (s.trial.args argI).inst inst
        ((s.trial.args argI).env.bind AutoshrinkEnv.bitPool) copy res)
      (fun out t' => (out = none ∧ res ≠ .fail ∧ Held r s t') ∨
        (out = some .ok ∧ res = .fail ∧ Held r t t') ∨ (out = some .error ∧ res ≠ .fail))
      fun e _ => e = .fuel := by
  -- the argument and its pool are put back
  have back : res ≠ .fail → Spec (Held r t)
      (do
        setInst argI (s.trial.args argI).inst
        revertPool r argI ((s.trial.args argI).env.bind AutoshrinkEnv.bitPool) copy
        freeInst r argI inst
        return (none : Option AttemptRes))
      (fun out t' => (out = none ∧ res ≠ .fail ∧ Held r s t') ∨
        (out = some .ok ∧ res = .fail ∧ Held r t t') ∨ (out = some .error ∧ res ≠ .fail))
      fun e _ => e = .fuel := by
    intro hres t' ht'
    have hall := ht.trans ht'
    refine Spec.bind (hall.setInst argI _) (fun _ => ?_) t' rfl
    refine Spec.bind (revertPool_spec hex.pool fun h => ?_) fun _ => ?_
    · obtain ⟨p, hp, -⟩ := hex.copy h
      rw [hp]
      rfl
    · rw [withInst_withPoolIf, exchange_back]
      refine Spec.bind (Keeps.freeInst argI inst) fun _ => ?_
      exact Spec.pure fun t'' ht'' => .inl ⟨rfl, hres, ht''.1⟩
  refine Spec.bind (Keeps.autoshrinkUpdateModel argI res 8) fun _ => ?_
  intro t' ht'
  cases res with
  | pass => exact back (by decide) t' ht'.1
  | skip => exact back (by decide) t' ht'.1
  | fail =>
    refine Spec.bind (freePoolPtr_keeps t argI hex.pool) (fun _ => ?_) t' ht'.1
    intro t₁ ht₁
    refine Spec.bind (Keeps.freeInst argI _) (fun _ => ?_) t₁ ht₁.1
    exact Spec.pure fun t₂ ht₂ => .inr (.inl ⟨rfl, rfl, ht₂.1⟩)
  | dup =>
    refine Spec.bind (Keeps.freeInst argI _) (fun _ => ?_) t' ht'.1
    intro t₁ ht₁
    refine Spec.bind (freePoolPtr_keeps t argI hex.pool) (fun _ => ?_) t₁ ht₁.1
    exact Spec.pure fun t₂ _ => .inr (.inr ⟨rfl, by decide⟩)
  | error =>
    refine Spec.bind (Keeps.freeInst argI _) (fun _ => ?_) t' ht'.1
    intro t₁ ht₁
    refine Spec.bind (freePoolPtr_keeps t argI hex.pool) (fun _ => ?_) t₁ ht₁.1
    exact Spec.pure fun t₂ _ => .inr (.inr ⟨rfl, by decide⟩)

/-- A candidate is put in place, called unless it was called before, and kept or put back. -/
theorem tryCandidate_spec (hr : r.Sized) {s : RunState R I σ n} {argI : Fin n}
    {inst : Option I} {copy : Option BitPool} (hex : Exchange r argI s copy) (fuel tactic : Nat) :
    Spec (Held r s)
      (tryCandidate fuel r argI tactic (s.trial.args argI).inst inst
        ((s.trial.args argI).env.bind AutoshrinkEnv.bitPool) copy)
      (Tried r s ((s.withInst argI inst).withPoolIf r argI copy)) fun e _ => e = .fuel := by
  intro t₀ ht₀
  refine Spec.bind (ht₀.setInst argI inst) (fun _ => ?_) t₀ rfl
  have install : Spec (Held r (s.withInst argI inst)) (ifAutoshrink r argI (setPool argI copy))
      (fun _ => Held r ((s.withInst argI inst).withPoolIf r argI copy)) fun e _ => e = .fuel := by
    intro t ht
    have ht' := ht.withPoolIf argI hex.copy
    by_cases henable : r.autoshrinks argI = true
    · simp only [RunState.withPoolIf, ifAutoshrink, if_pos henable] at ht' ⊢
      exact ht'
    · simp only [RunState.withPoolIf, ifAutoshrink, if_neg henable] at ht' ⊢
      exact ht'
  refine Spec.bind install fun _ => ?_
  refine Spec.bind skipCalled_spec fun found => ?_
  have hbloom : ((s.withInst argI inst).withPoolIf r argI copy).bloom = s.bloom :=
    exchange_bloom s argI inst copy
  have hseen : ∀ w, ((s.withInst argI inst).withPoolIf r argI copy).Seen w ↔ s.Seen w := by
    intro w
    rw [RunState.Seen, RunState.Seen, hbloom]
  rw [hbloom]
  rintro t ⟨ht, hfound, hfresh⟩
  cases found with
  | true =>
    refine Spec.bind (Keeps.freeInst argI inst) (fun _ => ?_) t ht
    rintro t₁ ⟨ht₁, -⟩
    refine Spec.bind (revertPool_spec hex.pool fun h => ?_) (fun _ => ?_) t₁ ht₁
    · obtain ⟨p, hp, -⟩ := hex.copy h
      rw [hp]
      rfl
    · intro t₂ ht₂
      have hback := ht₂.withInst argI (s.trial.args argI).inst
      rw [exchange_back] at hback
      exact .reverted hback (.inl (hfound rfl))
  | false =>
    have hargs := ht.getArgs
    refine Spec.bind (Keeps.shrinkTrials hr argI tactic fuel false) (fun out => ?_) t
      (.refl ht.ready)
    rintro t₁ ⟨ht₁, hnone, hlast⟩
    cases out with
    | none =>
      have hpool : Keeps r t (ifAutoshrink r argI
          (freePoolIf ((s.trial.args argI).env.bind AutoshrinkEnv.bitPool))) fun _ => True :=
        Keeps.ifAutoshrink fun _ => Keeps.freePoolIf _
      refine Spec.bind (Keeps.freeInst argI _) (fun _ => ?_) t₁ ht₁
      intro t₂ ht₂
      refine Spec.bind hpool (fun _ => ?_) t₂ ht₂.1
      exact Spec.pure fun t₃ _ => .failed (.inr (hnone rfl))
    | some res =>
      obtain ⟨u, u', hreturns⟩ := hlast res rfl
      refine Spec.mono (judgeCandidate_spec hex ht res) (fun _ h => h) ?_ (fun _ _ h => h) t₁ ht₁
      rintro _ t₂ (⟨rfl, hres, ht₂⟩ | ⟨rfl, rfl, ht₂⟩ | ⟨rfl, hres⟩)
      · exact .reverted ht₂ (.inr ⟨_, u, u', res, hreturns, hres⟩)
      · refine .committed (ht.trans ht₂) ⟨u, u', hargs ▸ hreturns⟩ ?_
        intro hgranted hsome hashes hby
        obtain ⟨w, hnot, hmarked⟩ := hfresh rfl hgranted hsome hashes hby
        exact ⟨w, fun h => hnot ((hseen w).mpr h), ht₂.seen hgranted w hmarked⟩
      · exact .failed (.inl ⟨_, u, u', res, hreturns, hres⟩)

/-! ## An attempt -/

/-- Arguments that `theft_shrink` attempts to shrink. -/
abbrev Runner.shrinkable (r : Runner I σ n) (i : Fin n) : Prop :=
  (r.typeInfo i).shrink.isSome ∨ r.autoshrinks i = true

/-- How an attempt may stop: it had too little fuel, or `shrink_post_hook` was called for an
error that a shrinking step answered. -/
def Aborted (r : Runner I σ n) (argI : Fin n) (a : ArgInfo I) (e : Stop) : Prop :=
  e = .fuel ∨ e = .assertion ∧ r.hooks.shrinkPost.isSome ∧
    ∃ tactic inst copy, Offered r argI a tactic (.error, inst, copy)

omit [Platform R] in
/-- A program that only fuel may stop, as a part of an attempt -/
theorem Aborted.ofFuel {m : Run R I σ n α} {P : RunState R I σ n → Prop}
    {Q : α → RunState R I σ n → Prop} (h : Spec P m Q fun e _ => e = .fuel) (argI : Fin n)
    (a : ArgInfo I) : Spec P m Q fun e _ => Aborted r argI a e :=
  Spec.mono h (fun _ hp => hp) (fun _ _ hq => hq) fun _ _ he => .inl he

/-- `shrink_post_hook` stops when it is called for an error. -/
theorem shrinkPostHook_spec {argI : Fin n} {a : ArgInfo I} {tactic : Nat} {sres : ShrinkRes}
    {inst : Option I} {copy : Option BitPool}
    (hoffered : Offered r argI a tactic (sres, inst, copy)) (arg : Option I) :
    Spec (Held r s₀) (shrinkPostHook r argI arg tactic sres)
      (fun answer t => Held r s₀ t ∧ (answer = .cont ∨ r.hooks.shrinkPost.isSome))
      fun e _ => Aborted r argI a e := by
  by_cases hassert : r.hooks.shrinkPost.isSome ∧ sres = .error
  · obtain ⟨hhook, rfl⟩ := hassert
    obtain ⟨hook, hsome⟩ := Option.isSome_iff_exists.mp hhook
    unfold shrinkPostHook
    rw [hsome]
    exact Spec.throw fun _ _ => .inr ⟨rfl, hhook, tactic, inst, copy, hoffered⟩
  · exact Aborted.ofFuel (Keeps.shrinkPostHook argI arg tactic fun hhook herror =>
      hassert ⟨hhook, herror⟩) argI a

theorem attemptTactic_spec (hr : r.Sized) (hs : s.Ready r) {argI : Fin n}
    (hshrinkable : r.shrinkable argI) (fuel tactic : Nat) :
    Spec (Held r s) (attemptTactic fuel r argI tactic) (Attempted r argI tactic s)
      fun e _ => Aborted r argI (s.trial.args argI) e := by
  have offer : Keeps r s
      (if r.autoshrinks argI = true then autoshrinkCandidate fuel r argI tactic
        else userCandidate r argI (s.trial.args argI).inst tactic)
      (Offered r argI (s.trial.args argI) tactic) := by
    by_cases henable : r.autoshrinks argI = true
    · rw [if_pos henable]
      exact Keeps.autoshrinkCandidate hr hs henable fuel tactic
    · rw [if_neg henable]
      exact Keeps.userCandidate hr (Bool.eq_false_iff.mpr henable)
        (hshrinkable.resolve_right henable) tactic
  apply Keeps.getThen
  rintro _ ht t rfl
  rw [ht.inst argI]
  refine Spec.bind (Aborted.ofFuel (Keeps.shrinkPreHook argI _ tactic) argI _) (fun answer => ?_)
    t ht
  rintro t₁ ⟨ht₁, hanswer⟩
  cases answer with
  | error => exact .failed (.inr (.inl (hanswer.resolve_left (by decide))))
  | halt => exact .halted ht₁ (hanswer.resolve_left (by decide))
  | cont =>
    refine Spec.bind (Aborted.ofFuel offer argI _) (fun c => ?_) t₁ ht₁
    obtain ⟨sres, inst, copy⟩ := c
    rintro t₂ ⟨ht₂, hoffered⟩
    have count : Keeps r t₂
        (modifyTrial fun t => { t with shrinkCount := t.shrinkCount + 1 }) fun _ => True :=
      Keeps.modifyTrial fun _ => rfl
    dsimp only
    rw [bind_apply, Keeps.currentPool_run]
    dsimp only
    refine Spec.bind (Aborted.ofFuel count argI _) (fun _ => ?_) t₂ (.refl ht₂.ready)
    rintro t₃ ⟨ht₃, -⟩
    refine Spec.bind (shrinkPostHook_spec hoffered _) (fun answer => ?_) t₃ ht₃
    rintro t₄ ⟨ht₄, hanswer⟩
    cases answer with
    | error =>
      refine Spec.bind (Aborted.ofFuel (Keeps.freeInst argI inst) argI _) (fun _ => ?_) t₄ ht₄
      intro t₅ ht₅
      refine Spec.bind (Aborted.ofFuel (Keeps.freePoolIf copy) argI _) (fun _ => ?_) t₅ ht₅.1
      exact Spec.pure fun t₆ _ =>
        .failed (.inr (.inr (.inl (hanswer.resolve_left (by decide)))))
    | cont =>
      cases sres with
      | ok =>
        rw [← ht₂.inst argI]
        refine Spec.mono (tryCandidate_spec hr (hoffered.exchange ht₂.ready) fuel tactic)
          (fun _ h => h) (fun _ _ h => h.attempted ht₂ hoffered) (fun _ _ he => .inl he) t₄ ht₄
      | deadEnd => exact .next (ht₂.trans ht₄) (.inr (.inr ⟨_, _, hoffered⟩))
      | noMoreTactics => exact .deadEnd (ht₂.trans ht₄) hoffered
      | error => exact .failed (.inr (.inr (.inr (.inr ⟨_, _, hoffered⟩))))

theorem attemptTactics_spec (hr : r.Sized) (hs : s.Ready r) {argI : Fin n}
    (hshrinkable : r.shrinkable argI) (fuel left : Nat) : ∀ tactic,
    Spec (Held r s) (attemptTactics fuel r argI left tactic)
      (fun res t => (res = .deadEnd ∧ Held r s t) ∨
        ∃ tactic, Attempted r argI tactic s (some res) t)
      fun e _ => Aborted r argI (s.trial.args argI) e := by
  induction left with
  | zero =>
    intro tactic
    exact Spec.pure fun t ht => .inl ⟨rfl, ht⟩
  | succ left ih =>
    intro tactic
    refine Spec.bind (attemptTactic_spec hr hs hshrinkable fuel tactic) fun out => ?_
    cases out with
    | none =>
      intro t ht
      cases ht with
      | next hheld => exact ih (tactic + 1) t hheld
    | some res => exact Spec.pure fun t ht => .inr ⟨tactic, ht⟩

/-- **One attempt.** It exchanges one argument for a smaller one on which the property fails, or
leaves all arguments as they were, or answers an error. -/
theorem attemptToShrinkArg_spec (hr : r.Sized) (hs : s.Ready r) {argI : Fin n}
    (hshrinkable : r.shrinkable argI) (fuel : Nat) :
    Spec (fun t => t = s) (attemptToShrinkArg fuel r argI)
      (fun res t => (res = .deadEnd ∧ Held r s t) ∨
        ∃ tactic, Attempted r argI tactic s (some res) t)
      fun e _ => Aborted r argI (s.trial.args argI) e := by
  rintro _ rfl
  exact attemptTactics_spec hr hs hshrinkable fuel maxTactics 0 _ (.refl hs)

end

end Theft
