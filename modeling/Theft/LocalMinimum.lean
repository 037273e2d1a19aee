import Mathlib.Logic.Relation
import Theft.Genuine
import Theft.RunFrames
import Theft.Trials

/-!
# Shrinking stops at a local minimum

* `tactic_outcome`: what came of one tactic for an argument that is shrunk by its type's callback;
* `attemptTactics_tried`: an attempt that ends in a dead end has tried them all;
* `shrink_local_minimum`: when `theft_shrink` returns, every tactic of every argument was tried on
  the arguments that are left.
-/

namespace Theft

open PackedBits Exec Relation

section
variable {R I σ : Type} {n : Nat} {α β : Type}
variable {r : Runner I σ n} {s t u v : RunState R I σ n}

/-! ## Deterministic callbacks -/

/-- The `shrink` callbacks are functions of the instance and the tactic. -/
def ShrinksBy (r : Runner I σ n) (shrinks : Fin n → Option I → Nat → ShrinkRes × Option I) : Prop :=
  ∀ i f, (r.typeInfo i).shrink = some f → ∀ inst tactic u res candidate u',
    (f inst tactic u).Returns (res, candidate, u') → (res, candidate) = shrinks i inst tactic

/-- The hook `shrink_pre` never halts the shrinking. -/
def Runner.NeverHalts (r : Runner I σ n) : Prop :=
  ∀ hook, r.hooks.shrinkPre = some hook → ∀ info u, (hook info u).1 ≠ .halt

/-! ## Arguments that stay -/

/-- No argument of the trial was changed. -/
def Stays (s t : RunState R I σ n) : Prop := t.trial.args = s.trial.args

instance : IsPreorder (RunState R I σ n) Stays where
  refl _ := rfl
  trans _ _ _ h₁ h₂ := h₂.trans h₁

theorem Stays.getArgs (h : Stays s t) : t.trial.getArgs = s.trial.getArgs := by
  funext i
  unfold TrialInfo.getArgs
  rw [h]

theorem Asked.stays {K : List EventKind} (h : Asked K s t) : Stays s t := by
  unfold Stays
  rw [h.trial]

/-- Steps for autoshrunk arguments, for one that is not. -/
theorem ifAutoshrink_off {argI : Fin n} (henable : r.autoshrinks argI = false)
    (m : Run R I σ n Unit) : ifAutoshrink r argI m = pure () :=
  if_neg (Bool.eq_false_iff.mp henable)

namespace Stays

theorem of_asked {K : List EventKind} {m : Run R I σ n α} (h : Effect (Asked K) m) :
    Effect Stays m := h.mono fun _ _ => Asked.stays

theorem modifyTrial {f : TrialInfo I n → TrialInfo I n} (hf : ∀ t, (f t).args = t.args) :
    Effect Stays (modifyTrial f : Run R I σ n Unit) := Effect.modify fun s => hf s.trial

variable [Platform R]

theorem callMarkCalled : Effect Stays (callMarkCalled r : Run R I σ n Unit) := by
  apply Effect.bind (of_asked (Asked.getArgHashBuffer (K := [.hash]) (by decide) r _))
  intro buffer
  apply Effect.bind Effect.get
  intro s
  split
  · exact Effect.throw _
  · apply Effect.bind (Effect.attempt _)
    intro marked
    exact Effect.modify fun _ => rfl

theorem skipCalled : Effect Stays (skipCalled r : Run R I σ n Bool) := by
  apply Effect.bind Effect.get
  intro s
  split
  · apply Effect.bind (of_asked (Asked.callCheckCalled (K := [.hash]) (by decide) r))
    intro found
    split
    · exact Effect.pure _
    · exact Effect.bind callMarkCalled fun _ => Effect.pure _
  · exact Effect.pure _

omit [Platform R] in
theorem countShrink {argI : Fin n} (henable : r.autoshrinks argI = false) (res : TrialRes)
    (repeated : Bool) : Effect Stays (countShrink r argI res repeated : Run R I σ n Unit) := by
  unfold Theft.countShrink
  split
  · exact Effect.pure ()
  · split
    · unfold autoshrinkUpdateModel
      rw [ifAutoshrink_off henable]
      exact Effect.bind (modifyTrial fun _ => rfl) fun _ => Effect.pure ()
    · exact modifyTrial fun _ => rfl

theorem shrinkTrials {argI : Fin n} (henable : r.autoshrinks argI = false) (tactic fuel : Nat) :
    ∀ repeated, Effect Stays (shrinkTrials r argI tactic fuel repeated : Run R I σ n _) := by
  induction fuel with
  | zero =>
    intro repeated
    exact Effect.throw _
  | succ fuel ih =>
    intro repeated
    apply Effect.bind Effect.get
    intro s
    apply Effect.bind (of_asked (Asked.call (K := [.call]) (by decide) r _ _))
    intro res
    apply Effect.bind (countShrink henable res repeated)
    intro _
    apply Effect.bind (of_asked (Asked.shrinkTrialPostHook (K := [.shrinkTrialPost]) (by decide) r
      argI _ _ _))
    intro answer
    cases answer with
    | repeat_ => exact ih true
    | repeatOnce =>
      cases repeated with
      | false => exact ih true
      | true => exact Effect.pure _
    | cont => exact Effect.pure _
    | error => exact Effect.pure _

end Stays

/-! ## The calls with a candidate -/

variable [Platform R] {shrinks : Fin n → Option I → Nat → ShrinkRes × Option I}
  {prop : Args I n → TrialRes} {argI : Fin n}

theorem ask_returned {event : Event I n} {answer : α → Event I n} {g : σ → Gen (α × σ)} {a : α}
    (h : ask event answer g s = .ok a t) : ∃ u u', (g u).Returns (a, u') := by
  obtain ⟨b, u, p, hg, hrun⟩ | ⟨e, p, -, hrun⟩ := ask_cases event answer g s
  · rw [hrun] at h
    cases h
    exact ⟨_, u, .of_run _ hg⟩
  · rw [hrun] at h
    cases h

/-- Whatever hooks ask for, the result is that of the property. -/
theorem shrinkTrials_result (hprop : PropertyIs r prop) (henable : r.autoshrinks argI = false)
    (tactic fuel : Nat) : ∀ {repeated : Bool} {s t : RunState R I σ n} {res : TrialRes},
    shrinkTrials r argI tactic fuel repeated s = .ok (some res) t → res = prop s.trial.getArgs := by
  induction fuel with
  | zero =>
    intro repeated s t res h
    cases h
  | succ fuel ih =>
    intro repeated s t res h
    obtain ⟨_, _, hget, h⟩ := bind_eq_ok.mp h
    cases hget
    obtain ⟨res', s₁, hcall, h⟩ := bind_eq_ok.mp h
    obtain ⟨_, s₂, hcount, h⟩ := bind_eq_ok.mp h
    obtain ⟨answer, s₃, hhook, h⟩ := bind_eq_ok.mp h
    have hres : res' = prop s.trial.getArgs := by
      obtain ⟨_, _, hget, hask⟩ := bind_eq_ok.mp hcall
      cases hget
      obtain ⟨u, u', hreturns⟩ := ask_returned hask
      exact hprop _ _ _ _ hreturns
    have h₁ : Stays s s₁ :=
      (Asked.call (K := [.call]) (by decide) r _ _).of_returned hcall |>.stays
    have h₂ : Stays s₁ s₂ := (Stays.countShrink henable res' repeated).of_returned hcount
    have h₃ : Stays s₂ s₃ := ((Asked.shrinkTrialPostHook (K := [.shrinkTrialPost]) (by decide) r
      argI _ _ _).of_returned hhook).stays
    have hstays : s₃.trial.getArgs = s.trial.getArgs :=
      h₃.getArgs.trans (h₂.getArgs.trans h₁.getArgs)
    cases answer with
    | repeat_ => rw [ih h, hstays]
    | repeatOnce =>
      cases repeated with
      | false => rw [ih h, hstays]
      | true =>
        cases h
        exact hres
    | cont =>
      cases h
      exact hres
    | error => cases h

/-! ## One tactic -/

/-- The filter reported the arguments as called, in an attempt that led from `u` to `v`. -/
def Reported (r : Runner I σ n) (u v : RunState R I σ n) (args : Args I n) : Prop :=
  ∃ w w' : RunState R I σ n, w.trial.getArgs = args ∧ w.bloom = u.bloom ∧ u.trace <:+ w.trace ∧
    callCheckCalled r w = .ok true w' ∧ w'.trace <:+ v.trace

/-- What one tactic came to, in an attempt that led from `u` to `v`. -/
inductive Outcome (r : Runner I σ n) (shrinks : Fin n → Option I → Nat → ShrinkRes × Option I)
    (prop : Args I n → TrialRes) (argI : Fin n) (tactic : Nat) (u v : RunState R I σ n) :
    Option AttemptRes → Prop where
  | deadEnd : Stays u v → (shrinks argI (u.trial.args argI).inst tactic).1 = .deadEnd →
      Outcome r shrinks prop argI tactic u v none
  | passed {candidate} : Stays u v →
      shrinks argI (u.trial.args argI).inst tactic = (.ok, candidate) →
      prop (update u.trial.getArgs argI candidate) = .pass ∨
        prop (update u.trial.getArgs argI candidate) = .skip →
      Outcome r shrinks prop argI tactic u v none
  | called {candidate} : Stays u v →
      shrinks argI (u.trial.args argI).inst tactic = (.ok, candidate) →
      Reported r u v (update u.trial.getArgs argI candidate) →
      Outcome r shrinks prop argI tactic u v none
  | noMoreTactics : Stays u v →
      (shrinks argI (u.trial.args argI).inst tactic).1 = .noMoreTactics →
      Outcome r shrinks prop argI tactic u v (some .deadEnd)
  | shrunk : Outcome r shrinks prop argI tactic u v (some .ok)
  | failed : Outcome r shrinks prop argI tactic u v (some .error)

omit [Platform R] in
/-- An argument that is put back. -/
theorem args_putBack (s : RunState R I σ n) (argI : Fin n) (inst : Option I) :
    (((s.withInst argI inst).withInst argI (s.trial.args argI).inst)).trial.args =
      s.trial.args := by
  funext i
  by_cases hi : i = argI
  · subst hi
    simp [RunState.withInst, modifyArg_same]
  · simp [RunState.withInst, modifyArg_other _ hi]

omit [Platform R] in
/-- An argument is put back after a candidate, whatever was asked in between. -/
theorem Stays.putBack {candidate : Option I} (hu : Stays (s.withInst argI candidate) u) :
    Stays s (u.withInst argI (s.trial.args argI).inst) := by
  have hargs : (u.withInst argI (s.trial.args argI).inst).trial.args =
      ((s.withInst argI candidate).withInst argI (s.trial.args argI).inst).trial.args := by
    simp only [RunState.withInst, TrialInfo.modifyArg]
    rw [show u.trial.args = (s.withInst argI candidate).trial.args from hu]
    rfl
  exact hargs.trans (args_putBack s argI candidate)

theorem freeInst_frame {inst : Option I} (h : freeInst r argI inst s = .ok () t) :
    Stays s t ∧ s.trace <:+ t.trace := by
  have hasked := (Asked.freeInst (K := [.free]) (by decide) r argI inst).of_returned h
  obtain ⟨new, htrace, -⟩ := hasked.trace
  exact ⟨hasked.stays, new, htrace.symm⟩

/-- What is done to give a candidate up after the property was called with it. -/
theorem judgeCandidate_outcome (henable : r.autoshrinks argI = false)
    {current candidate : Option I} {currentPool candidatePool : Option BitPool} {res : TrialRes}
    {out : Option AttemptRes}
    (h : judgeCandidate r argI current candidate currentPool candidatePool res s = .ok out t) :
    (out = none ∧ Stays (s.withInst argI current) t ∧ (res = .pass ∨ res = .skip)) ∨
      out = some .ok ∨ out = some .error := by
  unfold judgeCandidate autoshrinkUpdateModel revertPool at h
  simp only [ifAutoshrink_off henable, pure_bind] at h
  have hgiven {u : RunState R I σ n}
      (h : (do
        setInst argI current
        freeInst r argI candidate
        return (none : Option AttemptRes)) s = .ok out u) :
      out = none ∧ Stays (s.withInst argI current) u := by
    obtain ⟨_, s₁, hset, hrest⟩ := bind_eq_ok.mp h
    obtain ⟨_, s₂, hfree, hdone⟩ := bind_eq_ok.mp hrest
    cases hset
    cases hdone
    exact ⟨rfl, (freeInst_frame hfree).1⟩
  cases res with
  | pass =>
    obtain ⟨hout, hstays⟩ := hgiven h
    exact .inl ⟨hout, hstays, .inl rfl⟩
  | skip =>
    obtain ⟨hout, hstays⟩ := hgiven h
    exact .inl ⟨hout, hstays, .inr rfl⟩
  | fail =>
    obtain ⟨_, s₁, -, h⟩ := bind_eq_ok.mp h
    cases h
    exact .inr (.inl rfl)
  | dup =>
    obtain ⟨_, s₁, -, h⟩ := bind_eq_ok.mp h
    cases h
    exact .inr (.inr rfl)
  | error =>
    obtain ⟨_, s₁, -, h⟩ := bind_eq_ok.mp h
    cases h
    exact .inr (.inr rfl)

/-- The filter is asked only when there is one. -/
theorem skipCalled_found (h : skipCalled r s = .ok true t) : callCheckCalled r s = .ok true t := by
  obtain ⟨_, _, hget, h⟩ := bind_eq_ok.mp h
  cases hget
  split at h
  · obtain ⟨found, s₁, hcheck, h⟩ := bind_eq_ok.mp h
    cases found with
    | true =>
      cases h
      exact hcheck
    | false =>
      obtain ⟨_, s₂, -, h⟩ := bind_eq_ok.mp h
      cases h
  · cases h

/-- A candidate that is given up. -/
theorem tryCandidate_outcome (hprop : PropertyIs r prop) (henable : r.autoshrinks argI = false)
    {fuel tactic : Nat} {candidate : Option I} {currentPool candidatePool : Option BitPool}
    {out : Option AttemptRes}
    (h : tryCandidate fuel r argI tactic (s.trial.args argI).inst candidate currentPool
      candidatePool s = .ok out t) :
    (out = none ∧ Stays s t ∧
      ((prop (update s.trial.getArgs argI candidate) = .pass ∨
        prop (update s.trial.getArgs argI candidate) = .skip) ∨
        Reported r s t (update s.trial.getArgs argI candidate))) ∨
    out = some .ok ∨ out = some .error := by
  unfold tryCandidate at h
  obtain ⟨_, s₁, hset, h⟩ := bind_eq_ok.mp h
  obtain ⟨_, s₂, hpool, h⟩ := bind_eq_ok.mp h
  obtain ⟨found, s₃, hskip, h⟩ := bind_eq_ok.mp h
  have hs₁ : s₁ = s.withInst argI candidate := by
    cases hset
    rfl
  have hs₂ : s₂ = s₁ := by
    unfold ifAutoshrink at hpool
    rw [if_neg (Bool.eq_false_iff.mp henable)] at hpool
    cases hpool
    rfl
  rw [hs₂, hs₁] at hskip
  have hcandidate : (s.withInst argI candidate).trial.getArgs =
      update s.trial.getArgs argI candidate := getArgs_withInst s argI candidate
  have h₃ : Stays (s.withInst argI candidate) s₃ := Stays.skipCalled.of_returned hskip
  cases found with
  | true =>
    rw [if_pos rfl] at h
    obtain ⟨_, s₄, hfree, h⟩ := bind_eq_ok.mp h
    rw [revertPool, ifAutoshrink_off henable, pure_bind] at h
    obtain ⟨_, s₅, hback, h⟩ := bind_eq_ok.mp h
    cases hback
    cases h
    obtain ⟨h₄, htrace⟩ := freeInst_frame hfree
    refine .inl ⟨rfl, Stays.putBack (IsTrans.trans _ _ _ h₃ h₄), .inr ?_⟩
    exact ⟨_, s₃, hcandidate, rfl, List.suffix_rfl, skipCalled_found hskip, htrace⟩
  | false =>
    rw [if_neg Bool.false_ne_true] at h
    obtain ⟨res, s₄, htrials, h⟩ := bind_eq_ok.mp h
    have h₄ : Stays s₃ s₄ := (Stays.shrinkTrials henable tactic fuel false).of_returned htrials
    cases res with
    | none =>
      obtain ⟨_, s₅, hfree, h⟩ := bind_eq_ok.mp h
      obtain ⟨_, s₆, hpool, h⟩ := bind_eq_ok.mp h
      cases h
      exact .inr (.inr rfl)
    | some res =>
      have hres : res = prop (update s.trial.getArgs argI candidate) := by
        rw [shrinkTrials_result hprop henable tactic fuel htrials, h₃.getArgs, hcandidate]
      obtain ⟨hout, hstays, hjudged⟩ | hout := judgeCandidate_outcome henable h
      · rw [hres] at hjudged
        have h₄ : Stays s (s₄.withInst argI (s.trial.args argI).inst) :=
          Stays.putBack (IsTrans.trans _ _ _ h₃ h₄)
        exact .inl ⟨hout, IsTrans.trans _ _ _ h₄ hstays, .inl hjudged⟩
      · exact .inr hout

/-- The arguments and the filter are the same, and the trace went on. -/
structure Leads (s t : RunState R I σ n) : Prop where
  stays : Stays s t
  bloom : t.bloom = s.bloom
  trace : s.trace <:+ t.trace

omit [Platform R] in
theorem Leads.trans (h₁ : Leads s t) (h₂ : Leads t u) : Leads s u :=
  ⟨IsTrans.trans _ _ _ h₁.stays h₂.stays, h₂.bloom.trans h₁.bloom, h₁.trace.trans h₂.trace⟩

omit [Platform R] in
theorem Asked.leads {K : List EventKind} (h : Asked K s t) : Leads s t := by
  obtain ⟨new, htrace, -⟩ := h.trace
  exact ⟨h.stays, h.bloom, new, htrace.symm⟩

theorem Reported.of_leads {args : Args I n} (h : Leads s u) (hr : Reported r u v args) :
    Reported r s v args := by
  obtain ⟨w, w', hargs, hbloom, hsuffix, hcheck, hv⟩ := hr
  exact ⟨w, w', hargs, hbloom.trans h.bloom, h.trace.trans hsuffix, hcheck, hv⟩

/-- A hook that never halts lets the tactic be tried, or answers an error. -/
theorem shrinkPreHook_answer (hhalts : r.NeverHalts) {arg : Option I} {tactic : Nat}
    {answer : HookShrinkPreRes} (h : shrinkPreHook r argI arg tactic s = .ok answer t) :
    answer ≠ .halt ∧ Leads s t := by
  have hleads : Leads s t := ((Asked.shrinkPreHook (K := [.shrinkPre]) (by decide) r argI arg
    tactic).of_returned h).leads
  refine ⟨?_, hleads⟩
  obtain ⟨_, _, hget, h⟩ := bind_eq_ok.mp h
  cases hget
  cases hhook : r.hooks.shrinkPre with
  | none =>
    rw [hhook] at h
    cases h
    simp
  | some hook =>
    rw [hhook] at h
    obtain ⟨u, u', hreturns⟩ := ask_returned h
    simp only [Gen.Returns] at hreturns
    rintro rfl
    exact hhalts hook hhook _ u (congrArg Prod.fst hreturns.symm)

/-- The answer of the `shrink` callback. -/
theorem userCandidate_answer (hshrinks : ShrinksBy r shrinks) {current candidate : Option I}
    {tactic : Nat} {sres : ShrinkRes} {pool : Option BitPool}
    (h : userCandidate r argI current tactic s = .ok (sres, candidate, pool) t) :
    (sres, candidate) = shrinks argI current tactic ∧ Leads s t := by
  unfold userCandidate at h
  cases hshrink : (r.typeInfo argI).shrink with
  | none =>
    rw [hshrink] at h
    cases h
  | some f =>
    rw [hshrink] at h
    obtain ⟨a, s₁, hask, h⟩ := bind_eq_ok.mp h
    cases h
    have hleads := ((Asked.ask (K := [.shrink])
      (List.mem_singleton.mpr rfl) (fun _ => List.mem_singleton.mpr rfl) _).of_returned hask).leads
    obtain ⟨u, u', hreturns⟩ := ask_returned hask
    obtain ⟨⟨res, inst, user⟩, hf, heq⟩ := Gen.Returns.of_map hreturns
    cases heq
    exact ⟨hshrinks _ _ hshrink _ _ _ _ _ _ hf, hleads⟩

/-- Every way one tactic can end. -/
theorem tactic_outcome (hprop : PropertyIs r prop) (hshrinks : ShrinksBy r shrinks)
    (hhalts : r.NeverHalts) (henable : r.autoshrinks argI = false) {fuel tactic : Nat}
    {out : Option AttemptRes} (h : attemptTactic fuel r argI tactic s = .ok out t) :
    Outcome r shrinks prop argI tactic s t out := by
  unfold attemptTactic at h
  obtain ⟨_, _, hget, h⟩ := bind_eq_ok.mp h
  cases hget
  obtain ⟨answer, s₁, hpre, h⟩ := bind_eq_ok.mp h
  obtain ⟨hanswer, h₁⟩ := shrinkPreHook_answer hhalts hpre
  cases answer with
  | halt => exact absurd rfl hanswer
  | error =>
    cases h
    exact .failed
  | cont =>
    rw [if_neg (Bool.eq_false_iff.mp henable)] at h
    obtain ⟨⟨sres, candidate, pool⟩, s₂, hcandidate, h⟩ := bind_eq_ok.mp h
    obtain ⟨hshrunk, h₂⟩ := userCandidate_answer hshrinks hcandidate
    obtain ⟨currentPool, _, hget, h⟩ := bind_eq_ok.mp h
    cases hget
    obtain ⟨_, s₃, hcount, h⟩ := bind_eq_ok.mp h
    have h₃ : Leads s₂ s₃ := by
      cases hcount
      exact ⟨rfl, rfl, List.suffix_rfl⟩
    obtain ⟨answer, s₄, hpost, h⟩ := bind_eq_ok.mp h
    have h₄ : Leads s₃ s₄ := ((Asked.shrinkPostHook (K := [.shrinkPost]) (by decide) r argI _
      tactic sres).of_returned hpost).leads
    have hleads : Leads s s₄ := h₁.trans (h₂.trans (h₃.trans h₄))
    cases answer with
    | error =>
      obtain ⟨_, s₅, -, h⟩ := bind_eq_ok.mp h
      obtain ⟨_, s₆, -, h⟩ := bind_eq_ok.mp h
      cases h
      exact .failed
    | cont =>
      cases sres with
      | ok =>
        rw [show (s.trial.args argI).inst = (s₄.trial.args argI).inst by rw [hleads.stays]] at h
        obtain ⟨rfl, hstays, hjudged⟩ | rfl | rfl := tryCandidate_outcome hprop henable h
        · rw [hleads.stays.getArgs] at hjudged
          have hstays : Stays s t := IsTrans.trans _ _ _ hleads.stays hstays
          obtain hpassed | hreported := hjudged
          · exact .passed hstays hshrunk.symm hpassed
          · exact .called hstays hshrunk.symm (hreported.of_leads hleads)
        · exact .shrunk
        · exact .failed
      | deadEnd =>
        cases h
        exact .deadEnd hleads.stays (by rw [← hshrunk])
      | noMoreTactics =>
        cases h
        exact .noMoreTactics hleads.stays (by rw [← hshrunk])
      | error =>
        cases h
        exact .failed

/-! ## One argument -/

/-- One tactic was tried for some argument. -/
def Tries (fuel : Nat) (r : Runner I σ n) (u v : RunState R I σ n) : Prop :=
  ∃ argI tactic out, attemptTactic fuel r argI tactic u = .ok out v

/-- Between two states of a shrinking run, the filter reported the arguments as called. -/
def ReportedCalled (fuel : Nat) (r : Runner I σ n) (s t : RunState R I σ n) (args : Args I n) :
    Prop :=
  ∃ u v : RunState R I σ n, ReflTransGen (Tries fuel r) s u ∧ Tries fuel r u v ∧
    ReflTransGen (Tries fuel r) v t ∧ Reported r u v args

/-- The tactic gets no further from the arguments of `t`, in a run that came there from `s`. -/
def Fruitless (fuel : Nat) (r : Runner I σ n) (shrinks : Fin n → Option I → Nat → ShrinkRes × Option I)
    (prop : Args I n → TrialRes) (s t : RunState R I σ n) (argI : Fin n) (tactic : Nat) : Prop :=
  (shrinks argI (t.trial.getArgs argI) tactic).1 = .deadEnd ∨
    ∃ candidate, shrinks argI (t.trial.getArgs argI) tactic = (.ok, candidate) ∧
      (prop (update t.trial.getArgs argI candidate) = .pass ∨
        prop (update t.trial.getArgs argI candidate) = .skip ∨
        ReportedCalled fuel r s t (update t.trial.getArgs argI candidate))

/-- The callback has not said that there are no more tactics. -/
def OnOffer (shrinks : Fin n → Option I → Nat → ShrinkRes × Option I) (t : RunState R I σ n)
    (argI : Fin n) (tactic : Nat) : Prop :=
  ∀ k ≤ tactic, (shrinks argI (t.trial.getArgs argI) k).1 ≠ .noMoreTactics

variable {fuel : Nat}

theorem ReportedCalled.later {args : Args I n} (h : ReportedCalled fuel r s t args)
    (htu : ReflTransGen (Tries fuel r) t u) : ReportedCalled fuel r s u args := by
  obtain ⟨a, b, hsa, hab, hbt, hreported⟩ := h
  exact ⟨a, b, hsa, hab, hbt.trans htu, hreported⟩

theorem Fruitless.later {tactic : Nat} (h : Fruitless fuel r shrinks prop s t argI tactic)
    (htu : ReflTransGen (Tries fuel r) t u) (hstays : Stays t u) :
    Fruitless fuel r shrinks prop s u argI tactic := by
  unfold Fruitless at h ⊢
  rw [hstays.getArgs]
  obtain hdead | ⟨candidate, hshrinks, hpass | hskip | hreported⟩ := h
  · exact .inl hdead
  · exact .inr ⟨candidate, hshrinks, .inl hpass⟩
  · exact .inr ⟨candidate, hshrinks, .inr (.inl hskip)⟩
  · exact .inr ⟨candidate, hshrinks, .inr (.inr (hreported.later htu))⟩

omit [Platform R] in
theorem OnOffer.earlier {tactic : Nat} (h : OnOffer shrinks u argI tactic) (hstays : Stays t u) :
    OnOffer shrinks t argI tactic := by
  unfold OnOffer at h ⊢
  rwa [hstays.getArgs] at h

/-- A tactic after which the next one is tried. -/
theorem Outcome.fruitless {tactic : Nat} (h : Outcome r shrinks prop argI tactic u v none)
    (hsu : ReflTransGen (Tries fuel r) s u) (huv : Tries fuel r u v) :
    Stays u v ∧ Fruitless fuel r shrinks prop s v argI tactic := by
  cases h with
  | deadEnd hstays hdead =>
    refine ⟨hstays, ?_⟩
    unfold Fruitless
    rw [hstays.getArgs]
    exact .inl hdead
  | passed hstays hshrinks hpassed =>
    refine ⟨hstays, ?_⟩
    unfold Fruitless
    rw [hstays.getArgs]
    exact .inr ⟨_, hshrinks, hpassed.imp_right .inl⟩
  | called hstays hshrinks hreported =>
    refine ⟨hstays, ?_⟩
    unfold Fruitless
    rw [hstays.getArgs]
    exact .inr ⟨_, hshrinks, .inr (.inr ⟨u, v, hsu, huv, .refl, hreported⟩)⟩

/-- An attempt that ends in a dead end has changed nothing and tried every tactic. -/
theorem attemptTactics_tried (hprop : PropertyIs r prop) (hshrinks : ShrinksBy r shrinks)
    (hhalts : r.NeverHalts) (henable : r.autoshrinks argI = false) (left : Nat) :
    ∀ {tactic : Nat} {u : RunState R I σ n} {res : AttemptRes},
      attemptTactics fuel r argI left tactic u = .ok res t →
      ReflTransGen (Tries fuel r) s u →
      ReflTransGen (Tries fuel r) u t ∧ res ≠ .halt ∧
        (res = .deadEnd → Stays u t ∧ ∀ k, tactic ≤ k → k < tactic + left →
          OnOffer shrinks t argI k → Fruitless fuel r shrinks prop s t argI k) := by
  induction left with
  | zero =>
    intro tactic u res h hsu
    cases h
    exact ⟨.refl, by simp, fun _ => ⟨rfl, fun k h₁ h₂ => by omega⟩⟩
  | succ left ih =>
    intro tactic u res h hsu
    obtain ⟨out, v, hattempt, h⟩ := bind_eq_ok.mp h
    have huv : Tries fuel r u v := ⟨argI, tactic, out, hattempt⟩
    have houtcome := tactic_outcome hprop hshrinks hhalts henable hattempt
    cases out with
    | none =>
      obtain ⟨hstays, htried⟩ := houtcome.fruitless hsu huv
      obtain ⟨hvt, hhalt, hdead⟩ := ih h (hsu.tail huv)
      refine ⟨hvt.head huv, hhalt, ?_⟩
      intro hres
      obtain ⟨hstays', hrest⟩ := hdead hres
      refine ⟨IsTrans.trans _ _ _ hstays hstays', ?_⟩
      intro k hk hlt hoffered
      obtain rfl | hlater := Nat.eq_or_lt_of_le hk
      · exact htried.later hvt hstays'
      · exact hrest k hlater (by omega) hoffered
    | some out =>
      cases h
      refine ⟨.single huv, ?_, ?_⟩
      · rintro rfl
        cases houtcome
      · rintro rfl
        cases houtcome with
        | noMoreTactics hstays hnone =>
          refine ⟨hstays, ?_⟩
          intro k hk _ hoffered
          exact absurd hnone (hoffered.earlier hstays tactic hk)

/-! ## All of them -/

/-- Every tactic of an argument was tried on the arguments of `t`. -/
def Exhausted (fuel : Nat) (r : Runner I σ n)
    (shrinks : Fin n → Option I → Nat → ShrinkRes × Option I) (prop : Args I n → TrialRes)
    (s t : RunState R I σ n) (argI : Fin n) : Prop :=
  ∀ tactic < maxTactics, OnOffer shrinks t argI tactic →
    Fruitless fuel r shrinks prop s t argI tactic

theorem Exhausted.later (h : Exhausted fuel r shrinks prop s t argI)
    (htu : ReflTransGen (Tries fuel r) t u) (hstays : Stays t u) :
    Exhausted fuel r shrinks prop s u argI :=
  fun tactic htactic hoffered => (h tactic htactic (hoffered.earlier hstays)).later htu hstays

/-- A round without progress has tried every tactic of the arguments before, and nothing has
changed since. -/
theorem shrinkFrom_exhausted (hprop : PropertyIs r prop) (hshrinks : ShrinksBy r shrinks)
    (hhalts : r.NeverHalts) (henable : ∀ i, r.autoshrinks i = false) (attempts : Nat) :
    ∀ {argI : Nat} {progress : Bool} {u : RunState R I σ n},
      shrinkFrom fuel r attempts argI progress u = .ok true t →
      ReflTransGen (Tries fuel r) s u →
      (progress = false → ∀ i : Fin n, i < argI → (r.typeInfo i).shrink.isSome →
        Exhausted fuel r shrinks prop s u i) →
      ∀ i, (r.typeInfo i).shrink.isSome → Exhausted fuel r shrinks prop s t i := by
  induction attempts with
  | zero =>
    intro argI progress u h
    cases h
  | succ attempts ih =>
    intro argI progress u h hsu hround
    unfold shrinkFrom at h
    split at h
    · rename_i hlt
      split at h
      · obtain ⟨res, v, hattempt, h⟩ := bind_eq_ok.mp h
        obtain ⟨huv, hhalt, hdead⟩ := attemptTactics_tried hprop hshrinks hhalts
          (henable ⟨argI, hlt⟩) maxTactics hattempt hsu
        cases res with
        | ok => exact ih h (hsu.trans huv) (by simp)
        | halt => exact absurd rfl hhalt
        | error => cases h
        | deadEnd =>
          obtain ⟨hstays, htried⟩ := hdead rfl
          apply ih h (hsu.trans huv)
          intro hprogress i hi hshrink
          obtain hi | hi := Nat.lt_succ_iff_lt_or_eq.mp hi
          · exact (hround hprogress i hi hshrink).later huv hstays
          · obtain rfl : i = ⟨argI, hlt⟩ := Fin.ext hi
            intro tactic htactic hoffered
            exact htried tactic (Nat.zero_le _) (by omega) hoffered
      · rename_i hnone
        apply ih h hsu
        intro hprogress i hi hshrink
        obtain hi | hi := Nat.lt_succ_iff_lt_or_eq.mp hi
        · exact hround hprogress i hi hshrink
        · obtain rfl : i = ⟨argI, hlt⟩ := Fin.ext hi
          exact absurd (.inl hshrink) hnone
    · split at h
      · exact ih h hsu fun _ i hi => absurd hi (Nat.not_lt_zero _)
      · rename_i hlt hprogress
        cases h
        intro i
        exact hround (Bool.eq_false_iff.mpr hprogress) i (by omega)

/-- Shrinking with callbacks stops only at a local minimum. -/
theorem shrink_local_minimum (hprop : PropertyIs r prop) (hshrinks : ShrinksBy r shrinks)
    (hhalts : r.NeverHalts) (henable : ∀ i, r.autoshrinks i = false)
    (h : shrink fuel r s = .ok true t) (argI : Fin n) (hshrink : (r.typeInfo argI).shrink.isSome)
    (tactic : Nat) (htactic : tactic < maxTactics)
    (hoffered : ∀ k ≤ tactic, (shrinks argI (t.trial.getArgs argI) k).1 ≠ .noMoreTactics) :
    (shrinks argI (t.trial.getArgs argI) tactic).1 = .deadEnd ∨
      ∃ candidate, shrinks argI (t.trial.getArgs argI) tactic = (.ok, candidate) ∧
        (prop (update t.trial.getArgs argI candidate) = .pass ∨
          prop (update t.trial.getArgs argI candidate) = .skip ∨
          ReportedCalled fuel r s t (update t.trial.getArgs argI candidate)) := by
  obtain ⟨_, s₁, hrequire, h⟩ := bind_eq_ok.mp h
  have hs₁ : s₁ = s := by
    unfold require at hrequire
    split at hrequire
    · cases hrequire
      rfl
    · cases hrequire
  rw [hs₁] at h
  exact shrinkFrom_exhausted hprop hshrinks hhalts henable fuel h .refl
    (fun _ i hi => absurd hi (Nat.not_lt_zero _)) argI hshrink tactic htactic hoffered

end

/-! ## Two numbers that are shrunk -/

/-- The property fails for two numbers with a sum of at least three. -/
def sumBelowThree (args : Args Nat 2) : TrialRes :=
  if 3 ≤ (args 0).getD 0 + (args 1).getD 0 then .fail else .pass

/-- The only tactic is to take one away. -/
def oneLess (_ : Fin 2) (inst : Option Nat) : Nat → ShrinkRes × Option Nat
  | 0 => match inst with
    | some (v + 1) => (.ok, some v)
    | _ => (.deadEnd, none)
  | _ + 1 => (.noMoreTactics, none)

def summing : Config Nat Unit 2 where
  name := none
  prop := some fun args u => .ret (sumBelowThree args, u)
  typeInfo := fun i =>
    { alloc := fun u => .ret (.ok, some 3, u)
      free := none
      hash := some fun inst u => (BitVec.ofNat 64 (inst.getD 0), u)
      print := none
      shrink := some fun inst tactic u =>
        .ret ((oneLess i inst tactic).1, (oneLess i inst tactic).2, u)
      autoshrinkConfig := ⟨false, 0, ⟨false, false, false⟩, 0⟩ }
  trials := 1
  seed := 1
  alwaysSeeds := []
  hooks := ⟨none, none, none, none, none, none, none, none, none⟩

theorem shrink_local_minimum_summing : ∃ r s t,
    runInit ⟨false, granted, granted⟩ summing () = some (r, s) ∧
    shrink 16 r ((s.withInst 0 (some 3)).withInst 1 (some 3) : RunState Nat Nat Unit 2) =
      .ok true t ∧
    ((oneLess 1 (t.trial.getArgs 1) 0).1 = .deadEnd ∨
      ∃ candidate, oneLess 1 (t.trial.getArgs 1) 0 = (.ok, candidate) ∧
        (sumBelowThree (update t.trial.getArgs 1 candidate) = .pass ∨
          sumBelowThree (update t.trial.getArgs 1 candidate) = .skip ∨
          ReportedCalled 16 r ((s.withInst 0 (some 3)).withInst 1 (some 3)) t
            (update t.trial.getArgs 1 candidate))) := by
  have hrun : (runInit (R := Nat) ⟨false, granted, granted⟩ summing ()).any (fun a =>
      passes (fun res t => decide (res = true ∧ t.trial.getArgs 1 = some 3))
        (shrink 16 a.1 ((a.2.withInst 0 (some 3)).withInst 1 (some 3)))) = true := by decide +kernel
  obtain ⟨⟨r, s⟩, hinit, hpass⟩ := (Option.any_eq_true _ _).mp hrun
  obtain ⟨res, t, hshrink, hpass⟩ := of_passes hpass
  obtain ⟨rfl, hfinal⟩ := of_decide_eq_true hpass
  have hstart := runInit_started hinit
  refine ⟨r, s, t, hinit, hshrink, ?_⟩
  have hprop : r.propFun = fun args u => .ret (sumBelowThree args, u) :=
    (Option.some.inj hstart.propFun).symm
  have htype : r.typeInfo = summing.typeInfo := hstart.typeInfo
  have hhooks : r.hooks = summing.hooks := hstart.hooks
  apply shrink_local_minimum _ _ _ _ hshrink
  · rw [htype]
    rfl
  · decide
  · intro k hk
    rw [Nat.le_zero.mp hk, hfinal]
    decide
  · intro args u res u' h
    rw [hprop] at h
    cases h
    rfl
  · intro i f hf inst tactic u res candidate u' h
    rw [htype] at hf
    cases hf
    cases h
    rfl
  · intro hook hhook
    rw [hhooks] at hhook
    cases hhook
  · intro i
    unfold Runner.autoshrinks
    rw [htype]
    rfl

end Theft
