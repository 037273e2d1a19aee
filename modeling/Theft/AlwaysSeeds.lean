import Mathlib.Data.List.Infix
import Theft.ErrorRuns
import Theft.Seeds
import Theft.ShrinkDescends

/-!
# The seeds that are always run

* `Blamed`: an error was answered, or the property answered something that ends a trial in one;
* `TrialAt.blamed`: where there is memory, no other trial ends in an error;
* `always_seeds_run_iff`: when every seed that is to run always is the seed of a trial.
-/

namespace Theft

open PackedBits Exec

section
variable {R I σ : Type} {n : Nat} {r : Runner I σ n} {s t : RunState R I σ n}

/-! ## What ends a trial in an error -/

/-- The property answers `DUP`, or it passes when a hook has it run again after it failed. -/
def spoils : List (Event I n) → Bool
  | .returned .dup :: _ => true
  | .returned .pass :: .call _ _ true :: .trialPostRes _ :: _ => true
  | _ => false

/-- A trial was spoilt. -/
def Spoilt (trace : List (Event I n)) : Prop := ∃ newest ∈ trace.tails, spoils newest = true

instance (trace : List (Event I n)) : Decidable (Spoilt trace) :=
  inferInstanceAs (Decidable (∃ newest ∈ trace.tails, spoils newest = true))

instance (s : RunState R I σ n) : Decidable (Loud s) :=
  inferInstanceAs (Decidable (∃ e ∈ s.trace, e.isError = true))

/-- A callback or a hook is to blame for the error that the trial ends in. -/
def Blamed (s : RunState R I σ n) : Prop := Loud s ∨ Spoilt s.trace

namespace Blamed

theorem grows (h : Blamed s) (hst : Grows s t) : Blamed t := by
  obtain ⟨e, he, herror⟩ | ⟨newest, hmem, hspoils⟩ := h
  · exact .inl ⟨e, hst.subset he, herror⟩
  · exact .inr
      ⟨newest, (List.mem_tails _ _).mpr (((List.mem_tails _ _).mp hmem).trans hst), hspoils⟩

/-- The newest event is the answer of an error. -/
theorem of_error {e : Event I n} {older : List (Event I n)} (htrace : s.trace = e :: older)
    (he : e.isError = true) : Blamed s := .inl ⟨e, htrace ▸ List.mem_cons_self, he⟩

theorem of_spoils (h : spoils s.trace = true) : Blamed s :=
  .inr ⟨s.trace, (List.mem_tails _ _).mpr List.suffix_rfl, h⟩

theorem adds {K : List EventKind} (h : Blamed s) (hst : Adds K s t) : Blamed t :=
  h.grows hst.grows

variable [Platform R]

/-! ### Hooks -/

/-- A hook answered an error. -/
theorem askHook_error {Info Res : Type} {hook : Option (Info → σ → Res × σ)} {info : Info}
    {dflt a : Res} {event : Event I n} {answer : Res → Event I n}
    (h : askHook hook info dflt event answer s = .ok a t) (ha : a ≠ dflt)
    (herror : (answer a).isError = true) : Blamed t := by
  cases hook with
  | none =>
    cases h
    exact absurd rfl ha
  | some hook =>
    cases h
    exact of_error rfl herror

theorem ask_answer {α : Type} {event : Event I n} {answer : α → Event I n} {g : σ → Gen (α × σ)}
    {a : α} (h : ask event answer g s = .ok a t) : t.trace = answer a :: event :: s.trace := by
  obtain ⟨a', u, p, -, hrun⟩ | ⟨e, p, -, hrun⟩ := ask_cases event answer g s
  · rw [hrun] at h
    cases h
    rfl
  · rw [hrun] at h
    cases h

theorem genArgsPreHook (h : genArgsPreHook r s = .ok .error t) : Blamed t := by
  obtain ⟨_, _, hget, hask⟩ := bind_eq_ok.mp h
  cases hget
  exact askHook_error hask (by decide) rfl

theorem trialPreHook {trial : Nat} {seed : Word} (h : trialPreHook r trial seed s = .ok .error t) :
    Blamed t := by
  obtain ⟨_, _, hget, hask⟩ := bind_eq_ok.mp h
  cases hget
  exact askHook_error hask (by decide) rfl

theorem shrinkPreHook {argI : Fin n} {arg : Option I} {tactic : Nat}
    (h : shrinkPreHook r argI arg tactic s = .ok .error t) : Blamed t := by
  obtain ⟨_, _, hget, hask⟩ := bind_eq_ok.mp h
  cases hget
  exact askHook_error hask (by decide) rfl

theorem shrinkPostHook {argI : Fin n} {arg : Option I} {tactic : Nat} {sres : ShrinkRes}
    (h : shrinkPostHook r argI arg tactic sres s = .ok .error t) : Blamed t := by
  unfold Theft.shrinkPostHook at h
  cases hhook : r.hooks.shrinkPost with
  | none =>
    rw [hhook] at h
    cases h
  | some hook =>
    rw [hhook] at h
    dsimp only at h
    cases hstate : shrinkPostState sres with
    | none =>
      rw [hstate] at h
      cases h
    | some state =>
      rw [hstate] at h
      obtain ⟨_, _, hget, hask⟩ := bind_eq_ok.mp h
      cases hget
      exact askHook_error hask (by decide) rfl

theorem shrinkTrialPostHook {argI : Fin n} {args : Args I n} {tactic : Nat} {res : TrialRes}
    (h : shrinkTrialPostHook r argI args tactic res s = .ok .error t) : Blamed t := by
  obtain ⟨_, _, hget, hask⟩ := bind_eq_ok.mp h
  cases hget
  exact askHook_error hask (by decide) rfl

/-- The answer of `trial_post` is the newest event, unless it is the default. -/
theorem trialPostHook_answer {info : TrialPostInfo I n} {res : HookTrialPostRes}
    (h : trialPostHook r info s = .ok res t) :
    res = .cont ∨ ∃ older, t.trace = .trialPostRes res :: older := by
  unfold Theft.trialPostHook at h
  cases hhook : r.hooks.trialPost with
  | none =>
    rw [hhook] at h
    cases h
    exact .inl rfl
  | some hook =>
    rw [hhook] at h
    exact .inr ⟨_, ask_answer h⟩

theorem trialPostHook {info : TrialPostInfo I n} (h : trialPostHook r info s = .ok .error t) :
    Blamed t := by
  obtain hdflt | ⟨older, htrace⟩ := trialPostHook_answer h
  · cases hdflt
  · exact of_error htrace rfl

theorem counterexampleHook {info : CounterexampleInfo I n}
    (h : counterexampleHook r info s = .ok .error t) : Blamed t := by
  unfold Theft.counterexampleHook at h
  cases hhook : r.hooks.counterexample with
  | none =>
    rw [hhook] at h
    obtain ⟨_, _, -, hlast⟩ := bind_eq_ok.mp h
    cases hlast
  | some hook =>
    rw [hhook] at h
    exact of_error (ask_answer h) rfl

/-! ### The property -/

/-- The property answered an error or `DUP`. -/
theorem call {args : Args I n} {rerun : Bool} {res : TrialRes}
    (h : call r args rerun s = .ok res t) (hres : res = .error ∨ res = .dup) : Blamed t := by
  obtain ⟨_, _, hget, hask⟩ := bind_eq_ok.mp h
  cases hget
  have htrace := ask_answer hask
  obtain rfl | rfl := hres
  · exact of_error htrace rfl
  · apply of_spoils
    rw [htrace]
    rfl

theorem shrinkTrials {argI : Fin n} {tactic : Nat} (fuel : Nat) :
    ∀ {s t : RunState R I σ n} {repeated : Bool} {out : Option TrialRes},
      shrinkTrials r argI tactic fuel repeated s = .ok out t →
      out = none ∨ out = some .error ∨ out = some .dup → Blamed t := by
  induction fuel with
  | zero =>
    intro s t repeated out h
    cases h
  | succ fuel ih =>
    intro s t repeated out h hout
    rw [shrinkTrials_succ] at h
    obtain ⟨res, t₁, hcall, h⟩ := bind_eq_ok.mp h
    obtain ⟨_, t₂, hcount, h⟩ := bind_eq_ok.mp h
    obtain ⟨answer, t₃, hhook, h⟩ := bind_eq_ok.mp h
    -- the result of the last call decides
    have last (hout : some res = none ∨ some res = some .error ∨ some res = some .dup) :
        Blamed t₃ := by
      have hres : res = .error ∨ res = .dup := by
        obtain h | h | h := hout
        · cases h
        · exact .inl (Option.some.inj h)
        · exact .inr (Option.some.inj h)
      have hcounted := (call hcall hres).adds
        ((Steady.countShrink (K := []) r argI res repeated).of_returned hcount).trace
      exact hcounted.adds ((Asked.shrinkTrialPostHook (K := [.shrinkTrialPost]) (by decide) r argI _
        tactic res).of_returned hhook).trace
    cases answer with
    | error =>
      cases h
      exact shrinkTrialPostHook hhook
    | cont =>
      cases h
      exact last hout
    | repeat_ => exact ih h hout
    | repeatOnce =>
      cases repeated with
      | false => exact ih h hout
      | true =>
        cases h
        exact last hout

/-! ### Attempts -/

theorem judgeCandidate_error {argI : Fin n} {current candidate : Option I}
    {currentPool candidatePool : Option BitPool} {res : TrialRes}
    (h : judgeCandidate r argI current candidate currentPool candidatePool res s =
      .ok (some .error) t) : res = .error ∨ res = .dup := by
  obtain ⟨_, t₁, -, h⟩ := bind_eq_ok.mp h
  have back (h : (do
      setInst argI current
      revertPool r argI currentPool candidatePool
      freeInst r argI candidate
      return (none : Option AttemptRes)) t₁ = .ok (some .error) t) : False := by
    obtain ⟨_, t₂, -, h⟩ := bind_eq_ok.mp h
    obtain ⟨_, t₃, -, h⟩ := bind_eq_ok.mp h
    obtain ⟨_, t₄, -, h⟩ := bind_eq_ok.mp h
    cases h
  cases res with
  | pass => exact (back h).elim
  | skip => exact (back h).elim
  | fail =>
    obtain ⟨_, t₂, -, h⟩ := bind_eq_ok.mp h
    obtain ⟨_, t₃, -, h⟩ := bind_eq_ok.mp h
    cases h
  | dup => exact .inr rfl
  | error => exact .inl rfl

theorem tryCandidate {fuel tactic : Nat} {argI : Fin n} {current candidate : Option I}
    {currentPool candidatePool : Option BitPool}
    (h : tryCandidate fuel r argI tactic current candidate currentPool candidatePool s =
      .ok (some .error) t) : Blamed t := by
  obtain ⟨_, t₁, -, h⟩ := bind_eq_ok.mp h
  obtain ⟨_, t₂, -, h⟩ := bind_eq_ok.mp h
  obtain ⟨found, t₃, -, h⟩ := bind_eq_ok.mp h
  cases found with
  | true =>
    obtain ⟨_, t₄, -, h⟩ := bind_eq_ok.mp h
    obtain ⟨_, t₅, -, h⟩ := bind_eq_ok.mp h
    obtain ⟨_, t₆, -, h⟩ := bind_eq_ok.mp h
    cases h
  | false =>
    obtain ⟨out, t₄, htrials, h⟩ := bind_eq_ok.mp h
    cases out with
    | none =>
      obtain ⟨_, t₅, hfree, h⟩ := bind_eq_ok.mp h
      obtain ⟨_, t₆, hpool, h⟩ := bind_eq_ok.mp h
      cases h
      have hfreed := (shrinkTrials fuel htrials (.inl rfl)).adds
        ((Asked.freeInst (K := [.free]) (by decide) r argI current).of_returned hfree).trace
      exact hfreed.adds ((Steady.ifAutoshrink r argI
        (Freeing.freePoolIf (K := []) currentPool)).of_returned hpool).trace
    | some res =>
      have hres : some res = some .error ∨ some res = some TrialRes.dup := by
        obtain rfl | rfl := judgeCandidate_error h
        · exact .inl rfl
        · exact .inr rfl
      exact (shrinkTrials fuel htrials (.inr hres)).adds
        ((Quiet.judgeCandidate (K := [.free]) (by decide) r argI _ _ _ _ res).of_returned h).trace

/-- With memory for the index, a step of `theft_autoshrink_shrink` answers the error of `alloc`. -/
theorem autoshrinkCandidate (hr : r.Sized) (hs : s.Ready r) (hindex : Indexable r s) {argI : Fin n}
    (henable : r.autoshrinks argI = true) {fuel tactic : Nat} {inst : Option I}
    {copy : Option BitPool}
    (h : autoshrinkCandidate fuel r argI tactic s = .ok (.error, inst, copy) t) : Blamed t := by
  obtain ⟨env, pool, ha⟩ := hs.args argI henable
  unfold Theft.autoshrinkCandidate at h
  rw [bind_apply, get_apply] at h
  dsimp only at h
  rw [ha.hasEnv] at h
  obtain ⟨⟨sres, res, copy'⟩, t₁, hstep, h⟩ := bind_eq_ok.mp h
  cases res with
  | none =>
    cases h
    -- only the index was not made
    have hspec := autoshrinkShrink_spec (ha.auto hs) ha.hasPool ha.valid
      (hr.alloc argI s.user) fuel tactic
    unfold zoomEnv zoom at hstep
    dsimp only at hstep
    rw [ha.hasEnv, Option.getD_some] at hstep
    cases hrun : autoshrinkShrink fuel ((r.typeInfo argI).alloc s.user) tactic
        ⟨s.prng, s.ledger, env⟩ with
    | error e u =>
      rw [hrun] at hstep
      cases hstep
    | ok c u =>
      rw [hrun] at hstep hspec
      cases hstep
      obtain ⟨-, houtcome⟩ := hspec
      cases houtcome with
      | noMemory hmany =>
        exact absurd (hindex.requests henable ha) (Nat.not_le.mpr hmany)
  | some res =>
    obtain ⟨inst', user⟩ := res
    obtain ⟨_, t₂, halloc, h⟩ := bind_eq_ok.mp h
    obtain ⟨_, t₃, hallocated, h⟩ := bind_eq_ok.mp h
    obtain ⟨_, t₄, hmodify, h⟩ := bind_eq_ok.mp h
    cases h
    cases hmodify
    cases hallocated
    exact of_error rfl rfl

theorem userCandidate {argI : Fin n} {current inst : Option I} {copy : Option BitPool}
    {tactic : Nat} (h : userCandidate r argI current tactic s = .ok (.error, inst, copy) t) :
    Blamed t := by
  unfold Theft.userCandidate at h
  cases hshrink : (r.typeInfo argI).shrink with
  | none =>
    rw [hshrink] at h
    cases h
  | some shrink =>
    rw [hshrink] at h
    obtain ⟨⟨sres, candidate⟩, t₁, hask, h⟩ := bind_eq_ok.mp h
    cases h
    exact of_error (ask_answer hask) rfl

/-- One tactic. -/
theorem attemptTactic (hr : r.Sized) (hs : s.Ready r) (hindex : Indexable r s) {argI : Fin n}
    {fuel tactic : Nat} (h : attemptTactic fuel r argI tactic s = .ok (some .error) t) :
    Blamed t := by
  obtain ⟨_, _, hget, h⟩ := bind_eq_ok.mp h
  cases hget
  obtain ⟨answer, t₁, hpre, h⟩ := bind_eq_ok.mp h
  cases answer with
  | halt => cases h
  | error =>
    cases h
    exact shrinkPreHook hpre
  | cont =>
    have ht₁ := ((Keeps.shrinkPreHook argI _ tactic).returned (.refl hs) hpre).1
    obtain ⟨⟨sres, inst, copy⟩, t₂, hoffer, h⟩ := bind_eq_ok.mp h
    obtain ⟨pool, t₃, hpool, h⟩ := bind_eq_ok.mp h
    rw [Keeps.currentPool_run] at hpool
    cases hpool
    obtain ⟨_, t₄, hcount, h⟩ := bind_eq_ok.mp h
    obtain ⟨answer, t₅, hpost, h⟩ := bind_eq_ok.mp h
    cases answer with
    | error =>
      obtain ⟨_, t₆, hfree, h⟩ := bind_eq_ok.mp h
      obtain ⟨_, t₇, hfreePool, h⟩ := bind_eq_ok.mp h
      cases h
      have hfreed := (shrinkPostHook hpost).adds
        ((Asked.freeInst (K := [.free]) (by decide) r argI inst).of_returned hfree).trace
      exact hfreed.adds ((Freeing.freePoolIf (K := []) copy).of_returned hfreePool).trace
    | cont =>
      cases sres with
      | ok => exact tryCandidate h
      | deadEnd => cases h
      | noMoreTactics => cases h
      | error =>
        cases h
        have hoffered : Blamed t₂ := by
          split at hoffer
          · rename_i henable
            exact autoshrinkCandidate hr ht₁.ready (hindex.held ht₁) henable hoffer
          · exact userCandidate hoffer
        have hcounted := hoffered.adds ((Steady.modifyTrial (K := [])
          (f := fun t => { t with shrinkCount := t.shrinkCount + 1 }) (fun _ => rfl)
          (fun _ => rfl) fun _ => rfl).of_returned hcount).trace
        exact hcounted.adds
          ((Asked.shrinkPostHook (K := [.shrinkPost]) (by decide) r argI _ tactic _).of_returned
            hpost).trace

theorem attemptTactics (hr : r.Sized) (hs : s.Ready r) (hindex : Indexable r s) {argI : Fin n}
    (hshrinkable : r.shrinkable argI) {fuel : Nat} (left : Nat) :
    ∀ {u t : RunState R I σ n} {tactic : Nat}, Held r s u →
      attemptTactics fuel r argI left tactic u = .ok .error t → Blamed t := by
  induction left with
  | zero =>
    intro u t tactic _ h
    cases h
  | succ left ih =>
    intro u t tactic hu h
    obtain ⟨out, t₁, htactic, h⟩ := bind_eq_ok.mp h
    have hspec := (attemptTactic_spec hr hs hshrinkable fuel tactic).returned hu htactic
    cases out with
    | some res =>
      cases h
      exact attemptTactic hr hu.ready (hindex.held hu) htactic
    | none =>
      cases hspec with
      | next hheld => exact ih hheld h

/-- The loops of `theft_shrink`. -/
theorem shrinkFrom (hr : r.Sized) (inner fuel : Nat) :
    ∀ {s t : RunState R I σ n} {argI : Nat} {progress : Bool}, s.Ready r → Indexable r s →
      shrinkFrom inner r fuel argI progress s = .ok false t → Blamed t := by
  induction fuel with
  | zero =>
    intro s t argI progress _ _ h
    cases h
  | succ fuel ih =>
    intro s t argI progress hs hindex h
    by_cases hlt : argI < n
    · by_cases hshrinkable : r.shrinkable ⟨argI, hlt⟩
      · rw [shrinkFrom_attempt hlt hshrinkable] at h
        obtain ⟨res, u, hattempt, h⟩ := bind_eq_ok.mp h
        obtain ⟨rfl, hheld⟩ | ⟨tactic, hattempted⟩ :=
          (attemptToShrinkArg_spec hr hs hshrinkable inner).returned rfl hattempt
        · exact ih hheld.ready (hindex.held hheld) h
        · cases res with
          | ok =>
            have hindex' := hindex.attempted hattempted
            cases hattempted with
            | committed _ hheld => exact ih hheld.ready hindex' h
          | deadEnd =>
            cases hattempted with
            | deadEnd hheld => exact ih hheld.ready (hindex.held hheld) h
          | halt => cases h
          | error =>
            cases h
            exact attemptTactics hr hs hindex hshrinkable maxTactics (.refl hs) hattempt
      · rw [Theft.shrinkFrom, dif_pos hlt, if_neg hshrinkable] at h
        exact ih hs hindex h
    · rw [Theft.shrinkFrom, dif_neg hlt] at h
      cases progress with
      | true => exact ih hs hindex h
      | false => cases h

theorem shrink (hr : r.Sized) (hs : s.Ready r) (hindex : Indexable r s) {fuel : Nat}
    (h : shrink fuel r s = .ok false t) : Blamed t := by
  obtain ⟨_, u, hrequire, h⟩ := bind_eq_ok.mp h
  unfold require at hrequire
  split at hrequire
  · cases hrequire
    exact shrinkFrom hr fuel fuel hs hindex h
  · cases hrequire

/-! ### Reports -/

/-- A failed trial that is run again: the answer of the hook is the newest event. -/
theorem repeatFailure {info : TrialPostInfo I n} (fuel : Nat) :
    ∀ {s t : RunState R I σ n} {res : HookTrialPostRes},
      (res = .cont ∨ ∃ older, s.trace = .trialPostRes res :: older) →
      repeatFailure r info fuel res s = .ok .error t → Blamed t := by
  induction fuel with
  | zero =>
    intro s t res hres h
    cases res with
    | cont => cases h
    | error =>
      cases h
      obtain ⟨older, htrace⟩ := hres.resolve_left (by decide)
      exact of_error htrace rfl
    | repeat_ => cases h
    | repeatOnce => cases h
  | succ fuel ih =>
    intro s t res hres h
    have again {res : HookTrialPostRes} (hnewest : ∃ older, s.trace = .trialPostRes res :: older)
        (h : Theft.repeatFailure r info (fuel + 1) .repeat_ s = .ok .error t) : Blamed t := by
      obtain ⟨tres, t₁, hcall, h⟩ := bind_eq_ok.mp h
      cases tres with
      | pass =>
        cases h
        obtain ⟨older, hnewest⟩ := hnewest
        obtain ⟨_, _, hget, hask⟩ := bind_eq_ok.mp hcall
        cases hget
        apply of_spoils
        rw [ask_answer hask, hnewest]
        rfl
      | error =>
        cases h
        exact call hcall (.inl rfl)
      | skip => cases h
      | dup => cases h
      | fail =>
        obtain ⟨answer, t₂, hhook, h⟩ := bind_eq_ok.mp h
        by_cases honce : answer = HookTrialPostRes.repeatOnce
        · rw [if_pos honce] at h
          cases h
          cases honce
        · rw [if_neg honce] at h
          exact ih (trialPostHook_answer hhook) h
    cases res with
    | cont => cases h
    | error =>
      cases h
      obtain ⟨older, htrace⟩ := hres.resolve_left (by decide)
      exact of_error htrace rfl
    | repeat_ => exact again (hres.resolve_left (by decide)) h
    | repeatOnce => exact again (hres.resolve_left (by decide)) h

theorem reportOnFailure {fuel : Nat} {info : TrialPostInfo I n}
    (h : reportOnFailure fuel r info s = .ok .error t) : Blamed t := by
  obtain ⟨_, _, hget, h⟩ := bind_eq_ok.mp h
  cases hget
  obtain ⟨answer, t₁, hcounterexample, h⟩ := bind_eq_ok.mp h
  cases answer with
  | error =>
    cases h
    exact counterexampleHook hcounterexample
  | cont =>
    obtain ⟨res, t₂, hhook, h⟩ := bind_eq_ok.mp h
    exact repeatFailure fuel (trialPostHook_answer hhook) h

/-- What the hook after a trial answers decides. -/
theorem answered {info : TrialPostInfo I n} {more : Bool} {tpres : HookTrialPostRes}
    (h : (do
      let tpres ← Theft.trialPostHook r info
      return (decide (tpres ≠ HookTrialPostRes.error), tpres)) s = .ok (more, tpres) t)
    (hout : more = false ∨ tpres = .error) : Blamed t := by
  obtain ⟨answer, t₁, hhook, h⟩ := bind_eq_ok.mp h
  cases h
  obtain hmore | rfl := hout
  · obtain rfl : tpres = HookTrialPostRes.error := by simpa using hmore
    exact trialPostHook hhook
  · exact trialPostHook hhook

/-- The trial after its first call; a failed one is shrunk from a state that must leave memory for
the index of each pool. -/
theorem judgeTrial (hr : r.Sized) {fuel : Nat} {info : TrialPostInfo I n}
    (hcalled : info.result = .error ∨ info.result = .dup → Blamed s)
    (hfailed : info.result = .fail → s.Ready r ∧ Indexable r s) {more : Bool}
    {tpres : HookTrialPostRes} (h : judgeTrial fuel r info s = .ok (more, tpres) t)
    (hout : more = false ∨ tpres = .error) : Blamed t := by
  unfold Theft.judgeTrial at h
  cases hresult : info.result with
  | pass =>
    rw [hresult] at h
    obtain ⟨_, t₁, -, h⟩ := bind_eq_ok.mp h
    exact answered h hout
  | skip =>
    rw [hresult] at h
    obtain ⟨_, t₁, -, h⟩ := bind_eq_ok.mp h
    exact answered h hout
  | dup =>
    rw [hresult] at h
    obtain ⟨answer, t₁, hhook, h⟩ := bind_eq_ok.mp h
    cases h
    exact (hcalled (.inr hresult)).adds
      ((Asked.trialPostHook (K := [.trialPost]) (by decide) r _).of_returned hhook).trace
  | error =>
    rw [hresult] at h
    obtain ⟨answer, t₁, hhook, h⟩ := bind_eq_ok.mp h
    cases h
    exact (hcalled (.inl hresult)).adds
      ((Asked.trialPostHook (K := [.trialPost]) (by decide) r _).of_returned hhook).trace
  | fail =>
    rw [hresult] at h
    obtain ⟨shrunk, t₁, hshrink, h⟩ := bind_eq_ok.mp h
    cases shrunk with
    | false =>
      obtain ⟨answer, t₂, hhook, h⟩ := bind_eq_ok.mp h
      cases h
      obtain ⟨hready, hindex⟩ := hfailed hresult
      exact (shrink hr hready hindex hshrink).adds
        ((Asked.trialPostHook (K := [.trialPost]) (by decide) r _).of_returned hhook).trace
    | true =>
      obtain ⟨_, t₂, -, h⟩ := bind_eq_ok.mp h
      obtain ⟨_, _, hget, h⟩ := bind_eq_ok.mp h
      cases hget
      obtain ⟨answer, t₃, hreport, h⟩ := bind_eq_ok.mp h
      cases h
      obtain hmore | rfl := hout
      · obtain rfl : tpres = HookTrialPostRes.error := by simpa using hmore
        exact reportOnFailure hreport
      · exact reportOnFailure hreport

theorem trialRun (hr : r.Sized) {fuel : Nat}
    (hfailed : ∀ {u v}, markTrial r s = .ok () u →
      Theft.call r u.trial.getArgs false u = .ok .fail v →
      v.Ready r ∧ Indexable r v) {more : Bool} {tpres : HookTrialPostRes}
    (h : trialRun fuel r s = .ok (more, tpres) t) (hout : more = false ∨ tpres = .error) :
    Blamed t := by
  obtain ⟨_, u₀, hrequire, hrest⟩ := bind_eq_ok.mp h
  have hu₀ : u₀ = s := by
    unfold require at hrequire
    split at hrequire
    · cases hrequire
      rfl
    · cases hrequire
  rw [hu₀] at hrest
  obtain ⟨_, u, hmark, hrest⟩ := bind_eq_ok.mp hrest
  obtain ⟨_, _, hget, hrest⟩ := bind_eq_ok.mp hrest
  cases hget
  obtain ⟨res, v, hcall, hrest⟩ := bind_eq_ok.mp hrest
  refine judgeTrial hr (fun hres => call hcall hres) ?_ hrest hout
  rintro rfl
  exact hfailed hmark hcall

/-! ### Generating arguments -/

/-- What `alloc` returned is lost only when there is no memory for the pool. -/
theorem autoshrinkAlloc_isSome {β : Type} {alloc : Gen (AllocRes × β)}
    {s t : AutoState R} (hsize : getAlignedSize (getDef s.env.poolSize defPoolSize) 64 ≤ maxBits)
    {ares : AllocRes} {res : Option β} (h : autoshrinkAlloc alloc s = .ok (ares, res) t) :
    res.isSome := by
  unfold autoshrinkAlloc allocBitPool at h
  rw [bind_apply, get_apply] at h
  simp only [if_pos hsize] at h
  obtain ⟨_, _, -, h⟩ := bind_eq_ok.mp h
  obtain ⟨_, _, -, h⟩ := bind_eq_ok.mp h
  obtain ⟨_, _, -, h⟩ := bind_eq_ok.mp h
  cases h
  rfl

/-- With memory for the pool, only `alloc` answers an error. -/
theorem genArg {rest : List (Fin n)} {i : Fin n} (hs : Generating r (i :: rest) s)
    (hsize : r.autoshrinks i = true →
      getAlignedSize (getDef (r.typeInfo i).autoshrinkConfig.poolSize defPoolSize) 64 ≤ maxBits)
    {inst : Option I} (h : genArg r i s = .ok (.error, inst) t) : Blamed t := by
  unfold Theft.genArg at h
  by_cases henable : r.autoshrinks i = true
  · rw [if_pos henable] at h
    obtain ⟨env, henv, -, -, -, hpool⟩ := hs.fresh i List.mem_cons_self henable
    unfold allocAutoshrink at h
    rw [bind_apply, get_apply] at h
    dsimp only at h
    rw [henv] at h
    obtain ⟨⟨ares, res⟩, t₁, hstep, h⟩ := bind_eq_ok.mp h
    cases res with
    | none =>
      have hroom : getAlignedSize (getDef env.poolSize defPoolSize) 64 ≤ maxBits := by
        rw [hpool]
        exact hsize henable
      unfold zoomEnv zoom at hstep
      dsimp only at hstep
      rw [henv, Option.getD_some] at hstep
      cases hrun : autoshrinkAlloc ((r.typeInfo i).alloc s.user) ⟨s.prng, s.ledger, env⟩ with
      | error e u =>
        rw [hrun] at hstep
        cases hstep
      | ok c u =>
        rw [hrun] at hstep
        cases hstep
        exact absurd (autoshrinkAlloc_isSome hroom hrun) Bool.false_ne_true
    | some res =>
      obtain ⟨inst', user⟩ := res
      obtain ⟨_, t₂, halloc, h⟩ := bind_eq_ok.mp h
      obtain ⟨_, t₃, hallocated, h⟩ := bind_eq_ok.mp h
      obtain ⟨_, t₄, hmodify, h⟩ := bind_eq_ok.mp h
      cases h
      cases hmodify
      cases hallocated
      exact of_error rfl rfl
  · rw [if_neg henable] at h
    exact of_error (ask_answer h) rfl

theorem genAllArgs (hr : r.Sized) (hsize : ∀ i, r.autoshrinks i = true →
      getAlignedSize (getDef (r.typeInfo i).autoshrinkConfig.poolSize defPoolSize) 64 ≤ maxBits)
    (rest : List (Fin n)) : rest.Nodup → ∀ {s t : RunState R I σ n}, Generating r rest s →
      genAllArgs r rest s = .ok .error t → Blamed t := by
  induction rest with
  | nil =>
    intro _ s t _ h
    unfold Theft.genAllArgs at h
    rw [bind_apply, get_apply] at h
    dsimp only at h
    split at h
    · obtain ⟨found, u, -, h⟩ := bind_eq_ok.mp h
      cases found <;> cases h
    · cases h
  | cons i rest ih =>
    intro hnodup s t hs h
    obtain ⟨hi, hrest⟩ := List.nodup_cons.mp hnodup
    obtain ⟨⟨ares, inst⟩, u, hgen, h⟩ := bind_eq_ok.mp h
    cases ares with
    | ok =>
      obtain ⟨_, v, hset, h⟩ := bind_eq_ok.mp h
      cases hset
      exact ih hrest ((genArg_spec hr hi).returned hs hgen rfl) h
    | skip => cases h
    | error =>
      cases h
      exact genArg hs (hsize i) hgen

/-! ### A step of the run -/

omit [Platform R] in
theorem stepRes_isError {pres : HookTrialPostRes} (h : (stepRes pres).isError) : pres = .error := by
  cases pres with
  | error => rfl
  | cont => obtain h | h := h <;> cases h
  | repeat_ => obtain h | h := h <;> cases h
  | repeatOnce => obtain h | h := h <;> cases h

theorem runGenerated (hr : r.Sized) {fuel k : Nat} {seed : Word} {gres : AllGenRes}
    (hgen : gres = .error → Blamed s)
    (hfailed : ∀ {u v w}, gres = .ok → Theft.trialPreHook r k seed s = .ok .cont u →
      markTrial r u = .ok () v → Theft.call r v.trial.getArgs false v = .ok .fail w →
      w.Ready r ∧ Indexable r w) {res : RunStepRes}
    (h : runGenerated fuel r k seed gres s = .ok res t) (hres : res.isError) : Blamed t := by
  obtain ⟨_, _, hget, h⟩ := bind_eq_ok.mp h
  cases hget
  have hooked {info : TrialPostInfo I n} {answer : HookTrialPostRes} {u v : RunState R I σ n}
      (hhook : Theft.trialPostHook r info u = .ok answer v)
      (hres : (stepRes answer).isError) : Blamed v := by
    rw [stepRes_isError hres] at hhook
    exact trialPostHook hhook
  cases gres with
  | skip =>
    obtain ⟨_, u, -, h⟩ := bind_eq_ok.mp h
    obtain ⟨answer, v, hhook, h⟩ := bind_eq_ok.mp h
    cases h
    exact hooked hhook hres
  | dup =>
    obtain ⟨_, u, -, h⟩ := bind_eq_ok.mp h
    obtain ⟨answer, v, hhook, h⟩ := bind_eq_ok.mp h
    cases h
    exact hooked hhook hres
  | error =>
    obtain ⟨answer, v, hhook, h⟩ := bind_eq_ok.mp h
    cases h
    exact (hgen rfl).adds
      ((Asked.trialPostHook (K := [.trialPost]) (by decide) r _).of_returned hhook).trace
  | ok =>
    obtain ⟨answer, u, hpre, h⟩ := bind_eq_ok.mp h
    cases answer with
    | halt =>
      cases h
      obtain h | h := hres <;> cases h
    | error =>
      cases h
      exact trialPreHook hpre
    | cont =>
      obtain ⟨⟨more, pres⟩, v, htrial, h⟩ := bind_eq_ok.mp h
      cases h
      refine trialRun hr (fun hmark hcall => hfailed rfl hpre hmark hcall) htrial ?_
      cases more with
      | false => exact .inl rfl
      | true => exact .inr (stepRes_isError hres)

end Blamed

/-! ## The run -/

variable [Platform R] {fuel : Nat} {s₀ : RunState R I σ n} {memory : Memory} {cfg : Config I σ n}
  {user : σ} {res : RunRes}

/-- There is memory for the environments and the pools of arguments, and for the index of each
pool that the run shrinks. -/
structure Ample (fuel : Nat) (r : Runner I σ n) (s₀ : RunState R I σ n) : Prop where
  envs : r.envMemory = granted
  pools : ∀ i, r.autoshrinks i = true →
    getAlignedSize (getDef (r.typeInfo i).autoshrinkConfig.poolSize defPoolSize) 64 ≤ maxBits
  indices : ∀ s, CallsShrink fuel r s₀ s → Indexable r s

/-- A trial that ends the run in an error has one to blame for it. -/
theorem TrialAt.blamed (hinit : runInit memory cfg user = some (r, s₀)) (hr : r.Sized)
    (hample : Ample fuel r s₀) {k : Nat} {seed seed' : Word} (hs : TrialAt fuel r s₀ k seed s)
    (hlt : k < r.trialCount) {res : RunStepRes} (h : runStep fuel r k seed s = .ok (res, seed') t)
    (hres : res.isError) : Blamed t := by
  have hidle := hs.idle hinit
  rw [runStep_eq] at h
  obtain ⟨equipped, t₁, hargs, h⟩ := bind_eq_ok.mp h
  obtain rfl : equipped = true := by
    obtain ⟨t', hequipped⟩ := initArgInfo_equipped (r := r) (List.finRange n)
      { s with trial := .start k (stepSeed r k seed) }
    rw [hargs] at hequipped
    cases hequipped
    refine decide_eq_true fun j _ => ?_
    rw [hample.envs]
    rfl
  obtain ⟨answer, t₂, hgenPre, h⟩ := bind_eq_ok.mp h
  cases answer with
  | halt =>
    cases h
    obtain h | h := hres <;> cases h
  | error =>
    cases h
    exact Blamed.genArgsPreHook hgenPre
  | cont =>
    have hprepared := prepared_start hidle hargs hgenPre
    obtain ⟨_, _, hseed, h⟩ := bind_eq_ok.mp h
    cases hseed
    obtain ⟨gres, t₃, hgen, h⟩ := bind_eq_ok.mp h
    obtain ⟨res', t₄, hgenerated, h⟩ := bind_eq_ok.mp h
    obtain ⟨next, t₅, hnext, h⟩ := bind_eq_ok.mp h
    obtain ⟨_, t₆, hfree, h⟩ := bind_eq_ok.mp h
    cases h
    have hblamed : Blamed t₄ := by
      refine Blamed.runGenerated hr ?_ ?_ hgenerated hres
      · rintro rfl
        exact Blamed.genAllArgs hr hample.pools _ (List.nodup_finRange n) hprepared hgen
      · rintro u v w rfl hpre hmark hcall
        have hcalls : CallsShrink fuel r s₀ w :=
          .trial hs hlt hargs hgenPre hgen hpre hmark hcall
        exact ⟨(called_generated hr hidle hargs hgenPre hgen hpre hmark hcall).1.ready,
          hample.indices w hcalls⟩
    have hseeded := hblamed.adds ((Asked.nextSeed (K := []) res _).of_returned hnext).trace
    exact hseeded.adds ((Freeing.freeArgs (K := [.free]) (by decide) r _).of_returned hfree).trace

/-- **A run that is not ended by an error or a halt runs all its trials.** -/
theorem allTrials (hinit : runInit memory cfg user = some (r, s₀)) (hr : r.Sized)
    (hample : Ample fuel r s₀) (hrun : runTrials fuel r s₀ = .ok res t) (hblamed : ¬ Blamed t)
    (hhalt : ¬ HaltAnswered t.trace) : ∃ seed s, TrialAt fuel r s₀ r.trialCount seed s := by
  obtain ⟨-, hpre | ⟨k, seed, seed', s, res, u, hs, hlt, hstep, hres, rfl⟩⟩ |
    ⟨k, s, answer, hfinished, hpost, -⟩ := runTrials_cases hrun
  · exact absurd (Blamed.askHook_error hpre (by decide) rfl) hblamed
  · exact absurd (hs.blamed hinit hr hample hlt hstep hres) hblamed
  · have hasked : Asked [.runPost] s t := Effect.of_returned (Asked.runPostHook (by decide) r) hpost
    obtain ⟨-, ⟨rfl, -⟩ | ⟨-, hhalted⟩⟩ := hfinished.counted hinit
    · cases hfinished with
      | all hs => exact ⟨_, s, hs⟩
      | halted _ hlt => exact absurd hlt (Nat.lt_irrefl _)
    · exact absurd ((hasked.trace.haltAnswered (by decide) (by decide)).mpr hhalted) hhalt

/-- **The seeds to run always are run iff there are more trials than such seeds, or the trials
there are happen to have them all**, in a run in which no callback answers an error, no hook halts,
no trial is spoilt and there is memory. -/
theorem always_seeds_run_iff (hinit : runInit memory cfg user = some (r, s₀)) (hr : r.Sized)
    (hample : Ample fuel r s₀) (hrun : runTrials fuel r s₀ = .ok res t) (hquiet : ¬ Loud t)
    (hunspoilt : ¬ Spoilt t.trace) (hhalt : ¬ HaltAnswered t.trace) :
    (∀ w ∈ r.runSeed :: r.alwaysSeeds, RunsSeed fuel r s₀ w) ↔
      r.alwaysSeeds.length < r.trialCount ∨
        ∀ w ∈ r.runSeed :: r.alwaysSeeds, w ∈ r.alwaysSeeds.take r.trialCount := by
  have hdone := allTrials hinit hr hample hrun (fun h => h.elim hquiet hunspoilt) hhalt
  by_cases hlt : r.alwaysSeeds.length < r.trialCount
  · exact ⟨fun _ => .inl hlt, fun _ w hw => runsSeed_all hdone hlt hw⟩
  · have htake := runsSeed_take hdone (Nat.le_of_not_lt hlt)
    simp only [htake, hlt, false_or]

end

/-! ## Two runs -/

/-- A number that is a counter-example from 3 on and is shrunk from 5; three trials, and two seeds
to run always. -/
def threeTrials : Config Nat Unit 1 where
  name := none
  prop := some fun args u => .ret (if (args 0).any (3 ≤ ·) then .fail else .pass, u)
  typeInfo _ :=
    { alloc := fun u => .ret (.ok, some 5, u)
      free := none
      hash := none
      print := none
      shrink := some fun inst tactic u =>
        .ret (if tactic = 0 then .ok else .noMoreTactics, inst.map (· - 1), u)
      autoshrinkConfig := ⟨false, 0, ⟨false, false, false⟩, 0⟩ }
  trials := 3
  seed := 7
  alwaysSeeds := [5, 6]
  hooks := ⟨none, none, none, none, none, none, none, none, none⟩

theorem always_seeds_run_iff_three : ∃ r s₀, ∃ t : RunState Nat Nat Unit 1,
    runInit ⟨false, granted, granted⟩ threeTrials () = some (r, s₀) ∧
      runTrials 9 r s₀ = .ok .fail t ∧ r.alwaysSeeds = [5, 6] ∧ r.runSeed = 7 ∧
      ∀ w ∈ r.runSeed :: r.alwaysSeeds, RunsSeed 9 r s₀ w := by
  have hrun : (runInit (R := Nat) ⟨false, granted, granted⟩ threeTrials ()).any (fun a =>
      passes (fun res t => decide (res = .fail ∧ ¬ Loud t ∧ ¬ Spoilt t.trace ∧
        ¬ HaltAnswered t.trace)) (runTrials 9 a.1 a.2)) = true := by decide +kernel
  obtain ⟨⟨r, s₀⟩, hinit, hpass⟩ := (Option.any_eq_true _ _).mp hrun
  obtain ⟨res, t, hres, hpass⟩ := of_passes hpass
  obtain ⟨rfl, hquiet, hunspoilt, hhalt⟩ := of_decide_eq_true hpass
  have hstart := runInit_started hinit
  have hplain (i : Fin 1) : r.autoshrinks i = false := by
    rw [Runner.autoshrinks, hstart.typeInfo]
    rfl
  have hsized : r.Sized := by
    have hprop := Option.some.inj hstart.propFun
    refine ⟨?_, ?_, ?_⟩
    · rw [hstart.typeInfo]
      exact fun _ _ => trivial
    · rw [hstart.typeInfo]
      exact fun _ _ h => (by cases h; exact fun _ _ _ => trivial)
    · rw [← hprop]
      exact fun _ _ => trivial
  have hample : Ample 9 r s₀ := by
    refine ⟨hstart.envMemory, fun i hi => ?_, fun _ _ i hi => ?_⟩
    · rw [hplain] at hi
      cases hi
    · rw [hplain] at hi
      cases hi
  refine ⟨r, s₀, t, hinit, hres, hstart.alwaysSeeds, hstart.runSeed, ?_⟩
  refine (always_seeds_run_iff hinit hsized hample hres hquiet hunspoilt hhalt).mpr (.inl ?_)
  rw [hstart.alwaysSeeds, hstart.trialCount]
  decide

/-- One trial, but two seeds to run always. -/
def fewTrials : Config Word Unit 1 :=
  { anyThreeBits with trials := 1, seed := 7, alwaysSeeds := [5, 6] }

/-- Neither the second of the seeds nor the seed of the run is the seed of a trial. -/
theorem always_seeds_dropped : ∃ r s₀ t,
    runInit ⟨false, granted, granted⟩ fewTrials () = some (r, s₀) ∧
    runTrials 1 r s₀ = .ok .pass (t : RunState Nat Word Unit 1) ∧ ¬ Loud t ∧
    ¬ HaltAnswered t.trace ∧ 6 ∈ r.alwaysSeeds ∧ ¬ RunsSeed 1 r s₀ 6 ∧ r.runSeed = 7 ∧
    ¬ RunsSeed 1 r s₀ 7 := by
  have hrun : (runInit (R := Nat) ⟨false, granted, granted⟩ fewTrials ()).any (fun a =>
      passes (fun res t => decide (res = .pass ∧ ¬ Loud t ∧ ¬ HaltAnswered t.trace))
        (runTrials 1 a.1 a.2)) = true := by decide +kernel
  obtain ⟨⟨r, s₀⟩, hinit, hpass⟩ := (Option.any_eq_true _ _).mp hrun
  obtain ⟨res, t, hres, hpass⟩ := of_passes hpass
  obtain ⟨rfl, hquiet, hhalt⟩ := of_decide_eq_true hpass
  have hstart := runInit_started hinit
  have hseeds : r.alwaysSeeds = [5, 6] := hstart.alwaysSeeds
  have hone : r.trialCount = 1 := hstart.trialCount
  have hfirst : ∀ w, RunsSeed 1 r s₀ w → w = 5 := by
    intro w hw
    obtain ⟨k, seed, s, -, hlt, rfl⟩ := runsSeed_iff.mp hw
    have hk : k = 0 := by omega
    subst hk
    rw [stepSeed_always r (by rw [hseeds]; decide)]
    simp only [hseeds, List.getElem_cons_zero]
  refine ⟨r, s₀, t, hinit, hres, hquiet, hhalt, ?_, ?_, hstart.runSeed, ?_⟩
  · rw [hseeds]
    decide
  · exact fun h => absurd (hfirst 6 h) (by decide)
  · exact fun h => absurd (hfirst 7 h) (by decide)

end Theft
