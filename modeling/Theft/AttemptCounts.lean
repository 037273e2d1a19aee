import Theft.RunProtocol

/-!
# Counting attempts

What the hook before an attempt to shrink is told of the attempts before. The counts are reset for
each trial, so the calls of `shrink_pre` are counted by trial too.
-/

namespace Theft

open PackedBits Exec Dialogue

section
variable {R I σ : Type} {n : Nat} {r : Runner I σ n}

/-- Whether `shrink_pre` was called in a trial -/
def Event.isShrinkPre (trial : Nat) : Event I n → Bool
  | .shrinkPre info => info.trialId = trial
  | _ => false

/-- How often `shrink_pre` was called in a trial -/
def shrinkPreCalls (trial : Nat) (events : List (Event I n)) : Nat :=
  events.countP (Event.isShrinkPre trial)

namespace Stage

/-- The attempts on their way that are not counted yet -/
def uncounted : Stage I n → Nat
  | asking _ | answered _ _ _ => 1
  | freeing _ _ next | reverting _ next | hashing _ next => next.uncounted
  | _ => 0

/-- The candidates on their way that are neither a success nor a failure yet -/
def undecided : Stage I n → Nat
  | offered _ _ _ | accepted _ _ | checking _ _ | checked _ _ | trying _ _ false
  | tried _ _ false _ => 1
  | freeing _ _ next | reverting _ next | hashing _ next => next.undecided
  | _ => 0

/-- The stages of a trial in which its arguments may still be shrunk -/
def mayShrink : Stage I n → Bool
  | start | between _ _ | shrunk _ | reporting _ | printing _ _ | posting _ _ | again _ | ended _
  | releasing _ _ | freed _ | closing | finished _ => false
  | freeing _ _ next | reverting _ next | hashing _ next => next.mayShrink
  | _ => true

/-- The trials that are still to come -/
def Future (trial k : Nat) : Stage I n → Prop
  | start => True
  | between next _ => next ≤ k
  | closing | finished _ => False
  | freeing _ _ next | reverting _ next | hashing _ next => next.Future trial k
  | _ => trial < k

end Stage

/-- What a call of `shrink_pre` is told of the attempts, after these events -/
def ToldAttempts (events : List (Event I n)) : Prop :=
  ∀ info older, .shrinkPre info :: older <:+ events →
    info.shrinkCount = shrinkPreCalls info.trialId older ∧
      info.successfulShrinks + info.failedShrinks ≤ info.shrinkCount

/-- What the attempts of a trial and the events have to do with each other -/
structure Attempts (events : List (Event I n)) (p : Phase I n) : Prop where
  told : ToldAttempts events
  decided : p.2.successfulShrinks + p.2.failedShrinks + p.1.undecided ≤ p.2.shrinkCount
  calls : p.1.mayShrink = true →
    shrinkPreCalls p.2.trial events = p.2.shrinkCount + p.1.uncounted
  future : ∀ k, p.1.Future p.2.trial k → shrinkPreCalls k events = 0

theorem ToldAttempts.cons {events : List (Event I n)} {event : Event I n} (h : ToldAttempts events)
    (hkind : event.kind ≠ .shrinkPre) : ToldAttempts (event :: events) := by
  intro info older hsuffix
  obtain heq | hsuffix := List.suffix_cons_iff.mp hsuffix
  · cases heq
    exact absurd rfl hkind
  · exact h info older hsuffix

theorem shrinkPreCalls_cons {events : List (Event I n)} {event : Event I n}
    (hkind : event.kind ≠ .shrinkPre) (k : Nat) :
    shrinkPreCalls k (event :: events) = shrinkPreCalls k events := by
  apply List.countP_cons_of_neg
  cases event with
  | shrinkPre => exact absurd rfl hkind
  | _ => exact Bool.false_ne_true

/-- Other callbacks than `shrink_pre` leave it at that. -/
theorem Attempts.other {events : List (Event I n)} {p : Phase I n} {event : Event I n}
    (hkind : event.kind ≠ .shrinkPre) (h : Attempts events p) : Attempts (event :: events) p where
  told := h.told.cons hkind
  decided := h.decided
  calls := by rw [shrinkPreCalls_cons hkind]; exact h.calls
  future := by simp only [shrinkPreCalls_cons hkind]; exact h.future

/-- A step after which there is no more to say -/
theorem Attempts.onward {events : List (Event I n)} {p q : Phase I n} (h : Attempts events p)
    (hdecided : q.2.successfulShrinks + q.2.failedShrinks + q.1.undecided ≤ q.2.shrinkCount)
    (hcalls : q.1.mayShrink = true → p.1.mayShrink = true ∧ q.2.trial = p.2.trial ∧
      q.2.shrinkCount + q.1.uncounted = p.2.shrinkCount + p.1.uncounted)
    (hfuture : ∀ k, q.1.Future q.2.trial k → p.1.Future p.2.trial k) : Attempts events q where
  told := h.told
  decided := hdecided
  calls hmay := by
    obtain ⟨hp, htrial, hcount⟩ := hcalls hmay
    rw [htrial, hcount]
    exact h.calls hp
  future k hk := h.future k (hfuture k hk)

theorem Attempts.silent {events : List (Event I n)} {p q : Phase I n}
    (hhook : r.hooks.shrinkPre.isSome = true) (h : Attempts events p) (hstep : SilentStep r p q) :
    Attempts events q := by
  have hdecided := h.decided
  cases hstep with
  | noRunPre => exact h.onward hdecided nofun fun _ _ => trivial
  | @trial v k seed hlt =>
    have hnone := h.future k (Nat.le_refl k)
    exact ⟨h.told, Nat.le_refl 0, fun _ => hnone, fun j hj => h.future j (Nat.le_of_lt hj)⟩
  | lastTrial => exact h.onward hdecided nofun fun _ => False.elim
  | noGenArgsPre | nextArg | allGenerated | hashGenerated | original | duplicate | noMemory
  | noTrialPre | unmarked | mark | failed | attempt | unshrinkable | anotherRound | lastTactic
  | noCandidate | exchange | unchecked | check | markCandidate | revert | noFree | noHash
  | allHashed => exact h.onward hdecided (fun hmay => ⟨hmay, rfl, rfl⟩) fun _ hk => hk
  | noEnvironment | genSkip | genDup | genError | passed | skipped | erred | minimal | report
  | lost | noCounterexample | noPrint | allPrinted | release | noRelease | allReleased =>
    exact h.onward hdecided nofun fun _ hk => hk
  | noShrinkPre hnone => simp [hnone] at hhook
  | countAttempt =>
    exact h.onward (Nat.succ_le_succ hdecided) (fun hmay => ⟨hmay, rfl, rfl⟩) fun _ hk => hk
  | @noShrinkPost v a res =>
    cases res with
    | ok => exact h.onward hdecided (fun hmay => ⟨hmay, rfl, rfl⟩) fun _ hk => hk
    | deadEnd | noMoreTactics =>
      exact h.onward (Nat.le_of_succ_le hdecided) (fun hmay => ⟨hmay, rfl, rfl⟩) fun _ hk => hk
    | error => exact h.onward (Nat.le_of_succ_le hdecided) nofun fun _ hk => hk
  | called =>
    exact h.onward (Nat.le_of_succ_le hdecided) (fun hmay => ⟨hmay, rfl, rfl⟩) fun _ hk => hk
  | @count v a candidate repeated res =>
    have hcount : (v.countShrink repeated res).successfulShrinks +
        (v.countShrink repeated res).failedShrinks =
          v.successfulShrinks + v.failedShrinks +
            (Stage.tried a candidate repeated res : Stage I n).undecided := by
      cases repeated with
      | true => rfl
      | false =>
        cases res with
        | fail => exact Nat.add_right_comm _ _ _
        | pass | skip | dup | error => rfl
    have hsame : (v.countShrink repeated res).trial = v.trial ∧
        (v.countShrink repeated res).shrinkCount = v.shrinkCount := by
      cases repeated with
      | true => exact ⟨rfl, rfl⟩
      | false => cases res <;> exact ⟨rfl, rfl⟩
    refine h.onward ?_ (fun hmay => ⟨hmay, hsame.1, congrArg (· + 0) hsame.2⟩) fun k hk => ?_
    · dsimp only
      rw [hcount, hsame.2]
      exact hdecided
    · exact Nat.lt_of_le_of_lt (Nat.le_of_eq hsame.1.symm) hk
  | @noShrinkTrialPost v a candidate repeated res =>
    cases res with
    | pass | skip | fail =>
      exact h.onward hdecided (fun hmay => ⟨hmay, rfl, rfl⟩) fun _ hk => hk
    | dup | error => exact h.onward hdecided nofun fun _ hk => hk
  | @noTrialPost v info use =>
    cases use with
    | trial | nothing => exact h.onward hdecided nofun fun _ hk => hk
    | failure repeated => cases repeated <;> exact h.onward hdecided nofun fun _ hk => hk
  | nextTrial => exact h.onward (Nat.le_refl 0) nofun fun _ hk => hk
  | halt | stop => exact h.onward (Nat.le_refl 0) nofun fun _ => False.elim
  | noRunPost => exact h.onward hdecided nofun fun _ => False.elim

theorem Attempts.notice {events : List (Event I n)} {p q : Phase I n} {event : Event I n}
    (h : Attempts events p) (hstep : NoticeStep r p event q) : Attempts (event :: events) q := by
  cases hstep with
  | hash | free | print | release =>
    exact Attempts.other nofun
      (h.onward h.decided (fun hmay => ⟨hmay, rfl, rfl⟩) fun _ hk => hk)

theorem Attempts.others {events : List (Event I n)} {p : Phase I n} {question answer : Event I n}
    (hquestion : question.kind ≠ .shrinkPre) (hanswer : answer.kind ≠ .shrinkPre)
    (h : Attempts events p) : Attempts (answer :: question :: events) p :=
  (h.other hquestion).other hanswer

/-- A call of `shrink_pre`: it is told of the attempts before, and is one itself if it is answered
so. -/
theorem Attempts.shrinkPre {events : List (Event I n)} {v : View I n} {argI : Fin n}
    {tactic : Nat} {progress : Bool} (h : Attempts events (.attempting argI tactic progress, v))
    (res : HookShrinkPreRes) :
    Attempts (.shrinkPreRes res :: .shrinkPre (v.shrinkPreInfo r argI tactic) :: events)
      (.afterShrinkPre ⟨argI, tactic, v.args argI, progress⟩ res, v) := by
  have hcalls : shrinkPreCalls v.trial events = v.shrinkCount := h.calls rfl
  have hcount : ∀ k, shrinkPreCalls k
      (.shrinkPreRes res :: .shrinkPre (v.shrinkPreInfo r argI tactic) :: events) =
        shrinkPreCalls k events + if v.trial = k then 1 else 0 := by
    intro k
    simp [shrinkPreCalls, List.countP_cons, Event.isShrinkPre, View.shrinkPreInfo]
  have hfuture : ∀ k, v.trial < k → shrinkPreCalls k
      (.shrinkPreRes res :: .shrinkPre (v.shrinkPreInfo r argI tactic) :: events) = 0 := by
    intro k hk
    rw [hcount, h.future k hk, if_neg (Nat.ne_of_lt hk)]
  have htold : ToldAttempts
      (.shrinkPreRes res :: .shrinkPre (v.shrinkPreInfo r argI tactic) :: events) := by
    intro info older hsuffix
    obtain heq | hsuffix := List.suffix_cons_iff.mp hsuffix
    · cases heq
    · obtain heq | hsuffix := List.suffix_cons_iff.mp hsuffix
      · cases heq
        exact ⟨hcalls.symm, h.decided⟩
      · exact h.told info older hsuffix
  have hasked : shrinkPreCalls v.trial
      (.shrinkPreRes res :: .shrinkPre (v.shrinkPreInfo r argI tactic) :: events) =
        v.shrinkCount + 1 := by
    rw [hcount, hcalls, if_pos rfl]
  cases res with
  | cont => exact ⟨htold, h.decided, fun _ => hasked, hfuture⟩
  | halt | error => exact ⟨htold, h.decided, nofun, hfuture⟩

theorem Attempts.exchange {events : List (Event I n)} {p q : Phase I n}
    {question answer : Event I n} (h : Attempts events p)
    (hstep : ExchangeStep r p question answer q) : Attempts (answer :: question :: events) q := by
  have hdecided := h.decided
  cases hstep with
  | @runPre v hook u res =>
    refine others nofun nofun ?_
    cases res with
    | cont => exact h.onward hdecided nofun fun _ _ => trivial
    | error => exact h.onward hdecided nofun fun _ => False.elim
  | @genArgsPre v hook u res =>
    refine others nofun nofun ?_
    cases res with
    | cont => exact h.onward hdecided (fun hmay => ⟨hmay, rfl, rfl⟩) fun _ hk => hk
    | halt | error => exact h.onward hdecided nofun fun _ hk => hk
  | @alloc v res =>
    refine others nofun nofun ?_
    cases res with
    | ok | skip | error => exact h.onward hdecided (fun hmay => ⟨hmay, rfl, rfl⟩) fun _ hk => hk
  | @trialPre v hook u res =>
    refine others nofun nofun ?_
    cases res with
    | cont => exact h.onward hdecided (fun hmay => ⟨hmay, rfl, rfl⟩) fun _ hk => hk
    | halt | error => exact h.onward hdecided nofun fun _ hk => hk
  | call =>
    exact others nofun nofun (h.onward hdecided (fun hmay => ⟨hmay, rfl, rfl⟩) fun _ hk => hk)
  | shrinkPre => exact h.shrinkPre _
  | shrink | allocShrunk =>
    exact others nofun nofun (h.onward hdecided (fun hmay => ⟨hmay, rfl, rfl⟩) fun _ hk => hk)
  | @shrinkPost v hook u res state candidate answer =>
    refine others nofun nofun ?_
    have hless := Nat.le_of_succ_le hdecided
    cases answer with
    | error => exact h.onward hless nofun fun _ hk => hk
    | cont =>
      cases res with
      | ok => exact h.onward hdecided (fun hmay => ⟨hmay, rfl, rfl⟩) fun _ hk => hk
      | deadEnd | noMoreTactics =>
        exact h.onward hless (fun hmay => ⟨hmay, rfl, rfl⟩) fun _ hk => hk
      | error => exact h.onward hless nofun fun _ hk => hk
  | @callShrunk v a candidate repeated =>
    refine others nofun nofun ?_
    cases repeated <;> exact h.onward hdecided (fun hmay => ⟨hmay, rfl, rfl⟩) fun _ hk => hk
  | @shrinkTrialPost v hook u a candidate repeated res answer =>
    refine others nofun nofun ?_
    have hsettled : Attempts events (.settled a candidate res, v) := by
      cases res with
      | pass | skip | fail =>
        exact h.onward hdecided (fun hmay => ⟨hmay, rfl, rfl⟩) fun _ hk => hk
      | dup | error => exact h.onward hdecided nofun fun _ hk => hk
    have hagain : Attempts events (.trying a candidate true, v) :=
      h.onward hdecided (fun hmay => ⟨hmay, rfl, rfl⟩) fun _ hk => hk
    cases answer with
    | repeat_ => exact hagain
    | repeatOnce => cases repeated with
      | true => exact hsettled
      | false => exact hagain
    | cont => exact hsettled
    | error => exact h.onward hdecided nofun fun _ hk => hk
  | @counterexample v info res =>
    refine others nofun nofun ?_
    cases res <;> exact h.onward hdecided nofun fun _ hk => hk
  | @trialPost v info use res =>
    refine others nofun nofun ?_
    cases use with
    | trial => cases res <;> exact h.onward hdecided nofun fun _ hk => hk
    | failure repeated =>
      cases repeated <;> cases res <;> exact h.onward hdecided nofun fun _ hk => hk
    | nothing => exact h.onward hdecided nofun fun _ hk => hk
  | @callAgain v held res =>
    refine others nofun nofun ?_
    cases res <;> exact h.onward hdecided nofun fun _ hk => hk
  | @runPost v hook u res =>
    refine others nofun nofun ?_
    cases res <;> exact h.onward hdecided nofun fun _ => False.elim

theorem Attempts.of_admits (hhook : r.hooks.shrinkPre.isSome = true) {events : List (Event I n)}
    {p : Phase I n} (h : Admits (protocol r) events p) : Attempts events p := by
  refine h.invariant ⟨?_, Nat.le_refl 0, nofun, fun _ _ => rfl⟩
    (fun _ _ _ h hstep => h.silent hhook hstep) (fun _ _ _ _ h hstep => h.notice hstep)
    fun _ _ _ _ _ h hstep => h.exchange hstep
  intro info older hsuffix
  cases List.suffix_nil.mp hsuffix

/-- **What `shrink_pre` is told of the attempts.** In every run that it is installed in, each call
is told as many attempts as there were calls before it in the same trial, and no more successes
and failures than attempts. -/
theorem shrinkPre_counts [Platform R] {memory : Memory} {cfg : Config I σ n} {user : σ}
    {s₀ : RunState R I σ n} (hinit : runInit memory cfg user = some (r, s₀))
    (hhook : cfg.hooks.shrinkPre.isSome = true) (fuel : Nat) (info : ShrinkPreInfo I)
    (older : List (Event I n))
    (hcall : .shrinkPre info :: older <:+ (final (runTrials fuel r) s₀).trace) :
    info.shrinkCount = shrinkPreCalls info.trialId older ∧
      info.successfulShrinks + info.failedShrinks ≤ info.shrinkCount := by
  have hhook' : r.hooks.shrinkPre.isSome = true := by
    rw [(runInit_started hinit).hooks]
    exact hhook
  have htold : ToldAttempts (final (runTrials fuel r) s₀).trace := by
    refine Follows.of_admits (fun events p h => (Attempts.of_admits hhook' h).told) ?_
      (runTrials_follows hinit fuel)
    intro event events h info older hsuffix
    exact h info older (hsuffix.trans (List.suffix_cons event events))
  exact htold info older hcall

theorem countdown_counts : ∃ r s₀ t, ∃ (info : ShrinkPreInfo Nat) (older : List (Event Nat 1)),
    runInit ⟨false, granted, granted⟩ countdown () = some (r, s₀) ∧
    runTrials 9 r s₀ = .ok .fail (t : RunState Nat Nat Unit 1) ∧
    .shrinkPre info :: older <:+ t.trace ∧ info.shrinkCount = 3 ∧
    shrinkPreCalls info.trialId older = 3 := by
  obtain ⟨r, s₀, t, hinit, hrun, -, htold⟩ := countdown_run
  obtain ⟨e, he, htold⟩ := List.any_eq_true.mp htold
  cases e with
  | shrinkPre info =>
    obtain ⟨hcount, -⟩ := of_decide_eq_true htold
    obtain ⟨newer, older, htrace⟩ := List.append_of_mem he
    have hsuffix : .shrinkPre info :: older <:+ t.trace := ⟨newer, htrace.symm⟩
    have hfinal : (final (runTrials 9 r) s₀).trace = t.trace := by rw [final, hrun]
    have hcounts := shrinkPre_counts hinit rfl 9 info older (by rw [hfinal]; exact hsuffix)
    exact ⟨r, s₀, t, info, older, hinit, hrun, hsuffix, hcount, hcounts.1.symm.trans hcount⟩
  | _ => cases htold

end

end Theft
