import Mathlib.Data.List.TakeWhile
import Theft.Progress
import Theft.RunProtocol

/-!
# The progress that runs print

What `theft_hook_trial_post_print_result` is told in a run, and what its text says of the counters
at the end.
-/

namespace Theft

open PackedBits Exec Dialogue ScaledTally

section
variable {R I σ : Type} {n : Nat} {r : Runner I σ n}

/-- `theft_hook_trial_post_print_result`, but for what it prints -/
def hookTrialPostPrintResult (_info : TrialPostInfo I n) (user : σ) :
    Gen (HookTrialPostRes × σ) := .ret (.cont, user)

/-- The result that `trial_post` is told -/
def Event.toldResult : Event I n → Option TrialRes
  | .trialPost info => some info.result
  | _ => none

/-- The results that `trial_post` was told, the latest of which is the first -/
def trialResults (events : List (Event I n)) : List TrialRes := events.filterMap Event.toldResult

/-- The counter of a result -/
def RunReport.of (c : RunReport) : TrialRes → Nat
  | .pass => c.pass
  | .fail => c.fail
  | .skip => c.skip
  | .dup => c.dup
  | .error => 0

namespace Stage

/-- The results that are counted, but not told yet -/
def due (res : TrialRes) : Stage I n → Nat
  | reporting info | printing _ info | posting info _ => if info.result = res then 1 else 0
  | freeing _ _ next | reverting _ next | hashing _ next => next.due res
  | _ => 0

/-- The stages of a run that comes to an error -/
def erred : Stage I n → Bool
  | posting _ (.nothing _) | ended .genError | ended .trialError | releasing _ .genError
  | releasing _ .trialError | freed .genError | freed .trialError | finished .error => true
  | freeing _ _ next | reverting _ next | hashing _ next => next.erred
  | _ => false

/-- The stages that no run comes to when `trial_post` lets it go on -/
def unreached : Stage I n → Bool
  | again _ | posting _ (.nothing .ok) | posting _ (.nothing .halt) => true
  | freeing _ _ next | reverting _ next | hashing _ next => next.unreached
  | _ => false

/-- The trials that `trial_post` may have been told of -/
def told (trials trial : Nat) : Stage I n → Nat
  | start => 0
  | between k _ => k
  | ended _ | releasing _ _ | freed _ => trial + 1
  | closing | finished _ => trials
  | freeing _ _ next | reverting _ next | hashing _ next => next.told trials trial
  | _ => trial

/-- The trials that it will be told of before the next one -/
def untold : Stage I n → Nat
  | start | between _ _ | ended _ | releasing _ _ | freed _ | closing | finished _ => 0
  | freeing _ _ next | reverting _ next | hashing _ next => next.untold
  | _ => 1

end Stage

/-- What `trial_post` was told, and what was counted -/
structure Posted (r : Runner I σ n) (events : List (Event I n)) (p : Phase I n) : Prop where
  counted : p.1.erred = false → ∀ res,
    (trialResults events).count res + p.1.due res = p.2.counters.of res
  reached : p.1.unreached = false
  length : (trialResults events).length ≤ p.1.told r.trialCount p.2.trial
  room : p.1.told r.trialCount p.2.trial + p.1.untold ≤ r.trialCount

theorem trialResults_cons {event : Event I n} (hkind : event.kind ≠ .trialPost)
    (events : List (Event I n)) : trialResults (event :: events) = trialResults events := by
  apply List.filterMap_cons_none
  cases event with
  | trialPost => exact absurd rfl hkind
  | _ => rfl

theorem Posted.other {events : List (Event I n)} {p : Phase I n} {event : Event I n}
    (hkind : event.kind ≠ .trialPost) (h : Posted r events p) : Posted r (event :: events) p := by
  obtain ⟨hcounted, hreached, hlength, hroom⟩ := h
  rw [← trialResults_cons hkind] at hcounted hlength
  exact ⟨hcounted, hreached, hlength, hroom⟩

theorem Posted.others {events : List (Event I n)} {p : Phase I n} {question answer : Event I n}
    (hquestion : question.kind ≠ .trialPost) (hanswer : answer.kind ≠ .trialPost)
    (h : Posted r events p) : Posted r (answer :: question :: events) p :=
  (h.other hquestion).other hanswer

/-- A step that tells nothing -/
theorem Posted.onward {events : List (Event I n)} {p q : Phase I n} (h : Posted r events p)
    (hcounted : q.1.erred = false → p.1.erred = false ∧ ∀ res,
      p.1.due res + q.2.counters.of res = q.1.due res + p.2.counters.of res)
    (hreached : q.1.unreached = false)
    (hlength : p.1.told r.trialCount p.2.trial ≤ q.1.told r.trialCount q.2.trial)
    (hroom : q.1.told r.trialCount q.2.trial + q.1.untold ≤ r.trialCount) : Posted r events q where
  counted herred res := by
    obtain ⟨hp, hdue⟩ := hcounted herred
    have := h.counted hp res
    have := hdue res
    omega
  reached := hreached
  length := Nat.le_trans h.length hlength
  room := hroom

/-- A step within a trial, or between trials -/
theorem Posted.along {events : List (Event I n)} {p q : Phase I n} (h : Posted r events p)
    (herred : q.1.erred = p.1.erred) (hdue : ∀ res, q.1.due res = p.1.due res)
    (hcounters : q.2.counters = p.2.counters) (hreached : q.1.unreached = p.1.unreached)
    (htold : q.1.told r.trialCount q.2.trial = p.1.told r.trialCount p.2.trial)
    (huntold : q.1.untold = p.1.untold) : Posted r events q :=
  h.onward (fun hq => ⟨herred ▸ hq, fun res => by rw [hdue, hcounters]⟩) (hreached.trans h.reached)
    (Nat.le_of_eq htold.symm) (by rw [htold, huntold]; exact h.room)

/-- One counter is raised, and `trial_post` is to be told. -/
theorem Posted.count {events : List (Event I n)} {p q : Phase I n} (h : Posted r events p)
    (herred : p.1.erred = false) (hdue : ∀ res, p.1.due res = 0) (result : TrialRes)
    (hdue' : ∀ res, q.1.due res = if result = res then 1 else 0)
    (hcounters : ∀ res, q.2.counters.of res = p.2.counters.of res + if result = res then 1 else 0)
    (hreached : q.1.unreached = false)
    (htold : q.1.told r.trialCount q.2.trial = p.1.told r.trialCount p.2.trial)
    (huntold : q.1.untold = p.1.untold) : Posted r events q :=
  h.onward (fun _ => ⟨herred, fun res => by rw [hdue, hdue', hcounters]; omega⟩) hreached
    (Nat.le_of_eq htold.symm) (by rw [htold, huntold]; exact h.room)

/-- The run ends. -/
theorem Posted.finish {events : List (Event I n)} {v : View I n}
    (h : Posted r events (.closing, v)) (res : HookRunPostRes) :
    Posted r events (.afterRunPost v.counters res, v) := by
  have hroom := h.room
  cases res with
  | cont => exact h.onward (fun _ => ⟨rfl, fun _ => rfl⟩) rfl (Nat.le_refl _) hroom
  | error => exact h.onward nofun rfl (Nat.le_refl _) hroom

theorem Posted.silent {events : List (Event I n)} {p q : Phase I n}
    (hhook : r.hooks.trialPost.isSome = true) (h : Posted r events p) (hstep : SilentStep r p q) :
    Posted r events q := by
  have hroom := h.room
  cases hstep with
  | noGenArgsPre | nextArg | noMemory | allGenerated | hashGenerated | original | duplicate
  | noTrialPre | unmarked | mark | failed | attempt | unshrinkable | anotherRound | minimal
  | noShrinkPre | lastTactic | noCandidate | countAttempt | exchange | unchecked | check | called
  | markCandidate | revert | noFree | noHash | allHashed | noCounterexample | noPrint | allPrinted
  | noRunPre | nextTrial =>
    exact h.along rfl (fun _ => rfl) rfl rfl rfl rfl
  | @release v res | @noRelease v res | @allReleased v res =>
    cases res <;> exact h.along rfl (fun _ => rfl) rfl rfl rfl rfl
  | noEnvironment => exact h.onward nofun rfl (Nat.le_succ _) hroom
  | @noShrinkPost v a res => cases res <;> exact h.along rfl (fun _ => rfl) rfl rfl rfl rfl
  | @count v a candidate repeated res =>
    have hsame : (v.countShrink repeated res).counters = v.counters ∧
        (v.countShrink repeated res).trial = v.trial := by
      cases repeated with
      | true => exact ⟨rfl, rfl⟩
      | false => cases res <;> exact ⟨rfl, rfl⟩
    exact h.along rfl (fun _ => rfl) hsame.1 rfl hsame.2 rfl
  | @noShrinkTrialPost v a candidate repeated res =>
    cases res <;> exact h.along rfl (fun _ => rfl) rfl rfl rfl rfl
  | @trial v k seed hlt =>
    exact h.onward (fun _ => ⟨rfl, fun _ => rfl⟩) rfl (Nat.le_refl k) hlt
  | lastTrial => exact h.onward (fun _ => ⟨rfl, fun _ => rfl⟩) rfl (Nat.le_refl _) (Nat.le_refl _)
  | genSkip | skipped =>
    exact h.count rfl (fun _ => rfl) .skip (fun _ => rfl) (fun res => by cases res <;> rfl) rfl rfl rfl
  | genDup =>
    exact h.count rfl (fun _ => rfl) .dup (fun _ => rfl) (fun res => by cases res <;> rfl) rfl rfl rfl
  | passed =>
    exact h.count rfl (fun _ => rfl) .pass (fun _ => rfl) (fun res => by cases res <;> rfl) rfl rfl rfl
  | report =>
    exact h.count rfl (fun _ => rfl) .fail (fun _ => rfl) (fun res => by cases res <;> rfl) rfl rfl rfl
  | genError | erred | lost => exact h.onward nofun rfl (Nat.le_refl _) hroom
  | noTrialPost hnone => simp [hnone] at hhook
  | halt => exact h.onward (fun _ => ⟨rfl, fun _ => rfl⟩) rfl hroom (Nat.le_refl _)
  | stop hres =>
    obtain rfl | rfl := hres
    · exact h.onward nofun rfl hroom (Nat.le_refl _)
    · exact h.onward nofun rfl hroom (Nat.le_refl _)
  | noRunPost => exact h.finish .cont

theorem Posted.notice {events : List (Event I n)} {p q : Phase I n} {event : Event I n}
    (h : Posted r events p) (hstep : NoticeStep r p event q) : Posted r (event :: events) q := by
  cases hstep with
  | hash | free | print => exact Posted.other nofun (h.along rfl (fun _ => rfl) rfl rfl rfl rfl)
  | @release v res =>
    cases res <;> exact Posted.other nofun (h.along rfl (fun _ => rfl) rfl rfl rfl rfl)

theorem Posted.exchange {events : List (Event I n)} {p q : Phase I n}
    {question answer : Event I n} (hhook : r.hooks.trialPost = some hookTrialPostPrintResult)
    (h : Posted r events p) (hstep : ExchangeStep r p question answer q) :
    Posted r (answer :: question :: events) q := by
  have hroom := h.room
  cases hstep with
  | @runPre v hook u res =>
    refine others nofun nofun ?_
    cases res with
    | cont => exact h.along rfl (fun _ => rfl) rfl rfl rfl rfl
    | error => exact h.onward nofun rfl (Nat.zero_le _) (Nat.le_refl _)
  | @genArgsPre v hook u res =>
    refine others nofun nofun ?_
    cases res with
    | cont => exact h.along rfl (fun _ => rfl) rfl rfl rfl rfl
    | halt => exact h.onward (fun _ => ⟨rfl, fun _ => rfl⟩) rfl (Nat.le_succ _) hroom
    | error => exact h.onward nofun rfl (Nat.le_succ _) hroom
  | @alloc v res =>
    refine others nofun nofun ?_
    cases res <;> exact h.along rfl (fun _ => rfl) rfl rfl rfl rfl
  | @trialPre v hook u res =>
    refine others nofun nofun ?_
    cases res with
    | cont => exact h.along rfl (fun _ => rfl) rfl rfl rfl rfl
    | halt => exact h.onward (fun _ => ⟨rfl, fun _ => rfl⟩) rfl (Nat.le_succ _) hroom
    | error => exact h.onward nofun rfl (Nat.le_succ _) hroom
  | call | shrink | allocShrunk | callShrunk =>
    exact others nofun nofun (h.along rfl (fun _ => rfl) rfl rfl rfl rfl)
  | @shrinkPre v hook u res =>
    refine others nofun nofun ?_
    cases res <;> exact h.along rfl (fun _ => rfl) rfl rfl rfl rfl
  | @shrinkPost v hook u res state candidate answer =>
    refine others nofun nofun ?_
    cases answer with
    | error => exact h.along rfl (fun _ => rfl) rfl rfl rfl rfl
    | cont => cases res <;> exact h.along rfl (fun _ => rfl) rfl rfl rfl rfl
  | @shrinkTrialPost v hook u a candidate repeated res answer =>
    refine others nofun nofun ?_
    have hsettled : Posted r events (.settled a candidate res, v) := by
      cases res <;> exact h.along rfl (fun _ => rfl) rfl rfl rfl rfl
    have hagain : Posted r events (.trying a candidate true, v) :=
      h.along rfl (fun _ => rfl) rfl rfl rfl rfl
    cases answer with
    | repeat_ => exact hagain
    | repeatOnce => cases repeated with
      | true => exact hsettled
      | false => exact hagain
    | cont => exact hsettled
    | error => exact h.along rfl (fun _ => rfl) rfl rfl rfl rfl
  | @counterexample v info res =>
    refine others nofun nofun ?_
    cases res with
    | cont => exact h.along rfl (fun _ => rfl) rfl rfl rfl rfl
    | error => exact h.onward nofun rfl (Nat.le_succ _) hroom
  | @trialPost v info use res hook u u' hsome hres =>
    cases hhook.symm.trans hsome
    cases hres
    have hended (end_ : RunStepRes) (herred : (Stage.ended end_ : Stage I n).erred = false →
        (Stage.posting info use).erred = false) : Posted r (.trialPostRes .cont :: .trialPost info ::
        events) (.ended end_, v) := by
      refine ⟨fun hend other => ?_, rfl, Nat.succ_le_succ h.length, hroom⟩
      have hcount := h.counted (herred hend) other
      show (info.result :: trialResults events).count other + 0 = v.counters.of other
      rw [List.count_cons, ← hcount]
      simp [Stage.due]
    cases use with
    | trial => exact hended .ok fun _ => rfl
    | failure repeated => cases repeated <;> exact hended .ok fun _ => rfl
    | nothing res =>
      cases res with
      | ok | halt =>
        have hreached : true = false := h.reached
        cases hreached
      | genError => exact hended .genError nofun
      | trialError => exact hended .trialError nofun
  | callAgain =>
    have hreached : true = false := h.reached
    cases hreached
  | @runPost v hook u res =>
    exact others nofun nofun (h.finish res)

theorem Posted.of_admits (hhook : r.hooks.trialPost = some hookTrialPostPrintResult)
    {events : List (Event I n)} {p : Phase I n} (h : Admits (protocol r) events p) :
    Posted r events p := by
  refine h.invariant ?_ (fun _ _ _ h hstep => h.silent (by rw [hhook]; rfl) hstep)
    (fun _ _ _ _ h hstep => h.notice hstep) fun _ _ _ _ _ h hstep => h.exchange hhook hstep
  exact ⟨fun _ res => by cases res <;> rfl, rfl, Nat.le_refl 0, Nat.zero_le _⟩

/-- **The progress that a run printed tells how it went.** When a run with
`theft_hook_trial_post_print_result` ends without an error, the failures in the text are those that
were counted, and the marks for skipped trials and duplicates tell their counters; so do the marks
for passed trials when there was no failure. -/
theorem run_progress [Platform R] {memory : Memory} {cfg : Config I σ n} {user : σ}
    {s₀ t : RunState R I σ n} {res : RunRes} (hinit : runInit memory cfg user = some (r, s₀))
    (hhook : cfg.hooks.trialPost = some hookTrialPostPrintResult) {fuel : Nat}
    (hrun : runTrials fuel r s₀ = .ok res t) (hres : res ≠ .error)
    (hmany : r.trialCount ≤ 10 ^ 18) (maxColumn : Byte) :
    let told := (readProgress (printResults maxColumn (trialResults t.trace)).1).tally
    (told 'F').next = t.counters.fail ∧ (told 's').Tells t.counters.skip ∧
      (told 'd').Tells t.counters.dup ∧
      (t.counters.fail = 0 → (told '.').Tells t.counters.pass) := by
  intro told
  have hhook' : r.hooks.trialPost = some hookTrialPostPrintResult := by
    rw [(runInit_started hinit).hooks]
    exact hhook
  have hposted := Posted.of_admits hhook' (runTrials_admits hinit hrun)
  have hcounted (result : TrialRes) : (trialResults t.trace).count result =
      t.counters.of result := by
    have herred : (Stage.finished res : Stage I n).erred = false := by
      cases res with
      | error => exact absurd rfl hres
      | pass | fail | skip | errorMemory | errorBadArgs => rfl
    exact hposted.counted herred result
  obtain ⟨hpass, hskip, hdup, hfail, -⟩ :=
    read_printed maxColumn (trialResults t.trace) (Nat.le_trans hposted.length hmany)
  rw [hcounted] at hskip hdup hfail
  refine ⟨hfail, hskip, hdup, fun hnone => ?_⟩
  · have hall : passesSinceFail (trialResults t.trace) = t.counters.pass := by
      have hnever : .fail ∉ trialResults t.trace := by
        rw [← List.count_eq_zero, hcounted .fail]
        exact hnone
      unfold passesSinceFail
      rw [List.takeWhile_eq_self_iff.mpr fun result hmem => ?_, hcounted .pass]
      · rfl
      · simp only [ne_eq, decide_not, Bool.not_eq_eq_eq_not, Bool.not_true, decide_eq_false_iff_not]
        rintro rfl
        exact hnever hmem
    exact hall ▸ hpass

/-- The countdown, with its progress printed -/
def printedCountdown : Config Nat Unit 1 :=
  { countdown with hooks := { countdown.hooks with trialPost := some hookTrialPostPrintResult } }

/-- One failure was counted, and is in the text. -/
theorem printedCountdown_progress : ∃ r s₀ t,
    runInit ⟨false, granted, granted⟩ printedCountdown () = some (r, s₀) ∧
    runTrials 9 r s₀ = .ok .fail (t : RunState Nat Nat Unit 1) ∧ t.counters.fail = 1 ∧
    ((readProgress (printResults 0 (trialResults t.trace)).1).tally 'F').next = 1 := by
  have hrun : (runInit (R := Nat) ⟨false, granted, granted⟩ printedCountdown ()).any (fun a =>
      decide (a.1.trialCount ≤ 10 ^ 18) &&
      passes (fun res t => decide (res = .fail ∧ t.counters.fail = 1)) (runTrials 9 a.1 a.2)) =
      true := by decide +kernel
  obtain ⟨⟨r, s₀⟩, hinit, hpass⟩ := (Option.any_eq_true _ _).mp hrun
  obtain ⟨hmany, hpass⟩ := Bool.and_eq_true_iff.mp hpass
  obtain ⟨res, t, hres, hpass⟩ := of_passes hpass
  obtain ⟨rfl, hfail⟩ := of_decide_eq_true hpass
  have hprogress := run_progress hinit rfl hres nofun (of_decide_eq_true hmany) 0
  exact ⟨r, s₀, t, hinit, hres, hfail, hprogress.1.trans hfail⟩

end

end Theft
