import Theft.RunProtocol

/-!
# The verdict

The result of a run is what the answers of the property say. That needs no look into the runner,
only at the protocol of its callbacks: the counters and the answers so far keep step in every
phase.
-/

namespace Theft

open PackedBits Exec Dialogue

section
variable {R I σ : Type} {n : Nat} {r : Runner I σ n}

/-- The counters tell whether the property ever failed and, if not, whether it ever passed. -/
structure Tallied (failed passed : Prop) (c : RunReport) : Prop where
  fail : 0 < c.fail ↔ failed
  pass : ¬ failed → (0 < c.pass ↔ passed)

/-- `theft_run_trials`, from its counters -/
def RunReport.verdict (c : RunReport) : RunRes :=
  if 0 < c.fail then .fail else if 0 < c.pass then .pass else .skip

/-- How far the counters are behind the answers of the property -/
def Stage.Counted (failed passed : Prop) (c : RunReport) : Stage I n → Prop
  | .judged .fail => failed
  | .judged .pass => passed ∧ (0 < c.fail ↔ failed)
  | .start | .between _ _ | .begun | .generating _ | .allocated _ _ | .hashed | .generated _
  | .running | .calling | .judged _ | .posting _ .trial | .closing => Tallied failed passed c
  | .shrinking _ _ | .attempting _ _ _ | .asking _ | .answered _ _ _ | .offered _ _ _
  | .accepted _ _ | .checking _ _ | .checked _ _ | .trying _ _ _ | .tried _ _ _ _
  | .counted _ _ _ _ | .shrunk _ => failed
  | .reverting _ next | .freeing _ _ next => failed ∧ next.Counted failed passed c
  | .hashing _ next => next.Counted failed passed c
  | .reporting _ | .printing _ _ | .posting _ (.failure _) | .again _ => failed ∧ 0 < c.fail
  | .posting _ (.nothing res) | .ended res | .releasing _ res | .freed res =>
    res = .genError ∨ res = .trialError ∨ Tallied failed passed c
  | .finished res => res = .error ∨ res = c.verdict ∧ Tallied failed passed c

/-- What the answers so far and the phase have to do with each other -/
def CountedAt (events : List (Event I n)) (p : Phase I n) : Prop :=
  p.1.Counted (.returned .fail ∈ events) (.returned .pass ∈ events) p.2.counters

theorem Tallied.of_fail {failed passed : Prop} {c : RunReport} (h : failed) (hc : 0 < c.fail) :
    Tallied failed passed c := ⟨iff_of_true hc h, fun hnot => absurd h hnot⟩

theorem CountedAt.silent {events : List (Event I n)} {p q : Phase I n} (h : CountedAt events p)
    (hstep : SilentStep r p q) : CountedAt events q := by
  unfold CountedAt at h ⊢
  cases hstep with
  | noRunPre | trial | lastTrial | noGenArgsPre | nextArg | noMemory | allGenerated
  | hashGenerated | original | duplicate | noTrialPre | unmarked | mark => exact h
  | noEnvironment => exact .inl rfl
  | genSkip | genDup | skipped => exact ⟨h.fail, h.pass⟩
  | genError => exact .inl rfl
  | passed => exact ⟨h.2, fun _ => iff_of_true (Nat.succ_pos _) h.1⟩
  | failed => exact h
  | erred hres => exact .inr (.inl rfl)
  | attempt | unshrinkable | anotherRound | minimal | noShrinkPre | lastTactic | noCandidate
  | countAttempt | exchange | unchecked | check | markCandidate => exact h
  | @noShrinkPost v a res candidate =>
    cases res with
    | ok | deadEnd | noMoreTactics | error => exact h
  | called => exact ⟨h, h, h⟩
  | @count v a candidate repeated res => exact h
  | @noShrinkTrialPost v a candidate repeated res =>
    cases res with
    | pass | skip => exact ⟨h, h, h⟩
    | fail | dup | error => exact ⟨h, h⟩
  | revert => exact h.2
  | noFree => exact h.2
  | noHash | allHashed => exact h
  | report => exact ⟨h, Nat.succ_pos _⟩
  | lost => exact .inr (.inl rfl)
  | noCounterexample | noPrint | allPrinted => exact h
  | @noTrialPost v info use =>
    cases use with
    | trial => exact .inr (.inr h)
    | failure repeated => cases repeated <;> exact .inr (.inr (.of_fail h.1 h.2))
    | nothing res => exact h
  | release | noRelease | allReleased => exact h
  | nextTrial | halt => exact (h.resolve_left nofun).resolve_left nofun
  | stop => exact .inl rfl
  | noRunPost => exact .inr ⟨rfl, h⟩

/-- Other callbacks than the property leave it at that. -/
theorem CountedAt.other {events : List (Event I n)} {p : Phase I n} {event : Event I n}
    (hkind : event.kind ≠ .call) (h : CountedAt events p) : CountedAt (event :: events) p := by
  have hmem : ∀ res, .returned res ∈ event :: events ↔ .returned res ∈ events := by
    intro res
    refine ⟨fun h => (List.mem_cons.mp h).resolve_left ?_, List.mem_cons_of_mem _⟩
    rintro rfl
    exact hkind rfl
  unfold CountedAt
  rw [hmem, hmem]
  exact h

theorem CountedAt.notice {events : List (Event I n)} {p q : Phase I n} {event : Event I n}
    (h : CountedAt events p) (hstep : NoticeStep r p event q) : CountedAt (event :: events) q := by
  cases hstep with
  | hash => exact h.other nofun
  | free => exact CountedAt.other nofun h.2
  | print => exact h.other nofun
  | release => exact h.other nofun

theorem CountedAt.others {events : List (Event I n)} {p : Phase I n} {question answer : Event I n}
    (hquestion : question.kind ≠ .call) (hanswer : answer.kind ≠ .call) (h : CountedAt events p) :
    CountedAt (answer :: question :: events) p := (h.other hquestion).other hanswer

/-- The answers of the property, after one more -/
theorem mem_returned {events : List (Event I n)} {args : Args I n} {held : Fin n → ArgInfo I}
    {rerun : Bool} {res res' : TrialRes} :
    .returned res ∈ .returned res' :: .call args held rerun :: events ↔
      res = res' ∨ .returned res ∈ events := by
  simp only [List.mem_cons, Event.returned.injEq, reduceCtorEq, false_or]

theorem CountedAt.exchange {events : List (Event I n)} {p q : Phase I n}
    {question answer : Event I n} (h : CountedAt events p)
    (hstep : ExchangeStep r p question answer q) : CountedAt (answer :: question :: events) q := by
  cases hstep with
  | @runPre v hook u res =>
    refine others nofun nofun ?_
    cases res with
    | cont => exact h
    | error => exact .inl rfl
  | @genArgsPre v hook u res =>
    refine others nofun nofun ?_
    cases res with
    | cont => exact h
    | halt => exact .inr (.inr h)
    | error => exact .inl rfl
  | @alloc v res =>
    refine others nofun nofun ?_
    cases res with
    | ok | skip | error => exact h
  | @trialPre v hook u res =>
    refine others nofun nofun ?_
    cases res with
    | cont => exact h
    | halt => exact .inr (.inr h)
    | error => exact .inr (.inl rfl)
  | @call v held res =>
    have hcounted : Tallied (.returned .fail ∈ events) (.returned .pass ∈ events) v.counters := h
    unfold CountedAt
    rw [mem_returned, mem_returned]
    cases res with
    | fail => exact .inl rfl
    | pass => exact ⟨.inl rfl, by simpa using hcounted.fail⟩
    | skip | dup | error => exact ⟨by simpa using hcounted.fail, by simpa using hcounted.pass⟩
  | @shrinkPre v hook u res =>
    refine others nofun nofun ?_
    cases res with
    | cont | halt | error => exact h
  | shrink => exact others nofun nofun h
  | allocShrunk => exact others nofun nofun h
  | @shrinkPost v hook u res state candidate answer =>
    refine others nofun nofun ?_
    cases answer with
    | error => exact ⟨h, h⟩
    | cont =>
      cases res with
      | ok | deadEnd | noMoreTactics | error => exact h
  | callShrunk =>
    unfold CountedAt
    rw [mem_returned, mem_returned]
    exact .inr h
  | @shrinkTrialPost v hook u a candidate repeated res answer =>
    refine others nofun nofun ?_
    have hsettled : CountedAt events (.settled a candidate res, v) := by
      cases res with
      | pass | skip => exact ⟨h, h, h⟩
      | fail | dup | error => exact ⟨h, h⟩
    cases answer with
    | repeat_ => exact h
    | repeatOnce => cases repeated with
      | true => exact hsettled
      | false => exact h
    | cont => exact hsettled
    | error => exact ⟨h, h⟩
  | @counterexample v info res =>
    refine others nofun nofun ?_
    cases res with
    | cont => exact h
    | error => exact .inr (.inl rfl)
  | @trialPost v info use res =>
    refine others nofun nofun ?_
    cases use with
    | trial =>
      cases res with
      | error => exact .inr (.inl rfl)
      | cont | repeat_ | repeatOnce => exact .inr (.inr h)
    | failure repeated =>
      have htallied : Tallied (.returned .fail ∈ events) (.returned .pass ∈ events) v.counters :=
        .of_fail h.1 h.2
      cases repeated <;> cases res <;>
        first | exact h | exact .inr (.inl rfl) | exact .inr (.inr htallied)
    | nothing => exact h
  | @callAgain v held res info =>
    unfold CountedAt
    rw [mem_returned, mem_returned]
    have hfailed : TrialRes.fail = res ∨ .returned .fail ∈ events := .inr h.1
    cases res with
    | fail => exact ⟨hfailed, h.2⟩
    | skip | dup => exact .inr (.inr (.of_fail hfailed h.2))
    | pass | error => exact .inr (.inl rfl)
  | @runPost v hook u res =>
    refine others nofun nofun ?_
    cases res with
    | cont => exact .inr ⟨rfl, h⟩
    | error => exact .inl rfl

theorem CountedAt.of_admits {events : List (Event I n)} {p : Phase I n}
    (h : Admits (protocol r) events p) : CountedAt events p := by
  refine h.invariant ?_ (fun _ _ _ h hstep => h.silent hstep)
    (fun _ _ _ _ h hstep => h.notice hstep) fun _ _ _ _ _ h hstep => h.exchange hstep
  exact ⟨iff_of_false (Nat.lt_irrefl 0) List.not_mem_nil,
    fun _ => iff_of_false (Nat.lt_irrefl 0) List.not_mem_nil⟩

/-- **The result of a run is what the property said.** A run that does not come to an error fails
if the property ever did; if not, it passes if the property ever did; and is skipped if not. -/
theorem runTrials_verdict [Platform R] {memory : Memory} {cfg : Config I σ n} {user : σ}
    {s₀ t : RunState R I σ n} {res : RunRes} (hinit : runInit memory cfg user = some (r, s₀))
    {fuel : Nat} (hrun : runTrials fuel r s₀ = .ok res t) (hres : res ≠ .error) :
    (res = .fail ↔ .returned .fail ∈ t.trace) ∧
    (res = .pass ↔ .returned .fail ∉ t.trace ∧ .returned .pass ∈ t.trace) ∧
    (res = .skip ↔ .returned .fail ∉ t.trace ∧ .returned .pass ∉ t.trace) := by
  have hcounted := CountedAt.of_admits (runTrials_admits hinit hrun)
  obtain ⟨hverdict, htallied⟩ := hcounted.resolve_left hres
  dsimp only at hverdict htallied
  rw [hverdict, RunReport.verdict]
  by_cases hfail : .returned .fail ∈ t.trace
  · simp [hfail, htallied.fail.mpr hfail]
  · have hpass := htallied.pass hfail
    have hzero : ¬ 0 < t.view.counters.fail := mt htallied.fail.mp hfail
    by_cases hpassed : .returned .pass ∈ t.trace
    · simp [hfail, hpassed, hzero, hpass.mpr hpassed]
    · simp [hfail, hpassed, hzero, mt hpass.mp hpassed]

theorem countdown_verdict : ∃ r s₀ t,
    runInit ⟨false, granted, granted⟩ countdown () = some (r, s₀) ∧
    runTrials 9 r s₀ = .ok .fail (t : RunState Nat Nat Unit 1) ∧
    .returned .fail ∈ t.trace := by
  obtain ⟨r, s₀, t, hinit, hrun, -⟩ := countdown_run
  exact ⟨r, s₀, t, hinit, hrun, (runTrials_verdict hinit hrun nofun).1.mp rfl⟩

end

end Theft
