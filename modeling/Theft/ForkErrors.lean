import Theft.ForkCalls

/-!
# Errors of a call in a child process

`theft_call` returns `THEFT_TRIAL_ERROR` if and only if one of the answers that it got was fatal,
or the child wrote that result. A failing `waitpid` is none of these: `step_waitpid` returns its
error as a `bool`. A failing `SIGKILL` is always one, also when the child has just disappeared,
since its result is compared with `ESRCH`, and not `errno`.
-/

namespace Theft

open Exec

/-- An answer after which `theft_call` returns an error. -/
def fatal : ForkEvent → Bool
  | .sys .pipe (.failed _) => true
  | .sys .fork (.failed e) => e ≠ .eagain
  | .sys .nanosleep (.failed _) => true
  | .sys .poll (.failed e) => e ≠ .eagain && e ≠ .eintr
  | .sys .read (.failed e) => e ≠ .eintr
  | .sys .read (.byte res) => res = .error
  | .sys (.kill _ _) (.failed _) => true
  | .sys (.sigkill _) (.failed _) => true
  | _ => false

/-- `fork` is refused for now. -/
def refused (event : ForkEvent) : Bool := event = .sys .fork (.failed .eagain)

/-- `MAX_FORK_RETRIES` -/
def maxForkRetries : Nat := 10

/-- A call ends in an error: for one event, or for too many forks that were refused. -/
def Fatal (new : List ForkEvent) : Prop :=
  (∃ event ∈ new, fatal event) ∨ maxForkRetries < new.countP refused

/-- An event that decides which way the call goes. -/
def settling : ForkEvent → Bool
  | .sys .poll .timeout => true
  | .sys .read (.byte _) => true
  | _ => false

structure Harmless (event : ForkEvent) : Prop where
  calm : fatal event = false
  granted : refused event = false
  unsettled : settling event = false

theorem Harmless.child (event : ChildEvent) : Harmless (.child event) := ⟨rfl, rfl, rfl⟩

theorem Harmless.waitpid (answer : Answer) : Harmless (.sys .waitpid answer) := ⟨rfl, rfl, rfl⟩

theorem Fatal.head {event : ForkEvent} {new : List ForkEvent} (h : fatal event) :
    Fatal (event :: new) := .inl ⟨event, List.mem_cons_self, h⟩

theorem Fatal.cons_iff {event : ForkEvent} {new : List ForkEvent} (hcalm : fatal event = false)
    (hgranted : refused event = false) : Fatal (event :: new) ↔ Fatal new := by
  simp [Fatal, hcalm, hgranted]

/-- What further events that are harmless do not change. -/
structure Lasting (I : List ForkEvent → Prop) : Prop where
  harmless : ∀ event new, Harmless event → I new → I (event :: new)

namespace Lasting
variable {w₀ : World} {I : List ForkEvent → Prop}

theorem placid (h : Lasting I) : Placid (Logged w₀ I) :=
  Logged.placid fun event new => h.harmless _ new (.child event)

end Lasting

/-- The last event is fatal. -/
def Broke (I : List ForkEvent → Prop) : List ForkEvent → Prop
  | [] => False
  | event :: old => fatal event ∧ settling event = false ∧ I old

/-- Nothing went wrong up to now, `fork` was refused `k` times, and nothing is settled. -/
structure Mild (k : Nat) (new : List ForkEvent) : Prop where
  calm : ∀ event ∈ new, fatal event = false
  tries : new.countP refused = k
  unsettled : ∀ event ∈ new, settling event = false

/-- Nothing went wrong up to now, and no result was read. -/
structure Timed (new : List ForkEvent) : Prop where
  calm : ¬ Fatal new
  unread : ∀ res, .sys .read (.byte res) ∉ new

/-- The result that fits the events. -/
structure Judged (res : TrialRes) (new : List ForkEvent) : Prop where
  error : res = .error ↔ Fatal new
  timed : .sys .poll .timeout ∈ new →
    (res = .pass ∨ res = .fail ∨ res = .error) ∧ ∀ res, .sys .read (.byte res) ∉ new

theorem Mild.lasting (k : Nat) : Lasting (Mild k) := by
  constructor
  intro event new he h
  constructor
  · simpa [he.calm] using h.calm
  · simpa [he.granted] using h.tries
  · simpa [he.unsettled] using h.unsettled

theorem Mild.not_fatal {k : Nat} {new : List ForkEvent} (h : Mild k new) (hk : k ≤ maxForkRetries) :
    ¬ Fatal new := by
  rintro (⟨event, hmem, hfatal⟩ | hmany)
  · simp [h.calm event hmem] at hfatal
  · exact absurd hmany (Nat.not_lt.mpr (h.tries ▸ hk))

theorem Timed.lasting : Lasting Timed := by
  constructor
  intro event new he h
  constructor
  · exact fun hf => h.calm ((Fatal.cons_iff he.calm he.granted).mp hf)
  · intro res hmem
    obtain rfl | hmem := List.mem_cons.mp hmem
    · exact absurd he.unsettled (by simp [settling])
    · exact h.unread res hmem

theorem Judged.lasting (res : TrialRes) : Lasting (Judged res) := by
  constructor
  intro event new he h
  constructor
  · exact h.error.trans (Fatal.cons_iff he.calm he.granted).symm
  · intro htimed
    obtain rfl | htimed := List.mem_cons.mp htimed
    · exact absurd he.unsettled (by simp [settling])
    · obtain ⟨hres, hunread⟩ := h.timed htimed
      refine ⟨hres, fun res' hmem => ?_⟩
      obtain rfl | hmem := List.mem_cons.mp hmem
      · exact absurd he.unsettled (by simp [settling])
      · exact hunread res' hmem

/-- Nothing is settled, so there was no timeout. -/
theorem Mild.judged {k : Nat} {new : List ForkEvent} {res : TrialRes} (h : Mild k new)
    (hres : res = .error ↔ Fatal new) : Judged res new :=
  ⟨hres, fun hmem => absurd (h.unsettled _ hmem) (by simp [settling])⟩

theorem Mild.failed {k : Nat} {new : List ForkEvent} (h : Broke (Mild k) new) :
    Judged .error new := by
  cases new with
  | nil => exact h.elim
  | cons event old =>
    obtain ⟨hfatal, hsettling, hold⟩ := h
    constructor
    · simpa using Fatal.head hfatal
    · intro htimed
      obtain rfl | htimed := List.mem_cons.mp htimed
      · exact absurd hsettling (by simp [settling])
      · exact absurd (hold.unsettled _ htimed) (by simp [settling])

theorem Timed.failed {new : List ForkEvent} (h : Broke Timed new) : Judged .error new := by
  cases new with
  | nil => exact h.elim
  | cons event old =>
    obtain ⟨hfatal, hsettling, hold⟩ := h
    constructor
    · simpa using Fatal.head hfatal
    · refine fun _ => ⟨.inr (.inr rfl), fun res hmem => ?_⟩
      obtain rfl | hmem := List.mem_cons.mp hmem
      · exact absurd hsettling (by simp [settling])
      · exact hold.unread res hmem

theorem Timed.judged {new : List ForkEvent} {res : TrialRes} (h : Timed new)
    (hres : res = .pass ∨ res = .fail) : Judged res new := by
  constructor
  · constructor
    · rintro rfl
      simp at hres
    · exact fun hf => absurd hf h.calm
  · exact fun _ => ⟨hres.elim .inl fun h => .inr (.inl h), h.unread⟩

/-! ## The parts of a call -/

section
variable (env : Nat → Turn) {w₀ : World} {I : List ForkEvent → Prop}

theorem nanosleep_judged (h : Lasting I) :
    Spec (Logged w₀ I) (nanosleep env) (fun answer =>
      match answer with
      | .failed _ => Logged w₀ (Broke I)
      | _ => Logged w₀ I) OutOfFuel := by
  apply plainCall_spec env h.placid
  · exact fun w e hw => hw.log fun new hi => ⟨rfl, rfl, hi⟩
  · exact fun w hw => hw.log fun new => h.harmless _ new ⟨rfl, rfl, rfl⟩

/-- `step_waitpid` never reports a failure. -/
theorem stepWaitpid_true (h : Lasting I) (fuel : Nat) :
    Spec (Logged w₀ I) (stepWaitpid env fuel) (fun ok w => ok = true ∧ Logged w₀ I w)
      OutOfFuel := by
  have waited : ∀ (w : World) (answer : Answer), Logged w₀ I w →
      Logged w₀ I (w.log (.sys .waitpid answer)) := by
    intro w answer hw
    exact hw.log fun new => h.harmless _ new (.waitpid answer)
  apply stepWaitpid_spec env h.placid fun _ _ => rfl
  · exact fun w e hw _ => waited w _ hw
  · exact fun w answer hw _ _ => waited w _ hw
  · intro w c status hw _ _
    exact (waited _ (.reaped c.id c.pid status) (hw.of_trace (w.reap_trace c.id))).of_trace (by simp)

theorem killInRound_judged (h : Lasting I) (timeout i : Nat) :
    Spec (Logged w₀ I) (killInRound env timeout killTime i)
      (fun ok => Logged w₀ (if ok then I else Broke I)) OutOfFuel := by
  unfold killInRound
  split
  · apply Spec.bind (Q := fun _ => Logged w₀ I)
    · exact Spec.require (by decide) fun _ hw => hw
    · intro _
      apply Spec.bind (Q := fun _ => Logged w₀ I)
      · exact Spec.get fun _ hw => hw
      · intro w
        apply (kill_spec env (Q := fun r => Logged w₀ (if r = -1 then Broke I else I)) h.placid
          ?_ ?_).bind
        · intro killRes
          -- `kill_res` is -1 here, which is not `ESRCH`
          split
          · rename_i hres
            exact Spec.pure fun w hw => by simpa [hres, esrch] using hw
          · exact Spec.pure fun w hw => by simpa using hw
        · exact fun w e hw => hw.log fun new hi => ⟨rfl, rfl, hi⟩
        · exact fun w hw => hw.log fun new => h.harmless _ new ⟨rfl, rfl, rfl⟩
  · exact Spec.pure fun w hw => by simpa using hw

theorem waitRounds_judged (h : Lasting I) (fuel timeout left i : Nat) :
    Spec (Logged w₀ I) (waitRounds env fuel timeout killTime left i)
      (fun ok => Logged w₀ (if ok then I else Broke I)) OutOfFuel := by
  induction left generalizing i with
  | zero => exact Spec.pure fun w hw => by simpa using hw
  | succ left ih =>
    unfold waitRounds
    apply (stepWaitpid_true env h fuel).bind
    intro ok
    cases ok with
    | false => exact fun w hw => absurd hw.1 (by simp)
    | true =>
      apply Spec.bind (Q := fun _ => Logged w₀ I)
      · exact Spec.get fun w hw => hw.2
      · intro w
        split
        · exact Spec.pure fun w hw => by simpa using hw
        · apply (killInRound_judged env h timeout i).bind
          intro ok
          cases ok with
          | false => exact Spec.pure fun w hw => by simpa using hw
          | true =>
            apply ((nanosleep_judged env h).mono (fun _ hw => by simpa using hw) (fun _ _ hw => hw)
              (fun _ _ hw => hw)).bind
            intro answer
            cases answer with
            | failed e => exact Spec.pure fun w hw => by simpa using hw
            | _ => exact ih (i + 1)

theorem handleTimeout_judged (fuel : Nat) (fork : ForkInfo) (pid : Nat) :
    Spec (Logged w₀ Timed) (handleTimeout env fuel fork pid)
      (fun res => Logged w₀ (Judged res)) OutOfFuel := by
  apply (kill_spec env (Q := fun r => Logged w₀ (if r = -1 then Broke Timed else Timed))
    Timed.lasting.placid ?_ ?_).bind
  · intro killRes
    split
    · rename_i hres
      exact Spec.pure fun w hw => (by simpa [hres] using hw : Logged w₀ (Broke Timed) w).mono
        fun _ => Timed.failed
    · rename_i hres
      apply ((waitRounds_judged env Timed.lasting _ _ _ _).mono
        (fun w hw => by simpa [hres] using hw) (fun _ _ hw => hw) (fun _ _ hw => hw)).bind
      intro ok
      cases ok with
      | false => exact Spec.pure fun w hw => Logged.mono (by simpa using hw) fun _ => Timed.failed
      | true =>
        apply Spec.bind (Q := fun _ => Logged w₀ Timed)
        · exact Spec.get fun w hw => by simpa using hw
        · intro w
          apply Spec.pure
          intro _ hw
          split
          · exact hw.mono fun _ h => h.judged (.inl rfl)
          · exact hw.mono fun _ h => h.judged (.inr rfl)
  · exact fun w e hw => hw.log fun new hi => ⟨rfl, rfl, hi⟩
  · exact fun w hw => hw.log fun new => Timed.lasting.harmless _ new ⟨rfl, rfl, rfl⟩

/-- The events of a wait for the pipe that came to an answer -/
def PollLeaves (k : Nat) : Answer → List ForkEvent → Prop
  | .failed _ => Broke (Mild k)
  | .timeout => Timed
  | _ => Mild k

/-- What `poll` leaves, after the calls that were interrupted. -/
theorem pollRetry_judged {k : Nat} (hk : k ≤ maxForkRetries) (timeout : Int) (fuel : Nat) :
    Spec (Logged w₀ (Mild k)) (pollRetry env timeout fuel)
      (fun answer => Logged w₀ (PollLeaves k answer)) OutOfFuel := by
  induction fuel with
  | zero => exact Spec.throw fun _ _ => rfl
  | succ fuel ih =>
    have hanswer : Spec (Logged w₀ (Mild k)) (poll env timeout (fuel + 1)) (fun answer =>
        Logged w₀ fun new => if answer = .failed .eagain ∨ answer = .failed .eintr then Mild k new
          else PollLeaves k answer new) OutOfFuel := by
      apply poll_spec env (Mild.lasting k).placid fun _ _ => rfl
      · intro w e hw
        cases e with
        | eagain => exact hw.log fun new => (Mild.lasting k).harmless _ new ⟨rfl, rfl, rfl⟩
        | eintr => exact hw.log fun new => (Mild.lasting k).harmless _ new ⟨rfl, rfl, rfl⟩
        | _ => exact hw.log fun new hi => ⟨rfl, rfl, hi⟩
      · exact fun w hw _ => hw.log fun new => (Mild.lasting k).harmless _ new ⟨rfl, rfl, rfl⟩
      · intro w hw _ _
        refine hw.log fun new hi => ⟨?_, ?_⟩
        · rw [Fatal.cons_iff rfl rfl]
          exact hi.not_fatal hk
        · intro res hmem
          obtain h | hmem := List.mem_cons.mp hmem
          · cases h
          · exact absurd (hi.unsettled _ hmem) (by simp [settling])
    apply hanswer.bind
    intro answer
    cases answer with
    | failed e =>
      cases e with
      | eagain => exact ih
      | eintr => exact ih
      | _ => exact Spec.pure fun _ hw => hw
    | _ => exact Spec.pure fun _ hw => hw

/-- The result that comes of an answer from the pipe -/
def Answer.result : Answer → TrialRes
  | .byte res => res
  | .eof => .fail
  | _ => .error

/-- What `read` leaves, after the calls that were interrupted. -/
theorem readRetry_judged {k : Nat} (hk : k ≤ maxForkRetries) (fuel : Nat) :
    Spec (Logged w₀ (Mild k)) (readRetry env fuel)
      (fun answer => Logged w₀ (Judged answer.result)) OutOfFuel := by
  induction fuel with
  | zero => exact Spec.throw fun _ _ => rfl
  | succ fuel ih =>
    have hanswer : Spec (Logged w₀ (Mild k)) (read env) (fun answer =>
        Logged w₀ fun new => if answer = .failed .eintr then Mild k new
          else Judged answer.result new) OutOfFuel := by
      apply read_spec env (Mild.lasting k).placid
      · intro w e hw
        cases e with
        | eintr => exact hw.log fun new => (Mild.lasting k).harmless _ new ⟨rfl, rfl, rfl⟩
        | _ => exact hw.log fun new hi => Mild.failed ⟨rfl, rfl, hi⟩
      · intro w res hw _
        refine hw.log fun new hi => ⟨?_, ?_⟩
        · constructor
          · rintro rfl
            exact .head rfl
          · intro hf
            by_cases hne : res = .error
            · exact hne
            · have hcalm : fatal (.sys .read (.byte res)) = false := by simpa [fatal] using hne
              exact absurd ((Fatal.cons_iff hcalm rfl).mp hf) (hi.not_fatal hk)
        · intro htimed
          obtain h | htimed := List.mem_cons.mp htimed
          · cases h
          · exact absurd (hi.unsettled _ htimed) (by simp [settling])
      · intro w hw _
        refine hw.log fun new hi => ?_
        have hmild := (Mild.lasting k).harmless (.sys .read .eof) new ⟨rfl, rfl, rfl⟩ hi
        exact hmild.judged ⟨nofun, fun hf => absurd hf (hmild.not_fatal hk)⟩
    apply hanswer.bind
    intro answer
    cases answer with
    | failed e =>
      cases e with
      | eintr => exact ih
      | _ => exact Spec.pure fun _ hw => hw
    | _ => exact Spec.pure fun _ hw => hw

theorem parentHandleChildCall_judged {k : Nat} (hk : k ≤ maxForkRetries) (fuel : Nat)
    (fork : ForkInfo) (pid : Nat) :
    Spec (Logged w₀ (Mild k)) (parentHandleChildCall env fuel fork pid)
      (fun res => Logged w₀ (Judged res)) OutOfFuel := by
  apply (pollRetry_judged env hk fork.pollTimeout fuel).bind
  intro answer
  have received : Spec (Logged w₀ (Mild k)) (receiveResult env fuel)
      (fun res => Logged w₀ (Judged res)) OutOfFuel := by
    apply (readRetry_judged env hk fuel).bind
    intro answer
    cases answer <;> exact Spec.pure fun _ hw => hw
  cases answer with
  | failed e => exact Spec.pure fun _ hw => hw.mono fun _ => Mild.failed
  | timeout => exact handleTimeout_judged env fuel fork pid
  | _ => exact received

/-- The events of a call of `fork` after `k` that were refused -/
def ForkLeaves (k : Nat) : Answer → List ForkEvent → Prop
  | .forked _ _ => Mild k
  | .failed .eagain => Mild (k + 1)
  | _ => Judged .error

/-- `fork` was refused `k` times before. -/
theorem forkRetry_judged (fuel left : Nat) {k : Nat} (hk : k ≤ maxForkRetries) :
    Spec (Logged w₀ (Mild k)) (forkRetry env fuel left (2 ^ k)) (fun pid =>
      if pid.isSome then Logged w₀ fun new => ∃ k ≤ maxForkRetries, Mild k new
      else Logged w₀ (Judged .error)) OutOfFuel := by
  induction left generalizing k with
  | zero => exact Spec.throw fun _ _ => rfl
  | succ left ih =>
    have hanswer : Spec (Logged w₀ (Mild k)) (fork env)
        (fun answer => Logged w₀ (ForkLeaves k answer)) OutOfFuel := by
      apply fork_spec env (Mild.lasting k).placid
      · intro w e hw
        cases e with
        | eagain =>
          refine hw.log fun new hi => ⟨?_, ?_, ?_⟩
          · simpa [fatal] using hi.calm
          · simp [refused, hi.tries]
          · simpa [settling] using hi.unsettled
        | _ => exact hw.log fun new hi => Mild.failed ⟨rfl, rfl, hi⟩
      · intro w pid hw _
        have hforked : Logged w₀ (Mild k) (w.log (.sys .fork (.forked w.nextId pid))) :=
          hw.log fun new => (Mild.lasting k).harmless _ new ⟨rfl, rfl, rfl⟩
        exact hforked.of_trace (by simp)
    apply hanswer.bind
    intro answer
    cases answer with
    | forked id pid => exact Spec.pure fun _ hw => hw.mono fun _ h => ⟨k, hk, h⟩
    | failed e =>
      cases e with
      | eagain =>
        apply (stepWaitpid_true env (Mild.lasting (k + 1)) fuel).bind
        intro ok
        cases ok with
        | false => exact fun w hw => absurd hw.1 (by simp)
        | true =>
          apply ((nanosleep_judged env (Mild.lasting (k + 1))).mono (fun _ hw => hw.2)
            (fun _ _ hw => hw) (fun _ _ hw => hw)).bind
          intro answer
          have doubled : Spec (Logged w₀ (Mild (k + 1)))
              (if 2 ^ 10 ≤ 2 ^ k then pure none else forkRetry env fuel left (2 * 2 ^ k))
              (fun pid => if pid.isSome then Logged w₀ fun new => ∃ k ≤ maxForkRetries, Mild k new
                else Logged w₀ (Judged .error)) OutOfFuel := by
            by_cases hlast : 10 ≤ k
            · rw [if_pos (Nat.pow_le_pow_right (by decide) hlast)]
              refine Spec.pure fun _ hw => hw.mono fun new hi =>
                hi.judged ⟨fun _ => .inr ?_, fun _ => rfl⟩
              rw [hi.tries]
              exact Nat.lt_succ_of_le hlast
            · rw [if_neg (Nat.not_le.mpr (Nat.pow_lt_pow_right (by decide) (Nat.not_le.mp hlast))),
                ← Nat.pow_succ']
              exact ih (Nat.not_le.mp hlast)
          cases answer with
          | failed e => exact Spec.pure fun _ hw => hw.mono fun _ => Mild.failed
          | _ => exact doubled
      | _ => exact Spec.pure fun _ hw => hw
    | _ => exact Spec.pure fun _ hw => hw

theorem callParent_judged {k : Nat} (hk : k ≤ maxForkRetries) (fuel : Nat) (fork : ForkInfo)
    (pid : Nat) :
    Spec (Logged w₀ (Mild k)) (callParent env fuel fork pid) (fun res => Logged w₀ (Judged res))
      OutOfFuel := by
  -- the worker is no part of the events
  apply Spec.bind (Q := fun _ => Logged w₀ (Mild k))
  · exact Spec.modify fun w hw => hw.of_trace rfl
  · intro _
    apply (parentHandleChildCall_judged env hk fuel fork pid).bind
    intro res
    apply Spec.bind (Q := fun _ => Logged w₀ (Judged res))
    · exact Spec.modify fun w hw => hw.of_trace rfl
    · intro _
      apply (stepWaitpid_true env (Judged.lasting res) fuel).bind
      intro ok
      cases ok with
      | false => exact fun w hw => absurd hw.1 (by simp)
      | true => exact Spec.pure fun w hw => hw.2

/-- The events up to the call of `fork` -/
def PipeLeaves : Answer → List ForkEvent → Prop
  | .failed _ => Judged .error
  | _ => Mild 0

theorem callForked_judged (fuel : Nat) (fork : ForkInfo) :
    Spec (Logged w₀ (Mild 0)) (callForked env fuel fork) (fun res => Logged w₀ (Judged res))
      OutOfFuel := by
  have hpipe : Spec (Logged w₀ (Mild 0)) (pipe env)
      (fun answer => Logged w₀ (PipeLeaves answer)) OutOfFuel := by
    apply pipe_spec env (Mild.lasting 0).placid
    · exact fun w e hw => Logged.of_trace (hw.log fun new hi => Mild.failed ⟨rfl, rfl, hi⟩) rfl
    · exact fun w hw => Logged.of_trace
        (hw.log fun new => (Mild.lasting 0).harmless _ new ⟨rfl, rfl, rfl⟩) rfl
  have forked : Spec (Logged w₀ (Mild 0)) (forkAndCall env fuel fork)
      (fun res => Logged w₀ (Judged res)) OutOfFuel := by
    apply (forkRetry_judged env fuel fuel (Nat.zero_le _)).bind
    intro pid
    cases pid with
    | none => exact Spec.pure fun w hw => by simpa using hw
    | some pid =>
      intro w hw
      obtain ⟨new, hnew, k, hk, hmild⟩ := (by simpa using hw : Logged w₀ _ w)
      exact callParent_judged env hk fuel fork pid w ⟨new, hnew, hmild⟩
  apply hpipe.bind
  intro answer
  cases answer with
  | failed e => exact Spec.pure fun _ hw => hw
  | _ => exact forked

variable {env} {fork : ForkInfo} {w w' : World} {new : List ForkEvent} {res : TrialRes}

/-- The result of a call fits its events. -/
theorem Call.judged (h : Call env fork w new res w') : Judged res new := by
  obtain ⟨fuel, hrun⟩ := h.returned
  have start : Logged w (Mild 0) w := .start ⟨by simp, rfl, by simp⟩
  obtain ⟨new', hnew, hj⟩ := (callForked_judged env fuel fork).returned start hrun
  rw [h.trace, List.append_cancel_right_eq] at hnew
  rwa [hnew]

/-- A `waitpid` that fails, other than for want of children, makes the call return an error if and
only if something else does. -/
theorem waitpid_reported_iff (h : Call env fork w new res w') :
    ((∃ e, e ≠ .echild ∧ .sys .waitpid (.failed e) ∈ new) → res = .error) ↔
      (∀ e, .sys .waitpid (.failed e) ∈ new → e = .echild) ∨ Fatal new := by
  rw [h.judged.error]
  by_cases hfatal : Fatal new
  · simp [hfatal]
  · simp only [hfatal, or_false, imp_false]
    simp only [not_exists, not_and]
    constructor
    · intro hnone e hmem
      by_cases he : e = .echild
      · exact he
      · exact absurd hmem (hnone e he)
    · exact fun hall e he hmem => he (hall e hmem)

/-- The child writes that the property passed, and the `waitpid` at the end of the call fails. -/
def waitpidFails : Nat → Turn :=
  scripted [⟨[], none, false, 0, 7⟩, ⟨[], none, false, 0, 7⟩,
    ⟨[.returned 0 .pass], none, false, 0, 7⟩, ⟨[], none, false, 0, 7⟩,
    ⟨[], some .other, false, 0, 7⟩]

/-- The events of that call. -/
def waitpidFailsTrace : List ForkEvent :=
  [.sys .waitpid (.failed .other), .sys .read (.byte .pass), .sys .poll .ready,
    .child (.returned 0 .pass), .sys .fork (.forked 0 7), .sys .pipe .done]

theorem waitpid_reported_iff_at :
    ((∃ e, e ≠ .echild ∧ .sys .waitpid (.failed e) ∈ waitpidFailsTrace) →
        TrialRes.pass = .error) ↔
      (∀ e, .sys .waitpid (.failed e) ∈ waitpidFailsTrace → e = .echild) ∨
        Fatal waitpidFailsTrace := by
  have hcall : Call waitpidFails ⟨0, 0, 0⟩ World.start waitpidFailsTrace .pass _ :=
    .of_run 10 (by decide +kernel)
  exact waitpid_reported_iff hcall

theorem waitpid_not_reported :
    ¬ ∀ (env : Nat → Turn) (fork : ForkInfo) (w w' : World) (new : List ForkEvent)
        (res : TrialRes), Call env fork w new res w' →
      (∃ e, e ≠ .echild ∧ .sys .waitpid (.failed e) ∈ new) → res = .error := by
  intro h
  have hcall : Call waitpidFails ⟨0, 0, 0⟩ World.start waitpidFailsTrace .pass _ :=
    .of_run 10 (by decide +kernel)
  cases h _ _ _ _ _ _ hcall ⟨.other, by decide, by decide⟩

end

end Theft
