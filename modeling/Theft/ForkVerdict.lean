import Theft.ForkEnds
import Theft.ForkWatch

/-!
# The verdict of a call

Where no system call fails, `theft_call` returns the verdict of the watch, and sends `SIGKILL` at
most once, after `exit_timeout` rounds in which the child had not stopped. This holds for every
`exit_timeout` for which the length of the wait, `timeout + kill_timeout`, does not wrap, and for
no other.
-/

namespace Theft

open Exec

/-! ## Calls without failures -/

/-- No system call failed. `waitpid` may find no children. -/
def NoFailure (new : List ForkEvent) : Prop :=
  ∀ call e, .sys call (.failed e) ∈ new → call = .waitpid ∧ e = .echild

/-- The events since `w₀`, the newest first, and the world, as long as nothing failed. -/
def Watched (w₀ : World) (I : List ForkEvent → World → Prop) (w : World) : Prop :=
  ∃ new, w.trace = new ++ w₀.trace ∧ (NoFailure new → I new w)

theorem NoFailure.tail {event : ForkEvent} {new : List ForkEvent} (h : NoFailure (event :: new)) :
    NoFailure new := fun call e hmem => h call e (List.mem_cons_of_mem _ hmem)

namespace Watched
variable {w₀ w w' : World} {I J : List ForkEvent → World → Prop}

theorem log (h : Watched w₀ I w) {event : ForkEvent} (ht : w'.trace = event :: w.trace)
    (hI : ∀ new, I new w → J (event :: new) w') : Watched w₀ J w' := by
  obtain ⟨new, hnew, hi⟩ := h
  exact ⟨event :: new, by rw [ht, hnew, List.cons_append], fun hno => hI new (hi hno.tail)⟩

theorem failed (h : Watched w₀ I w) {call : Syscall} {e : Errno}
    (ht : w'.trace = .sys call (.failed e) :: w.trace) (hne : ¬ (call = .waitpid ∧ e = .echild)) :
    Watched w₀ J w' := by
  obtain ⟨new, hnew, -⟩ := h
  refine ⟨.sys call (.failed e) :: new, by rw [ht, hnew, List.cons_append], fun hno => ?_⟩
  exact absurd (hno call e List.mem_cons_self) hne

theorem set (h : Watched w₀ I w) (ht : w'.trace = w.trace) (hI : ∀ new, I new w → J new w') :
    Watched w₀ J w' := by
  obtain ⟨new, hnew, hi⟩ := h
  exact ⟨new, ht.trans hnew, fun hno => hI new (hi hno)⟩

theorem mono (h : Watched w₀ I w) (hI : ∀ new, I new w → J new w) : Watched w₀ J w :=
  h.set rfl hI

theorem and (h : Watched w₀ I w) (h' : Watched w₀ J w) :
    Watched w₀ (fun new w => I new w ∧ J new w) w := by
  obtain ⟨new, hnew, hi⟩ := h
  obtain ⟨new', hnew', hj⟩ := h'
  obtain rfl := List.append_cancel_right (hnew.symm.trans hnew')
  exact ⟨new, hnew, fun hno => ⟨hi hno, hj hno⟩⟩

theorem placid (hasked : ∀ new w n, I new w → I new { w with asked := n })
    (hI : ∀ new w event, I new w → (w.childEvent event).trace = .child event :: w.trace →
      I (.child event :: new) (w.childEvent event)) : Placid (Watched w₀ I) := by
  constructor
  · exact fun w n h => h.set rfl fun new hi => hasked new w n hi
  · intro w event h
    obtain hsame | ht := w.childEvent_trace event
    · rwa [hsame]
    · exact h.log ht fun new hi => hI new w event hi ht

end Watched

/-! ## The parts of a call -/

/-- `SIGKILL` is sent once at most, after the first signal and the rounds of `exit_timeout`, and
before the child is reaped. -/
def SigkillLate (id pid : Nat) (fork : ForkInfo) (new : List ForkEvent) : Prop :=
  ∀ p answer earlier, .sys (.sigkill p) answer :: earlier <:+ new →
    watch id (fork.timeoutMsec + killTime) earlier = .expired fork.timeoutMsec ∧
    (p = pid ∧ .sys (.kill pid fork.killSignal) .done ∈ earlier) ∧
    ∀ p answer, .sys (.sigkill p) answer ∉ earlier

def Unkilled (new : List ForkEvent) : Prop := ∀ p answer, .sys (.sigkill p) answer ∉ new

theorem Unkilled.cons {new : List ForkEvent} (h : Unkilled new) {event : ForkEvent}
    (he : ∀ p answer, event ≠ .sys (.sigkill p) answer) : Unkilled (event :: new) := by
  intro p answer hmem
  obtain hnow | hmem := List.mem_cons.mp hmem
  · exact he p answer hnow.symm
  · exact h p answer hmem

section
variable {id pid : Nat} {fork : ForkInfo} {new : List ForkEvent} {w : World}

theorem Unkilled.late (h : Unkilled new) : SigkillLate id pid fork new :=
  fun p answer _ hsuffix => absurd (hsuffix.subset List.mem_cons_self) (h p answer)

theorem SigkillLate.cons (h : SigkillLate id pid fork new) {event : ForkEvent}
    (he : ∀ p answer, event ≠ .sys (.sigkill p) answer) :
    SigkillLate id pid fork (event :: new) := by
  intro p answer earlier hsuffix
  obtain hnow | hsuffix := List.suffix_cons_iff.mp hsuffix
  · exact absurd (List.cons_eq_cons.mp hnow).1.symm (he p answer)
  · exact h p answer earlier hsuffix

/-- Before `fork`. -/
structure Before (id window : Nat) (new : List ForkEvent) (w : World) : Prop where
  prior : Prior id w
  watch : watch id window new = .waiting
  unkilled : Unkilled new

/-- While `poll` waits. -/
structure Polled (id pid window : Nat) (new : List ForkEvent) (w : World) : Prop where
  tied : Tied id pid w
  worker : w.worker.pid = pid
  active : w.worker.state ≠ .stopped
  unkilled : Unkilled new
  pipe : (watch id window new = .waiting ∧ Open id w) ∨
    ∃ res, watch id window new = .settled res ∧ Shut id res w

/-- After the timeout, the first signal and `rounds` rounds. There was no `SIGKILL` in the first
`limit` rounds. -/
structure Round (id pid : Nat) (fork : ForkInfo) (rounds limit : Nat) (new : List ForkEvent)
    (w : World) : Prop where
  tied : Tied id pid w
  worker : w.worker.pid = pid
  expired : w.worker.state ≠ .stopped →
    watch id (fork.timeoutMsec + killTime) new = .expired rounds
  stopped : w.worker.state = .stopped →
    watch id (fork.timeoutMsec + killTime) new = .settled (exitVerdict w.worker.wstatus) ∧
      ∀ c ∈ w.children, c.id ≠ id
  signalled : .sys (.kill pid fork.killSignal) .done ∈ new
  late : SigkillLate id pid fork new
  unkilled : rounds < limit → Unkilled new

variable {rounds limit : Nat} {w' : World}

/-- An event that says nothing about the child. -/
theorem Round.quiet (h : Round id pid fork rounds limit new w) {event : ForkEvent}
    (htied : Tied id pid w') (hworker : w'.worker = w.worker)
    (hfrom : ∀ c ∈ w'.children, ∃ c' ∈ w.children, c.id = c'.id)
    (hexpired : (Watch.expired rounds).next id (fork.timeoutMsec + killTime) event =
      .expired rounds)
    (he : ∀ p answer, event ≠ .sys (.sigkill p) answer) :
    Round id pid fork rounds limit (event :: new) w' where
  tied := htied
  worker := by rw [hworker]; exact h.worker
  expired hs := by
    rw [hworker] at hs
    rw [watch, h.expired hs, hexpired]
  stopped hs := by
    rw [hworker] at hs ⊢
    obtain ⟨hwatch, hgone⟩ := h.stopped hs
    refine ⟨by rw [watch, hwatch]; rfl, fun c hc => ?_⟩
    obtain ⟨c', hc', hid⟩ := hfrom c hc
    exact hid ▸ hgone c' hc'
  signalled := List.mem_cons_of_mem _ h.signalled
  late := h.late.cons he
  unkilled hr := (h.unkilled hr).cons he

theorem Round.placid {w₀ : World} :
    Placid (Watched w₀ (Round id pid fork rounds limit)) := by
  apply Watched.placid
  · exact fun _ w _ h => ⟨h.tied, h.worker, h.expired, h.stopped, h.signalled, h.late, h.unkilled⟩
  · intro new w event h _
    exact h.quiet (h.tied.childEvent event) (w.childEvent_worker event) (w.childEvent_from event)
      rfl (fun _ _ => nofun)

/-- A child is reaped within the window. -/
theorem Round.reap (h : Round id pid fork rounds limit new w)
    (hwindow : rounds < fork.timeoutMsec + killTime) {c : Child} (hc : c ∈ w.children)
    (status : ExitStatus) :
    Round id pid fork rounds limit (.sys .waitpid (.reaped c.id c.pid status) :: new)
      (((w.reap c.id).log (.sys .waitpid (.reaped c.id c.pid status))).saveStatus c.pid status) := by
  have htied : Tied id pid ((w.reap c.id).log (.sys .waitpid (.reaped c.id c.pid status))) :=
    fun c' hc' => h.tied c' (World.mem_reap.mp hc').1
  have hlate : SigkillLate id pid fork (.sys .waitpid (.reaped c.id c.pid status) :: new) :=
    h.late.cons fun _ _ => nofun
  by_cases hpid : c.pid = pid
  · have hid : c.id = id := (h.tied c hc).mp hpid
    have hrunning : w.worker.state ≠ .stopped := fun hs => (h.stopped hs).2 c hc hid
    have hsave : ((w.reap c.id).log (.sys .waitpid (.reaped c.id c.pid status))).saveStatus c.pid
        status = { (w.reap c.id).log (.sys .waitpid (.reaped c.id c.pid status)) with
          worker := { w.worker with state := .stopped, wstatus := status } } :=
      if_pos (hpid.trans h.worker.symm)
    rw [hsave]
    constructor
    · exact htied
    · exact h.worker
    · exact fun hs => absurd rfl hs
    · refine fun _ => ⟨?_, fun c' hc' => ?_⟩
      · rw [watch, h.expired hrunning]
        simp [Watch.next, hid, hwindow]
      · exact hid ▸ (World.mem_reap.mp hc').2
    · exact List.mem_cons_of_mem _ h.signalled
    · exact hlate
    · exact fun hr => (h.unkilled hr).cons fun _ _ => nofun
  · have hid : c.id ≠ id := fun hid => hpid ((h.tied c hc).mpr hid)
    have hsave : ((w.reap c.id).log (.sys .waitpid (.reaped c.id c.pid status))).saveStatus c.pid
        status = (w.reap c.id).log (.sys .waitpid (.reaped c.id c.pid status)) :=
      if_neg fun heq => hpid (heq.trans h.worker)
    rw [hsave]
    apply h.quiet htied rfl
    · exact fun c' hc' => ⟨c', (World.mem_reap.mp hc').1, rfl⟩
    · simp [Watch.next, hid]
    · exact fun _ _ => nofun

variable (env : Nat → Turn) {w₀ : World}

theorem stepWaitpid_watched (hwindow : rounds < fork.timeoutMsec + killTime) (fuel : Nat) :
    Spec (Watched w₀ (Round id pid fork rounds limit)) (stepWaitpid env fuel)
      (fun ok w => ok = true ∧ Watched w₀ (Round id pid fork rounds limit) w) OutOfFuel := by
  apply stepWaitpid_spec env Round.placid fun _ _ => rfl
  · exact fun w e hw he => hw.failed rfl fun h => he h.2
  · rintro w answer hw - (rfl | rfl)
    · exact hw.log rfl fun new h => h.quiet h.tied rfl (fun c hc => ⟨c, hc, rfl⟩) rfl fun _ _ => nofun
    · exact hw.log rfl fun new h => h.quiet h.tied rfl (fun c hc => ⟨c, hc, rfl⟩) rfl fun _ _ => nofun
  · intro w c status hw hc _
    exact hw.log (by simp) fun new h => h.reap hwindow hc status

/-- A round in which the child has not been seen to stop. -/
def Running (id pid : Nat) (fork : ForkInfo) (rounds limit : Nat) (new : List ForkEvent)
    (w : World) : Prop := Round id pid fork rounds limit new w ∧ w.worker.state ≠ .stopped

theorem Running.placid (c : Prop) :
    Placid (Watched w₀ fun new w => Running id pid fork rounds limit new w ∧ c) := by
  apply Watched.placid
  · exact fun new w n ⟨⟨h, hs⟩, hc⟩ => ⟨⟨⟨h.tied, h.worker, h.expired, h.stopped, h.signalled, h.late,
      h.unkilled⟩, hs⟩, hc⟩
  · rintro new w event ⟨⟨h, hs⟩, hc⟩ _
    refine ⟨⟨h.quiet (h.tied.childEvent event) (w.childEvent_worker event)
      (w.childEvent_from event) rfl (fun _ _ => nofun), ?_⟩, hc⟩
    rw [w.childEvent_worker]
    exact hs

/-- Before the round of the `SIGKILL` there is none, and in this round the watch has seen the rounds
of the timeout. -/
theorem Running.sigkill (h : Running id pid fork fork.timeoutMsec (fork.timeoutMsec + 1) new w)
    (answer : Answer) :
    Running id pid fork fork.timeoutMsec fork.timeoutMsec (.sys (.sigkill pid) answer :: new)
      (w.log (.sys (.sigkill pid) answer)) := by
  obtain ⟨hround, hrunning⟩ := h
  have hunkilled := hround.unkilled (Nat.lt_succ_self _)
  refine ⟨?_, hrunning⟩
  constructor
  · exact hround.tied
  · exact hround.worker
  · intro _
    rw [watch, hround.expired hrunning]
    rfl
  · exact fun hs => absurd hs hrunning
  · exact List.mem_cons_of_mem _ hround.signalled
  · intro p answer' earlier hsuffix
    obtain hnow | hsuffix := List.suffix_cons_iff.mp hsuffix
    · obtain ⟨hevent, rfl⟩ := List.cons_eq_cons.mp hnow
      cases hevent
      exact ⟨hround.expired hrunning, ⟨rfl, hround.signalled⟩, hunkilled⟩
    · exact hround.late p answer' earlier hsuffix
  · exact fun hlt => absurd hlt (Nat.lt_irrefl _)

theorem killInRound_watched :
    Spec (Watched w₀ (Running id pid fork rounds (fork.timeoutMsec + 1)))
      (killInRound env fork.timeoutMsec killTime rounds)
      (fun ok => Watched w₀ fun new w => ok = true ∧ Running id pid fork rounds fork.timeoutMsec new w)
      OutOfFuel := by
  unfold killInRound
  split
  · rename_i hround
    subst hround
    apply Spec.bind (Q := fun _ => Watched w₀
      (Running id pid fork fork.timeoutMsec (fork.timeoutMsec + 1)))
    · exact Spec.require (by decide) fun _ hw => hw
    · intro _
      apply Spec.bind (Q := fun w' => Watched w₀ fun new w =>
        Running id pid fork fork.timeoutMsec (fork.timeoutMsec + 1) new w ∧ w'.worker.pid = pid)
      · exact Spec.get fun w hw => hw.mono fun new h => ⟨h, h.1.worker⟩
      · intro w'
        dsimp only
        apply Spec.bind (Q := fun killRes => Watched w₀ fun new w => killRes ≠ -1 ∧
          Running id pid fork fork.timeoutMsec fork.timeoutMsec new w)
        · apply kill_spec env (Running.placid _)
          · exact fun w e hw => hw.failed rfl fun h => by cases h.1
          · exact fun w hw => hw.log rfl fun new h => ⟨by decide, h.2 ▸ h.1.sigkill .done⟩
        · intro killRes
          split
          · rename_i hres
            exact Spec.pure fun w hw => hw.mono fun new h => absurd hres h.1
          · exact Spec.pure fun w hw => hw.mono fun new h => ⟨rfl, h.2⟩
  · refine Spec.pure fun w hw => hw.mono fun new h => ⟨rfl, ?_, h.2⟩
    exact ⟨h.1.tied, h.1.worker, h.1.expired, h.1.stopped, h.1.signalled, h.1.late,
      fun hlt => h.1.unkilled (Nat.lt_succ_of_lt hlt)⟩

/-- A round ends. -/
theorem Running.slept (h : Running id pid fork rounds fork.timeoutMsec new w) :
    Round id pid fork (rounds + 1) (fork.timeoutMsec + 1) (.sys .nanosleep .done :: new)
      (w.log (.sys .nanosleep .done)) := by
  obtain ⟨hround, hrunning⟩ := h
  constructor
  · exact hround.tied
  · exact hround.worker
  · intro _
    rw [watch, hround.expired hrunning]
    rfl
  · exact fun hs => absurd hs hrunning
  · exact List.mem_cons_of_mem _ hround.signalled
  · exact hround.late.cons fun _ _ => nofun
  · exact fun hlt => (hround.unkilled (Nat.lt_of_succ_lt_succ hlt)).cons fun _ _ => nofun

/-- What `wait_for_exit` leaves: the child has stopped, or the window is over. -/
def Waited (id pid : Nat) (fork : ForkInfo) (new : List ForkEvent) (w : World) : Prop :=
  SigkillLate id pid fork new ∧
    if w.worker.state = .stopped then
      watch id (fork.timeoutMsec + killTime) new = .settled (exitVerdict w.worker.wstatus)
    else watch id (fork.timeoutMsec + killTime) new = .expired (fork.timeoutMsec + killTime)

theorem waitRounds_watched (fuel left : Nat) (hleft : rounds + left = fork.timeoutMsec + killTime) :
    Spec (Watched w₀ (Round id pid fork rounds (fork.timeoutMsec + 1)))
      (waitRounds env fuel fork.timeoutMsec killTime left rounds)
      (fun ok => Watched w₀ fun new w => ok = true ∧ Waited id pid fork new w) OutOfFuel := by
  induction left generalizing rounds with
  | zero =>
    refine Spec.pure fun w hw => hw.mono fun new h => ⟨rfl, h.late, ?_⟩
    split
    · rename_i hs
      exact (h.stopped hs).1
    · rename_i hs
      exact hleft ▸ h.expired hs
  | succ left ih =>
    apply (stepWaitpid_watched env (by omega) fuel).bind
    intro ok
    cases ok with
    | false => exact fun w hw => absurd hw.1 (by simp)
    | true =>
      apply Spec.bind (Q := fun w' => Watched w₀ fun new w =>
        Round id pid fork rounds (fork.timeoutMsec + 1) new w ∧ w'.worker = w.worker)
      · exact Spec.get fun w hw => hw.2.mono fun new h => ⟨h, rfl⟩
      · intro w'
        split
        · rename_i hs
          refine Spec.pure fun w hw => hw.mono fun new h => ⟨rfl, h.1.late, ?_⟩
          rw [h.2] at hs
          rw [if_pos hs]
          exact (h.1.stopped hs).1
        · rename_i hs
          apply ((killInRound_watched env).mono
            (fun w hw => hw.mono fun new h => ⟨h.1, h.2 ▸ hs⟩) (fun _ _ h => h) fun _ _ h => h).bind
          intro ok
          cases ok with
          | false => exact Spec.pure fun w hw => hw.mono fun new h => absurd h.1 (by simp)
          | true =>
            have hslept : Spec (Watched w₀ fun new w =>
                true = true ∧ Running id pid fork rounds fork.timeoutMsec new w) (nanosleep env)
                (fun answer => Watched w₀ fun new w => answer = .done ∧
                  Round id pid fork (rounds + 1) (fork.timeoutMsec + 1) new w) OutOfFuel := by
              apply Spec.mono (P := Watched w₀ fun new w =>
                Running id pid fork rounds fork.timeoutMsec new w ∧ True) ?_
                (fun w hw => hw.mono fun new h => ⟨h.2, trivial⟩) (fun _ _ h => h) fun _ _ h => h
              apply plainCall_spec env (Running.placid _)
              · exact fun w e hw => hw.failed rfl nofun
              · exact fun w hw => hw.log rfl fun new h => ⟨rfl, h.1.slept⟩
            have hnext := ih (show (rounds + 1) + left = fork.timeoutMsec + killTime by omega)
            have hrest (answer : Answer) : Spec (Watched w₀ fun new w => answer = .done ∧
                Round id pid fork (rounds + 1) (fork.timeoutMsec + 1) new w)
                (waitRounds env fuel fork.timeoutMsec killTime left (rounds + 1))
                (fun ok => Watched w₀ fun new w => ok = true ∧ Waited id pid fork new w)
                OutOfFuel :=
              hnext.mono (fun w hw => hw.mono fun new h => h.2) (fun _ _ h => h) fun _ _ h => h
            apply hslept.bind
            intro answer
            cases answer with
            | failed e => exact Spec.pure fun w hw => hw.mono fun new h => nomatch h.1
            | _ => exact hrest _

/-- Between the timeout and the first signal. -/
structure Expired (id pid window : Nat) (new : List ForkEvent) (w : World) : Prop where
  tied : Tied id pid w
  worker : w.worker.pid = pid
  active : w.worker.state ≠ .stopped
  unkilled : Unkilled new
  watch : watch id window new = .expired 0

theorem Expired.placid {window : Nat} : Placid (Watched w₀ (Expired id pid window)) := by
  apply Watched.placid
  · exact fun new w n h => ⟨h.tied, h.worker, h.active, h.unkilled, h.watch⟩
  · intro new w event h _
    have hworker := w.childEvent_worker event
    constructor
    · exact h.tied.childEvent event
    · exact hworker ▸ h.worker
    · exact hworker ▸ h.active
    · exact h.unkilled.cons fun _ _ => nofun
    · rw [Theft.watch, h.watch]
      rfl

/-- The result is the verdict, now and when the child is reaped. -/
def Decided (id pid : Nat) (fork : ForkInfo) (res : TrialRes) (new : List ForkEvent) : Prop :=
  SigkillLate id pid fork new ∧
    (watch id (fork.timeoutMsec + killTime) new = .settled res ∨
      (watch id (fork.timeoutMsec + killTime) new = .expired (fork.timeoutMsec + killTime) ∧
        res = .fail))

theorem Waited.decided (h : Waited id pid fork new w) :
    Decided id pid fork (if w.worker.state = .stopped ∧ w.worker.wstatus = .exited exitSuccess then
      .pass else .fail) new := by
  obtain ⟨hlate, hwaited⟩ := h
  refine ⟨hlate, ?_⟩
  by_cases hs : w.worker.state = .stopped
  · rw [if_pos hs] at hwaited
    left
    rw [hwaited, exitVerdict]
    simp [hs]
  · rw [if_neg hs] at hwaited
    right
    exact ⟨hwaited, by simp [hs]⟩

theorem handleTimeout_watched (hwrap : fork.timeoutMsec + killTime < 2 ^ 64) (fuel : Nat) :
    Spec (Watched w₀ (Expired id pid (fork.timeoutMsec + killTime)))
      (handleTimeout env fuel fork pid)
      (fun res => Watched w₀ fun new _ => Decided id pid fork res new) OutOfFuel := by
  have hkill : Spec (Watched w₀ (Expired id pid (fork.timeoutMsec + killTime)))
      (kill env (.kill pid fork.killSignal) pid) (fun killRes => Watched w₀ fun new w =>
        killRes ≠ -1 ∧ Round id pid fork 0 (fork.timeoutMsec + 1) new w) OutOfFuel := by
    apply kill_spec env Expired.placid
    · exact fun w e hw => hw.failed rfl fun h => by cases h.1
    · refine fun w hw => hw.log rfl fun new h => ⟨by decide, ?_⟩
      have hunkilled : Unkilled (.sys (.kill pid fork.killSignal) .done :: new) :=
        h.unkilled.cons fun _ _ => nofun
      constructor
      · exact h.tied
      · exact h.worker
      · intro _
        rw [watch, h.watch]
        rfl
      · exact fun hs => absurd hs h.active
      · exact List.mem_cons_self
      · exact hunkilled.late
      · exact fun _ => hunkilled
  apply hkill.bind
  intro killRes
  split
  · rename_i hres
    exact Spec.pure fun w hw => hw.mono fun new h => absurd hres h.1
  · have hwait : Spec (Watched w₀ (Round id pid fork 0 (fork.timeoutMsec + 1)))
        (waitRounds env fuel fork.timeoutMsec killTime (fork.timeoutMsec + killTime) 0)
        (fun ok => Watched w₀ fun new w => ok = true ∧ Waited id pid fork new w) OutOfFuel :=
      waitRounds_watched env fuel _ (Nat.zero_add _)
    have hbound : (fork.timeoutMsec + killTime) % 2 ^ 64 = fork.timeoutMsec + killTime :=
      Nat.mod_eq_of_lt hwrap
    unfold waitForExit
    rw [hbound]
    apply (hwait.mono (fun w hw => hw.mono fun new h => h.2) (fun _ _ h => h) fun _ _ h => h).bind
    intro ok
    cases ok with
    | false => exact Spec.pure fun w hw => hw.mono fun new h => absurd h.1 (by simp)
    | true =>
      apply Spec.bind (Q := fun w' => Watched w₀ fun new w => Waited id pid fork new w ∧
        w' = w)
      · exact Spec.get fun w hw => hw.mono fun new h => ⟨h.2, rfl⟩
      · intro w'
        exact Spec.pure fun w hw => hw.mono fun new h => h.2 ▸ h.1.decided

theorem Polled.placid {window : Nat} : Placid (Watched w₀ (Polled id pid window)) := by
  apply Watched.placid
  · rintro new w n ⟨htied, hworker, hactive, hunkilled, ⟨hwatch, hopen⟩ | ⟨res, hwatch, hshut⟩⟩
    · exact ⟨htied, hworker, hactive, hunkilled,
        .inl ⟨hwatch, hopen.byte, hopen.writer, hopen.alive, hopen.silent⟩⟩
    · exact ⟨htied, hworker, hactive, hunkilled,
        .inr ⟨res, hwatch, hshut.writer, hshut.byte, hshut.sent⟩⟩
  · intro new w event h _
    have hworker := w.childEvent_worker event
    constructor
    · exact h.tied.childEvent event
    · exact hworker ▸ h.worker
    · exact hworker ▸ h.active
    · exact h.unkilled.cons fun _ _ => nofun
    · rw [watch]
      obtain ⟨hwatch, hopen⟩ | ⟨res, hwatch, hshut⟩ := h.pipe
      · rw [hwatch]
        obtain ⟨hopen', hnext⟩ | ⟨res, hshut, hnext⟩ := hopen.childEvent window event
        · exact .inl ⟨hnext, hopen'⟩
        · exact .inr ⟨res, hnext, hshut⟩
      · rw [hwatch]
        exact .inr ⟨res, rfl, hshut.childEvent event⟩

/-- The watch has its verdict, there was no `SIGKILL`, and `read` will tell the result. -/
structure Received (id window : Nat) (res : TrialRes) (new : List ForkEvent) (w : World) : Prop where
  watch : watch id window new = .settled res
  unkilled : Unkilled new
  shut : Shut id res w

theorem Received.placid {window : Nat} :
    Placid (Watched w₀ fun new w => ∃ res, Received id window res new w) := by
  apply Watched.placid
  · rintro new w n ⟨res, hwatch, hunkilled, hshut⟩
    exact ⟨res, hwatch, hunkilled, hshut.writer, hshut.byte, hshut.sent⟩
  · rintro new w event ⟨res, hwatch, hunkilled, hshut⟩ _
    exact ⟨res, by rw [Theft.watch, hwatch]; rfl, hunkilled.cons fun _ _ => nofun,
      hshut.childEvent event⟩

/-- `poll` finds the pipe ready when the result is settled. -/
theorem Polled.ready {window : Nat} (h : Polled id pid window new w)
    (hready : w.pipe.byte.isSome ∨ w.pipe.writer = none) :
    ∃ res, Received id window res (.sys .poll .ready :: new) (w.log (.sys .poll .ready)) := by
  obtain ⟨-, hopen⟩ | ⟨res, hstate, hshut⟩ := h.pipe
  · obtain hbyte | hwriter := hready
    · simp [hopen.byte] at hbyte
    · simp [hopen.writer] at hwriter
  · exact ⟨res, by rw [Theft.watch, hstate]; rfl, h.unkilled.cons fun _ _ => nofun, hshut.writer,
      hshut.byte, hshut.sent⟩

/-- The verdict of the watch, without a `SIGKILL`. -/
def Foreseen (id window : Nat) (res : TrialRes) (new : List ForkEvent) : Prop :=
  watch id window new = .settled res ∧ Unkilled new

/-- What is known once `poll` answered. -/
def PollForesees (id pid window : Nat) : Answer → List ForkEvent → World → Prop
  | .failed _, _, _ => False
  | .timeout, new, w => Expired id pid window new w
  | _, new, w => ∃ res, Received id window res new w

/-- What is known once `read` answered. -/
def ReadForesees (id window : Nat) : Answer → List ForkEvent → Prop
  | .byte res, new => Foreseen id window res new
  | .eof, new => Foreseen id window .fail new
  | _, _ => False

theorem pollRetry_watched {window : Nat} (timeout : Int) (fuel : Nat) :
    Spec (Watched w₀ (Polled id pid window)) (pollRetry env timeout fuel)
      (fun answer => Watched w₀ (PollForesees id pid window answer)) OutOfFuel := by
  induction fuel with
  | zero => exact Spec.throw fun _ _ => rfl
  | succ fuel ih =>
    have hanswer : Spec (Watched w₀ (Polled id pid window)) (poll env timeout (fuel + 1))
        (fun answer => Watched w₀ (PollForesees id pid window answer)) OutOfFuel := by
      apply poll_spec env Polled.placid fun _ _ => rfl
      · exact fun w e hw => hw.failed rfl fun h => nomatch h.1
      · exact fun w hw hready => hw.log rfl fun new h => h.ready hready
      · intro w hw hbyte hwriter
        refine hw.log rfl fun new h =>
          ⟨h.tied, h.worker, h.active, h.unkilled.cons fun _ _ => nofun, ?_⟩
        obtain ⟨hstate, -⟩ | ⟨res, -, hshut⟩ := h.pipe
        · rw [watch, hstate]
          rfl
        · obtain hsome | ⟨-, hnone, -⟩ := hshut.byte
          · simp [hbyte] at hsome
          · exact absurd hnone hwriter
    have hretry : Spec (Watched w₀ fun _ _ => False) (pollRetry env timeout fuel)
        (fun answer => Watched w₀ (PollForesees id pid window answer)) OutOfFuel :=
      ih.mono (fun _ hw => hw.mono fun _ h => h.elim) (fun _ _ h => h) fun _ _ h => h
    apply hanswer.bind
    intro answer
    cases answer with
    | failed e =>
      cases e with
      | eagain => exact hretry
      | eintr => exact hretry
      | _ => exact Spec.pure fun _ hw => hw
    | _ => exact Spec.pure fun _ hw => hw

theorem readRetry_watched {window : Nat} (fuel : Nat) :
    Spec (Watched w₀ fun new w => ∃ res, Received id window res new w)
      (readRetry env fuel) (fun answer => Watched w₀ fun new _ => ReadForesees id window answer new)
      OutOfFuel := by
  induction fuel with
  | zero => exact Spec.throw fun _ _ => rfl
  | succ fuel ih =>
    have hanswer : Spec (Watched w₀ fun new w => ∃ res, Received id window res new w)
        (read env) (fun answer => Watched w₀ fun new _ => ReadForesees id window answer new)
        OutOfFuel := by
      apply read_spec env Received.placid
      · exact fun w e hw => hw.failed rfl fun h => nomatch h.1
      · rintro w res hw hbyte
        refine hw.log rfl fun new ⟨res', h⟩ => ⟨?_, h.unkilled.cons fun _ _ => nofun⟩
        obtain hsome | ⟨hnone, -⟩ := h.shut.byte
        · rw [watch, h.watch, Option.some.inj (hbyte.symm.trans hsome)]
          rfl
        · simp [hnone] at hbyte
      · intro w hw hbyte
        refine hw.log rfl fun new ⟨res', h⟩ => ⟨?_, h.unkilled.cons fun _ _ => nofun⟩
        obtain hsome | ⟨-, -, rfl⟩ := h.shut.byte
        · simp [hbyte] at hsome
        · rw [watch, h.watch]
          rfl
    apply hanswer.bind
    intro answer
    cases answer with
    | failed e =>
      cases e with
      | eintr =>
        exact ih.mono (fun _ hw => hw.mono fun _ h => h.elim) (fun _ _ h => h) fun _ _ h => h
      | _ => exact Spec.pure fun _ hw => hw
    | _ => exact Spec.pure fun _ hw => hw

theorem Foreseen.decided {res : TrialRes} (h : Foreseen id (fork.timeoutMsec + killTime) res new) :
    Decided id pid fork res new := ⟨h.2.late, .inl h.1⟩

theorem parentHandleChildCall_watched (hwrap : fork.timeoutMsec + killTime < 2 ^ 64) (fuel : Nat) :
    Spec (Watched w₀ (Polled id pid (fork.timeoutMsec + killTime)))
      (parentHandleChildCall env fuel fork pid)
      (fun res => Watched w₀ fun new _ => Decided id pid fork res new) OutOfFuel := by
  have received : Spec (Watched w₀ fun new w =>
        ∃ res, Received id (fork.timeoutMsec + killTime) res new w) (receiveResult env fuel)
      (fun res => Watched w₀ fun new _ => Decided id pid fork res new) OutOfFuel := by
    apply (readRetry_watched env fuel).bind
    intro answer
    cases answer with
    | byte res => exact Spec.pure fun _ hw => hw.mono fun _ h => h.decided
    | eof => exact Spec.pure fun _ hw => hw.mono fun _ h => h.decided
    | _ => exact Spec.pure fun _ hw => hw.mono fun _ h => h.elim
  apply (pollRetry_watched env fork.pollTimeout fuel).bind
  intro answer
  cases answer with
  | failed e => exact Spec.pure fun _ hw => hw.mono fun _ h => h.elim
  | timeout => exact handleTimeout_watched env hwrap fuel
  | _ => exact received

/-! ## The call -/

/-- What was said of the events so far stays so: after a failure nothing is said any more, and an
event that happened did happen. -/
theorem Watched.upheld {I : List ForkEvent → Prop} (hI : ∀ event new, I new → I (event :: new)) :
    Upheld (Watched w₀ fun new _ => I new) where
  toPlacid := Watched.placid (fun _ _ _ h => h) fun _ _ _ h _ => hI _ _ h
  sys _ _ _ hw _ _ := hw.log rfl fun _ h => hI _ _ h
  waitFailed _ _ hw _ := hw.log rfl fun _ h => hI _ _ h
  idle _ _ hw _ _ := hw.log rfl fun _ h => hI _ _ h
  reap _ _ _ hw _ _ := hw.log rfl fun _ h => hI _ _ h
  pipe _ hw := hw.set rfl fun _ h => h
  worker _ _ hw := hw.set rfl fun _ h => h

theorem Decided.child {res : TrialRes} (h : Decided id pid fork res new) (event : ChildEvent) :
    Decided id pid fork res (.child event :: new) := by
  obtain ⟨hlate, hwatch | ⟨hwatch, hres⟩⟩ := h
  · exact ⟨hlate.cons fun _ _ => nofun, .inl (by rw [watch, hwatch]; rfl)⟩
  · exact ⟨hlate.cons fun _ _ => nofun, .inr ⟨by rw [watch, hwatch]; rfl, hres⟩⟩

/-- Once the window is over, a child that is reaped is too late. -/
theorem Decided.waitpid {res : TrialRes} (h : Decided id pid fork res new) (answer : Answer) :
    Decided id pid fork res (.sys .waitpid answer :: new) := by
  obtain ⟨hlate, hwatch | ⟨hwatch, rfl⟩⟩ := h
  · exact ⟨hlate.cons fun _ _ => nofun, .inl (by rw [watch, hwatch]; rfl)⟩
  · refine ⟨hlate.cons fun _ _ => nofun, ?_⟩
    rw [watch, hwatch]
    cases answer with
    | reaped i pid status =>
      by_cases hi : i = id
      · simp [Watch.next, hi]
      · simp [Watch.next, hi]
    | _ => exact .inr ⟨rfl, rfl⟩

theorem stepWaitpid_decided {res : TrialRes} (fuel : Nat) :
    Spec (Watched w₀ fun new _ => Decided id pid fork res new) (stepWaitpid env fuel)
      (fun ok w => ok = true ∧ Watched w₀ (fun new _ => Decided id pid fork res new) w)
      OutOfFuel := by
  have hplacid : Placid (Watched w₀ fun new _ => Decided id pid fork res new) :=
    Watched.placid (fun _ _ _ h => h) fun _ _ event h _ => h.child event
  apply stepWaitpid_spec env hplacid fun _ _ => rfl
  · exact fun w e hw _ => hw.log rfl fun new h => h.waitpid _
  · exact fun w answer hw _ _ => hw.log rfl fun new h => h.waitpid _
  · exact fun w c status hw _ _ => hw.log (World.saveStatus_trace _ _) fun new h => h.waitpid _

/-- The child is made, and the parent has not recorded it. -/
structure Spawned (id pid window : Nat) (new : List ForkEvent) (w : World) : Prop where
  tied : Tied id pid w
  forked : .sys .fork (.forked id pid) ∈ new
  unkilled : Unkilled new
  watch : watch id window new = .waiting
  child : Open id w

theorem callParent_decided (hwrap : fork.timeoutMsec + killTime < 2 ^ 64) (fuel : Nat) :
    Spec (Watched w₀ (Spawned id pid (fork.timeoutMsec + killTime))) (callParent env fuel fork pid)
      (fun res => Watched w₀ fun new _ => Decided id pid fork res new) OutOfFuel := by
  apply Spec.bind (Q := fun _ => Watched w₀ (Polled id pid (fork.timeoutMsec + killTime)))
  · refine Spec.modify fun w hw => hw.set rfl fun new h => ⟨h.tied, rfl, nofun, h.unkilled, ?_⟩
    exact .inl ⟨h.watch, h.child.byte, h.child.writer, h.child.alive, h.child.silent⟩
  · intro _
    apply (parentHandleChildCall_watched env hwrap fuel).bind
    intro res
    apply Spec.bind (Q := fun _ => Watched w₀ fun new _ => Decided id pid fork res new)
    · exact Spec.modify fun w hw => hw.set rfl fun new h => h
    · intro _
      apply (stepWaitpid_decided env fuel).bind
      intro ok
      cases ok with
      | false => exact fun w hw => absurd hw.1 (by simp)
      | true => exact Spec.pure fun w hw => hw.2

theorem callParent_watched (hwrap : fork.timeoutMsec + killTime < 2 ^ 64) (fuel : Nat) :
    Spec (Watched w₀ (Spawned id pid (fork.timeoutMsec + killTime))) (callParent env fuel fork pid)
      (fun res => Watched w₀ fun new _ => ∃ pid, .sys .fork (.forked id pid) ∈ new ∧
        Decided id pid fork res new) OutOfFuel := by
  have hupheld : Upheld (Watched w₀ fun new _ => .sys .fork (.forked id pid) ∈ new) :=
    Watched.upheld fun _ _ h => List.mem_cons_of_mem _ h
  apply ((callParent_decided env hwrap fuel).also fun w res w' hw hrun =>
    (hupheld.callParent fuel fork pid).returned (hw.mono fun _ h => h.forked) hrun).mono
    (fun _ hw => hw) ?_ fun _ _ h => h
  rintro res w ⟨hdecided, hforked⟩
  exact (hforked.and hdecided).mono fun _ h => ⟨pid, h⟩

theorem Before.childEvent {window : Nat} (h : Before id window new w) {event : ChildEvent}
    (htrace : (w.childEvent event).trace = .child event :: w.trace) :
    Before id window (.child event :: new) (w.childEvent event) := by
  refine ⟨h.prior.childEvent event, ?_, h.unkilled.cons fun _ _ => nofun⟩
  rw [Theft.watch, h.watch]
  -- the event is one of an older child
  obtain heq | ⟨i, res, c, rfl, hc, rfl, -⟩ | ⟨i, status, c, hevent, hc, rfl, -⟩ |
    ⟨i, c, rfl, -⟩ := w.childEvent_cases event
  · rw [heq] at htrace
    simp at htrace
  · simp [Watch.next, Nat.ne_of_lt (h.prior.known c hc)]
  · obtain ⟨rfl, -⟩ | rfl := hevent
    · rfl
    · simp [Watch.next, Nat.ne_of_lt (h.prior.known c hc)]
  · rfl

theorem Before.placid {window : Nat} : Placid (Watched w₀ (Before id window)) :=
  Watched.placid (fun _ _ _ h => ⟨⟨h.prior.nextId, h.prior.known⟩, h.watch, h.unkilled⟩)
    fun _ _ _ h htrace => h.childEvent htrace

theorem Before.piped_placid {window : Nat} :
    Placid (Watched w₀ fun new w => Before id window new w ∧ w.pipe = ⟨none, none⟩) :=
  Watched.placid (fun _ _ _ h => ⟨⟨⟨h.1.prior.nextId, h.1.prior.known⟩, h.1.watch, h.1.unkilled⟩, h.2⟩)
    fun _ w event h htrace => ⟨h.1.childEvent htrace, w.childEvent_unheld h.2 event⟩

theorem forkRetry_failed (fuel left nsec : Nat) (Q : Option Nat → List ForkEvent → World → Prop) :
    Spec (Watched w₀ fun _ _ => False) (forkRetry env fuel left nsec)
      (fun pid => Watched w₀ (Q pid)) OutOfFuel := by
  have hspawn : ∀ w pid, Watched w₀ (fun _ _ => False) w → (∀ c ∈ w.children, c.pid ≠ pid) →
      Watched w₀ (fun _ _ => False) ((w.spawn pid).log (.sys .fork (.forked w.nextId pid))) :=
    fun w pid hw _ => hw.log rfl fun _ h => h
  apply (Upheld.forkRetry (Watched.upheld fun _ _ h => h) hspawn fuel left nsec).mono
    (fun _ hw => hw) ?_
    fun _ _ h => h.1
  intro pid w hw
  exact (by simpa using hw : Watched w₀ (fun _ _ => False) w).mono fun _ h => h.elim

theorem forkRetry_watched {window : Nat} (fuel left nsec : Nat) :
    Spec (Watched w₀ fun new w => Before id window new w ∧ w.pipe = ⟨none, none⟩)
      (forkRetry env fuel left nsec) (fun pid => Watched w₀ fun new w =>
        ∃ pid', pid = some pid' ∧ Spawned id pid' window new w) OutOfFuel := by
  cases left with
  | zero => exact Spec.throw fun _ _ => rfl
  | succ left =>
    have hanswer : Spec (Watched w₀ fun new w => Before id window new w ∧ w.pipe = ⟨none, none⟩)
        (Theft.fork env) (fun answer => Watched w₀ fun new w =>
          ∃ i pid, answer = .forked i pid ∧ Spawned id pid window new w) OutOfFuel := by
      apply fork_spec env Before.piped_placid
      · exact fun w e hw => hw.failed rfl fun h => nomatch h.1
      · rintro w pid hw hfresh
        refine hw.log rfl fun new ⟨h, hpipe⟩ => ⟨w.nextId, pid, rfl, ?_⟩
        have hknown : ∀ c ∈ w.children, c.id < w.nextId := h.prior.nextId ▸ h.prior.known
        have hopen := Open.spawn hknown (congrArg Pipe.byte hpipe) pid
        have htied := Tied.spawn hknown hfresh
        rw [h.prior.nextId] at hopen htied
        constructor
        · exact htied
        · exact List.mem_cons.mpr (.inl (by rw [h.prior.nextId]))
        · exact h.unkilled.cons fun _ _ => nofun
        · rw [Theft.watch, h.watch]
          rfl
        · exact ⟨hopen.byte, hopen.writer, hopen.alive, hopen.silent⟩
    apply hanswer.bind
    intro answer
    cases answer with
    | forked i pid =>
      refine Spec.pure fun w hw => hw.mono fun new h => ?_
      obtain ⟨_, _, heq, hspawned⟩ := h
      cases heq
      exact ⟨pid, rfl, hspawned⟩
    | failed e =>
      cases e with
      | eagain =>
        -- `fork` did not fail
        have hnone : Spec (Watched w₀ fun _ _ => False) (pure none : Parent (Option Nat))
            (fun pid => Watched w₀ fun new w => ∃ pid', pid = some pid' ∧ Spawned id pid' window new w)
            OutOfFuel := Spec.pure fun w hw => hw.mono fun _ h => h.elim
        apply Spec.mono (P := Watched w₀ fun _ _ => False) ?_
          (fun w hw => hw.mono fun new ⟨_, _, h, _⟩ => nomatch h) (fun _ _ h => h) fun _ _ h => h
        have hupheld : Upheld (Watched w₀ fun _ _ => False) := Watched.upheld fun _ _ h => h
        apply ((hupheld.stepWaitpid fuel).mono (fun _ hw => hw) (fun _ _ hw => hw)
          fun _ _ h => h.1).bind
        intro ok
        split
        · apply hupheld.nanosleep.bind
          intro answer
          split
          · exact hnone
          · split
            · exact hnone
            · exact forkRetry_failed env fuel left (2 * nsec) fun pid new w =>
                ∃ pid', pid = some pid' ∧ Spawned id pid' window new w
        · exact hnone
      | _ => exact Spec.pure fun w hw => hw.mono fun new ⟨_, _, h, _⟩ => nomatch h
    | _ => exact Spec.pure fun w hw => hw.mono fun new ⟨_, _, h, _⟩ => nomatch h

theorem callForked_watched (hwrap : fork.timeoutMsec + killTime < 2 ^ 64) (fuel : Nat) :
    Spec (Watched w₀ (Before id (fork.timeoutMsec + killTime))) (callForked env fuel fork)
      (fun res => Watched w₀ fun new _ => ∃ pid, .sys .fork (.forked id pid) ∈ new ∧
        Decided id pid fork res new) OutOfFuel := by
  have hpipe : Spec (Watched w₀ (Before id (fork.timeoutMsec + killTime))) (pipe env)
      (fun answer => Watched w₀ fun new w => answer = .done ∧
        Before id (fork.timeoutMsec + killTime) new w ∧ w.pipe = ⟨none, none⟩) OutOfFuel := by
    apply pipe_spec env Before.placid
    · exact fun w e hw => hw.failed rfl fun h => by cases h.1
    · refine fun w hw => hw.log rfl fun new h => ⟨rfl, ?_, rfl⟩
      exact ⟨⟨h.prior.nextId, h.prior.known⟩, by rw [Theft.watch, h.watch]; rfl,
        h.unkilled.cons fun _ _ => nofun⟩
  have hforked : Spec (Watched w₀ fun new w =>
        Before id (fork.timeoutMsec + killTime) new w ∧ w.pipe = ⟨none, none⟩)
      (forkAndCall env fuel fork)
      (fun res => Watched w₀ fun new _ => ∃ pid, .sys .fork (.forked id pid) ∈ new ∧
        Decided id pid fork res new) OutOfFuel := by
    apply (forkRetry_watched env fuel fuel 1).bind
    intro pid
    cases pid with
    | none =>
      refine Spec.pure fun w hw => hw.mono fun new h => ?_
      obtain ⟨_, h, _⟩ := h
      cases h
    | some pid =>
      apply (callParent_watched env hwrap fuel).mono ?_ (fun _ _ hw => hw) fun _ _ h => h
      intro w hw
      refine hw.mono fun new h => ?_
      obtain ⟨pid', heq, h⟩ := h
      cases heq
      exact h
  apply hpipe.bind
  intro answer
  cases answer with
  | failed e => exact Spec.pure fun w hw => hw.mono fun new h => by cases h.1
  | _ => exact hforked.mono (fun w hw => hw.mono fun new h => h.2) (fun _ _ h => h) fun _ _ h => h

variable {env}

/-- The result of a call without failures, and its `SIGKILL`, which is for the child of this
call. -/
structure KeepsVerdict (fork : ForkInfo) (w : World) (new : List ForkEvent) (res : TrialRes) :
    Prop where
  verdict : (watch w.nextId (fork.timeoutMsec + killTime) new).verdict = some res
  sigkill : ∃ pid, .sys .fork (.forked w.nextId pid) ∈ new ∧ SigkillLate w.nextId pid fork new

theorem Call.keepsVerdict {res : TrialRes} (h : Call env fork w new res w') (hw : Tracked w)
    (hwrap : fork.timeoutMsec + killTime < 2 ^ 64) (hno : NoFailure new) :
    KeepsVerdict fork w new res := by
  obtain ⟨fuel, hrun⟩ := h.returned
  have hstart : Watched w (Before w.nextId (fork.timeoutMsec + killTime)) w :=
    ⟨[], rfl, fun _ => ⟨⟨rfl, hw.known⟩, rfl, fun _ _ => nofun⟩⟩
  obtain ⟨new', hnew, hdecided⟩ := (callForked_watched env hwrap fuel).returned hstart hrun
  rw [h.trace, List.append_cancel_right_eq] at hnew
  subst hnew
  obtain ⟨pid, hforked, hlate, hwatch | ⟨hwatch, rfl⟩⟩ := hdecided hno
  · exact ⟨by rw [hwatch]; rfl, pid, hforked, hlate⟩
  · exact ⟨by rw [hwatch]; rfl, pid, hforked, hlate⟩

/-- At a turn after `fork` the time is over, or the child comes to a result or dies. -/
def Concluded (env : Nat → Turn) (fork : ForkInfo) (w : World) : Prop :=
  ∃ n, w.asked + 2 ≤ n ∧
    ((0 < fork.timeout ∧ (env n).expired) ∨ ∃ event ∈ (env n).events, Concludes w.nextId event)

theorem ForkInfo.pollTimeout_nonneg {fork : ForkInfo} (hpos : 0 < fork.timeout)
    (hlt : fork.timeout < 2 ^ 31) : 0 ≤ fork.pollTimeout := by
  have hint : (BitVec.ofNat 32 fork.timeout).toInt = fork.timeout := by
    have hnat : (BitVec.ofNat 32 fork.timeout).toNat = fork.timeout :=
      Nat.mod_eq_of_lt (Nat.lt_trans hlt (by decide))
    rw [BitVec.toInt_eq_toNat_of_lt (by rw [hnat]; omega), hnat]
  rw [pollTimeout, hint, if_neg (by omega)]
  omega

/-- A call that is not interrupted returns where the child concludes or is timed out. -/
theorem callForked_concludes (hw : Tracked w) (hlimit : fork.timeout < 2 ^ 31)
    (henv : Uninterrupted env) (hconcluded : Concluded env fork w) :
    ∃ enough, ∀ fuel, enough ≤ fuel → ∃ res w', callForked env fuel fork w = .ok res w' := by
  obtain ⟨n, hlater, hn⟩ := hconcluded
  have hanswers : Answers env (Piped w.nextId) fork.pollTimeout n := by
    intro w' hpiped hasked
    obtain ⟨hpos, hexpired⟩ | ⟨event, hmem, hevent⟩ := hn
    · exact .inr (.inr ⟨ForkInfo.pollTimeout_nonneg hpos hlimit, hexpired⟩)
    · have hpiped' : Piped w.nextId { w' with asked := w'.asked + 1 } :=
        (Piped.placid w.nextId).asked w' _ hpiped
      obtain ⟨res, hshut⟩ := hpiped'.events hevent (hasked.symm ▸ hmem)
      exact hshut.ready.elim .inl fun h => .inr (.inl h)
  have hspawn : ∀ w' pid, Prior w.nextId w' ∧ w'.pipe = ⟨none, none⟩ →
      (∀ c ∈ w'.children, c.pid ≠ pid) →
      Piped w.nextId { (w'.spawn pid).log (.sys .fork (.forked w'.nextId pid)) with
        worker := { w'.worker with state := .active, pid := pid } } := by
    rintro w' pid ⟨hprior, hpipe⟩ -
    have hknown : ∀ c ∈ w'.children, c.id < w'.nextId := hprior.nextId ▸ hprior.known
    have hopen := Open.spawn hknown (congrArg Pipe.byte hpipe) pid
    rw [hprior.nextId] at hopen
    exact .inl ⟨hopen.byte, hopen.writer, hopen.alive, hopen.silent⟩
  exact callForked_returns (callForked_settles henv (Prior.placid w.nextId)
    (Prior.piped_placid w.nextId) (Piped.placid w.nextId) fork ⟨rfl, hw.known⟩
    (fun w' answer h => ⟨⟨h.nextId, h.known⟩, rfl⟩) hspawn hanswers hlater)

/-- With this `exit_timeout` every call comes to the verdict, whatever happened in earlier calls:
it returns, and what it returns is right. -/
def VerdictsKept (exitTimeout : Nat) : Prop :=
  ∀ (env : Nat → Turn) (news : List (List ForkEvent)) (w : World) (fork : ForkInfo),
    Calls env World.start news w → fork.exitTimeout = exitTimeout → fork.timeout < 2 ^ 31 →
    (Uninterrupted env → Concluded env fork w →
      ∃ enough, ∀ fuel, enough ≤ fuel → ∃ res w', callForked env fuel fork w = .ok res w') ∧
    ∀ new res w', Call env fork w new res w' → NoFailure new → KeepsVerdict fork w new res

/-- The timeout is over at the first `poll`, and the child returns and exits at a later turn. -/
def childIsLate (turn n : Nat) : Turn :=
  ⟨if n = turn then [.returned 0 .pass, .finished 0] else [], none, n = 2, 0, 7⟩

/-- A failure of the call, as far as `NoFailure` counts it -/
def failure : ForkEvent → Bool
  | .sys call (.failed e) => !(call = .waitpid && e = .echild)
  | _ => false

theorem NoFailure.of_all (h : new.all (!failure ·)) : NoFailure new := by
  intro call e hmem
  simpa [failure] using List.all_eq_true.mp h _ hmem

/-- The wait is over after these rounds, in the last of which the child ends; it is reaped at the
end of the call. -/
theorem verdict_lost {rounds : Nat} (h : rounds < 10) : ¬ VerdictsKept (2 ^ 64 - 10 + rounds) := by
  have hrun : ∀ rounds < 10, passes (fun res w' => decide (res = .fail ∧
      w'.trace.all (!failure ·) ∧
      (watch 0 (2 ^ 64 - 10 + rounds + killTime) w'.trace).verdict = some .pass))
      (callForked (childIsLate (3 + 2 * rounds)) 12 ⟨1, 0, 2 ^ 64 - 10 + rounds⟩
        World.start) = true := by
    decide +kernel
  obtain ⟨res, w', hres, hpass⟩ := of_passes (hrun rounds h)
  obtain ⟨rfl, hno, hpass⟩ := of_decide_eq_true hpass
  intro hkept
  have hcall : Call (childIsLate (3 + 2 * rounds)) ⟨1, 0, 2 ^ 64 - 10 + rounds⟩ World.start
      w'.trace .fail w' := ⟨⟨12, hres⟩, (List.append_nil _).symm⟩
  have hlimit : (1 : Nat) < 2 ^ 31 := by decide
  have hverdict := ((hkept _ _ _ _ (.none _) rfl hlimit).2 _ _ _ hcall (.of_all hno)).verdict
  have htimeout : (⟨1, 0, 2 ^ 64 - 10 + rounds⟩ : ForkInfo).timeoutMsec = 2 ^ 64 - 10 + rounds :=
    if_neg (Nat.ne_of_gt (Nat.lt_of_lt_of_le (by decide) (Nat.le_add_right _ rounds)))
  rw [htimeout] at hverdict
  cases hpass.symm.trans hverdict

/-- The verdict is kept for the values of `exit_timeout` for which the wait does not wrap. -/
theorem verdicts_kept_iff (exitTimeout : Nat) (h : exitTimeout < 2 ^ 64) :
    VerdictsKept exitTimeout ↔
      (⟨0, 0, exitTimeout⟩ : ForkInfo).timeoutMsec + killTime < 2 ^ 64 := by
  constructor
  · intro hkept
    by_cases hwrap : exitTimeout + 10 < 2 ^ 64
    · unfold ForkInfo.timeoutMsec
      dsimp only
      split
      · decide
      · exact hwrap
    · obtain ⟨rounds, rfl⟩ := Nat.exists_eq_add_of_le (show 2 ^ 64 - 10 ≤ exitTimeout by omega)
      exact absurd hkept (verdict_lost (by omega))
  · rintro hwrap env news w fork hcalls rfl hlimit
    have htracked := hcalls.tracked .start
    exact ⟨callForked_concludes htracked hlimit, fun new res w' hcall hno =>
      hcall.keepsVerdict htracked hwrap hno⟩

/-- The timeout is over at the first `poll`, and the child only dies after the second signal. -/
def childIsStubborn (n : Nat) : Turn :=
  ⟨if n = 12 then [.died 0 (.signaled 9)] else [], none, n = 2, 0, 7⟩

/-- Three rounds after the first signal comes `SIGKILL`. -/
theorem verdicts_kept_stubborn : ∃ new w', Call childIsStubborn ⟨1, 0, 3⟩ World.start new .fail w' ∧
    .sys (.sigkill 7) .done ∈ new ∧ KeepsVerdict ⟨1, 0, 3⟩ World.start new .fail := by
  have hrun : passes (fun res w' => decide (res = .fail ∧ w'.trace.all (!failure ·) ∧
      .sys (.sigkill 7) .done ∈ w'.trace))
      (callForked childIsStubborn 15 ⟨1, 0, 3⟩ World.start) = true := by
    decide +kernel
  obtain ⟨res, w', hres, hpass⟩ := of_passes hrun
  obtain ⟨rfl, hno, hkilled⟩ := of_decide_eq_true hpass
  have hcall : Call childIsStubborn ⟨1, 0, 3⟩ World.start w'.trace .fail w' :=
    ⟨⟨15, hres⟩, (List.append_nil _).symm⟩
  have hkept : VerdictsKept 3 := (verdicts_kept_iff 3 (by decide)).mpr (by decide)
  have hlimit : (1 : Nat) < 2 ^ 31 := by decide
  exact ⟨w'.trace, w', hcall, hkilled,
    (hkept _ _ _ _ (.none _) rfl hlimit).2 _ _ _ hcall (.of_all hno)⟩

theorem verdicts_not_kept : ¬ ∀ exitTimeout < 2 ^ 64, VerdictsKept exitTimeout :=
  fun h => verdict_lost (show 9 < 10 by decide) (h (2 ^ 64 - 1) (by decide))

end

end Theft
