import Theft.ForkChildren

/-!
# Watching a call

A `Watch` follows the events of a call and says what its result should be: the result that the
child wrote before the timeout, `THEFT_TRIAL_FAIL` where it ended without one, and after a timeout
`THEFT_TRIAL_PASS` where it is reaped in time with a successful exit. Up to the timeout the pipe
shows what the watch knows.
-/

namespace Theft

open Exec

/-! ## The child and its pipe -/

/-- The child runs, and has written nothing. -/
structure Open (id : Nat) (w : World) : Prop where
  byte : w.pipe.byte = none
  writer : w.pipe.writer = some id
  alive : ∃ c ∈ w.children, c.id = id
  silent : ∀ c ∈ w.children, c.id = id → c.status = none ∧ c.sent = none

/-- The child has written its result, or has ended without one, which is a failure. -/
structure Shut (id : Nat) (res : TrialRes) (w : World) : Prop where
  writer : w.pipe.writer = some id ∨ w.pipe.writer = none
  byte : w.pipe.byte = some res ∨ (w.pipe.byte = none ∧ w.pipe.writer = none ∧ res = .fail)
  sent : ∀ c ∈ w.children, c.id = id → c.status = none → c.sent ≠ none

/-- `pid` is the process ID of the child, and of no other one. -/
def Tied (id pid : Nat) (w : World) : Prop := ∀ c ∈ w.children, c.pid = pid ↔ c.id = id

section
variable {id pid : Nat} {res : TrialRes} {w : World}

theorem Open.spawn (hknown : ∀ c ∈ w.children, c.id < w.nextId) (hbyte : w.pipe.byte = none)
    (pid : Nat) : Open w.nextId (w.spawn pid) := by
  constructor
  · exact hbyte
  · rfl
  · exact ⟨_, List.mem_cons_self, rfl⟩
  · intro c hc hid
    obtain rfl | hc := List.mem_cons.mp hc
    · exact ⟨rfl, rfl⟩
    · exact absurd hid (Nat.ne_of_lt (hknown c hc))

theorem Tied.spawn (hknown : ∀ c ∈ w.children, c.id < w.nextId)
    (hfresh : ∀ c ∈ w.children, c.pid ≠ pid) : Tied w.nextId pid (w.spawn pid) := by
  intro c hc
  obtain rfl | hc := List.mem_cons.mp hc
  · simp
  · exact iff_of_false (hfresh c hc) (Nat.ne_of_lt (hknown c hc))

theorem Tied.childEvent (h : Tied id pid w) (event : ChildEvent) :
    Tied id pid (w.childEvent event) := by
  obtain heq | ⟨i, res, c, -, -, -, -, -, heq⟩ | ⟨i, status, c, -, -, -, -, heq⟩ |
    ⟨i, c, -, -, -, -, heq⟩ := w.childEvent_cases event
  · rwa [heq]
  · rw [heq]
    intro c hc
    obtain ⟨c', hc', rfl⟩ := World.mem_writeByte.mp hc
    split <;> exact h c' hc'
  · rw [heq]
    intro c hc
    obtain ⟨c', hc', rfl⟩ := World.mem_endChild.mp hc
    split <;> exact h c' hc'
  · rw [heq]
    exact fun c hc => h c (World.mem_reap.mp hc).1

/-- The child that is there takes its step. -/
theorem Open.running (h : Open id w) : ∃ c, w.running id = some c ∧ c.sent = none := by
  obtain ⟨c, hc, hid⟩ := h.alive
  have hsome : (w.running id).isSome := by
    unfold World.running
    rw [List.find?_isSome]
    exact ⟨c, hc, by simp [hid, (h.silent c hc hid).1]⟩
  obtain ⟨c', hc'⟩ := Option.isSome_iff_exists.mp hsome
  have hmem := List.mem_of_find?_eq_some hc'
  have holds := List.find?_some hc'
  simp only [Bool.and_eq_true, decide_eq_true_eq] at holds
  exact ⟨c', hc', (h.silent c' hmem holds.1).2⟩

theorem World.writeByte_pipe (w : World) (id : Nat) (res : TrialRes) :
    (w.writeByte id res).pipe =
      if w.pipe.writer = some id then { w.pipe with byte := some res } else w.pipe := by
  unfold writeByte
  dsimp only [setChild]
  split <;> rfl

theorem World.endChild_pipe (w : World) (id : Nat) (status : ExitStatus) :
    (w.endChild id status).pipe =
      if w.pipe.writer = some id then { w.pipe with writer := none } else w.pipe := by
  unfold endChild
  dsimp only [setChild]
  split <;> rfl

theorem Open.returned (h : Open id w) (res : TrialRes) : Shut id res (w.writeByte id res) := by
  have hpipe := w.writeByte_pipe id res
  rw [if_pos h.writer] at hpipe
  constructor
  · exact .inl (by rw [hpipe]; exact h.writer)
  · exact .inl (by rw [hpipe])
  · intro c hc hid _
    obtain ⟨c', -, rfl⟩ := World.mem_writeByte.mp hc
    by_cases hsame : c'.id = id
    · simp [hsame]
    · rw [if_neg hsame] at hid
      exact absurd hid hsame

theorem Open.died (h : Open id w) (status : ExitStatus) : Shut id .fail (w.endChild id status) := by
  have hpipe := w.endChild_pipe id status
  rw [if_pos h.writer] at hpipe
  constructor
  · exact .inr (by rw [hpipe])
  · exact .inr ⟨by rw [hpipe]; exact h.byte, by rw [hpipe], rfl⟩
  · intro c hc hid hrunning
    obtain ⟨c', -, rfl⟩ := World.mem_endChild.mp hc
    by_cases hsame : c'.id = id
    · simp [hsame] at hrunning
    · rw [if_neg hsame] at hid
      exact absurd hid hsame

/-- A step of another child. -/
theorem Open.other (h : Open id w) {i : Nat} (hi : i ≠ id) :
    (∀ res, Open id (w.writeByte i res)) ∧ (∀ status, Open id (w.endChild i status)) ∧
      Open id (w.reap i) := by
  have hwriter : w.pipe.writer ≠ some i := by
    rw [h.writer]
    exact fun heq => hi (Option.some.inj heq).symm
  obtain ⟨c, hc, hid⟩ := h.alive
  have hsame : c.id ≠ i := fun heq => hi (heq.symm.trans hid)
  refine ⟨fun res => ?_, fun status => ?_, h.byte, h.writer, ?_, ?_⟩
  · have hpipe := w.writeByte_pipe i res
    rw [if_neg hwriter] at hpipe
    refine ⟨by rw [hpipe]; exact h.byte, by rw [hpipe]; exact h.writer, ?_, ?_⟩
    · exact ⟨c, World.mem_writeByte.mpr ⟨c, hc, by rw [if_neg hsame]⟩, hid⟩
    · intro c' hc' hid'
      obtain ⟨c'', hc'', rfl⟩ := World.mem_writeByte.mp hc'
      by_cases heq : c''.id = i
      · rw [if_pos heq] at hid'
        exact absurd (heq.symm.trans hid') hi
      · rw [if_neg heq] at hid' ⊢
        exact h.silent c'' hc'' hid'
  · have hpipe := w.endChild_pipe i status
    rw [if_neg hwriter] at hpipe
    refine ⟨by rw [hpipe]; exact h.byte, by rw [hpipe]; exact h.writer, ?_, ?_⟩
    · exact ⟨c, World.mem_endChild.mpr ⟨c, hc, by rw [if_neg hsame]⟩, hid⟩
    · intro c' hc' hid'
      obtain ⟨c'', hc'', rfl⟩ := World.mem_endChild.mp hc'
      by_cases heq : c''.id = i
      · rw [if_pos heq] at hid'
        exact absurd (heq.symm.trans hid') hi
      · rw [if_neg heq] at hid' ⊢
        exact h.silent c'' hc'' hid'
  · exact ⟨c, World.mem_reap.mpr ⟨hc, hsame⟩, hid⟩
  · exact fun c' hc' => h.silent c' (World.mem_reap.mp hc').1

theorem Shut.childEvent (h : Shut id res w) (event : ChildEvent) :
    Shut id res (w.childEvent event) := by
  obtain heq | ⟨i, res', c, -, hc, hid, hstatus, hsent, heq⟩ | ⟨i, status, c, -, hc, hid, hstatus, heq⟩ |
    ⟨i, c, -, hc, hid, hstatus, heq⟩ := w.childEvent_cases event
  · rwa [heq]
  · have hi : i ≠ id := by
      rintro rfl
      exact h.sent c hc hid hstatus hsent
    have hpipe : ((w.writeByte i res').log (.child event)).pipe = w.pipe := by
      refine (w.writeByte_pipe i res').trans (if_neg ?_)
      obtain hw | hw := h.writer
      · rw [hw]
        exact fun heq => hi (Option.some.inj heq).symm
      · rw [hw]
        nofun
    rw [heq]
    refine ⟨hpipe ▸ h.writer, hpipe ▸ h.byte, ?_⟩
    intro c' hc' hid' hrunning
    obtain ⟨c'', hc'', rfl⟩ := World.mem_writeByte.mp hc'
    by_cases heq : c''.id = i
    · rw [if_pos heq] at hid'
      exact absurd (heq.symm.trans hid') hi
    · rw [if_neg heq] at hid' hrunning ⊢
      exact h.sent c'' hc'' hid' hrunning
  · have hpipe : ((w.endChild i status).log (.child event)).pipe =
        if w.pipe.writer = some i then { w.pipe with writer := none } else w.pipe :=
      w.endChild_pipe i status
    rw [heq]
    constructor
    · rw [hpipe]
      split
      · exact .inr rfl
      · exact h.writer
    · rw [hpipe]
      obtain hbyte | ⟨hbyte, hwriter, hres⟩ := h.byte
      · left
        split <;> exact hbyte
      · right
        split
        · exact ⟨hbyte, rfl, hres⟩
        · exact ⟨hbyte, hwriter, hres⟩
    · intro c' hc' hid' hrunning
      obtain ⟨c'', hc'', rfl⟩ := World.mem_endChild.mp hc'
      by_cases heq : c''.id = i
      · simp [heq] at hrunning
      · rw [if_neg heq] at hid' hrunning ⊢
        exact h.sent c'' hc'' hid' hrunning
  · rw [heq]
    exact ⟨h.writer, h.byte, fun c' hc' => h.sent c' (World.mem_reap.mp hc').1⟩

/-- Before the child `id` is made. -/
structure Prior (id : Nat) (w : World) : Prop where
  nextId : w.nextId = id
  known : ∀ c ∈ w.children, c.id < id

theorem Prior.childEvent (h : Prior id w) (event : ChildEvent) : Prior id (w.childEvent event) := by
  constructor
  · obtain heq | ⟨i, res, c, -, -, -, -, -, heq⟩ | ⟨i, status, c, -, -, -, -, heq⟩ |
      ⟨i, c, -, -, -, -, heq⟩ := w.childEvent_cases event
    · rw [heq]
      exact h.nextId
    · rw [heq]
      exact (w.writeByte_nextId i res).trans h.nextId
    · rw [heq]
      exact (w.endChild_nextId i status).trans h.nextId
    · rw [heq]
      exact h.nextId
  · intro c hc
    obtain ⟨c', hc', hid⟩ := w.childEvent_from event c hc
    exact hid ▸ h.known c' hc'

/-- No child holds a new pipe. -/
theorem World.childEvent_unheld (h : w.pipe = ⟨none, none⟩) (event : ChildEvent) :
    (w.childEvent event).pipe = ⟨none, none⟩ := by
  obtain heq | ⟨i, res, c, -, -, -, -, -, heq⟩ | ⟨i, status, c, -, -, -, -, heq⟩ |
    ⟨i, c, -, -, -, -, heq⟩ := w.childEvent_cases event
  · rw [heq]
    exact h
  · rw [heq]
    refine (w.writeByte_pipe i res).trans ?_
    simp [h]
  · rw [heq]
    refine (w.endChild_pipe i status).trans ?_
    simp [h]
  · rw [heq]
    exact h

theorem Prior.placid (id : Nat) : Placid (Prior id) :=
  ⟨fun _ _ h => ⟨h.nextId, h.known⟩, fun _ event h => h.childEvent event⟩

theorem Prior.piped_placid (id : Nat) : Placid fun w => Prior id w ∧ w.pipe = ⟨none, none⟩ :=
  ⟨fun _ _ h => ⟨⟨h.1.nextId, h.1.known⟩, h.2⟩,
    fun w event h => ⟨h.1.childEvent event, w.childEvent_unheld h.2 event⟩⟩

end

/-! ## The watch -/

/-- What is known of the result: nothing, or that the timeout passed some rounds ago, or all. -/
inductive Watch
  | waiting
  | expired (rounds : Nat)
  | settled (res : TrialRes)
  deriving DecidableEq, Repr

/-- The result of a property that was timed out, by the exit of its process. -/
def exitVerdict (status : ExitStatus) : TrialRes :=
  if status = .exited exitSuccess then .pass else .fail

/-- What the event tells about the child `id`, which has `window` rounds after a timeout. -/
def Watch.next (id window : Nat) : Watch → ForkEvent → Watch
  | .waiting, .child (.returned i res) => if i = id then .settled res else .waiting
  | .waiting, .child (.died i _) => if i = id then .settled .fail else .waiting
  | .waiting, .sys .poll .timeout => .expired 0
  | .expired rounds, .sys .nanosleep .done => .expired (rounds + 1)
  | .expired rounds, .sys .waitpid (.reaped i _ status) =>
    if i = id then .settled (if rounds < window then exitVerdict status else .fail)
    else .expired rounds
  | watch, _ => watch

/-- The events of a call, the newest first. -/
def watch (id window : Nat) : List ForkEvent → Watch
  | [] => .waiting
  | event :: earlier => (watch id window earlier).next id window event

def Watch.verdict : Watch → Option TrialRes
  | .waiting => none
  | .expired _ => some .fail
  | .settled res => some res

section
variable {id : Nat} {w : World}

theorem Open.childEvent (h : Open id w) (window : Nat) (event : ChildEvent) :
    (Open id (w.childEvent event) ∧ Watch.waiting.next id window (.child event) = .waiting) ∨
      ∃ res, Shut id res (w.childEvent event) ∧
        Watch.waiting.next id window (.child event) = .settled res := by
  obtain ⟨c, hrunning, hsent⟩ := h.running
  have unlogged {w' : World} {event : ForkEvent} (h : Open id w') : Open id (w'.log event) :=
    ⟨h.byte, h.writer, h.alive, h.silent⟩
  cases event with
  | returned i res =>
    by_cases hi : i = id
    · subst hi
      have hreturned := h.returned res
      right
      refine ⟨res, ?_, by simp [Watch.next]⟩
      simp only [World.childEvent, hrunning, hsent]
      exact ⟨hreturned.writer, hreturned.byte, hreturned.sent⟩
    · left
      refine ⟨?_, by simp [Watch.next, hi]⟩
      simp only [World.childEvent]
      split
      · exact h
      · split
        · exact h
        · exact unlogged ((h.other hi).1 res)
  | finished i =>
    left
    refine ⟨?_, rfl⟩
    by_cases hi : i = id
    · subst hi
      simpa only [World.childEvent, hrunning, hsent] using h
    · simp only [World.childEvent]
      split
      · exact h
      · split
        · exact h
        · exact unlogged ((h.other hi).2.1 _)
  | died i status =>
    by_cases hi : i = id
    · subst hi
      have hdied := h.died status
      right
      refine ⟨.fail, ?_, by simp [Watch.next]⟩
      simp only [World.childEvent, hrunning]
      exact ⟨hdied.writer, hdied.byte, hdied.sent⟩
    · left
      refine ⟨?_, by simp [Watch.next, hi]⟩
      simp only [World.childEvent]
      split
      · exact h
      · exact unlogged ((h.other hi).2.1 status)
  | vanished i =>
    left
    refine ⟨?_, rfl⟩
    simp only [World.childEvent]
    split
    · rename_i hany
      obtain ⟨c', hc', hgone⟩ := List.any_eq_true.mp hany
      simp only [Bool.and_eq_true, decide_eq_true_eq] at hgone
      refine unlogged ((h.other ?_).2.2)
      rintro rfl
      simp [(h.silent c' hc' hgone.1).1] at hgone
    · exact h

/-- The child is made, and its pipe is open or shut. -/
def Piped (id : Nat) (w : World) : Prop := Open id w ∨ ∃ res, Shut id res w

theorem Piped.placid (id : Nat) : Placid (Piped id) := by
  constructor
  · rintro w n (h | ⟨res, h⟩)
    · exact .inl ⟨h.byte, h.writer, h.alive, h.silent⟩
    · exact .inr ⟨res, h.writer, h.byte, h.sent⟩
  · rintro w event (h | ⟨res, h⟩)
    · obtain ⟨hopen, -⟩ | ⟨res, hshut, -⟩ := h.childEvent 0 event
      · exact .inl hopen
      · exact .inr ⟨res, hshut⟩
    · exact .inr ⟨res, h.childEvent event⟩

theorem Shut.ready {res : TrialRes} (h : Shut id res w) :
    w.pipe.byte.isSome ∨ w.pipe.writer = none := by
  obtain hbyte | ⟨-, hwriter, -⟩ := h.byte
  · exact .inl (by simp [hbyte])
  · exact .inr hwriter

/-- The child comes to a result, or dies. -/
def Concludes (id : Nat) (event : ChildEvent) : Prop :=
  (∃ res, event = .returned id res) ∨ ∃ status, event = .died id status

theorem Piped.concluded {event : ChildEvent} (h : Piped id w) (he : Concludes id event) :
    ∃ res, Shut id res (w.childEvent event) := by
  obtain hopen | ⟨res, hshut⟩ := h
  · obtain ⟨-, hnext⟩ | ⟨res, hshut, -⟩ := hopen.childEvent 0 event
    · obtain ⟨res, rfl⟩ | ⟨status, rfl⟩ := he <;> simp [Watch.next] at hnext
    · exact ⟨res, hshut⟩
  · exact ⟨res, hshut.childEvent event⟩

/-- When the child concludes at a turn, `poll` finds the pipe ready. -/
theorem Piped.events {event : ChildEvent} (h : Piped id w) (he : Concludes id event)
    {events : List ChildEvent} (hmem : event ∈ events) :
    ∃ res, Shut id res (events.foldl World.childEvent w) := by
  induction events generalizing w with
  | nil => cases hmem
  | cons first rest ih =>
    obtain rfl | hmem := List.mem_cons.mp hmem
    · obtain ⟨res, hshut⟩ := h.concluded he
      have hplacid : Placid fun w => Shut id res w :=
        ⟨fun _ _ h => ⟨h.writer, h.byte, h.sent⟩, fun _ event h => h.childEvent event⟩
      exact ⟨res, hplacid.events rest hshut⟩
    · exact ih ((Piped.placid id).child w first h) hmem

end

end Theft
