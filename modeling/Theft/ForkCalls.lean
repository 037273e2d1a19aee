import Theft.Fork

/-!
# What a system call does

One rule for each system call, for a predicate on worlds that the children's own steps keep. A
predicate that every step keeps, of the children and of the parent, holds after every call of
`theft_call`.
-/

namespace Theft

open Exec

/-- The only way in which a program of the parent stops without a result. -/
def OutOfFuel (stop : Stop) (_ : World) : Prop := stop = .fuel

/-! ## Steps of children -/

namespace World
variable {w : World}

@[simp] theorem log_trace (event : ForkEvent) : (w.log event).trace = event :: w.trace := rfl

@[simp] theorem writeByte_trace (id : Nat) (res : TrialRes) :
    (w.writeByte id res).trace = w.trace := by
  unfold writeByte
  dsimp only
  split <;> rfl

@[simp] theorem endChild_trace (id : Nat) (status : ExitStatus) :
    (w.endChild id status).trace = w.trace := by
  unfold endChild
  dsimp only
  split <;> rfl

@[simp] theorem reap_trace (id : Nat) : (w.reap id).trace = w.trace := rfl

@[simp] theorem spawn_trace (pid : Nat) : (w.spawn pid).trace = w.trace := rfl

@[simp] theorem saveStatus_trace (pid : Nat) (status : ExitStatus) :
    (w.saveStatus pid status).trace = w.trace := by
  unfold saveStatus
  split <;> rfl

@[simp] theorem writeByte_worker (id : Nat) (res : TrialRes) :
    (w.writeByte id res).worker = w.worker := by
  unfold writeByte
  dsimp only
  split <;> rfl

@[simp] theorem endChild_worker (id : Nat) (status : ExitStatus) :
    (w.endChild id status).worker = w.worker := by
  unfold endChild
  dsimp only
  split <;> rfl

/-- All that a step of a child can be. -/
theorem childEvent_cases (w : World) (event : ChildEvent) :
    w.childEvent event = w ∨
    (∃ id res c, event = .returned id res ∧ c ∈ w.children ∧ c.id = id ∧ c.status = none ∧
      c.sent = none ∧ w.childEvent event = (w.writeByte id res).log (.child event)) ∨
    (∃ id status c, (event = .finished id ∧ (∃ res, c.sent = some res ∧ status = childStatus res) ∨
        event = .died id status) ∧ c ∈ w.children ∧ c.id = id ∧ c.status = none ∧
      w.childEvent event = (w.endChild id status).log (.child event)) ∨
    ∃ id c, event = .vanished id ∧ c ∈ w.children ∧ c.id = id ∧ c.status.isSome ∧
      w.childEvent event = (w.reap id).log (.child event) := by
  have running : ∀ {id c}, w.running id = some c → c ∈ w.children ∧ c.id = id ∧ c.status = none := by
    intro id c hc
    have holds := List.find?_some hc
    simp only [Bool.and_eq_true, decide_eq_true_eq, Option.isNone_iff_eq_none] at holds
    exact ⟨List.mem_of_find?_eq_some hc, holds⟩
  cases event with
  | returned id res =>
    cases hc : w.running id with
    | none => left; simp [childEvent, hc]
    | some c =>
      obtain ⟨hmem, hid, hstatus⟩ := running hc
      cases hsent : c.sent with
      | some res' => left; simp [childEvent, hc, hsent]
      | none =>
        right; left
        exact ⟨id, res, c, rfl, hmem, hid, hstatus, hsent, by simp [childEvent, hc, hsent]⟩
  | finished id =>
    cases hc : w.running id with
    | none => left; simp [childEvent, hc]
    | some c =>
      obtain ⟨hmem, hid, hstatus⟩ := running hc
      cases hsent : c.sent with
      | none => left; simp [childEvent, hc, hsent]
      | some res =>
        right; right; left
        exact ⟨id, _, c, .inl ⟨rfl, res, hsent, rfl⟩, hmem, hid, hstatus,
          by simp [childEvent, hc, hsent]⟩
  | died id status =>
    cases hc : w.running id with
    | none => left; simp [childEvent, hc]
    | some c =>
      obtain ⟨hmem, hid, hstatus⟩ := running hc
      right; right; left
      exact ⟨id, status, c, .inr rfl, hmem, hid, hstatus, by simp [childEvent, hc]⟩
  | vanished id =>
    by_cases hany : w.children.any fun c => c.id = id && c.status.isSome
    · right; right; right
      obtain ⟨c, hmem, hc⟩ := List.any_eq_true.mp hany
      simp only [Bool.and_eq_true, decide_eq_true_eq] at hc
      exact ⟨id, c, rfl, hmem, hc.1, hc.2, by simp only [childEvent, if_pos hany]⟩
    · left
      simp only [childEvent, if_neg hany]

theorem childEvent_trace (w : World) (event : ChildEvent) :
    w.childEvent event = w ∨ (w.childEvent event).trace = .child event :: w.trace := by
  obtain h | ⟨id, res, c, -, -, -, -, -, h⟩ | ⟨id, status, c, -, -, -, -, h⟩ |
    ⟨id, c, -, -, -, -, h⟩ := childEvent_cases w event
  · exact .inl h
  · exact .inr (by simp [h])
  · exact .inr (by simp [h])
  · exact .inr (by simp [h])

theorem childEvent_worker (w : World) (event : ChildEvent) :
    (w.childEvent event).worker = w.worker := by
  obtain h | ⟨id, res, c, -, -, -, -, -, h⟩ | ⟨id, status, c, -, -, -, -, h⟩ |
    ⟨id, c, -, -, -, -, h⟩ := childEvent_cases w event
  · rw [h]
  · rw [h]
    exact writeByte_worker id res
  · rw [h]
    exact endChild_worker id status
  · rw [h]
    rfl

end World

/-- Kept by the steps of children. -/
structure Placid (P : World → Prop) : Prop where
  asked : ∀ w n, P w → P { w with asked := n }
  child : ∀ w event, P w → P (w.childEvent event)

theorem Placid.events {P : World → Prop} (h : Placid P) (events : List ChildEvent) {w : World}
    (hw : P w) : P (events.foldl World.childEvent w) := by
  induction events generalizing w with
  | nil => exact hw
  | cons event events ih => exact ih (h.child w event hw)

/-- Since `w₀` the events `new` happened, the newest first. -/
def Logged (w₀ : World) (I : List ForkEvent → Prop) (w : World) : Prop :=
  ∃ new, w.trace = new ++ w₀.trace ∧ I new

namespace Logged
variable {w₀ w : World} {I J : List ForkEvent → Prop}

theorem start (h : I []) : Logged w₀ I w₀ := ⟨[], rfl, h⟩

theorem log (h : Logged w₀ I w) {event : ForkEvent} (hI : ∀ new, I new → J (event :: new)) :
    Logged w₀ J (w.log event) := by
  obtain ⟨new, hnew, hi⟩ := h
  exact ⟨event :: new, by simp [hnew], hI new hi⟩

theorem of_trace (h : Logged w₀ I w) {w' : World} (ht : w'.trace = w.trace) : Logged w₀ I w' := by
  obtain ⟨new, hnew, hi⟩ := h
  exact ⟨new, ht.trans hnew, hi⟩

theorem mono (h : Logged w₀ I w) (hI : ∀ new, I new → J new) : Logged w₀ J w := by
  obtain ⟨new, hnew, hi⟩ := h
  exact ⟨new, hnew, hI new hi⟩

theorem placid (hI : ∀ event new, I new → I (.child event :: new)) : Placid (Logged w₀ I) := by
  constructor
  · exact fun w n h => h.of_trace rfl
  · intro w event h
    obtain ht | ht := w.childEvent_trace event
    · rwa [ht]
    · exact (h.log (hI event)).of_trace (by simp [ht])

end Logged

/-! ## System calls -/

section
variable (env : Nat → Turn) {P : World → Prop} {E : Stop → World → Prop}

theorem takeTurn_apply (w : World) :
    takeTurn env w = .ok (env w.asked)
      ((env w.asked).events.foldl World.childEvent { w with asked := w.asked + 1 }) := rfl

theorem takeTurn_spec (h : Placid P) : Spec P (takeTurn env) (fun _ => P) E :=
  fun w hw => h.events _ (h.asked w _ hw)

theorem answered_spec {Q : Answer → World → Prop} {call : Syscall} {answer : Answer}
    (h : ∀ w, P w → Q answer (w.log (.sys call answer))) :
    Spec P (answered call answer) Q E := h

theorem plainCall_spec {Q : Answer → World → Prop} {call : Syscall} (h : Placid P)
    (hfail : ∀ w e, P w → Q (.failed e) (w.log (.sys call (.failed e))))
    (hdone : ∀ w, P w → Q .done (w.log (.sys call .done))) :
    Spec P (plainCall env call) Q E := by
  apply (takeTurn_spec env h).bind
  intro turn
  cases turn.fault with
  | none => exact answered_spec hdone
  | some e => exact answered_spec fun w => hfail w e

/-- The fields of the pipe are reset. -/
theorem pipe_spec {Q : Answer → World → Prop} (h : Placid P)
    (hfail : ∀ w e, P w →
      Q (.failed e) { w.log (.sys .pipe (.failed e)) with pipe := ⟨none, none⟩ })
    (hdone : ∀ w, P w → Q .done { w.log (.sys .pipe .done) with pipe := ⟨none, none⟩ }) :
    Spec P (pipe env) Q E := by
  apply (plainCall_spec env (Q := fun answer w => Q answer { w with pipe := ⟨none, none⟩ })
    h hfail hdone).bind
  intro answer
  exact Spec.bind (Q := fun _ => Q answer) (Spec.modify fun _ hw => hw) fun _ =>
    Spec.pure fun _ hw => hw

theorem freshPid_fresh (children : List Child) (pid : Nat) :
    ∀ c ∈ children, c.pid ≠ freshPid children pid := by
  intro c hc
  unfold freshPid
  split
  · have hle : c.pid ≤ (children.map Child.pid).max?.getD 0 :=
      List.le_max?_getD_of_mem (List.mem_map_of_mem hc)
    omega
  · rename_i hany
    simp only [List.any_eq_true, decide_eq_true_eq, not_exists, not_and] at hany
    exact hany c hc

theorem fork_spec {Q : Answer → World → Prop} (h : Placid P)
    (hfail : ∀ w e, P w → Q (.failed e) (w.log (.sys .fork (.failed e))))
    (hfork : ∀ w pid, P w → (∀ c ∈ w.children, c.pid ≠ pid) →
      Q (.forked w.nextId pid) ((w.spawn pid).log (.sys .fork (.forked w.nextId pid)))) :
    Spec P (fork env) Q E := by
  apply (takeTurn_spec env h).bind
  intro turn
  cases turn.fault with
  | some e => exact answered_spec fun w => hfail w e
  | none => exact fun w hw => hfork w _ hw (freshPid_fresh _ _)

/-- Either the call fails, or it reports a child that has ended, or there is none. -/
theorem waitpid_spec {Q : Answer → World → Prop} (h : Placid P)
    (hfail : ∀ w e, P w → e ≠ .echild → Q (.failed e) (w.log (.sys .waitpid (.failed e))))
    (hidle : ∀ w answer, P w → (∀ c ∈ w.children, c.status = none) →
      answer = .noChange ∨ answer = .failed .echild → Q answer (w.log (.sys .waitpid answer)))
    (hreap : ∀ w c status, P w → c ∈ w.children → c.status = some status →
      Q (.reaped c.id c.pid status) ((w.reap c.id).log (.sys .waitpid (.reaped c.id c.pid status)))) :
    Spec P (waitpid env) Q E := by
  apply (takeTurn_spec env h).bind
  intro turn
  dsimp only
  cases hfault : turn.fault.filter (· ≠ .echild) with
  | some e =>
    have he := (Option.filter_eq_some_iff.mp hfault).2
    exact answered_spec fun w hw => hfail w e hw (of_decide_eq_true he)
  | none =>
    intro w hw
    simp only [bind_apply, get_apply]
    cases hpick : (w.children.filter fun c => c.status.isSome)[turn.pick %
        (w.children.filter fun c => c.status.isSome).length]? with
    | some c =>
      obtain ⟨hmem, hended⟩ := List.mem_filter.mp (List.mem_of_getElem? hpick)
      obtain ⟨status, hstatus⟩ := Option.isSome_iff_exists.mp hended
      have := hreap w c status hw hmem hstatus
      simp only [hstatus, Option.getD_some]
      exact this
    | none =>
      have hnone : ∀ c ∈ w.children, c.status = none := by
        have hlen := List.getElem?_eq_none_iff.mp hpick
        have hzero : (w.children.filter fun c => c.status.isSome).length = 0 := by
          cases hk : (w.children.filter fun c => c.status.isSome).length with
          | zero => rfl
          | succ k =>
            rw [hk] at hlen
            exact absurd hlen (Nat.not_le.mpr (Nat.mod_lt _ (Nat.succ_pos k)))
        intro c hc
        simpa using List.filter_eq_nil_iff.mp (List.length_eq_zero_iff.mp hzero) c hc
      apply hidle w _ hw hnone
      split
      · exact .inr rfl
      · exact .inl rfl

theorem kill_spec {Q : Int → World → Prop} {call : Syscall} {pid : Nat} (h : Placid P)
    (hfail : ∀ w e, P w → Q (-1) (w.log (.sys call (.failed e))))
    (hdone : ∀ w, P w → Q 0 (w.log (.sys call .done))) :
    Spec P (kill env call pid) Q E := by
  apply (takeTurn_spec env h).bind
  intro turn
  dsimp only
  intro w hw
  simp only [bind_apply, get_apply]
  cases turn.fault with
  | some e => exact hfail w e hw
  | none =>
    by_cases hany : w.children.any (·.pid = pid)
    · simp only [hany]
      exact hdone w hw
    · simp only [hany]
      exact hfail w .esrch hw

theorem read_spec {Q : Answer → World → Prop} (h : Placid P)
    (hfail : ∀ w e, P w → Q (.failed e) (w.log (.sys .read (.failed e))))
    (hbyte : ∀ w res, P w → w.pipe.byte = some res → Q (.byte res) (w.log (.sys .read (.byte res))))
    (heof : ∀ w, P w → w.pipe.byte = none → Q .eof (w.log (.sys .read .eof))) :
    Spec P (read env) Q E := by
  apply (takeTurn_spec env h).bind
  intro turn
  cases turn.fault with
  | some e => exact answered_spec fun w => hfail w e
  | none =>
    intro w hw
    simp only [bind_apply, get_apply]
    cases hbyte' : w.pipe.byte with
    | none => exact heof w hw hbyte'
    | some res => exact hbyte w res hw hbyte'

theorem poll_spec {Q : Answer → World → Prop} {timeout : Int} (h : Placid P)
    (hfuel : ∀ w, P w → E .fuel w)
    (hfail : ∀ w e, P w → Q (.failed e) (w.log (.sys .poll (.failed e))))
    (hready : ∀ w, P w → w.pipe.byte.isSome ∨ w.pipe.writer = none →
      Q .ready (w.log (.sys .poll .ready)))
    (htimeout : ∀ w, P w → w.pipe.byte = none → w.pipe.writer ≠ none →
      Q .timeout (w.log (.sys .poll .timeout))) (fuel : Nat) :
    Spec P (poll env timeout fuel) Q E := by
  induction fuel with
  | zero => exact Spec.throw hfuel
  | succ fuel ih =>
    apply (takeTurn_spec env h).bind
    intro turn
    cases turn.fault with
    | some e => exact answered_spec fun w => hfail w e
    | none =>
      dsimp only
      intro w hw
      simp only [bind_apply, get_apply]
      by_cases hsome : w.pipe.byte.isSome || w.pipe.writer.isNone
      · rw [if_pos hsome]
        exact hready w hw (by simpa using hsome)
      · rw [if_neg hsome]
        simp only [Bool.or_eq_true, not_or, Bool.not_eq_true, Option.isSome_eq_false_iff,
          Option.isNone_iff_eq_none] at hsome
        by_cases hexpired : 0 ≤ timeout && turn.expired
        · rw [if_pos hexpired]
          exact htimeout w hw hsome.1 hsome.2
        · rw [if_neg hexpired]
          exact ih w hw

/-- The loop around `waitpid` goes on until there is no child that has ended, or a call fails. -/
theorem stepWaitpid_spec {Q : World → Prop} (h : Placid P)
    (hfuel : ∀ w, P w → E .fuel w)
    (hfail : ∀ w e, P w → e ≠ .echild → Q (w.log (.sys .waitpid (.failed e))))
    (hidle : ∀ w answer, P w → (∀ c ∈ w.children, c.status = none) →
      answer = .noChange ∨ answer = .failed .echild → Q (w.log (.sys .waitpid answer)))
    (hreap : ∀ w c status, P w → c ∈ w.children → c.status = some status →
      P (((w.reap c.id).log (.sys .waitpid (.reaped c.id c.pid status))).saveStatus c.pid status))
    (fuel : Nat) : Spec P (stepWaitpid env fuel) (fun ok w => ok = true ∧ Q w) E := by
  induction fuel with
  | zero => exact Spec.throw hfuel
  | succ fuel ih =>
    have hanswer : Spec P (waitpid env) (fun answer w =>
        match answer with
        | .reaped _ pid status => P (w.saveStatus pid status)
        | _ => Q w) E := by
      apply waitpid_spec env h hfail
      · rintro w answer hw hnone (rfl | rfl)
        · exact hidle w _ hw hnone (.inl rfl)
        · exact hidle w _ hw hnone (.inr rfl)
      · exact hreap
    apply hanswer.bind
    intro answer
    cases answer with
    | reaped id pid status => exact Spec.bind (Q := fun _ => P) (Spec.modify fun _ hw => hw) fun _ => ih
    | failed e => cases e <;> exact Spec.pure fun _ hw => ⟨rfl, hw⟩
    | _ => exact Spec.pure fun _ hw => ⟨rfl, hw⟩

/-! ## What every step keeps -/

/-- A program that ran out of fuel stops in a world in `P`. -/
def StopsIn (P : World → Prop) (stop : Stop) (w : World) : Prop := stop = .fuel ∧ P w

/-- Kept by every step but a `fork` that makes a child. -/
structure Upheld (P : World → Prop) : Prop extends Placid P where
  sys : ∀ w call answer, P w → call ≠ .waitpid → (∀ id pid, answer ≠ .forked id pid) →
    P (w.log (.sys call answer))
  waitFailed : ∀ w e, P w → e ≠ .echild → P (w.log (.sys .waitpid (.failed e)))
  idle : ∀ w answer, P w → (∀ c ∈ w.children, c.status = none) →
    answer = .noChange ∨ answer = .failed .echild → P (w.log (.sys .waitpid answer))
  reap : ∀ w c status, P w → c ∈ w.children → c.status = some status →
    P ((w.reap c.id).log (.sys .waitpid (.reaped c.id c.pid status)))
  pipe : ∀ w, P w → P { w with pipe := ⟨none, none⟩ }
  worker : ∀ w worker, P w → P { w with worker := worker }

namespace Upheld
variable {env} {R : World → Prop}

theorem saveStatus (h : Upheld P) {w : World} (hw : P w) (pid : Nat) (status : ExitStatus) :
    P (w.saveStatus pid status) := by
  unfold World.saveStatus
  split
  · exact h.worker _ _ hw
  · exact hw

theorem nanosleep (h : Upheld P) : Spec P (nanosleep env) (fun _ => P) E := by
  apply plainCall_spec env h.toPlacid
  · exact fun w e hw => h.sys _ _ _ hw nofun nofun
  · exact fun w hw => h.sys _ _ _ hw nofun nofun

theorem stepWaitpid (h : Upheld P) (fuel : Nat) :
    Spec P (stepWaitpid env fuel) (fun _ => P) (StopsIn P) := by
  apply (stepWaitpid_spec env (Q := P) h.toPlacid (fun _ hw => ⟨rfl, hw⟩) h.waitFailed h.idle ?_
    fuel).mono
    (fun _ hw => hw) (fun _ _ hw => hw.2) fun _ _ hw => hw
  exact fun w c status hw hc hstatus => h.saveStatus (h.reap w c status hw hc hstatus) _ _

theorem kill (h : Upheld P) (call : Syscall) (pid : Nat) (hcall : call ≠ .waitpid) :
    Spec P (kill env call pid) (fun _ => P) E := by
  apply kill_spec env h.toPlacid
  · exact fun w e hw => h.sys _ _ _ hw hcall nofun
  · exact fun w hw => h.sys _ _ _ hw hcall nofun

theorem killInRound (h : Upheld P) (timeout i : Nat) :
    Spec P (killInRound env timeout killTime i) (fun _ => P) (StopsIn P) := by
  unfold Theft.killInRound
  split
  · apply Spec.bind (Q := fun _ => P)
    · exact Spec.require (by decide) fun _ hw => hw
    · intro _
      apply Spec.bind (Q := fun _ => P)
      · exact Spec.get fun _ hw => hw
      · intro w
        apply (h.kill (.sigkill w.worker.pid) w.worker.pid nofun).bind
        intro killRes
        split <;> exact Spec.pure fun _ hw => hw
  · exact Spec.pure fun _ hw => hw

theorem waitRounds (h : Upheld P) (fuel timeout left i : Nat) :
    Spec P (waitRounds env fuel timeout killTime left i) (fun _ => P) (StopsIn P) := by
  induction left generalizing i with
  | zero => exact Spec.pure fun _ hw => hw
  | succ left ih =>
    apply (h.stepWaitpid fuel).bind
    intro ok
    split
    · apply Spec.bind (Q := fun _ => P)
      · exact Spec.get fun _ hw => hw
      · intro w
        split
        · exact Spec.pure fun _ hw => hw
        · apply (h.killInRound timeout i).bind
          intro ok
          split
          · apply h.nanosleep.bind
            intro answer
            cases answer with
            | failed e => exact Spec.pure fun _ hw => hw
            | _ => exact ih (i + 1)
          · exact Spec.pure fun _ hw => hw
    · exact Spec.pure fun _ hw => hw

theorem handleTimeout (h : Upheld P) (fuel : Nat) (fork : ForkInfo) (pid : Nat) :
    Spec P (handleTimeout env fuel fork pid) (fun _ => P) (StopsIn P) := by
  apply (h.kill (.kill pid fork.killSignal) pid nofun).bind
  intro killRes
  split
  · exact Spec.pure fun _ hw => hw
  · apply (h.waitRounds _ _ _ _).bind
    intro ok
    split
    · apply Spec.bind (Q := fun _ => P)
      · exact Spec.get fun _ hw => hw
      · exact fun w => Spec.pure fun _ hw => hw
    · exact Spec.pure fun _ hw => hw

theorem pollRetry (h : Upheld P) (timeout : Int) (fuel : Nat) :
    Spec P (pollRetry env timeout fuel) (fun _ => P) (StopsIn P) := by
  induction fuel with
  | zero => exact Spec.throw fun _ hw => ⟨rfl, hw⟩
  | succ fuel ih =>
    have hanswer : Spec P (poll env timeout (fuel + 1)) (fun _ => P) (StopsIn P) := by
      apply poll_spec env h.toPlacid fun _ hw => ⟨rfl, hw⟩
      · exact fun w e hw => h.sys _ _ _ hw nofun nofun
      · exact fun w hw _ => h.sys _ _ _ hw nofun nofun
      · exact fun w hw _ _ => h.sys _ _ _ hw nofun nofun
    apply hanswer.bind
    intro answer
    split
    · exact ih
    · exact ih
    · exact Spec.pure fun _ hw => hw

theorem readRetry (h : Upheld P) (fuel : Nat) :
    Spec P (readRetry env fuel) (fun _ => P) (StopsIn P) := by
  induction fuel with
  | zero => exact Spec.throw fun _ hw => ⟨rfl, hw⟩
  | succ fuel ih =>
    have hanswer : Spec P (read env) (fun _ => P) (StopsIn P) := by
      apply read_spec env h.toPlacid
      · exact fun w e hw => h.sys _ _ _ hw nofun nofun
      · exact fun w res hw _ => h.sys _ _ _ hw nofun nofun
      · exact fun w hw _ => h.sys _ _ _ hw nofun nofun
    apply hanswer.bind
    intro answer
    split
    · exact ih
    · exact Spec.pure fun _ hw => hw

theorem parentHandleChildCall (h : Upheld P) (fuel : Nat) (fork : ForkInfo) (pid : Nat) :
    Spec P (parentHandleChildCall env fuel fork pid) (fun _ => P) (StopsIn P) := by
  apply (h.pollRetry _ fuel).bind
  intro answer
  split
  · exact Spec.pure fun _ hw => hw
  · exact h.handleTimeout fuel fork pid
  · apply (h.readRetry fuel).bind
    intro answer
    split <;> exact Spec.pure fun _ hw => hw

theorem callParent (h : Upheld P) (fuel : Nat) (fork : ForkInfo) (pid : Nat) :
    Spec P (callParent env fuel fork pid) (fun _ => P) (StopsIn P) := by
  apply Spec.bind (Q := fun _ => P)
  · exact Spec.modify fun w hw => h.worker w _ hw
  · intro _
    apply (h.parentHandleChildCall fuel fork pid).bind
    intro res
    apply Spec.bind (Q := fun _ => P)
    · exact Spec.modify fun w hw => h.worker w _ hw
    · intro _
      apply (h.stepWaitpid fuel).bind
      intro ok
      split <;> exact Spec.pure fun _ hw => hw

/-- `R` holds up to the `fork` that makes a child, and `P` from then on. -/
theorem forkRetry (hr : Upheld R)
    (hspawn : ∀ w pid, R w → (∀ c ∈ w.children, c.pid ≠ pid) →
      P ((w.spawn pid).log (.sys .fork (.forked w.nextId pid))))
    (fuel left nsec : Nat) :
    Spec R (forkRetry env fuel left nsec) (fun pid w => if pid.isSome then P w else R w)
      (StopsIn R) := by
  induction left generalizing nsec with
  | zero => exact Spec.throw fun _ hw => ⟨rfl, hw⟩
  | succ left ih =>
    have hanswer : Spec R (fork env) (fun answer w =>
        match answer with
        | .forked _ _ => P w
        | _ => R w) (StopsIn R) := by
      apply fork_spec env hr.toPlacid
      · exact fun w e hw => hr.sys _ _ _ hw nofun nofun
      · exact hspawn
    have given : Spec R (pure none : Parent (Option Nat))
        (fun pid w => if pid.isSome then P w else R w) (StopsIn R) :=
      Spec.pure fun w hw => by simpa using hw
    apply hanswer.bind
    intro answer
    cases answer with
    | forked id pid => exact Spec.pure fun w hw => by simpa using hw
    | failed e =>
      cases e with
      | eagain =>
        apply (hr.stepWaitpid fuel).bind
        intro ok
        split
        · apply hr.nanosleep.bind
          intro answer
          split
          · exact given
          · split
            · exact given
            · exact ih (2 * nsec)
        · exact given
      | _ => exact given
    | _ => exact given

theorem callForked (hr : Upheld R) (hp : Upheld P)
    (hspawn : ∀ w pid, R w → (∀ c ∈ w.children, c.pid ≠ pid) →
      P ((w.spawn pid).log (.sys .fork (.forked w.nextId pid))))
    (fuel : Nat) (fork : ForkInfo) :
    Spec R (callForked env fuel fork) (fun _ w => R w ∨ P w) (StopsIn fun w => R w ∨ P w) := by
  have hpipe : Spec R (Theft.pipe env) (fun _ => R) (StopsIn fun w => R w ∨ P w) := by
    apply pipe_spec env hr.toPlacid
    · exact fun w e hw => hr.pipe _ (hr.sys _ _ _ hw nofun nofun)
    · exact fun w hw => hr.pipe _ (hr.sys _ _ _ hw nofun nofun)
  apply hpipe.bind
  intro answer
  split
  · exact Spec.pure fun _ hw => .inl hw
  · apply ((forkRetry hr hspawn fuel fuel 1).mono (fun _ hw => hw) (fun _ _ hw => hw)
      fun _ _ hw => ⟨hw.1, .inl hw.2⟩).bind
    intro pid
    cases pid with
    | none => exact Spec.pure fun w hw => .inl (by simpa using hw)
    | some pid =>
      exact (hp.callParent fuel fork pid).mono (fun w hw => by simpa using hw)
        (fun _ _ hw => .inr hw) fun _ _ hw => ⟨hw.1, .inr hw.2⟩

end Upheld

/-- What every event but a `fork` that makes a child keeps. -/
theorem Logged.upheld {w₀ : World} {I : List ForkEvent → Prop}
    (hI : ∀ event new, (∀ id pid, event ≠ .sys .fork (.forked id pid)) → I new →
      I (event :: new)) : Upheld (Logged w₀ I) where
  toPlacid := Logged.placid fun _ new h => hI _ new (fun _ _ => nofun) h
  sys _ call answer hw _ hfork := hw.log fun new => hI _ new (by
    rintro id pid ⟨⟩
    exact hfork id pid rfl)
  waitFailed _ _ hw _ := hw.log fun new => hI _ new fun _ _ => nofun
  idle _ _ hw _ _ := hw.log fun new => hI _ new fun _ _ => nofun
  reap w c _ hw _ _ := (hw.of_trace (w.reap_trace c.id)).log fun new => hI _ new fun _ _ => nofun
  pipe _ hw := hw.of_trace rfl
  worker _ _ hw := hw.of_trace rfl

/-- A call that is run. -/
theorem Call.of_run {env : Nat → Turn} {fork : ForkInfo} {w : World} {new : List ForkEvent}
    {res : TrialRes} (fuel : Nat)
    (h : (match callForked env fuel fork w with
      | .ok res' w' => decide (res' = res ∧ w'.trace = new ++ w.trace)
      | .error _ _ => false) = true) :
    Call env fork w new res (final (callForked env fuel fork) w) := by
  unfold final
  split at h
  · rename_i res' w' hrun
    obtain ⟨rfl, htrace⟩ := of_decide_eq_true h
    rw [hrun]
    exact ⟨⟨fuel, hrun⟩, htrace⟩
  · cases h

end

end Theft
