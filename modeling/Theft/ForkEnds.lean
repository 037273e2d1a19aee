import Theft.ForkErrors

/-!
# A call comes to its end

The only part of a call that can go on for ever is `poll`, and a `poll` or `read` that is
interrupted again and again. Where no call is interrupted, and at some turn there is an answer for
`poll`, every large enough fuel gives the result of the call. `step_waitpid` ends since there is
one child less each time, and `wait_for_exit` since its rounds are counted.
-/

namespace Theft

open Exec

/-- No call of the system is interrupted, and `fork` is not refused. -/
structure Uninterrupted (env : Nat → Turn) : Prop where
  eagain : ∀ n, (env n).fault ≠ some .eagain
  eintr : ∀ n, (env n).fault ≠ some .eintr

theorem scripted_fault {turns : List Turn} (h : ∀ turn ∈ turns, turn.fault = none) (n : Nat) :
    (scripted turns n).fault = none := by
  unfold scripted
  rw [List.getD_eq_getElem?_getD]
  cases hn : turns[n]? with
  | none => rfl
  | some turn => exact h turn (List.mem_of_getElem? hn)

theorem Uninterrupted.of_none {env : Nat → Turn} (h : ∀ n, (env n).fault = none) :
    Uninterrupted env := by
  constructor
  · intro n
    simp [h n]
  · intro n
    simp [h n]

namespace World
variable {w : World}

theorem childEvent_asked (event : ChildEvent) : (w.childEvent event).asked = w.asked := by
  obtain h | ⟨id, res, c, -, -, -, -, -, h⟩ | ⟨id, status, c, -, -, -, -, h⟩ |
    ⟨id, c, -, -, -, -, h⟩ := w.childEvent_cases event
  · rw [h]
  · rw [h, writeByte]
    dsimp only
    split <;> rfl
  · rw [h, endChild]
    dsimp only
    split <;> rfl
  · exact (congrArg World.asked h).trans rfl

theorem childEvent_length (event : ChildEvent) :
    (w.childEvent event).children.length ≤ w.children.length := by
  obtain h | ⟨id, res, c, -, -, -, -, -, h⟩ | ⟨id, status, c, -, -, -, -, h⟩ |
    ⟨id, c, -, -, -, -, h⟩ := w.childEvent_cases event
  · exact Nat.le_of_eq (by rw [h])
  · rw [h, writeByte]
    dsimp only
    split <;> simp [setChild, World.log]
  · rw [h, endChild]
    dsimp only
    split <;> simp [setChild, World.log]
  · rw [h]
    exact List.length_filter_le _ _

/-- The world after the turn of the environment. -/
def afterEvents (w : World) (env : Nat → Turn) : World :=
  (env w.asked).events.foldl childEvent { w with asked := w.asked + 1 }

theorem events_asked (events : List ChildEvent) :
    (events.foldl childEvent w).asked = w.asked := by
  induction events generalizing w with
  | nil => rfl
  | cons event events ih => exact ih.trans (childEvent_asked event)

end World

/-- No more than `k` children are left. -/
theorem fewer_placid (k : Nat) : Placid fun w => w.children.length ≤ k :=
  ⟨fun _ _ hw => hw, fun w event hw => Nat.le_trans (w.childEvent_length event) hw⟩

theorem anything_placid : Placid fun _ => True := ⟨fun _ _ _ => trivial, fun _ _ _ => trivial⟩

/-! ## Waiting for children -/

section
variable {env : Nat → Turn}

theorem nanosleep_settles :
    Settles .fuel (fun _ => True) (fun _ => nanosleep env) fun _ _ => True :=
  .const (plainCall_spec env anything_placid (fun _ _ _ => trivial) fun _ _ => trivial)

theorem stepWaitpid_settles :
    Settles .fuel (fun _ => True) (stepWaitpid env) fun _ _ => True := by
  have bounded (k : Nat) :
      Settles .fuel (fun w => w.children.length ≤ k) (stepWaitpid env) fun _ _ => True := by
    induction k with
    | zero =>
      have hanswer : Spec (fun w => w.children.length ≤ 0) (waitpid env)
          (fun answer _ => ∀ id pid status, answer ≠ .reaped id pid status)
          fun e _ => e ≠ .fuel := by
        apply waitpid_spec env (fewer_placid 0)
        · exact fun _ _ _ _ => nofun
        · rintro w answer _ _ (rfl | rfl) <;> exact nofun
        · intro w c status hw hc _
          exact absurd (List.length_pos_of_mem hc) (Nat.not_lt.mpr hw)
      apply Settles.step
      apply Settles.bind (.const hanswer)
      intro answer
      cases answer with
      | reaped id pid status => exact fun w hw => absurd rfl (hw id pid status)
      | failed e => cases e <;> exact .const (Spec.pure fun _ _ => trivial)
      | _ => exact .const (Spec.pure fun _ _ => trivial)
    | succ k ih =>
      have hanswer : Spec (fun w => w.children.length ≤ k + 1) (waitpid env)
          (fun answer w => ∀ id pid status, answer = .reaped id pid status →
            w.children.length ≤ k) fun e _ => e ≠ .fuel := by
        apply waitpid_spec env (fewer_placid (k + 1))
        · exact fun _ _ _ _ => nofun
        · rintro w answer _ _ (rfl | rfl) <;> exact nofun
        · intro w c status hw hc _ _ _ _ _
          have hlt : (w.children.filter fun c' => c'.id ≠ c.id).length < w.children.length := by
            apply List.length_filter_lt_length_iff_exists.mpr
            exact ⟨c, hc, by simp⟩
          exact Nat.le_of_lt_succ (Nat.lt_of_lt_of_le hlt hw)
      apply Settles.step
      apply Settles.bind (.const hanswer)
      intro answer
      cases answer with
      | reaped id pid status =>
        dsimp only
        apply Settles.bind (Q := fun _ w => w.children.length ≤ k)
        · apply Settles.const
          apply Spec.modify
          intro w hw
          have hk := hw id pid status rfl
          unfold World.saveStatus
          split <;> exact hk
        · exact fun _ => ih
      | failed e => cases e <;> exact .const (Spec.pure fun _ _ => trivial)
      | _ => exact .const (Spec.pure fun _ _ => trivial)
  exact fun w _ => bounded w.children.length w (Nat.le_refl _)

theorem killInRound_settles (timeout i : Nat) :
    Settles .fuel (fun _ => True) (fun _ => killInRound env timeout killTime i)
      fun _ _ => True := by
  apply Settles.const
  unfold killInRound
  split
  · apply Spec.bind (Q := fun _ _ => True)
    · exact Spec.require (by decide) fun _ _ => trivial
    · intro _
      apply Spec.bind (Q := fun _ _ => True)
      · exact Spec.get fun _ _ => trivial
      · intro w
        apply (kill_spec env (Q := fun _ _ => True) anything_placid (fun _ _ _ => trivial)
          fun _ _ => trivial).bind
        intro killRes
        split <;> exact Spec.pure fun _ _ => trivial
  · exact Spec.pure fun _ _ => trivial

theorem waitRounds_settles (timeout left i : Nat) :
    Settles .fuel (fun _ => True)
      (fun fuel => waitRounds env fuel timeout killTime left i) fun _ _ => True := by
  induction left generalizing i with
  | zero => exact .const (Spec.pure fun _ _ => trivial)
  | succ left ih =>
    apply Settles.bind stepWaitpid_settles
    intro ok
    split
    · apply Settles.bind (.const (Spec.get (Q := fun _ _ => True) fun _ _ => trivial))
      intro w
      split
      · exact .const (Spec.pure fun _ _ => trivial)
      · apply Settles.bind (killInRound_settles timeout i)
        intro ok
        split
        · apply Settles.bind nanosleep_settles
          intro answer
          cases answer with
          | failed e => exact .const (Spec.pure fun _ _ => trivial)
          | _ => exact ih (i + 1)
        · exact .const (Spec.pure fun _ _ => trivial)
    · exact .const (Spec.pure fun _ _ => trivial)

theorem handleTimeout_settles (fork : ForkInfo) (pid : Nat) :
    Settles .fuel (fun _ => True) (fun fuel => handleTimeout env fuel fork pid)
      fun _ _ => True := by
  apply Settles.bind (.const (kill_spec env (Q := fun _ _ => True) anything_placid
    (fun _ _ _ => trivial) fun _ _ => trivial))
  intro killRes
  split
  · exact .const (Spec.pure fun _ _ => trivial)
  · apply Settles.bind (waitRounds_settles _ _ _)
    intro ok
    split
    · apply Settles.bind (.const (Spec.get (Q := fun _ _ => True) fun _ _ => trivial))
      exact fun w => .const (Spec.pure fun _ _ => trivial)
    · exact .const (Spec.pure fun _ _ => trivial)

/-! ## Waiting for a result -/

/-- At its turn `n` the environment has an answer for `poll`, in every world in `P`. -/
def Answers (env : Nat → Turn) (P : World → Prop) (timeout : Int) (n : Nat) : Prop :=
  ∀ w, P w → w.asked = n →
    (w.afterEvents env).pipe.byte.isSome ∨ (w.afterEvents env).pipe.writer = none ∨
      (0 ≤ timeout ∧ (env n).expired)

variable {P : World → Prop} {timeout : Int} {n : Nat}

theorem poll_settles (henv : Uninterrupted env) (hp : Placid P) (hn : Answers env P timeout n)
    (d : Nat) :
    Settles .fuel (fun w => P w ∧ w.asked + d = n) (poll env timeout)
      fun answer _ => answer ≠ .failed .eagain ∧ answer ≠ .failed .eintr := by
  have faulty {turn : Turn} {e : Errno} (hcalm : turn.fault ≠ some .eagain ∧ turn.fault ≠ some .eintr)
      (he : turn.fault = some e) :
      Answer.failed e ≠ .failed .eagain ∧ Answer.failed e ≠ .failed .eintr := by
    constructor
    · rintro ⟨⟩
      exact hcalm.1 he
    · rintro ⟨⟩
      exact hcalm.2 he
  induction d with
  | zero =>
    apply Settles.step
    apply Settles.bind (Q := fun turn w =>
      (turn.fault ≠ some .eagain ∧ turn.fault ≠ some .eintr) ∧
        (w.pipe.byte.isSome ∨ w.pipe.writer = none ∨ (0 ≤ timeout ∧ turn.expired)))
    · apply Settles.const
      rintro w ⟨hw, hasked⟩
      rw [takeTurn_apply]
      have hnow : w.asked = n := hasked
      refine ⟨⟨henv.eagain _, henv.eintr _⟩, ?_⟩
      have hanswer := hn w hw hnow
      rwa [← hnow] at hanswer
    · intro turn
      cases hfault : turn.fault with
      | some e => exact .const (answered_spec fun w hw => faulty (by rw [hfault]; exact hw.1) hfault)
      | none =>
        apply Settles.getThen
        rintro w ⟨-, hanswer⟩
        by_cases hready : w.pipe.byte.isSome || w.pipe.writer.isNone
        · simp only [hready, if_true]
          exact .const (answered_spec fun _ _ => ⟨nofun, nofun⟩)
        · have hexpired : 0 ≤ timeout && turn.expired := by
            obtain hbyte | hwriter | htime := hanswer
            · simp [hbyte] at hready
            · simp [hwriter] at hready
            · simpa using htime
          simp only [hready, hexpired, if_true]
          exact .const (answered_spec fun _ _ => ⟨nofun, nofun⟩)
  | succ d ih =>
    apply Settles.step
    apply Settles.bind (Q := fun turn w =>
      (turn.fault ≠ some .eagain ∧ turn.fault ≠ some .eintr) ∧ P w ∧ w.asked + d = n)
    · apply Settles.const
      rintro w ⟨hw, hasked⟩
      rw [takeTurn_apply]
      refine ⟨⟨henv.eagain _, henv.eintr _⟩, hp.events _ (hp.asked w _ hw), ?_⟩
      rw [World.events_asked]
      exact (Nat.add_right_comm _ _ _).trans hasked
    · intro turn
      cases hfault : turn.fault with
      | some e => exact .const (answered_spec fun w hw => faulty (by rw [hfault]; exact hw.1) hfault)
      | none =>
        apply Settles.getThen
        rintro w ⟨-, hw⟩
        split
        · exact .const (answered_spec fun _ _ => ⟨nofun, nofun⟩)
        · split
          · exact .const (answered_spec fun _ _ => ⟨nofun, nofun⟩)
          · exact ih.mono (fun _ ht => ht ▸ hw) fun _ _ ha => ha

theorem pollRetry_settles (henv : Uninterrupted env) (hp : Placid P)
    (hn : Answers env P timeout n) :
    Settles .fuel (fun w => P w ∧ w.asked ≤ n) (pollRetry env timeout) fun _ _ => True := by
  apply Settles.step
  apply Settles.bind (Q := fun answer _ => answer ≠ .failed .eagain ∧ answer ≠ .failed .eintr)
  · apply Settles.more
    rintro w ⟨hw, hle⟩
    obtain ⟨d, hd⟩ := Nat.exists_eq_add_of_le hle
    exact poll_settles henv hp hn d w ⟨hw, hd.symm⟩
  · intro answer
    cases answer with
    | failed e =>
      cases e with
      | eagain => exact fun w hw => absurd rfl hw.1
      | eintr => exact fun w hw => absurd rfl hw.2
      | _ => exact .const (Spec.pure fun _ _ => trivial)
    | _ => exact .const (Spec.pure fun _ _ => trivial)

theorem readRetry_settles (henv : Uninterrupted env) :
    Settles .fuel (fun _ => True) (readRetry env) fun _ _ => True := by
  have hanswer : Spec (fun _ => True) (read env) (fun answer _ => answer ≠ .failed .eintr)
      fun e _ => e ≠ .fuel := by
    rintro w -
    unfold read
    rw [bind_apply, takeTurn_apply]
    dsimp only
    cases hfault : (env w.asked).fault with
    | some e =>
      rintro ⟨⟩
      exact henv.eintr _ hfault
    | none =>
      have hne (byte : Option TrialRes) : byte.elim Answer.eof Answer.byte ≠ .failed .eintr := by
        cases byte <;> exact nofun
      exact hne _
  apply Settles.step
  apply Settles.bind (.const hanswer)
  intro answer
  cases answer with
  | failed e =>
    cases e with
    | eintr => exact fun w hw => absurd rfl hw
    | _ => exact .const (Spec.pure fun _ _ => trivial)
  | _ => exact .const (Spec.pure fun _ _ => trivial)

theorem parentHandleChildCall_settles (henv : Uninterrupted env) (hp : Placid P) (fork : ForkInfo)
    (pid : Nat) (hn : Answers env P fork.pollTimeout n) :
    Settles .fuel (fun w => P w ∧ w.asked ≤ n)
      (fun fuel => parentHandleChildCall env fuel fork pid) fun _ _ => True := by
  apply Settles.bind (pollRetry_settles henv hp hn)
  intro answer
  have received : Settles .fuel (fun _ => True) (receiveResult env) fun _ _ => True := by
    apply Settles.bind (readRetry_settles henv)
    intro answer
    cases answer <;> exact .const (Spec.pure fun _ _ => trivial)
  cases answer with
  | failed e => exact .const (Spec.pure fun _ _ => trivial)
  | timeout => exact handleTimeout_settles fork pid
  | _ => exact received

theorem callParent_settles (henv : Uninterrupted env) (hp : Placid P) (fork : ForkInfo) (pid : Nat)
    (hn : Answers env P fork.pollTimeout n) :
    Settles .fuel
      (fun w => P { w with worker := { w.worker with state := .active, pid := pid } } ∧ w.asked ≤ n)
      (fun fuel => callParent env fuel fork pid) fun _ _ => True := by
  apply Settles.bind (.const (Spec.modify (Q := fun _ w => P w ∧ w.asked ≤ n) fun _ hw => hw))
  intro _
  apply Settles.bind (parentHandleChildCall_settles henv hp fork pid hn)
  intro res
  apply Settles.bind (.const (Spec.modify (Q := fun _ _ => True) fun _ _ => trivial))
  intro _
  apply Settles.bind stepWaitpid_settles
  intro ok
  split <;> exact .const (Spec.pure fun _ _ => trivial)

/-- A turn, with its number. -/
theorem turn_spec {E : Stop → World → Prop} (hp : Placid P) (k : Nat) :
    Spec (fun w => P w ∧ w.asked = k) (takeTurn env)
      (fun turn w => turn = env k ∧ P w ∧ w.asked = k + 1) E := by
  rintro w ⟨hw, rfl⟩
  exact ⟨rfl, hp.events _ (hp.asked w _ hw), World.events_asked _⟩

/-- A child that is called next is in `P`, and `fork` is not refused. -/
def ForkedAs (P : World → Prop) (n : Nat) : Answer → World → Prop
  | .forked _ pid, w =>
    P { w with worker := { w.worker with state := .active, pid := pid } } ∧ w.asked ≤ n
  | .failed e, _ => e ≠ .eagain
  | _, _ => True

/-- The call comes to an end where `poll` gets an answer at a turn after `pipe` and `fork`. `B` is
what is known before the pipe is made, `R` before the child is, and `P` of the world with it. -/
theorem callForked_settles {B R : World → Prop} (henv : Uninterrupted env) (hb : Placid B)
    (hr : Placid R) (hp : Placid P) (fork : ForkInfo) {w₀ : World} (hw₀ : B w₀)
    (hpipe : ∀ w answer, B w → R { w.log (.sys .pipe answer) with pipe := ⟨none, none⟩ })
    (hspawn : ∀ w pid, R w → (∀ c ∈ w.children, c.pid ≠ pid) →
      P { (w.spawn pid).log (.sys .fork (.forked w.nextId pid)) with
        worker := { w.worker with state := .active, pid := pid } })
    (hn : Answers env P fork.pollTimeout n) (hlater : w₀.asked + 2 ≤ n) :
    Settles .fuel (fun w => w = w₀) (fun fuel => callForked env fuel fork) fun _ _ => True := by
  have hpiped : Spec (fun w => w = w₀) (pipe env)
      (fun _ w => R w ∧ w.asked = w₀.asked + 1) fun e _ => e ≠ .fuel := by
    apply Spec.mono (P := fun w => B w ∧ w.asked = w₀.asked) ?_ ?_ (fun _ _ h => h) fun _ _ h => h
    · apply Spec.bind (Q := fun answer w =>
        R { w with pipe := ⟨none, none⟩ } ∧ w.asked = w₀.asked + 1)
      · apply (turn_spec hb w₀.asked).bind
        intro turn
        exact answered_spec fun w hw => ⟨hpipe w _ hw.2.1, hw.2.2⟩
      · intro answer
        exact Spec.bind (Q := fun _ w => R w ∧ w.asked = w₀.asked + 1)
          (Spec.modify fun _ hw => hw) fun _ => Spec.pure fun _ hw => hw
    · rintro w rfl
      exact ⟨hw₀, rfl⟩
  have hforked : Spec (fun w => R w ∧ w.asked = w₀.asked + 1) (Theft.fork env) (ForkedAs P n)
      fun e _ => e ≠ .fuel := by
    apply (turn_spec hr _).bind
    intro turn
    cases hfault : turn.fault with
    | some e =>
      apply answered_spec
      rintro w ⟨rfl, -⟩ rfl
      exact henv.eagain _ hfault
    | none =>
      rintro w ⟨-, hw, hasked⟩
      refine ⟨hspawn w _ hw (freshPid_fresh _ _), ?_⟩
      exact Nat.le_trans (Nat.le_of_eq hasked) hlater
  have called : Settles .fuel (fun w => R w ∧ w.asked = w₀.asked + 1)
      (fun fuel => forkAndCall env fuel fork) fun _ _ => True := by
    apply Settles.bind (Q := fun pid w => ∀ pid', pid = some pid' →
      P { w with worker := { w.worker with state := .active, pid := pid' } } ∧ w.asked ≤ n)
    · apply Settles.step
      apply Settles.bind (.const hforked)
      intro answer
      cases answer with
      | forked id pid =>
        apply Settles.const
        apply Spec.pure
        rintro w hw _ ⟨⟩
        exact hw
      | failed e =>
        cases e with
        | eagain => exact fun w hw => absurd rfl hw
        | _ => exact .const (Spec.pure fun _ _ => by simp)
      | _ => exact .const (Spec.pure fun _ _ => by simp)
    · intro pid
      cases pid with
      | none => exact .const (Spec.pure fun _ _ => trivial)
      | some pid =>
        exact (callParent_settles henv hp fork pid hn).mono (fun w hw => hw pid rfl) fun _ _ h => h
  apply Settles.bind (.const hpiped)
  intro answer
  cases answer with
  | failed e => exact .const (Spec.pure fun _ _ => trivial)
  | _ => exact called

/-- A call that comes to an end returns. -/
theorem callForked_returns {fork : ForkInfo} {w₀ : World}
    (h : Settles .fuel (fun w => w = w₀) (fun fuel => callForked env fuel fork) fun _ _ => True) :
    ∃ enough, ∀ fuel, enough ≤ fuel → ∃ res w', callForked env fuel fork w₀ = .ok res w' := by
  obtain ⟨enough, ⟨res, w', -, hrun⟩ | ⟨e, w', he, hrun⟩⟩ := h w₀ rfl
  · exact ⟨enough, fun fuel hfuel => ⟨res, w', hrun fuel hfuel⟩⟩
  · have start : Logged w₀ (Mild 0) w₀ := .start ⟨by simp, rfl, by simp⟩
    have hfuel := (callForked_judged env enough fork).stopped start (hrun enough (Nat.le_refl _))
    exact absurd hfuel he

/-! ## A child that disappears -/

/-- Nothing fails but a `SIGKILL` to a process that does not exist any more. `waitpid` may find no
children. -/
def OnlyKillFails (new : List ForkEvent) : Prop :=
  ∀ call e, .sys call (.failed e) ∈ new →
    (call = .waitpid ∧ e = .echild) ∨ ((∃ pid, call = .sigkill pid) ∧ e = .esrch)

theorem fatal_cases {event : ForkEvent} (h : fatal event = true) :
    (∃ call e, event = .sys call (.failed e) ∧ call ≠ .waitpid) ∨
      event = .sys .read (.byte .error) := by
  unfold fatal at h
  split at h
  case h_6 res => exact .inr (by rw [of_decide_eq_true h])
  case h_9 => cases h
  all_goals exact .inl ⟨_, _, rfl, nofun⟩

theorem OnlyKillFails.fatal_iff {new : List ForkEvent} (h : OnlyKillFails new)
    (hunread : ∀ res, .sys .read (.byte res) ∉ new) :
    Fatal new ↔ ∃ pid e, .sys (.sigkill pid) (.failed e) ∈ new := by
  constructor
  · rintro (⟨event, hmem, hfatal⟩ | hmany)
    · obtain ⟨call, e, rfl, hcall⟩ | rfl := fatal_cases hfatal
      · obtain ⟨rfl, -⟩ | ⟨⟨pid, rfl⟩, -⟩ := h call e hmem
        · exact absurd rfl hcall
        · exact ⟨pid, e, hmem⟩
      · exact absurd hmem (hunread _)
    · obtain ⟨event, hmem, hrefused⟩ := List.countP_pos_iff.mp (Nat.zero_lt_of_lt hmany)
      rw [of_decide_eq_true hrefused] at hmem
      obtain ⟨hcall, -⟩ | ⟨⟨pid, hcall⟩, -⟩ := h _ _ hmem <;> cases hcall
  · rintro ⟨pid, e, hmem⟩
    exact .inl ⟨_, hmem, rfl⟩

/-- After a timeout the call returns, and its result is that the property passed or failed if and
only if no `SIGKILL` found that the child had disappeared. -/
theorem disappeared_child_iff (env : Nat → Turn) (fork : ForkInfo) (w₀ : World) :
    (Uninterrupted env → 0 ≤ fork.pollTimeout → (∃ n, w₀.asked + 2 ≤ n ∧ (env n).expired) →
      ∃ enough, ∀ fuel, enough ≤ fuel → ∃ res w', callForked env fuel fork w₀ = .ok res w') ∧
    ∀ new res w', Call env fork w₀ new res w' → .sys .poll .timeout ∈ new → OnlyKillFails new →
      (res = .pass ∨ res = .fail ↔ ∀ pid e, .sys (.sigkill pid) (.failed e) ∉ new) := by
  constructor
  · rintro henv hlimit ⟨n, hlater, hexpired⟩
    have hn : Answers env (fun _ => True) fork.pollTimeout n :=
      fun _ _ _ => .inr (.inr ⟨hlimit, hexpired⟩)
    exact callForked_returns (callForked_settles henv anything_placid anything_placid anything_placid
      fork trivial (fun _ _ _ => trivial) (fun _ _ _ _ => trivial) hn hlater)
  · intro new res w' hcall htimeout hfails
    obtain ⟨hres, hunread⟩ := hcall.judged.timed htimeout
    have herror := hcall.judged.error.trans (hfails.fatal_iff hunread)
    constructor
    · rintro hres pid e hmem
      rw [herror.mpr ⟨pid, e, hmem⟩] at hres
      simp at hres
    · intro hnone
      obtain hpass | hfail | rfl := hres
      · exact .inl hpass
      · exact .inr hfail
      · obtain ⟨pid, e, hmem⟩ := herror.mp rfl
        exact absurd hmem (hnone pid e)

/-- The child is terminated by the first signal, and something else reaps it before `SIGKILL`. -/
def childDisappears : Nat → Turn :=
  scripted [⟨[], none, false, 0, 7⟩, ⟨[], none, false, 0, 7⟩, ⟨[], none, true, 0, 7⟩,
    ⟨[], none, false, 0, 7⟩, ⟨[], none, false, 0, 7⟩, ⟨[], none, false, 0, 7⟩,
    ⟨[], none, false, 0, 7⟩, ⟨[.died 0 (.signaled sigterm), .vanished 0], none, false, 0, 7⟩]

/-- The events of a call with a timeout of 1 msec. -/
def childDisappearsTrace : List ForkEvent :=
  [.sys .waitpid (.failed .echild), .sys (.sigkill 7) (.failed .esrch), .child (.vanished 0),
    .child (.died 0 (.signaled sigterm)), .sys .waitpid .noChange, .sys .nanosleep .done,
    .sys .waitpid .noChange, .sys (.kill 7 sigterm) .done, .sys .poll .timeout,
    .sys .fork (.forked 0 7), .sys .pipe .done]

theorem disappeared_child_onlyKillFails : OnlyKillFails childDisappearsTrace := by
  intro call e hmem
  simp only [childDisappearsTrace, List.mem_cons, ForkEvent.sys.injEq, Answer.failed.injEq,
    reduceCtorEq, and_false, List.not_mem_nil, or_false] at hmem
  obtain ⟨rfl, rfl⟩ | ⟨rfl, rfl⟩ := hmem
  · exact .inl ⟨rfl, rfl⟩
  · exact .inr ⟨⟨7, rfl⟩, rfl⟩

theorem disappeared_child_iff_at :
    (∃ enough, ∀ fuel, enough ≤ fuel →
      ∃ res w', callForked childDisappears fuel ⟨1, 0, 1⟩ World.start = .ok res w') ∧
    (TrialRes.error = .pass ∨ TrialRes.error = .fail ↔
      ∀ pid e, .sys (.sigkill pid) (.failed e) ∉ childDisappearsTrace) := by
  obtain ⟨hreturns, hresult⟩ := disappeared_child_iff childDisappears ⟨1, 0, 1⟩ World.start
  have hcall : Call childDisappears ⟨1, 0, 1⟩ World.start childDisappearsTrace .error _ :=
    .of_run 10 (by decide +kernel)
  have henv : Uninterrupted childDisappears := .of_none (scripted_fault (by decide))
  exact ⟨hreturns henv (by decide) ⟨2, by decide, by decide⟩,
    hresult _ _ _ hcall (by decide) disappeared_child_onlyKillFails⟩

theorem disappeared_child_error :
    ¬ ∀ (env : Nat → Turn) (fork : ForkInfo) (w w' : World) (new : List ForkEvent)
        (res : TrialRes), Call env fork w new res w' → .sys .poll .timeout ∈ new →
      OnlyKillFails new → res = .pass ∨ res = .fail := by
  intro h
  have hcall : Call childDisappears ⟨1, 0, 1⟩ World.start childDisappearsTrace .error _ :=
    .of_run 10 (by decide +kernel)
  obtain hpass | hfail := h _ _ _ _ _ _ hcall (by decide) disappeared_child_onlyKillFails
  · cases hpass
  · cases hfail

end

end Theft
