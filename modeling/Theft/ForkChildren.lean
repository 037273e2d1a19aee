import Theft.ForkErrors

/-!
# The children that are outstanding

When `waitpid` finds nothing, every child that has ended is reaped. The last `waitpid` of a call
does not wait, though: where the child has ended before it, no child is outstanding at the next
`fork`, and where it has not, a child that is still running is.
-/

namespace Theft

open Exec

/-- The child has ended. -/
def HasEnded (id : Nat) (events : List ForkEvent) : Prop :=
  .child (.finished id) ∈ events ∨ ∃ status, .child (.died id status) ∈ events

/-- The child has been reaped, by `theft_call` or by something else. -/
def IsReaped (id : Nat) (events : List ForkEvent) : Prop :=
  (∃ pid status, .sys .waitpid (.reaped id pid status) ∈ events) ∨ .child (.vanished id) ∈ events

def IsForked (id : Nat) (events : List ForkEvent) : Prop :=
  ∃ pid, .sys .fork (.forked id pid) ∈ events

section
variable {id : Nat} {event : ForkEvent} {events : List ForkEvent}

theorem HasEnded.mono (h : HasEnded id events) {more : List ForkEvent} (hsub : events ⊆ more) :
    HasEnded id more := by
  obtain hf | ⟨status, hd⟩ := h
  · exact .inl (hsub hf)
  · exact .inr ⟨status, hsub hd⟩

theorem IsReaped.mono (h : IsReaped id events) {more : List ForkEvent} (hsub : events ⊆ more) :
    IsReaped id more := by
  obtain ⟨pid, status, hr⟩ | hv := h
  · exact .inl ⟨pid, status, hsub hr⟩
  · exact .inr (hsub hv)

@[simp] theorem hasEnded_cons : HasEnded id (event :: events) ↔
    (event = .child (.finished id) ∨ ∃ status, event = .child (.died id status)) ∨
      HasEnded id events := by
  simp only [HasEnded, List.mem_cons, exists_or, eq_comm]
  exact or_or_or_comm

@[simp] theorem isForked_cons : IsForked id (event :: events) ↔
    (∃ pid, event = .sys .fork (.forked id pid)) ∨ IsForked id events := by
  simp only [IsForked, List.mem_cons, exists_or, eq_comm]

end

namespace World
variable {w : World}

theorem mem_writeByte {id : Nat} {res : TrialRes} {c : Child} :
    c ∈ (w.writeByte id res).children ↔
      ∃ c' ∈ w.children, c = if c'.id = id then { c' with sent := some res } else c' := by
  have hset : (w.writeByte id res).children =
      (w.setChild id fun c => { c with sent := some res }).children := by
    unfold writeByte
    dsimp only
    split <;> rfl
  rw [hset, setChild, List.mem_map]
  simp only [eq_comm]

theorem mem_endChild {id : Nat} {status : ExitStatus} {c : Child} :
    c ∈ (w.endChild id status).children ↔
      ∃ c' ∈ w.children, c = if c'.id = id then { c' with status := some status } else c' := by
  have hset : (w.endChild id status).children =
      (w.setChild id fun c => { c with status := some status }).children := by
    unfold endChild
    dsimp only
    split <;> rfl
  rw [hset, setChild, List.mem_map]
  simp only [eq_comm]

theorem mem_reap {id : Nat} {c : Child} :
    c ∈ (w.reap id).children ↔ c ∈ w.children ∧ c.id ≠ id := by
  simp [reap, List.mem_filter]

/-- No step of a child makes another one. -/
theorem childEvent_from (w : World) (event : ChildEvent) :
    ∀ c ∈ (w.childEvent event).children, ∃ c' ∈ w.children, c.id = c'.id := by
  obtain h | ⟨id, res, c, -, -, -, -, -, h⟩ | ⟨id, status, c, -, -, -, -, h⟩ |
    ⟨id, c, -, -, -, -, h⟩ := w.childEvent_cases event
  · rw [h]
    exact fun c hc => ⟨c, hc, rfl⟩
  · rw [h]
    intro c hc
    obtain ⟨c', hc', rfl⟩ := mem_writeByte.mp hc
    exact ⟨c', hc', by split <;> rfl⟩
  · rw [h]
    intro c hc
    obtain ⟨c', hc', rfl⟩ := mem_endChild.mp hc
    exact ⟨c', hc', by split <;> rfl⟩
  · rw [h]
    exact fun c hc => ⟨c, (mem_reap.mp hc).1, rfl⟩

@[simp] theorem writeByte_nextId (id : Nat) (res : TrialRes) :
    (w.writeByte id res).nextId = w.nextId := by
  unfold writeByte
  dsimp only
  split <;> rfl

@[simp] theorem endChild_nextId (id : Nat) (status : ExitStatus) :
    (w.endChild id status).nextId = w.nextId := by
  unfold endChild
  dsimp only
  split <;> rfl

end World

/-- `waitpid` finds nothing. -/
def IsIdle (answer : Answer) : Prop := answer = .noChange ∨ answer = .failed .echild

/-- What the trace and the children that are not reaped have to do with each other. -/
structure Tracked (w : World) : Prop where
  known : ∀ c ∈ w.children, c.id < w.nextId
  marked : ∀ c ∈ w.children, HasEnded c.id w.trace → c.status ≠ none
  early : ∀ id, HasEnded id w.trace → id < w.nextId
  kept : ∀ id < w.nextId, (∃ c ∈ w.children, c.id = id) ∨ IsReaped id w.trace
  swept : ∀ answer earlier, .sys .waitpid answer :: earlier <:+ w.trace → IsIdle answer →
    ∀ id, HasEnded id earlier → IsReaped id earlier

namespace Tracked
variable {w w' : World}

theorem start : Tracked World.start := by
  constructor <;> simp [World.start, HasEnded]

/-- A step that makes no child, from `w` to `w'`, and its event. -/
theorem step (h : Tracked w) {event : ForkEvent} (htrace : w'.trace = w.trace)
    (hnext : w'.nextId = w.nextId)
    (hfrom : ∀ c ∈ w'.children, ∃ c' ∈ w.children, c.id = c'.id ∧ (c'.status ≠ none → c.status ≠ none))
    (hkept : ∀ c ∈ w.children,
      (∃ c' ∈ w'.children, c'.id = c.id) ∨ IsReaped c.id (event :: w.trace))
    (hended : ∀ id, (event = .child (.finished id) ∨ ∃ status, event = .child (.died id status)) →
      id < w.nextId ∧ ∀ c ∈ w'.children, c.id = id → c.status ≠ none)
    (hidle : ∀ answer, event = .sys .waitpid answer → IsIdle answer →
      ∀ c ∈ w.children, c.status = none) : Tracked (w'.log event) := by
  have hlog : (w'.log event).trace = event :: w.trace := by rw [World.log_trace, htrace]
  constructor
  · intro c hc
    obtain ⟨c', hc', hid, -⟩ := hfrom c hc
    rw [hid]
    exact hnext ▸ h.known c' hc'
  · intro c hc he
    rw [hlog, hasEnded_cons] at he
    obtain he | he := he
    · exact (hended c.id he).2 c hc rfl
    · obtain ⟨c', hc', hid, hstatus⟩ := hfrom c hc
      exact hstatus (h.marked c' hc' (hid ▸ he))
  · intro id he
    rw [hlog, hasEnded_cons] at he
    apply hnext.symm ▸ (show id < w.nextId from ?_)
    obtain he | he := he
    · exact (hended id he).1
    · exact h.early id he
  · intro id hid
    rw [hlog]
    obtain ⟨c, hc, rfl⟩ | hr := h.kept id (hnext ▸ hid)
    · exact hkept c hc
    · exact .inr (hr.mono (List.subset_cons_self _ _))
  · intro answer earlier hsuffix hi id he
    rw [hlog, List.suffix_cons_iff] at hsuffix
    obtain hnow | hsuffix := hsuffix
    · obtain ⟨rfl, rfl⟩ := List.cons_eq_cons.mp hnow
      obtain ⟨c, hc, rfl⟩ | hr := h.kept id (h.early id he)
      · exact absurd (hidle answer rfl hi c hc) (h.marked c hc he)
      · exact hr
    · exact h.swept answer earlier hsuffix hi id he

/-- A system call that changes nothing. -/
theorem sys (h : Tracked w) (call : Syscall) (answer : Answer)
    (hidle : call = .waitpid → IsIdle answer → ∀ c ∈ w.children, c.status = none) :
    Tracked (w.log (.sys call answer)) := by
  apply h.step rfl rfl
  · exact fun c hc => ⟨c, hc, rfl, id⟩
  · exact fun c hc => .inl ⟨c, hc, rfl⟩
  · rintro id (he | ⟨status, he⟩) <;> cases he
  · rintro answer' heq hi
    cases heq
    exact hidle rfl hi

/-- A child leaves the table. -/
theorem reap (h : Tracked w) {id : Nat} {event : ForkEvent}
    (hreaped : IsReaped id (event :: w.trace))
    (hended : ∀ id, ¬ (event = .child (.finished id) ∨ ∃ status, event = .child (.died id status)))
    (hidle : ∀ answer, event = .sys .waitpid answer → ¬ IsIdle answer) :
    Tracked ((w.reap id).log event) := by
  apply h.step (w.reap_trace id) rfl
  · exact fun c hc => ⟨c, (World.mem_reap.mp hc).1, rfl, fun hs => hs⟩
  · intro c hc
    by_cases hid : c.id = id
    · exact .inr (hid ▸ hreaped)
    · exact .inl ⟨c, World.mem_reap.mpr ⟨hc, hid⟩, rfl⟩
  · exact fun id he => absurd he (hended id)
  · exact fun answer heq hi => absurd hi (hidle answer heq)

theorem childEvent (h : Tracked w) (event : ChildEvent) : Tracked (w.childEvent event) := by
  obtain heq | ⟨id, res, c, rfl, -, -, -, -, heq⟩ | ⟨id, status, c, hevent, hc, hid, -, heq⟩ |
    ⟨id, c, rfl, -, -, -, heq⟩ := w.childEvent_cases event
  · rwa [heq]
  · rw [heq]
    apply h.step (by simp) (by simp)
    · intro c hc
      obtain ⟨c', hc', rfl⟩ := World.mem_writeByte.mp hc
      exact ⟨c', hc', by split <;> rfl, by split <;> exact fun hs => hs⟩
    · intro c hc
      exact .inl ⟨_, World.mem_writeByte.mpr ⟨c, hc, rfl⟩, by split <;> rfl⟩
    · rintro id (he | ⟨status, he⟩) <;> cases he
    · exact fun _ => nofun
  · rw [heq]
    apply h.step (by simp) (by simp)
    · intro c hc
      obtain ⟨c', hc', rfl⟩ := World.mem_endChild.mp hc
      refine ⟨c', hc', by split <;> rfl, ?_⟩
      split
      · exact fun _ => nofun
      · exact fun hs => hs
    · intro c hc
      exact .inl ⟨_, World.mem_endChild.mpr ⟨c, hc, rfl⟩, by split <;> rfl⟩
    · intro id' he
      have hsame : id' = id := by
        obtain ⟨rfl, -⟩ | rfl := hevent <;> obtain he | ⟨_, he⟩ := he <;> cases he <;> rfl
      subst hsame
      refine ⟨hid ▸ h.known c hc, ?_⟩
      intro c' hc' hid'
      obtain ⟨c'', -, rfl⟩ := World.mem_endChild.mp hc'
      by_cases hsame : c''.id = id'
      · rw [if_pos hsame]
        nofun
      · rw [if_neg hsame] at hid'
        exact absurd hid' hsame
    · exact fun _ => nofun
  · rw [heq]
    exact h.reap (.inr List.mem_cons_self) (by simp) (by simp)

theorem spawn (h : Tracked w) (pid : Nat) :
    Tracked ((w.spawn pid).log (.sys .fork (.forked w.nextId pid))) := by
  have hlog : ((w.spawn pid).log (.sys .fork (.forked w.nextId pid))).trace =
    .sys .fork (.forked w.nextId pid) :: w.trace := rfl
  constructor
  · intro c hc
    obtain rfl | hc := List.mem_cons.mp hc
    · exact Nat.lt_succ_self _
    · exact Nat.lt_succ_of_lt (h.known c hc)
  · intro c hc he
    rw [hlog, hasEnded_cons] at he
    have he : HasEnded c.id w.trace := by simpa using he
    obtain rfl | hc := List.mem_cons.mp hc
    · exact absurd (h.early _ he) (Nat.lt_irrefl _)
    · exact h.marked c hc he
  · intro id he
    rw [hlog, hasEnded_cons] at he
    exact Nat.lt_succ_of_lt (h.early id (by simpa using he))
  · intro id hid
    by_cases hnew : id = w.nextId
    · exact .inl ⟨_, List.mem_cons_self, hnew.symm⟩
    · obtain ⟨c, hc, rfl⟩ | hr := h.kept id (Nat.lt_of_le_of_ne (Nat.le_of_lt_succ hid) hnew)
      · exact .inl ⟨c, List.mem_cons_of_mem _ hc, rfl⟩
      · exact .inr (hr.mono (List.subset_cons_self _ _))
  · intro answer earlier hsuffix hi id he
    rw [hlog, List.suffix_cons_iff] at hsuffix
    obtain hnow | hsuffix := hsuffix
    · cases hnow
    · exact h.swept answer earlier hsuffix hi id he

theorem upheld : Upheld Tracked where
  asked _ _ h := ⟨h.known, h.marked, h.early, h.kept, h.swept⟩
  child _ event h := h.childEvent event
  sys _ call answer h hcall _ := h.sys call answer fun hw => absurd hw hcall
  waitFailed _ e h he := h.sys .waitpid (.failed e) (by simp [IsIdle, he])
  idle _ answer h hnone _ := h.sys .waitpid answer fun _ _ => hnone
  reap _ c status h _ _ :=
    h.reap (.inl ⟨_, _, List.mem_cons_self⟩) (by simp) (by simp [IsIdle])
  pipe _ h := ⟨h.known, h.marked, h.early, h.kept, h.swept⟩
  worker _ _ h := ⟨h.known, h.marked, h.early, h.kept, h.swept⟩

end Tracked

/-! ## Calls in a row -/

/-- At every `fork` that made a child, the children of earlier ones had ended and were reaped. -/
def AtMostOne (events : List ForkEvent) : Prop :=
  ∀ id pid earlier, .sys .fork (.forked id pid) :: earlier <:+ events →
    ∀ id', IsForked id' earlier → HasEnded id' earlier ∧ IsReaped id' earlier

/-- Every child that the call made had ended before its last `waitpid`, and this did not fail. -/
def EndsInTime (new : List ForkEvent) : Prop :=
  ∀ id, IsForked id new → ∃ later answer earlier, new = later ++ .sys .waitpid answer :: earlier ∧
    (∀ answer, .sys .waitpid answer ∉ later) ∧ (∀ e, answer = .failed e → e = .echild) ∧
    HasEnded id earlier

/-- No child is made after another one. -/
def Single (new : List ForkEvent) : Prop :=
  ∀ id pid earlier, .sys .fork (.forked id pid) :: earlier <:+ new → ∀ id', ¬ IsForked id' earlier

/-- A call that made a child ends with a `waitpid` that reports no child. -/
def EndsWaiting (new : List ForkEvent) : Prop :=
  ∃ answer earlier, new = .sys .waitpid answer :: earlier ∧
    (IsIdle answer ∨ ∃ e, e ≠ .echild ∧ answer = .failed e)

section
variable {env : Nat → Turn} {w₀ w w' : World} {fork : ForkInfo} {new old : List ForkEvent}
  {res : TrialRes}

theorem childless_upheld : Upheld (Logged w₀ fun new => ∀ id, ¬ IsForked id new) := by
  apply Logged.upheld
  intro event new hfork hnew id
  rw [isForked_cons]
  rintro (⟨pid, rfl⟩ | hf)
  · exact hfork id pid rfl
  · exact hnew id hf

theorem Single.of_none (h : ∀ id, ¬ IsForked id new) : Single new := by
  intro id pid earlier hsuffix
  exact absurd ⟨pid, hsuffix.subset List.mem_cons_self⟩ (h id)

theorem single_upheld : Upheld (Logged w₀ Single) := by
  apply Logged.upheld
  intro event new hfork hnew id pid earlier hsuffix
  obtain hnow | hsuffix := List.suffix_cons_iff.mp hsuffix
  · cases hnow
    exact absurd rfl (hfork id pid)
  · exact hnew id pid earlier hsuffix

/-- A call makes at most one child. -/
theorem callForked_single (env : Nat → Turn) (fork : ForkInfo) (fuel : Nat) (w : World) :
    Logged w Single (final (callForked env fuel fork) w) := by
  have hspawn : ∀ w' pid, Logged w (fun new => ∀ id, ¬ IsForked id new) w' →
      (∀ c ∈ w'.children, c.pid ≠ pid) →
      Logged w Single ((w'.spawn pid).log (.sys .fork (.forked w'.nextId pid))) := by
    intro w' pid hw _
    apply Logged.log (hw.of_trace (w'.spawn_trace pid))
    intro new hnew id pid' earlier hsuffix
    obtain hnow | hsuffix := List.suffix_cons_iff.mp hsuffix
    · cases hnow
      exact hnew
    · exact Single.of_none hnew id pid' earlier hsuffix
  have hsingle : ∀ w', Logged w (fun new => ∀ id, ¬ IsForked id new) w' ∨ Logged w Single w' →
      Logged w Single w' := by
    rintro w' (hnone | hsingle)
    · exact hnone.mono fun _ => Single.of_none
    · exact hsingle
  have hstart : Logged w (fun new => ∀ id, ¬ IsForked id new) w :=
    .start (by simp [IsForked])
  exact (Upheld.callForked childless_upheld single_upheld hspawn fuel fork).final
    (fun _ => hsingle) (fun _ w' h => hsingle w' h.2) hstart

theorem callForked_tracked (env : Nat → Turn) (fork : ForkInfo) (fuel : Nat) (h : Tracked w) :
    Tracked (final (callForked env fuel fork) w) :=
  (Upheld.callForked Tracked.upheld Tracked.upheld (fun _ pid h _ => h.spawn pid) fuel fork).final
    (fun _ _ h => h.elim id id) (fun _ _ h => h.2.elim id id) h

theorem callParent_waiting (fuel : Nat) (fork : ForkInfo) (pid : Nat) :
    Spec (Logged w₀ fun _ => True) (callParent env fuel fork pid)
      (fun _ => Logged w₀ EndsWaiting) (StopsIn fun _ => True) := by
  have anything : Upheld (Logged w₀ fun _ => True) := Logged.upheld fun _ _ _ _ => trivial
  apply Spec.bind (Q := fun _ => Logged w₀ fun _ => True)
  · exact Spec.modify fun w hw => anything.worker w _ hw
  · intro _
    apply Spec.bind ((anything.parentHandleChildCall fuel fork pid).mono (fun _ hw => hw)
      (fun _ _ hw => hw) fun _ _ hw => ⟨hw.1, trivial⟩)
    intro res
    apply Spec.bind (Q := fun _ => Logged w₀ fun _ => True)
    · exact Spec.modify fun w hw => anything.worker w _ hw
    · intro _
      have hstep : Spec (Logged w₀ fun _ => True) (stepWaitpid env fuel)
          (fun ok w => ok = true ∧ Logged w₀ EndsWaiting w) (StopsIn fun _ => True) := by
        apply stepWaitpid_spec env anything.toPlacid fun _ _ => ⟨rfl, trivial⟩
        · exact fun w e hw he => hw.log fun new _ => ⟨_, new, rfl, .inr ⟨e, he, rfl⟩⟩
        · exact fun w answer hw _ hidle => hw.log fun new _ => ⟨_, new, rfl, .inl hidle⟩
        · exact fun w c status hw hc hstatus =>
            anything.saveStatus (anything.reap w c status hw hc hstatus) _ _
      apply hstep.bind
      intro ok
      split <;> exact Spec.pure fun _ hw => hw.2

theorem Call.waiting (h : Call env fork w new res w') :
    (∀ id, ¬ IsForked id new) ∨ EndsWaiting new := by
  obtain ⟨fuel, hrun⟩ := h.returned
  have hspec : Spec (Logged w fun new => ∀ id, ¬ IsForked id new) (callForked env fuel fork)
      (fun _ => Logged w fun new => (∀ id, ¬ IsForked id new) ∨ EndsWaiting new)
      (StopsIn fun _ => True) := by
    have anything : Upheld (Logged w fun _ => True) := Logged.upheld fun _ _ _ _ => trivial
    have hspawn : ∀ w' pid, Logged w (fun new => ∀ id, ¬ IsForked id new) w' →
        (∀ c ∈ w'.children, c.pid ≠ pid) →
        Logged w (fun _ => True) ((w'.spawn pid).log (.sys .fork (.forked w'.nextId pid))) :=
      fun w' pid hw _ => (hw.of_trace (w'.spawn_trace pid)).log fun _ _ => trivial
    have given : Spec (Logged w fun new => ∀ id, ¬ IsForked id new) (pure .error : Parent TrialRes)
        (fun _ => Logged w fun new => (∀ id, ¬ IsForked id new) ∨ EndsWaiting new)
        (StopsIn fun _ => True) := Spec.pure fun _ hw => hw.mono fun _ => .inl
    have hpipe : Spec (Logged w fun new => ∀ id, ¬ IsForked id new) (pipe env)
        (fun _ => Logged w fun new => ∀ id, ¬ IsForked id new) (StopsIn fun _ => True) := by
      apply pipe_spec env childless_upheld.toPlacid
      · exact fun w e hw => childless_upheld.pipe _ (childless_upheld.sys _ _ _ hw nofun nofun)
      · exact fun w hw => childless_upheld.pipe _ (childless_upheld.sys _ _ _ hw nofun nofun)
    apply hpipe.bind
    intro answer
    split
    · exact given
    · apply ((Upheld.forkRetry childless_upheld hspawn fuel fuel 1).mono (fun _ hw => hw)
        (fun _ _ hw => hw) fun _ _ hw => ⟨hw.1, trivial⟩).bind
      intro pid
      cases pid with
      | none => exact given
      | some pid =>
        exact (callParent_waiting fuel fork pid).mono (fun _ hw => hw)
          (fun _ _ hw => hw.mono fun _ => .inr) fun _ _ hw => hw
  have hstart : Logged w (fun new => ∀ id, ¬ IsForked id new) w := .start (by simp [IsForked])
  obtain ⟨new', hnew, hw⟩ := hspec.returned hstart hrun
  rw [h.trace, List.append_cancel_right_eq] at hnew
  rwa [hnew]

/-- All the children have ended and were reaped. -/
def AllReaped (events : List ForkEvent) : Prop :=
  ∀ id, IsForked id events → HasEnded id events ∧ IsReaped id events

theorem suffix_append_cases {event : ForkEvent} {earlier : List ForkEvent}
    (h : event :: earlier <:+ new ++ old) :
    event :: earlier <:+ old ∨ ∃ mid, event :: mid <:+ new ∧ earlier = mid ++ old := by
  induction new with
  | nil => exact .inl h
  | cons first rest ih =>
    obtain hnow | hlater := List.suffix_cons_iff.mp h
    · obtain ⟨rfl, rfl⟩ := List.cons_eq_cons.mp hnow
      exact .inr ⟨rest, List.suffix_refl _, rfl⟩
    · obtain hold | ⟨mid, hmid, hearlier⟩ := ih hlater
      · exact .inl hold
      · exact .inr ⟨mid, hmid.trans (List.suffix_cons _ _), hearlier⟩

theorem IsForked.append_iff {id : Nat} :
    IsForked id (new ++ old) ↔ IsForked id new ∨ IsForked id old := by
  simp only [IsForked, List.mem_append, exists_or]

/-- A call that begins when no child is outstanding. -/
theorem AtMostOne.append (hold : AtMostOne old) (hreaped : AllReaped old) (hnew : Single new) :
    AtMostOne (new ++ old) := by
  intro id pid earlier hsuffix id' hf
  obtain hsuffix | ⟨mid, hmid, rfl⟩ := suffix_append_cases hsuffix
  · exact hold id pid earlier hsuffix id' hf
  · obtain hf | hf := IsForked.append_iff.mp hf
    · exact absurd hf (hnew id pid mid hmid id')
    · obtain ⟨he, hr⟩ := hreaped id' hf
      exact ⟨he.mono (List.subset_append_right _ _), hr.mono (List.subset_append_right _ _)⟩

/-- A call that ends in time leaves no child. -/
theorem AllReaped.call (hold : AllReaped w.trace) (hcall : Call env fork w new res w')
    (htracked : Tracked w') (hends : EndsInTime new) : AllReaped w'.trace := by
  intro id hf
  rw [hcall.trace, IsForked.append_iff] at hf
  rw [hcall.trace]
  obtain hf | hf := hf
  · obtain hnone | ⟨answer, earlier, hnew, hanswer⟩ := hcall.waiting
    · exact absurd hf (hnone id)
    · obtain ⟨later, answer', earlier', hnew', hlater, hfailed, he⟩ := hends id hf
      -- the last `waitpid` is the last event
      obtain ⟨rfl, rfl, rfl⟩ : later = [] ∧ answer' = answer ∧ earlier' = earlier := by
        rw [hnew] at hnew'
        cases later with
        | nil =>
          cases hnew'
          exact ⟨rfl, rfl, rfl⟩
        | cons event rest =>
          cases hnew'
          exact absurd List.mem_cons_self (hlater answer)
      have hidle : IsIdle answer' := by
        obtain hidle | ⟨e, he, rfl⟩ := hanswer
        · exact hidle
        · exact absurd (hfailed e rfl) he
      have hsuffix : .sys .waitpid answer' :: (earlier' ++ w.trace) <:+ w'.trace := by
        rw [hcall.trace, hnew]
        exact List.suffix_refl _
      have hmore : HasEnded id (earlier' ++ w.trace) := he.mono (List.subset_append_left _ _)
      have hr := htracked.swept answer' _ hsuffix hidle id hmore
      rw [hnew]
      exact ⟨hmore.mono (List.subset_cons_self _ _), hr.mono (List.subset_cons_self _ _)⟩
  · obtain ⟨he, hr⟩ := hold id hf
    exact ⟨he.mono (List.subset_append_right _ _), hr.mono (List.subset_append_right _ _)⟩

theorem Call.tracked (h : Call env fork w new res w') (hw : Tracked w) : Tracked w' := by
  obtain ⟨fuel, hrun⟩ := h.returned
  have := callForked_tracked env fork fuel hw
  rwa [final, hrun] at this

theorem Call.single (h : Call env fork w new res w') : Single new := by
  obtain ⟨fuel, hrun⟩ := h.returned
  obtain ⟨new', hnew, hs⟩ := callForked_single env fork fuel w
  rw [final, hrun] at hnew
  dsimp only at hnew
  rw [h.trace, List.append_cancel_right_eq] at hnew
  rwa [hnew]

theorem Calls.tracked {news : List (List ForkEvent)} (h : Calls env w₀ news w) (hw : Tracked w₀) :
    Tracked w := by
  induction h with
  | none => exact hw
  | next _ hcall ih => exact hcall.tracked ih

theorem calls_reaped {news : List (List ForkEvent)} (h : Calls env World.start news w)
    (hends : ∀ new ∈ news, EndsInTime new) :
    Tracked w ∧ AtMostOne w.trace ∧ AllReaped w.trace := by
  induction h with
  | none =>
    refine ⟨.start, ?_, ?_⟩
    · intro id pid earlier hsuffix
      cases List.suffix_nil.mp hsuffix
    · rintro id ⟨pid, hf⟩
      cases hf
  | next hcalls hcall ih =>
    obtain ⟨htracked, hone, hreaped⟩ := ih (fun new hnew => hends new (List.mem_cons_of_mem _ hnew))
    have htracked' := hcall.tracked htracked
    refine ⟨htracked', ?_, hreaped.call hcall htracked' (hends _ List.mem_cons_self)⟩
    rw [hcall.trace]
    exact hone.append hreaped hcall.single

/-- Where every child ends in time, every child of an earlier call has ended and was reaped when a
call makes one, also in a call that has not come to its end. -/
theorem one_child_outstanding {news : List (List ForkEvent)} (h : Calls env World.start news w)
    (hends : ∀ new ∈ news, EndsInTime new) (fork : ForkInfo) (fuel : Nat) :
    AtMostOne (final (callForked env fuel fork) w).trace := by
  obtain ⟨-, hone, hreaped⟩ := calls_reaped h hends
  obtain ⟨new, hnew, hsingle⟩ := callForked_single env fork fuel w
  rw [hnew]
  exact hone.append hreaped hsingle

/-- A child that writes its result, and exits before or after the end of the call. -/
def childReturns (exit : Nat) (n : Nat) : Turn :=
  ⟨(if n = 2 then [.returned 0 .pass] else []) ++ if n = exit then [.finished 0] else [],
    none, false, 0, 7⟩

/-- The events where it exits before. -/
def childReturnsTrace : List ForkEvent :=
  [.sys .waitpid (.failed .echild), .sys .waitpid (.reaped 0 7 (.exited exitSuccess)),
    .sys .read (.byte .pass), .child (.finished 0), .sys .poll .ready,
    .child (.returned 0 .pass), .sys .fork (.forked 0 7), .sys .pipe .done]

theorem one_child_outstanding_at : ∃ w, w.trace = childReturnsTrace ∧
    AtMostOne (final (callForked (childReturns 3) 10 ⟨0, 0, 0⟩) w).trace := by
  have hcall : Call (childReturns 3) ⟨0, 0, 0⟩ World.start childReturnsTrace .pass _ :=
    .of_run 10 (by decide +kernel)
  have hends : ∀ new ∈ [childReturnsTrace], EndsInTime new := by
    intro new hnew id hf
    obtain rfl := List.mem_singleton.mp hnew
    have hid : id = 0 := by
      obtain ⟨pid, hf⟩ := hf
      simp [childReturnsTrace] at hf
      exact hf.1
    subst hid
    exact ⟨[], _, _, rfl, by simp, by simp, .inl (by decide)⟩
  exact ⟨_, hcall.trace, one_child_outstanding (.next (.none _) hcall) hends ⟨0, 0, 0⟩ 10⟩

/-- The events of the first call where it exits after. -/
def childLingersTrace : List ForkEvent :=
  [.sys .waitpid .noChange, .sys .read (.byte .pass), .sys .poll .ready,
    .child (.returned 0 .pass), .sys .fork (.forked 0 7), .sys .pipe .done]

theorem two_children_outstanding :
    ¬ ∀ (env : Nat → Turn) (news : List (List ForkEvent)) (w : World),
      Calls env World.start news w → ∀ fork fuel,
        AtMostOne (final (callForked env fuel fork) w).trace := by
  intro h
  have hcall : Call (childReturns 9) ⟨0, 0, 0⟩ World.start childLingersTrace .pass _ :=
    .of_run 10 (by decide +kernel)
  have hsecond : .sys .fork (.forked 1 8) :: .sys .pipe .done :: childLingersTrace <:+
      (final (callForked (childReturns 9) 3 ⟨0, 0, 0⟩)
        (final (callForked (childReturns 9) 10 ⟨0, 0, 0⟩) World.start)).trace := by
    decide +kernel
  have hforked : IsForked 0 (.sys .pipe .done :: childLingersTrace) := ⟨7, by decide⟩
  have hone := h _ _ _ (.next (.none _) hcall) ⟨0, 0, 0⟩ 3
  obtain ⟨-, hreaped⟩ := hone _ _ _ hsecond 0 hforked
  simp [IsReaped, childLingersTrace] at hreaped

end

end Theft
