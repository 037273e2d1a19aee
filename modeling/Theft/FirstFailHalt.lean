import Theft.RunProtocol

/-!
# Halting after the first failure

`theft_hook_first_fail_halt`, installed before the trials.
-/

namespace Theft

open PackedBits Exec Dialogue

section
variable {R I σ : Type} {n : Nat} {r : Runner I σ n}

/-- `theft_hook_first_fail_halt` -/
def hookFirstFailHalt (info : TrialPreInfo I n) : HookTrialPreRes :=
  if 0 < info.failures then .halt else .cont

/-- A call of the hook for counter-examples -/
def Event.isCounterexample : Event I n → Bool
  | .counterexample _ => true
  | _ => false

/-- A call of `print` with an argument -/
def Event.isPrint (argI : Fin n) : Event I n → Bool
  | .print i _ => i = argI
  | _ => false

/-- A part of a report: the hook is called, or else each argument is printed. -/
def Event.isReport : Option (Fin n) → Event I n → Bool
  | none => Event.isCounterexample
  | some argI => Event.isPrint argI

namespace Stage

/-- The stages of a trial that is not counted as a failure, but may be -/
def mayFail : Stage I n → Bool
  | running | calling | judged _ | shrinking _ _ | attempting _ _ _ | asking _ | answered _ _ _
  | offered _ _ _ | accepted _ _ | checking _ _ | checked _ _ | trying _ _ _ | tried _ _ _ _
  | counted _ _ _ _ | shrunk _ => true
  | freeing _ _ next | reverting _ next | hashing _ next => next.mayFail
  | _ => false

/-- The reports that this is still to be a part of -/
def unreported (part : Option (Fin n)) : Stage I n → Nat
  | reporting _ => 1
  | printing k _ => if part.any (k ≤ ·) then 1 else 0
  | freeing _ _ next | reverting _ next | hashing _ next => next.unreported part
  | _ => 0

end Stage

/-- A trial only comes to its property when none has failed. -/
structure HaltsFirst (events : List (Event I n)) (p : Phase I n) : Prop where
  clean : p.1.mayFail = true → p.2.counters.fail = 0
  failed : p.2.counters.fail ≤ 1
  reported : ∀ part,
    events.countP (Event.isReport part) + p.1.unreported part ≤ p.2.counters.fail

theorem HaltsFirst.other {events : List (Event I n)} {p : Phase I n} {event : Event I n}
    (hkind : event.kind ≠ .counterexample ∧ event.kind ≠ .print) (h : HaltsFirst events p) :
    HaltsFirst (event :: events) p := by
  have hcount : ∀ part, (event :: events).countP (Event.isReport part) =
      events.countP (Event.isReport part) := by
    intro part
    apply List.countP_cons_of_neg
    cases event with
    | counterexample => exact absurd rfl hkind.1
    | print => exact absurd rfl hkind.2
    | _ => cases part <;> exact Bool.false_ne_true
  exact ⟨h.clean, h.failed, fun part => hcount part ▸ h.reported part⟩

theorem HaltsFirst.others {events : List (Event I n)} {p : Phase I n}
    {question answer : Event I n}
    (hquestion : question.kind ≠ .counterexample ∧ question.kind ≠ .print)
    (hanswer : answer.kind ≠ .counterexample ∧ answer.kind ≠ .print) (h : HaltsFirst events p) :
    HaltsFirst (answer :: question :: events) p := (h.other hquestion).other hanswer

/-- A step that counts no failure -/
theorem HaltsFirst.onward {events : List (Event I n)} {p q : Phase I n} (h : HaltsFirst events p)
    (hfail : q.2.counters.fail = p.2.counters.fail)
    (hclean : q.1.mayFail = true → p.1.mayFail = true)
    (hreported : ∀ part, q.1.unreported part ≤ p.1.unreported part) : HaltsFirst events q where
  clean hmay := hfail.trans (h.clean (hclean hmay))
  failed := hfail ▸ h.failed
  reported part := hfail ▸ Nat.le_trans (Nat.add_le_add_left (hreported part) _) (h.reported part)

/-- An argument is printed as a part of the report. -/
theorem countP_print (events : List (Event I n)) (info : TrialPostInfo I n) (argI : Fin n)
    (inst : Option I) (part : Option (Fin n)) :
    (.print argI inst :: events : List (Event I n)).countP (Event.isReport part) +
      Stage.unreported part (.printing (argI + 1) info) =
        events.countP (Event.isReport part) + Stage.unreported part (.printing argI info) := by
  cases part with
  | none => rfl
  | some i =>
    by_cases hi : argI = i
    · subst hi
      simp [Event.isReport, Event.isPrint, Stage.unreported]
    · have hne : argI.val ≠ i.val := Fin.val_ne_of_ne hi
      have hlater : decide (argI.val + 1 ≤ i.val) = decide (argI.val ≤ i.val) :=
        decide_eq_decide.mpr (by omega)
      have hother : (Event.print argI inst : Event I n).isReport (some i) = false := by
        simp [Event.isReport, Event.isPrint, hi]
      rw [List.countP_cons_of_neg (by simp [hother])]
      change _ + (if decide (argI.val + 1 ≤ i.val) then 1 else 0) =
        _ + if decide (argI.val ≤ i.val) then 1 else 0
      rw [hlater]

theorem HaltsFirst.silent {events : List (Event I n)} {p q : Phase I n}
    (hhook : r.hooks.trialPre.isSome = true) (h : HaltsFirst events p)
    (hstep : SilentStep r p q) : HaltsFirst events q := by
  cases hstep with
  | noRunPre | trial | lastTrial | noEnvironment | noGenArgsPre | nextArg | noMemory | allGenerated
  | hashGenerated | original | duplicate | genSkip | genDup | genError | passed | skipped | erred
  | lost | release | noRelease | allReleased | nextTrial | halt | stop | noRunPost =>
    exact h.onward rfl nofun (fun _ => Nat.zero_le _)
  | noTrialPre hnone => simp [hnone] at hhook
  | unmarked | mark | failed | attempt | unshrinkable | anotherRound | minimal | noShrinkPre
  | lastTactic | noCandidate | countAttempt | exchange | unchecked | check | called | markCandidate
  | revert | noFree | noHash | allHashed =>
    exact h.onward rfl (fun hmay => hmay) (fun _ => Nat.le_refl _)
  | @noShrinkPost v a res =>
    cases res <;> exact h.onward rfl (fun _ => rfl) (fun _ => Nat.le_refl _)
  | @count v a candidate repeated res =>
    have hsame : (v.countShrink repeated res).counters = v.counters := by
      cases repeated with
      | true => rfl
      | false => cases res <;> rfl
    exact h.onward (congrArg RunReport.fail hsame) (fun _ => rfl) (fun _ => Nat.le_refl _)
  | @noShrinkTrialPost v a candidate repeated res =>
    cases res <;> exact h.onward rfl (fun _ => rfl) (fun _ => Nat.le_refl _)
  | report =>
    have hfail := h.clean rfl
    have hreported := h.reported
    refine ⟨nofun, ?_, fun part => Nat.succ_le_succ (hreported part)⟩
    exact Nat.succ_le_succ (Nat.le_of_eq hfail)
  | noCounterexample =>
    refine h.onward rfl nofun fun part => ?_
    dsimp only [Stage.unreported]
    split <;> omega
  | @noPrint v info argI =>
    refine h.onward rfl nofun fun part => ?_
    have hprinted := countP_print ([] : List (Event I n)) info argI none part
    rw [List.countP_nil, Nat.zero_add] at hprinted
    exact Nat.le_trans (Nat.le_add_left _ _) (Nat.le_of_eq hprinted)
  | allPrinted => exact h.onward rfl nofun (fun _ => Nat.zero_le _)
  | @noTrialPost v info use =>
    cases use with
    | trial | nothing => exact h.onward rfl nofun (fun _ => Nat.zero_le _)
    | failure repeated => cases repeated <;> exact h.onward rfl nofun (fun _ => Nat.zero_le _)

theorem HaltsFirst.notice {events : List (Event I n)} {p q : Phase I n} {event : Event I n}
    (h : HaltsFirst events p) (hstep : NoticeStep r p event q) :
    HaltsFirst (event :: events) q := by
  cases hstep with
  | hash | free =>
    exact HaltsFirst.other ⟨nofun, nofun⟩
      (h.onward rfl (fun hmay => hmay) (fun _ => Nat.le_refl _))
  | release =>
    exact HaltsFirst.other ⟨nofun, nofun⟩ (h.onward rfl nofun (fun _ => Nat.le_refl _))
  | @print v info argI =>
    refine ⟨nofun, h.failed, fun part => ?_⟩
    rw [countP_print]
    exact h.reported part

theorem HaltsFirst.exchange {events : List (Event I n)} {p q : Phase I n}
    {question answer : Event I n}
    (hhook : r.hooks.trialPre = some fun info u => (hookFirstFailHalt info, u))
    (h : HaltsFirst events p) (hstep : ExchangeStep r p question answer q) :
    HaltsFirst (answer :: question :: events) q := by
  cases hstep with
  | @runPre v hook u res | @genArgsPre v hook u res | @alloc v res | @runPost v hook u res =>
    refine others ⟨nofun, nofun⟩ ⟨nofun, nofun⟩ ?_
    cases res <;> exact h.onward rfl nofun (fun _ => Nat.zero_le _)
  | @trialPre v hook u res hsome hres =>
    refine others ⟨nofun, nofun⟩ ⟨nofun, nofun⟩ ?_
    cases hhook.symm.trans hsome
    dsimp only [hookFirstFailHalt, View.trialPreInfo] at hres
    by_cases hfail : 0 < v.counters.fail
    · rw [if_pos hfail] at hres
      subst hres
      exact h.onward rfl nofun (fun _ => Nat.zero_le _)
    · rw [if_neg hfail] at hres
      subst hres
      exact ⟨fun _ => Nat.eq_zero_of_not_pos hfail, h.failed, h.reported⟩
  | call =>
    exact others ⟨nofun, nofun⟩ ⟨nofun, nofun⟩
      (h.onward rfl (fun _ => rfl) fun _ => Nat.le_refl _)
  | @shrinkPre v hook u res =>
    refine others ⟨nofun, nofun⟩ ⟨nofun, nofun⟩ ?_
    cases res <;> exact h.onward rfl (fun _ => rfl) (fun _ => Nat.le_refl _)
  | shrink | allocShrunk | callShrunk =>
    exact others ⟨nofun, nofun⟩ ⟨nofun, nofun⟩
      (h.onward rfl (fun _ => rfl) fun _ => Nat.le_refl _)
  | @shrinkPost v hook u res state candidate answer =>
    refine others ⟨nofun, nofun⟩ ⟨nofun, nofun⟩ ?_
    cases answer with
    | error => exact h.onward rfl (fun _ => rfl) (fun _ => Nat.le_refl _)
    | cont => cases res <;> exact h.onward rfl (fun _ => rfl) (fun _ => Nat.le_refl _)
  | @shrinkTrialPost v hook u a candidate repeated res answer =>
    refine others ⟨nofun, nofun⟩ ⟨nofun, nofun⟩ ?_
    have hsettled : HaltsFirst events (.settled a candidate res, v) := by
      cases res <;> exact h.onward rfl (fun _ => rfl) (fun _ => Nat.le_refl _)
    have hagain : HaltsFirst events (.trying a candidate true, v) :=
      h.onward rfl (fun _ => rfl) (fun _ => Nat.le_refl _)
    cases answer with
    | repeat_ => exact hagain
    | repeatOnce => cases repeated with
      | true => exact hsettled
      | false => exact hagain
    | cont => exact hsettled
    | error => exact h.onward rfl (fun _ => rfl) (fun _ => Nat.le_refl _)
  | @counterexample v info res =>
    have hcount : ∀ part, (.counterexampleRes res ::
        .counterexample (v.counterexampleInfo r info.args) :: events : List (Event I n)).countP
          (Event.isReport part) ≤ events.countP (Event.isReport part) + 1 := by
      intro part
      cases part with
      | none => simp [List.countP_cons, Event.isReport, Event.isCounterexample]
      | some i => simp [Event.isReport, Event.isPrint]
    have hreported := fun part => Nat.le_trans (hcount part) (h.reported part)
    cases res <;> exact ⟨nofun, h.failed, hreported⟩
  | @trialPost v info use res =>
    refine others ⟨nofun, nofun⟩ ⟨nofun, nofun⟩ ?_
    cases use with
    | trial => cases res <;> exact h.onward rfl nofun (fun _ => Nat.zero_le _)
    | failure repeated =>
      cases repeated <;> cases res <;> exact h.onward rfl nofun (fun _ => Nat.zero_le _)
    | nothing => exact h.onward rfl nofun (fun _ => Nat.zero_le _)
  | @callAgain v held res =>
    refine others ⟨nofun, nofun⟩ ⟨nofun, nofun⟩ ?_
    cases res <;> exact h.onward rfl nofun (fun _ => Nat.zero_le _)

theorem HaltsFirst.of_admits
    (hhook : r.hooks.trialPre = some fun info u => (hookFirstFailHalt info, u))
    {events : List (Event I n)} {p : Phase I n} (h : Admits (protocol r) events p) :
    HaltsFirst events p :=
  h.invariant ⟨nofun, Nat.zero_le 1, fun _ => Nat.le_refl 0⟩
    (fun _ _ _ h hstep => h.silent (by rw [hhook]; rfl) hstep)
    (fun _ _ _ _ h hstep => h.notice hstep) fun _ _ _ _ _ h hstep => h.exchange hhook hstep

/-- **`theft_hook_first_fail_halt` halts after the first failure.** In every run with this hook
before the trials, at most one counter-example is reported, by the hook for it or by printing each
argument, and a run that returns has counted at most one failure. -/
theorem firstFailHalt_run [Platform R] {memory : Memory} {cfg : Config I σ n} {user : σ}
    {s₀ : RunState R I σ n} (hinit : runInit memory cfg user = some (r, s₀))
    (hhook : cfg.hooks.trialPre = some fun info u => (hookFirstFailHalt info, u)) (fuel : Nat) :
    (final (runTrials fuel r) s₀).trace.countP Event.isCounterexample ≤ 1 ∧
    (∀ argI, (final (runTrials fuel r) s₀).trace.countP (Event.isPrint argI) ≤ 1) ∧
    ∀ res t, runTrials fuel r s₀ = .ok res t → t.counters.fail ≤ 1 := by
  have hhook' : r.hooks.trialPre = some fun info u => (hookFirstFailHalt info, u) := by
    rw [(runInit_started hinit).hooks]
    exact hhook
  have honce : ∀ part, (final (runTrials fuel r) s₀).trace.countP (Event.isReport part) ≤ 1 := by
    intro part
    refine Follows.of_admits (Q := fun events => events.countP (Event.isReport part) ≤ 1)
      (fun events p h => ?_) (fun event events h => ?_) (runTrials_follows hinit fuel)
    · have hfirst := HaltsFirst.of_admits hhook' h
      exact Nat.le_trans (Nat.le_of_add_right_le (hfirst.reported part)) hfirst.failed
    · exact Nat.le_trans (List.Sublist.countP_le (List.sublist_cons_self event events)) h
  refine ⟨honce none, fun argI => honce (some argI), fun res t hrun => ?_⟩
  exact (HaltsFirst.of_admits hhook' (runTrials_admits hinit hrun)).failed

/-- A run that prints the number of its counter-example -/
def printedFive : Config Nat Unit 1 :=
  { countdown with
    typeInfo := fun i => { countdown.typeInfo i with print := some fun _ u => u }
    hooks := { countdown.hooks with trialPre := some fun info u => (hookFirstFailHalt info, u) } }

theorem printedFive_halts : ∃ r s₀ t,
    runInit ⟨false, granted, granted⟩ printedFive () = some (r, s₀) ∧
    runTrials 9 r s₀ = .ok .fail (t : RunState Nat Nat Unit 1) ∧ t.counters.fail = 1 ∧
    t.trace.countP (Event.isPrint 0) = 1 := by
  have hrun : (runInit (R := Nat) ⟨false, granted, granted⟩ printedFive ()).any (fun a =>
      passes (fun res t => decide (res = .fail ∧ 1 ≤ t.counters.fail ∧
        1 ≤ t.trace.countP (Event.isPrint 0))) (runTrials 9 a.1 a.2)) = true := by decide +kernel
  obtain ⟨⟨r, s₀⟩, hinit, hpass⟩ := (Option.any_eq_true _ _).mp hrun
  obtain ⟨res, t, hres, hpass⟩ := of_passes hpass
  obtain ⟨rfl, hfailed, hprinted⟩ := of_decide_eq_true hpass
  obtain ⟨-, hprint, hfail⟩ := firstFailHalt_run hinit rfl 9
  have honce := hprint 0
  rw [final, hres] at honce
  exact ⟨r, s₀, t, hinit, hres, Nat.le_antisymm (hfail .fail t hres) hfailed,
    Nat.le_antisymm honce hprinted⟩

end

end Theft
