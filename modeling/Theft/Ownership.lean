import Theft.TrialBooks

/-!
# Who frees an instance

* `retired`: after an instance was freed no callback is passed it again, in any run, returned or
  stopped;
* `instances_freed_once`: a run that returns freed whatever was returned with `OK`, once.
-/

namespace Theft

open PackedBits Exec

section
variable {R I σ : Type} {n : Nat} {s t : RunState R I σ n} {r : Runner I σ n}

/-! ## Passing and freeing -/

/-- A callback is passed the instance. -/
def Event.Passes (e : Event I n) (v : I) : Prop :=
  match e with
  | .free _ inst | .hash _ inst | .print _ inst | .shrink _ inst _ => inst = some v
  | .call args _ _ => ∃ i, args i = some v
  | .trialPre info => ∃ args i, info.args = some args ∧ args i = some v
  | .trialPost info => ∃ i, info.args i = some v
  | .counterexample info => ∃ i, info.args i = some v
  | .shrinkPre info => info.arg = some v
  | .shrinkPost info => info.arg = some v
  | .shrinkTrialPost info => ∃ i, info.args i = some v
  | _ => False

/-- Whatever callbacks put out is new. -/
def AllNew (trace : List (Event I n)) : Prop := ((outputs trace).map Output.inst).Nodup

/-- Once an instance was freed, it is not passed to any callback, and so not freed again. -/
def Retired (trace : List (Event I n)) : Prop :=
  ∀ newer argI v older, trace = newer ++ .free argI (some v) :: older →
    ∀ e ∈ newer, ¬ e.Passes v

/-- The instance of an argument was freed once. The trace has the newest event first. -/
def FreedOnce (trace : List (Event I n)) (argI : Fin n) (v : I) : Prop :=
  ∃ newer older, trace = newer ++ .free argI (some v) :: older ∧
    (∀ e ∈ newer, ¬ e.Passes v) ∧ ∀ i, .free i (some v) ∉ older

theorem Retired.freedOnce {trace : List (Event I n)} (h : Retired trace) {argI : Fin n} {v : I}
    (hfree : .free argI (some v) ∈ trace) : FreedOnce trace argI v := by
  obtain ⟨newer, older, rfl⟩ := List.append_of_mem hfree
  refine ⟨newer, older, rfl, h newer argI v older rfl, fun i hi => ?_⟩
  obtain ⟨newer', older', rfl⟩ := List.append_of_mem hi
  have hagain := h (newer ++ .free argI (some v) :: newer') i v older' (by simp)
  exact hagain (.free argI (some v)) (by simp) rfl

/-! ## The account of one instance -/

variable [DecidableEq I]

/-- How often an instance was put out for an argument. -/
def puts (argI : Nat) (v : I) (trace : List (Event I n)) : Nat :=
  (outputs trace).countP fun o => decide (o.argI = argI ∧ o.inst = v)

/-- The account of one instance of an argument. -/
def Account.slot (argI : Nat) (v : I) : Account I :=
  ⟨fun _ => 0, fun i w => if i = argI ∧ w = v then 1 else 0⟩

namespace Account

theorem slot_of (argI : Nat) (v : I) : (slot argI v).of argI (some v) = 1 :=
  if_pos ⟨rfl, rfl⟩

theorem slot_pos {argI : Nat} {v : I} {i : Nat} {inst : Option I}
    (h : 0 < (slot argI v).of i inst) : i = argI ∧ inst = some v := by
  cases inst with
  | none => exact absurd h (Nat.lt_irrefl 0)
  | some w =>
    by_contra hne
    have hzero : (slot argI v).of i (some w) = 0 :=
      if_neg fun hw => hne ⟨hw.1, congrArg some hw.2⟩
    omega

theorem slot_freeable (argI : Nat) (v : I) (hfree : ∀ i, (r.typeInfo i).free.isSome) :
    (slot argI v).Freeable r := by
  intro i hnone
  have hsome := hfree i
  rw [hnone] at hsome
  cases hsome

/-- Whatever a callback is passed has a weight in the account of one of the arguments. -/
theorem slot_passed {e : Event I n} {v : I} (h : e.Passes v) :
    ∃ argI : Nat, 0 < (slot argI v).passed e := by
  have one : ∀ (i : Nat) {inst : Option I}, inst = some v → 0 < (slot i v).of i inst := by
    rintro i _ rfl
    rw [slot_of]
    exact Nat.one_pos
  have all : ∀ {args : Args I n}, (∃ i, args i = some v) →
      ∃ argI : Nat, 0 < (slot argI v).ofArgs args := by
    rintro args ⟨i, hi⟩
    exact ⟨i, Nat.lt_of_lt_of_le (one i hi) ((slot (i : Nat) v).of_le args i)⟩
  cases e with
  | free i inst => exact ⟨i, one i h⟩
  | hash i inst => exact ⟨i, one i h⟩
  | print i inst => exact ⟨i, one i h⟩
  | shrink i inst tactic => exact ⟨i, one i h⟩
  | call args held rerun => exact all h
  | trialPre info =>
    obtain ⟨args, i, hargs, hi⟩ := h
    dsimp only [passed]
    rw [hargs]
    exact all ⟨i, hi⟩
  | trialPost info => exact all h
  | counterexample info => exact all h
  | shrinkPre info => exact ⟨info.argIndex, one info.argIndex h⟩
  | shrinkPost info => exact ⟨info.argIndex, one info.argIndex h⟩
  | shrinkTrialPost info => exact all h
  | _ => exact h.elim

theorem slot_outputs (argI : Nat) (v : I) (trace : List (Event I n)) :
    (slot argI v).returned trace + (slot argI v).strays trace = puts argI v trace := by
  unfold returned strays puts
  induction outputs trace with
  | nil => rfl
  | cons o rest ih =>
    rw [List.map_cons, List.map_cons, List.sum_cons, List.sum_cons, List.countP_cons, ← ih]
    simp only [ofOutput, slot, decide_eq_true_eq]
    cases o.ok
    · simp only [reduceCtorEq, if_false, if_true]
      omega
    · simp only [reduceCtorEq, if_false, if_true]
      omega

/-- An instance that is passed was put out, and is not freed as often. -/
theorem Clean.put {argI : Nat} {v : I} {front back : List (Event I n)} {e : Event I n}
    (h : (slot argI v).Clean (front ++ e :: back)) (hpos : 0 < (slot argI v).passed e) :
    (slot argI v).freed back < puts argI v back ∧
      puts argI v back ≤ puts argI v (front ++ e :: back) := by
  constructor
  · rw [← slot_outputs]
    exact h front e back rfl hpos
  · have hsuffix := outputs_suffix (front ++ [e]) back
    rw [List.append_assoc] at hsuffix
    exact hsuffix.sublist.countP_le

/-- What was freed in the account of an instance is there. -/
theorem free_of_freed {argI : Nat} {v : I} {trace : List (Event I n)}
    (h : 0 < (slot argI v).freed trace) : ∃ i : Fin n, i = argI ∧ .free i (some v) ∈ trace := by
  induction trace with
  | nil => exact absurd h (Nat.lt_irrefl 0)
  | cons e trace ih =>
    by_cases hrest : 0 < (slot argI v).freed trace
    · obtain ⟨i, hi, hmem⟩ := ih hrest
      exact ⟨i, hi, List.mem_cons_of_mem _ hmem⟩
    · have hpos : 0 < (slot argI v).freedBy e := by
        simp only [freed, List.map_cons, List.sum_cons] at h hrest
        omega
      cases e with
      | free i inst =>
        obtain ⟨hi, rfl⟩ := slot_pos hpos
        exact ⟨i, hi, List.mem_cons_self⟩
      | _ => exact absurd hpos (Nat.lt_irrefl 0)

end Account

/-! ## Clean books -/

/-- An instance is put out once at most, whatever argument it is for. -/
theorem AllNew.unique {trace : List (Event I n)} (h : AllNew trace) {i j : Nat} {v : I}
    (hi : 0 < puts i v trace) (hj : 0 < puts j v trace) : i = j ∧ puts i v trace = 1 := by
  obtain ⟨o, ho, hio⟩ := List.countP_pos_iff.mp hi
  obtain ⟨o', ho', hjo⟩ := List.countP_pos_iff.mp hj
  obtain ⟨rfl, rfl⟩ := of_decide_eq_true hio
  obtain ⟨rfl, hinst⟩ := of_decide_eq_true hjo
  have hsame : o' = o := List.inj_on_of_nodup_map h ho' ho hinst
  have hle : puts o.argI o.inst trace ≤ ((outputs trace).map Output.inst).count o.inst := by
    rw [List.count, List.countP_map]
    apply List.countP_mono_left
    intro p _ hp
    simpa using (of_decide_eq_true hp).2
  have hone := List.nodup_iff_count_le_one.mp h o.inst
  exact ⟨by rw [hsame], by omega⟩

/-- **What was freed is passed to no callback again.** -/
theorem retired {trace : List (Event I n)} (hnew : AllNew trace)
    (hclean : ∀ (argI : Nat) (v : I), (Account.slot argI v).Clean trace) : Retired trace := by
  rintro newer argI v older rfl e he hpasses
  obtain ⟨after, between, rfl⟩ := List.append_of_mem he
  obtain ⟨i, hpos⟩ := Account.slot_passed hpasses
  have hfree := (hclean argI v).put (by
    dsimp only [Account.passed]
    rw [Account.slot_of]
    exact Nat.one_pos)
  have hclean := hclean i v
  rw [List.append_assoc, List.cons_append] at hclean hfree hnew
  have hpass := hclean.put hpos
  obtain ⟨rfl, hone⟩ := hnew.unique (i := argI) (j := i) (v := v) (by omega) (by omega)
  have hfreed : 1 ≤ (Account.slot argI v).freed (between ++ .free argI (some v) :: older) := by
    simp only [Account.freed, List.map_append, List.map_cons, List.sum_append, List.sum_cons,
      Account.freedBy, Account.slot_of]
    omega
  omega

/-! ## Every run -/

variable [Platform R]
variable {memory : Memory} {cfg : Config I σ n} {user : σ} {s₀ : RunState R I σ n}

omit [DecidableEq I] in
/-- A run that returns has freed whatever it was given, and no run passes on what was freed. -/
theorem runTrials_audit {A : Account I} (hr : A.Freeable r) (hres : ∀ x, A.res x = 0)
    (hinit : runInit memory cfg user = some (r, s₀)) (fuel : Nat) :
    Audit A (fun s => s₀ = s) (runTrials fuel r) fun _ t => Books A ⟨0, 0, 0⟩ t := by
  rintro _ rfl
  have henv : ∀ env : Option AutoshrinkEnv, A.ofEnv env = 0 := by
    intro env
    rcases env with _ | env
    · rfl
    · cases hpool : env.bitPool <;>
        simp [Account.ofEnv, Account.ofPool, hpool, hres]
  have hstart : Closed A s₀ := runInit_closed hinit
  have hstep : ∀ {k : Nat} {seed seed' : Word} {s u : RunState R I σ n} {res : RunStepRes},
      TrialAt fuel r s₀ k seed s → runStep fuel r k seed s = .ok (res, seed') u →
      Closed A u := by
    intro k seed seed' s u res hs hrun
    obtain ⟨hclosed, habandoned⟩ :=
      (runStep_audit hr (hs.closed hr hinit) fuel k seed).returned rfl hrun
    by_cases hgenerates : r.Generates k (stepSeed r k seed) s
    · exact hclosed hgenerates
    · exact (habandoned hgenerates).2.closed fun i => henv _
  cases hrun : runTrials fuel r s₀ with
  | ok res t =>
    dsimp only
    obtain ⟨-, hpre | herror⟩ | ⟨k, s, answer, hfinished, hpost, -⟩ := runTrials_cases hrun
    · exact (Even.runPreHook.returned hstart hpre).books
    · obtain ⟨k, seed, seed', s, res', u, hs, -, hrun', -, rfl⟩ := herror.step
      exact (hstep hs hrun').books.congr rfl rfl
    · have hs : Closed A s := by
        cases hfinished with
        | all hs => exact hs.closed hr hinit
        | halted hs _ hrun' => exact .of_eq (hstep hs hrun') (hstep hs hrun').noPool rfl rfl
      exact (Even.runPostHook.returned hs hpost).books
  | error e t =>
    obtain ⟨k, seed, s, hs, -, hrun'⟩ := runTrials_stopped hrun
    exact (runStep_audit hr (hs.closed hr hinit) fuel k seed).stopped rfl hrun'

/-- **Instances are freed once, and left alone after that.** Whether or not a run returns, nothing
that was freed is passed to a callback again; and a run that returns has freed each instance that
was returned with `OK`, through the callback of the argument it was for. -/
theorem instances_freed_once (hinit : runInit memory cfg user = some (r, s₀))
    (hfree : ∀ i, (cfg.typeInfo i).free.isSome) {fuel : Nat}
    (hnew : AllNew (final (runTrials fuel r) s₀).trace) :
    Retired (final (runTrials fuel r) s₀).trace ∧
      ∀ res t, runTrials fuel r s₀ = .ok res t → ∀ o ∈ outputs t.trace, o.ok = true →
        ∃ argI : Fin n, argI = o.argI ∧ FreedOnce t.trace argI o.inst := by
  have hr : ∀ (argI : Nat) (v : I), (Account.slot argI v).Freeable r := by
    intro argI v
    apply Account.slot_freeable
    rw [(runInit_started hinit).typeInfo]
    exact hfree
  have haudit := fun argI v => runTrials_audit (hr argI v) (fun _ => rfl) hinit fuel s₀ rfl
  have hretired : Retired (final (runTrials fuel r) s₀).trace := by
    apply retired hnew
    intro argI v
    have hend := haudit argI v
    unfold final
    cases hrun : runTrials fuel r s₀ with
    | ok res t =>
      rw [hrun] at hend
      exact hend.clean
    | error e t =>
      rw [hrun] at hend
      exact hend
  refine ⟨hretired, fun res t hrun o ho hok => ?_⟩
  have hend := haudit o.argI o.inst
  rw [final, hrun] at hretired
  rw [hrun] at hend
  have hreturned : 1 ≤ (Account.slot o.argI o.inst).returned t.trace := by
    have hmem := List.mem_map_of_mem (f := (Account.slot o.argI o.inst).ofOutput true) ho
    have hle := List.single_le_sum (fun _ _ => Nat.zero_le _) _ hmem
    rw [Account.ofOutput, if_pos hok] at hle
    refine Nat.le_trans ?_ hle
    exact Nat.le_of_eq (Account.slot_of o.argI o.inst).symm
  have hkept := hend.kept
  dsimp only at hkept
  obtain ⟨argI, hargI, hmem⟩ := Account.free_of_freed
    (show 0 < (Account.slot o.argI o.inst).freed t.trace by omega)
  exact ⟨argI, hargI, hretired.freedOnce hmem⟩

end

/-! ## A run that shrinks -/

/-- An instance is a value with a number of its own. The property fails on all of them. -/
def counting : Config (Nat × Nat) Nat 1 where
  name := none
  prop := some fun _ u => .ret (.fail, u)
  typeInfo := fun _ =>
    { alloc := fun u => .ret (.ok, some (1, u), u + 1)
      free := some fun _ u => u
      hash := some fun inst u => (BitVec.ofNat 64 (inst.elim 0 Prod.fst), u)
      print := none
      shrink := some fun inst _ u => .ret (match inst with
        | some (v + 1, _) => (.ok, some (v, u), u + 1)
        | _ => (.noMoreTactics, none, u))
      autoshrinkConfig := ⟨false, 0, ⟨false, false, false⟩, 0⟩ }
  trials := 2
  seed := 1
  alwaysSeeds := []
  hooks := ⟨none, none, none, none, none, none, none, none, none⟩

theorem instances_freed_once_counting : ∃ r s₀ t,
    runInit ⟨false, granted, granted⟩ counting 0 = some (r, s₀) ∧
    runTrials 8 r (s₀ : RunState Nat (Nat × Nat) Nat 1) = .ok .fail t ∧
    Retired t.trace ∧ FreedOnce t.trace 0 (0, 1) := by
  have hrun : (runInit (R := Nat) ⟨false, granted, granted⟩ counting 0).any (fun a =>
      passes (fun res t => decide (res = .fail ∧ ((outputs t.trace).map Output.inst).Nodup ∧
        ⟨0, (0, 1), true⟩ ∈ outputs t.trace)) (runTrials 8 a.1 a.2)) = true := by decide +kernel
  obtain ⟨⟨r, s₀⟩, hinit, hpass⟩ := (Option.any_eq_true _ _).mp hrun
  obtain ⟨res, t, hstep, hpass⟩ := of_passes hpass
  obtain ⟨rfl, hnew, hmem⟩ := of_decide_eq_true hpass
  have hfinal : (final (runTrials 8 r) s₀).trace = t.trace := by rw [final, hstep]
  have hnew' : ((outputs (final (runTrials 8 r) s₀).trace).map Output.inst).Nodup :=
    hfinal ▸ hnew
  obtain ⟨hretired, honce⟩ := instances_freed_once hinit (fun _ => rfl) hnew'
  obtain ⟨argI, hargI, hfreed⟩ := honce .fail t hstep _ hmem rfl
  refine ⟨r, s₀, t, hinit, hstep, hfinal ▸ hretired, ?_⟩
  rwa [show argI = 0 from Subsingleton.elim _ _] at hfreed

end Theft
