import Theft.ShrinkBooks
import Theft.TrialStart
import Theft.Trials

/-!
# The books over a trial

* `Stocked A t`: the arguments hold whatever was returned or acquired and is not freed;
* `Closed A t`: nothing is held, all was freed;
* `runStep_audit`: a trial starts and ends with closed books, unless it ends before its
  generation.
-/

namespace Theft

open PackedBits Exec

section
variable {R I σ : Type} {n : Nat} {α β : Type}
variable {A : Account I} {b b' : Balance} {base s t : RunState R I σ n} {r : Runner I σ n}

/-- Everything that was returned or acquired is freed. -/
abbrev Closed (A : Account I) (t : RunState R I σ n) : Prop := Since A ⟨0, 0, 0⟩ t t

theorem Closed.of_eq (h : Since A ⟨0, 0, 0⟩ base s) (hprng : t.prng.bitPool = none)
    (hledger : t.ledger = s.ledger) (htrace : t.trace = s.trace) : Closed A t :=
  ⟨hprng, fun _ => rfl, h.books.congr htrace hledger⟩

variable [Platform R]

/-! ## Hooks and reports -/

namespace Even

theorem trialPostHook (info : TrialPostInfo I n) (hargs : A.ofArgs info.args ≤ b.insts) :
    Even A b base (trialPostHook r info : Run R I σ n _) := by
  unfold Theft.trialPostHook
  split
  · exact pure _
  · apply ask
    · exact ⟨rfl, rfl, hargs⟩
    · exact fun _ => ⟨rfl, rfl, Nat.le_refl 0⟩

theorem printInst (info : TypeInfo I σ) {argI : Fin n} {inst : Option I}
    (hinst : A.of argI inst ≤ b.insts) :
    Even A b base (printInst info argI inst : Run R I σ n Unit) := by
  unfold Theft.printInst
  split
  · exact pure ()
  · apply tell
    exact ⟨rfl, rfl, hinst⟩

theorem printArgs {args : Args I n} (hargs : A.ofArgs args ≤ b.insts) (is : List (Fin n)) :
    Even A b base (printArgs r args is : Run R I σ n Unit) := by
  induction is with
  | nil => exact pure ()
  | cons i is ih =>
    apply Spec.bind (printInst _ (Nat.le_trans (A.of_le args i) hargs))
    intro _
    exact ih

theorem counterexampleHook {info : CounterexampleInfo I n} (hargs : A.ofArgs info.args ≤ b.insts) :
    Even A b base (counterexampleHook r info : Run R I σ n _) := by
  unfold Theft.counterexampleHook
  split
  · apply Spec.bind (printArgs hargs _)
    intro _
    exact pure _
  · apply ask
    · exact ⟨rfl, rfl, hargs⟩
    · exact fun _ => ⟨rfl, rfl, Nat.le_refl 0⟩

theorem repeatFailure {info : TrialPostInfo I n} (hb : A.ofArgs base.trial.getArgs ≤ b.insts)
    (hargs : info.args = base.trial.getArgs) (fuel : Nat) (res : HookTrialPostRes) :
    Even A b base (repeatFailure r info fuel res : Run R I σ n _) := by
  have hinfo : A.ofArgs info.args ≤ b.insts := hargs ▸ hb
  apply repeatFailure_induct (P := Even A b base) pure (throw _)
  · intro k _ ih
    exact Spec.bind (call hb hargs true) ih
  · intro k _ ih
    exact Spec.bind (trialPostHook { info with repeat_ := true } hinfo) ih

theorem reportOnFailure {info : TrialPostInfo I n} (hb : A.ofArgs base.trial.getArgs ≤ b.insts)
    (hargs : info.args = base.trial.getArgs) (fuel : Nat) :
    Even A b base (reportOnFailure fuel r info : Run R I σ n _) := by
  have hinfo : A.ofArgs info.args ≤ b.insts := hargs ▸ hb
  apply Audit.getThen
  intro s _
  apply Spec.bind (counterexampleHook hinfo)
  intro answer
  cases answer with
  | error => exact pure _
  | cont =>
    apply Spec.bind (trialPostHook _ hinfo)
    intro res
    exact repeatFailure hb hargs fuel res

omit [Platform R] in
theorem modifyCounters (f : RunReport → RunReport) :
    Even A b base (modifyCounters f : Run R I σ n Unit) :=
  change (fun _ => rfl) (fun _ => rfl) (fun _ => rfl) fun _ _ => rfl

theorem markTrial (hb : A.ofArgs base.trial.getArgs ≤ b.insts) :
    Even A b base (markTrial r : Run R I σ n Unit) := by
  apply Audit.getThen
  intro s _
  split
  · exact callMarkCalled hb
  · exact pure ()

theorem genArgsPreHook : Even A b base (genArgsPreHook r : Run R I σ n _) := by
  apply Audit.getThen
  intro s _
  apply askHook
  · exact ⟨rfl, rfl, Nat.zero_le _⟩
  · exact fun _ => ⟨rfl, rfl, Nat.le_refl 0⟩

theorem trialPreHook (trial : Nat) (seed : Word) :
    Even A b base (trialPreHook r trial seed : Run R I σ n _) := by
  apply Audit.getThen
  intro s _
  apply askHook
  · exact ⟨rfl, rfl, Nat.zero_le _⟩
  · exact fun _ => ⟨rfl, rfl, Nat.le_refl 0⟩

theorem runPreHook : Even A b base (runPreHook r : Run R I σ n _) := by
  apply askHook
  · exact ⟨rfl, rfl, Nat.zero_le _⟩
  · exact fun _ => ⟨rfl, rfl, Nat.le_refl 0⟩

theorem runPostHook : Even A b base (runPostHook r : Run R I σ n _) := by
  apply Audit.getThen
  intro s _
  apply askHook
  · exact ⟨rfl, rfl, Nat.zero_le _⟩
  · exact fun _ => ⟨rfl, rfl, Nat.le_refl 0⟩

theorem nextSeed (res : RunStepRes) (seed : Word) :
    Even A b base (nextSeed res seed : Run R I σ n Word) := by
  unfold Theft.nextSeed
  split
  · intro s hs
    have hsame := (SamePool.randomBits (8 * 8)).change s.prng
    unfold final at hsame
    unfold zoom random
    cases hrun : randomBits (8 * 8) s.prng with
    | error e p => exact hs.books.clean
    | ok w p =>
      rw [hrun] at hsame
      exact ⟨hsame.none hs.noPool, hs.core, hs.books.congr rfl rfl⟩
  · exact pure _

end Even

/-! ## The trial -/

theorem judgeTrial_audit (hr : A.Freeable r) (fuel : Nat) {info : TrialPostInfo I n}
    (hargs : info.args = base.trial.getArgs) :
    Audit A (Level A base) (judgeTrial fuel r info : Run R I σ n _) fun _ => Stocked A := by
  have hb : A.ofArgs base.trial.getArgs ≤ (A.held base.trial.args).insts := Nat.le_refl _
  have hinfo : A.ofArgs info.args ≤ (A.held base.trial.args).insts := hargs ▸ hb
  unfold judgeTrial
  split
  · apply Spec.bind (Even.modifyCounters _)
    intro _
    apply Spec.bind (Even.trialPostHook _ hinfo)
    intro answer
    exact Spec.pure fun _ ht => ht.stocked
  · have hshrink : Audit A (Level A base) (shrink fuel r : Run R I σ n Bool)
        fun _ => Stocked A :=
      Spec.mono (shrink_audit hr fuel) (fun _ h => h.stocked) (fun _ _ h => h) fun _ _ h => h
    apply Spec.bind hshrink
    intro shrunk t ht
    have hb' : A.ofArgs t.trial.getArgs ≤ (A.held t.trial.args).insts := Nat.le_refl _
    cases shrunk with
    | true =>
      refine Spec.bind (Even.modifyCounters _) (fun _ => ?_) t ht
      apply Audit.getThen
      intro u hu
      apply Spec.bind (Even.reportOnFailure hb' hu.getArgs fuel)
      intro answer
      exact Spec.pure fun _ ht => ht.stocked
    | false =>
      have hnull : A.ofArgs (fun _ => none : Args I n) = 0 := by simp [Account.ofArgs, Account.of]
      refine Spec.bind (Even.trialPostHook _ ?_) (fun _ => ?_) t ht
      · dsimp only
        rw [hnull]
        exact Nat.zero_le _
      · exact Spec.pure fun _ ht => ht.stocked
  · apply Spec.bind (Even.modifyCounters _)
    intro _
    apply Spec.bind (Even.trialPostHook _ hinfo)
    intro answer
    exact Spec.pure fun _ ht => ht.stocked
  · apply Spec.bind (Even.trialPostHook _ hinfo)
    intro answer
    exact Spec.pure fun _ ht => ht.stocked
  · apply Spec.bind (Even.trialPostHook _ hinfo)
    intro answer
    exact Spec.pure fun _ ht => ht.stocked

theorem trialRun_audit (hr : A.Freeable r) (fuel : Nat) :
    Audit A (Stocked A) (trialRun fuel r : Run R I σ n _) fun _ => Stocked A := by
  intro s hs
  have hb : A.ofArgs s.trial.getArgs ≤ (A.held s.trial.args).insts := Nat.le_refl _
  refine Spec.bind Even.require (fun _ => ?_) s hs
  apply Spec.bind (Even.markTrial hb)
  intro _
  apply Audit.getThen
  intro t ht
  apply Spec.bind (Even.call hb ht.getArgs false)
  intro res
  exact judgeTrial_audit hr fuel ht.getArgs

theorem runGenerated_audit (hr : A.Freeable r) (fuel trial : Nat) (seed : Word)
    (gres : AllGenRes) :
    Audit A (Stocked A) (runGenerated fuel r trial seed gres : Run R I σ n _)
      fun _ => Stocked A := by
  intro s hs
  have hb : A.ofArgs s.trial.getArgs ≤ (A.held s.trial.args).insts := Nat.le_refl _
  refine Audit.getThen (fun t ht => ?_) s hs
  have hinfo : A.ofArgs t.trial.getArgs ≤ (A.held s.trial.args).insts := ht.getArgs ▸ hb
  cases gres with
  | skip =>
    apply Spec.bind (Even.modifyCounters _)
    intro _
    apply Spec.bind (Even.trialPostHook _ hinfo)
    intro answer
    exact Spec.pure fun _ ht => ht.stocked
  | dup =>
    apply Spec.bind (Even.modifyCounters _)
    intro _
    apply Spec.bind (Even.trialPostHook _ hinfo)
    intro answer
    exact Spec.pure fun _ ht => ht.stocked
  | error =>
    apply Spec.bind (Even.trialPostHook _ hinfo)
    intro answer
    exact Spec.pure fun _ ht => ht.stocked
  | ok =>
    apply Spec.bind (Even.trialPreHook trial seed)
    intro answer
    cases answer with
    | halt => exact Spec.pure fun _ ht => ht.stocked
    | error => exact Spec.pure fun _ ht => ht.stocked
    | cont =>
      intro u hu
      refine Spec.bind (trialRun_audit hr fuel) (fun out => ?_) u hu.stocked
      exact Spec.pure fun _ ht => ht

/-! ## Generating the arguments -/

/-- The arguments that are still to be generated have no instance and no pool. -/
def Unborn (rest : List (Fin n)) (s : RunState R I σ n) : Prop :=
  ∀ i ∈ rest, (s.trial.args i).inst = none ∧ (s.trial.args i).env.bind AutoshrinkEnv.bitPool = none

omit [Platform R] in
theorem Unborn.core {rest : List (Fin n)} (h : Unborn rest s)
    (hcore : ∀ i ∈ rest, (t.trial.args i).core = (s.trial.args i).core) : Unborn rest t := by
  intro i hi
  obtain ⟨hinst, hpool⟩ := h i hi
  have hinst' := congrArg ArgInfo.inst (hcore i hi)
  have henv := congrArg ArgInfo.env (hcore i hi)
  simp only [ArgInfo.core] at hinst' henv
  refine ⟨hinst'.trans hinst, ?_⟩
  cases ht : (t.trial.args i).env with
  | none => rfl
  | some env =>
    rw [ht, Option.map_some, eq_comm, Option.map_eq_some_iff] at henv
    obtain ⟨env', hs, heq⟩ := henv
    rw [hs, Option.bind_some] at hpool
    have hbit := congrArg AutoshrinkEnv.bitPool heq
    simp only [AutoshrinkEnv.core, hpool, Option.map_none] at hbit
    exact Option.map_eq_none_iff.mp hbit.symm

/-- What `alloc` answers for an argument: the pool that it read is in the argument already, the
instance is loose. -/
def Allocated (A : Account I) (s : RunState R I σ n) (argI : Fin n) (a : AllocRes × Option I)
    (t : RunState R I σ n) : Prop :=
  Since A ((A.held t.trial.args).put (A.of argI a.2) (decide (a.1 = .ok))) t t ∧
    (t.trial.args argI).inst = (s.trial.args argI).inst ∧
    ∀ j ≠ argI, (t.trial.args j).core = (s.trial.args j).core

theorem allocBasic_audit (argI : Fin n) (alloc : σ → Gen (AllocRes × Option I × σ)) :
    Audit A (Level A s) (allocBasic argI alloc : Run R I σ n _) (Allocated A s argI) := by
  intro t ht
  obtain ⟨a, u, p, hg, hrun⟩ | ⟨e, p, -, hrun⟩ := allocBasic_cases argI alloc t
  · rw [hrun]
    have hnone := ((SamePool.run _).of_returned hg).none ht.noPool
    refine ⟨⟨hnone, fun _ => rfl, ?_⟩, ht.inst argI, fun j _ => ht.core j⟩
    dsimp only
    rw [A.held_core ht.core]
    exact ht.books.allocated rfl rfl
  · rw [hrun]
    apply ht.books.clean_cons
    exact Nat.zero_le _

theorem allocAutoshrink_audit (argI : Fin n) (hs : Stocked A s)
    (hpool : (s.trial.args argI).env.bind AutoshrinkEnv.bitPool = none) :
    Audit A (fun t => t = s) (allocAutoshrink r argI : Run R I σ n _) (Allocated A s argI) := by
  intro s' hs'
  subst hs'
  unfold allocAutoshrink
  rw [bind_apply, get_apply]
  dsimp only
  cases henv : (s'.trial.args argI).env with
  | none => exact hs.books.clean
  | some env =>
    rw [henv, Option.bind_some] at hpool
    have hheld := fun env' => (A.held_modifyArg s'.trial argI fun a => { a with env := some env' })
    have hstrays : ∀ args : Fin n → ArgInfo I, (A.held args).strays = 0 := fun _ => rfl
    have hother : ∀ env' : AutoshrinkEnv, ∀ j ≠ argI,
        (s'.trial.modifyArg argI fun a => { a with env := some env' }).args j = s'.trial.args j :=
      fun env' j hj => modifyArg_other _ hj _
    have hsame : ∀ env' : AutoshrinkEnv,
        ((s'.trial.modifyArg argI fun a => { a with env := some env' }).args argI).inst =
          (s'.trial.args argI).inst := fun env' => by rw [modifyArg_same]
    dsimp only
    rw [bind_apply]
    simp only [zoomEnv, zoom, henv, Option.getD_some]
    cases hrun : autoshrinkAlloc ((r.typeInfo argI).alloc s'.user) ⟨s'.prng, s'.ledger, env⟩ with
    | error e t => exact hs.books.clean
    | ok a t =>
      obtain ⟨ares, res⟩ := a
      have hheld := hheld t.env
      rw [henv] at hheld
      obtain ⟨rfl, rfl, rfl⟩ | ⟨⟨inst, u⟩, pool, rfl, hid, hnone, hledger, henv'⟩ :=
        autoshrinkAlloc_ledger hrun
      · refine ⟨⟨hs.noPool, fun _ => rfl, ?_⟩, hsame _, fun j hj => congrArg _ (hother _ j hj)⟩
        obtain ⟨hinsts, hres⟩ := hheld
        apply Books.rebalance (b := A.held s'.trial.args)
        · exact hs.books.congr rfl rfl
        · dsimp only [Balance.put] at hinsts ⊢
          omega
        · simp only [Balance.put, Account.of, Option.elim_none, ite_self, hstrays] at hinsts ⊢
          omega
        · dsimp only [Balance.put] at hres ⊢
          omega
      · refine ⟨⟨hnone, fun _ => rfl, ?_⟩, hsame _, fun j hj => congrArg _ (hother _ j hj)⟩
        obtain ⟨hinsts, hres⟩ := hheld
        have hacquired := hs.books.acquire (x := .pool s'.ledger.nextId) rfl
          (t := { s' with
            prng := t.prng
            ledger := t.ledger
            trial := s'.trial.modifyArg argI fun a => { a with env := some t.env } }) rfl hledger
        apply Books.rebalance
        · exact hacquired.allocated rfl rfl
        · dsimp only [Balance.put] at hinsts ⊢
          omega
        · simp only [Balance.put, hstrays] at hinsts ⊢
          omega
        · have hbefore : A.ofEnv (some env) = A.res (.env env.id) := by
            simp only [Account.ofEnv, Option.elim_some, hpool, Account.ofPool, Option.elim_none,
              Nat.add_zero]
          have hafter : A.ofEnv (some t.env) =
              A.res (.env env.id) + A.res (.pool s'.ledger.nextId) := by
            rw [henv']
            simp only [Account.ofEnv, Option.elim_some, Account.ofPool, hid]
          dsimp only [Balance.put] at hres ⊢
          omega

/-- One argument, whatever allocates it. -/
theorem genArg_audit (argI : Fin n) (hs : Stocked A s)
    (hpool : (s.trial.args argI).env.bind AutoshrinkEnv.bitPool = none) :
    Audit A (fun t => t = s) (genArg r argI : Run R I σ n _) (Allocated A s argI) := by
  unfold genArg
  split
  · exact allocAutoshrink_audit argI hs hpool
  · rintro _ rfl
    exact allocBasic_audit argI _ _ hs

omit [Platform R] in
/-- A generated instance is stored. -/
theorem Allocated.store {argI : Fin n} {inst : Option I} (h : Allocated A s argI (.ok, inst) t)
    (hnone : (s.trial.args argI).inst = none) : Stocked A (t.withInst argI inst) := by
  obtain ⟨ht, hinst, -⟩ := h
  obtain ⟨hinsts, hres⟩ := A.held_modifyArg t.trial argI fun a => { a with inst := inst }
  rw [hinst, hnone] at hinsts
  refine ⟨ht.noPool, fun _ => rfl, ?_⟩
  apply Books.rebalance
  · exact ht.books.congr rfl rfl
  · simp only [RunState.withInst, Balance.put, Account.of, Option.elim_none] at hinsts ⊢
    simp only [decide_true, if_true]
    omega
  · simp only [RunState.withInst, Balance.put, Account.of, Option.elim_none] at hinsts ⊢
    simp only [decide_true, if_true, Account.held] at hinsts ⊢
    omega
  · simp only [RunState.withInst, Balance.put] at hres ⊢
    omega

omit [Platform R] in
/-- An instance that came without an `OK` is forgotten. -/
theorem Allocated.drop {argI : Fin n} {ares : AllocRes} {inst : Option I}
    (h : Allocated A s argI (ares, inst) t) (hares : ares ≠ .ok) : Stocked A t := by
  obtain ⟨ht, -, -⟩ := h
  refine ⟨ht.noPool, fun _ => rfl, ht.books.rebalance ?_ ?_ rfl⟩
  · simp [Balance.put, hares]
  · simp [Balance.put, hares]

theorem genAllArgs_audit (rest : List (Fin n)) : rest.Nodup →
    Audit A (fun s => Stocked A s ∧ Unborn rest s) (genAllArgs r rest : Run R I σ n _)
      fun _ => Stocked A := by
  induction rest with
  | nil =>
    rintro - s ⟨hs, -⟩
    have hb : A.ofArgs s.trial.getArgs ≤ (A.held s.trial.args).insts := Nat.le_refl _
    refine Audit.getThen (fun _ _ => ?_) s hs
    split
    · apply Spec.bind (Even.callCheckCalled hb)
      intro found
      split <;> exact Spec.pure fun _ ht => ht.stocked
    · exact Spec.pure fun _ ht => ht.stocked
  | cons i rest ih =>
    intro hnodup
    obtain ⟨hi, hrest⟩ := List.nodup_cons.mp hnodup
    rintro s ⟨hs, hunborn⟩
    obtain ⟨hinst, hpool⟩ := hunborn i List.mem_cons_self
    refine Spec.bind (genArg_audit i hs hpool) (fun a => ?_) s rfl
    obtain ⟨ares, inst⟩ := a
    intro t ht
    cases ares with
    | skip => exact ht.drop (by decide)
    | error => exact ht.drop (by decide)
    | ok =>
      refine ih hrest (t.withInst i inst) ⟨ht.store hinst, ?_⟩
      have hrestUnborn : Unborn rest s := fun j hj => hunborn j (List.mem_cons_of_mem _ hj)
      apply hrestUnborn.core
      intro j hj
      have hji : j ≠ i := by
        rintro rfl
        exact hi hj
      rw [← ht.2.2 j hji]
      simp only [RunState.withInst, modifyArg_other _ hji]

/-! ## Setting a trial up -/

/-- No argument has an instance or a pool. -/
abbrev AllUnborn (s : RunState R I σ n) : Prop := Unborn (List.finRange n) s

/-- A trial some of whose arguments, `rest`, are still to get an environment. -/
structure Equipping (A : Account I) (rest : List (Fin n)) (s : RunState R I σ n) : Prop where
  stocked : Stocked A s
  unborn : AllUnborn s
  envs : ∀ i ∈ rest, (s.trial.args i).env = none

omit [Platform R] in
/-- The next argument gets an environment. -/
theorem Equipping.acquire {i : Fin n} {rest : List (Fin n)} (h : Equipping A (i :: rest) s)
    (hi : i ∉ rest) (r : Runner I σ n) : Equipping A rest (s.equip r i) where
  stocked := by
    obtain ⟨hinsts, hres⟩ := A.held_modifyArg s.trial i fun a =>
      { a with env := some (autoshrinkAllocEnv s.ledger.nextId i
          (r.typeInfo i).autoshrinkConfig) }
    have hacquired := h.stocked.books.acquire (x := .env s.ledger.nextId) rfl
      (t := s.equip r i) rfl rfl
    rw [h.envs i List.mem_cons_self] at hres
    refine ⟨h.stocked.noPool, fun _ => rfl, ?_⟩
    apply Books.rebalance
    · exact hacquired
    · dsimp only [RunState.equip] at hinsts ⊢
      omega
    · simp only [Account.held, RunState.equip] at hinsts ⊢
      omega
    · simp only [Account.ofEnv, autoshrinkAllocEnv, Account.ofPool, Option.elim_none,
        Option.elim_some, RunState.equip] at hres ⊢
      omega
  unborn := by
    intro j hj
    unfold RunState.equip
    dsimp only
    by_cases hji : j = i
    · subst hji
      rw [modifyArg_same]
      exact ⟨(h.unborn j hj).1, rfl⟩
    · rw [modifyArg_other _ hji]
      exact h.unborn j hj
  envs := by
    intro j hj
    have hji : j ≠ i := by
      rintro rfl
      exact hi hj
    simp only [RunState.equip, modifyArg_other _ hji]
    exact h.envs j (List.mem_cons_of_mem _ hj)

omit [Platform R] in
theorem initArgInfo_audit (rest : List (Fin n)) : rest.Nodup →
    Audit A (Equipping A rest) (initArgInfo r rest : Run R I σ n _)
      fun _ t => Stocked A t ∧ AllUnborn t := by
  induction rest with
  | nil =>
    rintro - s hs
    exact ⟨hs.stocked, hs.unborn⟩
  | cons i rest ih =>
    intro hnodup s hs
    obtain ⟨hi, hrest⟩ := List.nodup_cons.mp hnodup
    cases henable : r.autoshrinks i with
    | false =>
      rw [initArgInfo_off henable]
      exact ih hrest s ⟨hs.stocked, hs.unborn, fun j hj => hs.envs j (List.mem_cons_of_mem _ hj)⟩
    | true =>
      rw [initArgInfo_on henable]
      by_cases hmemory : r.envMemory s.ledger.nextId = true
      · rw [if_pos hmemory]
        exact ih hrest _ (hs.acquire hi r)
      · rw [if_neg hmemory]
        exact ⟨hs.stocked, hs.unborn⟩

omit [Platform R] in
/-- An environment stays while others are allocated. -/
theorem initArgInfo_keeps (rest : List (Fin n)) : ∀ {s t : RunState R I σ n} {equipped : Bool}
    {i : Fin n}, initArgInfo r rest s = .ok equipped t → (s.trial.args i).env.isSome = true →
      (t.trial.args i).env.isSome = true := by
  induction rest with
  | nil =>
    intro s t equipped i h hsome
    cases h
    exact hsome
  | cons j rest ih =>
    intro s t equipped i h hsome
    cases henable : r.autoshrinks j with
    | false =>
      rw [initArgInfo_off henable] at h
      exact ih h hsome
    | true =>
      rw [initArgInfo_on henable] at h
      split at h
      · refine ih h ?_
        unfold RunState.equip
        dsimp only
        by_cases hij : i = j
        · rw [hij, modifyArg_same]
          rfl
        · rw [modifyArg_other _ hij]
          exact hsome
      · cases h
        exact hsome

omit [Platform R] in
/-- There are environments in the end exactly when an argument is autoshrunk and there was memory
for the first one. -/
theorem initArgInfo_left (rest : List (Fin n)) : ∀ {s t : RunState R I σ n} {equipped : Bool},
    (∀ i, (s.trial.args i).env = none) → initArgInfo r rest s = .ok equipped t →
      ((∃ i, (t.trial.args i).env.isSome = true) ↔
        (∃ i ∈ rest, r.autoshrinks i = true) ∧ r.envMemory s.ledger.nextId = true) := by
  induction rest with
  | nil =>
    intro s t equipped hnone h
    cases h
    constructor
    · rintro ⟨i, hi⟩
      rw [hnone i] at hi
      cases hi
    · rintro ⟨⟨i, hi, -⟩, -⟩
      cases hi
  | cons j rest ih =>
    intro s t equipped hnone h
    cases henable : r.autoshrinks j with
    | false =>
      rw [initArgInfo_off henable] at h
      rw [ih hnone h]
      simp only [List.mem_cons, exists_eq_or_imp, henable, Bool.false_eq_true, false_or]
    | true =>
      rw [initArgInfo_on henable] at h
      split at h
      · rename_i hmemory
        refine ⟨fun _ => ⟨⟨j, List.mem_cons_self, henable⟩, hmemory⟩, fun _ => ⟨j, ?_⟩⟩
        apply initArgInfo_keeps rest h
        simp only [RunState.equip, modifyArg_same, Option.isSome_some]
      · rename_i hmemory
        cases h
        refine ⟨?_, fun hboth => absurd hboth.2 hmemory⟩
        rintro ⟨i, hi⟩
        rw [hnone i] at hi
        cases hi

omit [Platform R] in
/-- Environments are acquired, and nothing is released. -/
theorem initArgInfo_ledger (rest : List (Fin n)) : ∀ {s t : RunState R I σ n} {equipped : Bool},
    initArgInfo r rest s = .ok equipped t → s.ledger.entries <:+ t.ledger.entries := by
  induction rest with
  | nil =>
    intro s t equipped h
    cases h
    exact List.suffix_rfl
  | cons i rest ih =>
    intro s t equipped h
    cases henable : r.autoshrinks i with
    | false =>
      rw [initArgInfo_off henable] at h
      exact ih h
    | true =>
      rw [initArgInfo_on henable] at h
      split at h
      · exact (List.suffix_cons _ _).trans (ih h)
      · cases h
        exact List.suffix_rfl

/-! ## Freeing the arguments -/

omit [Platform R] in
theorem freeEnvIf_audit {insts strays res : Nat} (env : Option AutoshrinkEnv) :
    Audit A (Since A ⟨insts, strays, res + A.ofEnv env⟩ base) (freeEnvIf env : Run R I σ n Unit)
      fun _ => Since A ⟨insts, strays, res⟩ base := by
  cases env with
  | none => exact Even.pure ()
  | some env =>
    have hsplit : res + A.ofEnv (some env) =
        res + A.res (.env env.id) + A.ofPool env.bitPool := by
      simp only [Account.ofEnv, Option.elim_some]
      omega
    rw [hsplit]
    apply Spec.bind (freePoolIf_audit env.bitPool)
    intro _
    exact Spec.modify fun s hs => ⟨hs.noPool, hs.core, hs.books.release rfl rfl⟩

theorem freeArg_audit (hr : A.Freeable r) {insts strays res : Nat} (argI : Fin n) :
    Audit A (Since A ⟨insts + A.of argI (base.trial.args argI).inst, strays,
        res + A.ofEnv (base.trial.args argI).env⟩ base)
      (freeArg r argI : Run R I σ n Unit) fun _ => Since A ⟨insts, strays, res⟩ base := by
  apply Audit.getThen
  intro s hs
  rw [← hs.inst argI, ← A.ofEnv_eq (hs.core argI)]
  apply Spec.bind (freeEnvIf_audit _)
  intro _
  cases hinst : (s.trial.args argI).inst with
  | none => exact Even.pure ()
  | some inst => exact freeLoose_audit hr

theorem freeArgs_audit (hr : A.Freeable r) (rest : List (Fin n)) :
    Audit A (Since A ⟨(rest.map fun i : Fin n => A.of i (base.trial.args i).inst).sum, 0,
        (rest.map fun i => A.ofEnv (base.trial.args i).env).sum⟩ base)
      (freeArgs r rest : Run R I σ n Unit) fun _ => Since A ⟨0, 0, 0⟩ base := by
  induction rest with
  | nil => exact Even.pure ()
  | cons i rest ih =>
    rw [List.map_cons, List.map_cons, List.sum_cons, List.sum_cons, Nat.add_comm,
      Nat.add_comm (A.ofEnv _)]
    exact Spec.bind (freeArg_audit hr i) fun _ => ih

/-- All arguments are freed. -/
theorem freeArgs_closed (hr : A.Freeable r) :
    Audit A (Stocked A) (freeArgs r (List.finRange n) : Run R I σ n Unit)
      fun _ => Closed A := by
  intro s hs
  refine Spec.mono (freeArgs_audit hr (List.finRange n) : Audit A (Since A _ s) _ _) (fun _ h => h)
    (fun _ _ h => .of_eq h h.noPool rfl rfl) (fun _ _ h => h) s ?_
  rw [← Fin.sum_univ_def, ← Fin.sum_univ_def]
  exact hs

/-! ## A step of the run -/

/-- What the hook `gen_args_pre` answers at the start of a trial, if it is installed. -/
def genArgsPreAnswer (r : Runner I σ n) (trial : Nat) (seed : Word) (s : RunState R I σ n) :
    HookGenArgsPreRes :=
  match r.hooks.genArgsPre with
  | none => .cont
  | some hook =>
    (hook
      { propName := r.name
        totalTrials := r.trialCount
        failures := s.counters.fail
        runSeed := r.runSeed
        trialId := trial
        trialSeed := seed
        arity := n } s.user).1

theorem genArgsPreHook_answer {trial : Nat} {seed : Word} {t₁ t₂ : RunState R I σ n}
    {equipped : Bool} (hinit : initArgInfo r (List.finRange n)
      { s with trial := .start trial seed } = .ok equipped t₁)
    {answer : HookGenArgsPreRes} (hhook : genArgsPreHook r t₁ = .ok answer t₂) :
    answer = genArgsPreAnswer r trial seed s := by
  have hquiet : Quiet [] { s with trial := .start trial seed } t₁ :=
    (Quiet.initArgInfo r _).of_returned hinit
  obtain ⟨hcounters, htrial, hseed⟩ := hquiet.same
  have hkeeps : Effect (Keeping fun t : RunState R I σ n => t.user = s.user)
      (initArgInfo r (List.finRange n)) := initArgInfo_effect (fun _ _ h => h) _
  have huser : t₁.user = s.user := hkeeps.of_returned hinit rfl
  unfold genArgsPreHook at hhook
  rw [bind_apply, get_apply] at hhook
  dsimp only at hhook hcounters htrial hseed
  unfold genArgsPreAnswer
  cases hhooked : r.hooks.genArgsPre with
  | none =>
    rw [hhooked] at hhook
    cases hhook
    rfl
  | some hook =>
    rw [hhooked, hcounters, htrial, hseed] at hhook
    have hanswer : (hook ⟨r.name, r.trialCount, trial, s.counters.fail, r.runSeed, seed, n⟩
        t₁.user).1 = answer := by
      cases hhook
      rfl
    rw [← hanswer, huser]

/-- The trial comes to generate its arguments: there is memory for all environments, and the hook
before it lets it go on. -/
def Runner.Generates (r : Runner I σ n) (trial : Nat) (seed : Word) (s : RunState R I σ n) : Prop :=
  r.RoomFor s.ledger.nextId (List.finRange n) ∧ genArgsPreAnswer r trial seed s = .cont

/-- The trial ended before its arguments were generated, and its environments are left. -/
structure Abandoned (A : Account I) (r : Runner I σ n) (s t : RunState R I σ n) : Prop where
  stocked : Stocked A t
  unborn : AllUnborn t
  left : (∃ i, (t.trial.args i).env.isSome = true) ↔
    (∃ i, r.autoshrinks i = true) ∧ r.envMemory s.ledger.nextId = true
  ledger : s.ledger.entries <:+ t.ledger.entries

omit [Platform R] in
/-- Environments that do not count leave the books closed. -/
theorem Abandoned.closed (h : Abandoned A r s t)
    (henvs : ∀ i, A.ofEnv (t.trial.args i).env = 0) : Closed A t := by
  have hinsts : ∀ i : Fin n, A.of i (t.trial.args i).inst = 0 := by
    intro i
    rw [(h.unborn i (List.mem_finRange i)).1]
    rfl
  have hheld : A.held t.trial.args = ⟨0, 0, 0⟩ := by simp [Account.held, hinsts, henvs]
  have hstocked := h.stocked
  rw [Stocked, Level, hheld] at hstocked
  exact hstocked

omit [Platform R] in
/-- The trial that `run_step` sets up. -/
theorem Closed.start (hs : Closed A s) (k : Nat) (seed : Word) :
    Equipping A (List.finRange n) { s with trial := .start k seed } := by
  refine ⟨⟨hs.noPool, fun _ => rfl, ?_⟩, fun _ _ => ⟨rfl, rfl⟩, fun _ _ => rfl⟩
  have hheld : A.held (TrialInfo.start (I := I) (n := n) k seed).args = ⟨0, 0, 0⟩ := by
    simp [Account.held, TrialInfo.start, Account.of, Account.ofEnv]
  rw [hheld]
  exact hs.books.congr rfl rfl

/-- The rest of a trial from its generation on. -/
theorem generated_audit (hr : A.Freeable r) (fuel k : Nat) (seed : Word) :
    Audit A (fun t => Stocked A t ∧ AllUnborn t) (do
      let gres ← genAllArgs r (List.finRange n)
      let res ← runGenerated fuel r k seed gres
      let seed ← nextSeed res seed
      freeArgs r (List.finRange n)
      return (res, seed) : Run R I σ n (RunStepRes × Word)) fun _ t => Closed A t := by
  apply Spec.bind (genAllArgs_audit _ (List.nodup_finRange n))
  intro gres
  apply Spec.bind (runGenerated_audit hr fuel k _ gres)
  intro res t ht
  refine Spec.bind (Even.nextSeed res _) (fun seed' => ?_) t ht
  intro u hu
  refine Spec.bind (freeArgs_closed hr) (fun _ => ?_) u hu.stocked
  exact Spec.pure fun _ hv => hv

/-- **A trial ends with closed books**, unless it ends before its generation. -/
theorem runStep_audit (hr : A.Freeable r) (hs : Closed A s) (fuel k : Nat) (seed : Word) :
    Audit A (fun t => t = s) (runStep fuel r k seed : Run R I σ n _) fun out t =>
      (r.Generates k (stepSeed r k seed) s → Closed A t) ∧
        (¬ r.Generates k (stepSeed r k seed) s → out.1 ≠ .ok ∧ Abandoned A r s t) := by
  rintro s' rfl
  have hstart := hs.start k (stepSeed r k seed)
  obtain ⟨t₁, hinit⟩ := initArgInfo_equipped (r := r) (List.finRange n)
    { s' with trial := .start k (stepSeed r k seed) }
  obtain ⟨hstocked, hunborn⟩ :=
    (initArgInfo_audit (r := r) _ (List.nodup_finRange n)).returned hstart hinit
  have hleft := initArgInfo_left _ (fun _ => rfl) hinit
  simp only [List.mem_finRange, true_and] at hleft
  have hledger := initArgInfo_ledger _ hinit
  dsimp only at hinit hleft hledger
  have hrun : runStep fuel r k seed s' = stepFrom fuel r k (stepSeed r k seed)
      (decide (r.RoomFor s'.ledger.nextId (List.finRange n))) t₁ := by
    rw [runStep_eq]
    exact bind_of_ok hinit
  rw [hrun]
  by_cases hroom : r.RoomFor s'.ledger.nextId (List.finRange n)
  · rw [decide_eq_true hroom, stepFrom, if_pos rfl, stepFromHook, bind_apply]
    have hpre := (Even.genArgsPreHook (r := r)) t₁ hstocked
    cases hhook : genArgsPreHook r t₁ with
    | error e t₂ =>
      rw [hhook] at hpre
      exact hpre
    | ok answer t₂ =>
      rw [hhook] at hpre
      have hasked : Asked [.genArgsPre] t₁ t₂ :=
        (Asked.genArgsPreHook (by decide) r).of_returned hhook
      have habandoned : Abandoned A r s' t₂ := by
        refine ⟨hpre.stocked, hunborn.core fun i _ => hpre.core i, ?_, ?_⟩
        · rw [hasked.trial]
          exact hleft
        · rw [hasked.ledger]
          exact hledger
      unfold Runner.Generates
      rw [← genArgsPreHook_answer hinit hhook]
      cases answer with
      | halt =>
        refine ⟨fun h => ?_, fun _ => ⟨?_, habandoned⟩⟩
        · cases h.2
        · rintro ⟨⟩
      | error =>
        refine ⟨fun h => ?_, fun _ => ⟨?_, habandoned⟩⟩
        · cases h.2
        · rintro ⟨⟩
      | cont =>
        have hseeded : Stocked A { t₂ with prng := t₂.prng.setSeed (stepSeed r k seed) } :=
          ⟨rfl, fun _ => rfl, hpre.stocked.books.congr rfl rfl⟩
        refine Spec.mono (generated_audit hr fuel k _) (fun _ h => h) ?_ (fun _ _ h => h) _
          ⟨hseeded, habandoned.unborn⟩
        exact fun _ _ h => ⟨fun _ => h, fun hne => absurd ⟨hroom, rfl⟩ hne⟩
  · rw [decide_eq_false hroom, stepFrom, if_neg Bool.false_ne_true]
    refine ⟨fun h => absurd h.1 hroom, fun _ => ⟨?_, hstocked, hunborn, hleft, hledger⟩⟩
    rintro ⟨⟩

/-! ## The run -/

variable {memory : Memory} {cfg : Config I σ n} {user : σ} {s₀ : RunState R I σ n}

theorem runInit_closed (hinit : runInit memory cfg user = some (r, s₀)) : Closed A s₀ := by
  have hstart := runInit_started hinit
  have htrace : s₀.trace = [] := hstart.trace
  have hledger : s₀.ledger = ⟨0, []⟩ := hstart.ledger
  refine ⟨by rw [hstart.prng]; rfl, fun _ => rfl, ?_, ?_, ?_, ?_, ?_⟩
  · rw [htrace]; exact Nat.le_refl _
  · rw [htrace]; exact Nat.le_refl _
  · rw [htrace]
    intro newer e older h
    simp at h
  · rw [hledger]; rfl
  · intro x _
    rw [hledger]
    exact Nat.zero_le _

/-- **Every trial starts with closed books.** -/
theorem TrialAt.closed (hr : A.Freeable r) (hinit : runInit memory cfg user = some (r, s₀))
    {fuel k : Nat} {seed : Word} {s : RunState R I σ n} (h : TrialAt fuel r s₀ k seed s) :
    Closed A s := by
  induction h with
  | first hpre =>
    have hs := (Even.runPreHook (r := r)).returned (runInit_closed (A := A) hinit) hpre
    exact .of_eq hs hs.noPool rfl rfl
  | @next k seed seed' s t hs hlt hstep ih =>
    obtain ⟨hclosed, habandoned⟩ := (runStep_audit hr ih _ k seed).returned rfl hstep
    by_cases hgenerates : r.Generates k (stepSeed r k seed) s
    · have ht := hclosed hgenerates
      exact .of_eq ht ht.noPool rfl rfl
    · exact absurd rfl (habandoned hgenerates).1

end

end Theft
