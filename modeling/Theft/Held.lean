import Theft.BloomExact
import Theft.Frames
import Theft.PoolGenerations

/-!
# What a trial holds between callbacks

* `RunState.Ready`: no pool is injected, and the pool of every autoshrunk argument is valid;
* `Held r s₀ s`: since `s₀` no argument was exchanged and no mark was lost; `Held.withInst` and
  `Held.withPool` exchange one on both sides;
* `Keeps`: a program of the runner that leaves everything held, with its rules, and the
  callbacks and hooks as instances of it.
-/

namespace Theft

open PackedBits Exec

section
variable {R I σ : Type} {n : Nat} {α β : Type}

/-! ## Arguments -/

/-- An autoshrunk argument between callbacks, with its environment and its pool. -/
structure ArgInfo.Ready (a : ArgInfo I) (env : AutoshrinkEnv) (pool : BitPool) : Prop where
  hasEnv : a.env = some env
  unscheduled : env.model.nextAction = none
  dropBits : getDef env.dropBits defDropBits ≤ 64
  truncating : env.leaveTrailingZeroes = false
  hasPool : env.bitPool = some pool
  valid : pool.Valid

/-- The pools of two arguments with the same core differ at most in their index. -/
theorem ArgInfo.Ready.pool_of_core {a b : ArgInfo I} {env env' : AutoshrinkEnv}
    {pool pool' : BitPool} (ha : a.Ready env pool) (hb : b.Ready env' pool')
    (h : a.core = b.core) : pool' = { pool with index := pool'.index } := by
  have henv := congrArg ArgInfo.env h
  simp only [ArgInfo.core, AutoshrinkEnv.core, ha.hasEnv, hb.hasEnv, ha.hasPool, hb.hasPool,
    Option.map_some, Option.some.injEq,
    AutoshrinkEnv.mk.injEq] at henv
  have hpool := henv.2.2.2.2.2.2.2.2.2.1
  simp only [BitPool.mk.injEq] at hpool
  obtain ⟨hid, hbits, hshrinking, hfilled, hceil, hconsumed, hlimit, hrequests, hrequestCeil,
    hgeneration, -⟩ := hpool
  cases pool
  cases pool'
  simp_all

theorem ArgInfo.Ready.tries_of_core {a b : ArgInfo I} {env env' : AutoshrinkEnv}
    {pool pool' : BitPool} (ha : a.Ready env pool) (hb : b.Ready env' pool')
    (h : a.core = b.core) : env'.maxFailedShrinks = env.maxFailedShrinks := by
  have henv := congrArg ArgInfo.env h
  simp only [ArgInfo.core, AutoshrinkEnv.core, ha.hasEnv, hb.hasEnv, Option.map_some,
    Option.some.injEq,
    AutoshrinkEnv.mk.injEq] at henv
  exact henv.2.2.2.2.2.1.symm

/-! ## The runner between callbacks -/

/-- What theft asks of callbacks that read random bits: buffers of the size they announce. -/
structure Runner.Sized (r : Runner I σ n) : Prop where
  alloc : ∀ i u, ((r.typeInfo i).alloc u).Sized
  shrink : ∀ i f, (r.typeInfo i).shrink = some f → ∀ inst tactic u, (f inst tactic u).Sized
  propFun : ∀ args u, (r.propFun args u).Sized

/-- Whether the argument is autoshrunk. -/
abbrev Runner.autoshrinks (r : Runner I σ n) (i : Fin n) : Bool :=
  (r.typeInfo i).autoshrinkConfig.enable

/-- A hash that the bloom filter reports as marked. -/
def RunState.Seen (s : RunState R I σ n) (w : Word) : Prop :=
  ∃ b, s.bloom = some b ∧ bloomCheckHash b w = .ok true

/-- The state between callbacks. -/
structure RunState.Ready (r : Runner I σ n) (s : RunState R I σ n) : Prop where
  prng : s.prng.Inv
  noPool : s.prng.bitPool = none
  args : ∀ i, r.autoshrinks i = true → ∃ env pool, (s.trial.args i).Ready env pool
  bloom : ∀ b, s.bloom = some b → b.Inv
  hashable : s.bloom.isSome → ∀ i, (r.typeInfo i).hash.isSome ∨ r.autoshrinks i = true

/-- Since `s₀` no argument was exchanged, and no mark was lost. -/
structure Held (r : Runner I σ n) (s₀ s : RunState R I σ n) : Prop where
  ready : s.Ready r
  core : ∀ i, (s.trial.args i).core = (s₀.trial.args i).core
  bloom : s.bloom.isSome = s₀.bloom.isSome
  seen : r.filterMemory = granted → ∀ w, s₀.Seen w → s.Seen w

namespace Held
variable {r : Runner I σ n} {s₀ s t : RunState R I σ n}

theorem refl (h : s.Ready r) : Held r s s := ⟨h, fun _ => rfl, rfl, fun _ _ hw => hw⟩

theorem trans (h₁ : Held r s₀ s) (h₂ : Held r s t) : Held r s₀ t :=
  ⟨h₂.ready, fun i => (h₂.core i).trans (h₁.core i), h₂.bloom.trans h₁.bloom,
    fun hg w hw => h₂.seen hg w (h₁.seen hg w hw)⟩

theorem inst (h : Held r s₀ s) (i : Fin n) : (s.trial.args i).inst = (s₀.trial.args i).inst := by
  have hcore := congrArg ArgInfo.inst (h.core i)
  exact hcore

theorem getArgs (h : Held r s₀ s) : s.trial.getArgs = s₀.trial.getArgs := funext h.inst

/-- Arguments and filter are what they were, and no pool is injected. -/
theorem sameArgs (h : Held r s₀ s) (hprng : t.prng.Inv) (hpool : t.prng.bitPool = none)
    (hbloom : t.bloom = s.bloom) (hargs : t.trial.args = s.trial.args) : Held r s₀ t where
  ready := by
    refine ⟨hprng, hpool, ?_, ?_, ?_⟩
    · rw [hargs]; exact h.ready.args
    · rw [hbloom]; exact h.ready.bloom
    · rw [hbloom]; exact h.ready.hashable
  core := by rw [hargs]; exact h.core
  bloom := by rw [hbloom]; exact h.bloom
  seen := by
    rintro hg w hw
    obtain ⟨b, hb, hcheck⟩ := h.seen hg w hw
    exact ⟨b, hbloom ▸ hb, hcheck⟩

/-- One argument is changed, but not its core. -/
theorem sameCore (h : Held r s₀ s) {i : Fin n} {a : ArgInfo I}
    (hcore : a.core = (s.trial.args i).core)
    (hready : r.autoshrinks i = true → ∃ env pool, a.Ready env pool) :
    Held r s₀ { s with trial := s.trial.modifyArg i fun _ => a } where
  ready := by
    refine ⟨h.ready.prng, h.ready.noPool, fun j hj => ?_, h.ready.bloom, h.ready.hashable⟩
    by_cases hji : j = i
    · subst hji
      simp only [TrialInfo.modifyArg, update, if_true]
      exact hready hj
    · simp only [TrialInfo.modifyArg, update, if_neg hji]
      exact h.ready.args j hj
  core := by
    intro j
    by_cases hji : j = i
    · subst hji
      simp only [TrialInfo.modifyArg, update, if_true]
      exact hcore.trans (h.core j)
    · simp only [TrialInfo.modifyArg, update, if_neg hji]
      exact h.core j
  bloom := h.bloom
  seen := h.seen

end Held

/-! ## Exchanging an argument -/

namespace RunState

def withInst (s : RunState R I σ n) (i : Fin n) (inst : Option I) : RunState R I σ n :=
  { s with trial := s.trial.modifyArg i fun a => { a with inst := inst } }

def withPool (s : RunState R I σ n) (i : Fin n) (pool : Option BitPool) : RunState R I σ n :=
  { s with trial := s.trial.modifyArg i fun a =>
      { a with env := a.env.map fun env => { env with bitPool := pool } } }

end RunState

/-- States that differ at most in their arguments are equal when these are. -/
theorem RunState.ext_args {s t : RunState R I σ n} (hargs : ∀ i, t.trial.args i = s.trial.args i)
    (hrest : t = { s with trial := { s.trial with args := t.trial.args } }) : t = s := by
  rw [hrest, show t.trial.args = s.trial.args from funext hargs]

theorem modifyArg_same (t : TrialInfo I n) (i : Fin n) (f : ArgInfo I → ArgInfo I) :
    (t.modifyArg i f).args i = f (t.args i) := if_pos rfl

theorem modifyArg_other (t : TrialInfo I n) {i j : Fin n} (h : j ≠ i) (f : ArgInfo I → ArgInfo I) :
    (t.modifyArg i f).args j = t.args j := if_neg h

theorem getArgs_withInst (s : RunState R I σ n) (i : Fin n) (inst : Option I) :
    (s.withInst i inst).trial.getArgs = update s.trial.getArgs i inst := by
  funext j
  simp only [RunState.withInst, TrialInfo.getArgs, TrialInfo.modifyArg, update]
  split <;> rfl

section
variable {r : Runner I σ n} {s₀ s : RunState R I σ n}

/-- An argument is changed alike in the state and in what it is compared with. -/
theorem Held.modifyArg (h : Held r s₀ s) (i : Fin n) {f : ArgInfo I → ArgInfo I}
    (hcore : ∀ a b : ArgInfo I, a.core = b.core → (f a).core = (f b).core)
    (hready : r.autoshrinks i = true → ∀ a env pool, ArgInfo.Ready a env pool →
      ∃ env pool, (f a).Ready env pool) :
    Held r { s₀ with trial := s₀.trial.modifyArg i f }
      { s with trial := s.trial.modifyArg i f } where
  ready := by
    refine ⟨h.ready.prng, h.ready.noPool, fun j hj => ?_, h.ready.bloom, h.ready.hashable⟩
    dsimp only
    obtain ⟨env, pool, hready'⟩ := h.ready.args j hj
    by_cases hji : j = i
    · subst hji
      rw [modifyArg_same]
      exact hready hj _ env pool hready'
    · rw [modifyArg_other _ hji]
      exact ⟨env, pool, hready'⟩
  core := by
    intro j
    dsimp only
    by_cases hji : j = i
    · subst hji
      rw [modifyArg_same, modifyArg_same]
      exact hcore _ _ (h.core j)
    · rw [modifyArg_other _ hji, modifyArg_other _ hji]
      exact h.core j
  bloom := h.bloom
  seen := h.seen

theorem ArgInfo.core_setInst {a b : ArgInfo I} (h : a.core = b.core) (inst : Option I) :
    ({ a with inst := inst } : ArgInfo I).core = ({ b with inst := inst } : ArgInfo I).core := by
  have henv := congrArg ArgInfo.env h
  simp only [ArgInfo.core] at henv ⊢
  rw [henv]

theorem ArgInfo.core_setPool {a b : ArgInfo I} (h : a.core = b.core) (pool : Option BitPool) :
    ({ a with env := a.env.map fun env => { env with bitPool := pool } } : ArgInfo I).core =
      ({ b with env := b.env.map fun env => { env with bitPool := pool } } : ArgInfo I).core := by
  have hinst := congrArg ArgInfo.inst h
  have henv := congrArg ArgInfo.env h
  simp only [ArgInfo.core] at hinst henv ⊢
  rw [hinst]
  cases ha : a.env with
  | none =>
    cases hb : b.env with
    | none => rfl
    | some env' => rw [ha, hb] at henv; cases henv
  | some env =>
    cases hb : b.env with
    | none => rw [ha, hb] at henv; cases henv
    | some env' =>
      rw [ha, hb] at henv
      simp only [Option.map_some, Option.some.injEq, AutoshrinkEnv.core, AutoshrinkEnv.mk.injEq]
        at henv ⊢
      simp [henv]

theorem Held.withInst (h : Held r s₀ s) (i : Fin n) (inst : Option I) :
    Held r (s₀.withInst i inst) (s.withInst i inst) := by
  apply h.modifyArg i
  · exact fun a b hab => ArgInfo.core_setInst hab inst
  · intro _ a env pool ha
    exact ⟨env, pool, ha.hasEnv, ha.unscheduled, ha.dropBits, ha.truncating, ha.hasPool, ha.valid⟩

theorem Held.withPool (h : Held r s₀ s) (i : Fin n) {pool : BitPool} (hvalid : pool.Valid) :
    Held r (s₀.withPool i (some pool)) (s.withPool i (some pool)) := by
  apply h.modifyArg i
  · exact fun a b hab => ArgInfo.core_setPool hab (some pool)
  · intro _ a env pool' ha
    refine ⟨{ env with bitPool := some pool }, pool, ?_, ha.unscheduled, ha.dropBits,
      ha.truncating, rfl, hvalid⟩
    rw [ha.hasEnv]
    rfl

variable (r) in
/-- The pool is exchanged if the argument is autoshrunk. -/
def RunState.withPoolIf (s : RunState R I σ n) (i : Fin n) (pool : Option BitPool) :
    RunState R I σ n :=
  if r.autoshrinks i = true then s.withPool i pool else s

theorem Held.withPoolIf (h : Held r s₀ s) (i : Fin n) {pool : Option BitPool}
    (hvalid : r.autoshrinks i = true → ∃ p, pool = some p ∧ p.Valid) :
    Held r (s₀.withPoolIf r i pool) (s.withPoolIf r i pool) := by
  unfold RunState.withPoolIf
  split
  · rename_i henable
    obtain ⟨p, rfl, hp⟩ := hvalid henable
    exact h.withPool i hp
  · exact h

theorem withInst_withPoolIf (s : RunState R I σ n) (i : Fin n) (inst : Option I)
    (pool : Option BitPool) :
    (s.withInst i inst).withPoolIf r i pool = (s.withPoolIf r i pool).withInst i inst := by
  unfold RunState.withPoolIf
  split
  · apply RunState.ext_args
    · intro j
      by_cases hji : j = i
      · subst hji
        simp only [RunState.withInst, RunState.withPool, modifyArg_same]
      · simp only [RunState.withInst, RunState.withPool, modifyArg_other _ hji]
    · rfl
  · rfl

theorem exchange_bloom (s : RunState R I σ n) (i : Fin n) (inst : Option I)
    (pool : Option BitPool) : ((s.withInst i inst).withPoolIf r i pool).bloom = s.bloom := by
  unfold RunState.withPoolIf
  split <;> rfl

theorem exchange_other (s : RunState R I σ n) {i j : Fin n} (h : j ≠ i) (inst : Option I)
    (pool : Option BitPool) :
    ((s.withInst i inst).withPoolIf r i pool).trial.args j = s.trial.args j := by
  unfold RunState.withPoolIf
  split
  · simp only [RunState.withPool, RunState.withInst, modifyArg_other _ h]
  · simp only [RunState.withInst, modifyArg_other _ h]

/-- Exchanging an argument and putting it back changes nothing. -/
theorem exchange_back (r : Runner I σ n) (s : RunState R I σ n) (i : Fin n) (inst : Option I)
    (pool : Option BitPool) :
    (((s.withInst i inst).withPoolIf r i pool).withPoolIf r i
      ((s.trial.args i).env.bind AutoshrinkEnv.bitPool)).withInst i (s.trial.args i).inst = s := by
  unfold RunState.withPoolIf
  split
  · apply RunState.ext_args
    · intro j
      by_cases hji : j = i
      · subst hji
        simp only [RunState.withInst, RunState.withPool, modifyArg_same]
        cases s.trial.args j with
        | mk inst env => cases env <;> rfl
      · simp only [RunState.withInst, RunState.withPool, modifyArg_other _ hji]
    · rfl
  · apply RunState.ext_args
    · intro j
      by_cases hji : j = i
      · subst hji
        simp only [RunState.withInst, modifyArg_same]
      · simp only [RunState.withInst, modifyArg_other _ hji]
    · rfl

end

/-! ## Callbacks -/

/-- Between callbacks a callback returns, and only random bits and user code change. -/
theorem runCallback_run [Platform R] {g : σ → Gen (α × σ)} {s : RunState R I σ n}
    (hg : (g s.user).Sized) (hprng : s.prng.Inv) (hpool : s.prng.bitPool = none) :
    ∃ a u p', runCallback g s = .ok a { s with prng := p', user := u } ∧ p'.Inv ∧
      p'.bitPool = none ∧ (g s.user).Returns (a, u) := by
  obtain ⟨⟨a, u⟩, p', hrun, hp', hnone, hreturns⟩ := (g s.user).run_noPool hg hprng hpool
  refine ⟨a, u, p', ?_, hp', hnone, hreturns⟩
  simp only [runCallback, bind_apply, get_apply, zoom, hrun, modify_apply, pure_apply]

theorem ask_run [Platform R] {g : σ → Gen (α × σ)} {s : RunState R I σ n}
    (event : Event I n) (answer : α → Event I n)
    (hg : (g s.user).Sized) (hprng : s.prng.Inv) (hpool : s.prng.bitPool = none) :
    ∃ a u p', ask event answer g s =
        .ok a { s with prng := p', user := u, trace := answer a :: event :: s.trace } ∧
      p'.Inv ∧ p'.bitPool = none ∧ (g s.user).Returns (a, u) := by
  obtain ⟨a, u, p', hrun, hp', hnone, hreturns⟩ :=
    runCallback_run (s := { s with trace := event :: s.trace }) hg hprng hpool
  refine ⟨a, u, p', ?_, hp', hnone, hreturns⟩
  simp only [ask, record, bind_apply, modify_apply, hrun, pure_apply]

/-! ## Programs that keep everything -/

/-- The program returns in `Q` with everything held since `s₀`, or had too little fuel. -/
def Keeps (r : Runner I σ n) (s₀ : RunState R I σ n) (m : Run R I σ n α) (Q : α → Prop) : Prop :=
  Spec (Held r s₀) m (fun a s => Held r s₀ s ∧ Q a) fun e _ => e = .fuel

namespace Keeps
variable {r : Runner I σ n} {s₀ : RunState R I σ n} {m : Run R I σ n α} {Q Q' : α → Prop}

theorem pure {a : α} (h : Q a) : Keeps r s₀ (pure a) Q := fun _ hs => ⟨hs, h⟩

theorem bind {f : α → Run R I σ n β} {P : β → Prop} (hm : Keeps r s₀ m Q)
    (hf : ∀ a, Q a → Keeps r s₀ (f a) P) : Keeps r s₀ (m >>= f) P :=
  Spec.bind hm fun a s hs => hf a hs.2 s hs.1

/-- A program that keeps everything, before one with other effects. -/
theorem andThen {f : α → Run R I σ n β} {P : β → RunState R I σ n → Prop} (hm : Keeps r s₀ m Q)
    (hf : ∀ a, Q a → Spec (Held r s₀) (f a) P fun e _ => e = .fuel) :
    Spec (Held r s₀) (m >>= f) P fun e _ => e = .fuel :=
  Spec.bind hm fun a s hs => hf a hs.2 s hs.1

theorem mono (hm : Keeps r s₀ m Q) (h : ∀ a, Q a → Q' a) : Keeps r s₀ m Q' :=
  Spec.mono hm (fun _ hs => hs) (fun a _ ha => ⟨ha.1, h a ha.2⟩) fun _ _ he => he

theorem get : Keeps r s₀ get (Held r s₀) := Spec.get fun _ hs => ⟨hs, hs⟩

/-- The state is read, and the program goes on from the same state. -/
theorem getThen {f : RunState R I σ n → Run R I σ n β} {P : β → RunState R I σ n → Prop}
    {E : Stop → RunState R I σ n → Prop}
    (hf : ∀ s, Held r s₀ s → Spec (fun t => t = s) (f s) P E) :
    Spec (Held r s₀) (MonadState.get >>= f) P E :=
  fun s hs => hf s hs s rfl

theorem throw {e : Stop} (h : e = .fuel) : Keeps r s₀ (throw e : Run R I σ n α) Q :=
  Spec.throw fun _ _ => h

/-- A change of the state outside of arguments, filter and random bits. -/
theorem modify {f : RunState R I σ n → RunState R I σ n} (hprng : ∀ s, (f s).prng = s.prng)
    (hbloom : ∀ s, (f s).bloom = s.bloom) (hargs : ∀ s, (f s).trial.args = s.trial.args) :
    Keeps r s₀ (modify f) fun _ => True := by
  refine Spec.modify fun s hs => ⟨hs.sameArgs ?_ ?_ (hbloom s) (hargs s), trivial⟩
  · rw [hprng]; exact hs.ready.prng
  · rw [hprng]; exact hs.ready.noPool

theorem record (event : Event I n) : Keeps r s₀ (record event) fun _ => True :=
  modify (fun _ => rfl) (fun _ => rfl) fun _ => rfl

/-- Between callbacks a pool may be freed. -/
theorem freePool (pool : BitPool) : Keeps r s₀ (freePool pool) fun _ => True := by
  intro s hs
  have hfree : freeBitPool s.prng pool s.ledger = .ok (s.ledger.release (.pool pool.id)) := by
    rw [freeBitPool, hs.ready.noPool]
    rfl
  have hrun : Theft.freePool pool s =
      .ok () { s with ledger := s.ledger.release (.pool pool.id) } := by
    simp only [Theft.freePool, bind_apply, get_apply, hfree, attempt]
    rfl
  rw [hrun]
  exact ⟨hs.sameArgs hs.ready.prng hs.ready.noPool rfl rfl, trivial⟩

theorem freePoolIf (pool : Option BitPool) : Keeps r s₀ (freePoolIf pool) fun _ => True := by
  cases pool with
  | none => exact pure trivial
  | some pool => exact freePool pool

theorem ifAutoshrink {argI : Fin n} {m : Run R I σ n Unit}
    (h : r.autoshrinks argI = true → Keeps r s₀ m fun _ => True) :
    Keeps r s₀ (ifAutoshrink r argI m) fun _ => True := by
  unfold Theft.ifAutoshrink
  split
  · rename_i henable
    exact h henable
  · exact pure trivial

/-! ### Callbacks -/

variable [Platform R]

/-- A callback returns what it may return from some state of user code. -/
theorem runCallback {g : σ → Gen (α × σ)} (hg : ∀ u, (g u).Sized) :
    Keeps r s₀ (runCallback g) fun a => ∃ u u', (g u).Returns (a, u') := by
  intro s hs
  obtain ⟨a, u, p', hrun, hp', hpool, hreturns⟩ :=
    runCallback_run (hg s.user) hs.ready.prng hs.ready.noPool
  rw [hrun]
  exact ⟨hs.sameArgs hp' hpool rfl rfl, s.user, u, hreturns⟩

theorem runPlain (f : σ → α × σ) :
    Keeps r s₀ (runPlain f) fun a => ∃ u, a = (f u).1 := by
  refine mono (runCallback fun _ => trivial) ?_
  rintro a ⟨u, u', h⟩
  exact ⟨u, congrArg Prod.fst h⟩

theorem ask {event : Event I n} {answer : α → Event I n} {g : σ → Gen (α × σ)}
    (hg : ∀ u, (g u).Sized) :
    Keeps r s₀ (ask event answer g) fun a => ∃ u u', (g u).Returns (a, u') := by
  apply bind (record event)
  intro _ _
  apply bind (runCallback hg)
  intro a ha
  apply bind (record (answer a))
  intro _ _
  exact pure ha

theorem askHook {Info Res : Type} (hook : Option (Info → σ → Res × σ)) (info : Info) (dflt : Res)
    (event : Event I n) (answer : Res → Event I n) :
    Keeps r s₀ (askHook hook info dflt event answer) fun a =>
      a = dflt ∨ ∃ f u, hook = some f ∧ a = (f info u).1 := by
  cases hook with
  | none => exact pure (.inl rfl)
  | some f =>
    refine mono (ask fun _ => trivial) ?_
    rintro a ⟨u, u', h⟩
    exact .inr ⟨f, u, rfl, congrArg Prod.fst h⟩

theorem freeInst (argI : Fin n) (inst : Option I) :
    Keeps r s₀ (freeInst r argI inst) fun _ => True := by
  unfold Theft.freeInst freeWith
  split
  · exact pure trivial
  · apply bind (record _)
    intro _ _
    exact mono (runPlain _) fun _ _ => trivial

end Keeps

end

end Theft
