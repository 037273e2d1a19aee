import Theft.Frames
import Theft.ShrinkStep

/-!
# The start of a trial

* `Prepared`: the trial is set up, and none of its arguments has been generated;
* `genAllArgs_spec`: each generated argument is what its callback returns from its own pool.
-/

namespace Theft

open PackedBits Exec

section
variable {R I σ : Type} {n : Nat}

theorem Played.setIndex {α : Type} {g : Gen α} {a : α} {pool pool' : BitPool}
    (h : Played g a pool) (hsame : pool' = { pool with index := pool'.index }) :
    Played g a pool' := by
  rw [hsame]
  exact ⟨h.result, h.consumed⟩

/-! ## What the arguments are -/

/-- An autoshrunk argument is what its callback returned from its pool, if it reads into zeroed
buffers. -/
def ArgInfo.FromPool (info : TypeInfo I σ) (a : ArgInfo I) : Prop :=
  ∃ env pool u u', a.Ready env pool ∧
    ((info.alloc u).Zeroed → Played (info.alloc u) (.ok, a.inst, u') pool)

/-- Between callbacks, with all arguments generated. -/
structure Generated (r : Runner I σ n) (s : RunState R I σ n) : Prop where
  ready : s.Ready r
  fromPool : ∀ i, r.autoshrinks i = true → (s.trial.args i).FromPool (r.typeInfo i)

theorem ArgInfo.FromPool.ofCore {info : TypeInfo I σ} {a b : ArgInfo I} (h : a.FromPool info)
    (hcore : b.core = a.core) {env : AutoshrinkEnv} {pool : BitPool} (hb : b.Ready env pool) :
    b.FromPool info := by
  obtain ⟨_, pool₀, u, u', ha, hplayed⟩ := h
  have hcore' := congrArg ArgInfo.inst hcore
  have hinst : b.inst = a.inst := hcore'
  refine ⟨env, pool, u, u', hb, fun hzeroed => ?_⟩
  rw [hinst]
  exact (hplayed hzeroed).setIndex (ha.pool_of_core hb hcore.symm)

theorem Generated.held {r : Runner I σ n} {s t : RunState R I σ n} (h : Generated r s)
    (ht : Held r s t) : Generated r t where
  ready := ht.ready
  fromPool := by
    intro i henable
    obtain ⟨env, pool, ha⟩ := ht.ready.args i henable
    exact (h.fromPool i henable).ofCore (ht.core i) ha

/-- A trial some of whose arguments, `rest`, are still to be generated. -/
structure Generating (r : Runner I σ n) (rest : List (Fin n)) (s : RunState R I σ n) :
    Prop where
  prng : s.prng.Inv
  noPool : s.prng.bitPool = none
  bloom : ∀ b, s.bloom = some b → b.Inv
  hashable : s.bloom.isSome → ∀ i, (r.typeInfo i).hash.isSome ∨ r.autoshrinks i = true
  fresh : ∀ i ∈ rest, r.autoshrinks i = true → ∃ env, (s.trial.args i).env = some env ∧
    env.model.nextAction = none ∧ getDef env.dropBits defDropBits ≤ 64 ∧
    env.leaveTrailingZeroes = false ∧
    env.poolSize = (r.typeInfo i).autoshrinkConfig.poolSize
  fromPool : ∀ i ∉ rest, r.autoshrinks i = true → (s.trial.args i).FromPool (r.typeInfo i)

/-- The trial is set up, and no argument generated. -/
abbrev Prepared (r : Runner I σ n) (s : RunState R I σ n) : Prop :=
  Generating r (List.finRange n) s

theorem Generating.done {r : Runner I σ n} {s : RunState R I σ n} (h : Generating r [] s) :
    Generated r s where
  ready := by
    refine ⟨h.prng, h.noPool, ?_, h.bloom, h.hashable⟩
    intro i henable
    obtain ⟨env, pool, _, _, ha, -⟩ := h.fromPool i List.not_mem_nil henable
    exact ⟨env, pool, ha⟩
  fromPool := fun i => h.fromPool i List.not_mem_nil

variable {r : Runner I σ n}

/-- The first of the remaining arguments is generated. -/
theorem Generating.next {rest : List (Fin n)} {i : Fin n} {s t : RunState R I σ n}
    (h : Generating r (i :: rest) s) (hi : i ∉ rest) (hprng : t.prng.Inv)
    (hpool : t.prng.bitPool = none) (hbloom : t.bloom = s.bloom)
    (hothers : ∀ j ≠ i, t.trial.args j = s.trial.args j)
    (hfrom : r.autoshrinks i = true → (t.trial.args i).FromPool (r.typeInfo i)) :
    Generating r rest t where
  prng := hprng
  noPool := hpool
  bloom := by rw [hbloom]; exact h.bloom
  hashable := by rw [hbloom]; exact h.hashable
  fresh := by
    intro j hj
    have hji : j ≠ i := by
      rintro rfl
      exact hi hj
    rw [hothers j hji]
    exact h.fresh j (List.mem_cons_of_mem _ hj)
  fromPool := by
    intro j hj
    by_cases hji : j = i
    · subst hji
      exact hfrom
    · rw [hothers j hji]
      exact h.fromPool j fun hmem => (List.mem_cons.mp hmem).elim hji hj

theorem Generating.congr {rest : List (Fin n)} {s t : RunState R I σ n}
    (h : Generating r rest s) (hprng : t.prng.Inv) (hpool : t.prng.bitPool = none)
    (hbloom : t.bloom = s.bloom) (hargs : t.trial.args = s.trial.args) :
    Generating r rest t := by
  refine ⟨hprng, hpool, ?_, ?_, ?_, ?_⟩
  · rw [hbloom]; exact h.bloom
  · rw [hbloom]; exact h.hashable
  · rw [hargs]; exact h.fresh
  · rw [hargs]; exact h.fromPool

variable [Platform R]

theorem allocAutoshrink_spec (hr : r.Sized) {rest : List (Fin n)} {i : Fin n}
    (hi : i ∉ rest) (henable : r.autoshrinks i = true) :
    Spec (Generating r (i :: rest)) (allocAutoshrink r i : Run R I σ n _)
      (fun a t => a.1 = .ok → Generating r rest (t.withInst i a.2)) fun _ _ => True := by
  intro s hs
  obtain ⟨env, henv, hunscheduled, hdrop, htruncating, -⟩ := hs.fresh i List.mem_cons_self henable
  have step : Spec (fun t => t = s) (zoomEnv i env (autoshrinkAlloc ((r.typeInfo i).alloc s.user)))
      (fun a t => a.1 = .ok → ∃ inst u, a.2 = some (inst, u) ∧
        Generating r rest (t.withInst i inst)) fun _ _ => True := by
    apply Spec.zoom
    rintro s rfl _ rfl
    rw [henv, Option.getD_some]
    have hready : AutoState.Ready ⟨s.prng, s.ledger, env⟩ :=
      ⟨hs.prng, hs.noPool, hunscheduled, hdrop, htruncating⟩
    have hspec := autoshrinkAlloc_spec hready (hr.alloc i s.user)
    revert hspec
    cases autoshrinkAlloc ((r.typeInfo i).alloc s.user) ⟨s.prng, s.ledger, env⟩ with
    | error e t => exact fun _ => trivial
    | ok a t =>
      obtain ⟨ares, _ | ⟨inst, u⟩⟩ := a
      · rintro ⟨rfl, -⟩ ⟨⟩
      rintro hspec rfl
      refine ⟨inst, u, rfl, ?_⟩
      obtain ⟨ht, pool, hpool, hvalid, -, -, hplayed⟩ := hspec
      refine hs.next hi ht.prng ht.noPool rfl (fun j hji => ?_) fun _ =>
        ⟨t.env, pool, s.user, u, ?_, ?_⟩
      · simp only [RunState.withInst, modifyArg_other _ hji]
      · refine ⟨?_, ht.unscheduled, ht.dropBits, ht.truncating, hpool, hvalid⟩
        simp only [RunState.withInst, modifyArg_same]
      · simp only [RunState.withInst, modifyArg_same]
        exact hplayed
  unfold allocAutoshrink
  rw [bind_apply, get_apply]
  dsimp only
  rw [henv]
  refine Spec.bind step (fun a => ?_) s rfl
  obtain ⟨ares, res⟩ := a
  intro t ht
  cases res with
  | none =>
    intro hok
    obtain ⟨inst, u, hres, -⟩ := ht hok
    cases hres
  | some res =>
    intro hok
    obtain ⟨inst, u, hres, hgen⟩ := ht hok
    cases hres
    exact hgen.congr hgen.prng hgen.noPool rfl rfl

/-- One argument: what `alloc` returned, stored. -/
theorem genArg_spec (hr : r.Sized) {rest : List (Fin n)} {i : Fin n}
    (hi : i ∉ rest) :
    Spec (Generating r (i :: rest)) (genArg r i : Run R I σ n _)
      (fun a t => a.1 = .ok → Generating r rest (t.withInst i a.2)) fun _ _ => True := by
  intro s hs
  unfold genArg
  by_cases henable : r.autoshrinks i = true
  · rw [if_pos henable]
    exact allocAutoshrink_spec hr hi henable s hs
  · rw [if_neg henable]
    obtain ⟨a, u, p', hrun, hp', hpool, -⟩ := ask_run (.alloc i)
      (fun a : AllocRes × Option I => .allocated a.1 a.2)
      (g := fun u => ((r.typeInfo i).alloc u).apart) (hr.alloc i s.user).map hs.prng hs.noPool
    rw [show allocBasic i (r.typeInfo i).alloc s = _ from hrun]
    intro _
    refine hs.next hi hp' hpool rfl (fun j hji => ?_) fun h => absurd h henable
    simp only [RunState.withInst, modifyArg_other _ hji]

/-- **The generated arguments.** -/
theorem genAllArgs_spec (hr : r.Sized) (rest : List (Fin n)) :
    rest.Nodup → Spec (Generating r rest) (genAllArgs r rest : Run R I σ n _)
      (fun res t => res = .ok → Generated r t) fun _ _ => True := by
  induction rest with
  | nil =>
    intro _ s hs
    have hgen := hs.done
    have hstop (e : Stop) (_ : RunState R I σ n) : e = .fuel → True := fun _ => trivial
    unfold genAllArgs
    rw [bind_apply, get_apply]
    dsimp only
    by_cases hbloom : s.bloom.isSome
    · rw [if_pos hbloom]
      have hcheck := Spec.mono (Keeps.callCheckCalled (r := r) hbloom) (fun _ h => h)
        (fun _ _ h => h) hstop
      refine Spec.bind hcheck (fun found => ?_) s (.refl hgen.ready)
      intro t ht
      cases found with
      | true => rintro ⟨⟩
      | false => exact fun _ => hgen.held ht.1
    · rw [if_neg hbloom]
      exact fun _ => hgen
  | cons i rest ih =>
    intro hnodup
    obtain ⟨hi, hrest⟩ := List.nodup_cons.mp hnodup
    refine Spec.bind (genArg_spec hr hi) fun a => ?_
    obtain ⟨ares, inst⟩ := a
    intro t ht
    cases ares with
    | ok =>
      have hgen := ht rfl
      exact ih hrest (t.withInst i inst) hgen
    | skip => rintro ⟨⟩
    | error => rintro ⟨⟩

/-! ## Setting a trial up -/

/-- The bloom filter, if there is one, is well formed, and every argument has a hash. -/
structure RunState.Idle (r : Runner I σ n) (s : RunState R I σ n) : Prop where
  bloom : ∀ b, s.bloom = some b → b.Inv
  hashable : s.bloom.isSome → ∀ i, (r.typeInfo i).hash.isSome ∨ r.autoshrinks i = true

/-- There is memory for the environments of these arguments. -/
def Runner.RoomFor (r : Runner I σ n) (nextId : Nat) (is : List (Fin n)) : Prop :=
  ∀ k < (is.filter r.autoshrinks).length, r.envMemory (nextId + k) = true

instance (r : Runner I σ n) (nextId : Nat) (is : List (Fin n)) : Decidable (r.RoomFor nextId is) :=
  inferInstanceAs (Decidable (∀ k < (is.filter r.autoshrinks).length,
    r.envMemory (nextId + k) = true))

omit [Platform R] in
theorem Runner.roomFor_cons_on {i : Fin n} (henable : r.autoshrinks i = true) (nextId : Nat)
    (rest : List (Fin n)) : r.RoomFor nextId (i :: rest) ↔
      r.envMemory nextId = true ∧ r.RoomFor (nextId + 1) rest := by
  unfold Runner.RoomFor
  rw [List.filter_cons_of_pos henable, List.length_cons]
  constructor
  · intro h
    refine ⟨h 0 (Nat.zero_lt_succ _), fun k hk => ?_⟩
    rw [Nat.add_assoc, Nat.add_comm 1 k]
    exact h (k + 1) (Nat.succ_lt_succ hk)
  · rintro ⟨hfirst, hrest⟩ k hk
    cases k with
    | zero => exact hfirst
    | succ k =>
      have hnext := hrest k (Nat.lt_of_succ_lt_succ hk)
      rwa [Nat.add_assoc, Nat.add_comm 1 k] at hnext

omit [Platform R] in
theorem Runner.roomFor_cons_off {i : Fin n} (henable : r.autoshrinks i = false) (nextId : Nat)
    (rest : List (Fin n)) : r.RoomFor nextId (i :: rest) ↔ r.RoomFor nextId rest := by
  unfold Runner.RoomFor
  rw [List.filter_cons_of_neg (Bool.eq_false_iff.mp henable)]

omit [Platform R] in
theorem initArgInfo_on {i : Fin n} (henable : r.autoshrinks i = true) (rest : List (Fin n))
    (s : RunState R I σ n) : initArgInfo r (i :: rest) s =
      if r.envMemory s.ledger.nextId then initArgInfo r rest (s.equip r i) else .ok false s := by
  rw [initArgInfo, if_pos henable, bind_apply, get_apply]
  dsimp only
  split <;> rfl

omit [Platform R] in
theorem initArgInfo_off {i : Fin n} (henable : r.autoshrinks i = false) (rest : List (Fin n))
    (s : RunState R I σ n) : initArgInfo r (i :: rest) s = initArgInfo r rest s := by
  rw [initArgInfo, if_neg (Bool.eq_false_iff.mp henable)]

omit [Platform R] in
/-- `init_arg_info` returns, whether there is memory for all environments. -/
theorem initArgInfo_equipped (rest : List (Fin n)) : ∀ s : RunState R I σ n,
    ∃ t, initArgInfo r rest s = .ok (decide (r.RoomFor s.ledger.nextId rest)) t := by
  induction rest with
  | nil =>
    intro s
    have hroom : r.RoomFor s.ledger.nextId [] := fun _ hk => absurd hk (Nat.not_lt_zero _)
    exact ⟨s, by rw [decide_eq_true hroom]; rfl⟩
  | cons i rest ih =>
    intro s
    cases henable : r.autoshrinks i with
    | false =>
      obtain ⟨t, hrun⟩ := ih s
      refine ⟨t, ?_⟩
      rw [initArgInfo_off henable, hrun]
      simp only [r.roomFor_cons_off henable]
    | true =>
      rw [initArgInfo_on henable]
      simp only [r.roomFor_cons_on henable]
      by_cases hmemory : r.envMemory s.ledger.nextId = true
      · obtain ⟨t, hrun⟩ := ih (s.equip r i)
        refine ⟨t, ?_⟩
        rw [if_pos hmemory, hrun]
        simp only [hmemory, true_and]
        rfl
      · refine ⟨s, ?_⟩
        rw [if_neg hmemory, decide_eq_false fun h => hmemory h.1]

omit [Platform R] in
/-- The arguments in the list get their environments, and nothing else changes. -/
theorem initArgInfo_run (rest : List (Fin n)) : ∀ {s t : RunState R I σ n},
    initArgInfo r rest s = .ok true t → t.prng = s.prng ∧ t.bloom = s.bloom ∧
      (∀ i ∉ rest, t.trial.args i = s.trial.args i) ∧
      ∀ i ∈ rest, r.autoshrinks i = true → ∃ id, (t.trial.args i).env =
        some (autoshrinkAllocEnv id i (r.typeInfo i).autoshrinkConfig) := by
  induction rest with
  | nil =>
    intro s t hrun
    cases hrun
    exact ⟨rfl, rfl, fun _ _ => rfl, fun i hi => by cases hi⟩
  | cons i rest ih =>
    intro s t hrun
    cases henable : r.autoshrinks i with
    | true =>
      rw [initArgInfo_on henable] at hrun
      split at hrun
      · obtain ⟨hprng, hbloom, hothers, hset⟩ := ih hrun
        refine ⟨hprng, hbloom, fun j hj => ?_, fun j hj hej => ?_⟩
        · have hji : j ≠ i := fun h => hj (h ▸ List.mem_cons_self)
          rw [hothers j fun h => hj (List.mem_cons_of_mem _ h)]
          simp only [RunState.equip, modifyArg_other _ hji]
        · by_cases hmem : j ∈ rest
          · exact hset j hmem hej
          · have hji : j = i := (List.mem_cons.mp hj).resolve_right hmem
            subst hji
            refine ⟨s.ledger.nextId, ?_⟩
            rw [hothers j hmem]
            simp only [RunState.equip, modifyArg_same]
      · cases hrun
    | false =>
      rw [initArgInfo_off henable] at hrun
      obtain ⟨hprng, hbloom, hothers, hset⟩ := ih hrun
      refine ⟨hprng, hbloom, fun j hj => ?_, fun j hj hej => ?_⟩
      · exact hothers j fun h => hj (List.mem_cons_of_mem _ h)
      · obtain rfl | hmem := List.mem_cons.mp hj
        · rw [henable] at hej
          cases hej
        · exact hset j hmem hej

/-- What `run_step` does before it generates arguments prepares them. -/
theorem prepared_start {s t₁ t₂ : RunState R I σ n}
    (hs : s.Idle r) {trial : Nat} {seed : Word}
    (hinit : initArgInfo r (List.finRange n) { s with trial := .start trial seed } = .ok true t₁)
    {answer : HookGenArgsPreRes} (hhook : genArgsPreHook r t₁ = .ok answer t₂) :
    Prepared r { t₂ with prng := t₂.prng.setSeed seed } := by
  obtain ⟨-, hbloom, -, hset⟩ := initArgInfo_run _ hinit
  have hasked : Asked [.genArgsPre] t₁ t₂ :=
    Effect.of_returned (Asked.genArgsPreHook (by decide) r) hhook
  refine ⟨⟨Nat.zero_le _, fun _ h => by cases h⟩, rfl, ?_, ?_, ?_, fun i hi => ?_⟩
  · rw [show t₂.bloom = s.bloom from hasked.bloom.trans hbloom]
    exact hs.bloom
  · rw [show t₂.bloom = s.bloom from hasked.bloom.trans hbloom]
    exact hs.hashable
  · intro i hi henable
    obtain ⟨id, henv⟩ := hset i hi henable
    have hdrop : getDef 0 defDropBits ≤ 64 := by decide
    refine ⟨autoshrinkAllocEnv id i (r.typeInfo i).autoshrinkConfig, ?_, rfl, hdrop, rfl, rfl⟩
    rw [← henv]
    exact congrArg (fun t => (t.args i).env) hasked.trial
  · exact absurd (List.mem_finRange i) hi

end

end Theft
