import Theft.Addresses
import Theft.Seeds

/-!
# A trial seed gives the arguments again

* `Alike`: two trials that generate the same arguments, wherever their pools are;
* `trial_seed_reproduces`: the first trial of a run with the seed of a trial has its arguments.
-/

namespace Theft

open PackedBits Exec

section
variable {R I σ : Type} {n : Nat} [Platform R]

/-- The `alloc` callbacks return what `allocs` does, whatever the state of user code: they are
functions of the random bits. -/
def AllocsAre (typeInfo : Fin n → TypeInfo I σ) (allocs : Fin n → Gen (AllocRes × Option I)) :
    Prop := ∀ i u, ((typeInfo i).alloc u).map (fun a => (a.1, a.2.1)) = allocs i

/-! ## Callbacks on the same bits -/

/-- A result with its value changed. -/
def mapResult {ε τ α β : Type} (f : α → β) : EStateM.Result ε τ α → EStateM.Result ε τ β
  | .ok a t => .ok (f a) t
  | .error e t => .error e t

theorem run_map {α β : Type} (f : α → β) (g : Gen α) : ∀ p : Prng R,
    (g.map f).run p = mapResult f (g.run p) := by
  induction g with
  | ret a =>
    intro p
    rfl
  | bits bitCount k ih =>
    intro p
    unfold Gen.map Gen.run
    rw [bind_apply, bind_apply]
    cases randomBits bitCount.val p with
    | ok w q => exact ih w q
    | error e q => rfl
  | bulk bitCount buf k ih =>
    intro p
    unfold Gen.map Gen.run
    rw [bind_apply, bind_apply]
    cases randomBitsBulk bitCount.val buf p with
    | ok ws q => exact ih ws q
    | error e q => rfl

omit [Platform R] in
theorem gen_map_map {α β γ : Type} (f : β → γ) (g : α → β) (gen : Gen α) :
    (gen.map g).map f = gen.map (f ∘ g) := by
  induction gen with
  | ret a => rfl
  | bits bitCount k ih => exact congrArg (Gen.bits bitCount) (funext ih)
  | bulk bitCount buf k ih => exact congrArg (Gen.bulk bitCount buf) (funext ih)

variable {r r' : Runner I σ n} {allocs : Fin n → Gen (AllocRes × Option I)}

/-- Both callbacks return the same, with the state of user code aside, or both stop. -/
theorem AllocsAre.same (h : AllocsAre r.typeInfo allocs) (i : Fin n) (u u' : σ) (p : Prng R) :
    (∃ res inst v v' q, ((r.typeInfo i).alloc u).run p = .ok (res, inst, v) q ∧
      ((r.typeInfo i).alloc u').run p = .ok (res, inst, v') q) ∨
    ∃ e q, ((r.typeInfo i).alloc u).run p = .error e q ∧
      ((r.typeInfo i).alloc u').run p = .error e q := by
  have hu : mapResult (fun a => (a.1, a.2.1)) (((r.typeInfo i).alloc u).run p) =
      mapResult (fun a => (a.1, a.2.1)) (((r.typeInfo i).alloc u').run p) := by
    rw [← run_map, ← run_map, h i u, h i u']
  cases hrun : ((r.typeInfo i).alloc u).run p with
  | ok a q =>
    obtain ⟨res, inst, v⟩ := a
    cases hrun' : ((r.typeInfo i).alloc u').run p with
    | ok a' q' =>
      obtain ⟨res', inst', v'⟩ := a'
      rw [hrun, hrun'] at hu
      cases hu
      exact .inl ⟨res, inst, v, v', q, rfl, rfl⟩
    | error e q' =>
      rw [hrun, hrun'] at hu
      cases hu
  | error e q =>
    cases hrun' : ((r.typeInfo i).alloc u').run p with
    | ok a' q' =>
      rw [hrun, hrun'] at hu
      cases hu
    | error e' q' =>
      rw [hrun, hrun'] at hu
      cases hu
      exact .inr ⟨e, q, rfl, rfl⟩

/-! ## Two trials -/

/-- Two trials that have generated the same arguments from the same bits, with `rest` to come. -/
structure Alike (r : Runner I σ n) (rest : List (Fin n)) (s t : RunState R I σ n) : Prop where
  prng : s.prng = t.prng
  args : s.trial.getArgs = t.trial.getArgs
  env : ∀ i ∈ rest, r.autoshrinks i = true → ∃ a b,
    (s.trial.args i).env = some (autoshrinkAllocEnv a i (r.typeInfo i).autoshrinkConfig) ∧
    (t.trial.args i).env = some (autoshrinkAllocEnv b i (r.typeInfo i).autoshrinkConfig)

/-- What `theft_autoshrink_alloc` makes of the run of its callback. -/
def autoshrinkAllocated {β : Type} (x : AutoState R) (pool : BitPool) :
    EStateM.Result Stop (Prng R) (AllocRes × β) →
    EStateM.Result Stop (AutoState R) (AllocRes × Option β)
  | .ok (ares, res) q => .ok (ares, some res)
      ⟨q.stopUsingBitPool, x.ledger.acquirePool,
        { x.env with bitPool := some (q.bitPool.getD (pool.setShrinking false)) }⟩
  | .error e q => .error e ⟨q, x.ledger.acquirePool, { x.env with bitPool := some pool }⟩

theorem autoshrinkAlloc_run {β : Type} (alloc : Gen (AllocRes × β)) (x : AutoState R) :
    autoshrinkAlloc alloc x =
      match allocBitPool x.ledger.nextId (getDef x.env.poolSize defPoolSize)
        (getDef x.env.poolLimit defPoolLimit) defRequestsCeil with
      | none => .ok (.error, none) x
      | some pool => autoshrinkAllocated x pool
          (alloc.run (x.prng.injectBitPool (pool.setShrinking false))) := by
  unfold autoshrinkAlloc
  rw [bind_apply, get_apply]
  dsimp only
  cases allocBitPool x.ledger.nextId (getDef x.env.poolSize defPoolSize)
      (getDef x.env.poolLimit defPoolLimit) defRequestsCeil with
  | none => rfl
  | some pool =>
    simp only [bind_apply, set_apply, allocFromBitPool, modify_apply, zoom]
    cases alloc.run (x.prng.injectBitPool (pool.setShrinking false)) <;> rfl

omit [Platform R] in
theorem allocBitPool_at (id id' size limit requestCeil : Nat) :
    allocBitPool id' size limit requestCeil =
      (allocBitPool id size limit requestCeil).map (·.at id') := by
  unfold allocBitPool
  dsimp only
  split <;> rfl

/-- The pools are at different addresses, and the callbacks read the same bits. -/
theorem autoshrinkAlloc_alike (h : AllocsAre r.typeInfo allocs) (i : Fin n) (u u' : σ)
    {x y : AutoState R} (hprng : x.prng = y.prng)
    (hx : x.env.poolSize = y.env.poolSize) (hy : x.env.poolLimit = y.env.poolLimit) :
    (∃ res inst v v' x' y', autoshrinkAlloc ((r.typeInfo i).alloc u) x = .ok (res, some (inst, v)) x' ∧
      autoshrinkAlloc ((r.typeInfo i).alloc u') y = .ok (res, some (inst, v')) y' ∧
      x'.prng = y'.prng) ∨
    (∃ x' y', autoshrinkAlloc ((r.typeInfo i).alloc u) x = .ok (.error, none) x' ∧
      autoshrinkAlloc ((r.typeInfo i).alloc u') y = .ok (.error, none) y' ∧ x'.prng = y'.prng) ∨
    ∃ e x' y', autoshrinkAlloc ((r.typeInfo i).alloc u) x = .error e x' ∧
      autoshrinkAlloc ((r.typeInfo i).alloc u') y = .error e y' := by
  rw [autoshrinkAlloc_run, autoshrinkAlloc_run, hx, hy,
    allocBitPool_at x.ledger.nextId y.ledger.nextId]
  cases allocBitPool x.ledger.nextId (getDef y.env.poolSize defPoolSize)
      (getDef y.env.poolLimit defPoolLimit) defRequestsCeil with
  | none => exact .inr (.inl ⟨x, y, rfl, rfl, hprng⟩)
  | some pool =>
    have hinject : y.prng.injectBitPool ((pool.at y.ledger.nextId).setShrinking false) =
        (x.prng.injectBitPool (pool.setShrinking false)).at y.ledger.nextId := by
      rw [hprng]
      rfl
    rw [Option.map_some]
    dsimp only
    rw [hinject, run_at y.ledger.nextId _ _ rfl]
    obtain ⟨res, inst, v, v', q, hv, hv'⟩ | ⟨e, q, hv, hv'⟩ :=
      h.same i u u' (x.prng.injectBitPool (pool.setShrinking false))
    · rw [hv, hv']
      exact .inl ⟨res, inst, v, v', _, _, rfl, rfl, rfl⟩
    · rw [hv, hv']
      exact .inr (.inr ⟨e, _, _, rfl, rfl⟩)

omit [Platform R] in
/-- The states after one argument was generated. -/
theorem Alike.next {rest : List (Fin n)} {i : Fin n} {s t s' t' : RunState R I σ n}
    (h : Alike r (i :: rest) s t) (hi : i ∉ rest) (hprng : s'.prng = t'.prng)
    (hs : ∀ j, (s'.trial.args j).inst = (s.trial.args j).inst ∧
      (j ≠ i → s'.trial.args j = s.trial.args j))
    (ht : ∀ j, (t'.trial.args j).inst = (t.trial.args j).inst ∧
      (j ≠ i → t'.trial.args j = t.trial.args j)) : Alike r rest s' t' where
  prng := hprng
  args := by
    funext j
    rw [TrialInfo.getArgs, TrialInfo.getArgs, (hs j).1, (ht j).1]
    exact congrFun h.args j
  env := by
    intro j hj
    have hji : j ≠ i := by
      rintro rfl
      exact hi hj
    rw [(hs j).2 hji, (ht j).2 hji]
    exact h.env j (List.mem_cons_of_mem _ hj)

theorem allocBasic_alike (h : AllocsAre r.typeInfo allocs) {rest : List (Fin n)} {i : Fin n}
    {s t : RunState R I σ n} (hst : Alike r (i :: rest) s t) (hi : i ∉ rest) :
    (∃ a s' t', allocBasic i (r.typeInfo i).alloc s = .ok a s' ∧
      allocBasic i (r.typeInfo i).alloc t = .ok a t' ∧ Alike r rest s' t') ∨
    ∃ e s' t', allocBasic i (r.typeInfo i).alloc s = .error e s' ∧
      allocBasic i (r.typeInfo i).alloc t = .error e t' ∧
      s'.trial.getArgs = t'.trial.getArgs := by
  have hmap : ∀ (u : σ) (p : Prng R), ((r.typeInfo i).alloc u).apart.run p =
      mapResult (fun a => ((a.1, a.2.1), a.2.2)) (((r.typeInfo i).alloc u).run p) :=
    fun u p => run_map _ _ p
  obtain ⟨res, inst, v, v', q, hv, hv'⟩ | ⟨e, q, hv, hv'⟩ := h.same i s.user t.user s.prng
  · have hs := hmap s.user s.prng
    have ht := hmap t.user t.prng
    rw [hv] at hs
    rw [← hst.prng, hv', hst.prng] at ht
    exact .inl ⟨(res, inst), _, _, allocBasic_ok hs, allocBasic_ok ht,
      hst.next hi rfl (fun _ => ⟨rfl, fun _ => rfl⟩) fun _ => ⟨rfl, fun _ => rfl⟩⟩
  · have hs := hmap s.user s.prng
    have ht := hmap t.user t.prng
    rw [hv] at hs
    rw [← hst.prng, hv', hst.prng] at ht
    exact .inr ⟨e, _, _, allocBasic_error hs, allocBasic_error ht, hst.args⟩

omit [Platform R] in
/-- A step on the environment of an argument does not exchange the argument. -/
theorem zoomEnv_inst {i : Fin n} {s : RunState R I σ n} {x : AutoState R} (j : Fin n) :
    ((s.trial.modifyArg i fun a => { a with env := some x.env }).args j).inst =
        (s.trial.args j).inst ∧
      (j ≠ i → (s.trial.modifyArg i fun a => { a with env := some x.env }).args j =
        s.trial.args j) := by
  by_cases hji : j = i
  · subst hji
    rw [modifyArg_same]
    exact ⟨rfl, fun h => absurd rfl h⟩
  · rw [modifyArg_other _ hji]
    exact ⟨rfl, fun _ => rfl⟩

theorem allocAutoshrink_alike (h : AllocsAre r.typeInfo allocs) {rest : List (Fin n)} {i : Fin n}
    {s t : RunState R I σ n} (hst : Alike r (i :: rest) s t) (hi : i ∉ rest)
    (henable : r.autoshrinks i = true) :
    (∃ a s' t', allocAutoshrink r i s = .ok a s' ∧ allocAutoshrink r i t = .ok a t' ∧
      Alike r rest s' t') ∨
    ∃ e s' t', allocAutoshrink r i s = .error e s' ∧ allocAutoshrink r i t = .error e t' ∧
      s'.trial.getArgs = t'.trial.getArgs := by
  obtain ⟨a, b, ha, hb⟩ := hst.env i List.mem_cons_self henable
  have hargs : ∀ x y : AutoState R,
      (s.trial.modifyArg i fun a => { a with env := some x.env }).getArgs =
        (t.trial.modifyArg i fun a => { a with env := some y.env }).getArgs := by
    intro x y
    funext j
    simp only [TrialInfo.getArgs, (zoomEnv_inst j).1]
    exact congrFun hst.args j
  unfold allocAutoshrink
  simp only [bind_apply, get_apply, ha, hb, zoomEnv, zoom, Option.getD_some]
  obtain ⟨res, inst, v, v', x, y, hx, hy, hprng⟩ | ⟨x, y, hx, hy, hprng⟩ | ⟨e, x, y, hx, hy⟩ :=
    autoshrinkAlloc_alike h i s.user t.user
      (x := ⟨s.prng, s.ledger, autoshrinkAllocEnv a i (r.typeInfo i).autoshrinkConfig⟩)
      (y := ⟨t.prng, t.ledger, autoshrinkAllocEnv b i (r.typeInfo i).autoshrinkConfig⟩)
      hst.prng rfl rfl
  · rw [hx, hy]
    exact .inl ⟨(res, inst), _, _, rfl, rfl,
      hst.next hi hprng (fun j => zoomEnv_inst j) fun j => zoomEnv_inst j⟩
  · rw [hx, hy]
    exact .inl ⟨(.error, none), _, _, rfl, rfl,
      hst.next hi hprng (fun j => zoomEnv_inst j) fun j => zoomEnv_inst j⟩
  · rw [hx, hy]
    exact .inr ⟨e, _, _, rfl, rfl, hargs x y⟩

theorem genArg_alike (h : AllocsAre r.typeInfo allocs) {rest : List (Fin n)} {i : Fin n}
    {s t : RunState R I σ n} (hst : Alike r (i :: rest) s t) (hi : i ∉ rest) :
    (∃ a s' t', genArg r i s = .ok a s' ∧ genArg r i t = .ok a t' ∧ Alike r rest s' t') ∨
    ∃ e s' t', genArg r i s = .error e s' ∧ genArg r i t = .error e t' ∧
      s'.trial.getArgs = t'.trial.getArgs := by
  unfold genArg
  by_cases henable : r.autoshrinks i = true
  · rw [if_pos henable]
    exact allocAutoshrink_alike h hst hi henable
  · rw [if_neg henable]
    exact allocBasic_alike h hst hi

omit [Platform R] in
/-- The argument is stored in both trials. -/
theorem Alike.setInst {rest : List (Fin n)} {i : Fin n} {s t : RunState R I σ n}
    (h : Alike r rest s t) (hi : i ∉ rest) (inst : Option I) :
    Alike r rest (s.withInst i inst) (t.withInst i inst) where
  prng := h.prng
  args := by
    funext j
    by_cases hji : j = i
    · subst hji
      simp only [TrialInfo.getArgs, RunState.withInst, modifyArg_same]
    · simp only [TrialInfo.getArgs, RunState.withInst, modifyArg_other _ hji]
      exact congrFun h.args j
  env := by
    intro j hj
    have hji : j ≠ i := by
      rintro rfl
      exact hi hj
    simp only [RunState.withInst, modifyArg_other _ hji]
    exact h.env j hj

theorem genArg_types (htypes : r'.typeInfo = r.typeInfo) (i : Fin n) :
    (genArg r' i : Run R I σ n _) = genArg r i := by
  unfold genArg allocAutoshrink
  rw [htypes]

/-- Looking for duplicates exchanges no argument. -/
theorem genAllArgs_nil (r : Runner I σ n) :
    Effect (Asked [.hash]) (genAllArgs r [] : Run R I σ n AllGenRes) := by
  apply Effect.bind Effect.get
  intro s
  split
  · apply Effect.bind (Asked.callCheckCalled List.mem_cons_self r)
    intro found
    split <;> exact Effect.pure _
  · exact Effect.pure _

/-- **Trials that start from the same bits generate the same arguments.** -/
theorem genAllArgs_alike (h : AllocsAre r.typeInfo allocs) (htypes : r'.typeInfo = r.typeInfo)
    (rest : List (Fin n)) : rest.Nodup → ∀ s t : RunState R I σ n, Alike r rest s t →
    (final (genAllArgs r rest) s).trial.getArgs = (final (genAllArgs r' rest) t).trial.getArgs := by
  induction rest with
  | nil =>
    intro _ s t hst
    rw [((genAllArgs_nil r).change s).trial, ((genAllArgs_nil r').change t).trial]
    exact hst.args
  | cons i rest ih =>
    intro hnodup s t hst
    obtain ⟨hi, hrest⟩ := List.nodup_cons.mp hnodup
    unfold final genAllArgs
    rw [bind_apply, bind_apply, genArg_types htypes]
    obtain ⟨⟨ares, inst⟩, s', t', hs', ht', hst'⟩ | ⟨e, s', t', hs', ht', hargs⟩ :=
      genArg_alike h hst hi
    · rw [hs', ht']
      cases ares with
      | ok => exact ih hrest _ _ (hst'.setInst hi inst)
      | skip => exact hst'.args
      | error => exact hst'.args
    · rw [hs', ht']
      exact hargs

/-! ## The arguments of a trial -/

/-- Trial `k` of the run has the seed `w` and generated the arguments `args`, as far as it did. -/
inductive Generates (fuel : Nat) (r : Runner I σ n) (s₀ : RunState R I σ n) (k : Nat) (w : Word)
    (args : Args I n) : Prop where
  | mk {seed s t₁ t₂} : TrialAt fuel r s₀ k seed s → k < r.trialCount → w = stepSeed r k seed →
      initArgInfo r (List.finRange n) { s with trial := .start k w } = .ok true t₁ →
      genArgsPreHook r t₁ = .ok .cont t₂ →
      args = (final (genAllArgs r (List.finRange n))
        { t₂ with prng := t₂.prng.setSeed w }).trial.getArgs →
      Generates fuel r s₀ k w args

omit [Platform R] in
theorem equip_getArgs (s : RunState R I σ n) (r : Runner I σ n) (i : Fin n) :
    (s.equip r i).trial.getArgs = s.trial.getArgs := by
  funext j
  exact (zoomEnv_inst (x := ⟨s.prng, s.ledger,
    autoshrinkAllocEnv s.ledger.nextId i (r.typeInfo i).autoshrinkConfig⟩) j).1

omit [Platform R] in
theorem initArgInfo_getArgs (rest : List (Fin n)) {s t : RunState R I σ n} {equipped : Bool}
    (h : initArgInfo r rest s = .ok equipped t) : t.trial.getArgs = s.trial.getArgs := by
  have hkeeps : Effect (Keeping fun t : RunState R I σ n => t.trial.getArgs = s.trial.getArgs)
      (initArgInfo r rest) := initArgInfo_effect (fun t i ht => (equip_getArgs t r i).trans ht) _
  exact hkeeps.of_returned h rfl

/-- Two trials with the same seed are set up alike. -/
theorem Alike.start (htypes : r'.typeInfo = r.typeInfo) {s t₁ t₂ s' t₁' t₂' : RunState R I σ n}
    {k k' : Nat} {w : Word}
    (hinit : initArgInfo r (List.finRange n) { s with trial := .start k w } = .ok true t₁)
    (hhook : genArgsPreHook r t₁ = .ok .cont t₂)
    (hinit' : initArgInfo r' (List.finRange n) { s' with trial := .start k' w } = .ok true t₁')
    (hhook' : genArgsPreHook r' t₁' = .ok .cont t₂') :
    Alike r (List.finRange n) { t₂ with prng := t₂.prng.setSeed w }
      { t₂' with prng := t₂'.prng.setSeed w } := by
  have htrial : t₂.trial = t₁.trial := (Effect.of_returned
    (Asked.genArgsPreHook (K := [.genArgsPre]) List.mem_cons_self r) hhook).trial
  have htrial' : t₂'.trial = t₁'.trial := (Effect.of_returned
    (Asked.genArgsPreHook (K := [.genArgsPre]) List.mem_cons_self r') hhook').trial
  obtain ⟨-, -, -, henv⟩ := initArgInfo_run _ hinit
  obtain ⟨-, -, -, henv'⟩ := initArgInfo_run _ hinit'
  refine ⟨rfl, ?_, ?_⟩
  · dsimp only
    rw [htrial, htrial', initArgInfo_getArgs _ hinit, initArgInfo_getArgs _ hinit']
    rfl
  · intro i hi henable
    have henable' : r'.autoshrinks i = true := by
      rw [Runner.autoshrinks, htypes]
      exact henable
    obtain ⟨a, ha⟩ := henv i hi henable
    obtain ⟨b, hb⟩ := henv' i hi henable'
    dsimp only
    rw [htrial, htrial', ha, hb, htypes]
    exact ⟨a, b, rfl, rfl⟩

/-- Trials with the same seed and the same types have the same arguments. -/
theorem Generates.same {fuel fuel' : Nat} {s₀ s₀' : RunState R I σ n} {k k' : Nat} {w : Word}
    {args args' : Args I n} (halloc : AllocsAre r.typeInfo allocs)
    (htypes : r'.typeInfo = r.typeInfo) (h : Generates fuel r s₀ k w args)
    (h' : Generates fuel' r' s₀' k' w args') : args' = args := by
  obtain ⟨-, -, -, hinit, hhook, rfl⟩ := h
  obtain ⟨-, -, -, hinit', hhook', rfl⟩ := h'
  exact (genAllArgs_alike halloc htypes _ (List.nodup_finRange n) _ _
    (.start htypes hinit hhook hinit' hhook')).symm

/-- Without seeds to run always, the first trial has the seed of the run. -/
theorem Generates.first_seed {fuel : Nat} {s₀ : RunState R I σ n} {w : Word} {args : Args I n}
    (halways : r.alwaysSeeds = []) (h : Generates fuel r s₀ 0 w args) : w = r.runSeed := by
  obtain ⟨hs, -, rfl, -⟩ := h
  cases hs with
  | first =>
    have hlength : r.alwaysSeeds.length = 0 := by rw [halways]; rfl
    rw [stepSeed, dif_neg (by omega), if_neg (by omega)]

/-- A trial without a hook before it and with memory for its environments generates arguments. -/
theorem TrialAt.generates {fuel k : Nat} {s₀ s : RunState R I σ n} {seed : Word}
    (h : TrialAt fuel r s₀ k seed s) (hk : k < r.trialCount)
    (hroom : r.RoomFor s.ledger.nextId (List.finRange n)) (hgen : r.hooks.genArgsPre = none) :
    ∃ args, Generates fuel r s₀ k (stepSeed r k seed) args := by
  obtain ⟨t, hinit⟩ := initArgInfo_equipped (r := r) (List.finRange n)
    { s with trial := .start k (stepSeed r k seed) }
  rw [decide_eq_true hroom] at hinit
  have hhook : genArgsPreHook r t = .ok .cont t := by
    rw [genArgsPreHook, bind_apply, get_apply, hgen]
    rfl
  exact ⟨_, h, hk, rfl, hinit, hhook, rfl⟩

/-- The first trial of a run without hooks before it, with memory for its environments. -/
theorem Generates.first {fuel : Nat} {s₀ : RunState R I σ n} (htrials : 0 < r.trialCount)
    (hroom : r.RoomFor s₀.ledger.nextId (List.finRange n)) (halways : r.alwaysSeeds = [])
    (hpre : r.hooks.runPre = none) (hgen : r.hooks.genArgsPre = none) :
    ∃ args, Generates fuel r s₀ 0 r.runSeed args := by
  have hlength : r.alwaysSeeds.length = 0 := by rw [halways]; rfl
  have hs : TrialAt fuel r s₀ 0 r.runSeed s₀ := .first (by rw [runPreHook, hpre]; rfl)
  have hseed : stepSeed r 0 r.runSeed = r.runSeed := by
    rw [stepSeed, dif_neg (by omega), if_neg (by omega)]
  have h := hs.generates htrials hroom hgen
  rwa [hseed] at h

/-- **A reported trial seed gives the arguments of the trial again.** -/
theorem trial_seed_reproduces {memory memory' : Memory} {cfg cfg' : Config I σ n}
    {user user' : σ} {s₀ s₀' : RunState R I σ n} {fuel k : Nat} {w : Word} {args : Args I n}
    (hinit : runInit memory cfg user = some (r, s₀))
    (hinit' : runInit memory' cfg' user' = some (r', s₀'))
    (halloc : AllocsAre cfg.typeInfo allocs) (h : Generates fuel r s₀ k w args)
    (htypes : cfg'.typeInfo = cfg.typeInfo) (hseed : cfg'.seed = w)
    (halways : cfg'.alwaysSeeds = []) (hw : w ≠ 0) :
    (∀ fuel' w' args', Generates fuel' r' s₀' 0 w' args' → w' = w ∧ args' = args) ∧
    (r'.RoomFor 0 (List.finRange n) → cfg'.hooks.runPre = none → cfg'.hooks.genArgsPre = none →
      ∀ fuel', Generates fuel' r' s₀' 0 w args) := by
  have hstart := runInit_started hinit
  have hstart' := runInit_started hinit'
  have htypes' : r'.typeInfo = r.typeInfo := by
    rw [hstart'.typeInfo, htypes, hstart.typeInfo]
  have hrunSeed : r'.runSeed = w := by
    rw [hstart'.runSeed, hseed, if_pos hw]
  have hnone : r'.alwaysSeeds = [] := hstart'.alwaysSeeds.trans halways
  rw [← hstart.typeInfo] at halloc
  have same : ∀ fuel' w' args', Generates fuel' r' s₀' 0 w' args' → w' = w ∧ args' = args := by
    intro fuel' w' args' h'
    have hw' : w' = w := (h'.first_seed hnone).trans hrunSeed
    subst hw'
    exact ⟨rfl, h.same halloc htypes' h'⟩
  refine ⟨same, ?_⟩
  intro hroom hpre hgen fuel'
  have htrials : 0 < r'.trialCount := by
    rw [hstart'.trialCount]
    split
    · decide
    · omega
  rw [← hstart'.hooks] at hpre hgen
  obtain ⟨args', h'⟩ : ∃ args, Generates fuel' r' s₀' 0 r'.runSeed args :=
    Generates.first htrials (by rwa [hstart'.ledger]) hnone hpre hgen
  rw [hrunSeed] at h'
  obtain ⟨-, rfl⟩ := same fuel' _ _ h'
  exact h'

end

/-! ## The seed 0 -/

/-- A random word that is not autoshrunk. -/
def wordType : TypeInfo Word Unit where
  alloc u := .bits 64 fun w => .ret (.ok, some w, u)
  free := none
  hash := none
  print := none
  shrink := none
  autoshrinkConfig := ⟨false, 0, ⟨false, false, false⟩, 0⟩

/-- One trial with the given seeds. -/
def oneWord (seed : Word) (alwaysSeeds : List Word) : Config Word Unit 1 where
  name := none
  prop := some fun _ u => .ret (.pass, u)
  typeInfo _ := wordType
  trials := 1
  seed := seed
  alwaysSeeds := alwaysSeeds
  hooks := ⟨none, none, none, none, none, none, none, none, none⟩

/-- The arguments that a trial of such a run generates from its seed. -/
def oneWordArgs (r : Runner Word Unit 1) (s : RunState Rng Word Unit 1) (w : Word) : Args Word 1 :=
  (final (genAllArgs r (List.finRange 1)) { s with
    trial := .start 0 w
    prng := s.prng.setSeed w }).trial.getArgs

theorem oneWord_generates (seed : Word) (alwaysSeeds : List Word) : ∃ r s₀,
    runInit ⟨false, granted, granted⟩ (oneWord seed alwaysSeeds) () = some (r, s₀) ∧
    ∀ w, w = stepSeed r 0 r.runSeed → Generates 1 r s₀ 0 w (oneWordArgs r s₀ w) := by
  refine ⟨_, _, rfl, ?_⟩
  rintro w rfl
  exact ⟨.first rfl, Nat.one_pos, rfl, rfl, rfl, rfl⟩

/-- A run with the configured seed 0 has the default seed, so a trial with the seed 0 is not
generated again. -/
theorem trial_seed_zero : ∃ r s₀ r' s₀', ∃ w' args args',
    runInit ⟨false, granted, granted⟩ (oneWord 1 [0]) () =
      some (r, (s₀ : RunState Rng Word Unit 1)) ∧
    runInit ⟨false, granted, granted⟩ (oneWord 0 []) () =
      some (r', (s₀' : RunState Rng Word Unit 1)) ∧
    Generates 1 r s₀ 0 0 args ∧ Generates 1 r' s₀' 0 w' args' ∧ args 0 ≠ args' 0 := by
  obtain ⟨r, s₀, hinit, hgen⟩ := oneWord_generates 1 [0]
  obtain ⟨r', s₀', hinit', hgen'⟩ := oneWord_generates 0 []
  refine ⟨r, s₀, r', s₀', _, _, _, hinit, hinit', hgen 0 ?_, hgen' defaultSeed ?_, ?_⟩
  all_goals cases hinit; cases hinit'
  · rfl
  · rfl
  · decide +kernel

/-- Two trials, with the seeds 9 and 5. -/
def secondSeed : Config Word Unit 1 := { oneWord 1 [9, 5] with trials := 2 }

theorem secondSeed_generates : ∃ r s₀ args,
    runInit ⟨false, granted, granted⟩ secondSeed () = some (r, (s₀ : RunState Rng Word Unit 1)) ∧
    Generates 1 r s₀ 1 5 args := by
  have hrun : (runInit (R := Rng) ⟨false, granted, granted⟩ secondSeed ()).any (fun a =>
      passes (fun res _ => decide (res.1 = .ok)) (runStep 1 a.1 0 a.1.runSeed a.2)) = true := by
    decide +kernel
  obtain ⟨⟨r, s₀⟩, hinit, hpass⟩ := (Option.any_eq_true _ _).mp hrun
  obtain ⟨⟨res, seed⟩, t, hstep, hpass⟩ := of_passes hpass
  obtain rfl := of_decide_eq_true hpass
  have hstart := runInit_started hinit
  have hseeds : r.alwaysSeeds = [9, 5] := hstart.alwaysSeeds
  have htrials : r.trialCount = 2 := hstart.trialCount
  have hpre : runPreHook r s₀ = .ok .cont s₀ := by
    rw [runPreHook, hstart.hooks]
    rfl
  have hs : TrialAt 1 r s₀ 1 seed t.wiped := .next (.first hpre) (by omega) hstep
  have hroom : r.RoomFor t.wiped.ledger.nextId (List.finRange 1) := fun _ _ => by
    rw [hstart.envMemory]
    rfl
  obtain ⟨args, h⟩ := hs.generates (by omega) hroom (by rw [hstart.hooks]; rfl)
  rw [stepSeed_always r (by rw [hseeds]; decide)] at h
  simp only [hseeds, List.getElem_cons_succ, List.getElem_cons_zero] at h
  exact ⟨r, s₀, args, hinit, h⟩

/-- The second of two trials is the only one of another run. -/
theorem trial_seed_reproduces_five : ∃ r s₀ args, ∃ r' s₀',
    runInit ⟨false, granted, granted⟩ secondSeed () = some (r, (s₀ : RunState Rng Word Unit 1)) ∧
    runInit ⟨false, granted, granted⟩ (oneWord 5 []) () =
      some (r', (s₀' : RunState Rng Word Unit 1)) ∧
    Generates 1 r s₀ 1 5 args ∧ Generates 1 r' s₀' 0 5 args := by
  obtain ⟨r, s₀, args, hinit, h⟩ := secondSeed_generates
  obtain ⟨r', s₀', hinit', -⟩ := oneWord_generates 5 []
  have halloc : AllocsAre secondSeed.typeInfo fun _ => .bits 64 fun w => .ret (.ok, some w) :=
    fun _ _ => rfl
  exact ⟨r, s₀, args, r', s₀', hinit, hinit', h,
    (trial_seed_reproduces hinit hinit' halloc h rfl rfl rfl (by decide)).2
      (by cases hinit'; decide) rfl rfl 1⟩

end Theft
