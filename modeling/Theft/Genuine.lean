import Theft.TrialStart

/-!
# Counter-examples are genuine

`counterexample_genuine`: from the first call that failed on, after every attempt to shrink an
argument and at the end of `theft_shrink`, the property fails on the arguments that the trial
holds, and each autoshrunk argument is what its callback makes of the pool it has.
-/

namespace Theft

open PackedBits Exec

section
variable {R I σ : Type} {n : Nat}

/-! ## Callbacks without a state of their own -/

/-- The `alloc` callbacks of autoshrunk arguments return what `allocs` does, whatever the state
of user code: they are functions of the random bits. -/
def AllocatesBy (r : Runner I σ n) (allocs : Fin n → Gen (AllocRes × Option I)) : Prop :=
  ∀ i, r.autoshrinks i = true → ∀ u,
    ((r.typeInfo i).alloc u).map (fun a => (a.1, a.2.1)) = allocs i

/-- The property is a function of its arguments. -/
def PropertyIs (r : Runner I σ n) (prop : Args I n → TrialRes) : Prop :=
  ∀ args u res u', (r.propFun args u).Returns (res, u') → res = prop args

theorem Played.map {α β : Type} {g : Gen α} {a : α} {pool : BitPool} (f : α → β)
    (h : Played g a pool) : Played (g.map f) (f a) pool := by
  constructor
  · rw [Gen.eval_map, ← h.result]
  · rw [Gen.demand_map]
    exact h.consumed

/-- The bits of a pool, and zeroes after its limit. -/
def poolBits (pool : BitPool) (i : Nat) : Bool := decide (i < pool.limit) && bitAt pool.bits i

/-- What a callback consumed of a pool, and what the pool would give it, are the same to it. -/
theorem Played.eval_poolBits {α : Type} {alloc : Gen α} {res : α} {pool : BitPool}
    (h : Played alloc res pool) : alloc.eval (poolBits pool) = res := by
  rw [h.result]
  refine (alloc.eval_congr fun i hi => ?_).1.symm
  have hconsumed := h.consumed
  by_cases hlt : i < pool.consumed
  · rw [consumedBits, poolBits, decide_eq_true hlt, decide_eq_true (by omega)]
  · rw [consumedBits, poolBits, decide_eq_false hlt, decide_eq_false (by omega), Bool.false_and]

/-- The property fails on the arguments, and the autoshrunk ones can be made again. -/
structure Genuine (r : Runner I σ n) (allocs : Fin n → Gen (AllocRes × Option I))
    (prop : Args I n → TrialRes) (s : RunState R I σ n) : Prop where
  fails : prop s.trial.getArgs = .fail
  replays : ∀ i, r.autoshrinks i = true → ∃ env pool, (s.trial.args i).env = some env ∧
    env.bitPool = some pool ∧ (allocs i).eval (poolBits pool) = (.ok, (s.trial.args i).inst)

theorem Generated.genuine {r : Runner I σ n} {allocs : Fin n → Gen (AllocRes × Option I)}
    (halloc : AllocatesBy r allocs) (hz : ∀ i, r.autoshrinks i = true → (allocs i).Zeroed)
    {prop : Args I n → TrialRes} {s : RunState R I σ n} (h : Generated r s)
    (hfails : prop s.trial.getArgs = .fail) : Genuine r allocs prop s where
  fails := hfails
  replays := by
    intro i henable
    obtain ⟨env, pool, u, u', ha, hplayed⟩ := h.fromPool i henable
    have hzeroed : ((r.typeInfo i).alloc u).Zeroed := by
      rw [← Gen.Zeroed.map, halloc i henable u]
      exact hz i henable
    have hmap := (hplayed hzeroed).map fun a => (a.1, a.2.1)
    rw [halloc i henable u] at hmap
    exact ⟨env, pool, ha.hasEnv, ha.hasPool, hmap.eval_poolBits⟩

variable {r : Runner I σ n} {allocs : Fin n → Gen (AllocRes × Option I)}
  {prop : Args I n → TrialRes}

/-- What holds of a state of `Failing`. -/
structure FailsOn (r : Runner I σ n) (prop : Args I n → TrialRes) (s : RunState R I σ n) :
    Prop where
  generated : Generated r s
  fails : prop s.trial.getArgs = .fail

theorem FailsOn.held {s t : RunState R I σ n} (h : FailsOn r prop s) (ht : Held r s t) :
    FailsOn r prop t :=
  ⟨h.generated.held ht, by rw [ht.getArgs]; exact h.fails⟩

/-- The argument that replaces another is made from its pool, if it is autoshrunk. -/
theorem Generated.exchange {s t : RunState R I σ n} (h : Generated r s) {argI : Fin n}
    {tactic : Nat} {inst : Option I} {copy : Option BitPool}
    (hoffered : Offered r argI (s.trial.args argI) tactic (.ok, inst, copy))
    (ht : Held r ((s.withInst argI inst).withPoolIf r argI copy) t) : Generated r t where
  ready := ht.ready
  fromPool := by
    intro i henable
    obtain ⟨env', pool', ha'⟩ := ht.ready.args i henable
    apply ArgInfo.FromPool.ofCore ?_ (ht.core i) ha'
    by_cases hi : i = argI
    · subst hi
      cases hoffered with
      | user hdisabled => rw [henable] at hdisabled; cases hdisabled
      | @replayed env pool copy _ u u' _ ha hvalid _ _ hplayed =>
        simp only [RunState.withPoolIf, if_pos henable, RunState.withPool, RunState.withInst,
          modifyArg_same]
        refine ⟨{ env with bitPool := some copy }, copy, u, u', ?_, hplayed⟩
        exact ⟨by rw [ha.hasEnv]; rfl, ha.unscheduled, ha.dropBits, ha.truncating, rfl, hvalid⟩
    · rw [exchange_other s hi]
      exact h.fromPool i henable

variable [Platform R]

/-- The states of a trial whose first call failed, after that call and after each attempt to
shrink an argument, other than one that ended in an error. -/
inductive Failing (r : Runner I σ n) : RunState R I σ n → Prop
  | called {s t₁ t₂ t₃ t₄ t₅ t₆ : RunState R I σ n} {trial : Nat} {seed : Word} : s.Idle r →
      initArgInfo r (List.finRange n) { s with trial := .start trial seed } = .ok true t₁ →
      genArgsPreHook r t₁ = .ok .cont t₂ →
      genAllArgs r (List.finRange n) { t₂ with prng := t₂.prng.setSeed seed } = .ok .ok t₃ →
      trialPreHook r trial seed t₃ = .ok .cont t₄ →
      markTrial r t₄ = .ok () t₅ →
      call r t₅.trial.getArgs false t₅ = .ok .fail t₆ → Failing r t₆
  | attempt {s t : RunState R I σ n} {fuel : Nat} {argI : Fin n} {res : AttemptRes} :
      Failing r s → r.shrinkable argI → attemptToShrinkArg fuel r argI s = .ok res t →
      res ≠ .error → Failing r t

/-- One attempt to shrink an argument. -/
theorem FailsOn.attempt (hr : r.Sized) (hprop : PropertyIs r prop) {s t : RunState R I σ n}
    (h : FailsOn r prop s) {fuel : Nat} {argI : Fin n}
    {res : AttemptRes} (hshrinkable : r.shrinkable argI)
    (hrun : attemptToShrinkArg fuel r argI s = .ok res t) (hres : res ≠ .error) :
    FailsOn r prop t := by
  have hspec := attemptToShrinkArg_spec hr h.generated.ready hshrinkable fuel
  obtain ⟨-, hheld⟩ | ⟨tactic, hattempted⟩ := hspec.returned rfl hrun
  · exact h.held hheld
  · cases hattempted with
    | halted hheld => exact h.held hheld
    | deadEnd hheld => exact h.held hheld
    | failed => exact absurd rfl hres
    | committed hoffered hheld hfails =>
      obtain ⟨u, u', hreturns⟩ := hfails
      exact ⟨h.generated.exchange hoffered hheld, (hprop _ _ _ _ hreturns).symm⟩

/-- The two loops of `theft_shrink`, from any argument on. -/
theorem FailsOn.shrinkFrom (hr : r.Sized) (hprop : PropertyIs r prop) (inner fuel : Nat) :
    ∀ {s t : RunState R I σ n} {argI : Nat} {progress : Bool},
    FailsOn r prop s → shrinkFrom inner r fuel argI progress s = .ok true t →
    FailsOn r prop t := by
  induction fuel with
  | zero =>
    intro s t argI progress _ hrun
    cases hrun
  | succ fuel ih =>
    intro s t argI progress h hrun
    rw [Theft.shrinkFrom] at hrun
    split at hrun
    · rename_i hlt
      split at hrun
      · rename_i hshrinkable
        obtain ⟨res, u, hattempt, hrest⟩ := bind_eq_ok.mp hrun
        have hu := fun hres => h.attempt hr hprop hshrinkable hattempt hres
        cases res with
        | ok => exact ih (hu (by decide)) hrest
        | deadEnd => exact ih (hu (by decide)) hrest
        | halt =>
          cases hrest
          exact hu (by decide)
        | error => cases hrest
      · exact ih h hrun
    · split at hrun
      · exact ih h hrun
      · cases hrun
        exact h

/-- The hook before the trial, and the mark, keep the generated arguments. -/
theorem trialPreHook_keeps {s₀ : RunState R I σ n} (trial : Nat) (seed : Word) :
    Keeps r s₀ (trialPreHook r trial seed) fun _ => True := by
  apply Keeps.bind Keeps.get
  intro s _
  exact Keeps.mono (Keeps.askHook _ _ _ _ _) fun _ _ => trivial

theorem markTrial_keeps {s₀ : RunState R I σ n} :
    Spec (Held r s₀) (markTrial r) (fun _ s => Held r s₀ s) fun e _ => e = .fuel := by
  apply Keeps.getThen
  rintro _ hs s rfl
  by_cases hbloom : s.bloom.isSome
  · rw [if_pos hbloom]
    have hmark := Keeps.callMarkCalled (r := r) (hs.bloom.symm.trans hbloom)
    exact Spec.mono hmark (fun _ h => h) (fun _ _ h => h.1) (fun _ _ h => h) s hs
  · rw [if_neg hbloom]
    exact hs

/-- After a first call that failed the arguments are as they were generated. -/
theorem called_generated (hr : r.Sized) {s t₁ t₂ t₃ t₄ t₅ t₆ : RunState R I σ n} {trial : Nat}
    {seed : Word} (hs : s.Idle r)
    (hinit : initArgInfo r (List.finRange n) { s with trial := .start trial seed } = .ok true t₁)
    (hgenPre : genArgsPreHook r t₁ = .ok .cont t₂)
    (hgen : genAllArgs r (List.finRange n) { t₂ with prng := t₂.prng.setSeed seed } = .ok .ok t₃)
    (htrialPre : trialPreHook r trial seed t₃ = .ok .cont t₄) (hmark : markTrial r t₄ = .ok () t₅)
    (hcall : call r t₅.trial.getArgs false t₅ = .ok .fail t₆) :
    Generated r t₆ ∧ ∃ u u', (r.propFun t₆.trial.getArgs u).Returns (.fail, u') := by
  have hprepared := prepared_start hs hinit hgenPre
  have h₃ := (genAllArgs_spec hr _ (List.nodup_finRange n)).returned hprepared hgen rfl
  have h₄ := ((trialPreHook_keeps trial seed).returned (.refl h₃.ready) htrialPre).1
  have h₅ := markTrial_keeps.returned h₄ hmark
  obtain ⟨h₆, u, u', hreturns⟩ := (Keeps.call hr _ false).returned h₅ hcall
  refine ⟨h₃.held h₆, u, u', ?_⟩
  rw [h₆.getArgs, ← h₅.getArgs]
  exact hreturns

/-- The first call of the trial, and every attempt after it. -/
theorem Failing.failsOn (hr : r.Sized) (hprop : PropertyIs r prop) {s : RunState R I σ n}
    (h : Failing r s) : FailsOn r prop s := by
  induction h with
  | called hs hinit hgenPre hgen htrialPre hmark hcall =>
    obtain ⟨hgenerated, u, u', hreturns⟩ :=
      called_generated hr hs hinit hgenPre hgen htrialPre hmark hcall
    exact ⟨hgenerated, (hprop _ _ _ _ hreturns).symm⟩
  | attempt _ hshrinkable hrun hres ih => exact ih.attempt hr hprop hshrinkable hrun hres

/-- **A reported counter-example is genuine.** -/
theorem counterexample_genuine (hr : r.Sized) (halloc : AllocatesBy r allocs)
    (hz : ∀ i, r.autoshrinks i = true → (allocs i).Zeroed) (hprop : PropertyIs r prop)
    {s : RunState R I σ n} (h : Failing r s) :
    Genuine r allocs prop s ∧
      ∀ fuel t, shrink fuel r s = .ok true t → Genuine r allocs prop t := by
  have hs := h.failsOn hr hprop
  refine ⟨hs.generated.genuine halloc hz hs.fails, ?_⟩
  intro fuel t hrun
  obtain ⟨_, u, hrequire, hloop⟩ := bind_eq_ok.mp hrun
  have hu : u = s := by
    unfold require at hrequire
    split at hrequire
    · cases hrequire
      rfl
    · cases hrequire
  subst hu
  have ht := hs.shrinkFrom hr hprop fuel fuel hloop
  exact ht.generated.genuine halloc hz ht.fails

end

/-! ## A number that cannot be shrunk -/

/-- A generator whose first word is all ones; every later one is zero. -/
instance burstPlatform : Platform Nat where
  rngReset _ := 0
  rngRandom k := (if k = 0 then BitVec.allOnes 64 else 0, k + 1)
  shiftBy64 _ w := w
  uninit _ := 0

/-- Three random bits, autoshrunk by at most one attempt in a row. -/
def threeBitsType : TypeInfo Word Unit where
  alloc u := .bits 3 fun w => .ret (.ok, some w, u)
  free := none
  hash := none
  print := none
  shrink := none
  autoshrinkConfig := ⟨true, 64, ⟨false, false, false⟩, 1⟩

/-- A property that fails on 7 only. -/
def notSeven (args : Args Word 1) : TrialRes := if args 0 = some 7 then .fail else .pass

def notSevenRunner : Runner Word Unit 1 where
  name := none
  propFun args u := .ret (notSeven args, u)
  trialCount := 1
  typeInfo _ := threeBitsType
  runSeed := 1
  alwaysSeeds := []
  hooks := ⟨none, none, none, none, none, none, none, none, none⟩
  filterMemory := granted
  envMemory := granted

def notSevenIdle : RunState Nat Word Unit 1 :=
  ⟨none, ⟨0, 0, 0, none⟩, ⟨0, []⟩, ⟨0, 0, 0, 0⟩, .start 0 0, (), []⟩

/-- The trial up to the result of `theft_shrink`. -/
def notSevenTrial : Run Nat Word Unit 1 (Bool × HookGenArgsPreRes × AllGenRes × HookTrialPreRes ×
    TrialRes × Bool) := do
  let equipped ← initArgInfo notSevenRunner (List.finRange 1)
  let pre ← genArgsPreHook notSevenRunner
  modify fun s => { s with prng := s.prng.setSeed 1 }
  let gres ← genAllArgs notSevenRunner (List.finRange 1)
  let tpre ← trialPreHook notSevenRunner 0 1
  markTrial notSevenRunner
  let s ← get
  let res ← call notSevenRunner s.trial.getArgs false
  let shrunk ← shrink 20 notSevenRunner
  return (equipped, pre, gres, tpre, res, shrunk)

theorem notSevenTrial_run : ∃ t, notSevenTrial { notSevenIdle with trial := .start 0 1 } =
    .ok (true, .cont, .ok, .cont, .fail, true) t := by
  have hrun : passes (fun a _ => decide (a = (true, .cont, .ok, .cont, .fail, true)))
      (notSevenTrial { notSevenIdle with trial := .start 0 1 }) = true := by decide +kernel
  obtain ⟨a, t, heq, ha⟩ := of_passes hrun
  exact ⟨t, by rw [heq, of_decide_eq_true ha]⟩

theorem counterexample_genuine_seven : ∃ s t : RunState Nat Word Unit 1, Failing notSevenRunner s ∧
    shrink 20 notSevenRunner s = .ok true t ∧
    Genuine notSevenRunner (fun _ => .bits 3 fun w => .ret (.ok, some w)) notSeven t := by
  obtain ⟨t, hrun⟩ := notSevenTrial_run
  obtain ⟨equipped, t₁, hinit, hrun⟩ := bind_eq_ok.mp hrun
  obtain ⟨pre, t₂, hpre, hrun⟩ := bind_eq_ok.mp hrun
  obtain ⟨_, t₃, hseed, hrun⟩ := bind_eq_ok.mp hrun
  obtain ⟨gres, t₄, hgen, hrun⟩ := bind_eq_ok.mp hrun
  obtain ⟨tpre, t₅, htpre, hrun⟩ := bind_eq_ok.mp hrun
  obtain ⟨_, t₆, hmark, hrun⟩ := bind_eq_ok.mp hrun
  obtain ⟨_, _, hget, hrun⟩ := bind_eq_ok.mp hrun
  cases hget
  obtain ⟨res, t₇, hcall, hrun⟩ := bind_eq_ok.mp hrun
  obtain ⟨shrunk, t₈, hshrink, hlast⟩ := bind_eq_ok.mp hrun
  cases hlast
  cases hseed
  have hidle : notSevenIdle.Idle notSevenRunner :=
    ⟨nofun, nofun⟩
  have hfailing : Failing notSevenRunner t₇ :=
    .called hidle hinit hpre hgen htpre hmark hcall
  have hsized : notSevenRunner.Sized :=
    ⟨fun _ _ _ => trivial, nofun, fun _ _ => trivial⟩
  have hprop : PropertyIs notSevenRunner notSeven := fun args u res u' h => congrArg Prod.fst h
  have halloc : AllocatesBy notSevenRunner fun _ => .bits 3 fun w => .ret (.ok, some w) :=
    fun _ _ _ => rfl
  refine ⟨t₇, t, hfailing, hshrink, ?_⟩
  exact (counterexample_genuine hsized halloc (fun _ _ _ => trivial) hprop hfailing).2 20 t hshrink

end Theft
