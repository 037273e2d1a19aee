import Theft.Lib.Exchanges
import Theft.RunProtocol
import Theft.ShrinkTermination

/-!
# What shrinking is for

`theft_shrink` as a search among arguments: one of them at a time is exchanged for another one that
its type offers for it, and that the property still fails with. `shrink_refines`: whatever hooks,
random bits and the bloom filter have to do with it, what `theft_shrink` finds is found by this
search.
-/

namespace Theft

open PackedBits Exec Exchanges Relation

section
variable {R I σ : Type} {n : Nat} {r : Runner I σ n} {s t : RunState R I σ n}

/-- An argument, as far as it matters to shrinking: the instance, and the bits that it is made of
when it is autoshrunk. -/
structure Specimen (I : Type) where
  inst : Option I
  bits : Option (List Bool)

/-- The bits in a pool. Past its limit there are zeroes. -/
def filledBits (pool : BitPool) : List Bool := (List.range pool.bitsFilled).map (poolBits pool)

def ArgInfo.specimen (autoshrunk : Bool) (a : ArgInfo I) : Specimen I where
  inst := a.inst
  bits := if autoshrunk then (a.env.bind AutoshrinkEnv.bitPool).map filledBits else none

/-- The arguments of a trial -/
def RunState.specimens (r : Runner I σ n) (s : RunState R I σ n) (i : Fin n) : Specimen I :=
  (s.trial.args i).specimen (r.autoshrinks i)

/-- What a type offers for an argument: what its `shrink` callback returns for it, or what `alloc`
makes of no more bits. -/
inductive Offers (r : Runner I σ n) (allocs : Fin n → Gen (AllocRes × Option I)) (i : Fin n) :
    Specimen I → Specimen I → Prop
  | shrunk {shrink inst tactic candidate u u'} : r.autoshrinks i = false →
      (r.typeInfo i).shrink = some shrink →
      (shrink inst tactic u).Returns (.ok, candidate, u') →
      Offers r allocs i ⟨inst, none⟩ ⟨candidate, none⟩
  | remade {inst bits candidate fewer} : r.autoshrinks i = true → fewer.length ≤ bits.length →
      (allocs i).eval (fun k => fewer.getD k false) = (.ok, candidate) →
      Offers r allocs i ⟨inst, some bits⟩ ⟨candidate, some fewer⟩

/-- The property fails. -/
def Fails (prop : Args I n → TrialRes) (args : Fin n → Specimen I) : Prop :=
  prop (fun i => (args i).inst) = .fail

/-! ## The arguments of a state -/

theorem ArgInfo.specimen_core (autoshrunk : Bool) (a : ArgInfo I) :
    a.core.specimen autoshrunk = a.specimen autoshrunk := by
  obtain ⟨inst, env⟩ := a
  cases env with
  | none => rfl
  | some env =>
    obtain ⟨_, _, _, _, _, _, _, _, _, pool, _⟩ := env
    cases pool <;> rfl

theorem Held.specimens (h : Held r s t) : t.specimens r = s.specimens r := by
  funext i
  unfold RunState.specimens
  rw [← ArgInfo.specimen_core, h.core i, ArgInfo.specimen_core]

theorem specimens_exchange (hs : s.Ready r) (argI : Fin n) (inst : Option I)
    (copy : Option BitPool) : ((s.withInst argI inst).withPoolIf r argI copy).specimens r =
      Function.update (s.specimens r) argI
        ⟨inst, if r.autoshrinks argI then copy.map filledBits else none⟩ := by
  funext i
  by_cases hi : i = argI
  · subst hi
    rw [Function.update_self]
    unfold RunState.specimens RunState.withPoolIf ArgInfo.specimen
    by_cases henable : r.autoshrinks i = true
    · obtain ⟨env, pool, ha⟩ := hs.args i henable
      simp only [if_pos henable, RunState.withPool, RunState.withInst, modifyArg_same, ha.hasEnv,
        Option.map_some, Option.bind_some]
    · simp only [if_neg henable, RunState.withInst, modifyArg_same]
  · rw [Function.update_of_ne hi, RunState.specimens, exchange_other _ hi, RunState.specimens]

theorem filledBits_getD (pool : BitPool) (k : Nat) :
    (filledBits pool).getD k false = (decide (k < pool.bitsFilled) && poolBits pool k) := by
  unfold filledBits
  by_cases hk : k < pool.bitsFilled
  · simp [hk]
  · simp [hk]

/-- A callback makes the same of the bits in a pool as of those that it consumed. -/
theorem Played.eval_filledBits {α : Type} {alloc : Gen α} {res : α} {pool : BitPool}
    (h : Played alloc res pool) (inv : pool.Inv) :
    alloc.eval (fun k => (filledBits pool).getD k false) = res := by
  rw [h.result]
  refine (alloc.eval_congr fun i hi => ?_).1.symm
  have hconsumed := h.consumed
  have hfilled := inv.consumed_le_filled
  rw [filledBits_getD]
  by_cases hlt : i < pool.consumed
  · rw [consumedBits, poolBits, decide_eq_true hlt, decide_eq_true (show i < pool.limit by omega),
      decide_eq_true (show i < pool.bitsFilled by omega), Bool.true_and, Bool.true_and]
  · rw [consumedBits, poolBits, decide_eq_false hlt,
      decide_eq_false (show ¬ i < pool.limit by omega), Bool.false_and, Bool.and_false]

/-! ## One attempt -/

variable {allocs : Fin n → Gen (AllocRes × Option I)} {prop : Args I n → TrialRes}

/-- What a shrinking step answers is on offer. -/
theorem Offered.offers (halloc : AllocatesBy r allocs)
    (hz : ∀ i, r.autoshrinks i = true → (allocs i).Zeroed) {argI : Fin n} {tactic : Nat}
    {inst : Option I} {copy : Option BitPool}
    (h : Offered r argI (s.trial.args argI) tactic (.ok, inst, copy)) :
    Offers r allocs argI (s.specimens r argI)
      ⟨inst, if r.autoshrinks argI then copy.map filledBits else none⟩ := by
  unfold RunState.specimens ArgInfo.specimen
  cases h with
  | @replayed env pool copy _ u u' henable ha hvalid hle _ hplayed =>
    have hzeroed : ((r.typeInfo argI).alloc u).Zeroed := by
      rw [← Gen.Zeroed.map, halloc argI henable u]
      exact hz argI henable
    have hmap := (hplayed hzeroed).map fun a => (a.1, a.2.1)
    rw [halloc argI henable u] at hmap
    simp only [if_pos henable, ha.hasEnv, Option.bind_some, ha.hasPool, Option.map_some]
    refine .remade henable ?_ (hmap.eval_filledBits hvalid.inv)
    simpa [filledBits] using hle
  | user hdisabled hshrink hreturns =>
    simp only [hdisabled, Bool.false_eq_true, if_false]
    exact .shrunk hdisabled hshrink hreturns

variable [Platform R]

theorem FailsOn.exchanges (hr : r.Sized) (hprop : PropertyIs r prop)
    (halloc : AllocatesBy r allocs) (hz : ∀ i, r.autoshrinks i = true → (allocs i).Zeroed)
    (h : FailsOn r prop s) {fuel : Nat} {argI : Fin n} {res : AttemptRes}
    (hshrinkable : r.shrinkable argI) (hrun : attemptToShrinkArg fuel r argI s = .ok res t)
    (hres : res ≠ .error) :
    Found (Offers r allocs) (Fails prop) (s.specimens r) (t.specimens r) := by
  have hready := h.generated.ready
  have hspec := attemptToShrinkArg_spec hr hready hshrinkable fuel
  have hfails := (h.attempt hr hprop hshrinkable hrun hres).fails
  obtain ⟨-, hheld⟩ | ⟨tactic, hattempted⟩ := hspec.returned rfl hrun
  · rw [hheld.specimens]
  · cases hattempted with
    | halted hheld => rw [hheld.specimens]
    | deadEnd hheld => rw [hheld.specimens]
    | failed => exact absurd rfl hres
    | committed hoffered hheld =>
      have hspecimens := hheld.specimens.trans (specimens_exchange hready argI _ _)
      have hkept : Fails prop (t.specimens r) := hfails
      rw [hspecimens] at hkept ⊢
      exact .single (.exchange (hoffered.offers halloc hz) hkept)

/-- The two loops of `theft_shrink`, from any argument on -/
theorem shrinkFrom_finds (hr : r.Sized) (hprop : PropertyIs r prop)
    (halloc : AllocatesBy r allocs) (hz : ∀ i, r.autoshrinks i = true → (allocs i).Zeroed)
    (inner fuel : Nat) : ∀ {s : RunState R I σ n} {argI : Nat} {progress : Bool},
    FailsOn r prop s → shrinkFrom inner r fuel argI progress s = .ok true t →
    Found (Offers r allocs) (Fails prop) (s.specimens r) (t.specimens r) := by
  induction fuel with
  | zero =>
    intro s argI progress _ hrun
    cases hrun
  | succ fuel ih =>
    intro s argI progress h hrun
    rw [Theft.shrinkFrom] at hrun
    split at hrun
    · split at hrun
      · rename_i hshrinkable
        obtain ⟨res, u, hattempt, hrest⟩ := bind_eq_ok.mp hrun
        have hu := fun hres => h.attempt hr hprop hshrinkable hattempt hres
        have hfound := fun hres => h.exchanges hr hprop halloc hz hshrinkable hattempt hres
        cases res with
        | ok => exact (hfound (by decide)).trans (ih (hu (by decide)) hrest)
        | deadEnd => exact (hfound (by decide)).trans (ih (hu (by decide)) hrest)
        | halt =>
          cases hrest
          exact hfound (by decide)
        | error => cases hrest
      · exact ih h hrun
    · split at hrun
      · exact ih h hrun
      · cases hrun
        exact .refl

/-- An autoshrunk argument is made of no more bits. -/
def NoLonger (x y : Specimen I) : Prop :=
  ∀ bits, x.bits = some bits → ∃ fewer, y.bits = some fewer ∧ fewer.length ≤ bits.length

instance noLonger_preorder : IsPreorder (Specimen I) NoLonger where
  refl _ bits hbits := ⟨bits, hbits, Nat.le_refl _⟩
  trans _ _ _ hxy hyz bits hbits := by
    obtain ⟨fewer, hfewer, hle⟩ := hxy bits hbits
    obtain ⟨fewest, hfewest, hle'⟩ := hyz fewer hfewer
    exact ⟨fewest, hfewest, Nat.le_trans hle' hle⟩

omit [Platform R] in
theorem Offers.noLonger {i : Fin n} {x y : Specimen I} (h : Offers r allocs i x y) :
    NoLonger x y := by
  cases h with
  | shrunk => exact fun _ => nofun
  | remade _ hle _ =>
    intro bits hbits
    cases hbits
    exact ⟨_, rfl, hle⟩

/-- **`theft_shrink` finds what the search finds.** In every trial of a run, the arguments that it
ends with are reached from those of the trial by exchanging one at a time for what its type offers
for it; the property fails on all of them. Each one has come its own way, and an autoshrunk one is
made of no more bits than at first. -/
theorem shrink_refines {memory : Memory} {cfg : Config I σ n} {user : σ}
    {s₀ : RunState R I σ n} {fuel fuel' : Nat} (hinit : runInit memory cfg user = some (r, s₀))
    (hr : r.Sized) (hprop : PropertyIs r prop) (halloc : AllocatesBy r allocs)
    (hz : ∀ i, r.autoshrinks i = true → (allocs i).Zeroed) (hcalls : CallsShrink fuel r s₀ s)
    (hrun : shrink fuel' r s = .ok true t) :
    Found (Offers r allocs) (Fails prop) (s.specimens r) (t.specimens r) ∧
    Fails prop (t.specimens r) ∧
    ∀ i, ReflTransGen (Offers r allocs i) (s.specimens r i) (t.specimens r i) ∧
      NoLonger (s.specimens r i) (t.specimens r i) := by
  have hfails := hcalls.failsOn hinit hr hprop
  have hloop : shrinkFrom fuel' r fuel' 0 false s = .ok true t := by
    rw [shrink, require, if_pos (Nat.pos_of_ne_zero (runInit_started hinit).arity)] at hrun
    exact hrun
  have hfound := shrinkFrom_finds hr hprop halloc hz fuel' fuel' hfails hloop
  exact ⟨hfound, hfound.kept hfails.fails, fun i => ⟨hfound.member i,
    hfound.respects fun _ _ hoffered => hoffered.noLonger⟩⟩

end

/-- What the property of the countdown says -/
def threeOrMore (args : Args Nat 1) : TrialRes := if (args 0).any (3 ≤ ·) then .fail else .pass

/-- Five is shrunk to three. -/
theorem countdown_refines : ∃ r s₀ s t,
    runInit ⟨false, granted, granted⟩ countdown () = some (r, s₀) ∧
    CallsShrink 0 r s₀ s ∧ shrink 9 r s = .ok true (t : RunState Nat Nat Unit 1) ∧
    ReflTransGen (Offers r (fun _ => .ret (.ok, none)) 0) ⟨some 5, none⟩ ⟨some 3, none⟩ := by
  obtain ⟨r, s₀, hinit⟩ : ∃ r s₀,
      runInit (R := Nat) ⟨false, granted, granted⟩ countdown () = some (r, s₀) := ⟨_, _, rfl⟩
  have hplain : ∀ i, r.autoshrinks i = false := by
    cases hinit
    exact fun _ => rfl
  have hsized : r.Sized := by
    cases hinit
    exact ⟨fun _ _ => trivial, fun _ _ h => (by cases h; exact fun _ _ _ => trivial),
      fun _ _ => trivial⟩
  have hprop : PropertyIs r threeOrMore := by
    cases hinit
    exact fun _ _ _ _ h => congrArg Prod.fst h
  have hrun : passes (fun a u => decide (a = (true, .cont, .ok, .cont, .fail) ∧
      (u.trial.args 0).inst = some 5) &&
      passes (fun done v => decide (done = true ∧ (v.trial.args 0).inst = some 3)) (shrink 9 r u))
      (firstCall r (stepSeed r 0 r.runSeed)
        { s₀ with trial := .start 0 (stepSeed r 0 r.runSeed) }) = true := by
    cases hinit
    decide +kernel
  obtain ⟨a, s, hcall, ha⟩ := of_passes hrun
  obtain ⟨hfirst, hshrunk⟩ := Bool.and_eq_true_iff.mp ha
  obtain ⟨rfl, hfive⟩ := of_decide_eq_true hfirst
  obtain ⟨done, t, hshrink, hdone⟩ := of_passes hshrunk
  obtain ⟨rfl, hthree⟩ := of_decide_eq_true hdone
  have hcalls : CallsShrink 0 r s₀ s := .of_firstCall (by cases hinit; rfl) (by cases hinit; decide)
    hcall
  have halloc : AllocatesBy r fun _ => .ret (.ok, none) := fun i hi =>
    absurd hi (Bool.eq_false_iff.mp (hplain i))
  obtain ⟨-, -, hmembers⟩ := shrink_refines hinit hsized hprop halloc (fun _ _ => trivial) hcalls
    hshrink
  have hspecimen (u : RunState Nat Nat Unit 1) (inst : Option Nat)
      (hinst : (u.trial.args 0).inst = inst) : u.specimens r 0 = ⟨inst, none⟩ := by
    unfold RunState.specimens ArgInfo.specimen
    rw [hplain 0, hinst]
    rfl
  refine ⟨r, s₀, s, t, hinit, hcalls, hshrink, ?_⟩
  rw [← hspecimen s (some 5) hfive, ← hspecimen t (some 3) hthree]
  exact (hmembers 0).1

end Theft
