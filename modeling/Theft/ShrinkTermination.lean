import Theft.Rng
import Theft.ShrinkEndless

/-!
# When shrinking returns

* `Runner.Errs.not_returns`: the call of `shrink_post` for a step that answered an error stops
  `theft_shrink`;
* `shrink_returns_iff`: which configurations `theft_shrink` returns for.
-/

namespace Theft

open PackedBits Exec

section
variable {R I σ : Type} {n : Nat} {r : Runner I σ n} {s s₀ : RunState R I σ n}

/-! ## With a `shrink_post` hook -/

/-- Each shrinking step answers an error in this state of user code, and `shrink_post` is to be
told of it. -/
structure Runner.Errs (r : Runner I σ n) (user : σ) : Prop where
  sized : r.Sized
  unasked : r.hooks.shrinkPre = none
  watched : r.hooks.shrinkPost.isSome
  allocates : ∀ i, ∃ inst, (r.typeInfo i).alloc user = .ret (.error, inst, user)
  shrinks : ∀ i, r.autoshrinks i = false → ∃ shrink, (r.typeInfo i).shrink = some shrink ∧
    ∀ inst, shrink inst 0 user = .ret (.error, none, user)

namespace Runner.Errs
variable [Platform R] {user : σ} {i : Fin n}

theorem shrinkable (hr : r.Errs user) (i : Fin n) : r.shrinkable i := by
  cases henable : r.autoshrinks i with
  | true => exact .inr henable
  | false =>
    obtain ⟨shrink, hsome, -⟩ := hr.shrinks i henable
    exact .inl (hsome ▸ rfl)

theorem autoshrinkCandidate_errs (hr : r.Errs user) (hs : s.Ready r) (huser : s.user = user)
    (henable : r.autoshrinks i = true) (fuel : Nat) :
    Spec (fun t => t = s) (autoshrinkCandidate fuel r i 0) (fun c _ => c.1 = .error)
      fun _ _ => True := by
  intro t ht
  rw [ht]
  obtain ⟨env, pool, ha⟩ := hs.args i henable
  obtain ⟨inst, halloc⟩ := hr.allocates i
  have step : Spec (fun t => t = s)
      (zoomEnv i env (autoshrinkShrink fuel ((r.typeInfo i).alloc s.user) 0))
      (fun c _ => c.1 = .error) fun _ _ => True := by
    apply Spec.zoom
    rintro s rfl _ rfl
    have hspec := autoshrinkShrink_spec (ha.auto hs) ha.hasPool ha.valid (hr.sized.alloc i s.user)
      fuel 0
    rw [ha.hasEnv, Option.getD_some]
    rw [huser, halloc] at hspec ⊢
    revert hspec
    cases autoshrinkShrink fuel (.ret (.error, inst, user)) 0 ⟨s.prng, s.ledger, env⟩ with
    | error e t => exact fun _ => trivial
    | ok c t =>
      rintro ⟨-, houtcome⟩
      cases houtcome with
      | noMoreTactics htries => exact absurd htries (Nat.not_le.mpr (getDef_pos (by decide)))
      | noMemory => rfl
      | shrunk _ _ _ hreturns => cases hreturns
      | skipped hreturns => cases hreturns
      | failed => rfl
  unfold autoshrinkCandidate
  rw [bind_apply, get_apply]
  dsimp only
  rw [ha.hasEnv]
  refine Spec.bind step (fun c => ?_) s rfl
  obtain ⟨sres, res, copy⟩ := c
  rintro t rfl
  cases res <;> rfl

theorem userCandidate_errs (hr : r.Errs user) (huser : s.user = user)
    (henable : r.autoshrinks i = false) (current : Option I) :
    Spec (fun t => t = s) (userCandidate r i current 0) (fun c _ => c.1 = .error)
      fun _ _ => True := by
  rintro _ rfl
  obtain ⟨shrink, hsome, hshrink⟩ := hr.shrinks i henable
  unfold userCandidate
  rw [hsome]
  dsimp only [ask, record, runCallback]
  simp only [bind_apply, modify_apply, get_apply, huser, hshrink]
  rfl

/-- The first step of every attempt stops at the assertion of `shrink_post_hook`, if it has
enough fuel to get there. -/
theorem attempt_stops (hr : r.Errs user) (hs : s.Ready r) (huser : s.user = user) (i : Fin n)
    (inner : Nat) : ∃ e t, attemptToShrinkArg inner r i s = .error e t := by
  obtain ⟨left, hleft⟩ : ∃ left, maxTactics = left + 1 := ⟨maxTactics - 1, by decide⟩
  obtain ⟨hook, hhook⟩ := Option.isSome_iff_exists.mp hr.watched
  have hpre : shrinkPreHook r i (s.trial.args i).inst 0 s = .ok .cont s := by
    rw [shrinkPreHook, hr.unasked]
    rfl
  have offer : Spec (fun t => t = s)
      (if r.autoshrinks i = true then autoshrinkCandidate inner r i 0
        else userCandidate r i (s.trial.args i).inst 0)
      (fun c _ => c.1 = .error) fun _ _ => True := by
    by_cases henable : r.autoshrinks i = true
    · rw [if_pos henable]
      exact hr.autoshrinkCandidate_errs hs huser henable inner
    · rw [if_neg henable]
      exact hr.userCandidate_errs huser (Bool.eq_false_iff.mpr henable) _
  obtain ⟨e, t, hrun⟩ : ∃ e t, attemptTactic inner r i 0 s = .error e t := by
    unfold attemptTactic
    rw [bind_apply, get_apply]
    dsimp only
    rw [bind_of_ok hpre]
    dsimp only
    cases hoffer : (if r.autoshrinks i = true then autoshrinkCandidate inner r i 0
        else userCandidate r i (s.trial.args i).inst 0) s with
    | error e t => exact ⟨e, t, bind_of_error hoffer⟩
    | ok c t =>
      obtain ⟨sres, inst, copy⟩ := c
      obtain rfl : sres = .error := offer.returned rfl hoffer
      have hpost (arg : Option I) (u : RunState R I σ n) :
          shrinkPostHook r i arg 0 .error u = .error .assertion u := by
        rw [shrinkPostHook, hhook]
        rfl
      rw [bind_of_ok hoffer]
      dsimp only
      rw [bind_of_ok (Keeps.currentPool_run i t), modifyTrial, bind_apply, modify_apply]
      exact ⟨_, _, bind_of_error (hpost _ _)⟩
  refine ⟨e, t, ?_⟩
  rw [attemptToShrinkArg, hleft, attemptTactics, bind_of_error hrun]

theorem not_returns (hr : r.Errs user) (hs : s.Ready r) (huser : s.user = user) :
    ¬ ShrinkReturns r s := by
  rintro ⟨fuel, res, u, hreturns⟩
  unfold shrink require at hreturns
  split at hreturns
  · rename_i hn
    change shrinkFrom fuel r fuel 0 false s = .ok res u at hreturns
    cases fuel with
    | zero => cases hreturns
    | succ fuel =>
      obtain ⟨e, t, hstop⟩ := hr.attempt_stops hs huser ⟨0, hn⟩ (fuel + 1)
      rw [shrinkFrom_attempt hn (hr.shrinkable _), bind_of_error hstop] at hreturns
      cases hreturns
  · cases hreturns

end Runner.Errs

/-! ## Configurations -/

/-- Which arguments are autoshrunk, and which have a hash callback. -/
def Config.HasShape (cfg : Config I σ n) (autoshrunk hashed : Fin n → Bool) : Prop :=
  ∀ i, (cfg.typeInfo i).autoshrinkConfig.enable = autoshrunk i ∧
    (cfg.typeInfo i).hash.isSome = hashed i

section
variable [Platform R] {memory : Memory} {cfg : Config I σ n} {user : σ}

theorem runInit_accepts (memory : Memory) (user : σ) (hn : n ≠ 0)
    (hchecked : checkAllArgs cfg.typeInfo = true)
    {prop : Args I n → σ → Gen (TrialRes × σ)} (hprop : cfg.prop = some prop) :
    ∃ r s₀, runInit (R := R) memory cfg user = some (r, s₀) := by
  unfold runInit
  rw [if_neg hn, if_pos hchecked, hprop]
  exact ⟨_, _, rfl⟩

/-- A filter is there when every argument has a hash, and there is memory for it. -/
theorem started_bloom (hinit : runInit memory cfg user = some (r, s₀))
    {autoshrunk hashed : Fin n → Bool} (hshape : cfg.HasShape autoshrunk hashed) :
    s₀.bloom.isSome ↔ memory.table = true ∧ ∀ i, autoshrunk i = true ∨ hashed i = true := by
  have hhashable : allHashable cfg.typeInfo = true ↔
      ∀ i, autoshrunk i = true ∨ hashed i = true := by
    rw [allHashable, List.all_eq_true]
    refine ⟨fun h i => ?_, fun h i _ => ?_⟩
    · have hi := Bool.or_eq_true_iff.mp (h i (List.mem_finRange i))
      rwa [(hshape i).1, (hshape i).2, or_comm] at hi
    · rw [(hshape i).1, (hshape i).2, Bool.or_eq_true_iff, or_comm]
      exact h i
  rw [(runInit_started hinit).bloom, ← hhashable, ← Bool.and_eq_true_iff, Bool.and_comm]
  split
  · rename_i hboth
    exact ⟨fun _ => hboth, fun _ => rfl⟩
  · rename_i hboth
    exact ⟨fun h => Bool.noConfusion h, fun h => absurd h hboth⟩

/-- A new filter knows nothing. -/
theorem started_unseen (hinit : runInit memory cfg user = some (r, s₀)) (w : Word) :
    ¬ s₀.Seen w := by
  rintro ⟨b, hb, hseen⟩
  rw [(runInit_started hinit).bloom] at hb
  split at hb
  · cases hb
    cases hseen
  · cases hb

/-- The first trial gets as far as `theft_shrink`, where it fails at once. -/
theorem started_callsShrink (hinit : runInit memory cfg user = some (r, s₀))
    (hr : r.FailsAtOnce user)
    (hroom : (∀ i, r.autoshrinks i = false) ∨ memory.env = granted) :
    ∃ s, CallsShrink 0 r s₀ s := by
  have hstarted := runInit_started hinit
  have hfirst : TrialAt 0 r s₀ 0 r.runSeed s₀ := by
    apply TrialAt.first
    rw [runPreHook, hr.runPre]
    rfl
  apply hr.callsShrink (hfirst.idle hinit) hstarted.user (started_unseen hinit)
  intro k hk
  obtain hnone | hgranted := hroom
  · rw [List.filter_eq_nil_iff.mpr fun i _ => Bool.eq_false_iff.mp (hnone i)] at hk
    exact absurd hk (Nat.not_lt_zero k)
  · rw [hstarted.envMemory, hgranted]
    rfl

end

/-- Hooks that let theft go on: there are none, or only one after shrinking steps. -/
theorem Runner.HooksContinue.of_watched
    {hook : Option (ShrinkPostInfo I → σ → HookShrinkPostRes × σ)}
    (h : r.hooks = ⟨none, none, none, none, none, none, none, hook, none⟩) : r.HooksContinue := by
  constructor
  · rw [h]
    exact fun _ h => by cases h
  · rw [h]
    exact fun _ h => by cases h
  · rw [h]
    exact fun _ h => by cases h
  · rw [Runner.NeverHalts, h]
    exact fun _ h => by cases h
  · rw [Runner.NeverRepeats, h]
    exact fun _ h => by cases h

/-- Nothing is shrunk by a callback, and no hook is installed. -/
theorem Runner.Relentless.cooperative (hr : r.Relentless) {hashes : Fin n → Option I → Word}
    (hby : HashesBy r hashes) : r.Cooperative where
  sized := hr.sized
  property := ⟨_, hr.fails⟩
  hashes := fun _ _ => ⟨hashes, hby⟩
  down := by
    refine ⟨fun _ _ _ => False, fun _ => ⟨fun _ => ⟨_, fun _ h => h.elim⟩⟩, fun i shrink h => ?_⟩
    rw [hr.unshrunk] at h
    cases h
  tactics := by
    intro i shrink h
    rw [hr.unshrunk] at h
    cases h
  hooks := .of_watched hr.hooks

/-- A type whose instances are all the same. -/
def constantType (autoshrunk hashed : Bool) : TypeInfo Unit Unit where
  alloc u := .ret (.ok, some (), u)
  free := none
  hash := if hashed then some fun _ u => (0, u) else none
  print := none
  shrink := none
  autoshrinkConfig := ⟨autoshrunk, 0, ⟨false, false, false⟩, 0⟩

/-- One trial of a property that always fails. -/
def failingConfig (autoshrunk hashed : Fin n → Bool) : Config Unit Unit n where
  name := none
  prop := some fun _ u => .ret (.fail, u)
  typeInfo i := constantType (autoshrunk i) (hashed i)
  trials := 1
  seed := 0
  alwaysSeeds := []
  hooks := ⟨none, none, none, none, none, none, none, none, none⟩

/-- A type whose instances are made until the property is called, and shrunk to none. -/
def erringType (autoshrunk hashed : Bool) : TypeInfo Unit Bool where
  alloc called := .ret (if called then .error else .ok, some (), called)
  free := none
  hash := if hashed then some fun _ called => (0, called) else none
  print := none
  shrink := if autoshrunk then none else some fun _ tactic called =>
    .ret (if tactic = 0 then .error else .noMoreTactics, none, called)
  autoshrinkConfig := ⟨autoshrunk, 0, ⟨false, false, false⟩, 0⟩

/-- One trial of a property that always fails, with a hook after shrinking steps. -/
def erringConfig (autoshrunk hashed : Fin n → Bool) : Config Unit Bool n where
  name := none
  prop := some fun _ _ => .ret (.fail, true)
  typeInfo i := erringType (autoshrunk i) (hashed i)
  trials := 1
  seed := 0
  alwaysSeeds := []
  hooks := ⟨none, none, none, none, none, none, none, some fun _ called => (.cont, called), none⟩

theorem ite_none_isSome {α : Type} (b : Bool) (x : α) :
    (if b then some x else none).isSome = b := by
  cases b <;> rfl

theorem erringType_shrink {autoshrunk hashed : Bool}
    {shrink : Option Unit → Nat → Bool → Gen (ShrinkRes × Option Unit × Bool)}
    (h : (erringType autoshrunk hashed).shrink = some shrink) (inst : Option Unit) (tactic : Nat)
    (called : Bool) : shrink inst tactic called =
      .ret (if tactic = 0 then .error else .noMoreTactics, none, called) := by
  obtain ⟨-, hshrink⟩ := Option.ite_none_left_eq_some.mp h
  cases hshrink
  rfl

theorem failingConfig_shape (autoshrunk hashed : Fin n → Bool) :
    (failingConfig autoshrunk hashed).HasShape autoshrunk hashed :=
  fun _ => ⟨rfl, ite_none_isSome _ _⟩

theorem erringConfig_shape (autoshrunk hashed : Fin n → Bool) :
    (erringConfig autoshrunk hashed).HasShape autoshrunk hashed :=
  fun _ => ⟨rfl, ite_none_isSome _ _⟩

variable [Platform R] {autoshrunk hashed : Fin n → Bool} {memory : Memory}

section
variable {r : Runner Unit Unit n} {s₀ : RunState R Unit Unit n}

theorem failingConfig_relentless
    (h : runInit memory (failingConfig autoshrunk hashed) () = some (r, s₀)) : r.Relentless := by
  have hstarted := runInit_started h
  have hprop : r.propFun = fun _ u => .ret (.fail, u) := (Option.some.inj hstarted.propFun).symm
  have htype : r.typeInfo = fun i => constantType (autoshrunk i) (hashed i) := hstarted.typeInfo
  refine ⟨⟨?_, ?_, ?_⟩, ?_, hstarted.hooks, ?_, ?_, ?_, ?_⟩
  · rw [htype]
    exact fun _ _ => trivial
  · rw [htype]
    exact fun _ _ h => by cases h
  · rw [hprop]
    exact fun _ _ => trivial
  · rw [PropertyIs, hprop]
    exact fun _ _ _ _ h => congrArg Prod.fst h
  · rw [htype]
    exact fun _ => rfl
  · rw [htype]
    exact fun _ _ _ _ _ h => congrArg Prod.fst h
  · rw [htype]
    exact fun _ _ => trivial
  · rw [htype]
    exact fun _ _ _ => Nat.zero_le _

theorem failingConfig_failsAtOnce
    (h : runInit memory (failingConfig autoshrunk hashed) () = some (r, s₀)) :
    r.FailsAtOnce () := by
  have hstarted := runInit_started h
  have hr := failingConfig_relentless h
  refine ⟨hr.sized, hr.fails, ?_, ?_, ?_, ?_, ?_, ?_⟩
  · rw [hstarted.trialCount]
    exact Nat.zero_lt_one
  · rw [hr.hooks]
  · rw [hr.hooks]
  · rw [hr.hooks]
  · rw [hstarted.typeInfo]
    exact fun _ => ⟨(), rfl⟩
  · rw [hstarted.typeInfo]
    exact fun _ => rfl

theorem failingConfig_cooperative
    (h : runInit memory (failingConfig autoshrunk hashed) () = some (r, s₀)) : r.Cooperative := by
  have htype : r.typeInfo = fun i => constantType (autoshrunk i) (hashed i) :=
    (runInit_started h).typeInfo
  have hby : HashesBy r fun _ _ => 0 := by
    intro i hash hhash inst u
    rw [htype] at hhash
    obtain ⟨-, rfl⟩ := Option.ite_some_none_eq_some.mp hhash
    rfl
  exact (failingConfig_relentless h).cooperative hby

end

section
variable {r : Runner Unit Bool n} {s₀ s : RunState R Unit Bool n}

theorem erringConfig_sized
    (h : runInit memory (erringConfig autoshrunk hashed) false = some (r, s₀)) : r.Sized := by
  have hstarted := runInit_started h
  have hprop : r.propFun = fun _ _ => .ret (.fail, true) := (Option.some.inj hstarted.propFun).symm
  have htype : r.typeInfo = fun i => erringType (autoshrunk i) (hashed i) := hstarted.typeInfo
  refine ⟨?_, ?_, ?_⟩
  · rw [htype]
    exact fun _ _ => trivial
  · rw [htype]
    intro i shrink hshrink inst tactic u
    rw [erringType_shrink hshrink]
    trivial
  · rw [hprop]
    exact fun _ _ => trivial

theorem erringConfig_fails
    (h : runInit memory (erringConfig autoshrunk hashed) false = some (r, s₀)) :
    PropertyIs r fun _ => .fail := by
  have hprop : r.propFun = fun _ _ => .ret (.fail, true) :=
    (Option.some.inj (runInit_started h).propFun).symm
  rw [PropertyIs, hprop]
  exact fun _ _ _ _ h => congrArg Prod.fst h

theorem erringConfig_errs
    (h : runInit memory (erringConfig autoshrunk hashed) false = some (r, s₀)) : r.Errs true := by
  have hstarted := runInit_started h
  have htype : r.typeInfo = fun i => erringType (autoshrunk i) (hashed i) := hstarted.typeInfo
  refine ⟨erringConfig_sized h, ?_, ?_, ?_, ?_⟩
  · rw [hstarted.hooks]
    rfl
  · rw [hstarted.hooks]
    rfl
  · rw [htype]
    exact fun _ => ⟨some (), rfl⟩
  · intro i henable
    rw [Runner.autoshrinks, htype] at henable
    have hauto : autoshrunk i = false := henable
    rw [htype]
    refine ⟨_, if_neg (Bool.eq_false_iff.mp hauto), fun inst => rfl⟩

theorem erringConfig_failsAtOnce
    (h : runInit memory (erringConfig autoshrunk hashed) false = some (r, s₀)) :
    r.FailsAtOnce false := by
  have hstarted := runInit_started h
  refine ⟨erringConfig_sized h, erringConfig_fails h, ?_, ?_, ?_, ?_, ?_, ?_⟩
  · rw [hstarted.trialCount]
    exact Nat.zero_lt_one
  · rw [hstarted.hooks]
    rfl
  · rw [hstarted.hooks]
    rfl
  · rw [hstarted.hooks]
    rfl
  · rw [hstarted.typeInfo]
    exact fun _ => ⟨(), rfl⟩
  · rw [hstarted.typeInfo]
    exact fun _ => rfl

theorem erringConfig_cooperative
    (h : runInit memory (erringConfig autoshrunk hashed) false = some (r, s₀)) :
    r.Cooperative := by
  have hstarted := runInit_started h
  have htype : r.typeInfo = fun i => erringType (autoshrunk i) (hashed i) := hstarted.typeInfo
  refine ⟨erringConfig_sized h, ⟨_, erringConfig_fails h⟩, fun _ _ => ⟨fun _ _ => 0, ?_⟩, ?_, ?_,
    .of_watched hstarted.hooks⟩
  · intro i hash hhash inst u
    rw [htype] at hhash
    obtain ⟨-, rfl⟩ := Option.ite_some_none_eq_some.mp hhash
    rfl
  · refine ⟨fun _ _ _ => False, fun _ => ⟨fun _ => ⟨_, fun _ h => h.elim⟩⟩, ?_⟩
    rw [htype]
    intro i shrink hshrink inst tactic u candidate u' hreturns
    rw [erringType_shrink hshrink] at hreturns
    have hres := congrArg Prod.fst hreturns
    dsimp only at hres
    split at hres <;> cases hres
  · rw [htype]
    intro i shrink hshrink inst
    refine ⟨1, fun tactic htactic u res candidate u' hreturns => ?_⟩
    rw [erringType_shrink hshrink] at hreturns
    have hres := congrArg Prod.fst hreturns
    dsimp only at hres
    rwa [if_neg (by omega)] at hres

/-- The property was called before `theft_shrink` is. -/
theorem erringConfig_called
    (h : runInit memory (erringConfig autoshrunk hashed) false = some (r, s₀))
    (hcalls : CallsShrink 0 r s₀ s) : s.user = true := by
  have hprop : r.propFun = fun _ _ => .ret (.fail, true) :=
    (Option.some.inj (runInit_started h).propFun).symm
  cases hcalls with
  | trial _ _ _ _ _ _ _ hcall =>
    unfold call at hcall
    rw [hprop] at hcall
    cases hcall
    rfl

end

/-! ## When shrinking returns -/

theorem autoshrinks_shape {cfg : Config I σ n} {user : σ} {r : Runner I σ n}
    {s₀ : RunState R I σ n} (hinit : runInit memory cfg user = some (r, s₀))
    (hshape : cfg.HasShape autoshrunk hashed) : r.autoshrinks = autoshrunk := by
  funext i
  rw [Runner.autoshrinks, (runInit_started hinit).typeInfo]
  exact (hshape i).1

variable (R) in
/-- `theft_shrink` returns in each trial of the run of each configuration with these arguments
that does what the claim asks, and, if `safely`, lets `shrink_post` be told of every step. -/
def AlwaysReturns (memory : Memory) (autoshrunk hashed : Fin n → Bool) (safely : Bool) : Prop :=
  ∀ (I σ : Type) (cfg : Config I σ n) (user : σ) (r : Runner I σ n) (s₀ s : RunState R I σ n)
    (fuel : Nat), cfg.HasShape autoshrunk hashed → runInit memory cfg user = some (r, s₀) →
    r.Cooperative → CallsShrink fuel r s₀ s → (safely = true → SafelyWatched r s) →
    ShrinkReturns r s

/-- Where an argument is autoshrunk and there is no filter, a property that always fails keeps
`theft_shrink` from returning. -/
theorem endless_configuration (hmemory : memory.env = granted) {i : Fin n}
    (hi : autoshrunk i = true)
    (hfilter : ¬ (memory.table = true ∧ ∀ i, autoshrunk i = true ∨ hashed i = true))
    (safely : Bool) : ¬ AlwaysReturns R memory autoshrunk hashed safely := by
  intro hreturns
  have hchecked : checkAllArgs (failingConfig autoshrunk hashed).typeInfo = true := by
    refine List.all_eq_true.mpr fun i _ => ?_
    simp [failingConfig, constantType]
  obtain ⟨r, s₀, hinit⟩ := runInit_accepts (R := R) memory () (Nat.ne_of_gt (Fin.pos i)) hchecked
    rfl
  have hshape := failingConfig_shape autoshrunk hashed
  have hr := failingConfig_relentless hinit
  obtain ⟨s, hcalls⟩ :=
    started_callsShrink hinit (failingConfig_failsAtOnce hinit) (.inr hmemory)
  have hbloom : s.bloom = none := by
    rw [← started_bloom hinit hshape, ← hcalls.bloom] at hfilter
    simpa using hfilter
  have henable : r.autoshrinks i = true := by
    rw [autoshrinks_shape hinit hshape]
    exact hi
  have hwatched : SafelyWatched r s := by
    left
    rw [hr.hooks]
  exact hr.not_returns henable (hcalls.failsOn hinit hr.sized hr.fails) hbloom
    (hreturns _ _ _ () r s₀ s 0 hshape hinit (failingConfig_cooperative hinit) hcalls
      fun _ => hwatched)

/-- Where `shrink_post` may have to be told of an error, it may stop the program. -/
theorem aborting_configuration (hn : n ≠ 0)
    (hmemory : (∀ i, autoshrunk i = false) ∨ memory.env = granted) :
    ¬ AlwaysReturns R memory autoshrunk hashed false := by
  intro hreturns
  have hchecked : checkAllArgs (erringConfig autoshrunk hashed).typeInfo = true := by
    refine List.all_eq_true.mpr fun i _ => ?_
    cases hi : autoshrunk i <;> simp [erringConfig, erringType, hi]
  obtain ⟨r, s₀, hinit⟩ := runInit_accepts (R := R) memory false hn hchecked rfl
  have hshape := erringConfig_shape autoshrunk hashed
  rw [← autoshrinks_shape hinit hshape] at hmemory
  obtain ⟨s, hcalls⟩ := started_callsShrink hinit (erringConfig_failsAtOnce hinit) hmemory
  have hready := (hcalls.failsOn hinit (erringConfig_sized hinit)
    (erringConfig_fails hinit)).generated.ready
  exact (erringConfig_errs hinit).not_returns hready (erringConfig_called hinit hcalls)
    (hreturns _ _ _ false r s₀ s 0 hshape hinit (erringConfig_cooperative hinit) hcalls
      fun h => by cases h)

/-- **`theft_shrink` returns** for every configuration with these arguments, if and only if none
of them is autoshrunk, or a bloom filter knows all of them, and `shrink_post` is not to be told of
an error. -/
theorem shrink_returns_iff (hn : n ≠ 0) (memory : Memory) (autoshrunk hashed : Fin n → Bool)
    (safely : Bool) (h : (∀ i, autoshrunk i = false) ∨
      (Fair R ∧ memory.filter = granted ∧ memory.env = granted)) :
    AlwaysReturns R memory autoshrunk hashed safely ↔
      ((∀ i, autoshrunk i = false) ∨
        (memory.table = true ∧ ∀ i, autoshrunk i = true ∨ hashed i = true)) ∧ safely = true := by
  constructor
  · intro hreturns
    constructor
    · by_contra hnot
      obtain ⟨hsome, hfilter⟩ := not_or.mp hnot
      obtain ⟨-, -, hmemory⟩ := h.resolve_left hsome
      obtain ⟨i, hi⟩ := not_forall.mp hsome
      exact endless_configuration hmemory (Bool.eq_true_of_not_eq_false hi) hfilter safely hreturns
    · apply Bool.eq_true_of_not_eq_false
      rintro rfl
      exact aborting_configuration hn (h.imp_right fun h => h.2.2) hreturns
  · rintro ⟨hwhen, rfl⟩ I σ cfg user r s₀ s fuel hshape hinit hr hcalls hwatched
    have hwatched := hwatched rfl
    have hstarted := runInit_started hinit
    have henabled := autoshrinks_shape hinit hshape
    by_cases hnone : ∀ i, autoshrunk i = false
    · obtain ⟨smaller, hwf, hdown⟩ := hr.down
      rw [← henabled] at hnone
      have hfair : ∀ i, r.autoshrinks i = true → Fair R := by
        intro i hi
        rw [hnone] at hi
        cases hi
      exact hcalls.returns hinit hr hfair (goesDown_args hnone hwf hdown) hwatched
    · obtain ⟨hfair, hgranted, -⟩ := h.resolve_left hnone
      obtain ⟨i, hi⟩ := not_forall.mp hnone
      have hi : r.autoshrinks i = true := by
        rw [henabled]
        exact Bool.eq_true_of_not_eq_false hi
      obtain ⟨hashes, hby⟩ := hr.hashes i hi
      have hbloom := (started_bloom hinit hshape).mpr (hwhen.resolve_left hnone)
      exact hcalls.returns hinit hr (fun _ _ => hfair)
        (goesDown_unseen (hstarted.filterMemory.trans hgranted) hby)
        ⟨hcalls.bloom.trans hbloom, hwatched⟩

end

/-! ## Two runs -/

section
variable {R I σ : Type} {n : Nat} {r : Runner I σ n} {s s₀ : RunState R I σ n} [Platform R]

/-- A trial up to the answer of the property. -/
def firstCall (r : Runner I σ n) (seed : Word) :
    Run R I σ n (Bool × HookGenArgsPreRes × AllGenRes × HookTrialPreRes × TrialRes) := do
  let equipped ← initArgInfo r (List.finRange n)
  let pre ← genArgsPreHook r
  modify fun s => { s with prng := s.prng.setSeed seed }
  let gres ← genAllArgs r (List.finRange n)
  let tpre ← trialPreHook r 0 seed
  markTrial r
  let s ← get
  let tres ← call r s.trial.getArgs false
  return (equipped, pre, gres, tpre, tres)

theorem CallsShrink.of_firstCall (hpre : runPreHook r s₀ = .ok .cont s) (hcount : 0 < r.trialCount)
    {t : RunState R I σ n} (hrun : firstCall r (stepSeed r 0 r.runSeed)
        { s with trial := .start 0 (stepSeed r 0 r.runSeed) } =
      .ok (true, .cont, .ok, .cont, .fail) t) :
    CallsShrink 0 r s₀ t := by
  obtain ⟨equipped, t₁, hinit, hrun⟩ := bind_eq_ok.mp hrun
  obtain ⟨pre, t₂, hgenPre, hrun⟩ := bind_eq_ok.mp hrun
  obtain ⟨_, t₃, hseed, hrun⟩ := bind_eq_ok.mp hrun
  obtain ⟨gres, t₄, hgen, hrun⟩ := bind_eq_ok.mp hrun
  obtain ⟨tpre, t₅, htrialPre, hrun⟩ := bind_eq_ok.mp hrun
  obtain ⟨_, t₆, hmark, hrun⟩ := bind_eq_ok.mp hrun
  obtain ⟨_, _, hget, hrun⟩ := bind_eq_ok.mp hrun
  cases hget
  obtain ⟨tres, t₇, hcall, hlast⟩ := bind_eq_ok.mp hrun
  cases hlast
  cases hseed
  exact .trial (.first hpre) hcount hinit hgenPre hgen htrialPre hmark hcall

/-- The call is found by running the trial, with what is checked of the state it is made in. -/
theorem firstCall_callsShrink (hpre : runPreHook r s₀ = .ok .cont s) (hcount : 0 < r.trialCount)
    {check : RunState R I σ n → Bool}
    (hrun : passes (fun a t => decide (a = (true, .cont, .ok, .cont, .fail)) && check t)
      (firstCall r (stepSeed r 0 r.runSeed)
        { s with trial := .start 0 (stepSeed r 0 r.runSeed) }) = true) :
    ∃ t, CallsShrink 0 r s₀ t ∧ check t = true := by
  obtain ⟨a, t, hrun, ha⟩ := of_passes hrun
  obtain ⟨ha, hcheck⟩ := Bool.and_eq_true_iff.mp ha
  cases of_decide_eq_true ha
  exact ⟨t, .of_firstCall hpre hcount hrun, hcheck⟩

end

theorem burst_rngWord (k j : Nat) : rngWord (k + 1) j = 0 := by
  induction j generalizing k with
  | zero => rfl
  | succ j ih => exact ih (k + 1)

/-- After its first word the generator draws nothing but zeroes. -/
theorem burst_fair : Fair Nat := by
  intro p bitCount hp hpool hbits
  have hquiet : ∀ i, 64 ≤ i → rngBits p.rng i = false := by
    intro i hi
    obtain ⟨j, hj⟩ : ∃ j, i / 64 = j + 1 := ⟨i / 64 - 1, by omega⟩
    rw [rngBits, hj, rngWord]
    exact (congrArg (BitVec.getLsbD · (i % 64)) (burst_rngWord p.rng j)).trans (BitVec.getLsbD_zero)
  refine drawsZero_of_stream (by omega) (p.bitsAvailable + 64) p hpool hp.available fun i hi => ?_
  rw [Prng.stream, if_neg (by omega)]
  exact hquiet _ (by omega)

/-- Three random bits in the first argument, on which the property fails when they are all set,
and a hook after each shrinking step. -/
def notSevenConfig : Config Word Unit 1 where
  name := none
  prop := some fun args u => .ret (notSeven args, u)
  typeInfo _ := threeBitsType
  trials := 1
  seed := 1
  alwaysSeeds := []
  hooks := ⟨none, none, none, none, none, none, none, some fun _ u => (.cont, u), none⟩

theorem notSevenConfig_cooperative {r : Runner Word Unit 1} {s₀ : RunState Nat Word Unit 1}
    (h : runInit ⟨true, granted, granted⟩ notSevenConfig () = some (r, s₀)) : r.Cooperative := by
  cases h
  refine ⟨⟨fun _ _ _ => trivial, fun _ _ h => (by cases h), fun _ _ => trivial⟩,
    ⟨notSeven, fun _ _ _ _ h => congrArg Prod.fst h⟩, fun _ _ => ⟨fun _ _ => 0, ?_⟩,
    ⟨fun _ _ _ => False, fun _ => ⟨fun _ => ⟨_, fun _ h => h.elim⟩⟩, ?_⟩, ?_, .of_watched rfl⟩
  · exact fun _ _ h => by cases h
  · exact fun _ _ h => by cases h
  · exact fun _ _ h => by cases h

theorem shrink_returns_seven : ∃ (r : Runner Word Unit 1) (s₀ s : RunState Nat Word Unit 1),
    runInit ⟨true, granted, granted⟩ notSevenConfig () = some (r, s₀) ∧
      CallsShrink 0 r s₀ s ∧ SafelyWatched r s ∧ ShrinkReturns r s := by
  obtain ⟨r, s₀, hinit⟩ : ∃ (r : Runner Word Unit 1) (s₀ : RunState Nat Word Unit 1),
      runInit ⟨true, granted, granted⟩ notSevenConfig () = some (r, s₀) := ⟨_, _, rfl⟩
  obtain ⟨s, hcalls, hcheck⟩ : ∃ s, CallsShrink 0 r s₀ s ∧
      decide (64 * (s.trial.args 0).bitsFilled ≤ maxBits) = true := by
    cases hinit
    exact firstCall_callsShrink rfl (by decide) (by decide +kernel)
  have hwatched : SafelyWatched r s := by
    right
    cases hinit
    refine ⟨fun _ _ h => (by cases h), ?_, fun i _ => ?_⟩
    · rintro _ _ _ _ _ _ ⟨_, h⟩
      cases congrArg Prod.fst h
      decide
    · rw [Fin.fin_one_eq_zero i]
      exact of_decide_eq_true hcheck
  have hreturns := (shrink_returns_iff (by decide) ⟨true, granted, granted⟩ (fun _ : Fin 1 => true)
    (fun _ => false) true (.inr ⟨burst_fair, rfl, rfl⟩)).mpr ⟨.inr ⟨rfl, fun _ => .inl rfl⟩, rfl⟩
  exact ⟨r, s₀, s, hinit, hcalls, hwatched,
    hreturns _ _ _ () r s₀ s 0 (fun _ => ⟨rfl, rfl⟩) hinit (notSevenConfig_cooperative hinit)
      hcalls fun _ => hwatched⟩

/-- Three random bits that are autoshrunk, and three that are not and have no hash. -/
def halfHashedConfig : Config Word Unit 2 where
  name := none
  prop := some fun _ u => .ret (.fail, u)
  typeInfo i := { threeBitsType with autoshrinkConfig := ⟨i.val = 0, 64, ⟨false, false, false⟩, 0⟩ }
  trials := 1
  seed := 1
  alwaysSeeds := []
  hooks := ⟨none, none, none, none, none, none, none, none, none⟩

theorem halfHashed_endless : ∃ (r : Runner Word Unit 2) (s₀ s : RunState Rng Word Unit 2),
    runInit ⟨true, granted, granted⟩ halfHashedConfig () = some (r, s₀) ∧ r.Cooperative ∧
      CallsShrink 0 r s₀ s ∧ ¬ ShrinkReturns r s := by
  obtain ⟨r, s₀, hinit⟩ : ∃ (r : Runner Word Unit 2) (s₀ : RunState Rng Word Unit 2),
      runInit ⟨true, granted, granted⟩ halfHashedConfig () = some (r, s₀) := ⟨_, _, rfl⟩
  have hbloom : s₀.bloom = none := by
    cases hinit
    rfl
  have hr : r.Relentless := by
    cases hinit
    refine ⟨⟨fun _ _ _ => trivial, fun _ _ h => (by cases h), fun _ _ => trivial⟩, ?_, rfl,
      fun _ => rfl, ?_, fun _ _ => fun _ => trivial, ?_⟩
    · exact fun _ _ _ _ h => congrArg Prod.fst h
    · rintro _ _ _ _ _ ⟨_, h⟩
      exact congrArg Prod.fst h
    · intro _ _ _
      exact (by decide : 64 * (3 + 0) ≤ maxBits)
  obtain ⟨s, hcalls, -⟩ : ∃ s, CallsShrink 0 r s₀ s ∧ true = true := by
    cases hinit
    exact firstCall_callsShrink rfl (by decide) (by decide +kernel)
  have hnone : s.bloom = none := by
    have hsome := hcalls.bloom
    rw [hbloom] at hsome
    simpa using hsome
  have henable : r.autoshrinks 0 = true := by
    cases hinit
    rfl
  have hby : HashesBy r fun _ _ => 0 := by
    cases hinit
    exact fun _ _ h => (by cases h)
  exact ⟨r, s₀, s, hinit, hr.cooperative hby, hcalls,
    hr.not_returns henable (hcalls.failsOn hinit hr.sized hr.fails) hnone⟩

end Theft
