import Mathlib.Data.DFinsupp.WellFounded
import Mathlib.Data.Fintype.Card
import Mathlib.Data.Fintype.Powerset
import Mathlib.Order.CompletePartialOrder
import Theft.LocalMinimum
import Theft.ShrinkEnds

/-!
# What shrinking goes down in

* `goesDown_unseen`: with a bloom filter, each exchange of an argument marks one more hash;
* `goesDown_args`: without autoshrunk arguments, each exchange makes an instance smaller;
* `SafelyWatched`: `shrink_post` can be told what every shrinking step answers;
* `CallsShrink.returns`: a call of `theft_shrink` in a trial of a run returns, where exchanges go
  down and every state is safely watched.
-/

namespace Theft

open PackedBits Exec

section
variable {R I σ : Type} {n : Nat} {α : Type} {r : Runner I σ n} {s t u : RunState R I σ n}

/-! ## Answers that `shrink_post` can be told -/

/-- The number of bits in the pool of an argument. -/
def ArgInfo.bitsFilled (a : ArgInfo I) : Nat :=
  ((a.env.bind AutoshrinkEnv.bitPool).map BitPool.bitsFilled).getD 0

theorem ArgInfo.bitsFilled_core (a : ArgInfo I) : a.core.bitsFilled = a.bitsFilled := by
  obtain ⟨inst, _ | env⟩ := a
  · rfl
  · unfold bitsFilled core AutoshrinkEnv.core
    cases hpool : env.bitPool <;> simp [hpool]

theorem ArgInfo.Ready.bitsFilled {a : ArgInfo I} {env : AutoshrinkEnv} {pool : BitPool}
    (h : a.Ready env pool) : a.bitsFilled = pool.bitsFilled := by
  rw [ArgInfo.bitsFilled, h.hasEnv, Option.bind_some, h.hasPool]
  rfl

/-- There is memory for the index of every pool: an index has an entry for each request, and no
request is empty. -/
def Indexable (r : Runner I σ n) (s : RunState R I σ n) : Prop :=
  ∀ i, r.autoshrinks i = true → 64 * (s.trial.args i).bitsFilled ≤ maxBits

namespace Indexable

theorem requests (h : Indexable r s) {i : Fin n} (henable : r.autoshrinks i = true)
    {env : AutoshrinkEnv} {pool : BitPool} (ha : (s.trial.args i).Ready env pool) :
    64 * pool.requestCount ≤ maxBits := by
  have hmemory := h i henable
  rw [ha.bitsFilled] at hmemory
  have hcount := length_le_sum fun k hk => (ha.valid.inv.requests_range k hk).1
  have hsum := ha.valid.inv.requests_sum
  have hfilled := ha.valid.inv.consumed_le_filled
  rw [BitPool.requestCount]
  omega

theorem held (h : Indexable r s) (ht : Held r s t) : Indexable r t := by
  intro i henable
  rw [← ArgInfo.bitsFilled_core, ht.core, ArgInfo.bitsFilled_core]
  exact h i henable

/-- A pool that replaces another has no more bits. -/
theorem exchanged (h : Indexable r s) {argI : Fin n} {tactic : Nat} {inst : Option I}
    {copy : Option BitPool} (hoffered : Offered r argI (s.trial.args argI) tactic (.ok, inst, copy))
    (ht : Held r ((s.withInst argI inst).withPoolIf r argI copy) t) : Indexable r t := by
  apply held _ ht
  intro i henable
  have hmemory := h i henable
  by_cases hi : i = argI
  · subst hi
    cases hoffered with
    | user hdisabled => rw [henable] at hdisabled; cases hdisabled
    | @replayed env pool copy _ _ _ _ ha _ hle =>
      have hcopy : (((s.withInst i inst).withPoolIf r i (some copy)).trial.args i).bitsFilled =
          copy.bitsFilled := by
        simp only [RunState.withPoolIf, if_pos henable, RunState.withPool, RunState.withInst,
          modifyArg_same, ArgInfo.bitsFilled, ha.hasEnv, Option.map_some, Option.bind_some,
          Option.getD_some]
      rw [ha.bitsFilled] at hmemory
      omega
  · rwa [exchange_other s hi]

theorem attempted (h : Indexable r s) {argI : Fin n} {tactic : Nat}
    (ht : Attempted r argI tactic s (some .ok) t) : Indexable r t := by
  cases ht with
  | committed hoffered hheld => exact h.exchanged hoffered hheld

end Indexable

/-- No shrinking step answers an error: no callback does, and there is memory. -/
structure Unerring (r : Runner I σ n) (s : RunState R I σ n) : Prop where
  shrink : ∀ i shrink, (r.typeInfo i).shrink = some shrink → ∀ inst tactic u res candidate u',
    (shrink inst tactic u).Returns (res, candidate, u') → res ≠ .error
  alloc : ∀ i, r.autoshrinks i = true → ∀ u res inst u',
    ((r.typeInfo i).alloc u).Returns (res, inst, u') → res ≠ .error
  indexable : Indexable r s

theorem Unerring.not_offered (h : Unerring r s) (argI : Fin n) (tactic : Nat) (inst : Option I)
    (copy : Option BitPool) : ¬ Offered r argI (s.trial.args argI) tactic (.error, inst, copy) := by
  intro hoffered
  cases hoffered with
  | noMemory henable ha hmany =>
    exact absurd (h.indexable.requests henable ha) (Nat.not_le.mpr hmany)
  | failed henable hreturns => exact h.alloc argI henable _ _ _ _ hreturns rfl
  | user _ hshrink hreturns => exact h.shrink argI _ hshrink _ _ _ _ _ _ hreturns rfl

/-- There is no `shrink_post` hook, or no error that it would be told of. -/
def SafelyWatched (r : Runner I σ n) (s : RunState R I σ n) : Prop :=
  r.hooks.shrinkPost = none ∨ Unerring r s

namespace SafelyWatched

theorem tellable (h : SafelyWatched r s) : Tellable r s := by
  intro hhook argI tactic inst copy
  obtain hnone | hs := h
  · rw [hnone] at hhook
    cases hhook
  · exact hs.not_offered argI tactic inst copy

theorem held (h : SafelyWatched r s) (ht : Held r s t) : SafelyWatched r t :=
  h.imp_right fun hs => ⟨hs.shrink, hs.alloc, hs.indexable.held ht⟩

theorem attempted (h : SafelyWatched r s) {argI : Fin n} {tactic : Nat}
    (ht : Attempted r argI tactic s (some .ok) t) : SafelyWatched r t :=
  h.imp_right fun hs => ⟨hs.shrink, hs.alloc, hs.indexable.attempted ht⟩

end SafelyWatched

/-! ## Hashes that are not in the filter -/

instance word_finite : Finite Word :=
  Finite.of_injective BitVec.toFin fun _ _ h => BitVec.eq_of_toFin_eq h

/-- The hashes that are not in the filter yet. -/
def RunState.unseen (s : RunState R I σ n) : Set Word := {w | ¬ s.Seen w}

theorem Held.unseen (h : Held r s t) (hgranted : r.filterMemory = granted) :
    t.unseen ⊆ s.unseen := fun w hw hseen => hw (h.seen hgranted w hseen)

/-- Each exchange marks a hash that was not in the filter. -/
theorem goesDown_unseen (hgranted : r.filterMemory = granted) {hashes : Fin n → Option I → Word}
    (hby : HashesBy r hashes) :
    GoesDown (R := R) r (fun s => s.bloom.isSome ∧ SafelyWatched r s)
      (InvImage (· ⊂ ·) RunState.unseen) where
  wf := InvImage.wf _ (wellFounded_lt (α := Set Word))
  held ht hu := hu.trans_subset (ht.unseen hgranted)
  goodHeld ht hs := ⟨ht.bloom.trans hs.1, hs.2.held ht⟩
  exchanged := by
    rintro argI tactic s t _ ⟨hs, hwatched⟩ hattempted
    have hwatched' := hwatched.attempted hattempted
    cases hattempted with
    | @committed _ inst copy _ hheld _ hfresh =>
      obtain ⟨w, hunseen, hseen⟩ := hfresh hgranted hs hashes hby
      have hbloom := exchange_bloom (r := r) s argI inst copy
      refine ⟨⟨fun v hv hold => ?_, fun hle => hle hunseen hseen⟩, ?_, hwatched'⟩
      · obtain ⟨b, hb, hcheck⟩ := hold
        exact hv (hheld.seen hgranted v ⟨b, hbloom.trans hb, hcheck⟩)
      · rw [hheld.bloom, hbloom]
        exact hs
  tellable _ hs := hs.2.tellable

/-! ## Instances that get smaller -/

/-- Each `shrink` callback answers `OK` only for instances that are smaller in a well-founded
order. -/
def Runner.ShrinksDown (r : Runner I σ n) : Prop :=
  ∃ smaller : Fin n → Option I → Option I → Prop, (∀ i, WellFounded (smaller i)) ∧
    ∀ i shrink, (r.typeInfo i).shrink = some shrink → ∀ inst tactic u candidate u',
      (shrink inst tactic u).Returns (.ok, candidate, u') → smaller i candidate inst

/-- One argument is smaller, and the others are the same. -/
def Smaller (smaller : Fin n → Option I → Option I → Prop) (args args' : Args I n) : Prop :=
  ∃ i, smaller i (args i) (args' i) ∧ ∀ j ≠ i, args j = args' j

theorem smaller_wellFounded {smaller : Fin n → Option I → Option I → Prop}
    (hwf : ∀ i, WellFounded (smaller i)) : WellFounded (Smaller smaller) := by
  refine Subrelation.wf ?_ (Pi.Lex.wellFounded (· < ·) hwf)
  rintro args args' ⟨i, hi, hothers⟩
  exact ⟨i, fun j hj => hothers j (ne_of_lt hj), hi⟩

/-- Each exchange makes one argument smaller. -/
theorem goesDown_args (hnone : ∀ i, r.autoshrinks i = false)
    {smaller : Fin n → Option I → Option I → Prop} (hwf : ∀ i, WellFounded (smaller i))
    (hdown : ∀ i shrink, (r.typeInfo i).shrink = some shrink → ∀ inst tactic u candidate u',
      (shrink inst tactic u).Returns (.ok, candidate, u') → smaller i candidate inst) :
    GoesDown (R := R) r (SafelyWatched r)
      (InvImage (Smaller smaller) fun s => s.trial.getArgs) where
  wf := InvImage.wf _ (smaller_wellFounded hwf)
  held ht hu := by
    dsimp only [InvImage] at hu ⊢
    rwa [ht.getArgs] at hu
  goodHeld ht hs := hs.held ht
  exchanged := by
    intro argI tactic s t _ hwatched hattempted
    have hwatched' := hwatched.attempted hattempted
    cases hattempted with
    | @committed _ inst copy hoffered hheld _ _ =>
      cases hoffered with
      | replayed henable => rw [hnone] at henable; cases henable
      | user _ hshrink hreturns =>
        have hargs : t.trial.getArgs = update s.trial.getArgs argI inst := by
          rw [hheld.getArgs, RunState.withPoolIf, if_neg (by rw [hnone]; decide), getArgs_withInst]
        refine ⟨⟨argI, ?_, fun j hj => ?_⟩, hwatched'⟩
        · dsimp only
          rw [hargs, update, if_pos rfl]
          exact hdown argI _ hshrink _ _ _ _ _ hreturns
        · dsimp only
          rw [hargs, update, if_neg hj]
  tellable _ hs := hs.tellable

/-! ## Weights at the start -/

/-- Models that have weights, or will have them, still do. -/
def KeepsWeights (s t : RunState R I σ n) : Prop := s.Weighted → t.Weighted

instance keepsWeights_preorder : IsPreorder (RunState R I σ n) KeepsWeights where
  refl _ h := h
  trans _ _ _ h₁ h₂ h := h₂ (h₁ h)

theorem Stays.weights (h : Stays s t) : KeepsWeights s t := by
  intro hs i env henv
  rw [h] at henv
  exact hs i env henv

namespace KeepsWeights

theorem of_stays {m : Run R I σ n α} (h : Effect Stays m) : Effect KeepsWeights m :=
  h.mono fun _ _ => Stays.weights

theorem of_asked {K : List EventKind} {m : Run R I σ n α} (h : Effect (Asked K) m) :
    Effect KeepsWeights m := of_stays (Stays.of_asked h)

theorem setInst (argI : Fin n) (inst : Option I) :
    Effect KeepsWeights (setInst argI inst : Run R I σ n Unit) :=
  Effect.modify fun _ hs => hs.modifyArg fun env henv => hs argI env henv

/-- A new model has no weights yet, and is given them by the first step. -/
theorem initArgInfo (is : List (Fin n)) :
    Effect KeepsWeights (initArgInfo r is : Run R I σ n Bool) := by
  refine initArgInfo_effect (fun s i hs => ?_) is
  refine RunState.Weighted.modifyArg hs fun env henv => ?_
  cases henv
  exact .inr ⟨rfl, fun _ => rfl⟩

variable [Platform R]

theorem allocAutoshrink (argI : Fin n) :
    Effect KeepsWeights (allocAutoshrink r argI : Run R I σ n _) := by
  constructor
  intro s
  unfold Theft.allocAutoshrink
  rw [final_get_bind]
  cases henv : (s.trial.args argI).env with
  | none => exact fun hs => hs
  | some env =>
    have step : KeepsWeights s
        (final (zoomEnv argI env (autoshrinkAlloc ((r.typeInfo argI).alloc s.user))) s) := by
      rw [zoomEnv, final_zoom]
      have hmodel := (autoshrinkAlloc_model ((r.typeInfo argI).alloc s.user)).change
        ⟨s.prng, s.ledger, (s.trial.args argI).env.getD env⟩
      refine fun hs => RunState.Weighted.modifyArg hs fun env' henv' => ?_
      cases henv'
      unfold KeepsModel at hmodel
      rw [hmodel, henv]
      exact hs argI env henv
    refine Effect.bind_at step fun a => ?_
    obtain ⟨ares, res⟩ := a
    cases res with
    | none => exact Effect.pure _
    | some res =>
      obtain ⟨inst, user⟩ := res
      apply Effect.bind (of_asked (Asked.record (K := [.alloc]) (List.mem_singleton.mpr rfl)))
      intro _
      apply Effect.bind (of_asked (Asked.record (K := [.alloc]) (List.mem_singleton.mpr rfl)))
      intro _
      apply Effect.bind (Effect.modify fun _ hs => hs)
      intro _
      exact Effect.pure _

theorem genArg (i : Fin n) : Effect KeepsWeights (genArg r i : Run R I σ n _) := by
  unfold Theft.genArg
  split
  · exact allocAutoshrink i
  · exact of_asked (Asked.ask (K := [.alloc]) (List.mem_singleton.mpr rfl)
      (fun _ => List.mem_singleton.mpr rfl) _)

theorem genAllArgs (is : List (Fin n)) :
    Effect KeepsWeights (genAllArgs r is : Run R I σ n _) := by
  induction is with
  | nil =>
    apply Effect.bind Effect.get
    intro s
    split
    · apply Effect.bind (of_asked (Asked.callCheckCalled (K := [.hash]) (by decide) r))
      intro found
      split
      · exact Effect.pure _
      · exact Effect.pure _
    · exact Effect.pure _
  | cons i is ih =>
    apply Effect.bind (genArg i)
    intro a
    obtain ⟨ares, inst⟩ := a
    cases ares with
    | ok => exact Effect.bind (setInst i inst) fun _ => ih
    | skip => exact Effect.pure _
    | error => exact Effect.pure _

theorem markTrial : Effect KeepsWeights (markTrial r : Run R I σ n Unit) := by
  apply Effect.bind Effect.get
  intro s
  split
  · exact of_stays Stays.callMarkCalled
  · exact Effect.pure ()

end KeepsWeights

/-! ## Runs -/

/-- No hook asks to halt the run, or to repeat a call. -/
structure Runner.HooksContinue (r : Runner I σ n) : Prop where
  genArgsPre : ∀ hook, r.hooks.genArgsPre = some hook → ∀ info u, (hook info u).1 ≠ .halt
  trialPre : ∀ hook, r.hooks.trialPre = some hook → ∀ info u, (hook info u).1 ≠ .halt
  trialPost : ∀ hook, r.hooks.trialPost = some hook → ∀ info u answer u',
    (hook info u).Returns (answer, u') → answer ≠ .repeat_ ∧ answer ≠ .repeatOnce
  shrinkPre : r.NeverHalts
  shrinkTrialPost : r.NeverRepeats

/-- Callbacks as theft asks for them, and hooks that let it go on. -/
structure Runner.Cooperative (r : Runner I σ n) : Prop where
  sized : r.Sized
  property : ∃ prop, PropertyIs r prop
  hashes : ∀ i, r.autoshrinks i = true → ∃ hashes, HashesBy r hashes
  down : r.ShrinksDown
  tactics : ∀ i shrink, (r.typeInfo i).shrink = some shrink → ∀ inst, ∃ enough,
    ∀ tactic, enough ≤ tactic → ∀ u res candidate u',
      (shrink inst tactic u).Returns (res, candidate, u') → res = .noMoreTactics
  hooks : r.HooksContinue

variable [Platform R]

/-- A trial of the run from `s₀` calls `theft_shrink` in this state. -/
inductive CallsShrink (fuel : Nat) (r : Runner I σ n) (s₀ : RunState R I σ n) :
    RunState R I σ n → Prop
  | trial {k seed s t₁ t₂ t₃ t₄ t₅ t₆} : TrialAt fuel r s₀ k seed s → k < r.trialCount →
      initArgInfo r (List.finRange n) { s with trial := .start k (stepSeed r k seed) } =
        .ok true t₁ →
      genArgsPreHook r t₁ = .ok .cont t₂ →
      genAllArgs r (List.finRange n) { t₂ with prng := t₂.prng.setSeed (stepSeed r k seed) } =
        .ok .ok t₃ →
      trialPreHook r k (stepSeed r k seed) t₃ = .ok .cont t₄ →
      markTrial r t₄ = .ok () t₅ →
      call r t₅.trial.getArgs false t₅ = .ok .fail t₆ → CallsShrink fuel r s₀ t₆

/-- `theft_shrink` returns. -/
def ShrinkReturns (r : Runner I σ n) (s : RunState R I σ n) : Prop :=
  ∃ fuel res t, shrink fuel r s = .ok res t

variable {fuel : Nat} {s₀ : RunState R I σ n}

/-- The filter stays well formed through the run. -/
theorem TrialAt.filter {k : Nat} {seed : Word} (h : TrialAt fuel r s₀ k seed s) :
    KeepsFilter s₀ s := by
  induction h with
  | first hpre => exact (runPre_asked hpre).bloom |> .of_eq
  | @next k seed seed' s t _ _ hstep ih =>
    have hfilter : KeepsFilter s t :=
      ((Onward.runStep (fun _ h => h) fuel r k seed).of_returned hstep).bloom
    exact ⟨hfilter.isSome.trans ih.isSome, fun hinv => hfilter.inv (ih.inv hinv)⟩

theorem TrialAt.idle {memory : Memory} {cfg : Config I σ n} {user : σ}
    (hinit : runInit memory cfg user = some (r, s₀)) {k : Nat} {seed : Word}
    (h : TrialAt fuel r s₀ k seed s) : s.Idle r := by
  have hstarted := runInit_started hinit
  have hfilter := h.filter
  constructor
  · apply hfilter.inv
    intro b hb
    rw [hstarted.bloom] at hb
    split at hb
    · cases hb
      exact bloomInit_inv
    · cases hb
  · intro hsome i
    rw [hfilter.isSome, hstarted.bloom] at hsome
    split at hsome
    · rename_i hhashable
      have hall := (Bool.and_eq_true_iff.mp hhashable).1
      have hi := List.all_eq_true.mp hall i (List.mem_finRange i)
      rw [Runner.autoshrinks, hstarted.typeInfo]
      exact Bool.or_eq_true_iff.mp hi
    · cases hsome

/-- No step of a trial before its first shrinking step takes the weights away. -/
theorem CallsShrink.weighted (h : CallsShrink fuel r s₀ s) : s.Weighted := by
  cases h with
  | @trial k seed u t₁ t₂ t₃ t₄ t₅ _ _ _ hargs hgenPre hgen hpre hmark hcall =>
    have h₀ : ({ u with trial := .start k (stepSeed r k seed) } : RunState R I σ n).Weighted :=
      fun i env henv => by cases henv
    have h₁ := (KeepsWeights.initArgInfo _).of_returned hargs h₀
    have h₂ := (KeepsWeights.of_asked
      (Asked.genArgsPreHook (K := [.genArgsPre]) (by decide) r)).of_returned hgenPre h₁
    have h₃ : t₃.Weighted := (KeepsWeights.genAllArgs _).of_returned hgen h₂
    have h₄ := (KeepsWeights.of_asked
      (Asked.trialPreHook (K := [.trialPre]) (by decide) r _ _)).of_returned hpre h₃
    have h₅ := KeepsWeights.markTrial.of_returned hmark h₄
    exact (KeepsWeights.of_asked
      (Asked.call (K := [.call]) (by decide) r _ _)).of_returned hcall h₅

/-- There is a filter in a trial when there was one at the start of the run. -/
theorem CallsShrink.bloom (h : CallsShrink fuel r s₀ s) : s.bloom.isSome = s₀.bloom.isSome := by
  cases h with
  | @trial k seed u t₁ t₂ t₃ t₄ t₅ _ htrial _ hargs hgenPre hgen hpre hmark hcall =>
    calc
      s.bloom.isSome = t₅.bloom.isSome := by
        rw [((Asked.call (K := [.call]) (by decide) r _ _).of_returned hcall).bloom]
      _ = t₄.bloom.isSome :=
        ((Marking.markTrial (K := [.hash]) (by decide) r).of_returned hmark).bloom.isSome
      _ = t₃.bloom.isSome := by
        rw [((Asked.trialPreHook (K := [.trialPre]) (by decide) r _ _).of_returned hpre).bloom]
      _ = t₂.bloom.isSome := by
        rw [((Quiet.genAllArgs (K := [.alloc, .hash]) (fun _ h => h) r _).of_returned hgen).bloom]
      _ = t₁.bloom.isSome := by
        rw [((Asked.genArgsPreHook (K := [.genArgsPre]) (by decide) r).of_returned hgenPre).bloom]
      _ = u.bloom.isSome := by
        rw [((Quiet.initArgInfo (K := []) r _).of_returned hargs).bloom]
      _ = s₀.bloom.isSome := htrial.filter.isSome

/-- The property fails on the arguments, and each autoshrunk one is made from its pool. -/
theorem CallsShrink.failsOn {memory : Memory} {cfg : Config I σ n} {user : σ}
    (hinit : runInit memory cfg user = some (r, s₀)) (hr : r.Sized)
    {prop : Args I n → TrialRes} (hprop : PropertyIs r prop) (h : CallsShrink fuel r s₀ s) :
    FailsOn r prop s := by
  cases h with
  | trial htrial _ hargs hgenPre hgen hpre hmark hcall =>
    exact (Failing.called (htrial.idle hinit) hargs hgenPre hgen hpre hmark hcall).failsOn hr hprop

/-- A call of `theft_shrink` returns, in whatever order exchanges go down. -/
theorem CallsShrink.returns {memory : Memory} {cfg : Config I σ n} {user : σ}
    (hinit : runInit memory cfg user = some (r, s₀)) (hr : r.Cooperative)
    (hfair : ∀ i, r.autoshrinks i = true → Fair R) {good : RunState R I σ n → Prop}
    {lower : RunState R I σ n → RunState R I σ n → Prop} (hdown : GoesDown r good lower)
    (h : CallsShrink fuel r s₀ s) (hgood : good s) : ShrinkReturns r s := by
  obtain ⟨prop, hprop⟩ := hr.property
  have hready := (h.failsOn hinit hr.sized hprop).generated.ready
  obtain ⟨enough, hreturns⟩ := shrinkFrom_returns hfair hr.sized hr.hooks.shrinkTrialPost hdown s
    ⟨hready, ⟨hready.prng, hready.noPool, h.weighted⟩, hgood⟩ 0 (Nat.zero_le n) false
  refine ⟨enough, ?_⟩
  have hrun : shrink enough r s = shrinkFrom enough r enough 0 false s := by
    rw [shrink, require, if_pos (Nat.pos_of_ne_zero (runInit_started hinit).arity)]
    rfl
  rw [hrun]
  exact hreturns enough enough (Nat.le_refl _) (Nat.le_refl _)

end

end Theft
