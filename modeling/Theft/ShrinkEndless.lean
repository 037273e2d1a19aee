import Theft.Rng
import Theft.ShrinkDescends

/-!
# Shrinking without an end

* `Runner.Relentless.not_returns`: without a bloom filter an autoshrunk argument is exchanged
  forever, when the property always fails;
* `Runner.FailsAtOnce.callsShrink`: a first trial that gets as far as `theft_shrink`.
-/

namespace Theft

open PackedBits Exec

section
variable {R I σ : Type} {n : Nat} {r : Runner I σ n} {s s₀ : RunState R I σ n} [Platform R]

/-! ## Without a bloom filter -/

/-- A property that fails on everything, and arguments that `alloc` makes from any bits. Nothing
else takes part in shrinking. -/
structure Runner.Relentless (r : Runner I σ n) : Prop where
  sized : r.Sized
  fails : PropertyIs r fun _ => .fail
  hooks : r.hooks = ⟨none, none, none, none, none, none, none, none, none⟩
  unshrunk : ∀ i, (r.typeInfo i).shrink = none
  allocates : ∀ i u res inst u',
    ((r.typeInfo i).alloc u).Returns (res, inst, u') → res = .ok
  zeroed : ∀ i u, ((r.typeInfo i).alloc u).Zeroed
  demand : ∀ i u S, 64 * ((r.typeInfo i).alloc u).demand S ≤ maxBits

omit [Platform R] in
theorem getDef_pos {x dflt : Nat} (h : 0 < dflt) : 0 < getDef x dflt := by
  unfold getDef
  split <;> omega

namespace Runner.Relentless
variable {i : Fin n}

omit [Platform R] in
theorem not_mayNotFail (hr : r.Relentless) : ¬ r.MayNotFail := by
  rintro ⟨args, u, u', tres, hreturns, hne⟩
  exact hne (hr.fails _ _ _ _ hreturns)

omit [Platform R] in
/-- The first candidate is one to try. -/
theorem offered (hr : r.Relentless) (hs : Generated r s) {c : ShrinkRes × Option I × Option BitPool}
    (hoffered : Offered r i (s.trial.args i) 0 c) : c.1 = .ok := by
  cases hoffered with
  | exhausted _ _ htries => exact absurd htries (Nat.not_le.mpr (getDef_pos (by decide)))
  | @noMemory env pool henable ha hmany =>
    obtain ⟨env', pool', u, u', ha', hplayed⟩ := hs.fromPool i henable
    have hpool := ha.pool_of_core ha' rfl
    have hconsumed := (hplayed (hr.zeroed i u)).consumed
    have hdemand := hr.demand i u (consumedBits pool')
    have hcount := length_le_sum fun k hk => (ha'.valid.inv.requests_range k hk).1
    have hsum := ha'.valid.inv.requests_sum
    have hrequests : pool'.requests = pool.requests := by rw [hpool]
    rw [hrequests] at hcount hsum
    rw [BitPool.requestCount] at hmany
    omega
  | replayed => rfl
  | skipped _ hreturns => cases hr.allocates _ _ _ _ _ hreturns
  | failed _ hreturns => cases hr.allocates _ _ _ _ _ hreturns
  | user _ hshrink => rw [hr.unshrunk] at hshrink; cases hshrink

/-- Each attempt exchanges the argument, if it has enough fuel. -/
theorem attempt (hr : r.Relentless) (hs : FailsOn r (fun _ => .fail) s) (hbloom : s.bloom = none)
    (henable : r.autoshrinks i = true) (inner : Nat) :
    (∃ t, attemptToShrinkArg inner r i s = .ok .ok t ∧ FailsOn r (fun _ => .fail) t ∧
      t.bloom = none) ∨ ∃ t, attemptToShrinkArg inner r i s = .error .fuel t := by
  obtain ⟨left, hleft⟩ : ∃ left, maxTactics = left + 1 := ⟨maxTactics - 1, by decide⟩
  have hspec := attemptTactic_spec hr.sized hs.generated.ready (.inr henable) inner 0 s
    (.refl hs.generated.ready)
  have hoffered := fun c => hr.offered (i := i) (c := c) hs.generated
  cases hrun : attemptTactic inner r i 0 s with
  | error e t =>
    rw [hrun] at hspec
    obtain rfl | ⟨-, hhook, -⟩ := hspec
    · refine .inr ⟨t, ?_⟩
      rw [attemptToShrinkArg, hleft, attemptTactics, bind_of_error hrun]
    · rw [hr.hooks] at hhook
      cases hhook
  | ok out t =>
    rw [hrun] at hspec
    cases hspec with
    | next _ hwhy =>
      obtain hsome | hmay | ⟨inst, copy, hdead⟩ := hwhy
      · rw [hbloom] at hsome
        cases hsome
      · exact absurd hmay hr.not_mayNotFail
      · cases hoffered _ hdead
    | halted _ hhook =>
      rw [hr.hooks] at hhook
      cases hhook
    | deadEnd _ hnone => cases hoffered _ hnone
    | failed hwhy =>
      obtain hmay | hhook | hhook | hhook | ⟨inst, copy, herror⟩ := hwhy
      · exact absurd hmay hr.not_mayNotFail
      · rw [hr.hooks] at hhook
        cases hhook
      · rw [hr.hooks] at hhook
        cases hhook
      · rw [hr.hooks] at hhook
        cases hhook
      · cases hoffered _ herror
    | @committed _ inst copy hoffered hheld =>
      have hreturned : attemptToShrinkArg inner r i s = .ok .ok t := by
        rw [attemptToShrinkArg, hleft, attemptTactics, bind_of_ok hrun]
        rfl
      refine .inl ⟨t, hreturned,
        hs.attempt hr.sized hr.fails (.inr henable) hreturned (by decide), ?_⟩
      have hsome := hheld.bloom
      rw [exchange_bloom, hbloom] at hsome
      exact Option.isNone_iff_eq_none.mp (by simpa using hsome)

/-- The loops never come to an end. -/
theorem shrinkFrom_endless (hr : r.Relentless) (henable : r.autoshrinks i = true)
    (inner fuel : Nat) : ∀ {s : RunState R I σ n} {argI : Nat} {progress : Bool}, argI ≤ i →
      FailsOn r (fun _ => .fail) s → s.bloom = none →
      ∃ t, shrinkFrom inner r fuel argI progress s = .error .fuel t := by
  induction fuel with
  | zero => exact fun _ _ _ => ⟨_, rfl⟩
  | succ fuel ih =>
    intro s argI progress hargI hs hbloom
    have hlt : argI < n := Nat.lt_of_le_of_lt hargI i.isLt
    by_cases hshrinkable : r.shrinkable ⟨argI, hlt⟩
    · have hauto : r.autoshrinks ⟨argI, hlt⟩ = true := by
        apply hshrinkable.resolve_left
        rw [hr.unshrunk]
        simp
      rw [shrinkFrom_attempt hlt hshrinkable]
      obtain ⟨t, hrun, ht, hnone⟩ | ⟨t, hrun⟩ := hr.attempt hs hbloom hauto inner
      · rw [bind_of_ok hrun]
        exact ih hargI ht hnone
      · exact ⟨t, bind_of_error hrun⟩
    · have hne : argI ≠ i := by
        rintro rfl
        exact hshrinkable (.inr henable)
      rw [shrinkFrom, dif_pos hlt, if_neg hshrinkable]
      exact ih (by omega) hs hbloom

theorem not_returns (hr : r.Relentless) (henable : r.autoshrinks i = true)
    (hs : FailsOn r (fun _ => .fail) s) (hbloom : s.bloom = none) : ¬ ShrinkReturns r s := by
  rintro ⟨fuel, res, u, hreturns⟩
  obtain ⟨t, hrun⟩ : ∃ t, shrinkFrom fuel r fuel 0 false s = .error .fuel t :=
    hr.shrinkFrom_endless henable fuel fuel (Nat.zero_le i) hs hbloom
  have hshrink : shrink fuel r s = .error .fuel t := by
    rw [shrink, require, if_pos (Fin.pos i)]
    exact hrun
  rw [hshrink] at hreturns
  cases hreturns

end Runner.Relentless

/-! ## A first trial that fails -/

/-- The property fails on everything, each `alloc` callback makes an instance of no bits in the
first state of user code, and no hook is called before shrinking. -/
structure Runner.FailsAtOnce (r : Runner I σ n) (user : σ) : Prop where
  sized : r.Sized
  fails : PropertyIs r fun _ => .fail
  trials : 0 < r.trialCount
  runPre : r.hooks.runPre = none
  genArgsPre : r.hooks.genArgsPre = none
  trialPre : r.hooks.trialPre = none
  allocates : ∀ i, ∃ inst, (r.typeInfo i).alloc user = .ret (.ok, some inst, user)
  poolSize : ∀ i, (r.typeInfo i).autoshrinkConfig.poolSize = 0

omit [Platform R] in
/-- A program that only fuel may stop, and that needs none, returns. -/
theorem Prompt.returns {α : Type} {m : Run R I σ n α} {P : RunState R I σ n → Prop}
    {Q : α → RunState R I σ n → Prop} (h : Spec P m Q fun e _ => e = .fuel) (hprompt : Prompt m)
    (hp : P s) (hs : s.Weighable) : ∃ a t, m s = .ok a t ∧ Q a t ∧ t.Weighable := by
  cases hrun : m s with
  | ok a t => exact ⟨a, t, rfl, h.returned hp hrun, hprompt.returned hs hrun⟩
  | error e t => exact absurd (h.stopped hp hrun) (hprompt.stopped hs hrun)

theorem markTrial_prompt : Prompt (markTrial r : Run R I σ n Unit) := by
  apply Spec.bind Prompt.get
  intro s
  split
  · exact Prompt.callMarkCalled
  · exact Prompt.pure ()

/-- Arguments that were called are in the filter. -/
theorem callCheckCalled_found {t : RunState R I σ n} (h : callCheckCalled r s = .ok true t) :
    ∃ w, s.Seen w := by
  obtain ⟨buffer, t₁, hbuffer, h⟩ := bind_eq_ok.mp h
  have hbloom := ((Asked.getArgHashBuffer (K := [.hash]) (by decide) r _).of_returned hbuffer).bloom
  obtain ⟨_, _, hget, h⟩ := bind_eq_ok.mp h
  cases hget
  rw [hbloom] at h
  cases hb : s.bloom with
  | none =>
    rw [hb] at h
    cases h
  | some b =>
    rw [hb] at h
    refine ⟨hashOnepass (hashBytes buffer), b, hb, ?_⟩
    dsimp only at h
    unfold bloomCheck attempt at h
    split at h
    · rename_i hcheck
      cases h
      exact hcheck
    · cases h

namespace Runner.FailsAtOnce
variable {user : σ}

theorem autoshrinkAlloc_run {α : Type} {a : AllocRes × α} {t : AutoState R} {id i : Nat}
    {config : AutoshrinkConfig} (hsize : config.poolSize = 0)
    (henv : t.env = autoshrinkAllocEnv id i config) :
    ∃ t', autoshrinkAlloc (.ret a) t = .ok (a.1, some a.2) t' := by
  have hroom : getAlignedSize (getDef t.env.poolSize defPoolSize) 64 ≤ maxBits := by
    rw [henv]
    dsimp only [autoshrinkAllocEnv]
    rw [hsize]
    decide
  unfold autoshrinkAlloc allocBitPool
  rw [bind_apply, get_apply]
  simp only [if_pos hroom]
  exact ⟨_, rfl⟩

/-- An instance of no bits is made, whether the argument is autoshrunk. -/
theorem genArg_run (hr : r.FailsAtOnce user) (i : Fin n) (huser : s.user = user)
    (henv : r.autoshrinks i = true → ∃ id, (s.trial.args i).env =
      some (autoshrinkAllocEnv id i (r.typeInfo i).autoshrinkConfig)) :
    ∃ inst t, genArg r i s = .ok (.ok, some inst) t ∧ t.user = user ∧ t.bloom = s.bloom ∧
      ∀ j ≠ i, t.trial.args j = s.trial.args j := by
  obtain ⟨inst, halloc⟩ := hr.allocates i
  rw [← huser] at halloc
  refine ⟨inst, ?_⟩
  unfold genArg
  by_cases henable : r.autoshrinks i = true
  · obtain ⟨id, henv⟩ := henv henable
    obtain ⟨t, hrun⟩ := autoshrinkAlloc_run (R := R) (a := (AllocRes.ok, some inst, s.user))
      (t := ⟨s.prng, s.ledger, autoshrinkAllocEnv id i (r.typeInfo i).autoshrinkConfig⟩)
      (hr.poolSize i) rfl
    have hzoom : zoomEnv i (autoshrinkAllocEnv id i (r.typeInfo i).autoshrinkConfig)
        (autoshrinkAlloc ((r.typeInfo i).alloc s.user)) s =
        .ok (.ok, some (some inst, s.user)) { s with
          prng := t.prng
          ledger := t.ledger
          trial := s.trial.modifyArg i fun a => { a with env := some t.env } } := by
      unfold zoomEnv zoom
      dsimp only
      rw [henv, Option.getD_some, halloc, hrun]
    rw [if_pos henable, allocAutoshrink, bind_apply, get_apply]
    dsimp only
    rw [henv]
    dsimp only
    rw [bind_of_ok hzoom]
    refine ⟨_, rfl, huser, rfl, fun j hj => ?_⟩
    dsimp only
    exact modifyArg_other _ hj _
  · rw [if_neg henable]
    unfold allocBasic ask
    refine ⟨{ s with trace := .allocated .ok (some inst) :: .alloc i :: s.trace }, ?_, huser, rfl,
      fun _ _ => rfl⟩
    simp only [record, runCallback, bind_apply, modify_apply, get_apply, halloc]
    rfl

/-- What a trial needs to have its remaining arguments generated. -/
structure Making (r : Runner I σ n) (user : σ) (rest : List (Fin n)) (s : RunState R I σ n) :
    Prop where
  generating : Generating r rest s
  weighted : s.Weighted
  user : s.user = user
  unseen : ∀ w, ¬ s.Seen w
  fresh : ∀ i ∈ rest, r.autoshrinks i = true → ∃ id, (s.trial.args i).env =
    some (autoshrinkAllocEnv id i (r.typeInfo i).autoshrinkConfig)

theorem genAllArgs_run (hr : r.FailsAtOnce user) (rest : List (Fin n)) :
    rest.Nodup → ∀ {s : RunState R I σ n}, Making r user rest s →
      ∃ t, genAllArgs r rest s = .ok .ok t := by
  induction rest with
  | nil =>
    intro _ s hs
    have hready := hs.generating.done.ready
    unfold genAllArgs
    rw [bind_apply, get_apply]
    dsimp only
    by_cases hbloom : s.bloom.isSome
    · rw [if_pos hbloom]
      obtain ⟨found, t, hrun, -⟩ := Prompt.returns (Keeps.callCheckCalled hbloom)
        Prompt.callCheckCalled (.refl hready) ⟨hready.prng, hready.noPool, hs.weighted⟩
      cases found with
      | true =>
        obtain ⟨w, hseen⟩ := callCheckCalled_found hrun
        exact absurd hseen (hs.unseen w)
      | false =>
        rw [bind_of_ok hrun]
        exact ⟨t, rfl⟩
    · rw [if_neg hbloom]
      exact ⟨s, rfl⟩
  | cons i rest ih =>
    intro hnodup s hs
    obtain ⟨hi, hrest⟩ := List.nodup_cons.mp hnodup
    obtain ⟨inst, t, hgen, huser, hbloom, hothers⟩ :=
      hr.genArg_run i hs.user (hs.fresh i List.mem_cons_self)
    have hnext : Making r user rest (t.withInst i (some inst)) := by
      refine ⟨(genArg_spec hr.sized hi).returned hs.generating hgen rfl, ?_, huser, ?_, ?_⟩
      · exact (KeepsWeights.setInst i (some inst)).of_returned rfl
          ((KeepsWeights.genArg i).of_returned hgen hs.weighted)
      · rintro w ⟨b, hb, hseen⟩
        exact hs.unseen w ⟨b, hbloom.symm.trans hb, hseen⟩
      · intro j hj henable
        have hji : j ≠ i := by
          rintro rfl
          exact hi hj
        rw [RunState.withInst, modifyArg_other _ hji, hothers j hji]
        exact hs.fresh j (List.mem_cons_of_mem _ hj) henable
    obtain ⟨u, hrun⟩ := ih hrest hnext
    refine ⟨u, ?_⟩
    rw [genAllArgs, bind_of_ok hgen]
    exact hrun

/-- The first trial of the run calls `theft_shrink`. -/
theorem callsShrink (hr : r.FailsAtOnce user) (hidle : s₀.Idle r) (huser : s₀.user = user)
    (hunseen : ∀ w, ¬ s₀.Seen w) (hroom : r.RoomFor s₀.ledger.nextId (List.finRange n)) :
    ∃ s, CallsShrink 0 r s₀ s := by
  have hfirst : TrialAt 0 r s₀ 0 r.runSeed s₀ := by
    apply TrialAt.first
    rw [runPreHook, hr.runPre]
    rfl
  let seed := stepSeed r 0 r.runSeed
  obtain ⟨t₁, hargs⟩ := initArgInfo_equipped (r := r) (List.finRange n)
    { s₀ with trial := .start 0 seed }
  rw [decide_eq_true hroom] at hargs
  obtain ⟨-, hbloom, -, henvs⟩ := initArgInfo_run _ hargs
  have hgenPre : genArgsPreHook r t₁ = .ok .cont t₁ := by
    rw [genArgsPreHook, hr.genArgsPre]
    rfl
  have hprepared := prepared_start hidle hargs hgenPre
  have hkeeps : Effect (Keeping fun t : RunState R I σ n => t.user = user)
      (initArgInfo r (List.finRange n)) := initArgInfo_effect (fun _ _ h => h) _
  have huser₁ : t₁.user = user := hkeeps.of_returned hargs huser
  have hstart : ({ s₀ with trial := .start 0 seed } : RunState R I σ n).Weighted :=
    fun i env henv => by cases henv
  have hweighted₁ : t₁.Weighted := (KeepsWeights.initArgInfo _).of_returned hargs hstart
  have hmaking : Making r user (List.finRange n)
      { t₁ with prng := t₁.prng.setSeed seed } := by
    refine ⟨hprepared, hweighted₁, huser₁, ?_, henvs⟩
    rintro w ⟨b, hb, hseen⟩
    exact hunseen w ⟨b, hbloom.symm.trans hb, hseen⟩
  obtain ⟨t₃, hgen⟩ := hr.genAllArgs_run _ (List.nodup_finRange n) hmaking
  have hready := ((genAllArgs_spec hr.sized _ (List.nodup_finRange n)).returned hprepared hgen
    rfl).ready
  have hweighted : t₃.Weighted := (KeepsWeights.genAllArgs _).of_returned hgen hmaking.weighted
  have htrialPre : trialPreHook r 0 seed t₃ = .ok .cont t₃ := by
    rw [trialPreHook, hr.trialPre]
    rfl
  obtain ⟨_, t₅, hmark, hheld, hweighable⟩ := Prompt.returns markTrial_keeps markTrial_prompt
    (.refl hready) ⟨hready.prng, hready.noPool, hweighted⟩
  obtain ⟨res, t₆, hcall, ⟨-, u, u', hreturns⟩, -⟩ :=
    Prompt.returns (Keeps.call hr.sized t₅.trial.getArgs false) (Prompt.call hr.sized _ false) hheld
      hweighable
  obtain rfl := hr.fails _ _ _ _ hreturns
  exact ⟨t₆, .trial hfirst hr.trials hargs hgenPre hgen htrialPre hmark hcall⟩

end Runner.FailsAtOnce

end

end Theft
