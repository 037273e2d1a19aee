import Theft.AutoshrinkFrame
import Theft.DropSelection

/-!
# What a mutation step reports

`choose_and_mutate_request` returns whether it changed the copy. The retry loop and the model of
the mutations both go by it, so a false report would not be noticed anywhere:
`mutation_reports` shows that it is true exactly when a bit changed, and that the bits which
changed are those of the chosen request, or of two requests that exchanged their values.
-/

namespace Theft

open PackedBits Exec

/-- Bit `i` is one of those that answered request `pos`. -/
def BitPool.InRequest (orig : BitPool) (pos i : Nat) : Prop :=
  ∃ size, orig.requests[pos]? = some size ∧ (orig.requests.take pos).sum ≤ i ∧
    i < (orig.requests.take pos).sum + size

/-- A report on a mutation of request `pos`: it is true, the bits that changed are where they
should be, and nothing but bits was changed. -/
structure TrueReport (orig pool : BitPool) (mtype : Mutation) (pos : Nat) (r : Bool × BitPool) :
    Prop where
  truthful : r.1 = true ↔ ∃ i, bitAt r.2.bits i ≠ bitAt pool.bits i
  inside : (∀ i, bitAt r.2.bits i ≠ bitAt pool.bits i → orig.InRequest pos i) ∨
    (mtype = .swap ∧ ∃ other size, pos < other ∧ size ≤ 64 ∧ orig.requests[pos]? = some size ∧
      orig.requests[other]? = some size ∧
      pool.Exchanged r.2 (orig.requests.take pos).sum (orig.requests.take other).sum size)
  edited : pool.Edited r.2

theorem TrueReport.unchanged (orig pool : BitPool) (mtype : Mutation) (pos : Nat) :
    TrueReport orig pool mtype pos (false, pool) where
  truthful := by simp
  inside := .inl fun i h => absurd rfl h
  edited := .refl pool

theorem Mutated.trueReport {orig pool : BitPool} {mtype : Mutation} {pos size : Nat}
    {r : Bool × BitPool} (hsize : orig.requests[pos]? = some size)
    (h : Mutated orig pool mtype pos (orig.requests.take pos).sum size r) :
    TrueReport orig pool mtype pos r := by
  rcases h with hr | ⟨hswap, hshort, rfl | ⟨htrue, other, hother, hrequest, hexchanged⟩⟩
  · exact ⟨hr.truthful, .inl fun i hi => ⟨size, hsize, hr.inside i hi⟩, hr.edited⟩
  · exact .unchanged _ _ _ _
  · rw [List.range_eq_range', List.drop_range', List.mem_range'_1] at hother
    have hlater : pos < other := by omega
    exact ⟨iff_of_true htrue hexchanged.changed,
      .inr ⟨hswap, other, size, hlater, hshort, hsize, hrequest, hexchanged⟩, hexchanged.edited⟩

section
variable {R : Type} [Platform R]

/-- Nothing but the random bits and the ledger may have changed. -/
def SameEnv (s t : AutoState R) : Prop := t.env = s.env

omit [Platform R] in
instance : IsPreorder (AutoState R) SameEnv where
  refl _ := rfl
  trans _ _ _ h₁ h₂ := Eq.trans h₂ h₁

theorem drawMutation_env (bitCount shift mask swap sub fuel : Nat) :
    Effect SameEnv (drawMutation bitCount shift mask swap sub fuel : Auto R _) := by
  have draw : Effect SameEnv (prngBits bitCount : Auto R Word) := Effect.zoom fun s => rfl
  induction fuel with
  | zero => exact Effect.throw _
  | succ fuel ih =>
    apply Effect.bind draw
    intro w
    dsimp only
    split
    · exact Effect.pure _
    · split
      · exact Effect.pure _
      · split
        · exact Effect.pure _
        · split
          · exact Effect.pure _
          · exact ih

/-- The choice of a mutation only draws. -/
theorem getWeightedMutation_env (fuel : Nat) :
    Effect SameEnv (getWeightedMutation fuel : Auto R _) := by
  apply Effect.bind Effect.get
  intro s
  dsimp only
  split
  · exact Effect.throw _
  · exact Effect.pure _
  · exact Effect.pure _
  · exact Effect.pure _
  · exact Effect.pure _
  · split
    · exact drawMutation_env _ _ _ _ _ _
    · exact Effect.throw _

/-- The request that a step mutates, as an extent, and the step from there on. -/
theorem chooseAndMutateRequest_chosen {s : AutoState R} (hs : s.Ready) {fuel : Nat}
    {orig : BitPool} (ho : Source orig) (pool : BitPool) {mtype : Mutation} {s₁ : AutoState R}
    (hmut : getWeightedMutation fuel s = .ok mtype s₁) (hsome : orig.requestCount ≠ 0) {pos : Nat}
    (hpos : drawn s₁.prng.stream (log2ceil orig.requestCount) % orig.requestCount = pos) :
    ∃ size s₂, Drawing s₁ (later (log2ceil orig.requestCount) s₁.prng.stream) s₂ ∧ Within s s₂ ∧
      s₂.env = s.env ∧ orig.requests[pos]? = some size ∧ 0 < size ∧
      (orig.requests.take pos).sum + size ≤ orig.consumed ∧
      (∀ i, pos < i → (orig.requests.take pos).sum + size ≤ (orig.requests.take i).sum) ∧
      chooseAndMutateRequest fuel orig pool s =
        mutateAs mtype orig pool pos (orig.requests.take pos).sum size s₂ := by
  obtain ⟨hs₁, -⟩ := (getWeightedMutation_safe s fuel).returned hs.within hmut
  have henv : s₁.env = s.env := (getWeightedMutation_env fuel).of_returned hmut
  have hlog := raiseTo_le ho.inv.requestCount_bound 64 0 (by decide)
  obtain ⟨s₂, hdraw, hs₂⟩ := prngBits_run ⟨hs₁.prng, hs₁.noPool, rfl, rfl, rfl⟩ hlog
  have hlt : pos < orig.requestCount := hpos ▸ Nat.mod_lt _ (Nat.pos_of_ne_zero hsome)
  obtain ⟨size, hoffset, hrequest, hget, hsize, hle, hafter⟩ := ho.request hlt
  refine ⟨size, s₂, hs₂, ⟨hs₂.prng, hs₂.noPool, by rw [hs₂.env]; exact hs₁.unscheduled,
    hs₂.ledger.trans hs₁.ledger, by rw [hs₂.env]; exact hs₁.env⟩, hs₂.env.trans henv, hget, hsize,
    hle, hafter, ?_⟩
  rw [chooseAndMutateRequest, bind_apply, hmut]
  dsimp only
  rw [if_neg hsome, bind_apply, log2ceil, hdraw]
  change (attempt (offsetOfPos orig
      (drawn s₁.prng.stream (log2ceil orig.requestCount) % orig.requestCount)) >>= fun bitOffset =>
    attempt (requestAt orig
        (drawn s₁.prng.stream (log2ceil orig.requestCount) % orig.requestCount)) >>= fun size =>
      mutateAs mtype orig pool
        (drawn s₁.prng.stream (log2ceil orig.requestCount) % orig.requestCount) bitOffset size)
    s₂ = _
  rw [hpos, hoffset, hrequest]
  rfl

/-- **A mutation step touches only its request and reports truthfully**, whatever mutation and
whatever request is drawn. The step stops for no other reason than that no mutation was drawn. -/
theorem mutation_reports {s : AutoState R} (hs : s.Ready) (fuel : Nat) {orig : BitPool}
    (ho : Source orig) {pool : BitPool} (hpool : orig.consumed ≤ 8 * pool.bits.length) :
    (∃ s₁, getWeightedMutation fuel s = .error .fuel s₁ ∧
      chooseAndMutateRequest fuel orig pool s = .error .fuel s₁) ∨
    ∃ mtype s₁ r s', getWeightedMutation fuel s = .ok mtype s₁ ∧
      chooseAndMutateRequest fuel orig pool s = .ok r s' ∧
      TrueReport orig pool mtype
        (drawn s₁.prng.stream (log2ceil orig.requestCount) % orig.requestCount) r ∧
      s'.env = { s.env with model := s'.env.model } ∧ s'.ledger = s.ledger ∧
      s'.env.model.curSet = fun a =>
        (r.1 && decide (a = mtype.action)) || s.env.model.curSet a := by
  cases hmut : getWeightedMutation fuel s with
  | error e s₁ =>
    left
    obtain ⟨rfl, -⟩ := (getWeightedMutation_safe s fuel).stopped hs.within hmut
    exact ⟨s₁, rfl, by rw [chooseAndMutateRequest, bind_apply, hmut]⟩
  | ok mtype s₁ =>
    right
    obtain ⟨hs₁, -⟩ := (getWeightedMutation_safe s fuel).returned hs.within hmut
    have henv : s₁.env = s.env := (getWeightedMutation_env fuel).of_returned hmut
    by_cases hnone : orig.requestCount = 0
    · refine ⟨mtype, s₁, (false, pool), s₁, rfl, ?_, .unchanged _ _ _ _, hs₁.env, hs₁.ledger, ?_⟩
      · rw [chooseAndMutateRequest, bind_apply, hmut]
        dsimp only
        rw [if_pos hnone]
        rfl
      · rw [henv]
        rfl
    · obtain ⟨size, s₂, -, hw₂, henv₂, hget, hsize, hle, hafter, hrun⟩ :=
        chooseAndMutateRequest_chosen hs ho pool hmut hnone rfl
      have hset : s₂.env.model.curSet = s.env.model.curSet := by rw [henv₂]
      have hedits := mutate_edits ho hpool hsize (by omega) hafter mtype s₂ ⟨hw₂, hset⟩
      rw [hrun]
      revert hedits
      cases mutateAs mtype orig pool
          (drawn s₁.prng.stream (log2ceil orig.requestCount) % orig.requestCount)
          (orig.requests.take
            (drawn s₁.prng.stream (log2ceil orig.requestCount) % orig.requestCount)).sum size s₂ with
      | error e s' => exact False.elim
      | ok r s' =>
        rintro ⟨hs', hset', hmutated⟩
        exact ⟨mtype, s₁, r, s', rfl, rfl, hmutated.trueReport hget, hs'.env, hs'.ledger, hset'⟩

end

/-- A step of a runner that has just been seeded, with the weights that a model starts with. -/
def weightedAuto : AutoState Rng :=
  { freshAuto 1 with env := { (freshAuto 1).env with model := initModel .zero } }

theorem weightedAuto_ready : weightedAuto.Ready :=
  ⟨(freshAuto_ready 1).prng, rfl, rfl, (freshAuto_ready 1).dropBits, rfl⟩

theorem mutation_reports_weighted : ∃ mtype s₁ r s',
    getWeightedMutation 20 weightedAuto = .ok mtype s₁ ∧
    chooseAndMutateRequest 20 indexedPool mixedPool weightedAuto = .ok r s' ∧
    TrueReport indexedPool mixedPool mtype (drawn s₁.prng.stream (log2ceil 3) % 3) r ∧
    s'.env.model.curSet = fun a =>
      (r.1 && decide (a = mtype.action)) || weightedAuto.env.model.curSet a := by
  obtain ⟨mtype, s₁, hdrawn, -⟩ : ∃ mtype s₁, getWeightedMutation 20 weightedAuto =
      .ok mtype s₁ ∧ true = true := of_passes (p := fun _ _ => true) (by decide +kernel)
  have hroom : indexedPool.consumed ≤ 8 * mixedPool.bits.length := by decide
  rcases mutation_reports weightedAuto_ready 20 indexedPool_source hroom
    with ⟨s₁, hstop, -⟩ | ⟨mtype, s₁, r, s', hmut, hrun, hreport, -, -, hset⟩
  · cases hstop.symm.trans hdrawn
  · exact ⟨mtype, s₁, r, s', hmut, hrun, hreport, hset⟩

end Theft
