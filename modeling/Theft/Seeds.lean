import Theft.Accounting
import Theft.TrialStart

/-!
# The seeds of a run

* `RunsSeed`: some trial of the run has the seed;
* `runsSeed_all`, `runsSeed_take`: the seeds of a run that is not ended early, with more trials than
  seeds to run always or not.
-/

namespace Theft

open PackedBits Exec

section
variable {R I σ : Type} {n : Nat} [Platform R] {r : Runner I σ n} {s₀ : RunState R I σ n}
variable {fuel : Nat}

/-! ## Which seeds run -/

/-- Some trial of the run has the seed. -/
def RunsSeed (fuel : Nat) (r : Runner I σ n) (s₀ : RunState R I σ n) (w : Word) : Prop :=
  ∃ k seed s, TrialAt fuel r s₀ k seed s ∧ k < r.trialCount ∧
    (final (runStep fuel r k seed) s).trial.seed = w

theorem runsSeed_iff {w : Word} : RunsSeed fuel r s₀ w ↔
    ∃ k seed s, TrialAt fuel r s₀ k seed s ∧ k < r.trialCount ∧ stepSeed r k seed = w := by
  have hseed : ∀ k seed (s : RunState R I σ n),
      (final (runStep fuel r k seed) s).trial.seed = stepSeed r k seed :=
    fun k seed s => (Counting.runStep (fun _ h => h) fuel r k seed s).seed
  constructor
  · rintro ⟨k, seed, s, hs, hlt, hw⟩
    exact ⟨k, seed, s, hs, hlt, (hseed k seed s).symm.trans hw⟩
  · rintro ⟨k, seed, s, hs, hlt, hw⟩
    exact ⟨k, seed, s, hs, hlt, (hseed k seed s).trans hw⟩

theorem TrialAt.earlier {k : Nat} {seed : Word} {s : RunState R I σ n}
    (h : TrialAt fuel r s₀ k seed s) : ∀ j ≤ k, ∃ seed s, TrialAt fuel r s₀ j seed s := by
  induction h with
  | @first s hpre =>
    intro j hj
    cases Nat.le_zero.mp hj
    exact ⟨r.runSeed, s, .first hpre⟩
  | @next k seed seed' s t hs hlt hstep ih =>
    intro j hj
    obtain hj | rfl := Nat.le_succ_iff.mp hj
    · exact ih j hj
    · exact ⟨seed', t.wiped, .next hs hlt hstep⟩

omit [Platform R] in
theorem stepSeed_always (r : Runner I σ n) {k : Nat} (h : k < r.alwaysSeeds.length) (seed : Word) :
    stepSeed r k seed = r.alwaysSeeds[k] := dif_pos h

omit [Platform R] in
theorem stepSeed_run (r : Runner I σ n) (h : 0 < r.alwaysSeeds.length) (seed : Word) :
    stepSeed r r.alwaysSeeds.length seed = r.runSeed := by
  rw [stepSeed, dif_neg (Nat.lt_irrefl _), if_pos ⟨h, rfl⟩]

/-- The seeds of a run with more trials than seeds to run always. -/
theorem runsSeed_all (hdone : ∃ seed s, TrialAt fuel r s₀ r.trialCount seed s)
    (hlt : r.alwaysSeeds.length < r.trialCount) {w : Word} (hw : w ∈ r.runSeed :: r.alwaysSeeds) :
    RunsSeed fuel r s₀ w := by
  obtain ⟨_, _, hdone⟩ := hdone
  rw [runsSeed_iff]
  obtain rfl | hw := List.mem_cons.mp hw
  · obtain ⟨seed, s, hs⟩ := hdone.earlier r.alwaysSeeds.length (Nat.le_of_lt hlt)
    refine ⟨_, seed, s, hs, hlt, ?_⟩
    by_cases hempty : 0 < r.alwaysSeeds.length
    · exact stepSeed_run r hempty seed
    · -- without such seeds the first trial has the seed of the run
      have hzero : r.alwaysSeeds.length = 0 := by omega
      rw [hzero] at hs ⊢
      cases hs with
      | first => rw [stepSeed, dif_neg (by omega), if_neg (by omega)]
  · obtain ⟨k, hk, rfl⟩ := List.mem_iff_getElem.mp hw
    obtain ⟨seed, s, hs⟩ := hdone.earlier k (by omega)
    exact ⟨k, seed, s, hs, by omega, stepSeed_always r hk seed⟩

/-- The seeds of a run with as many trials as seeds to run always, or fewer. -/
theorem runsSeed_take (hdone : ∃ seed s, TrialAt fuel r s₀ r.trialCount seed s)
    (hle : r.trialCount ≤ r.alwaysSeeds.length) (w : Word) :
    RunsSeed fuel r s₀ w ↔ w ∈ r.alwaysSeeds.take r.trialCount := by
  rw [runsSeed_iff, List.mem_take_iff_getElem]
  constructor
  · rintro ⟨k, seed, s, -, hlt, rfl⟩
    exact ⟨k, by omega, (stepSeed_always r (by omega) seed).symm⟩
  · rintro ⟨k, hk, rfl⟩
    obtain ⟨_, _, hdone⟩ := hdone
    obtain ⟨seed, s, hs⟩ := hdone.earlier k (by omega)
    exact ⟨k, seed, s, hs, by omega, stepSeed_always r (by omega) seed⟩

end

end Theft
