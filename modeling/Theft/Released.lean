import Theft.Accounting
import Theft.TrialBooks

/-!
# What autoshrinking allocates is released

`trial_releases_iff`: a trial releases each environment and each pool that it acquired exactly
once, unless it ends before its generation when it has environments already.
-/

namespace Theft

open PackedBits Exec

/-- Whatever was acquired between two states of the ledger was acquired once, and released
once. -/
def ReleasedOnce (before after : Ledger) : Prop :=
  ∀ x, before.entries.count (.acquire x) < after.entries.count (.acquire x) →
    after.entries.count (.acquire x) = before.entries.count (.acquire x) + 1 ∧
      after.entries.count (.release x) = before.entries.count (.release x) + 1

section
variable {R I σ : Type} {n : Nat} {s t : RunState R I σ n} {r : Runner I σ n}

/-! ## One resource -/

/-- The account of one resource. -/
def Account.one (I : Type) (x : Resource) : Account I := ⟨fun y => if y = x then 1 else 0, fun _ _ => 0⟩

theorem Account.one_res (x : Resource) : (Account.one I x).res x = 1 := if_pos rfl

theorem Account.one_freeable (x : Resource) (r : Runner I σ n) : (Account.one I x).Freeable r := by
  intro i _ inst
  cases inst <;> rfl

theorem Account.one_acquired (x : Resource) (l : Ledger) :
    (Account.one I x).acquired l = l.entries.count (.acquire x) := by
  unfold Account.acquired
  induction l.entries with
  | nil => rfl
  | cons e entries ih =>
    rw [List.map_cons, List.sum_cons, ih, List.count_cons]
    cases e with
    | release y => simp
    | acquire y => by_cases hy : y = x <;> simp [Account.one, hy, Nat.add_comm]

theorem Account.one_released (x : Resource) (l : Ledger) :
    (Account.one I x).released l = l.entries.count (.release x) := by
  unfold Account.released
  induction l.entries with
  | nil => rfl
  | cons e entries ih =>
    rw [List.map_cons, List.sum_cons, ih, List.count_cons]
    cases e with
    | acquire y => simp
    | release y => by_cases hy : y = x <;> simp [Account.one, hy, Nat.add_comm]

/-- What the books say of one resource. -/
theorem Books.one {b : Balance} {x : Resource} (h : Books (Account.one I x) b s) :
    s.ledger.entries.count (.acquire x) = s.ledger.entries.count (.release x) + b.res ∧
      s.ledger.entries.count (.acquire x) ≤ 1 := by
  have hres := h.res
  have hfresh := h.fresh x (by rw [Account.one_res]; exact Nat.one_pos)
  rw [Account.one_acquired, Account.one_released] at hres
  exact ⟨hres, by split at hfresh <;> omega⟩

theorem releasedOnce_of_closed (hs : ∀ x, Closed (.one I x) s) (ht : ∀ x, Closed (.one I x) t) :
    ReleasedOnce s.ledger t.ledger := by
  intro x hlt
  obtain ⟨hs, -⟩ := (hs x).books.one
  obtain ⟨ht, hle⟩ := (ht x).books.one
  dsimp only at hs ht
  omega

/-- An environment that is left was not released. -/
theorem not_releasedOnce_of_abandoned (hs : ∀ x, Closed (.one I x) s)
    (ht : ∀ x, Abandoned (.one I x) r s t) {i : Fin n}
    (hsome : (t.trial.args i).env.isSome = true) : ¬ ReleasedOnce s.ledger t.ledger := by
  obtain ⟨env, henv⟩ := Option.isSome_iff_exists.mp hsome
  intro hreleased
  obtain ⟨hbefore, -⟩ := (hs (.env env.id)).books.one
  obtain ⟨hstocked, -, -, hsuffix⟩ := ht (.env env.id)
  obtain ⟨hafter, hle⟩ := hstocked.books.one
  have hheld : 1 ≤ ((Account.one I (.env env.id)).held t.trial.args).res := by
    have hsingle := Finset.single_le_sum
      (f := fun j : Fin n => (Account.one I (.env env.id)).ofEnv (t.trial.args j).env)
      (fun _ _ => Nat.zero_le _) (Finset.mem_univ i)
    refine Nat.le_trans ?_ hsingle
    simp only [Account.ofEnv, henv, Option.elim_some, Account.one_res]
    omega
  have hcount := hsuffix.sublist.count_le (.release (.env env.id))
  have honce := (hreleased (.env env.id) (by dsimp only at hbefore; omega)).2
  dsimp only at hbefore
  omega

/-! ## Every trial -/

variable [Platform R]
variable {memory : Memory} {cfg : Config I σ n} {user : σ} {s₀ : RunState R I σ n}

/-- **A trial releases what it acquired** exactly when it acquires no environment, as no argument
is autoshrunk or there is no memory for the first of them, or when it comes to generate its
arguments: there is memory for all of them, and the hook before lets it go on. -/
theorem trial_releases_iff (hinit : runInit memory cfg user = some (r, s₀)) {fuel k : Nat}
    {seed seed' : Word} {res : RunStepRes} (hs : TrialAt fuel r s₀ k seed s)
    (hstep : runStep fuel r k seed s = .ok (res, seed') t) :
    ReleasedOnce s.ledger t.ledger ↔
      (∀ i, r.autoshrinks i = false) ∨ r.envMemory s.ledger.nextId = false ∨
        (r.RoomFor s.ledger.nextId (List.finRange n) ∧
          genArgsPreAnswer r k (stepSeed r k seed) s = .cont) := by
  have hclosed : ∀ x, Closed (.one I x) s := fun x => hs.closed (Account.one_freeable x r) hinit
  have haudit := fun x => (runStep_audit (Account.one_freeable x r) (hclosed x) fuel k
    seed).returned rfl hstep
  by_cases hgenerates : r.Generates k (stepSeed r k seed) s
  · exact ⟨fun _ => .inr (.inr hgenerates),
      fun _ => releasedOnce_of_closed hclosed fun x => (haudit x).1 hgenerates⟩
  · have habandoned := fun x => ((haudit x).2 hgenerates).2
    have hleft := (habandoned (.env 0)).left
    constructor
    · intro hreleased
      by_contra hnot
      obtain ⟨hsome, hnot⟩ := not_or.mp hnot
      obtain ⟨i, hi⟩ := not_forall.mp hsome
      obtain ⟨i, hi⟩ := hleft.mpr ⟨⟨i, Bool.eq_true_of_not_eq_false hi⟩,
        Bool.eq_true_of_not_eq_false (not_or.mp hnot).1⟩
      exact not_releasedOnce_of_abandoned hclosed habandoned hi hreleased
    · intro hnone
      apply releasedOnce_of_closed hclosed
      intro x
      apply (habandoned x).closed
      intro i
      have hnot : ¬ (t.trial.args i).env.isSome = true := by
        intro hi
        obtain ⟨⟨j, hj⟩, hmemory⟩ := hleft.mp ⟨i, hi⟩
        obtain hnone | hnone | hgenerates' := hnone
        · rw [hnone] at hj
          cases hj
        · rw [hnone] at hmemory
          cases hmemory
        · exact hgenerates hgenerates'
      rw [Option.not_isSome_iff_eq_none.mp hnot]
      rfl

end

/-! ## A hook that halts the run -/

/-- Three random bits, and a hook that halts the run before they are drawn. -/
def haltsFirst : Config Word Unit 1 :=
  { anyThreeBits with
    hooks := { anyThreeBits.hooks with genArgsPre := some fun _ u => (.halt, u) } }

/-- The environment is still there when `run_step` returns. -/
theorem haltsFirst_leaks : ∃ r s₀ s t,
    runInit ⟨false, granted, granted⟩ haltsFirst () = some (r, s₀) ∧
    TrialAt 1 r s₀ 0 r.runSeed (s : RunState Nat Word Unit 1) ∧
    runStep 1 r 0 r.runSeed s = .ok (.halt, 1) t ∧ ¬ ReleasedOnce s.ledger t.ledger := by
  have hrun : (runInit (R := Nat) ⟨false, granted, granted⟩ haltsFirst ()).any (fun a =>
      passes (fun answer s => decide (answer = .cont) &&
        passes (fun b t => decide (b = (.halt, 1) ∧ s.ledger.entries = [] ∧
          t.ledger.entries = [.acquire (.env 0)])) (runStep 1 a.1 0 a.1.runSeed s))
        (runPreHook a.1 a.2)) = true := by decide +kernel
  obtain ⟨⟨r, s₀⟩, hinit, hpass⟩ := (Option.any_eq_true _ _).mp hrun
  obtain ⟨answer, s, hpre, hpass⟩ := of_passes hpass
  obtain ⟨hcont, hpass⟩ := Bool.and_eq_true_iff.mp hpass
  obtain ⟨b, t, hstep, hpass⟩ := of_passes hpass
  obtain ⟨rfl, hbefore, hafter⟩ := of_decide_eq_true hpass
  rw [of_decide_eq_true hcont] at hpre
  refine ⟨r, s₀, s, t, hinit, .first hpre, hstep, fun h => ?_⟩
  have honce := (h (.env 0) (by rw [hbefore, hafter]; decide)).2
  rw [hbefore, hafter] at honce
  exact absurd honce (by decide)

theorem trial_releases_iff_bits : ∃ r s₀ s seed' t,
    runInit ⟨false, granted, granted⟩ anyThreeBits () = some (r, s₀) ∧
    TrialAt 1 r s₀ 0 r.runSeed (s : RunState Nat Word Unit 1) ∧
    runStep 1 r 0 r.runSeed s = .ok (.ok, seed') t ∧ ReleasedOnce s.ledger t.ledger := by
  have hrun : (runInit (R := Nat) ⟨false, granted, granted⟩ anyThreeBits ()).any (fun a =>
      passes (fun answer s => decide (answer = .cont) &&
        passes (fun b _ => decide (b.1 = .ok ∧
          a.1.RoomFor s.ledger.nextId (List.finRange 1) ∧
          genArgsPreAnswer a.1 0 (stepSeed a.1 0 a.1.runSeed) s = .cont))
          (runStep 1 a.1 0 a.1.runSeed s)) (runPreHook a.1 a.2)) = true := by decide +kernel
  obtain ⟨⟨r, s₀⟩, hinit, hpass⟩ := (Option.any_eq_true _ _).mp hrun
  obtain ⟨answer, s, hpre, hpass⟩ := of_passes hpass
  obtain ⟨hcont, hpass⟩ := Bool.and_eq_true_iff.mp hpass
  obtain ⟨⟨res, seed'⟩, t, hstep, hpass⟩ := of_passes hpass
  obtain ⟨rfl, hroom, hanswer⟩ := of_decide_eq_true hpass
  rw [of_decide_eq_true hcont] at hpre
  have hs : TrialAt 1 r s₀ 0 r.runSeed s := .first hpre
  exact ⟨r, s₀, s, seed', t, hinit, hs, hstep,
    (trial_releases_iff hinit hs hstep).mpr (.inr (.inr ⟨hroom, hanswer⟩))⟩

end Theft
