import Theft.DirectGeneration
import Theft.MersenneTwister
import Theft.TrialSeed

/-!
# The arguments of a trial, from its seed

`seeded_arguments`: what the trials of a run without autoshrinking generate, from the words of the
Mersenne Twister alone.
-/

namespace Theft

open PackedBits Exec

section
variable {R I σ : Type} {n : Nat}

/-- What the callbacks make of the bits `S`, one after the other: each one reads on where the one
before it stopped, and the first one that has no instance ends it. -/
def argsOf (allocs : Fin n → Gen (AllocRes × Option I)) :
    List (Fin n) → (Nat → Bool) → Args I n → Args I n
  | [], _, args => args
  | i :: rest, S, args =>
    if ((allocs i).eval S).1 = .ok then
      argsOf allocs rest (fun j => S (j + (allocs i).demand S))
        (update args i ((allocs i).eval S).2)
    else args

variable [Platform R] {r : Runner I σ n} {allocs : Fin n → Gen (AllocRes × Option I)}

/-- A runner whose callbacks read from the generator itself -/
structure Direct (s : RunState R I σ n) : Prop where
  inv : s.prng.Inv
  noPool : s.prng.bitPool = none

/-- One argument is generated from the next bits. -/
theorem genArg_direct (halloc : AllocsAre r.typeInfo allocs) (i : Fin n) (hz : (allocs i).Zeroed)
    (hplain : r.autoshrinks i = false) {s : RunState R I σ n} (hs : Direct s) :
    ∃ t, genArg r i s = .ok ((allocs i).eval s.prng.source) t ∧ Direct t ∧
      t.trial = s.trial ∧
      t.prng.source = fun j => s.prng.source (j + (allocs i).demand s.prng.source) := by
  have hmap : ((r.typeInfo i).alloc s.user).apart.map Prod.fst = allocs i :=
    (gen_map_map _ _ _).trans (halloc i s.user)
  have hz' : ((r.typeInfo i).alloc s.user).apart.Zeroed := Gen.Zeroed.map.mp (hmap ▸ hz)
  obtain ⟨⟨a, u⟩, p, hrun, hp, hpool, -⟩ := Gen.run_noPool _ hz'.sized hs.inv hs.noPool
  obtain ⟨heval, hreads⟩ := Gen.run_eval _ hz' hs.inv hrun
  have ha : a = (allocs i).eval s.prng.source := by
    rw [← hmap, Gen.eval_map, ← heval]
  have hdemand : (allocs i).demand s.prng.source =
      ((r.typeInfo i).alloc s.user).apart.demand s.prng.source := by
    rw [← hmap, Gen.demand_map]
  have hgen : genArg r i s = allocBasic i (r.typeInfo i).alloc s := by
    unfold genArg
    have hdisabled : ¬ (r.typeInfo i).autoshrinkConfig.enable = true := ne_true_of_eq_false hplain
    rw [if_neg hdisabled]
  rw [hgen, allocBasic_ok hrun, ← ha, hdemand]
  exact ⟨_, rfl, ⟨hp, hpool⟩, rfl, hreads.source⟩

theorem genAllArgs_direct (halloc : AllocsAre r.typeInfo allocs) (hz : ∀ i, (allocs i).Zeroed)
    (hplain : ∀ i, r.autoshrinks i = false) (is : List (Fin n)) :
    ∀ {s : RunState R I σ n}, Direct s → (final (genAllArgs r is) s).trial.getArgs =
      argsOf allocs is s.prng.source s.trial.getArgs := by
  induction is with
  | nil =>
    intro s _
    rw [((genAllArgs_nil r).change s).trial, argsOf]
  | cons i rest ih =>
    intro s hs
    obtain ⟨t, hrun, ht, htrial, hsource⟩ := genArg_direct halloc i (hz i) (hplain i) hs
    unfold final genAllArgs argsOf
    rw [bind_apply, hrun]
    cases ha : (allocs i).eval s.prng.source with
    | mk ares inst =>
      rw [← htrial]
      cases ares with
      | ok =>
        dsimp only
        rw [if_pos rfl, ← hsource, ← getArgs_withInst]
        exact ih (s := t.withInst i inst) ⟨ht.inv, ht.noPool⟩
      | skip => rfl
      | error => rfl

theorem Generates.direct {fuel : Nat} {s₀ : RunState R I σ n} {k : Nat} {w : Word}
    {args : Args I n} (halloc : AllocsAre r.typeInfo allocs) (hz : ∀ i, (allocs i).Zeroed)
    (hplain : ∀ i, r.autoshrinks i = false) (h : Generates fuel r s₀ k w args) :
    args = argsOf allocs (List.finRange n) (rngBits (Platform.rngReset w : R)) fun _ => none := by
  obtain @⟨_, s, t₁, t₂, -, -, -, hinit, hhook, rfl⟩ := h
  have htrial := (Effect.of_returned
    (Asked.genArgsPreHook (K := [.genArgsPre]) List.mem_cons_self r) hhook).trial
  have hdirect : Direct { t₂ with prng := t₂.prng.setSeed w } := ⟨setSeed_inv t₂.prng w, rfl⟩
  rw [genAllArgs_direct halloc hz hplain _ hdirect]
  dsimp only
  rw [source_setSeed, htrial, initArgInfo_getArgs _ hinit]
  rfl

end

section
variable {I σ : Type} {n : Nat} {r : Runner I σ n}
variable {allocs : Fin n → Gen (AllocRes × Option I)}

/-- **A trial's arguments are a function of its seed.** In a run without autoshrinking they are what
the `alloc` callbacks make, one after the other, of the bits of the tempered words of MT19937-64
for the seed of the trial. -/
theorem seeded_arguments {memory : Memory} {cfg : Config I σ n} {user : σ}
    {s₀ : RunState Rng I σ n} {fuel k : Nat} {w : Word} {args : Args I n} {x : Nat → Word}
    (hinit : runInit memory cfg user = some (r, s₀)) (halloc : AllocsAre cfg.typeInfo allocs)
    (hz : ∀ i, (allocs i).Zeroed) (hplain : ∀ i, (cfg.typeInfo i).autoshrinkConfig.enable = false)
    (h : Generates fuel r s₀ k w args) (hx : Rng.Sequence w x) :
    args = argsOf allocs (List.finRange n)
      (fun i => (Rng.temper (x (Rng.nn + i / 64))).getLsbD (i % 64)) fun _ => none := by
  have htypes := (runInit_started hinit).typeInfo
  rw [← htypes] at halloc hplain
  have hbits : rngBits (Platform.rngReset w : Rng) =
      fun i => (Rng.temper (x (Rng.nn + i / 64))).getLsbD (i % 64) := by
    funext i
    rw [rngBits, show (Platform.rngReset w : Rng) = Rng.reset w from rfl, hx.rngWord]
  rw [← hbits]
  exact h.direct halloc hz hplain

/-- The second of two trials, with the seed 5. -/
theorem seeded_arguments_five : ∃ r s₀ args, ∃ x : Nat → Word,
    runInit ⟨false, granted, granted⟩ secondSeed () = some (r, (s₀ : RunState Rng Word Unit 1)) ∧
    Generates 1 r s₀ 1 5 args ∧ Rng.Sequence 5 x ∧
    args = argsOf (fun _ => .bits 64 fun w => .ret (.ok, some w)) (List.finRange 1)
      (fun i => (Rng.temper (x (Rng.nn + i / 64))).getLsbD (i % 64)) fun _ => none := by
  obtain ⟨r, s₀, args, hinit, h⟩ := secondSeed_generates
  obtain ⟨x, hx⟩ := Rng.exists_sequence 5
  exact ⟨r, s₀, args, x, hinit, h, hx,
    seeded_arguments hinit (fun _ _ => rfl) (fun _ _ => trivial) (fun _ => rfl) h hx⟩

end

end Theft
