import Mathlib.Data.List.Basic
import Theft.Lib.TwistedRegister
import Theft.RandomStream

/-!
# The generator and its recurrence

`theft_rng.c` generates 312 words at a time, each in the place of an older one.

* `reset_outputs`: what it delivers after a seed is the sequence of MT19937-64, tempered;
* `setSeed_injective`: the first 312 words a runner draws after `theft_random_set_seed` tell the
  seed.
-/

namespace Theft

open PackedBits TwistedRegister

namespace Rng

/-! ## The sequence of MT19937-64 -/

/-- One step of the seeding of the state. -/
def seedStep (k : Nat) (x : Word) : Word :=
  6364136223846793005 * (x ^^^ (x >>> 62)) + BitVec.ofNat 64 k

/-- The words of MT19937-64 for a seed: the first come from the seed one after the other, and each
other one from words before it. -/
structure Sequence (seed : Word) (x : Nat → Word) : Prop where
  first : x 0 = seed
  seeded : ∀ k, k + 1 < nn → x (k + 1) = seedStep (k + 1) (x k)
  twisted : ∀ k, x (k + nn) =
    x (k + mm) ^^^ companion matrixA ((x k &&& um) ||| (x (k + 1) &&& lm))

/-- The register of MT19937-64. -/
def params : Params 64 where
  size := nn
  middle := mm
  low := lm
  matrix := matrixA
  middle_pos := by decide
  middle_lt := by decide

theorem params_size : params.size = nn := rfl

theorem um_eq : um = ~~~lm := by decide

theorem mag01_eq (x : Word) : mag01 x = if x.getLsbD 0 then matrixA else 0 := by
  have hbit : (x &&& 1 = 0) ↔ x.getLsbD 0 = false := by
    constructor
    · intro h
      have hlow := congrArg (fun v : Word => v.getLsbD 0) h
      simpa using hlow
    · intro h
      apply BitVec.eq_of_getLsbD_eq
      intro i _
      cases i with
      | zero => simpa using h
      | succ i => simp [BitVec.getLsbD_one]
  unfold mag01
  cases h : x.getLsbD 0 with
  | true => rw [if_neg (by rw [hbit, h]; decide), if_pos rfl]
  | false => rw [if_pos (hbit.mpr h), if_neg (by decide)]

theorem twist_eq (mt : List Word) {i next middle : Nat} (hnext : next = (i + 1) % nn)
    (hmiddle : middle = (i + mm) % nn) :
    Rng.twist mt i next middle = TwistedRegister.twist params mt i := by
  subst hnext hmiddle
  simp only [Rng.twist, TwistedRegister.twist, Params.follow, companion, mix, params, mag01_eq,
    um_eq, BitVec.xor_assoc]
  rfl

theorem Sequence.recurrent {seed : Word} {x : Nat → Word} (h : Sequence seed x) :
    params.Recurrent x := by
  intro k
  rw [Params.follow, mix]
  have := h.twisted k
  rwa [um_eq] at this

theorem Sequence.eq {seed : Word} {x y : Nat → Word} (hx : Sequence seed x)
    (hy : Sequence seed y) : x = y := by
  apply hx.recurrent.eq_of_first hy.recurrent
  intro k
  induction k with
  | zero => exact fun _ => hx.first.trans hy.first.symm
  | succ k ih =>
    intro hk
    rw [hx.seeded k hk, hy.seeded k hk, ih (Nat.lt_of_succ_lt hk)]

/-! ## Seeding -/

theorem seedWords_getD (x : Nat → Word) (count : Nat) : ∀ k,
    (∀ j, j < count → x (k + j + 1) = seedStep (k + j + 1) (x (k + j))) →
      ∀ j < count, (seedWords count (k + 1) (x k)).getD j 0 = x (k + j + 1) := by
  induction count with
  | zero =>
    intro k _ j hj
    omega
  | succ count ih =>
    intro k hstep j hj
    have hnext : x (k + 1) = seedStep (k + 1) (x k) := hstep 0 (Nat.succ_pos _)
    rw [seedWords]
    cases j with
    | zero => exact hnext.symm
    | succ j =>
      rw [← seedStep, ← hnext, List.getD_cons_succ, ih (k + 1) _ j (by omega)]
      · congr 1
        omega
      · intro i hi
        have hlater := hstep (i + 1) (by omega)
        have hsum : k + 1 + i = k + (i + 1) := by omega
        rw [hsum]
        exact hlater

theorem length_seedWords (count k : Nat) (x : Word) : (seedWords count k x).length = count := by
  induction count generalizing k x with
  | zero => rfl
  | succ count ih => rw [seedWords, List.length_cons, ih]

/-- The state after a reset holds the first words of the sequence. -/
theorem Sequence.reset {seed : Word} {x : Nat → Word} (h : Sequence seed x) :
    Holds params x (Rng.reset seed).mt (0 * nn) := by
  refine ⟨by rw [Rng.reset, List.length_cons, length_seedWords]; rfl, fun k _ hk => ?_⟩
  have hlt : k < nn := by simpa [params] using hk
  rw [show params.size = nn from rfl, Nat.mod_eq_of_lt hlt, Rng.reset, ← h.first]
  cases k with
  | zero => rfl
  | succ k =>
    rw [List.getD_cons_succ]
    have hwords := seedWords_getD x (nn - 1) 0 (fun j hj => by
      simpa using h.seeded j (by omega)) k (by omega)
    simpa using hwords

/-! ## Drawing -/

/-- The generator is about to deliver the word `x k`. -/
structure Before (x : Nat → Word) (k : Nat) (r : Rng) : Prop where
  room : r.mti ≤ nn
  holds : ∃ b, Holds params x r.mt (b * nn) ∧ k = b * nn + r.mti

/-- The state once all its words are used up. -/
def nextBlock (mt : List Word) : List Word :=
  (List.range nn).foldl (TwistedRegister.twist params) mt

/-- The two loops and the last word go once around the state. -/
theorem generateWords_eq (mt : List Word) : generateWords mt = nextBlock mt := by
  have hrange : List.range nn =
      List.range (nn - mm) ++ (List.range' (nn - mm) (mm - 1) ++ [nn - 1]) := by
    decide +kernel
  -- the words that are `MM` places further on are in the state
  have hfirst : ∀ mt : List Word, ∀ i ∈ List.range (nn - mm),
      Rng.twist mt i (i + 1) (i + mm) = TwistedRegister.twist params mt i := by
    intro mt i hi
    rw [List.mem_range] at hi
    unfold nn mm at hi
    exact twist_eq mt (by unfold nn; omega) (by unfold nn mm; omega)
  -- they are back at its start
  have hsecond : ∀ mt : List Word, ∀ i ∈ List.range' (nn - mm) (mm - 1),
      Rng.twist mt i (i + 1) (i - (nn - mm)) = TwistedRegister.twist params mt i := by
    intro mt i hi
    rw [List.mem_range'_1] at hi
    unfold nn mm at hi
    exact twist_eq mt (by unfold nn; omega) (by unfold nn mm; omega)
  have hlast : ∀ mt : List Word,
      Rng.twist mt (nn - 1) 0 (mm - 1) = TwistedRegister.twist params mt (nn - 1) :=
    fun mt => twist_eq mt (by decide) (by decide)
  rw [nextBlock, hrange, List.foldl_append, List.foldl_append, ← List.foldl_ext _ _ _ hfirst,
    ← List.foldl_ext _ _ _ hsecond, List.foldl_cons, List.foldl_nil, ← hlast, generateWords]

theorem draw_of_full {r : Rng} (h : r.mti = nn) :
    genrand64Int64 r = (temper ((nextBlock r.mt).getD 0 0), ⟨nextBlock r.mt, 1⟩) := by
  have hne : ¬ r.mti = nn + 1 := by omega
  simp only [genrand64Int64, if_pos (Nat.le_of_eq h.symm), if_neg hne, generateWords_eq]

theorem draw_of_lt {r : Rng} (h : r.mti < nn) :
    genrand64Int64 r = (temper (r.mt.getD r.mti 0), ⟨r.mt, r.mti + 1⟩) := by
  simp only [genrand64Int64, if_neg (Nat.not_le.mpr h)]

/-- A draw delivers the next word, from inside the state. -/
theorem Before.draw {x : Nat → Word} (hx : params.Recurrent x) {k : Nat} {r : Rng}
    (h : Before x k r) :
    (genrand64Int64 r).1 = temper (x k) ∧ Before x (k + 1) (genrand64Int64 r).2 := by
  obtain ⟨hroom, b, hholds, rfl⟩ := h
  have hpos : 0 < nn := by decide
  by_cases hend : r.mti = nn
  · have hblock : Holds params x (nextBlock r.mt) ((b + 1) * nn) := hholds.block hx
    have hnext := hblock.2 ((b + 1) * nn) (Nat.le_refl _) (Nat.lt_add_of_pos_right hpos)
    rw [params_size, Nat.mul_mod_left] at hnext
    rw [draw_of_full hend, hend, ← Nat.succ_mul]
    generalize nextBlock r.mt = mt at hblock hnext
    exact ⟨congrArg temper hnext, hpos, b + 1, hblock, rfl⟩
  · have hlt : r.mti < nn := Nat.lt_of_le_of_ne hroom hend
    have hnext := hholds.2 (b * nn + r.mti) (Nat.le_add_right _ _) (Nat.add_lt_add_left hlt _)
    rw [params_size, Nat.add_comm, Nat.add_mul_mod_self_right, Nat.mod_eq_of_lt hlt,
      Nat.add_comm] at hnext
    rw [draw_of_lt hlt]
    exact ⟨congrArg temper hnext, hlt, b, hholds, Nat.add_assoc _ _ _⟩

theorem Before.rngWord {x : Nat → Word} (hx : params.Recurrent x) (j : Nat) :
    ∀ {k : Nat} {r : Rng}, Before x k r → Theft.rngWord r j = temper (x (k + j)) := by
  induction j with
  | zero => exact fun h => (h.draw hx).1
  | succ j ih =>
    intro k r h
    rw [Theft.rngWord, Nat.add_comm j 1, ← Nat.add_assoc]
    exact ih (h.draw hx).2

theorem Sequence.rngWord {seed : Word} {x : Nat → Word} (h : Sequence seed x) (k : Nat) :
    Theft.rngWord (Rng.reset seed) k = temper (x (nn + k)) :=
  Before.rngWord h.recurrent k ⟨Nat.le_refl _, 0, h.reset, rfl⟩

/-- There is a sequence for every seed. -/
theorem exists_sequence (seed : Word) : ∃ x, Sequence seed x := by
  have hlt : ∀ k, k + 1 < nn → k < params.size := fun k hk => Nat.lt_of_succ_lt hk
  refine ⟨params.word fun k => Nat.rec seed (fun j x => seedStep (j + 1) x) k, ?_, ?_, ?_⟩
  · exact params.word_of_lt _ (by decide)
  · intro k hk
    rw [params.word_of_lt _ hk, params.word_of_lt _ (hlt k hk)]
  · intro k
    rw [um_eq]
    exact params.word_recurrent _ k

/-- **The generator is MT19937-64.** After a reset its outputs are the tempered words of the one
sequence for the seed, after the words that the seed itself makes. -/
theorem reset_outputs (seed : Word) : ∃ x, (∀ y, Sequence seed y ↔ y = x) ∧
    ∀ k, Theft.rngWord (Platform.rngReset seed : Rng) k = temper (x (nn + k)) := by
  obtain ⟨x, hx⟩ := exists_sequence seed
  refine ⟨x, fun y => ⟨fun hy => hy.eq hx, ?_⟩, hx.rngWord⟩
  rintro rfl
  exact hx

/-! ## The seed from what is drawn -/

theorem temper_injective : Function.Injective temper := by
  have last : Function.Injective fun x : Word => x ^^^ (x >>> 43) := by
    have h := xor_shiftRight_injective (w := 64) (k := 43) (by decide) (BitVec.allOnes 64)
    simpa only [BitVec.and_allOnes] using h
  exact last.comp ((xor_shiftLeft_injective (by decide) _).comp
    ((xor_shiftLeft_injective (by decide) _).comp (xor_shiftRight_injective (by decide) _)))

/-- The multiplier has an inverse. -/
theorem seedStep_injective (k : Nat) : Function.Injective (seedStep k) := by
  intro x y h
  have hinverse : (13877824140714322085 * 6364136223846793005 : Word) = 1#64 := by decide
  have hprod : (6364136223846793005 : Word) * (x ^^^ (x >>> 62)) =
      (6364136223846793005 : Word) * (y ^^^ (y >>> 62)) := (BitVec.add_left_inj _).mp h
  have hmul := congrArg ((13877824140714322085 : Word) * ·) hprod
  simp only [← BitVec.mul_assoc, hinverse, BitVec.one_mul] at hmul
  have hxor := xor_shiftRight_injective (w := 64) (k := 62) (by decide) (BitVec.allOnes 64)
  simp only [BitVec.and_allOnes] at hxor
  exact hxor hmul

/-- As many outputs as there are words in the state tell the seed. -/
theorem reset_injective {seed seed' : Word}
    (h : ∀ k < nn, Theft.rngWord (Rng.reset seed) k = Theft.rngWord (Rng.reset seed') k) :
    seed = seed' := by
  obtain ⟨x, hx⟩ := exists_sequence seed
  obtain ⟨y, hy⟩ := exists_sequence seed'
  have hwindow : ∀ j < params.size, x (j + params.size) = y (j + params.size) := by
    intro j hj
    have := h j hj
    rw [hx.rngWord, hy.rngWord] at this
    rw [Nat.add_comm]
    exact temper_injective this
  have hone :=
    Params.Recurrent.of_window (by decide) (by decide) hx.recurrent hy.recurrent hwindow 0
  rw [hx.seeded 0 (by decide), hy.seeded 0 (by decide)] at hone
  rw [← hx.first, ← hy.first]
  exact seedStep_injective _ hone

end Rng

/-- **Seeds are told apart.** Whatever a runner did before, the bits of the first 312 words that
it draws after a seed are not those after any other seed. -/
theorem setSeed_injective (p : Prng Rng) : Function.Injective fun (seed : Word) =>
    fun i : Fin (64 * Rng.nn) => (p.setSeed seed).stream i := by
  intro seed seed' h
  apply Rng.reset_injective
  intro k hk
  apply BitVec.eq_of_getLsbD_eq
  intro i hi
  have hbit := congrFun h ⟨64 * k + i, by omega⟩
  have hdiv : (64 * k + i) / 64 = k := by omega
  have hmod : (64 * k + i) % 64 = i := by omega
  simp only [Prng.stream_setSeed, rngBits, hdiv, hmod] at hbit
  exact hbit

end Theft
