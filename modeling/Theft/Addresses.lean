import Theft.Autoshrink

/-!
# The address of a pool is never read

A pool at another address gives the same bits, so what a callback reads depends on the random
number generator alone.
-/

namespace Theft

open PackedBits Exec

/-- The pool at another address. -/
def BitPool.at (pool : BitPool) (id : Nat) : BitPool := { pool with id := id }

section
variable {R : Type} [Platform R]

theorem growBits_at (id : Nat) (fuel : Nat) : ∀ (pool : BitPool) (need : Nat),
    growBits R fuel (pool.at id) need = (growBits R fuel pool need).map (·.at id) := by
  induction fuel with
  | zero =>
    intro pool need
    rfl
  | succ fuel ih =>
    intro pool need
    unfold growBits
    by_cases hneed : pool.bitsCeil < need
    · simp only [BitPool.at, hneed, ↓reduceIte]
      cases reallocBits R pool.bits (2 * pool.bitsCeil / 8) with
      | none => rfl
      | some bits => exact ih { pool with bits := bits, bitsCeil := 2 * pool.bitsCeil } need
    · simp only [BitPool.at, hneed, ↓reduceIte]
      rfl

theorem fillWords_at (id : Nat) (fuel : Nat) : ∀ (rng : R) (pool : BitPool) (need : Nat),
    fillWords fuel rng (pool.at id) need =
      (fillWords fuel rng pool need).map fun (rng, pool) => (rng, pool.at id) := by
  induction fuel with
  | zero =>
    intro rng pool need
    rfl
  | succ fuel ih =>
    intro rng pool need
    unfold fillWords
    by_cases hneed : pool.bitsFilled < need
    · by_cases hceil : pool.bitsFilled / 64 * 64 < pool.bitsCeil
      · simp only [BitPool.at, hneed, hceil, ↓reduceIte]
        cases setWord pool.bits (pool.bitsFilled / 64) (Platform.rngRandom rng).1 with
        | none => rfl
        | some bits =>
          exact ih _ { pool with bits := bits, bitsFilled := pool.bitsFilled + 64 } need
      · simp only [BitPool.at, hneed, hceil, ↓reduceIte]
        rfl
    · simp only [BitPool.at, hneed, ↓reduceIte]
      rfl

theorem lazilyFillBitPool_at (id : Nat) (rng : R) (pool : BitPool) (bitCount : Nat) :
    lazilyFillBitPool rng (pool.at id) bitCount =
      (lazilyFillBitPool rng pool bitCount).map fun (rng, pool) => (rng, pool.at id) := by
  unfold lazilyFillBitPool
  have hgrow := growBits_at (R := R) id 64 pool (pool.consumed + bitCount)
  have hconsumed : (pool.at id).consumed = pool.consumed := rfl
  rw [hconsumed, hgrow]
  cases growBits R 64 pool (pool.consumed + bitCount) with
  | error e => rfl
  | ok pool' => exact fillWords_at id _ _ _ _

end

theorem fillBuf_at (id : Nat) (pool : BitPool) (bitCount : Nat) (buf : List Word) :
    fillBuf (pool.at id) bitCount buf =
      (fillBuf pool bitCount buf).map fun (pool, buf) => (pool.at id, buf) := by
  by_cases hdst : 0 < buf.length
  · simp only [fillBuf, BitPool.at, hdst, ↓reduceIte]
    cases copyBits pool.bits bitCount (bitCount + 1) 0 (pool.consumed / 64) (pool.consumed % 64) 0
      (buf.set 0 0) <;> rfl
  · simp only [fillBuf, hdst, ↓reduceIte]
    rfl

theorem appendRequest_at (id : Nat) (pool : BitPool) (bitCount : Nat) :
    appendRequest (pool.at id) bitCount = (appendRequest pool bitCount).map (·.at id) := by
  obtain ⟨_, bits, shrinking, bitsFilled, bitsCeil, limit, consumed, requests, requestCeil,
    generation, index⟩ := pool
  by_cases hfull : requests.length = requestCeil
  · subst hfull
    by_cases hlt : requests.length < requests.length * 2 <;>
      simp [appendRequest, BitPool.at, BitPool.requestCount, hlt, Except.map]
  · by_cases hlt : requests.length < requestCeil <;>
      simp [appendRequest, BitPool.at, BitPool.requestCount, hfull, hlt, Except.map]

theorem readBitPool_at (id : Nat) (pool : BitPool) (bitCount : Nat) (saveRequest : Bool)
    (buf : List Word) : readBitPool (pool.at id) bitCount saveRequest buf =
      (readBitPool pool bitCount saveRequest buf).map fun (pool, buf) => (pool.at id, buf) := by
  unfold readBitPool
  by_cases hlimit : pool.consumed = pool.limit
  · have hlimit' : (pool.at id).consumed = (pool.at id).limit := hlimit
    rw [if_pos hlimit, if_pos hlimit']
    cases memsetZero buf (wordCount bitCount) <;> rfl
  · have hlimit' : ¬ (pool.at id).consumed = (pool.at id).limit := hlimit
    rw [if_neg hlimit, if_neg hlimit']
    have hcount : (if (pool.at id).limit ≤ (pool.at id).consumed + bitCount then
        (pool.at id).limit - (pool.at id).consumed else bitCount) =
        if pool.limit ≤ pool.consumed + bitCount then pool.limit - pool.consumed else bitCount := rfl
    rw [hcount]
    cases saveRequest with
    | false => exact fillBuf_at id pool _ buf
    | true =>
      simp only [if_true, appendRequest_at]
      cases appendRequest pool
        (if pool.limit ≤ pool.consumed + bitCount then pool.limit - pool.consumed else bitCount) with
      | error e => rfl
      | ok pool' => exact fillBuf_at id pool' _ buf

section
variable {R : Type} [Platform R]

theorem bitPoolRandom_at (id : Nat) (rng : R) (pool : BitPool) (bitCount : Nat)
    (saveRequest : Bool) (buf : List Word) :
    bitPoolRandom rng (pool.at id) bitCount saveRequest buf =
      (bitPoolRandom rng pool bitCount saveRequest buf).map
        fun (rng, pool, buf) => (rng, pool.at id, buf) := by
  have hread : ∀ (rng : R) (pool : BitPool),
      ((readBitPool (pool.at id) bitCount saveRequest buf).map fun (pool, buf) => (rng, pool, buf)) =
        ((readBitPool pool bitCount saveRequest buf).map fun (pool, buf) => (rng, pool, buf)).map
          fun (rng, pool, buf) => (rng, pool.at id, buf) := by
    intro rng pool
    rw [readBitPool_at]
    cases readBitPool pool bitCount saveRequest buf <;> rfl
  unfold bitPoolRandom
  split
  · rfl
  · by_cases hshrinking : pool.shrinking
    · have hshrinking' : (pool.at id).shrinking := hshrinking
      rw [if_pos hshrinking, if_pos hshrinking']
      exact hread rng pool
    · have hshrinking' : ¬ (pool.at id).shrinking := hshrinking
      rw [if_neg hshrinking, if_neg hshrinking', lazilyFillBitPool_at]
      cases lazilyFillBitPool rng pool bitCount with
      | error e => rfl
      | ok res => exact hread res.1 res.2

/-! ## Callbacks -/

/-- The state of the random bits with its pool at another address. -/
def Prng.at (p : Prng R) (id : Nat) : Prng R := { p with bitPool := p.bitPool.map (·.at id) }

/-- A result in a state with its pool at another address. -/
def resultAt {α : Type} (id : Nat) : EStateM.Result Stop (Prng R) α → EStateM.Result Stop (Prng R) α
  | .ok a p => .ok a (p.at id)
  | .error e p => .error e (p.at id)

theorem randomBitsBulk_at (id : Nat) (bitCount : Nat) (buf : List Word) (p : Prng R)
    (pool : BitPool) (hpool : p.bitPool = some pool) :
    randomBitsBulk bitCount buf (p.at id) = resultAt id (randomBitsBulk bitCount buf p) ∧
      (final (randomBitsBulk bitCount buf) p).bitPool.isSome := by
  have hpool' : (p.at id).bitPool = some (pool.at id) := by rw [Prng.at, hpool]; rfl
  have hrng : (p.at id).rng = p.rng := rfl
  unfold final randomBitsBulk
  simp only [hpool, hpool', hrng, bitPoolRandom_at]
  cases bitPoolRandom p.rng pool bitCount true buf with
  | error e => exact ⟨rfl, by simp [hpool]⟩
  | ok res => exact ⟨rfl, rfl⟩

theorem randomBits_at (id : Nat) (bitCount : Nat) (p : Prng R) (hpool : p.bitPool.isSome) :
    randomBits bitCount (p.at id) = resultAt id (randomBits bitCount p) ∧
      (final (randomBits bitCount) p).bitPool.isSome := by
  obtain ⟨pool, hpool⟩ := Option.isSome_iff_exists.mp hpool
  obtain ⟨hrun, hsome⟩ := randomBitsBulk_at id bitCount [0] p pool hpool
  unfold randomBits
  split
  · unfold final at hsome ⊢
    rw [bind_apply, bind_apply, hrun]
    cases hbulk : randomBitsBulk bitCount [0] p with
    | ok buf q =>
      rw [hbulk] at hsome
      exact ⟨rfl, hsome⟩
    | error e q =>
      rw [hbulk] at hsome
      exact ⟨rfl, hsome⟩
  · exact ⟨rfl, by rw [final, throw_apply]; simp [hpool]⟩

/-- **A callback cannot tell where the pool it reads from is.** -/
theorem run_at (id : Nat) {α : Type} (g : Gen α) : ∀ p : Prng R, p.bitPool.isSome →
    g.run (p.at id) = resultAt id (g.run p) := by
  induction g with
  | ret a =>
    intro p _
    rfl
  | bits bitCount k ih =>
    intro p hpool
    obtain ⟨hrun, hsome⟩ := randomBits_at id bitCount p hpool
    unfold Gen.run
    unfold final at hsome
    rw [bind_apply, bind_apply, hrun]
    cases hbits : randomBits bitCount.val p with
    | ok w q =>
      rw [hbits] at hsome
      exact ih w q hsome
    | error e q => rfl
  | bulk bitCount buf k ih =>
    intro p hpool
    obtain ⟨pool, hpool⟩ := Option.isSome_iff_exists.mp hpool
    obtain ⟨hrun, hsome⟩ := randomBitsBulk_at id bitCount buf p pool hpool
    unfold Gen.run
    unfold final at hsome
    rw [bind_apply, bind_apply, hrun]
    cases hbits : randomBitsBulk bitCount.val buf p with
    | ok ws q =>
      rw [hbits] at hsome
      exact ih ws q hsome
    | error e q => rfl

/-! ## The pool that is read -/

/-- The pool that is read from, if there is one, is at the same address. -/
def SamePool (p q : Prng R) : Prop := q.bitPool.map BitPool.id = p.bitPool.map BitPool.id

omit [Platform R] in
instance : IsPreorder (Prng R) SamePool where
  refl _ := rfl
  trans _ _ _ h₁ h₂ := Eq.trans h₂ h₁

omit [Platform R] in
theorem SamePool.none {p q : Prng R} (h : SamePool p q) (hp : p.bitPool = none) :
    q.bitPool = none := by
  rw [SamePool, hp] at h
  exact Option.map_eq_none_iff.mp h

theorem drawBits_pool (fuel : Nat) : ∀ {rem shift offset : Nat} {buf buf' : List Word}
    {p q : Prng R}, drawBits fuel rem shift offset buf p = .ok (buf', q) →
    q.bitPool = p.bitPool := by
  induction fuel with
  | zero =>
    intro rem shift offset buf buf' p q h
    cases h
  | succ fuel ih =>
    intro rem shift offset buf buf' p q h
    have hrefill : p.refill.bitPool = p.bitPool := by
      unfold Prng.refill
      split <;> rfl
    unfold drawBits at h
    split at h
    · dsimp only at h
      split at h
      · cases h
      · generalize (if p.refill.bitsAvailable < if rem < 64 - shift then rem else 64 - shift
          then p.refill.bitsAvailable else if rem < 64 - shift then rem else 64 - shift)
          = take at h
        split at h
        · exact (ih h).trans hrefill
        · exact (ih h).trans hrefill
    · cases h
      rfl

theorem bitPoolRandom_id {rng rng' : R} {pool pool' : BitPool} {bitCount : Nat}
    {saveRequest : Bool} {buf buf' : List Word}
    (h : bitPoolRandom rng pool bitCount saveRequest buf = .ok (rng', pool', buf')) :
    pool'.id = pool.id := by
  -- the same pool at its own address
  have hat := bitPoolRandom_at pool.id rng pool bitCount saveRequest buf
  have hsame : pool.at pool.id = pool := rfl
  rw [hsame, h] at hat
  have hpool : pool' = pool'.at pool.id := by
    simp only [Except.map, Except.ok.injEq, Prod.mk.injEq] at hat
    exact hat.2.1
  rw [hpool]
  rfl

namespace SamePool

theorem randomBitsBulk (bitCount : Nat) (buf : List Word) :
    Effect (SamePool (R := R)) (randomBitsBulk bitCount buf) := by
  constructor
  intro p
  unfold final Theft.randomBitsBulk
  cases hpool : p.bitPool with
  | some pool =>
    dsimp only
    cases hrun : bitPoolRandom p.rng pool bitCount true buf with
    | ok res =>
      dsimp only [SamePool]
      rw [hpool, Option.map_some, Option.map_some, bitPoolRandom_id hrun]
    | error e => exact Std.Refl.refl p
  | none =>
    dsimp only
    cases hrun : drawBits (bitCount + 1) bitCount 0 0 buf p with
    | ok res =>
      dsimp only [SamePool]
      rw [drawBits_pool _ hrun]
    | error e => exact Std.Refl.refl p

theorem randomBits (bitCount : Nat) : Effect (SamePool (R := R)) (randomBits bitCount) := by
  unfold Theft.randomBits
  split
  · apply Effect.bind (randomBitsBulk _ _)
    intro res
    exact Effect.pure _
  · exact Effect.throw _

theorem run {α : Type} (g : Gen α) : Effect (SamePool (R := R)) g.run := by
  induction g with
  | ret a => exact Effect.pure a
  | bits bitCount k ih =>
    apply Effect.bind (randomBits _)
    intro w
    exact ih w
  | bulk bitCount buf k ih =>
    apply Effect.bind (randomBitsBulk _ _)
    intro ws
    exact ih ws

end SamePool

end

end Theft
