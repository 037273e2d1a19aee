import Theft.PoolInv

/-!
# What a callback reads

Whatever a runner reads from (its generator, a pool that is filled on demand, a
shrunken pool that ends at its limit), the bits a callback receives are the next bits
of one infinite string, `Prng.source`. So a callback that reads into zeroed buffers
computes a function of that string: `Gen.eval`.
-/

namespace Theft

open PackedBits

namespace BitPool

/-- What stays of a pool while a callback reads from it. -/
structure SameTape (a b : BitPool) : Prop where
  id : b.id = a.id
  shrinking : b.shrinking = a.shrinking
  limit : b.limit = a.limit
  generation : b.generation = a.generation
  index : b.index = a.index
  fixed : a.shrinking = true →
    b.bits = a.bits ∧ b.bitsFilled = a.bitsFilled ∧ b.bitsCeil = a.bitsCeil

theorem SameTape.refl (a : BitPool) : SameTape a a :=
  ⟨rfl, rfl, rfl, rfl, rfl, fun _ => ⟨rfl, rfl, rfl⟩⟩

theorem SameTape.trans {a b c : BitPool} (h₁ : SameTape a b) (h₂ : SameTape b c) :
    SameTape a c where
  id := h₂.id.trans h₁.id
  shrinking := h₂.shrinking.trans h₁.shrinking
  limit := h₂.limit.trans h₁.limit
  generation := h₂.generation.trans h₁.generation
  index := h₂.index.trans h₁.index
  fixed := fun h => by
    obtain ⟨hb, hf, hc⟩ := h₁.fixed h
    obtain ⟨hb', hf', hc'⟩ := h₂.fixed (h₁.shrinking.trans h)
    exact ⟨hb'.trans hb, hf'.trans hf, hc'.trans hc⟩

theorem sameTape_afterRead (pool : BitPool) (n : Nat) : SameTape pool (pool.afterRead n) := by
  unfold afterRead
  split <;> exact ⟨rfl, rfl, rfl, rfl, rfl, fun _ => ⟨rfl, rfl, rfl⟩⟩

end BitPool

namespace Prng
variable {R : Type}

/-- The same pool is injected, or there is none in both. -/
def SamePool (p p' : Prng R) : Prop :=
  match p.bitPool, p'.bitPool with
  | none, none => True
  | some pool, some pool' => pool.SameTape pool'
  | _, _ => False

theorem SamePool.refl (p : Prng R) : SamePool p p := by
  unfold SamePool
  cases p.bitPool with
  | none => trivial
  | some pool => exact .refl pool

theorem SamePool.trans {p q r : Prng R} (h₁ : SamePool p q) (h₂ : SamePool q r) :
    SamePool p r := by
  unfold SamePool at *
  cases hp : p.bitPool <;> cases hq : q.bitPool <;> cases hr : r.bitPool <;>
    simp only [hp, hq, hr] at h₁ h₂ ⊢
  exact h₁.trans h₂

theorem SamePool.of_none {p p' : Prng R} (h : SamePool p p') (hp : p.bitPool = none) :
    p'.bitPool = none := by
  unfold SamePool at h
  rw [hp] at h
  cases hp' : p'.bitPool with
  | none => rfl
  | some pool => rw [hp'] at h; exact h.elim

theorem SamePool.of_some {p p' : Prng R} (h : SamePool p p') {pool : BitPool}
    (hp : p.bitPool = some pool) : ∃ pool', p'.bitPool = some pool' ∧ pool.SameTape pool' := by
  unfold SamePool at h
  rw [hp] at h
  cases hp' : p'.bitPool with
  | none => rw [hp'] at h; exact h.elim
  | some pool' => rw [hp'] at h; exact ⟨pool', rfl, h⟩

/-- A pool that still grows is injected: only then can memory run out. -/
def Growing (p : Prng R) : Prop := ∃ pool, p.bitPool = some pool ∧ pool.shrinking = false

theorem SamePool.growing {p p' : Prng R} (h : SamePool p p') (hg : p'.Growing) : p.Growing := by
  obtain ⟨pool', hp', hsh⟩ := hg
  cases hp : p.bitPool with
  | none => rw [h.of_none hp] at hp'; cases hp'
  | some pool =>
    obtain ⟨pool'', hp'', hsame⟩ := h.of_some hp
    rw [hp'] at hp''
    cases hp''
    exact ⟨pool, hp, hsame.shrinking.symm.trans hsh⟩

end Prng

section
variable {R : Type} [Platform R]

/-- The bits of a pool, and zeroes from its limit on. -/
def tape (rng : R) (pool : BitPool) (i : Nat) : Bool :=
  decide (i < pool.limit) && fillStream rng pool i

theorem tape_of_lt (rng : R) {pool : BitPool} {i : Nat} (hlimit : i < pool.limit)
    (hfilled : i < pool.bitsFilled) : tape rng pool i = bitAt pool.bits i := by
  simp only [tape, fillStream, hlimit, hfilled, decide_true, Bool.true_and, if_true]

theorem tape_of_le {rng : R} {pool : BitPool} {i : Nat} (h : pool.limit ≤ i) :
    tape rng pool i = false := by
  rw [tape, decide_eq_false (by omega), Bool.false_and]

/-- The pool is ready for a request of `n` bits: filled far enough, with the bits it had. -/
structure Filled (n : Nat) (rng rng' : R) (pool pool' : BitPool) : Prop where
  inv : pool'.Inv
  same : pool.SameTape pool'
  consumed : pool'.consumed = pool.consumed
  requests : pool'.requests = pool.requests
  requestCeil : pool'.requestCeil = pool.requestCeil
  enough : pool'.consumed + pool'.granted n ≤ pool'.bitsFilled
  tape : tape rng' pool' = tape rng pool

/-- A pool was made ready for a request of `n` bits and served it into a buffer. -/
structure Served (n : Nat) (rng rng' : R) (pool pool' : BitPool) (buf buf' : List Word) :
    Prop where
  filled : Filled n rng rng' pool pool'
  run : bitPoolRandom rng pool n true buf = .ok (rng', pool'.afterRead n, buf')
  length : buf'.length = buf.length
  bits : ∀ i, bitAt buf' i =
    if pool.consumed = pool.limit then bitAt buf i && decide (8 * wordCount n ≤ i)
    else if i < pool.granted n then tape rng pool (pool.consumed + i)
    else if i < 64 * wordCount (pool.granted n) then false else bitAt buf i

/-- The read from a pool made ready, whichever way it was. -/
theorem Filled.served {n : Nat} {rng rng' : R} {pool pool' : BitPool}
    (hfilled : Filled n rng rng' pool pool') (hn : 0 < n) {buf : List Word}
    (hbuf : wordCount n ≤ buf.length)
    (heq : (if pool.shrinking then Except.ok (rng, pool) else lazilyFillBitPool rng pool n) =
      .ok (rng', pool')) :
    ∃ buf', Served n rng rng' pool pool' buf buf' := by
  have hn0 : n ≠ 0 := by omega
  obtain ⟨buf', hread, hlen, hbits⟩ := readBitPool_spec hfilled.inv hn hfilled.enough hbuf
  refine ⟨buf', hfilled, ?_, hlen, fun i => ?_⟩
  · simp only [bitPoolRandom, if_neg hn0, heq, hread]
    rfl
  · have hg : pool'.granted n = pool.granted n := by
      simp only [BitPool.granted, hfilled.consumed, hfilled.same.limit]
    have henough := hfilled.enough
    rw [hbits, hg, hfilled.consumed, hfilled.same.limit]
    split
    · rfl
    · split
      · rename_i hi
        have hlimit : pool.consumed + i < pool.limit := by
          simp only [BitPool.granted] at hi
          omega
        rw [← hfilled.tape, tape_of_lt _ (by rw [hfilled.same.limit]; exact hlimit) (by
          rw [hg, hfilled.consumed] at henough
          omega)]
      · rfl

/-- A request to a pool: memory runs out, or the pool is made ready and read. -/
theorem bitPoolRandom_spec (rng : R) {pool : BitPool} (inv : pool.Inv) {n : Nat} (hn : 0 < n)
    (buf : List Word) (hbuf : wordCount n ≤ buf.length) :
    (pool.shrinking = false ∧ ∀ buf, bitPoolRandom rng pool n true buf = .error .allocation) ∨
    ∃ rng' pool' buf', Served n rng rng' pool pool' buf buf' := by
  have hn0 : n ≠ 0 := by omega
  have hg : pool.granted n ≤ n ∧ pool.granted n ≤ pool.limit - pool.consumed :=
    ⟨Nat.min_le_left _ _, Nat.min_le_right _ _⟩
  cases hsh : pool.shrinking with
  | true =>
    right
    have hle := inv.shrinking hsh
    have hcl := inv.consumed_le_limit
    have hfilled : Filled n rng rng pool pool :=
      ⟨inv, .refl _, rfl, rfl, rfl, by omega, rfl⟩
    exact ⟨rng, pool, hfilled.served hn hbuf (by rw [if_pos hsh])⟩
  | false =>
    rcases lazilyFillBitPool_spec rng inv hsh n with herr |
      ⟨rng', bits, filled, ceil, hfill, hle, inv', hs⟩
    · left
      refine ⟨rfl, fun buf => ?_⟩
      simp only [bitPoolRandom, if_neg hn0, hsh, Bool.false_eq_true, if_false, herr]
    · right
      have hfilled : Filled n rng rng' pool
          { pool with bits := bits, bitsFilled := filled, bitsCeil := ceil } := by
        refine ⟨inv', ⟨rfl, rfl, rfl, rfl, rfl, fun h => ?_⟩, rfl, rfl, rfl, ?_, ?_⟩
        · rw [hsh] at h
          cases h
        · simp only [BitPool.granted]
          omega
        · funext i
          simp only [tape, hs]
      refine ⟨rng', _, hfilled.served hn hbuf ?_⟩
      simp only [hsh, Bool.false_eq_true, if_false, hfill]

/-! ## The source of a runner -/

namespace Prng

/-- What holds of the random state of every runner. -/
structure Inv (p : Prng R) : Prop where
  available : p.bitsAvailable ≤ 64
  pool : ∀ pool, p.bitPool = some pool → pool.Inv

/-- Everything a callback could still read. -/
def source (p : Prng R) (i : Nat) : Bool :=
  match p.bitPool with
  | none => p.stream i
  | some pool => tape p.rng pool (pool.consumed + i)

end Prng

namespace Prng

/-- `n` bits of the source are used up; an injected pool keeps its bits and counts them, up to
its limit. -/
structure Reads (n : Nat) (p p' : Prng R) : Prop where
  same : p.SamePool p'
  source : p'.source = fun i => p.source (i + n)
  pool : ∀ pool pool', p.bitPool = some pool → p'.bitPool = some pool' →
    tape p'.rng pool' = tape p.rng pool ∧
      pool'.consumed = min (pool.consumed + n) pool.limit

theorem Inv.reads_zero {p : Prng R} (hp : p.Inv) : p.Reads 0 p where
  same := .refl p
  source := rfl
  pool := by
    intro pool pool' h h'
    rw [h] at h'
    cases h'
    have hle := (hp.pool pool h).consumed_le_limit
    exact ⟨rfl, by omega⟩

theorem Reads.trans {n m : Nat} {p q r : Prng R} (h₁ : p.Reads n q) (h₂ : q.Reads m r) :
    p.Reads (n + m) r where
  same := h₁.same.trans h₂.same
  source := by
    rw [h₂.source, h₁.source]
    funext i
    simp only [Nat.add_assoc, Nat.add_comm m]
  pool := by
    intro pool pool'' hp hr
    obtain ⟨pool', hq, hsame⟩ := h₁.same.of_some hp
    obtain ⟨ht, hc⟩ := h₁.pool pool pool' hp hq
    obtain ⟨ht', hc'⟩ := h₂.pool pool' pool'' hq hr
    refine ⟨ht'.trans ht, ?_⟩
    rw [hc', hc, hsame.limit]
    omega

end Prng

namespace Served
variable {rng rng' : R} {pool pool' : BitPool} {n : Nat} {buf buf' : List Word}

/-- A read marks bits as consumed; what the pool holds stays. -/
theorem tape_afterRead (h : Served n rng rng' pool pool' buf buf') :
    tape rng' (pool'.afterRead n) = tape rng pool := by
  rw [← h.filled.tape]
  funext j
  simp only [tape, fillStream, BitPool.afterRead_limit, BitPool.afterRead_bitsFilled,
    BitPool.afterRead_bits]

theorem consumed_afterRead (h : Served n rng rng' pool pool' buf buf') :
    (pool'.afterRead n).consumed = min (pool.consumed + n) pool.limit := by
  rw [BitPool.afterRead_consumed h.filled.inv, h.filled.consumed, h.filled.same.limit]

theorem reads {p : Prng R} (h : Served n p.rng rng' pool pool' buf buf')
    (hpool : p.bitPool = some pool) :
    p.Reads n { p with rng := rng', bitPool := some (pool'.afterRead n) } where
  same := by
    simp only [Prng.SamePool, hpool]
    exact h.filled.same.trans (BitPool.sameTape_afterRead pool' n)
  source := by
    funext i
    simp only [Prng.source, hpool, h.tape_afterRead, h.consumed_afterRead]
    by_cases hend : pool.consumed + n ≤ pool.limit
    · rw [Nat.min_eq_left hend, Nat.add_assoc, Nat.add_comm n i]
    · rw [Nat.min_eq_right (by omega), tape_of_le (by omega), tape_of_le (by omega)]
  pool := by
    intro q q' hq hq'
    rw [hpool] at hq
    cases hq
    cases hq'
    exact ⟨h.tape_afterRead, h.consumed_afterRead⟩

/-- What a zeroed buffer receives. -/
theorem bits_of_zero (h : Served n rng rng' pool pool' buf buf') (hle : pool.consumed ≤ pool.limit)
    (hz : ∀ w ∈ buf, w = 0) (i : Nat) :
    bitAt buf' i = (decide (i < n) && tape rng pool (pool.consumed + i)) := by
  have hgrant : pool.granted n = min n (pool.limit - pool.consumed) := rfl
  simp only [h.bits, bitAt_of_all_zero hz, Bool.false_and]
  by_cases hend : pool.consumed = pool.limit
  · rw [if_pos hend, tape_of_le (by omega), Bool.and_false]
  · rw [if_neg hend]
    by_cases hi : i < pool.granted n
    · rw [if_pos hi, decide_eq_true (by omega), Bool.true_and]
    · rw [if_neg hi, ite_self]
      by_cases hin : i < n
      · rw [tape_of_le (by omega), Bool.and_false]
      · rw [decide_eq_false hin, Bool.false_and]

end Served

/-- A request of any size, into any buffer that has room. -/
theorem randomBitsBulk_inv {p : Prng R} (hp : p.Inv) {n : Nat} (hn32 : n < 2 ^ 32)
    {buf : List Word} (hbuf : wordCount n ≤ buf.length) :
    (p.Growing ∧ randomBitsBulk n buf p = .error .allocation p) ∨
    ∃ buf' p', randomBitsBulk n buf p = .ok buf' p' ∧ p'.Inv ∧ p.Reads n p' ∧
      buf'.length = buf.length ∧
      ((∀ w ∈ buf, w = 0) → ∀ i, bitAt buf' i = (decide (i < n) && p.source i)) := by
  cases hpool : p.bitPool with
  | none =>
    right
    have hroom := le_wordCount n
    obtain ⟨buf', p', hrun, hlen, hpool', havail, hs, hbits⟩ :=
      randomBitsBulk_noPool hpool hp.available n buf (by omega)
    refine ⟨buf', p', hrun, ⟨havail, ?_⟩, ⟨?_, ?_, ?_⟩, hlen, ?_⟩
    · intro pool h
      rw [hpool'] at h
      cases h
    · simp only [Prng.SamePool, hpool, hpool']
    · funext i
      simp only [Prng.source, hpool, hpool', hs]
    · intro pool _ h
      rw [hpool] at h
      cases h
    · intro hz i
      simp only [Prng.source, hpool, hbits, bitAt_of_all_zero hz, Bool.false_or]
  | some pool =>
    have inv := hp.pool pool hpool
    rcases Nat.eq_zero_or_pos n with h0 | hpos
    · subst h0
      right
      refine ⟨buf, p, ?_, hp, hp.reads_zero, rfl, fun hz i => ?_⟩
      · simp only [randomBitsBulk, hpool, bitPoolRandom, if_true]
        rw [show ({ p with rng := p.rng, bitPool := some pool } : Prng R) = p by rw [← hpool]]
      · simp [bitAt_of_all_zero hz]
    · rcases bitPoolRandom_spec p.rng inv hpos buf hbuf with ⟨hsh, herr⟩ |
        ⟨rng', pool', buf', hserved⟩
      · left
        exact ⟨⟨pool, hpool, hsh⟩, by simp only [randomBitsBulk, hpool, herr]⟩
      · right
        have inv' := BitPool.afterRead_inv hserved.filled.inv hpos hn32 hserved.filled.enough
        refine ⟨buf', { p with rng := rng', bitPool := some (pool'.afterRead n) }, ?_,
          ⟨hp.available, ?_⟩, hserved.reads hpool, hserved.length, fun hz i => ?_⟩
        · simp only [randomBitsBulk, hpool, hserved.run]
        · intro q hq
          simp only [Option.some.injEq] at hq
          exact hq ▸ inv'
        · simp only [Prng.source, hpool]
          exact hserved.bits_of_zero inv.consumed_le_limit hz i

theorem randomBits_inv {p : Prng R} (hp : p.Inv) {n : Nat} (hn : n ≤ 64) :
    (p.Growing ∧ randomBits n p = .error .allocation p) ∨
    ∃ w p', randomBits n p = .ok w p' ∧ p'.Inv ∧ p.Reads n p' ∧
      ∀ i, w.getLsbD i = (decide (i < n) && p.source i) := by
  have hroom : wordCount n ≤ [(0 : Word)].length := by
    rw [wordCount_eq, List.length_singleton]
    omega
  rcases randomBitsBulk_inv hp (n := n) (by omega) hroom with ⟨hg, herr⟩ |
    ⟨buf', p', hrun, hp', hreads, hlen, hbits⟩
  · left
    exact ⟨hg, by rw [randomBits, if_pos hn, Exec.bind_apply, herr]⟩
  · right
    refine ⟨buf'.getD 0 0, p', ?_, hp', hreads, fun i => ?_⟩
    · rw [randomBits, if_pos hn, Exec.bind_apply, hrun]
      rfl
    · by_cases hi : i < 64
      · rw [← hbits (by simp) i, bitAt, Nat.div_eq_of_lt hi, Nat.mod_eq_of_lt hi]
      · rw [BitVec.getLsbD_of_ge _ _ (by omega), decide_eq_false (by omega), Bool.false_and]

/-! ## Callbacks as functions of the source -/

namespace Gen
variable {α β : Type}

/-- The response to a request, when the bits to come are `S`. -/
def answer (S : Nat → Bool) (n : Nat) : Word := ofBits 64 fun i => decide (i < n) && S i

/-- The response to a bulk request into `len` zeroed words. -/
def answerBulk (S : Nat → Bool) (n len : Nat) : List Word :=
  pack 64 len fun i => decide (i < n) && S i

/-- What a callback returns when it reads the bits `S`. -/
def eval : Gen α → (Nat → Bool) → α
  | ret a, _ => a
  | bits n k, S => (k (answer S n)).eval fun i => S (i + n)
  | bulk n buf k, S => (k (answerBulk S n buf.length)).eval fun i => S (i + n)

/-- How many of the bits `S` it asks for. -/
def demand : Gen α → (Nat → Bool) → Nat
  | ret _, _ => 0
  | bits n k, S => n + (k (answer S n)).demand fun i => S (i + n)
  | bulk n buf k, S => n + (k (answerBulk S n buf.length)).demand fun i => S (i + n)

theorem eval_map (f : α → β) (g : Gen α) : ∀ S, (g.map f).eval S = f (g.eval S) := by
  induction g with
  | ret a => intro S; rfl
  | bits n k ih => intro S; exact ih _ _
  | bulk n buf k ih => intro S; exact ih _ _

theorem demand_map (f : α → β) (g : Gen α) : ∀ S, (g.map f).demand S = g.demand S := by
  induction g with
  | ret a => intro S; rfl
  | bits n k ih => intro S; exact congrArg (n.val + ·) (ih _ _)
  | bulk n buf k ih => intro S; exact congrArg (n.val + ·) (ih _ _)

theorem Zeroed.sized {g : Gen α} (h : g.Zeroed) : g.Sized := by
  induction g with
  | ret a => trivial
  | bits n k ih => exact fun w => ih w (h w)
  | bulk n buf k ih => exact ⟨h.1.1, fun ws => ih ws (h.2 ws)⟩

theorem Zeroed.map {f : α → β} {g : Gen α} : (g.map f).Zeroed ↔ g.Zeroed := by
  induction g with
  | ret a => exact Iff.rfl
  | bits n k ih => exact forall_congr' ih
  | bulk n buf k ih => exact and_congr_right fun _ => forall_congr' ih

theorem Returns.eval (g : Gen α) : ∀ S, g.Returns (g.eval S) := by
  induction g with
  | ret a => intro S; exact rfl
  | bits n k ih => intro S; exact ⟨_, ih _ _⟩
  | bulk n buf k ih => intro S; exact ⟨_, ih _ _⟩

theorem Sized.map {f : α → β} {g : Gen α} (h : g.Sized) : (g.map f).Sized := by
  induction g with
  | ret a => trivial
  | bits n k ih => exact fun w => ih w (h w)
  | bulk n buf k ih => exact ⟨h.1, fun ws => ih ws (h.2 ws)⟩

theorem Returns.of_map {f : α → β} {g : Gen α} {b : β} (h : (g.map f).Returns b) :
    ∃ a, g.Returns a ∧ b = f a := by
  induction g with
  | ret a => exact ⟨a, rfl, h⟩
  | bits n k ih =>
    obtain ⟨w, hw⟩ := h
    obtain ⟨a, ha, hb⟩ := ih w hw
    exact ⟨a, ⟨w, ha⟩, hb⟩
  | bulk n buf k ih =>
    obtain ⟨ws, hws⟩ := h
    obtain ⟨a, ha, hb⟩ := ih ws hws
    exact ⟨a, ⟨ws, ha⟩, hb⟩

/-- **A callback only sees the bits it asks for.** -/
theorem eval_congr (g : Gen α) : ∀ {S S' : Nat → Bool}, (∀ i < g.demand S, S i = S' i) →
    g.eval S = g.eval S' ∧ g.demand S = g.demand S' := by
  -- a request is answered alike, and what follows reads what comes after it
  have step : ∀ {S S' : Nat → Bool} {n d : Nat}, (∀ i < n + d, S i = S' i) →
      answer S n = answer S' n ∧ (∀ len, answerBulk S n len = answerBulk S' n len) ∧
        ∀ i < d, S (i + n) = S' (i + n) := by
    intro S S' n d h
    have hbit : (fun i => decide (i < n) && S i) = fun i => decide (i < n) && S' i := by
      funext i
      by_cases hi : i < n
      · rw [h i (by omega)]
      · rw [decide_eq_false hi, Bool.false_and, Bool.false_and]
    exact ⟨by rw [answer, hbit, answer], fun len => by rw [answerBulk, hbit, answerBulk],
      fun i hi => h (i + n) (by omega)⟩
  induction g with
  | ret a => intro S S' _; exact ⟨rfl, rfl⟩
  | bits n k ih =>
    intro S S' h
    obtain ⟨hans, -, hrest⟩ := step h
    obtain ⟨he, hd⟩ := ih (answer S n) hrest
    rw [eval, eval, demand, demand, ← hans]
    exact ⟨he, by rw [hd]⟩
  | bulk n buf k ih =>
    intro S S' h
    obtain ⟨-, hans, hrest⟩ := step h
    obtain ⟨he, hd⟩ := ih (answerBulk S n buf.length) hrest
    rw [eval, eval, demand, demand, ← hans]
    exact ⟨he, by rw [hd]⟩

/-- A callback keeps the invariant of the runner, whatever is in its buffers. -/
theorem run_inv (g : Gen α) (hg : g.Sized) : ∀ {p : Prng R}, p.Inv →
    (p.Growing ∧ ∃ p', g.run p = .error .allocation p' ∧ p'.Inv ∧ p.SamePool p') ∨
    ∃ a p' n, g.run p = .ok a p' ∧ p'.Inv ∧ p.Reads n p' := by
  induction g with
  | ret a => intro p hp; exact Or.inr ⟨a, p, 0, rfl, hp, hp.reads_zero⟩
  | bits n k ih =>
    intro p hp
    rcases randomBits_inv hp (show n.val ≤ 64 by omega) with ⟨hgrow, herr⟩ |
      ⟨w, p₁, hrun, hp₁, hreads, -⟩
    · exact Or.inl ⟨hgrow, p, by rw [run, Exec.bind_apply, herr], hp, .refl p⟩
    · rw [run, Exec.bind_apply, hrun]
      rcases ih w (hg w) hp₁ with ⟨hgrow, p', herr, hp', hsame⟩ | ⟨a, p', m, hrun', hp', hreads'⟩
      · exact Or.inl ⟨hreads.same.growing hgrow, p', herr, hp', hreads.same.trans hsame⟩
      · exact Or.inr ⟨a, p', n + m, hrun', hp', hreads.trans hreads'⟩
  | bulk n buf k ih =>
    intro p hp
    rcases randomBitsBulk_inv hp n.isLt hg.1 with ⟨hgrow, herr⟩ |
      ⟨ws, p₁, hrun, hp₁, hreads, -, -⟩
    · exact Or.inl ⟨hgrow, p, by rw [run, Exec.bind_apply, herr], hp, .refl p⟩
    · rw [run, Exec.bind_apply, hrun]
      rcases ih ws (hg.2 ws) hp₁ with ⟨hgrow, p', herr, hp', hsame⟩ | ⟨a, p', m, hrun', hp', hreads'⟩
      · exact Or.inl ⟨hreads.same.growing hgrow, p', herr, hp', hreads.same.trans hsame⟩
      · exact Or.inr ⟨a, p', n + m, hrun', hp', hreads.trans hreads'⟩

/-- What a callback returned is what it may return. -/
theorem Returns.of_run (g : Gen α) : ∀ {p p' : Prng R} {a : α}, g.run p = .ok a p' →
    g.Returns a := by
  induction g with
  | ret a => intro p p' b h; cases h; exact rfl
  | bits n k ih =>
    intro p p' b h
    obtain ⟨w, p₁, -, hrest⟩ := Exec.bind_eq_ok.mp h
    exact ⟨w, ih w hrest⟩
  | bulk n buf k ih =>
    intro p p' b h
    obtain ⟨ws, p₁, -, hrest⟩ := Exec.bind_eq_ok.mp h
    exact ⟨ws, ih ws hrest⟩

/-- Without an injected pool a callback always returns. -/
theorem run_noPool (g : Gen α) (hg : g.Sized) {p : Prng R} (hp : p.Inv) (hpool : p.bitPool = none) :
    ∃ a p', g.run p = .ok a p' ∧ p'.Inv ∧ p'.bitPool = none ∧ g.Returns a := by
  rcases g.run_inv hg hp with ⟨⟨pool, hsome, -⟩, -⟩ | ⟨a, p', n, hrun, hp', hreads⟩
  · rw [hpool] at hsome
    cases hsome
  · exact ⟨a, p', hrun, hp', hreads.same.of_none hpool, .of_run g hrun⟩

/-- **A callback that reads into zeroed buffers is a function of its source**, and uses up
what it asked for. -/
theorem run_eval (g : Gen α) (hg : g.Zeroed) : ∀ {p p' : Prng R} {a : α}, p.Inv →
    g.run p = .ok a p' → a = g.eval p.source ∧ p.Reads (g.demand p.source) p' := by
  induction g with
  | ret a => intro p p' b hp h; cases h; exact ⟨rfl, hp.reads_zero⟩
  | bits n k ih =>
    intro p p' b hp h
    rw [run, Exec.bind_apply] at h
    rcases randomBits_inv hp (show n.val ≤ 64 by omega) with ⟨-, herr⟩ |
      ⟨w, p₁, hrun, hp₁, hreads, hbits⟩
    · rw [herr] at h; cases h
    · rw [hrun] at h
      have hw : w = answer p.source n := by
        apply BitVec.eq_of_getLsbD_eq
        intro i hi
        rw [hbits, answer, getLsbD_ofBits, decide_eq_true hi, Bool.true_and]
      obtain ⟨ha, hreads'⟩ := ih w (hg w) hp₁ h
      rw [hreads.source] at ha hreads'
      rw [eval, demand, ← hw]
      exact ⟨ha, hreads.trans hreads'⟩
  | bulk n buf k ih =>
    intro p p' b hp h
    rw [run, Exec.bind_apply] at h
    rcases randomBitsBulk_inv hp n.isLt hg.1.1 with ⟨-, herr⟩ |
      ⟨ws, p₁, hrun, hp₁, hreads, hlen, hbits⟩
    · rw [herr] at h; cases h
    · rw [hrun] at h
      have hws : ws = answerBulk p.source n buf.length := by
        refine ext_bitAt (hlen.trans (length_pack _ _).symm) fun i hi => ?_
        have hlt : i < 64 * buf.length := hlen ▸ hi
        rw [hbits hg.1.2, answerBulk, bitAt_pack (by decide), decide_eq_true hlt, Bool.true_and]
      obtain ⟨ha, hreads'⟩ := ih ws (hg.2 ws) hp₁ h
      rw [hreads.source] at ha hreads'
      rw [eval, demand, ← hws]
      exact ⟨ha, hreads.trans hreads'⟩

end Gen

end

end Theft
