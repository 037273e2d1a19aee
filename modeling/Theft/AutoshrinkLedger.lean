import Theft.AutoshrinkFrame

/-!
# What a shrinking step allocates and frees

* `changeCopy_id`: the copy is edited where it is;
* `autoshrinkAlloc_ledger`, `autoshrinkShrink_ledger`: a step that returned has allocated one
  pool at most, which it returns or has freed, and no pool is injected any more.
-/

namespace Theft

open PackedBits Exec

section
variable {R β : Type}

/-! ## The copy -/

theorem writeBitsAtOffset_id {pool pool' : BitPool} {bitOffset size : Nat} {v : Word}
    (h : writeBitsAtOffset pool bitOffset size v = .ok pool') : pool'.id = pool.id := by
  unfold writeBitsAtOffset at h
  cases hbits : writeBits v (List.range size) (.ofOffset bitOffset) pool.bits with
  | error e => rw [hbits] at h; cases h
  | ok bits =>
    rw [hbits] at h
    cases h
    rfl

/-- A mutation answers with the pool it was given. -/
abbrev Mutates (m : Auto R (Bool × BitPool)) (id : Nat) : Prop := Yields m fun c => c.2.id = id

theorem rewriteBits_id (pool : BitPool) (offset size : Nat) (f : Word → Word) :
    Mutates (rewriteBits (R := R) pool offset size f) pool.id := by
  apply Yields.after
  intro bits
  dsimp only
  apply Yields.bind (Yields.attempt fun _ h => writeBitsAtOffset_id h)
  intro pool' hpool'
  exact Yields.pure hpool'

variable [Platform R]

theorem mutateShift_id (pool : BitPool) (offset size : Nat) :
    Mutates (mutateShift (R := R) pool offset size) pool.id := by
  apply Yields.after
  intro _
  apply Yields.after
  intro shift
  apply Yields.after
  intro region
  apply Yields.bind (rewriteBits_id pool _ _ _)
  intro changed hchanged
  apply Yields.after
  intro _
  exact Yields.pure hchanged

theorem mutateMask_id (pool : BitPool) (offset size : Nat) :
    Mutates (mutateMask (R := R) pool offset size) pool.id := by
  apply Yields.after
  intro _
  apply Yields.after
  intro mask
  apply Yields.after
  intro region
  apply Yields.bind (rewriteBits_id pool _ _ _)
  intro changed hchanged
  apply Yields.after
  intro _
  exact Yields.pure hchanged

omit [Platform R] in
theorem exchange_id (pool : BitPool) (offset offset' size : Nat) (a b : Word) :
    Mutates (R := R) (do
      let pool ← attempt (writeBitsAtOffset pool offset size b)
      let pool ← attempt (writeBitsAtOffset pool offset' size a)
      setSet .swap true
      return (true, pool)) pool.id := by
  apply Yields.bind (Yields.attempt fun _ h => writeBitsAtOffset_id h)
  intro pool₁ h₁
  apply Yields.bind (Yields.attempt fun _ h => writeBitsAtOffset_id h)
  intro pool₂ h₂
  apply Yields.after
  intro _
  exact Yields.pure (h₂.trans h₁)

theorem swapBlocks_id (pool : BitPool) (offset size : Nat) :
    Mutates (swapBlocks (R := R) pool offset size) pool.id := by
  apply Yields.after
  intro w
  dsimp only
  split
  · exact Yields.pure rfl
  · split
    · apply Yields.after
      intro posA
      apply Yields.after
      intro posB
      split
      · exact Yields.pure rfl
      · apply Yields.after
        intro a
        apply Yields.after
        intro b
        split
        · exact exchange_id _ _ _ _ _ _
        · exact Yields.pure rfl
    · exact Yields.throw _

omit [Platform R] in
theorem swapRequests_id (orig pool : BitPool) (offset size : Nat) (bits : Word) (is : List Nat) :
    Mutates (swapRequests (R := R) orig pool offset size bits is) pool.id := by
  induction is with
  | nil => exact Yields.pure rfl
  | cons i is ih =>
    apply Yields.after
    intro otherSize
    split
    · apply Yields.after
      intro otherOffset
      apply Yields.after
      intro other
      split
      · exact exchange_id _ _ _ _ _ _
      · exact ih
    · exact ih

theorem mutateSwap_id (orig pool : BitPool) (pos offset size : Nat) :
    Mutates (mutateSwap (R := R) orig pool pos offset size) pool.id := by
  apply Yields.after
  intro _
  split
  · split
    · exact swapBlocks_id _ _ _
    · apply Yields.after
      intro bits
      exact swapRequests_id _ _ _ _ _ _
  · exact Yields.throw _

theorem mutateSub_id (pool : BitPool) (offset size : Nat) :
    Mutates (mutateSub (R := R) pool offset size) pool.id := by
  apply Yields.after
  intro _
  apply Yields.after
  intro sub
  apply Yields.after
  intro region
  apply Yields.after
  intro bits
  dsimp only
  split
  · apply Yields.after
    intro _
    apply Yields.bind (Yields.attempt fun _ h => writeBitsAtOffset_id h)
    intro pool' hpool'
    exact Yields.pure hpool'
  · exact Yields.pure rfl

theorem chooseAndMutateRequest_id (fuel : Nat) (orig pool : BitPool) :
    Mutates (chooseAndMutateRequest (R := R) fuel orig pool) pool.id := by
  apply Yields.after
  intro mtype
  dsimp only
  split
  · exact Yields.pure rfl
  · apply Yields.after
    intro pos
    apply Yields.after
    intro offset
    apply Yields.after
    intro size
    cases mtype with
    | shift => exact mutateShift_id _ _ _
    | mask => exact mutateMask_id _ _ _
    | swap => exact mutateSwap_id _ _ _ _ _
    | sub => exact mutateSub_id _ _ _

theorem mutateTimes_id (fuel : Nat) (orig : BitPool) (changeCount tries : Nat) : ∀ changed pool,
    Yields (mutateTimes (R := R) fuel orig changeCount tries changed pool) (·.id = pool.id) := by
  induction tries with
  | zero =>
    intro changed pool
    exact Yields.pure rfl
  | succ tries ih =>
    intro changed pool
    apply Yields.bind (chooseAndMutateRequest_id fuel orig pool)
    rintro ⟨change, pool'⟩ hpool'
    have again : ∀ changed, Yields (mutateTimes (R := R) fuel orig changeCount tries changed pool')
        (·.id = pool.id) := fun changed => hpool' ▸ ih changed pool'
    dsimp only
    split
    · split
      · exact Yields.pure hpool'
      · exact again _
    · exact again _

theorem mutateBitPool_id (fuel : Nat) (orig pool : BitPool) :
    Yields (mutateBitPool (R := R) fuel orig pool) (·.id = pool.id) := by
  apply Yields.after
  intro bits
  apply Yields.after
  intro s
  apply Yields.after
  intro _
  apply Yields.after
  intro w
  apply Yields.bind (mutateTimes_id _ _ _ _ _ _)
  intro pool' hpool'
  exact Yields.pure hpool'

theorem dropFromBitPool_id (orig copy : BitPool) :
    Yields (dropFromBitPool (R := R) orig copy) fun dropped => dropped.1.id = copy.id := by
  apply Yields.after
  intro s
  apply Yields.after
  intro w
  apply Yields.after
  intro dropped
  exact Yields.pure rfl

theorem changeCopy_id (fuel : Nat) (orig copy : BitPool) :
    Yields (changeCopy (R := R) fuel orig copy) (·.id = copy.id) := by
  apply Yields.after
  intro drop
  split
  · apply Yields.after
    intro _
    apply Yields.bind (dropFromBitPool_id orig copy)
    intro dropped hdropped
    exact Yields.pure hdropped
  · exact mutateBitPool_id _ _ _

omit [Platform R] in
theorem endCopy_id (copy : BitPool) : Yields (endCopy (R := R) copy) (·.id = copy.id) := by
  apply Yields.after
  intro s
  split
  · exact Yields.pure rfl
  · apply Yields.attempt
    intro copy' h
    unfold truncateTrailingZeroBytes at h
    cases hbytes : trimmedBytes copy.bits (byteCount copy.bitsFilled) with
    | error e => rw [hbytes] at h; cases h
    | ok nsize =>
      rw [hbytes] at h
      cases h
      rfl

/-! ## Reading -/

omit [Platform R] in
theorem allocBitPool_id {id size limit requestCeil : Nat} {pool : BitPool}
    (h : allocBitPool id size limit requestCeil = some pool) : pool.id = id := by
  unfold allocBitPool at h
  dsimp only at h
  split at h
  · cases h
    rfl
  · cases h

/-- `alloc_from_bit_pool` changes random bits only, and takes the pool back. -/
theorem allocFromBitPool_returned {alloc : Gen β} {pool pool' : BitPool} {shrinking : Bool}
    {res : β} {s t : AutoState R}
    (h : allocFromBitPool alloc pool shrinking s = .ok (res, pool') t) :
    pool'.id = pool.id ∧ t.prng.bitPool = none ∧ t.ledger = s.ledger ∧ t.env = s.env := by
  simp only [allocFromBitPool, bind_apply, modify_apply, get_apply, pure_apply, zoom] at h
  have hsame := (SamePool.run alloc).change (s.prng.injectBitPool (pool.setShrinking shrinking))
  unfold final at hsame
  cases hrun : alloc.run (s.prng.injectBitPool (pool.setShrinking shrinking)) with
  | error e p =>
    rw [hrun] at h
    cases h
  | ok a p =>
    rw [hrun] at h hsame
    cases h
    refine ⟨?_, rfl, rfl, rfl⟩
    obtain ⟨used, hused, hid⟩ := Option.map_eq_some_iff.mp hsame
    dsimp only
    rw [hused]
    exact hid

/-- `theft_autoshrink_alloc` returned: it had no memory, or it leaves a new pool in the
environment. -/
theorem autoshrinkAlloc_ledger {alloc : Gen (AllocRes × β)} {s t : AutoState R} {ares : AllocRes}
    {res : Option β} (h : autoshrinkAlloc alloc s = .ok (ares, res) t) :
    (res = none ∧ ares = .error ∧ t = s) ∨
    ∃ b pool, res = some b ∧ pool.id = s.ledger.nextId ∧ t.prng.bitPool = none ∧
      t.ledger = s.ledger.acquirePool ∧ t.env = { s.env with bitPool := some pool } := by
  unfold autoshrinkAlloc at h
  rw [bind_apply, get_apply] at h
  dsimp only at h
  cases hpool : allocBitPool s.ledger.nextId (getDef s.env.poolSize defPoolSize)
      (getDef s.env.poolLimit defPoolLimit) defRequestsCeil with
  | none =>
    rw [hpool] at h
    cases h
    exact .inl ⟨rfl, rfl, rfl⟩
  | some pool =>
    rw [hpool] at h
    right
    obtain ⟨_, s₁, hset, h⟩ := bind_eq_ok.mp h
    cases hset
    obtain ⟨⟨⟨_, b⟩, used⟩, s₂, halloc, h⟩ := bind_eq_ok.mp h
    obtain ⟨hid, hnone, hledger, henv⟩ := allocFromBitPool_returned halloc
    obtain ⟨_, s₃, hmodify, h⟩ := bind_eq_ok.mp h
    cases hmodify
    cases h
    refine ⟨b, used, rfl, hid.trans (allocBitPool_id hpool), hnone, hledger, ?_⟩
    dsimp only
    rw [henv]

/-! ## The step -/

/-- The one pool that a shrinking step may have allocated, by what it answers. -/
inductive ShrinkLedger (before after : Ledger) :
    ShrinkRes × Option β × Option BitPool → Prop where
  | none {sres} : sres ≠ .ok → after = before → ShrinkLedger before after (sres, none, none)
  | offered {res pool} : pool.id = before.nextId → after = before.acquirePool →
      ShrinkLedger before after (.ok, some res, some pool)
  | freed {sres res} : sres ≠ .ok →
      after = before.acquirePool.release (.pool before.nextId) →
      ShrinkLedger before after (sres, some res, none)

/-- From the empty copy on. -/
theorem shrinkCopy_ledger {fuel : Nat} {alloc : Gen (AllocRes × β)} {orig copy : BitPool}
    {s t : AutoState R} {c : ShrinkRes × Option β × Option BitPool} {before : Ledger}
    (hid : copy.id = before.nextId) (hs : s.ledger = before.acquirePool)
    (h : shrinkCopy fuel alloc orig copy s = .ok c t) :
    t.prng.bitPool = none ∧ ShrinkLedger before t.ledger c := by
  obtain ⟨_, s₁, hrequire, h⟩ := bind_eq_ok.mp h
  obtain ⟨_, s₂, hstart, h⟩ := bind_eq_ok.mp h
  obtain ⟨copy₃, s₃, hchange, h⟩ := bind_eq_ok.mp h
  obtain ⟨copy₄, s₄, hend, h⟩ := bind_eq_ok.mp h
  obtain ⟨⟨⟨ares, res⟩, copy₅⟩, s₅, halloc, h⟩ := bind_eq_ok.mp h
  have hledger₁ := (Effect.require.of_returned hrequire : Editing s s₁).ledger
  have hledger₂ := ((Editing.modifyModel _).of_returned hstart).ledger
  have hledger₃ := ((Editing.changeCopy _ _ _).of_returned hchange).ledger
  have hledger₄ := ((Editing.endCopy _).of_returned hend).ledger
  obtain ⟨hid₅, hnone, hledger₅, -⟩ := allocFromBitPool_returned halloc
  have hcopy : copy₅.id = before.nextId :=
    hid₅.trans (((endCopy_id _).returned hend).trans
      (((changeCopy_id _ _ _).returned hchange).trans hid))
  have hs₅ : s₅.ledger = before.acquirePool := by
    rw [hledger₅, hledger₄, hledger₃, hledger₂, hledger₁, hs]
  -- a copy that no instance came from is freed
  have dropped : ∀ {sres} {t : AutoState R}, sres ≠ ShrinkRes.ok →
      (freeCopy copy₅ >>= fun _ => pure (sres, some res, none)) s₅ = .ok c t →
      t.prng.bitPool = none ∧ ShrinkLedger before t.ledger c := by
    intro sres t hsres h
    simp only [freeCopy, bind_apply, get_apply, freeBitPool, hnone, Option.isNone_none, if_true,
      attempt, set_apply, pure_apply] at h
    cases h
    exact ⟨hnone, .freed hsres (by rw [hcopy, hs₅])⟩
  cases ares with
  | ok =>
    cases h
    exact ⟨hnone, .offered hcopy hs₅⟩
  | skip => exact dropped (by decide) h
  | error => exact dropped (by decide) h

/-- **A shrinking step keeps no pool to itself.** -/
theorem autoshrinkShrink_ledger {fuel : Nat} {alloc : Gen (AllocRes × β)} {tactic : Nat}
    {s t : AutoState R} {c : ShrinkRes × Option β × Option BitPool} (hs : s.prng.bitPool = none)
    (h : autoshrinkShrink fuel alloc tactic s = .ok c t) :
    t.prng.bitPool = none ∧ ShrinkLedger s.ledger t.ledger c := by
  unfold autoshrinkShrink at h
  rw [bind_apply, get_apply] at h
  dsimp only at h
  cases hpool : s.env.bitPool with
  | none =>
    rw [hpool] at h
    cases h
  | some orig =>
    rw [hpool] at h
    dsimp only at h
    split at h
    · cases h
      exact ⟨hs, .none (by decide) rfl⟩
    · cases hindex : buildIndex orig with
      | none =>
        rw [hindex] at h
        cases h
        exact ⟨hs, .none (by decide) rfl⟩
      | some indexed =>
        rw [hindex] at h
        obtain ⟨_, s₁, hmodify, h⟩ := bind_eq_ok.mp h
        cases hmodify
        cases hcopy : allocBitPool s.ledger.nextId indexed.bitsFilled indexed.limit
            indexed.requestCeil with
        | none =>
          rw [hcopy] at h
          cases h
          exact ⟨hs, .none (by decide) rfl⟩
        | some copy =>
          rw [hcopy] at h
          obtain ⟨_, s₂, hacquire, h⟩ := bind_eq_ok.mp h
          cases hacquire
          exact shrinkCopy_ledger (allocBitPool_id hcopy) rfl h

/-- A step that did not run the callback has no instance to offer; one that did has not come to
its last tactic. -/
theorem autoshrinkShrink_answers (fuel : Nat) (alloc : Gen (AllocRes × β)) (tactic : Nat) :
    Yields (autoshrinkShrink fuel alloc tactic : Auto R _) fun c =>
      (c.2.1 = none ∧ c.1 ≠ .ok) ∨ (c.2.1.isSome ∧ c.1 ≠ .noMoreTactics) := by
  apply Yields.after
  intro s
  split
  · exact Yields.throw _
  split
  · exact Yields.pure (.inl ⟨rfl, nofun⟩)
  split
  · exact Yields.pure (.inl ⟨rfl, nofun⟩)
  apply Yields.after
  intro _
  split
  · exact Yields.pure (.inl ⟨rfl, nofun⟩)
  apply Yields.after
  intro _
  apply Yields.after
  intro _
  apply Yields.after
  intro _
  apply Yields.after
  intro copy
  apply Yields.after
  intro copy
  apply Yields.after
  rintro ⟨⟨ares, res⟩, copy⟩
  cases ares with
  | ok => exact Yields.pure (.inr ⟨rfl, nofun⟩)
  | skip => exact Yields.after fun _ => Yields.pure (.inr ⟨rfl, nofun⟩)
  | error => exact Yields.after fun _ => Yields.pure (.inr ⟨rfl, nofun⟩)

/-- A step that ran the callback did not come to its last tactic. -/
theorem autoshrinkShrink_tactics (fuel : Nat) (alloc : Gen (AllocRes × β)) (tactic : Nat) :
    Yields (autoshrinkShrink fuel alloc tactic : Auto R _) fun c =>
      c.1 = .noMoreTactics → c.2.1 = none := by
  apply (autoshrinkShrink_answers fuel alloc tactic).mono
  rintro c (⟨hnone, -⟩ | ⟨-, hne⟩) hlast
  · exact hnone
  · exact absurd hlast hne

/-- A step that returned had a pool, and has one still. -/
theorem autoshrinkShrink_pool {fuel : Nat} {alloc : Gen (AllocRes × β)} {tactic : Nat}
    {s t : AutoState R} {c : ShrinkRes × Option β × Option BitPool}
    (h : autoshrinkShrink fuel alloc tactic s = .ok c t) : t.env.bitPool.isSome := by
  have hcore := (CoreOnly.autoshrinkShrink fuel alloc tactic).of_returned h
  unfold CoreOnly at hcore
  have hsame := congrArg (Option.isSome ∘ AutoshrinkEnv.bitPool) hcore
  simp only [AutoshrinkEnv.core, Function.comp_apply, Option.isSome_map] at hsame
  rw [hsame]
  unfold autoshrinkShrink at h
  rw [bind_apply, get_apply] at h
  dsimp only at h
  cases hpool : s.env.bitPool with
  | none =>
    rw [hpool] at h
    cases h
  | some orig => rfl

end

end Theft
