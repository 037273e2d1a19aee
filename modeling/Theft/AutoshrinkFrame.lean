import Theft.Addresses

/-!
# What a shrinking step leaves alone

Whatever a callback does, returned or stopped: the edits of a copy change the environment in
its model only (`ModelOnly`), and the whole step builds at most the index of the pool
(`CoreOnly`). The hash of the argument is the same before and after.
-/

namespace Theft

open PackedBits Exec

/-- What a shrinking step leaves alone in an environment: all but the model, and whether the
index of its pool was built. -/
def AutoshrinkEnv.core (env : AutoshrinkEnv) : AutoshrinkEnv :=
  { env with
    model := .zero
    bitPool := env.bitPool.map fun pool => { pool with index := none } }

/-- The hash of an environment is the hash of its core. -/
theorem autoshrinkHash_core (env : AutoshrinkEnv) :
    autoshrinkHash env.core = autoshrinkHash env := by
  unfold autoshrinkHash AutoshrinkEnv.core
  cases env.bitPool <;> rfl

section
variable {R : Type} {α β : Type}

/-- The environment changed in its model only. -/
def ModelOnly (s t : AutoState R) : Prop := t.env = { s.env with model := t.env.model }

/-- The core of the environment is what it was. -/
def CoreOnly (s t : AutoState R) : Prop := t.env.core = s.env.core

/-- An edit of a copy: nothing is allocated, and the pool that is read stays where it is. -/
structure Editing (s t : AutoState R) : Prop where
  env : ModelOnly s t
  ledger : t.ledger = s.ledger
  pool : SamePool s.prng t.prng

instance : IsPreorder (AutoState R) CoreOnly where
  refl _ := rfl
  trans _ _ _ h₁ h₂ := Eq.trans h₂ h₁

theorem ModelOnly.coreOnly {s t : AutoState R} (h : ModelOnly s t) : CoreOnly s t := by
  unfold CoreOnly
  rw [h]
  rfl

instance : IsPreorder (AutoState R) ModelOnly where
  refl _ := rfl
  trans s t u h₁ h₂ := by
    unfold ModelOnly at *
    rw [h₂, h₁]

instance : IsPreorder (AutoState R) Editing where
  refl s := ⟨Std.Refl.refl s, rfl, Std.Refl.refl s.prng⟩
  trans _ _ _ h₁ h₂ := ⟨IsTrans.trans _ _ _ h₁.env h₂.env, h₂.ledger.trans h₁.ledger,
    IsTrans.trans _ _ _ h₁.pool h₂.pool⟩

theorem Editing.toModelOnly {m : Auto R α} (h : Effect Editing m) : Effect ModelOnly m :=
  h.mono fun _ _ hst => hst.env

namespace Editing

theorem modifyModel (f : AutoshrinkModel → AutoshrinkModel) :
    Effect (Editing (R := R)) (modifyModel f) := Effect.modify fun _ => ⟨rfl, rfl, Std.Refl.refl _⟩

theorem setTried (action : AutoshrinkAction) : Effect (Editing (R := R)) (setTried action) :=
  modifyModel _

theorem setSet (action : AutoshrinkAction) (changed : Bool) :
    Effect (Editing (R := R)) (setSet action changed) := by
  unfold Theft.setSet
  split
  · exact modifyModel _
  · exact Effect.pure ()

variable [Platform R]

theorem prngBits (n : Nat) : Effect (Editing (R := R)) (prngBits n) :=
  Effect.zoom fun s => ⟨rfl, rfl, (SamePool.randomBits n).change s.prng⟩

/-! ## Mutating requests -/

theorem drawMutation (bitCount shift mask swap sub fuel : Nat) :
    Effect (Editing (R := R)) (drawMutation bitCount shift mask swap sub fuel) := by
  induction fuel with
  | zero => exact Effect.throw _
  | succ fuel ih =>
    apply Effect.bind (prngBits _)
    intro w
    dsimp only
    split
    · exact Effect.pure _
    · split
      · exact Effect.pure _
      · split
        · exact Effect.pure _
        · split
          · exact Effect.pure _
          · exact ih

theorem getWeightedMutation (fuel : Nat) :
    Effect (Editing (R := R)) (getWeightedMutation fuel) := by
  apply Effect.bind Effect.get
  intro s
  dsimp only
  split
  · exact Effect.throw _
  · exact Effect.pure _
  · exact Effect.pure _
  · exact Effect.pure _
  · exact Effect.pure _
  · split
    · exact drawMutation _ _ _ _ _ _
    · exact Effect.throw _

theorem pickRegion (size : Nat) : Effect (Editing (R := R)) (pickRegion size) := by
  unfold Theft.pickRegion
  split
  · apply Effect.bind (prngBits _)
    intro pos
    apply Effect.bind (prngBits _)
    intro toChange
    exact Effect.pure _
  · exact Effect.pure _

omit [Platform R] in
theorem rewriteBits (pool : BitPool) (offset size : Nat) (f : Word → Word) :
    Effect (Editing (R := R)) (rewriteBits pool offset size f) := by
  apply Effect.bind (Effect.attempt _)
  intro bits
  apply Effect.bind (Effect.attempt _)
  intro pool
  exact Effect.pure _

theorem mutateShift (pool : BitPool) (offset size : Nat) :
    Effect (Editing (R := R)) (mutateShift pool offset size) := by
  apply Effect.bind (setTried _)
  intro _
  apply Effect.bind (prngBits _)
  intro shift
  apply Effect.bind (pickRegion _)
  intro region
  apply Effect.bind (rewriteBits _ _ _ _)
  intro changed
  apply Effect.bind (setSet _ _)
  intro _
  exact Effect.pure _

theorem pickMask (maskSize : Nat) : Effect (Editing (R := R)) (pickMask maskSize) := by
  apply Effect.bind (prngBits _)
  intro a
  apply Effect.bind (prngBits _)
  intro b
  dsimp only
  split
  · apply Effect.bind (prngBits _)
    intro oneBit
    exact Effect.pure _
  · exact Effect.pure _

theorem mutateMask (pool : BitPool) (offset size : Nat) :
    Effect (Editing (R := R)) (mutateMask pool offset size) := by
  apply Effect.bind (setTried _)
  intro _
  apply Effect.bind (pickMask _)
  intro mask
  apply Effect.bind (pickRegion _)
  intro region
  apply Effect.bind (rewriteBits _ _ _ _)
  intro changed
  apply Effect.bind (setSet _ _)
  intro _
  exact Effect.pure _

omit [Platform R] in
/-- Two extents are exchanged, and that is noted. -/
theorem exchange (pool : BitPool) (offset offset' size : Nat) (a b : Word) :
    Effect (Editing (R := R)) (do
      let pool ← attempt (writeBitsAtOffset pool offset size b)
      let pool ← attempt (writeBitsAtOffset pool offset' size a)
      Theft.setSet .swap true
      return (true, pool)) := by
  apply Effect.bind (Effect.attempt _)
  intro pool
  apply Effect.bind (Effect.attempt _)
  intro pool
  apply Effect.bind (setSet _ _)
  intro _
  exact Effect.pure _

theorem swapBlocks (pool : BitPool) (offset size : Nat) :
    Effect (Editing (R := R)) (swapBlocks pool offset size) := by
  apply Effect.bind (prngBits _)
  intro w
  dsimp only
  split
  · exact Effect.pure _
  · split
    · apply Effect.bind (prngBits _)
      intro posA
      apply Effect.bind (prngBits _)
      intro posB
      split
      · exact Effect.pure _
      · apply Effect.bind (Effect.attempt _)
        intro a
        apply Effect.bind (Effect.attempt _)
        intro b
        split
        · exact exchange _ _ _ _ _ _
        · exact Effect.pure _
    · exact Effect.throw _

omit [Platform R] in
theorem swapRequests (orig pool : BitPool) (offset size : Nat) (bits : Word) (is : List Nat) :
    Effect (Editing (R := R)) (swapRequests orig pool offset size bits is) := by
  induction is with
  | nil => exact Effect.pure _
  | cons i is ih =>
    apply Effect.bind (Effect.attempt _)
    intro otherSize
    split
    · apply Effect.bind (Effect.attempt _)
      intro otherOffset
      apply Effect.bind (Effect.attempt _)
      intro other
      split
      · exact exchange _ _ _ _ _ _
      · exact ih
    · exact ih

theorem mutateSwap (orig pool : BitPool) (pos offset size : Nat) :
    Effect (Editing (R := R)) (mutateSwap orig pool pos offset size) := by
  apply Effect.bind (setTried _)
  intro _
  split
  · split
    · exact swapBlocks _ _ _
    · apply Effect.bind (Effect.attempt _)
      intro bits
      exact swapRequests _ _ _ _ _ _
  · exact Effect.throw _

theorem mutateSub (pool : BitPool) (offset size : Nat) :
    Effect (Editing (R := R)) (mutateSub pool offset size) := by
  apply Effect.bind (setTried _)
  intro _
  apply Effect.bind (prngBits _)
  intro sub
  apply Effect.bind (pickRegion _)
  intro region
  apply Effect.bind (Effect.attempt _)
  intro bits
  dsimp only
  split
  · apply Effect.bind (setSet _ _)
    intro _
    apply Effect.bind (Effect.attempt _)
    intro pool
    exact Effect.pure _
  · exact Effect.pure _

theorem chooseAndMutateRequest (fuel : Nat) (orig pool : BitPool) :
    Effect (Editing (R := R)) (chooseAndMutateRequest fuel orig pool) := by
  apply Effect.bind (getWeightedMutation _)
  intro mtype
  dsimp only
  split
  · exact Effect.pure _
  · apply Effect.bind (prngBits _)
    intro pos
    apply Effect.bind (Effect.attempt _)
    intro offset
    apply Effect.bind (Effect.attempt _)
    intro size
    cases mtype with
    | shift => exact mutateShift _ _ _
    | mask => exact mutateMask _ _ _
    | swap => exact mutateSwap _ _ _ _ _
    | sub => exact mutateSub _ _ _

theorem mutateTimes (fuel : Nat) (orig : BitPool) (changeCount tries : Nat) : ∀ changed pool,
    Effect (Editing (R := R)) (mutateTimes fuel orig changeCount tries changed pool) := by
  induction tries with
  | zero =>
    intro changed pool
    exact Effect.pure _
  | succ tries ih =>
    intro changed pool
    apply Effect.bind (chooseAndMutateRequest _ _ _)
    intro change
    dsimp only
    split
    · split
      · exact Effect.pure _
      · exact ih _ _
    · exact ih _ _

theorem mutateBitPool (fuel : Nat) (orig pool : BitPool) :
    Effect (Editing (R := R)) (mutateBitPool fuel orig pool) := by
  apply Effect.bind (Effect.attempt _)
  intro bits
  apply Effect.bind Effect.get
  intro s
  apply Effect.bind Effect.require
  intro _
  apply Effect.bind (prngBits _)
  intro w
  apply Effect.bind (mutateTimes _ _ _ _ _ _)
  intro pool
  exact Effect.pure _

/-! ## Dropping requests -/

theorem dropSubset (reqSize : Nat) : Effect (Editing (R := R)) (dropSubset reqSize) := by
  unfold Theft.dropSubset
  split
  · apply Effect.bind (prngBits _)
    intro offset
    apply Effect.bind (prngBits _)
    intro size
    exact Effect.pure _
  · exact Effect.pure _

theorem dropChosen (dropBits dropThreshold toDrop ri : Nat) :
    Effect (Editing (R := R)) (dropChosen dropBits dropThreshold toDrop ri) := by
  unfold Theft.dropChosen
  split
  · exact Effect.pure _
  · apply Effect.bind (prngBits _)
    intro bits
    exact Effect.pure _

theorem dropRequests (dropBits dropThreshold toDrop : Nat) (orig : List Byte)
    (rest : List Nat) : ∀ ri dropCount s, Effect (Editing (R := R))
      (dropRequests dropBits dropThreshold toDrop orig ri rest dropCount s) := by
  induction rest with
  | nil =>
    intro ri dropCount s
    exact Effect.pure _
  | cons reqSize rest ih =>
    intro ri dropCount s
    apply Effect.bind (dropChosen _ _ _ _)
    intro chosen
    split
    · apply Effect.bind (dropSubset _)
      intro kept
      apply Effect.bind (Effect.attempt _)
      intro s
      exact ih _ _ _
    · apply Effect.bind (Effect.attempt _)
      intro s
      exact ih _ _ _

theorem dropFromBitPool (orig copy : BitPool) :
    Effect (Editing (R := R)) (dropFromBitPool orig copy) := by
  apply Effect.bind Effect.get
  intro s
  apply Effect.bind (prngBits _)
  intro w
  apply Effect.bind (dropRequests _ _ _ _ _ _ _ _)
  intro dropped
  exact Effect.pure _

/-! ## The step -/

theorem shouldDrop (requestCount : Nat) :
    Effect (Editing (R := R)) (shouldDrop requestCount) := by
  apply Effect.bind Effect.get
  intro s
  dsimp only
  split
  · apply Effect.bind (prngBits _)
    intro bits
    exact Effect.pure _
  · exact Effect.pure _

theorem changeCopy (fuel : Nat) (orig copy : BitPool) :
    Effect (Editing (R := R)) (changeCopy fuel orig copy) := by
  apply Effect.bind (shouldDrop _)
  intro drop
  split
  · apply Effect.bind (setSet _ _)
    intro _
    apply Effect.bind (dropFromBitPool _ _)
    intro dropped
    exact Effect.pure _
  · exact mutateBitPool _ _ _

omit [Platform R] in
theorem endCopy (copy : BitPool) : Effect (Editing (R := R)) (endCopy copy) := by
  apply Effect.bind Effect.get
  intro s
  split
  · exact Effect.pure _
  · exact Effect.attempt _

end Editing

namespace ModelOnly
variable [Platform R]

theorem allocFromBitPool (alloc : Gen β) (pool : BitPool) (shrinking : Bool) :
    Effect (ModelOnly (R := R)) (allocFromBitPool alloc pool shrinking) := by
  have inject : ∀ f : Prng R → Prng R,
      Effect ModelOnly (modify fun s => { s with prng := f s.prng } : Auto R PUnit) :=
    fun f => Effect.modify fun _ => rfl
  apply Effect.bind (inject fun p => p.injectBitPool _)
  intro _
  have hread : Effect ModelOnly
      (zoom AutoState.prng (fun p s => { s with prng := p }) alloc.run : Auto R β) :=
    Effect.zoom fun _ => rfl
  apply Effect.bind hread
  intro res
  apply Effect.bind Effect.get
  intro s
  apply Effect.bind (inject fun p => p.stopUsingBitPool)
  intro _
  exact Effect.pure _

omit [Platform R] in
theorem freeCopy (copy : BitPool) : Effect (ModelOnly (R := R)) (freeCopy copy) := by
  constructor
  intro s
  simp only [final, Theft.freeCopy, bind_apply, get_apply, attempt]
  cases freeBitPool s.prng copy s.ledger <;> rfl

theorem shrinkCopy (fuel : Nat) (alloc : Gen (AllocRes × β)) (orig copy : BitPool) :
    Effect (ModelOnly (R := R)) (shrinkCopy fuel alloc orig copy) := by
  apply Effect.bind Effect.require
  intro _
  apply Effect.bind (Editing.toModelOnly (Editing.modifyModel _))
  intro _
  apply Effect.bind (Editing.toModelOnly (Editing.changeCopy _ _ _))
  intro copy
  apply Effect.bind (Editing.toModelOnly (Editing.endCopy _))
  intro copy
  apply Effect.bind (allocFromBitPool _ _ _)
  rintro ⟨⟨ares, res⟩, copy⟩
  cases ares with
  | ok => exact Effect.pure _
  | skip =>
    apply Effect.bind (freeCopy _)
    intro _
    exact Effect.pure _
  | error =>
    apply Effect.bind (freeCopy _)
    intro _
    exact Effect.pure _

end ModelOnly

variable [Platform R]

/-- A whole shrinking step. -/
theorem CoreOnly.autoshrinkShrink (fuel : Nat) (alloc : Gen (AllocRes × β)) (tactic : Nat) :
    Effect (CoreOnly (R := R)) (autoshrinkShrink fuel alloc tactic) := by
  constructor
  intro s
  unfold Theft.autoshrinkShrink
  rw [final_get_bind]
  cases hpool : s.env.bitPool with
  | none => exact Std.Refl.refl s
  | some orig =>
    dsimp only
    split
    · exact Std.Refl.refl s
    · cases hindex : buildIndex orig with
      | none => exact Std.Refl.refl s
      | some indexed =>
        have hbuilt : CoreOnly s { s with env := { s.env with bitPool := some indexed } } := by
          have hsame : indexed = { orig with index := indexed.index } := by
            unfold buildIndex at hindex
            split at hindex
            · cases hindex
              rfl
            · split at hindex
              · cases hindex
                rfl
              · cases hindex
          unfold CoreOnly AutoshrinkEnv.core
          dsimp only
          rw [hpool, hsame]
          rfl
        dsimp only
        rw [final_modify_bind]
        cases allocBitPool s.ledger.nextId indexed.bitsFilled indexed.limit indexed.requestCeil with
        | none => exact hbuilt
        | some copy =>
          have hcopy := (ModelOnly.shrinkCopy fuel alloc indexed copy).change
            { s with
              ledger := s.ledger.acquirePool
              env := { s.env with bitPool := some indexed } }
          exact IsTrans.trans _ _ _ hbuilt hcopy.coreOnly

end

end Theft
