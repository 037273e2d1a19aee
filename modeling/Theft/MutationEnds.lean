import Theft.PoolGenerations

/-!
# A shrinking step comes to an end

`get_weighted_mutation` draws until it draws a number below the sum of the weights. Where a
generator draws 0 sooner or later, it ends, and with it every step of `theft_autoshrink_shrink`.

* `Fair`: no request for a few bits is answered by other numbers than 0 forever;
* `Unfuelled`: a program of the shrinking step that does not stop for want of fuel;
* `autoshrinkShrink_settles`: the step comes to one end, whatever fuel it has from some on.
-/

namespace Theft

open PackedBits Exec

/-! ## Fair generators -/

/-- Of some draws of `bitCount` bits in a row, the last one is 0. -/
inductive DrawsZero {R : Type} [Platform R] (bitCount : Nat) : Prng R → Prop where
  | now {p q} : randomBits bitCount p = .ok 0 q → DrawsZero bitCount p
  | later {p q w} : randomBits bitCount p = .ok w q → DrawsZero bitCount q → DrawsZero bitCount p

/-- Wherever it is, the generator draws 0 sooner or later. -/
def Fair (R : Type) [Platform R] : Prop :=
  ∀ (p : Prng R) (bitCount : Nat), p.Inv → p.bitPool = none → bitCount ≤ 16 → DrawsZero bitCount p

/-- A generator of which only zeroes are left. -/
theorem drawsZero_of_stream {R : Type} [Platform R] {bitCount : Nat} (hbits : bitCount ≤ 64)
    (quiet : Nat) : ∀ p : Prng R, p.bitPool = none → p.bitsAvailable ≤ 64 →
      (∀ i, quiet ≤ i → p.stream i = false) → DrawsZero bitCount p := by
  induction quiet using Nat.strongRecOn with
  | _ quiet ih =>
    intro p hpool havail hstream
    obtain ⟨w, q, hrun, hqpool, hqavail, hshift, hw⟩ := randomBits_noPool hpool havail hbits
    by_cases hlast : bitCount = 0 ∨ quiet = 0
    · have hzero : w = 0 := by
        apply BitVec.eq_of_getLsbD_eq
        intro j _
        rw [hw]
        obtain rfl | rfl := hlast
        · simp
        · simp [hstream j (Nat.zero_le j)]
      rw [hzero] at hrun
      exact .now hrun
    · refine .later hrun (ih (quiet - bitCount) (by omega) q hqpool hqavail fun i hi => ?_)
      rw [hshift]
      exact hstream _ (by omega)

/-! ## Steps that end -/

/-- A computation that does not stop for want of fuel. -/
def Ended {α : Type} (x : Except Stop α) : Prop := x ≠ .error .fuel

namespace Ended
variable {α : Type}

theorem ok (a : α) : Ended (.ok a : Except Stop α) := by simp [Ended]

theorem error {e : Stop} (h : e ≠ .fuel) : Ended (.error e : Except Stop α) := by
  simpa [Ended] using h

theorem readBits (bytes : List Byte) (is : List Nat) :
    ∀ c acc, Ended (readBits bytes is c acc) := by
  induction is with
  | nil => exact fun _ _ => ok _
  | cons i is ih =>
    intro c acc
    rw [Theft.readBits]
    split
    · exact error (by decide)
    · exact ih _ _

theorem readBitsAtOffset (pool : BitPool) (bitOffset size : Nat) :
    Ended (readBitsAtOffset pool bitOffset size) := readBits _ _ _ _

theorem writeBits (v : Word) (is : List Nat) : ∀ c bytes, Ended (writeBits v is c bytes) := by
  induction is with
  | nil => exact fun _ _ => ok _
  | cons i is ih =>
    intro c bytes
    rw [Theft.writeBits]
    split
    · exact error (by decide)
    · exact ih _ _

theorem map {β : Type} {x : Except Stop α} (h : Ended x) (f : α → β) : Ended (x.map f) := by
  cases x with
  | ok a => exact ok _
  | error e =>
    intro he
    cases he
    exact h rfl

theorem writeBitsAtOffset (pool : BitPool) (bitOffset size : Nat) (v : Word) :
    Ended (writeBitsAtOffset pool bitOffset size v) := (writeBits _ _ _ _).map _

theorem offsetOfPos (orig : BitPool) (pos : Nat) : Ended (offsetOfPos orig pos) := by
  unfold Theft.offsetOfPos
  split
  · exact error (by decide)
  · split
    · exact error (by decide)
    · exact ok _

theorem requestAt (orig : BitPool) (pos : Nat) : Ended (requestAt orig pos) := by
  unfold Theft.requestAt
  split
  · exact error (by decide)
  · exact ok _

theorem copyKept (orig : List Byte) (kept : Nat → Bool) (bis : List Nat) :
    ∀ s, Ended (copyKept orig kept bis s) := by
  induction bis with
  | nil => exact fun _ => ok _
  | cons bi bis ih =>
    intro s
    rw [Theft.copyKept]
    cases hdrop : dropBit orig (kept bi) s with
    | ok s' => exact ih s'
    | error e =>
      intro he
      cases he
      unfold dropBit at hdrop
      split at hdrop
      · split at hdrop
        · cases hdrop
        · split at hdrop <;> cases hdrop
      · cases hdrop

theorem copyBytes (dst src : List Byte) (bytes : Nat) : Ended (copyBytes dst src bytes) := by
  unfold Theft.copyBytes
  split
  · exact ok _
  · exact error (by decide)

theorem truncateTrailingZeroBytes (pool : BitPool) : Ended (truncateTrailingZeroBytes pool) := by
  have trimmed : ∀ n, Ended (trimmedBytes pool.bits n) := by
    intro n
    induction n with
    | zero => exact ok _
    | succ i ih =>
      rw [trimmedBytes]
      split
      · exact error (by decide)
      · split
        · exact ok _
        · exact ih
  exact (trimmed _).map _

theorem freeBitPool {R : Type} (p : Prng R) (pool : BitPool) (l : Ledger) :
    Ended (freeBitPool p pool l) := by
  unfold Theft.freeBitPool
  split
  · exact ok _
  · exact error (by decide)

end Ended

section
variable {R : Type} {α β : Type}

/-- No pool is injected, and a mutation has a weight. -/
structure Weighing (s : AutoState R) : Prop where
  prng : s.prng.Inv
  noPool : s.prng.bitPool = none
  sub : s.env.model.weights .sub ≠ 0

/-- The program needs no fuel. -/
abbrev Unfuelled (m : Auto R α) : Prop :=
  Spec Weighing m (fun _ => Weighing) fun e _ => e ≠ .fuel

namespace Unfuelled

theorem pure (a : α) : Unfuelled (pure a : Auto R α) := Spec.pure fun _ hs => hs

theorem get : Unfuelled (get : Auto R (AutoState R)) := Spec.get fun _ hs => hs

theorem attempt {x : Except Stop α} (hx : Ended x) : Unfuelled (attempt x : Auto R α) := by
  intro s hs
  cases x with
  | ok a => exact hs
  | error e =>
    intro he
    exact hx (by rw [he])

theorem require {c : Prop} [Decidable c] {e : Stop} (he : e ≠ .fuel) :
    Unfuelled (require c e : Auto R Unit) := by
  unfold Exec.require
  split
  · exact pure ()
  · exact Spec.throw fun _ _ => he

theorem throw {e : Stop} (he : e ≠ .fuel) : Unfuelled (throw e : Auto R α) :=
  Spec.throw fun _ _ => he

theorem modifyModel {f : AutoshrinkModel → AutoshrinkModel} (hf : ∀ m, (f m).weights = m.weights) :
    Unfuelled (modifyModel f : Auto R Unit) := by
  refine Spec.modify fun s hs => ⟨hs.prng, hs.noPool, ?_⟩
  dsimp only
  rw [hf]
  exact hs.sub

theorem setTried (action : AutoshrinkAction) : Unfuelled (setTried action : Auto R Unit) :=
  modifyModel fun _ => rfl

theorem setSet (action : AutoshrinkAction) (changed : Bool) :
    Unfuelled (setSet action changed : Auto R Unit) := by
  unfold Theft.setSet
  split
  · exact modifyModel fun _ => rfl
  · exact pure ()

theorem rewriteBits (pool : BitPool) (bitOffset size : Nat) (f : Word → Word) :
    Unfuelled (rewriteBits pool bitOffset size f : Auto R _) := by
  apply Spec.bind (attempt (.readBitsAtOffset _ _ _))
  intro bits
  apply Spec.bind (attempt (.writeBitsAtOffset _ _ _ _))
  intro pool'
  exact pure _

theorem swapRequests (orig pool : BitPool) (bitOffset size : Nat) (bits : Word) (is : List Nat) :
    Unfuelled (swapRequests orig pool bitOffset size bits is : Auto R _) := by
  induction is with
  | nil => exact pure _
  | cons i is ih =>
    apply Spec.bind (attempt (.requestAt _ _))
    intro otherSize
    split
    · apply Spec.bind (attempt (.offsetOfPos _ _))
      intro otherOffset
      apply Spec.bind (attempt (.readBitsAtOffset _ _ _))
      intro other
      split
      · apply Spec.bind (attempt (.writeBitsAtOffset _ _ _ _))
        intro pool₁
        apply Spec.bind (attempt (.writeBitsAtOffset _ _ _ _))
        intro pool₂
        apply Spec.bind (setSet _ _)
        intro _
        exact pure _
      · exact ih
    · exact ih

theorem endCopy (copy : BitPool) : Unfuelled (endCopy copy : Auto R _) := by
  apply Spec.bind get
  intro s
  split
  · exact pure _
  · exact attempt (.truncateTrailingZeroBytes _)

theorem freeCopy (copy : BitPool) : Unfuelled (freeCopy copy : Auto R _) := by
  intro s hs
  have hended := Ended.freeBitPool s.prng copy s.ledger
  unfold Theft.freeCopy
  rw [bind_apply, get_apply]
  dsimp only
  cases hfree : freeBitPool s.prng copy s.ledger with
  | ok ledger => exact ⟨hs.prng, hs.noPool, hs.sub⟩
  | error e =>
    rw [hfree] at hended
    intro he
    exact hended (by rw [he])

variable [Platform R]

theorem prngBits (bitCount : Nat) : Unfuelled (prngBits bitCount : Auto R Word) := by
  intro s hs
  by_cases hle : bitCount ≤ 64
  · obtain ⟨⟨⟨pool, hpool, -⟩, -⟩⟩ | ⟨w, p', hrun, hinv, hreads, -⟩ := randomBits_inv hs.prng hle
    · rw [hs.noPool] at hpool
      cases hpool
    · simp only [Theft.prngBits, zoom, hrun]
      exact ⟨hinv, hreads.same.of_none hs.noPool, hs.sub⟩
  · simp only [Theft.prngBits, zoom, randomBits, if_neg hle, throw_apply]
    decide

theorem pickRegion (size : Nat) : Unfuelled (pickRegion size : Auto R _) := by
  unfold Theft.pickRegion
  split
  · apply Spec.bind (prngBits _)
    intro pos
    apply Spec.bind (prngBits _)
    intro toChange
    exact pure _
  · exact pure _

theorem mutateShift (pool : BitPool) (bitOffset size : Nat) :
    Unfuelled (mutateShift pool bitOffset size : Auto R _) := by
  apply Spec.bind (setTried _)
  intro _
  apply Spec.bind (prngBits _)
  intro shift
  apply Spec.bind (pickRegion _)
  intro region
  apply Spec.bind (rewriteBits _ _ _ _)
  intro changed
  apply Spec.bind (setSet _ _)
  intro _
  exact pure _

theorem pickMask (maskSize : Nat) : Unfuelled (pickMask maskSize : Auto R _) := by
  apply Spec.bind (prngBits _)
  intro a
  apply Spec.bind (prngBits _)
  intro b
  dsimp only
  split
  · apply Spec.bind (prngBits _)
    intro oneBit
    exact pure _
  · exact pure _

theorem mutateMask (pool : BitPool) (bitOffset size : Nat) :
    Unfuelled (mutateMask pool bitOffset size : Auto R _) := by
  apply Spec.bind (setTried _)
  intro _
  apply Spec.bind (pickMask _)
  intro mask
  apply Spec.bind (pickRegion _)
  intro region
  apply Spec.bind (rewriteBits _ _ _ _)
  intro changed
  apply Spec.bind (setSet _ _)
  intro _
  exact pure _

theorem swapBlocks (pool : BitPool) (bitOffset size : Nat) :
    Unfuelled (swapBlocks pool bitOffset size : Auto R _) := by
  apply Spec.bind (prngBits _)
  intro bits
  dsimp only
  split
  · exact pure _
  · split
    · apply Spec.bind (prngBits _)
      intro posA
      apply Spec.bind (prngBits _)
      intro posB
      split
      · exact pure _
      · apply Spec.bind (attempt (.readBitsAtOffset _ _ _))
        intro a
        apply Spec.bind (attempt (.readBitsAtOffset _ _ _))
        intro b
        split
        · apply Spec.bind (attempt (.writeBitsAtOffset _ _ _ _))
          intro pool₁
          apply Spec.bind (attempt (.writeBitsAtOffset _ _ _ _))
          intro pool₂
          apply Spec.bind (setSet _ _)
          intro _
          exact pure _
        · exact pure _
    · exact throw (by decide)

theorem mutateSwap (orig pool : BitPool) (pos bitOffset size : Nat) :
    Unfuelled (mutateSwap orig pool pos bitOffset size : Auto R _) := by
  apply Spec.bind (setTried _)
  intro _
  split
  · split
    · exact swapBlocks _ _ _
    · apply Spec.bind (attempt (.readBitsAtOffset _ _ _))
      intro bits
      exact swapRequests _ _ _ _ _ _
  · exact throw (by decide)

theorem mutateSub (pool : BitPool) (bitOffset size : Nat) :
    Unfuelled (mutateSub pool bitOffset size : Auto R _) := by
  apply Spec.bind (setTried _)
  intro _
  apply Spec.bind (prngBits _)
  intro sub
  apply Spec.bind (pickRegion _)
  intro region
  apply Spec.bind (attempt (.readBitsAtOffset _ _ _))
  intro bits
  split
  · apply Spec.bind (setSet _ _)
    intro _
    apply Spec.bind (attempt (.writeBitsAtOffset _ _ _ _))
    intro pool'
    exact pure _
  · exact pure _

theorem dropRequests (dropBits dropThreshold toDrop : Nat) (orig : List Byte) (rest : List Nat) :
    ∀ ri dropCount s,
      Unfuelled (dropRequests dropBits dropThreshold toDrop orig ri rest dropCount s :
        Auto R _) := by
  induction rest with
  | nil => exact fun _ _ _ => pure _
  | cons reqSize rest ih =>
    intro ri dropCount s
    have chosen : Unfuelled (dropChosen dropBits dropThreshold toDrop ri : Auto R _) := by
      unfold dropChosen
      split
      · exact pure _
      · apply Spec.bind (prngBits _)
        intro bits
        exact pure _
    have subset : Unfuelled (dropSubset reqSize : Auto R _) := by
      unfold dropSubset
      split
      · apply Spec.bind (prngBits _)
        intro dropOffset
        apply Spec.bind (prngBits _)
        intro dropSize
        exact pure _
      · exact pure _
    apply Spec.bind chosen
    intro drop
    split
    · apply Spec.bind subset
      intro kept
      apply Spec.bind (attempt (.copyKept _ _ _ _))
      intro s'
      exact ih _ _ _
    · apply Spec.bind (attempt (.copyKept _ _ _ _))
      intro s'
      exact ih _ _ _

theorem dropFromBitPool (orig copy : BitPool) :
    Unfuelled (dropFromBitPool orig copy : Auto R _) := by
  apply Spec.bind get
  intro s
  apply Spec.bind (prngBits _)
  intro toDrop
  apply Spec.bind (dropRequests _ _ _ _ _ _ _ _)
  intro dropped
  exact pure _

theorem shouldDrop (requestCount : Nat) : Unfuelled (shouldDrop requestCount : Auto R _) := by
  apply Spec.bind get
  intro s
  dsimp only
  split
  · apply Spec.bind (prngBits _)
    intro bits
    exact pure _
  · exact pure _

end Unfuelled

/-! ## Draws for a mutation -/

variable [Platform R]

omit [Platform R] in
theorem Unfuelled.settles {m : Auto R α} (h : Unfuelled m) :
    Settles .fuel Weighing (fun _ => m) fun _ => Weighing := .const h

/-- The draws end with a 0, if not before. -/
theorem drawMutation_settles {bitCount shift mask swap sub : Nat} (hsub : 0 < sub) {p : Prng R}
    (h : DrawsZero bitCount p) :
    Settles .fuel (fun s => Weighing s ∧ s.prng = p)
      (fun fuel => drawMutation bitCount shift mask swap sub fuel) fun _ => Weighing := by
  have drawn (p : Prng R) : Spec (fun s => Weighing s ∧ s.prng = p)
      (prngBits bitCount : Auto R Word)
      (fun w t => Weighing t ∧ randomBits bitCount p = .ok w t.prng) fun e _ => e ≠ .fuel := by
    rintro s ⟨hs, rfl⟩
    have hend := Unfuelled.prngBits bitCount s hs
    revert hend
    simp only [prngBits, zoom]
    cases randomBits bitCount s.prng with
    | ok w q => exact fun hend => ⟨hend, rfl⟩
    | error e q => exact id
  induction h with
  | @now p q hrun =>
    apply Settles.step
    apply Settles.bind (.const (drawn p))
    intro w
    by_cases hw : w = 0
    · have hzero : (w.toNat % 2 ^ 16) = 0 := by
        rw [hw]
        rfl
      dsimp only
      rw [hzero]
      split
      · exact .const (Spec.pure fun _ ht => ht.1)
      · split
        · exact .const (Spec.pure fun _ ht => ht.1)
        · split
          · exact .const (Spec.pure fun _ ht => ht.1)
          · exact .const (Spec.pure fun _ ht => ht.1)
    · rintro t ⟨-, ht⟩
      rw [hrun] at ht
      cases ht
      exact absurd rfl hw
  | @later p q w hrun _ ih =>
    apply Settles.step
    apply Settles.bind (.const (drawn p))
    intro w'
    dsimp only
    split
    · exact .const (Spec.pure fun _ ht => ht.1)
    · split
      · exact .const (Spec.pure fun _ ht => ht.1)
      · split
        · exact .const (Spec.pure fun _ ht => ht.1)
        · split
          · exact .const (Spec.pure fun _ ht => ht.1)
          · refine ih.mono ?_ fun _ _ ht => ht
            rintro t ⟨ht, hnext⟩
            rw [hrun] at hnext
            cases hnext
            exact ⟨ht, rfl⟩

theorem getWeightedMutation_settles (hfair : Fair R) :
    Settles .fuel Weighing (fun fuel => (getWeightedMutation fuel : Auto R Mutation))
      fun _ => Weighing := by
  apply Settles.getThen
  intro s hs
  have constant (a : Mutation) : Settles .fuel (fun t => t = s)
      (fun _ => (pure a : Auto R Mutation)) fun _ => Weighing :=
    .const (Spec.pure fun t ht => ht ▸ hs)
  have assertion : Settles .fuel (fun t => t = s)
      (fun _ => (throw .assertion : Auto R Mutation)) fun _ => Weighing :=
    .const (Spec.throw fun _ _ => by decide)
  dsimp only
  cases s.env.model.nextAction with
  | some action =>
    cases action with
    | drop => exact assertion
    | shift => exact constant .shift
    | mask => exact constant .mask
    | swap => exact constant .swap
    | sub => exact constant .sub
  | none =>
    dsimp only
    split
    · rename_i hle
      have hsub : (s.env.model.weights .sub).toNat ≠ 0 := by
        intro hzero
        exact hs.sub (BitVec.eq_of_toNat_eq hzero)
      refine (drawMutation_settles (by omega) (hfair s.prng _ hs.prng hs.noPool hle)).mono ?_
        fun _ _ ht => ht
      rintro t rfl
      exact ⟨hs, rfl⟩
    · exact assertion

/-! ## Mutations -/

theorem chooseAndMutateRequest_settles (hfair : Fair R) (orig pool : BitPool) :
    Settles .fuel Weighing (fun fuel => (chooseAndMutateRequest fuel orig pool : Auto R _))
      fun _ => Weighing := by
  apply Settles.bind (getWeightedMutation_settles hfair)
  intro mtype
  dsimp only
  split
  · exact (Unfuelled.pure _).settles
  · apply Settles.bind (Unfuelled.prngBits _).settles
    intro bits
    apply Settles.bind (Unfuelled.attempt (.offsetOfPos _ _)).settles
    intro bitOffset
    apply Settles.bind (Unfuelled.attempt (.requestAt _ _)).settles
    intro size
    cases mtype with
    | shift => exact (Unfuelled.mutateShift _ _ _).settles
    | mask => exact (Unfuelled.mutateMask _ _ _).settles
    | swap => exact (Unfuelled.mutateSwap _ _ _ _ _).settles
    | sub => exact (Unfuelled.mutateSub _ _ _).settles

theorem mutateTimes_settles (hfair : Fair R) (orig : BitPool) (changeCount tries : Nat) :
    ∀ changed pool, Settles .fuel Weighing
      (fun fuel => (mutateTimes fuel orig changeCount tries changed pool : Auto R _))
      fun _ => Weighing := by
  induction tries with
  | zero => exact fun _ _ => (Unfuelled.pure _).settles
  | succ tries ih =>
    intro changed pool
    apply Settles.bind (chooseAndMutateRequest_settles hfair orig pool)
    intro mutated
    dsimp only
    split
    · split
      · exact (Unfuelled.pure _).settles
      · exact ih _ _
    · exact ih _ _

theorem mutateBitPool_settles (hfair : Fair R) (orig pool : BitPool) :
    Settles .fuel Weighing (fun fuel => (mutateBitPool fuel orig pool : Auto R _))
      fun _ => Weighing := by
  apply Settles.bind (Unfuelled.attempt (.copyBytes _ _ _)).settles
  intro bits
  apply Settles.bind Unfuelled.get.settles
  intro s
  apply Settles.bind (Unfuelled.require (by decide)).settles
  intro _
  apply Settles.bind (Unfuelled.prngBits _).settles
  intro changes
  apply Settles.bind (mutateTimes_settles hfair _ _ _ _ _)
  intro mutated
  exact (Unfuelled.pure _).settles

theorem changeCopy_settles (hfair : Fair R) (orig copy : BitPool) :
    Settles .fuel Weighing (fun fuel => (changeCopy fuel orig copy : Auto R _))
      fun _ => Weighing := by
  apply Settles.bind (Unfuelled.shouldDrop _).settles
  intro drop
  cases drop with
  | true =>
    apply Settles.bind (Unfuelled.setSet _ _).settles
    intro _
    apply Settles.bind (Unfuelled.dropFromBitPool _ _).settles
    intro dropped
    exact (Unfuelled.pure _).settles
  | false => exact mutateBitPool_settles hfair orig copy

/-! ## The step -/

/-- The model has a weight for a mutation, or is given its weights when a step starts. -/
def AutoshrinkModel.Weighted (m : AutoshrinkModel) : Prop :=
  m.weights .sub ≠ 0 ∨ (m.weights .drop = 0 ∧ ∀ a, m.curSet a = false)

/-- Between steps: no pool is injected, and a mutation has a weight or will have one. -/
structure Weighable (s : AutoState R) : Prop where
  prng : s.prng.Inv
  noPool : s.prng.bitPool = none
  weighted : s.env.model.Weighted

omit [Platform R] in
theorem Weighing.weighable {s : AutoState R} (h : Weighing s) : Weighable s :=
  ⟨h.prng, h.noPool, .inl h.sub⟩

omit [Platform R] in
/-- When a step has started, a mutation has a weight. -/
theorem startModel_weighing (s₀ : AutoState R) :
    Spec (fun s => Within s₀ s ∧ s.env.model.Weighted) (startModel : Auto R Unit)
      (fun _ s => Weighing s) fun e _ => e ≠ .fuel := by
  refine Spec.modify fun s hs => ⟨hs.1.prng, hs.1.noPool, ?_⟩
  have hnext := hs.1.unscheduled
  dsimp only
  split
  · rw [initModel, if_neg (by simp [hnext])]
    decide
  · rename_i hdrop
    obtain hsub | ⟨hzero, -⟩ := hs.2
    · exact hsub
    · exact absurd hzero hdrop

/-- The model is what it was. -/
def KeepsModel (s t : AutoState R) : Prop := t.env.model = s.env.model

omit [Platform R] in
instance keepsModel_preorder : IsPreorder (AutoState R) KeepsModel where
  refl _ := rfl
  trans _ _ _ h₁ h₂ := Eq.trans h₂ h₁

theorem allocFromBitPool_model (alloc : Gen α) (pool : BitPool) (shrinking : Bool) :
    Effect KeepsModel (allocFromBitPool alloc pool shrinking : Auto R _) := by
  have inject : ∀ f : Prng R → Prng R,
      Effect KeepsModel (modify fun s => { s with prng := f s.prng } : Auto R PUnit) :=
    fun f => Effect.modify fun _ => rfl
  apply Effect.bind (inject fun p => p.injectBitPool _)
  intro _
  have hread : Effect KeepsModel
      (zoom AutoState.prng (fun p s => { s with prng := p }) alloc.run : Auto R α) :=
    Effect.zoom fun _ => rfl
  apply Effect.bind hread
  intro res
  apply Effect.bind Effect.get
  intro s
  apply Effect.bind (inject fun p => p.stopUsingBitPool)
  intro _
  exact Effect.pure _

theorem autoshrinkAlloc_model (alloc : Gen (AllocRes × α)) :
    Effect KeepsModel (autoshrinkAlloc alloc : Auto R _) := by
  constructor
  intro s
  unfold autoshrinkAlloc
  rw [final_get_bind]
  cases allocBitPool s.ledger.nextId (getDef s.env.poolSize defPoolSize)
      (getDef s.env.poolLimit defPoolLimit) defRequestsCeil with
  | none => rfl
  | some pool =>
    have store : ∀ pool : BitPool, Effect KeepsModel
        (modify fun s => { s with env := { s.env with bitPool := some pool } } : Auto R PUnit) :=
      fun pool => Effect.modify fun _ => rfl
    have hrest : Effect KeepsModel (do
        let used ← allocFromBitPool alloc pool false
        modify fun s => { s with env := { s.env with bitPool := some used.2 } }
        return (used.1.1, some used.1.2) : Auto R (AllocRes × Option α)) := by
      apply Effect.bind (allocFromBitPool_model _ _ _)
      intro used
      apply Effect.bind (store used.2)
      intro _
      exact Effect.pure _
    exact hrest.change { s with
      ledger := s.ledger.acquirePool, env := { s.env with bitPool := some pool } }

/-- A callback that reads from the copy returns. -/
theorem allocShrinking_weighing (s₀ : AutoState R) {alloc : Gen α} (halloc : alloc.Sized)
    {filled : Nat} {copy : BitPool} (hcopy : Fresh filled copy)
    (haligned : copy.bitsFilled % 8 = 0) (hlimit : copy.limit ≤ copy.bitsFilled) :
    Spec (fun s => Weighing s ∧ Within s₀ s) (allocFromBitPool alloc copy true)
      (fun _ => Weighing) fun e _ => e ≠ .fuel := by
  rintro s ⟨hs, hwithin⟩
  rcases allocFromBitPool_spec hwithin halloc true (hcopy.inv haligned hlimit) hcopy.consumed with
    ⟨hfalse, -⟩ | ⟨res, pool', s', hrun, hwithin', -⟩
  · cases hfalse
  · have hmodel : s'.env.model = s.env.model :=
      (allocFromBitPool_model alloc copy true).of_returned hrun
    rw [hrun]
    refine ⟨hwithin'.prng, hwithin'.noPool, ?_⟩
    rw [hmodel]
    exact hs.sub

theorem shrinkCopy_settles (hfair : Fair R) {s₀ : AutoState R} (hs₀ : s₀.Ready)
    {alloc : Gen (AllocRes × β)} (halloc : alloc.Sized) {orig : BitPool} (ho : Source orig)
    {copy : BitPool} (hcopy : Fresh orig.bitsFilled copy) (hzero : ∀ i, bitAt copy.bits i = false) :
    Settles .fuel (fun s => Within s₀ s ∧ s.env.model.Weighted)
      (fun fuel => (shrinkCopy fuel alloc orig copy : Auto R _)) fun _ => Weighing := by
  have hcopy' : Fresh orig.bitsFilled
      { copy with generation := orig.generation + 1, limit := orig.limit } :=
    ⟨hcopy.bytes, hcopy.ceil_aligned, hcopy.ceil_le, hcopy.room, hcopy.filled_le, hcopy.consumed,
      hcopy.requests, hcopy.requestCeil_pos, hcopy.index⟩
  have hchecked : Spec (fun s => Within s₀ s ∧ s.env.model.Weighted)
      (require (orig.requests.sum = orig.consumed) .assertion : Auto R Unit)
      (fun _ s => Within s₀ s ∧ s.env.model.Weighted) fun e _ => e ≠ .fuel :=
    Spec.require ho.inv.requests_sum fun s hs => hs
  apply Settles.bind (.const hchecked)
  intro _
  have hstart : Settles .fuel (fun s => Within s₀ s ∧ s.env.model.Weighted)
      (fun _ => (startModel : Auto R Unit)) fun _ s => Weighing s ∧ Within s₀ s :=
    (Settles.also (.const (startModel_weighing s₀)) fun _ => startModel_safe).mono
      (fun s hs => ⟨hs, hs.1⟩) fun _ s hs => ⟨hs.1, hs.2.1⟩
  apply Settles.bind hstart
  intro _
  apply Settles.bind ((changeCopy_settles hfair orig _).also fun fuel =>
    changeCopy_safe hs₀.dropBits fuel ho hcopy' hzero)
  rintro changed s ⟨hs, hwithin, hfresh⟩
  refine Settles.bind ((Unfuelled.endCopy changed).settles.also fun _ =>
    endCopy_safe hs₀.truncating ho.inv.filled_aligned hfresh) ?_ s ⟨hs, hwithin⟩
  rintro copy' s ⟨hs, hwithin, hfresh, haligned, hlimit⟩
  refine Settles.bind (.const (allocShrinking_weighing s₀ halloc hfresh haligned hlimit)) ?_ s
    ⟨hs, hwithin⟩
  intro answer
  obtain ⟨⟨ares, res⟩, pool⟩ := answer
  cases ares with
  | ok => exact (Unfuelled.pure _).settles
  | skip =>
    apply Settles.bind (Unfuelled.freeCopy pool).settles
    intro _
    exact (Unfuelled.pure _).settles
  | error =>
    apply Settles.bind (Unfuelled.freeCopy pool).settles
    intro _
    exact (Unfuelled.pure _).settles

/-- **A shrinking step comes to one end**, and a mutation has a weight in the next step too. -/
theorem autoshrinkShrink_settles (hfair : Fair R) {s : AutoState R} (hs : s.Ready)
    (hmodel : s.env.model.Weighted) {orig : BitPool} (horig : s.env.bitPool = some orig)
    (hvalid : orig.Valid) {alloc : Gen (AllocRes × β)} (halloc : alloc.Sized) (tactic : Nat) :
    Settles .fuel (fun t => t = s) (fun fuel => autoshrinkShrink fuel alloc tactic)
      fun _ => Weighable := by
  have hsame : Weighable s := ⟨hs.prng, hs.noPool, hmodel⟩
  intro t ht
  rw [ht]
  by_cases htactic : getDef s.env.maxFailedShrinks defMaxFailedShrinks ≤ tactic
  · refine ⟨0, .inl ⟨(.noMoreTactics, none, none), s, hsame, fun fuel _ => ?_⟩⟩
    simp only [autoshrinkShrink, bind_apply, get_apply, horig, if_pos htactic, pure_apply]
  cases hindex : buildIndex orig with
  | none =>
    refine ⟨0, .inl ⟨(.error, none, none), s, hsame, fun fuel _ => ?_⟩⟩
    simp only [autoshrinkShrink, bind_apply, get_apply, horig, if_neg htactic, hindex, pure_apply]
  | some orig' =>
    have horig' := buildIndex_spec hindex hvalid.indexed
    subst horig'
    have inv := hvalid.inv.setIndex (some (indexFrom 0 orig.requests))
    cases hcopy : allocBitPool s.ledger.nextId orig.bitsFilled orig.limit orig.requestCeil with
    | none => exact absurd hcopy (allocBitPool_copy hvalid.inv _ _ _)
    | some copy =>
      obtain ⟨hfresh, hzero⟩ := allocBitPool_fresh hvalid.inv hcopy
      have hstart : AutoState.Ready (R := R) { s with
          ledger := s.ledger.acquirePool
          env := { s.env with
            bitPool := some { orig with index := some (indexFrom 0 orig.requests) } } } :=
        ⟨hs.prng, hs.noPool, hs.unscheduled, hs.dropBits, hs.truncating⟩
      have hrun : ∀ fuel, autoshrinkShrink fuel alloc tactic s =
          shrinkCopy fuel alloc { orig with index := some (indexFrom 0 orig.requests) } copy
            { s with
              ledger := s.ledger.acquirePool
              env := { s.env with
                bitPool := some { orig with index := some (indexFrom 0 orig.requests) } } } := by
        intro fuel
        simp only [autoshrinkShrink, bind_apply, get_apply, horig, if_neg htactic, hindex,
          modify_apply, hcopy]
      have hsource : Source { orig with index := some (indexFrom 0 orig.requests) } := ⟨inv, rfl⟩
      have hrest := shrinkCopy_settles hfair hstart halloc hsource hfresh hzero _
        ⟨hstart.within, hmodel⟩
      simp only [← hrun] at hrest
      obtain ⟨enough, ⟨a, t, ht, hreturned⟩ | hstopped⟩ := hrest
      · exact ⟨enough, .inl ⟨a, t, ht.weighable, hreturned⟩⟩
      · exact ⟨enough, .inr hstopped⟩

end

end Theft
