import Theft.PoolEdit
import Theft.Source

/-!
# The edits of a copy are safe

* `Safe`: a program of the shrinking step, run between callbacks, changes only the random
  bits and the model, and never fails an assertion or leaves a buffer;
* every edit of a copy is safe, because each request is an extent of the consumed bits;
* `Fresh`: what is known of the copy at each stage, and what truncation makes of it.
-/

namespace Theft

open PackedBits Exec

section
variable {R : Type} {α β : Type}

/-! ## Safe programs -/

/-- Since `s₀` only random bits were drawn and the model was changed. -/
structure Within (s₀ s : AutoState R) : Prop where
  prng : s.prng.Inv
  noPool : s.prng.bitPool = none
  unscheduled : s.env.model.nextAction = none
  ledger : s.ledger = s₀.ledger
  env : s.env = { s₀.env with model := s.env.model }

/-- The program returns in `Q`, or it ran out of draws for a mutation. -/
def Safe (s₀ : AutoState R) (m : Auto R α) (Q : α → Prop) : Prop :=
  Spec (Within s₀) m (fun a s => Within s₀ s ∧ Q a) (fun e s => e = .fuel ∧ Within s₀ s)

/-- A draw changes nothing but the random bits. -/
theorem prngBits_within [Platform R] {s₀ s : AutoState R} (hs : Within s₀ s) {n : Nat}
    (hn : n ≤ 64) : ∃ (w : Word) (s' : AutoState R), prngBits n s = .ok w s' ∧ Within s₀ s' ∧
      s'.env = s.env ∧ w.toNat < 2 ^ n := by
  rcases randomBits_inv hs.prng hn with ⟨⟨pool, hpool, -⟩, -⟩ | ⟨w, p', hrun, hinv, hreads, hbits⟩
  · rw [hs.noPool] at hpool
    cases hpool
  · have hlt : w.toNat < 2 ^ n := by
      apply Nat.lt_pow_two_of_testBit
      intro i hi
      rw [BitVec.testBit_toNat, hbits, decide_eq_false (Nat.not_lt.mpr hi), Bool.false_and]
    have hnone := hreads.same.of_none hs.noPool
    refine ⟨w, { s with prng := p' }, ?_, ⟨hinv, hnone, hs.unscheduled, hs.ledger, hs.env⟩, rfl,
      hlt⟩
    simp only [prngBits, zoom, hrun]

namespace Safe
variable {s₀ : AutoState R} {m : Auto R α} {Q Q' : α → Prop}

theorem pure {a : α} (h : Q a) : Safe s₀ (pure a) Q := fun _ hs => ⟨hs, h⟩

theorem bind {f : α → Auto R β} {P : β → Prop} (hm : Safe s₀ m Q)
    (hf : ∀ a, Q a → Safe s₀ (f a) P) : Safe s₀ (m >>= f) P :=
  Spec.bind hm fun a s hs => hf a hs.2 s hs.1

/-- A safe program before one with other effects. -/
theorem andThen {f : α → Auto R β} {P : β → AutoState R → Prop} (hm : Safe s₀ m Q)
    (hf : ∀ a, Q a → Spec (Within s₀) (f a) P fun e _ => e = .fuel) :
    Spec (Within s₀) (m >>= f) P fun e _ => e = .fuel :=
  Spec.bind (Spec.mono hm (fun _ hs => hs) (fun _ _ ha => ha) fun _ _ he => he.1)
    fun a s hs => hf a hs.2 s hs.1

theorem mono (hm : Safe s₀ m Q) (h : ∀ a, Q a → Q' a) : Safe s₀ m Q' :=
  Spec.mono hm (fun _ hs => hs) (fun a _ ha => ⟨ha.1, h a ha.2⟩) fun _ _ he => he

theorem attempt {x : Except Stop α} {a : α} (hx : x = .ok a) (h : Q a) :
    Safe s₀ (attempt x) Q := Spec.attempt hx fun _ hs => ⟨hs, h⟩

theorem require {c : Prop} [Decidable c] {e : Stop} (hc : c) :
    Safe s₀ (require c e) fun _ => c := Spec.require hc fun _ hs => ⟨hs, hc⟩

theorem get : Safe s₀ get (Within s₀) := Spec.get fun _ hs => ⟨hs, hs⟩

theorem modifyModel {f : AutoshrinkModel → AutoshrinkModel}
    (h : ∀ model, model.nextAction = none → (f model).nextAction = none) :
    Safe s₀ (modifyModel f) fun _ => True := by
  refine Spec.modify fun s hs => ⟨?_, trivial⟩
  exact ⟨hs.prng, hs.noPool, h _ hs.unscheduled, hs.ledger, by rw [hs.env]⟩

theorem prngBits [Platform R] {n : Nat} (hn : n ≤ 64) :
    Safe s₀ (prngBits n) fun w : Word => w.toNat < 2 ^ n := by
  intro s hs
  obtain ⟨w, s', hrun, hs', -, hlt⟩ := prngBits_within hs hn
  rw [hrun]
  exact ⟨hs', hlt⟩

theorem setTried (action : AutoshrinkAction) : Safe s₀ (setTried action) fun _ => True :=
  modifyModel fun _ h => h

theorem setSet (action : AutoshrinkAction) (changed : Bool) :
    Safe s₀ (setSet action changed) fun _ => True := by
  unfold Theft.setSet
  split
  · exact modifyModel fun _ h => h
  · exact pure trivial

end Safe

/-! ## Programs that note what they did -/

/-- `cur_set` with an action added, when it changed the copy. -/
def noteAction (set : AutoshrinkAction → Bool) (action : AutoshrinkAction) (changed : Bool) :
    AutoshrinkAction → Bool := fun a => (changed && decide (a = action)) || set a

/-- With `cur_set` as in `set` the program returns in `Q`, and leaves `cur_set` as in `set'`. -/
def Edits (s₀ : AutoState R) (set : AutoshrinkAction → Bool) (m : Auto R α)
    (set' : α → AutoshrinkAction → Bool) (Q : α → Prop) : Prop :=
  Spec (fun s => Within s₀ s ∧ s.env.model.curSet = set) m
    (fun a s => Within s₀ s ∧ s.env.model.curSet = set' a ∧ Q a) fun _ _ => False

namespace Edits
variable {s₀ : AutoState R} {set : AutoshrinkAction → Bool} {m : Auto R α}
  {set' : α → AutoshrinkAction → Bool} {Q Q' : α → Prop}

theorem pure {a : α} (hset : set' a = set) (h : Q a) : Edits s₀ set (pure a) set' Q :=
  fun _ hs => ⟨hs.1, hs.2.trans hset.symm, h⟩

/-- Nothing was changed. -/
theorem unchanged {action : AutoshrinkAction} {pool : BitPool} {Q : Bool × BitPool → Prop}
    (h : Q (false, pool)) :
    Edits s₀ set (Pure.pure (false, pool)) (fun r => noteAction set action r.1) Q := pure rfl h

theorem bind {f : α → Auto R β} {set'' : β → AutoshrinkAction → Bool} {P : β → Prop}
    (hm : Edits s₀ set m set' Q) (hf : ∀ a, Q a → Edits s₀ (set' a) (f a) set'' P) :
    Edits s₀ set (m >>= f) set'' P :=
  Spec.bind hm fun a s hs => hf a hs.2.2 s ⟨hs.1, hs.2.1⟩

theorem mono (hm : Edits s₀ set m set' Q) (h : ∀ a, Q a → Q' a) : Edits s₀ set m set' Q' :=
  Spec.mono hm (fun _ hs => hs) (fun a _ ha => ⟨ha.1, ha.2.1, h a ha.2.2⟩) fun _ _ he => he

theorem attempt {x : Except Stop α} {a : α} (hx : x = .ok a) (h : Q a) :
    Edits s₀ set (attempt x) (fun _ => set) Q :=
  Spec.attempt hx fun _ hs => ⟨hs.1, hs.2, h⟩

theorem prngBits [Platform R] {n : Nat} (hn : n ≤ 64) :
    Edits s₀ set (prngBits n) (fun _ => set) fun w : Word => w.toNat < 2 ^ n := by
  intro s hs
  obtain ⟨w, s', hrun, hs', henv, hlt⟩ := prngBits_within hs.1 hn
  rw [hrun]
  exact ⟨hs', by rw [henv]; exact hs.2, hlt⟩

theorem modifyModel {f : AutoshrinkModel → AutoshrinkModel} {set₁ : AutoshrinkAction → Bool}
    (hnext : ∀ model, (f model).nextAction = model.nextAction)
    (hset : ∀ model, model.curSet = set → (f model).curSet = set₁) :
    Edits s₀ set (modifyModel f) (fun _ => set₁) fun _ => True := by
  refine Spec.modify fun s hs => ⟨?_, hset _ hs.2, trivial⟩
  exact ⟨hs.1.prng, hs.1.noPool, (hnext _).trans hs.1.unscheduled, hs.1.ledger, by rw [hs.1.env]⟩

theorem setTried (action : AutoshrinkAction) :
    Edits s₀ set (setTried action) (fun _ => set) fun _ => True :=
  modifyModel (fun _ => rfl) fun _ h => h

theorem setSet (action : AutoshrinkAction) (changed : Bool) :
    Edits s₀ set (setSet action changed) (fun _ => noteAction set action changed)
      fun _ => True := by
  unfold Theft.setSet
  cases changed with
  | true =>
    rw [if_pos rfl]
    refine modifyModel (fun _ => rfl) fun model h => ?_
    funext a
    simp only [noteAction, h, Bool.true_and]
  | false => exact pure rfl trivial

/-- What was changed is noted, and then returned. -/
theorem noted {action : AutoshrinkAction} {changed : Bool} {pool : BitPool}
    {Q : Bool × BitPool → Prop} (h : Q (changed, pool)) :
    Edits s₀ set (Theft.setSet action changed >>= fun _ => Pure.pure (changed, pool))
      (fun r => noteAction set action r.1) Q :=
  bind (setSet action changed) fun _ _ => pure rfl h

theorem safe {set' : (AutoshrinkAction → Bool) → α → AutoshrinkAction → Bool}
    (hm : ∀ set, Edits s₀ set m (set' set) Q) : Safe s₀ m Q := by
  intro s hs
  have h := hm s.env.model.curSet s ⟨hs, rfl⟩
  revert h
  cases m s with
  | ok a s' => exact fun h => ⟨h.1, h.2.2⟩
  | error e s' => exact False.elim

end Edits

/-! ## The weighted choice -/

theorem raiseTo_le {value k : Nat} (hvalue : value ≤ 2 ^ k) (fuel : Nat) : ∀ (res : Nat),
    res ≤ k → raiseTo value fuel res ≤ k := by
  induction fuel with
  | zero => intro res h; exact h
  | succ fuel ih =>
    intro res h
    rw [raiseTo]
    split
    · rename_i hlt
      apply ih
      rcases Nat.lt_or_ge res k with hres | hres
      · exact hres
      · have hpow := Nat.pow_le_pow_right (by decide : 0 < 2) hres
        omega
    · exact h

variable [Platform R]

theorem drawMutation_safe (s₀ : AutoState R) {bitCount : Nat} (h : bitCount ≤ 64)
    (shift mask swap sub fuel : Nat) :
    Safe s₀ (drawMutation bitCount shift mask swap sub fuel) fun _ => True := by
  induction fuel with
  | zero => exact Spec.throw fun _ hs => ⟨rfl, hs⟩
  | succ fuel ih =>
    refine .bind (.prngBits h) fun w _ => ?_
    dsimp only
    split
    · exact .pure trivial
    · split
      · exact .pure trivial
      · split
        · exact .pure trivial
        · split
          · exact .pure trivial
          · exact ih

theorem getWeightedMutation_safe (s₀ : AutoState R) (fuel : Nat) :
    Safe s₀ (getWeightedMutation fuel) fun _ => True := by
  refine .bind .get fun s hs => ?_
  have hweight : ∀ a, (s.env.model.weights a).toNat < 256 := fun a => (s.env.model.weights a).isLt
  have hsum : (s.env.model.weights .shift).toNat + (s.env.model.weights .mask).toNat +
      (s.env.model.weights .swap).toNat + (s.env.model.weights .sub).toNat ≤ 2 ^ 10 := by
    have h₁ := hweight .shift
    have h₂ := hweight .mask
    have h₃ := hweight .swap
    have h₄ := hweight .sub
    omega
  have hle := raiseTo_le hsum 64 7 (by decide)
  simp only [hs.unscheduled]
  rw [if_pos (by omega)]
  exact drawMutation_safe s₀ (by omega) _ _ _ _ _

/-! ## Editing the copy -/

section
variable {s₀ : AutoState R} {set : AutoshrinkAction → Bool}

theorem pickRegion_edits {size : Nat} (hsize : 0 < size) :
    Edits s₀ set (pickRegion size) (fun _ => set) fun r => r.1 + r.2 ≤ size ∧ r.2 ≤ 64 := by
  unfold pickRegion
  split
  · refine .bind (.prngBits (by decide)) fun w _ => ?_
    refine .bind (.prngBits (by decide)) fun w' hw' => .pure rfl ?_
    have hmod := Nat.mod_lt w.toNat hsize
    dsimp only
    split <;> omega
  · exact .pure rfl ⟨by omega, by omega⟩

omit [Platform R] in
/-- A function of the bits that sets none past the last one that was read. -/
theorem rewriteBits_edits {pool : BitPool} {offset size : Nat}
    (h : offset + size ≤ 8 * pool.bits.length) (hsize : size ≤ 64) {f : Word → Word}
    (hf : ∀ w j, size ≤ j → (∀ i, size ≤ i → w.getLsbD i = false) → (f w).getLsbD j = false) :
    Edits s₀ set (rewriteBits pool offset size f) (fun _ => set)
      (pool.Rewritten offset size) := by
  obtain ⟨bits, hread, hw⟩ := readBitsAtOffset_spec _ _ _ h
  obtain ⟨pool', hwrite, hedit, hbits⟩ := writeBitsAtOffset_spec _ _ _ h (f bits)
  have hend : ∀ i, size ≤ i → bits.getLsbD i = false := by
    intro i hi
    rcases Nat.lt_or_ge i 64 with hlt | hge
    · rw [hw i hlt, decide_eq_false (Nat.not_lt.mpr hi), Bool.false_and]
    · exact BitVec.getLsbD_of_ge _ _ hge
  refine .bind (.attempt hread rfl) ?_
  rintro _ rfl
  refine .bind (.attempt hwrite rfl) ?_
  rintro _ rfl
  exact .pure rfl (.write hsize hw (fun j hj => hf bits j hj hend) hedit hbits)

theorem mutateShift_edits {pool : BitPool} {offset size : Nat}
    (hsize : 0 < size) (h : offset + size ≤ 8 * pool.bits.length) :
    Edits s₀ set (mutateShift pool offset size) (fun r => noteAction set .shift r.1)
      (pool.Rewritten offset size) := by
  refine .bind (.setTried _) fun _ _ => ?_
  refine .bind (.prngBits (by decide)) fun w _ => ?_
  refine .bind (pickRegion_edits hsize) fun r hr => ?_
  refine .bind (rewriteBits_edits (by omega) hr.2 fun bits j hj hend => ?_) fun r' hedit => ?_
  · rw [BitVec.getLsbD_ushiftRight]
    exact hend _ (by omega)
  · exact .noted (hedit.widen hr.1)

theorem pickMask_edits {maskSize : Nat} (h : maskSize ≤ 64) :
    Edits s₀ set (pickMask maskSize) (fun _ => set) fun _ => True := by
  refine .bind (.prngBits h) fun a _ => ?_
  refine .bind (.prngBits h) fun b _ => ?_
  dsimp only
  split
  · exact .bind (.prngBits (by decide)) fun _ _ => .pure rfl trivial
  · exact .pure rfl trivial

theorem mutateMask_edits {pool : BitPool} {offset size : Nat}
    (hsize : 0 < size) (h : offset + size ≤ 8 * pool.bits.length) :
    Edits s₀ set (mutateMask pool offset size) (fun r => noteAction set .mask r.1)
      (pool.Rewritten offset size) := by
  refine .bind (.setTried _) fun _ _ => ?_
  refine .bind (pickMask_edits (by split <;> omega)) fun mask _ => ?_
  refine .bind (pickRegion_edits hsize) fun r hr => ?_
  refine .bind (rewriteBits_edits (by omega) hr.2 fun bits j hj hend => ?_) fun r' hedit => ?_
  · rw [BitVec.getLsbD_and, hend j hj, Bool.false_and]
  · exact .noted (hedit.widen hr.1)

omit [Platform R] in
/-- Two extents apart from each other, with different values, are exchanged. -/
theorem exchange_edits {pool : BitPool} {x y n : Nat} {a b : Word} {Q : Bool × BitPool → Prop}
    (hn : n ≤ 64) (hx : x + n ≤ 8 * pool.bits.length) (hy : y + n ≤ 8 * pool.bits.length)
    (hapart : x + n ≤ y ∨ y + n ≤ x) (hne : a ≠ b)
    (ha : ∀ j < 64, a.getLsbD j = (decide (j < n) && bitAt pool.bits (x + j)))
    (hb : ∀ j < 64, b.getLsbD j = (decide (j < n) && bitAt pool.bits (y + j)))
    (hQ : ∀ pool', pool.Exchanged pool' x y n → Q (true, pool')) :
    Edits s₀ set (do
        let pool ← attempt (writeBitsAtOffset pool x n b)
        let pool ← attempt (writeBitsAtOffset pool y n a)
        setSet .swap true
        return (true, pool)) (fun r => noteAction set .swap r.1) Q := by
  obtain ⟨pool₁, hwrite₁, hedit₁, hbits₁⟩ := writeBitsAtOffset_spec pool x n hx b
  have hlen := hedit₁.length
  obtain ⟨pool₂, hwrite₂, hedit₂, hbits₂⟩ := writeBitsAtOffset_spec pool₁ y n (by omega) a
  refine .bind (.attempt hwrite₁ rfl) ?_
  rintro _ rfl
  refine .bind (.attempt hwrite₂ rfl) ?_
  rintro _ rfl
  exact .noted (hQ pool₂ (.write hn hapart hne ha hb hedit₁ hedit₂ hbits₁ hbits₂))

/-- Blocks are halved until two fit. -/
theorem halveToFit_lt {size : Nat} (hsize : 0 < size) (fuel : Nat) : ∀ (toSwap : Nat),
    toSwap < 2 ^ fuel → 2 * halveToFit size fuel toSwap < size := by
  induction fuel with
  | zero =>
    intro toSwap h
    rw [halveToFit]
    omega
  | succ fuel ih =>
    intro toSwap h
    rw [halveToFit]
    split
    · apply ih
      rw [Nat.pow_succ] at h
      omega
    · omega

theorem halveToFit_le (size fuel : Nat) : ∀ (toSwap : Nat),
    halveToFit size fuel toSwap ≤ toSwap := by
  induction fuel with
  | zero => intro toSwap; exact Nat.le_refl _
  | succ fuel ih =>
    intro toSwap
    rw [halveToFit]
    split
    · exact Nat.le_trans (ih _) (Nat.div_le_self _ _)
    · exact Nat.le_refl _

theorem swapBlocks_edits {pool : BitPool} {offset size : Nat}
    (hsize : 0 < size) (h : offset + size ≤ 8 * pool.bits.length) :
    Edits s₀ set (swapBlocks pool offset size) (fun r => noteAction set .swap r.1)
      (pool.Rewritten offset size) := by
  refine .bind (.prngBits (by decide)) fun w hw => ?_
  have hfit := halveToFit_lt hsize 8 w.toNat (by omega)
  have hle := halveToFit_le size 8 w.toNat
  revert hfit hle
  generalize halveToFit size 8 w.toNat = toSwap
  intro hfit hle
  dsimp only
  split
  · exact .unchanged (.refl pool _ _)
  · rw [if_pos (by omega)]
    refine .bind (.prngBits (by decide)) fun wa _ => ?_
    refine .bind (.prngBits (by decide)) fun wb _ => ?_
    have ha : wa.toNat % (size - toSwap) < size - toSwap := Nat.mod_lt _ (by omega)
    have hb : wb.toNat % (size - 2 * toSwap) < size - 2 * toSwap := Nat.mod_lt _ (by omega)
    revert ha hb
    generalize wa.toNat % (size - toSwap) = posA
    generalize wb.toNat % (size - 2 * toSwap) = posB
    intro ha hb
    split
    · exact .unchanged (.refl pool _ _)
    · rename_i hoverlap
      obtain ⟨a, hreadA, hbitsA⟩ := readBitsAtOffset_spec pool (offset + posA) toSwap (by omega)
      obtain ⟨b, hreadB, hbitsB⟩ := readBitsAtOffset_spec pool (offset + posB) toSwap (by omega)
      refine .bind (.attempt hreadA rfl) ?_
      rintro _ rfl
      refine .bind (.attempt hreadB rfl) ?_
      rintro _ rfl
      split
      · rename_i hlt
        have hne : a ≠ b := fun heq => absurd (heq ▸ hlt) (by simp)
        -- the same position would give the same value
        have hpos : posA ≠ posB := by
          rintro rfl
          rw [hreadA] at hreadB
          exact hne (Except.ok.inj hreadB)
        exact exchange_edits (by omega) (by omega) (by omega) (by omega) hne hbitsA hbitsB
          fun pool' hexchanged => hexchanged.rewritten (by omega) (by omega)
      · exact .unchanged (.refl pool _ _)

omit [Platform R] in
/-- What is written is smaller than what was read. -/
theorem subtracted_lt {bits : Word} (sub : Word) (h : 0 < bits) :
    (if bits - sub % bits = bits then bits - sub % bits - 1 else bits - sub % bits) < bits := by
  have hmod := Nat.mod_lt sub.toNat (BitVec.lt_def.mp h)
  have hlt := bits.isLt
  have hsub : (bits - sub % bits).toNat = bits.toNat - sub.toNat % bits.toNat := by
    rw [BitVec.toNat_sub_of_le (BitVec.le_def.mpr (by rw [BitVec.toNat_umod]; omega)),
      BitVec.toNat_umod]
  split
  · rename_i heq
    have hpos : 0 < bits.toNat := BitVec.lt_def.mp h
    have hone : (1 : Word) ≤ bits := BitVec.le_def.mpr hpos
    rw [heq, BitVec.lt_def, BitVec.toNat_sub_of_le hone]
    exact Nat.sub_lt hpos Nat.one_pos
  · rename_i hne
    have hne' : (bits - sub % bits).toNat ≠ bits.toNat := fun heq => hne (BitVec.eq_of_toNat_eq heq)
    rw [BitVec.lt_def]
    omega

theorem mutateSub_edits {pool : BitPool} {offset size : Nat}
    (hsize : 0 < size) (h : offset + size ≤ 8 * pool.bits.length) :
    Edits s₀ set (mutateSub pool offset size) (fun r => noteAction set .sub r.1)
      (pool.Rewritten offset size) := by
  refine .bind (.setTried _) fun _ _ => ?_
  refine .bind (.prngBits (by split <;> omega)) fun w _ => ?_
  refine .bind (pickRegion_edits hsize) fun r hr => ?_
  obtain ⟨bits, hread, hw⟩ := readBitsAtOffset_spec pool (offset + r.1) r.2 (by omega)
  refine .bind (.attempt hread rfl) ?_
  rintro _ rfl
  split
  · rename_i hpos
    have hlt := subtracted_lt w hpos
    dsimp only
    revert hlt
    generalize (if bits - w % bits = bits then bits - w % bits - 1 else bits - w % bits) = nbits
    intro hlt
    obtain ⟨pool', hwrite, hedit, hbits⟩ :=
      writeBitsAtOffset_spec pool (offset + r.1) r.2 (by omega) nbits
    have hrewritten := BitPool.Rewritten.write hr.2 hw (fun j hj => ?_) hedit hbits
    · have hne : (bits != nbits) = true := bne_iff_ne.mpr fun heq => by simp [heq] at hlt
      rw [hne] at hrewritten
      refine .bind (.setSet _ _) fun _ _ => ?_
      refine .bind (.attempt hwrite rfl) ?_
      rintro _ rfl
      exact .pure rfl (hrewritten.widen hr.1)
    · have hsmall : bits.toNat < 2 ^ r.2 := by
        apply Nat.lt_pow_two_of_testBit
        intro i hi
        rw [BitVec.testBit_toNat]
        rcases Nat.lt_or_ge i 64 with hin | hout
        · rw [hw i hin, decide_eq_false (Nat.not_lt.mpr hi), Bool.false_and]
        · exact BitVec.getLsbD_of_ge _ _ hout
      have hnbits : nbits.toNat < 2 ^ j :=
        Nat.lt_of_lt_of_le (Nat.lt_trans (BitVec.lt_def.mp hlt) hsmall)
          (Nat.pow_le_pow_right (by decide) hj)
      rw [← BitVec.testBit_toNat]
      exact Nat.testBit_lt_two_pow hnbits
  · exact .unchanged (.refl pool _ _)

end

/-! ## Requests are extents of the consumed bits -/

/-- The index, when it is there, holds the offsets of the requests. -/
def BitPool.Indexed (pool : BitPool) : Prop :=
  ∀ index, pool.index = some index → index = indexFrom 0 pool.requests

omit [Platform R] in
theorem buildIndex_spec {pool pool' : BitPool} (h : buildIndex pool = some pool')
    (hindex : pool.Indexed) :
    pool' = { pool with index := some (indexFrom 0 pool.requests) } := by
  unfold buildIndex at h
  cases hi : pool.index with
  | some index =>
    rw [hi] at h
    cases h
    rw [← hindex index hi, ← hi]
  | none =>
    rw [hi] at h
    dsimp only at h
    split at h
    · exact (Option.some.inj h).symm
    · cases h

theorem length_le_sum {rs : List Nat} (h : ∀ r ∈ rs, 1 ≤ r) : rs.length ≤ rs.sum := by
  induction rs with
  | nil => exact Nat.le_refl 0
  | cons r rs ih =>
    have hr := h r List.mem_cons_self
    have hrs := ih fun r' hr' => h r' (List.mem_cons_of_mem r hr')
    rw [List.length_cons, List.sum_cons]
    omega

theorem BitPool.Inv.requestCount_bound {pool : BitPool} (inv : pool.Inv) :
    pool.requestCount ≤ 2 ^ 64 := by
  have hsum := length_le_sum fun r hr => (inv.requests_range r hr).1
  have hconsumed := inv.consumed_le_filled
  have hfilled := inv.filled_le_ceil
  have hceil := inv.ceil_le
  rw [inv.requests_sum] at hsum
  simp only [maxBits] at hceil
  exact Nat.le_trans hsum (by omega)

/-- What an edit knows about the pool it copies. -/
structure Source (orig : BitPool) : Prop where
  inv : orig.Inv
  index : orig.index = some (indexFrom 0 orig.requests)

omit [Platform R] in
/-- A request is an extent of the consumed bits, before those of later requests. -/
theorem Source.request {orig : BitPool} (ho : Source orig) {pos : Nat}
    (hpos : pos < orig.requestCount) :
    ∃ size, offsetOfPos orig pos = .ok (orig.requests.take pos).sum ∧
      requestAt orig pos = .ok size ∧ orig.requests[pos]? = some size ∧ 0 < size ∧
      (orig.requests.take pos).sum + size ≤ orig.consumed ∧
      ∀ i, pos < i → (orig.requests.take pos).sum + size ≤ (orig.requests.take i).sum := by
  refine ⟨orig.requests[pos], ?_, ?_, List.getElem?_eq_getElem hpos, ?_, ?_, fun i hi => ?_⟩
  · simp only [offsetOfPos, ho.index, getElem?_indexFrom orig.requests 0 pos hpos, Nat.zero_add]
  · simp only [requestAt, List.getElem?_eq_getElem hpos]
  · exact (ho.inv.requests_range _ (List.getElem_mem hpos)).1
  · rw [← ho.inv.requests_sum]
    exact sum_take_add_le orig.requests hpos
  · have htake : (orig.requests.take i).take pos = orig.requests.take pos := by
      rw [List.take_take, Nat.min_eq_left (Nat.le_of_lt hi)]
    have hlen : pos < (orig.requests.take i).length := by
      rw [List.length_take]
      exact Nat.lt_min.mpr ⟨hi, hpos⟩
    have hle := sum_take_add_le (orig.requests.take i) hlen
    rwa [htake, List.getElem_take] at hle

section
variable {s₀ : AutoState R} {set : AutoshrinkAction → Bool}

/-- What a swap of short requests does: nothing, or the request at `offset` exchanges its value
with one of the requests `is`. -/
def Swapped (orig pool : BitPool) (offset size : Nat) (is : List Nat) (r : Bool × BitPool) :
    Prop :=
  r = (false, pool) ∨ (r.1 = true ∧ ∃ i ∈ is, orig.requests[i]? = some size ∧
    pool.Exchanged r.2 offset (orig.requests.take i).sum size)

omit [Platform R] in
theorem swapRequests_edits {orig : BitPool} (ho : Source orig) {pool : BitPool}
    (hpool : orig.consumed ≤ 8 * pool.bits.length) {offset size : Nat} (hsize : size ≤ 64)
    (h : offset + size ≤ 8 * pool.bits.length) {bits : Word}
    (hbits : ∀ j < 64, bits.getLsbD j = (decide (j < size) && bitAt pool.bits (offset + j)))
    (is : List Nat)
    (his : ∀ i ∈ is, i < orig.requestCount ∧ offset + size ≤ (orig.requests.take i).sum) :
    Edits s₀ set (swapRequests orig pool offset size bits is)
      (fun r => noteAction set .swap r.1) (Swapped orig pool offset size is) := by
  induction is with
  | nil => exact .unchanged (.inl rfl)
  | cons i is ih =>
    have ih : Edits s₀ set (swapRequests orig pool offset size bits is)
        (fun r => noteAction set .swap r.1) (Swapped orig pool offset size (i :: is)) :=
      (ih fun j hj => his j (List.mem_cons_of_mem i hj)).mono fun r hr => hr.imp_right
        fun ⟨htrue, j, hj, hother⟩ => ⟨htrue, j, List.mem_cons_of_mem i hj, hother⟩
    obtain ⟨hi, hapart⟩ := his i List.mem_cons_self
    obtain ⟨otherSize, hoffset, hrequest, hother, -, hle, -⟩ := ho.request hi
    refine .bind (.attempt hrequest rfl) ?_
    rintro _ rfl
    split
    · rename_i hsame
      subst hsame
      obtain ⟨other, hread, hobits⟩ := readBitsAtOffset_spec pool (orig.requests.take i).sum
        otherSize (by omega)
      refine .bind (.attempt hoffset rfl) ?_
      rintro _ rfl
      refine .bind (.attempt hread rfl) ?_
      rintro _ rfl
      split
      · rename_i hlt
        have hne : bits ≠ other := fun heq => absurd (heq ▸ hlt) (by simp)
        exact exchange_edits hsize h (by omega) (.inl hapart) hne hbits hobits
          fun pool' hexchanged => .inr ⟨rfl, i, List.mem_cons_self, hother, hexchanged⟩
      · exact ih
    · exact ih

theorem mutateSwap_edits {orig : BitPool} (ho : Source orig) {pool : BitPool}
    (hpool : orig.consumed ≤ 8 * pool.bits.length) {pos offset size : Nat}
    (hsize : 0 < size) (h : offset + size ≤ 8 * pool.bits.length)
    (hafter : ∀ i, pos < i → offset + size ≤ (orig.requests.take i).sum) :
    Edits s₀ set (mutateSwap orig pool pos offset size) (fun r => noteAction set .swap r.1)
      fun r => pool.Rewritten offset size r ∨ (size ≤ 64 ∧
        Swapped orig pool offset size ((List.range orig.requestCount).drop (pos + 1)) r) := by
  refine .bind (.setTried _) fun _ _ => ?_
  rw [if_pos hsize]
  split
  · exact (swapBlocks_edits hsize h).mono fun _ hr => .inl hr
  · rename_i hshort
    obtain ⟨bits, hread, hbits⟩ := readBitsAtOffset_spec _ _ _ h
    refine .bind (.attempt hread rfl) ?_
    rintro _ rfl
    have hle : size ≤ 64 := Nat.le_of_not_lt hshort
    refine (swapRequests_edits ho hpool hle h hbits _ fun i hi => ?_).mono
      fun _ hr => .inr ⟨hle, hr⟩
    have hcount := List.mem_range.mp (List.mem_of_mem_drop hi)
    rw [List.range_eq_range', List.drop_range', List.mem_range'_1] at hi
    exact ⟨hcount, hafter i (by omega)⟩

/-- What a mutation does to the request of `size` bits at `offset`. -/
def Mutated (orig pool : BitPool) (mtype : Mutation) (pos offset size : Nat)
    (r : Bool × BitPool) : Prop :=
  pool.Rewritten offset size r ∨ (mtype = .swap ∧ size ≤ 64 ∧
    Swapped orig pool offset size ((List.range orig.requestCount).drop (pos + 1)) r)

/-- The action that a mutation is counted as. -/
def Mutation.action : Mutation → AutoshrinkAction
  | shift => .shift
  | mask => .mask
  | swap => .swap
  | sub => .sub

/-- The `switch` of `choose_and_mutate_request`. -/
def mutateAs (mtype : Mutation) (orig pool : BitPool) (pos offset size : Nat) :
    Auto R (Bool × BitPool) :=
  match mtype with
  | .shift => mutateShift pool offset size
  | .mask => mutateMask pool offset size
  | .swap => mutateSwap orig pool pos offset size
  | .sub => mutateSub pool offset size

/-- **What one mutation does to its request**, and what it notes. -/
theorem mutate_edits {orig : BitPool} (ho : Source orig) {pool : BitPool}
    (hpool : orig.consumed ≤ 8 * pool.bits.length) {pos offset size : Nat} (hsize : 0 < size)
    (h : offset + size ≤ 8 * pool.bits.length)
    (hafter : ∀ i, pos < i → offset + size ≤ (orig.requests.take i).sum) (mtype : Mutation) :
    Edits s₀ set (mutateAs mtype orig pool pos offset size)
      (fun r => noteAction set mtype.action r.1) (Mutated orig pool mtype pos offset size) := by
  cases mtype with
  | shift => exact (mutateShift_edits hsize h).mono fun _ hr => .inl hr
  | mask => exact (mutateMask_edits hsize h).mono fun _ hr => .inl hr
  | swap =>
    exact (mutateSwap_edits ho hpool hsize h hafter).mono fun _ hr =>
      hr.imp_right fun hswap => ⟨rfl, hswap⟩
  | sub => exact (mutateSub_edits hsize h).mono fun _ hr => .inl hr

omit [Platform R] in
theorem Mutated.edited {orig pool : BitPool} {mtype : Mutation} {pos offset size : Nat}
    {r : Bool × BitPool} (h : Mutated orig pool mtype pos offset size r) : pool.Edited r.2 := by
  rcases h with hr | ⟨-, -, rfl | ⟨-, i, -, -, hr⟩⟩
  · exact hr.edited
  · exact .refl pool
  · exact hr.edited

end

theorem chooseAndMutateRequest_safe (s₀ : AutoState R) (fuel : Nat) {orig : BitPool}
    (ho : Source orig) {pool : BitPool} (hpool : orig.consumed ≤ 8 * pool.bits.length) :
    Safe s₀ (chooseAndMutateRequest fuel orig pool) fun r => pool.Edited r.2 := by
  refine .bind (getWeightedMutation_safe s₀ fuel) fun mtype _ => ?_
  dsimp only
  split
  · exact .pure (.refl pool)
  · rename_i hne
    have hlog := raiseTo_le ho.inv.requestCount_bound 64 0 (by decide)
    refine .bind (.prngBits hlog) fun w _ => ?_
    obtain ⟨size, hoffset, hrequest, -, hsize, hle, hafter⟩ :=
      ho.request (Nat.mod_lt w.toNat (Nat.pos_of_ne_zero hne))
    refine .bind (.attempt hoffset rfl) ?_
    rintro _ rfl
    refine .bind (.attempt hrequest rfl) ?_
    rintro _ rfl
    exact (Edits.safe fun _ => mutate_edits ho hpool hsize (by omega) hafter mtype).mono
      fun _ hr => hr.edited

omit [Platform R] in
theorem startModel_safe {s₀ : AutoState R} : Safe s₀ startModel fun _ => True := by
  refine .modifyModel fun model h => ?_
  dsimp only
  split
  · simp only [initModel, h, Option.isSome_none, Bool.false_eq_true, if_false]
    rfl
  · exact h

/-! ## The copy -/

/-- A copy that no callback has read yet, of a pool with `filled` bits. -/
structure Fresh (filled : Nat) (copy : BitPool) : Prop where
  bytes : 8 * copy.bits.length = copy.bitsCeil
  ceil_aligned : copy.bitsCeil % 64 = 0
  ceil_le : copy.bitsCeil ≤ maxBits
  room : filled ≤ copy.bitsCeil
  filled_le : copy.bitsFilled ≤ filled
  consumed : copy.consumed = 0
  requests : copy.requests = []
  requestCeil_pos : 0 < copy.requestCeil
  index : copy.index = none

omit [Platform R] in
theorem Fresh.edited {filled : Nat} {copy copy' : BitPool} (h : Fresh filled copy)
    (hedit : copy.Edited copy') : Fresh filled copy' := by
  have hlen := hedit.length
  rw [hedit.rest]
  exact ⟨by rw [hlen]; exact h.bytes, h.ceil_aligned, h.ceil_le, h.room, h.filled_le, h.consumed,
    h.requests, h.requestCeil_pos, h.index⟩

theorem mutateTimes_safe (s₀ : AutoState R) (fuel : Nat) {orig : BitPool} (ho : Source orig)
    (changeCount tries : Nat) : ∀ (changed : Nat) {pool : BitPool},
    orig.consumed ≤ 8 * pool.bits.length →
    Safe s₀ (mutateTimes fuel orig changeCount tries changed pool) pool.Edited := by
  induction tries with
  | zero => intro changed pool _; exact .pure (.refl pool)
  | succ tries ih =>
    intro changed pool hpool
    refine .bind (chooseAndMutateRequest_safe s₀ fuel ho hpool) fun r hedit => ?_
    have hlen := hedit.length
    have hrest : ∀ changed', Safe s₀ (mutateTimes fuel orig changeCount tries changed' r.2)
        pool.Edited := fun changed' => (ih changed' (by omega)).mono fun _ h => hedit.trans h
    dsimp only
    split
    · split
      · exact .pure hedit
      · exact hrest _
    · exact hrest _

omit [Platform R] in
theorem copyBytes_spec (dst src : List Byte) (bytes : Nat) (hdst : bytes ≤ dst.length)
    (hsrc : bytes ≤ src.length) :
    ∃ out, copyBytes dst src bytes = .ok out ∧ out.length = dst.length ∧
      (∀ i < 8 * bytes, bitAt out i = bitAt src i) := by
  refine ⟨_, if_pos ⟨hdst, hsrc⟩, ?_, fun i hi => ?_⟩
  · rw [List.length_append, List.length_take, List.length_drop]
    omega
  · have hlt : i / 8 < bytes := by omega
    simp only [bitAt, List.getD_eq_getElem?_getD]
    rw [List.getElem?_append_left (by rw [List.length_take]; omega), List.getElem?_take_of_lt hlt]

/-- The copy after `mutate_bit_pool`: half of the bits that were not consumed are given up. -/
theorem mutateBitPool_safe (s₀ : AutoState R) (fuel : Nat) {orig : BitPool} (ho : Source orig)
    {copy : BitPool} (hcopy : Fresh orig.bitsFilled copy) :
    Safe s₀ (mutateBitPool fuel orig copy) fun copy' => Fresh orig.bitsFilled copy' ∧
      copy'.bitsFilled = orig.bitsFilled ∧ copy'.limit =
        min (orig.consumed + (orig.bitsFilled - orig.consumed) / 2) copy.limit := by
  have haligned := ho.inv.filled_aligned
  have hbytes := ho.inv.bytes
  have hceil := ho.inv.filled_le_ceil
  have hconsumed := ho.inv.consumed_le_filled
  have hroom := hcopy.room
  have hcbytes := hcopy.bytes
  have hcount : byteCount orig.bitsFilled * 8 = orig.bitsFilled := by
    rw [byteCount_eq]
    omega
  obtain ⟨bits, hcp, hlen, -⟩ := copyBytes_spec copy.bits orig.bits
    (byteCount orig.bitsFilled) (by omega) (by omega)
  refine .bind (.attempt hcp rfl) ?_
  rintro _ rfl
  refine .bind .get fun s hs => ?_
  refine .bind (.require (by rw [hs.noPool]; rfl)) fun _ _ => ?_
  refine .bind (.prngBits (raiseTo_le ho.inv.requestCount_bound 64 5 (by decide))) fun w _ => ?_
  have hfresh : Fresh orig.bitsFilled
      { copy with bits := bits, bitsFilled := orig.bitsFilled } :=
    ⟨by rw [hlen]; exact hcopy.bytes, hcopy.ceil_aligned, hcopy.ceil_le, hcopy.room,
      Nat.le_refl _, hcopy.consumed, hcopy.requests, hcopy.requestCeil_pos, hcopy.index⟩
  refine .bind (mutateTimes_safe s₀ fuel ho _ _ _ (by dsimp only; omega)) fun copy' hedit => ?_
  have hfresh' := hfresh.edited hedit
  have hlimit : copy'.limit = copy.limit := by rw [hedit.rest]
  have hfilled : copy'.bitsFilled = orig.bitsFilled := by rw [hedit.rest]
  refine .pure ⟨⟨hfresh'.bytes, hfresh'.ceil_aligned, hfresh'.ceil_le, hfresh'.room,
    hfresh'.filled_le, hfresh'.consumed, hfresh'.requests, hfresh'.requestCeil_pos,
    hfresh'.index⟩, hfilled, ?_⟩
  dsimp only
  rw [sizeSub, if_pos hconsumed, hlimit]
  split <;> omega

/-! ## Dropping -/

theorem dropSubset_safe (s₀ : AutoState R) (reqSize : Nat) :
    Safe s₀ (dropSubset reqSize) fun _ => True := by
  unfold dropSubset
  split
  · exact .bind (.prngBits (by decide)) fun _ _ =>
      .bind (.prngBits (by decide)) fun _ _ => .pure trivial
  · exact .pure trivial

theorem dropChosen_safe (s₀ : AutoState R) {dropBits : Nat} (h : dropBits ≤ 64)
    (dropThreshold toDrop ri : Nat) :
    Safe s₀ (dropChosen dropBits dropThreshold toDrop ri) fun _ => True := by
  unfold dropChosen
  split
  · exact .pure trivial
  · exact .bind (.prngBits h) fun _ _ => .pure trivial

/-- What the loop over the requests leaves: no more bits than it went over, and all of them
when no request was dropped. -/
structure Kept (orig : List Byte) (cap srcOffset total dropCount : Nat) (out : List Bool)
    (r : Nat × DropState) : Prop where
  holds : ∃ out', r.2.Holds cap (srcOffset + total) out' ∧ out'.length ≤ out.length + total ∧
    (r.1 = dropCount → out' = out ++ (List.range' srcOffset total).map (bitAt orig))
  count : dropCount ≤ r.1

theorem dropRequests_safe (s₀ : AutoState R) {dropBits : Nat} (h : dropBits ≤ 64)
    (dropThreshold toDrop cap : Nat) (orig : List Byte) (requests : List Nat) :
    ∀ (ri dropCount srcOffset : Nat) (out : List Bool) (s : DropState),
      s.Holds cap srcOffset out → srcOffset + requests.sum ≤ 8 * orig.length →
      out.length + requests.sum ≤ 8 * cap →
      Safe s₀ (dropRequests dropBits dropThreshold toDrop orig ri requests dropCount s)
        (Kept orig cap srcOffset requests.sum dropCount out) := by
  induction requests with
  | nil =>
    intro ri dropCount srcOffset out s hs _ _
    exact .pure ⟨⟨out, hs, by simp, fun _ => by simp⟩, Nat.le_refl _⟩
  | cons reqSize rest ih =>
    intro ri dropCount srcOffset out s hs hsrc hcap
    rw [List.sum_cons] at hsrc hcap
    -- what is kept of this request, and then the loop goes on
    have copy : ∀ kept, ∃ s', copyKept orig kept (List.range reqSize) s = .ok s' ∧
        s'.Holds cap (srcOffset + reqSize)
          (out ++ keptBits orig kept srcOffset (List.range reqSize)) ∧
        (keptBits orig kept srcOffset (List.range reqSize)).length ≤ reqSize := by
      intro kept
      have hle := length_keptBits_le orig kept (List.range reqSize) srcOffset
      rw [List.length_range] at hle
      obtain ⟨s', hrun, hs'⟩ := copyKept_spec orig kept (List.range reqSize) hs
        (by rw [List.length_range]; omega) (by omega)
      rw [List.length_range] at hs'
      exact ⟨s', hrun, hs', hle⟩
    refine .bind (dropChosen_safe s₀ h _ _ _) fun chosen _ => ?_
    cases chosen with
    | true =>
      refine .bind (dropSubset_safe s₀ reqSize) fun kept _ => ?_
      obtain ⟨s', hrun, hs', hle⟩ := copy kept
      refine .bind (.attempt hrun rfl) ?_
      rintro _ rfl
      refine (ih (ri + 1) (dropCount + 1) _ _ _ hs' (by omega)
        (by rw [List.length_append]; omega)).mono fun r hr => ?_
      obtain ⟨out', hholds, hlen, -⟩ := hr.holds
      have hcount := hr.count
      rw [List.length_append] at hlen
      rw [List.sum_cons]
      refine ⟨⟨out', by rwa [← Nat.add_assoc], by omega, fun heq => ?_⟩, by omega⟩
      omega
    | false =>
      obtain ⟨s', hrun, hs', hle⟩ := copy fun _ => true
      refine .bind (.attempt hrun rfl) ?_
      rintro _ rfl
      refine (ih (ri + 1) dropCount _ _ _ hs' (by omega)
        (by rw [List.length_append]; omega)).mono fun r hr => ?_
      obtain ⟨out', hholds, hlen, hall⟩ := hr.holds
      rw [List.length_append] at hlen
      rw [List.sum_cons]
      refine ⟨⟨out', by rwa [← Nat.add_assoc], by omega, fun heq => ?_⟩, hr.count⟩
      rw [hall heq, keptBits_all, List.length_range, List.append_assoc, ← List.map_append,
        List.range'_append_1]

/-- The copy after `drop_from_bit_pool`, and what it holds when no request was dropped. -/
theorem dropFromBitPool_safe {s₀ : AutoState R} (hbits : getDef s₀.env.dropBits defDropBits ≤ 64)
    {orig : BitPool} (ho : Source orig) {copy : BitPool} (hcopy : Fresh orig.bitsFilled copy)
    (hzero : ∀ i, bitAt copy.bits i = false) :
    Safe s₀ (dropFromBitPool orig copy) fun r => Fresh orig.bitsFilled r.1 ∧
      r.1.limit = copy.limit ∧
      (r.2 = 0 → r.1.bitsFilled = orig.consumed ∧
        ∀ i, bitAt r.1.bits i = (decide (i < orig.consumed) && bitAt orig.bits i)) := by
  have hconsumed := ho.inv.consumed_le_filled
  have hceil := ho.inv.filled_le_ceil
  have hbytes := ho.inv.bytes
  have hsum := ho.inv.requests_sum
  have hroom := hcopy.room
  have hcbytes := hcopy.bytes
  have hstart : (⟨⟨0, 1⟩, ⟨0, 1⟩, 0, copy.bits⟩ : DropState).Holds copy.bits.length 0 [] :=
    ⟨Cursor.ofOffset_zero.symm, Cursor.ofOffset_zero.symm, rfl, rfl, fun i => by simp [hzero]⟩
  refine .bind .get fun s hs => ?_
  have hdrop : getDef s.env.dropBits defDropBits ≤ 64 := by
    rw [hs.env]
    exact hbits
  refine .bind (.prngBits (by decide)) fun w _ => ?_
  refine .bind (dropRequests_safe s₀ hdrop _ _ _ _ _ _ _ _ _ _ hstart (by omega)
    (by rw [List.length_nil]; omega)) fun r hr => .pure ?_
  obtain ⟨out, hholds, hlen, hall⟩ := hr.holds
  have hcount := hholds.count
  have hblen := hholds.length
  rw [List.length_nil, hsum, Nat.zero_add] at hlen
  refine ⟨⟨?_, hcopy.ceil_aligned, hcopy.ceil_le, hcopy.room, ?_, hcopy.consumed, hcopy.requests,
    hcopy.requestCeil_pos, hcopy.index⟩, rfl, fun hnone => ?_⟩
  · rw [hblen]
    exact hcopy.bytes
  · dsimp only
    omega
  · have hout := hall hnone
    rw [List.nil_append, hsum] at hout
    refine ⟨?_, fun i => ?_⟩
    · rw [hcount, hout, List.length_map, List.length_range']
    · rw [hholds.bits, hout]
      by_cases hi : i < orig.consumed
      · simp [hi]
      · rw [decide_eq_false hi, Bool.false_and, List.getD_eq_getElem?_getD,
          List.getElem?_eq_none (by simpa using hi)]
        rfl

/-! ## Truncation -/

theorem changeCopy_safe {s₀ : AutoState R} (hbits : getDef s₀.env.dropBits defDropBits ≤ 64)
    (fuel : Nat) {orig : BitPool} (ho : Source orig) {copy : BitPool}
    (hcopy : Fresh orig.bitsFilled copy) (hzero : ∀ i, bitAt copy.bits i = false) :
    Safe s₀ (changeCopy fuel orig copy) fun copy' => Fresh orig.bitsFilled copy' := by
  have hdrop : Safe s₀ (shouldDrop orig.requestCount : Auto R Bool) fun _ => True := by
    refine .bind .get fun s hs => ?_
    simp only [hs.unscheduled]
    exact .bind (.prngBits (by decide)) fun _ _ => .pure trivial
  refine .bind hdrop fun b _ => ?_
  cases b with
  | true =>
    refine .bind (.setSet _ _) fun _ _ => ?_
    exact .bind (dropFromBitPool_safe hbits ho hcopy hzero) fun r hr => .pure hr.1
  | false => exact (mutateBitPool_safe s₀ fuel ho hcopy).mono fun _ h => h.1

omit [Platform R] in
/-- A truncated copy satisfies the invariant of pools, as one that is only read from. -/
theorem Fresh.truncate {filled : Nat} (haligned : filled % 8 = 0) {copy : BitPool}
    (h : Fresh filled copy) : ∃ m, truncateTrailingZeroBytes copy =
        .ok { copy with bitsFilled := 8 * m, limit := min copy.limit (8 * m) } ∧
      Fresh filled { copy with bitsFilled := 8 * m, limit := min copy.limit (8 * m) } ∧
      (∀ i, 8 * m ≤ i → i < copy.bitsFilled → bitAt copy.bits i = false) := by
  have hbytes := h.bytes
  have hroom := h.room
  have hle := h.filled_le
  have hcount := byteCount_eq copy.bitsFilled
  obtain ⟨m, hrun, hm, hzero⟩ := truncate_spec copy (by omega)
  refine ⟨m, hrun, ⟨h.bytes, h.ceil_aligned, h.ceil_le, h.room, ?_, h.consumed, h.requests,
    h.requestCeil_pos, h.index⟩, fun i hi hlt => hzero i hi (by omega)⟩
  dsimp only
  omega

omit [Platform R] in
theorem Fresh.inv {filled : Nat} {copy : BitPool} (h : Fresh filled copy)
    (haligned : copy.bitsFilled % 8 = 0) (hlimit : copy.limit ≤ copy.bitsFilled) :
    (copy.setShrinking true).Inv where
  bytes := h.bytes
  ceil_aligned := h.ceil_aligned
  ceil_le := h.ceil_le
  filled_le_ceil := Nat.le_trans h.filled_le h.room
  filled_aligned := haligned
  consumed_le_filled := Nat.le_trans (Nat.le_of_eq h.consumed) (Nat.zero_le _)
  consumed_le_limit := Nat.le_trans (Nat.le_of_eq h.consumed) (Nat.zero_le _)
  requests_sum := by
    show copy.requests.sum = copy.consumed
    rw [h.requests, h.consumed]
    rfl
  requests_range := by
    intro r hr
    rw [show (copy.setShrinking true).requests = [] from h.requests] at hr
    cases hr
  requestCount_le := by
    show copy.requests.length ≤ _
    rw [h.requests]
    exact Nat.zero_le _
  requestCeil_pos := h.requestCeil_pos
  shrinking := fun _ => hlimit
  filling := fun hf => by cases hf

omit [Platform R] in
theorem endCopy_safe {s₀ : AutoState R} (htrailing : s₀.env.leaveTrailingZeroes = false)
    {filled : Nat} (haligned : filled % 8 = 0) {copy : BitPool} (hcopy : Fresh filled copy) :
    Safe s₀ (endCopy copy) fun copy' => Fresh filled copy' ∧
      copy'.bitsFilled % 8 = 0 ∧ copy'.limit ≤ copy'.bitsFilled := by
  obtain ⟨m, hrun, hfresh, -⟩ := hcopy.truncate haligned
  refine .bind .get fun s hs => ?_
  have htr : s.env.leaveTrailingZeroes = false := by
    rw [hs.env]
    exact htrailing
  simp only [htr, Bool.false_eq_true, if_false]
  exact .attempt hrun ⟨hfresh, Nat.mul_mod_right 8 m, Nat.min_le_right _ _⟩

end

end Theft
