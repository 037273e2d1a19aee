import Theft.DropSelection

/-!
# When dropping makes progress

One request is always dropped, unless the first draw is `DO_NOT_DROP`. A short request is then
lost as a whole. A long one loses a region whose end is a sum in `uint32_t`: when the sum wraps,
the end lies before the start and the whole request is kept. So a copy is shorter than what was
consumed just when a dropped request is short or its region does not wrap
(`drop_progress_iff`).
-/

namespace Theft

open PackedBits Exec

/-- At least one bit is lost: there is a region, and its end did not wrap. -/
def Fate.Loses : Fate → Prop
  | kept => False
  | dropped => True
  | thinned dropOffset dropSize => dropOffset + dropSize < 2 ^ 32

theorem exists_not_keeps {n : Nat} {fate : Fate} (hfit : fate.Fits n) (hpos : 1 ≤ n)
    (hmax : n < 2 ^ 32) : (∃ bi < n, fate.keeps bi = false) ↔ fate.Loses := by
  cases fate with
  | kept =>
    constructor
    · rintro ⟨bi, -, hbi⟩
      cases hbi
    · exact False.elim
  | dropped => exact ⟨fun _ => trivial, fun _ => ⟨0, hpos, rfl⟩⟩
  | thinned dropOffset dropSize =>
    obtain ⟨-, hoffset, hsize⟩ := hfit
    simp only [Fate.keeps, Fate.Loses, Bool.or_eq_false_iff, decide_eq_false_iff_not]
    constructor
    · rintro ⟨bi, hbi, hstart, hend⟩
      -- past the wrap the end would lie before the start
      omega
    · intro hsum
      refine ⟨dropOffset, hoffset, Nat.lt_irrefl _, ?_⟩
      rw [Nat.mod_eq_of_lt hsum]
      omega

theorem length_survivors_lt_iff (bits : Nat → Bool) (offset : Nat) {n : Nat} {fate : Fate}
    (hfit : fate.Fits n) (hpos : 1 ≤ n) (hmax : n < 2 ^ 32) :
    (survivors bits offset n fate).length < n ↔ fate.Loses := by
  rw [← exists_not_keeps hfit hpos hmax, survivors, List.length_map]
  have hlt : ((List.range n).filter fate.keeps).length < (List.range n).length ↔ _ :=
    List.length_filter_lt_length_iff_exists
  rw [List.length_range] at hlt
  rw [hlt]
  simp

theorem length_selected_le (bits : Nat → Bool) {requests : List Nat} {fates : List Fate}
    (h : List.Forall₂ Fate.Fits requests fates) :
    ∀ offset, (selected bits offset requests fates).length ≤ requests.sum := by
  induction h with
  | nil => intro offset; exact Nat.le_refl 0
  | @cons n fate rest fates _ _ ih =>
    intro offset
    have hle := length_survivors_le bits offset n fate
    have ih := ih (offset + n)
    rw [selected, List.length_append, List.sum_cons]
    omega

/-- Bits are missing just when one of the requests lost some. -/
theorem length_selected_lt_iff (bits : Nat → Bool) {requests : List Nat} {fates : List Fate}
    (h : List.Forall₂ Fate.Fits requests fates) :
    ∀ offset, (∀ r ∈ requests, 1 ≤ r ∧ r < 2 ^ 32) →
      ((selected bits offset requests fates).length < requests.sum ↔
        ∃ fate ∈ fates, fate.Loses) := by
  induction h with
  | nil => intro offset _; simp [selected]
  | @cons n fate rest fates hfit hrest ih =>
    intro offset hrange
    obtain ⟨hpos, hmax⟩ := hrange n List.mem_cons_self
    have hhead := length_survivors_lt_iff bits offset hfit hpos hmax
    have htail := ih (offset + n) fun r hr => hrange r (List.mem_cons_of_mem n hr)
    have hle := length_survivors_le bits offset n fate
    have hrestle := length_selected_le bits hrest (offset + n)
    rw [selected, List.length_append, List.sum_cons, List.exists_mem_cons_iff, ← hhead, ← htail]
    omega

/-! ## The copy -/

section
variable {R : Type} [Platform R]

theorem dropFromBitPool_shorter {s : AutoState R} (hprng : s.prng.Inv)
    (hpool : s.prng.bitPool = none) (hbits : getDef s.env.dropBits defDropBits ≤ 64)
    {orig : BitPool} (inv : orig.Inv) {copy : BitPool} (hcopy : Fresh orig.bitsFilled copy)
    (hzero : ∀ i, bitAt copy.bits i = false) :
    ∃ copy' dropCount s', dropFromBitPool orig copy s = .ok (copy', dropCount) s' ∧
      copy'.bitsFilled ≤ orig.consumed ∧ (copy'.bitsFilled < orig.consumed ↔
        ∃ fate ∈ fates s.env orig.requests s.prng.stream, fate.Loses) := by
  have hle : orig.consumed ≤ 8 * orig.bits.length := by
    have hfilled := inv.consumed_le_filled
    have hceil := inv.filled_le_ceil
    rw [inv.bytes]
    omega
  obtain ⟨copy', dropCount, s', hcount, -, -, -, hrun⟩ :=
    dropFromBitPool_run hprng hpool hbits inv hcopy hzero rfl
  have hfit := fatesFrom_fit (getDef s.env.dropBits defDropBits)
    (getDef s.env.dropThreshold defDropThreshold)
    (forcedDrop orig.requests.length s.prng.stream) orig.requests 0 (later 32 s.prng.stream)
  refine ⟨copy', dropCount, s', hrun orig.bits hle fun _ _ => rfl, ?_, ?_⟩
  · rw [hcount, ← inv.requests_sum]
    exact length_selected_le _ hfit 0
  · rw [hcount, ← inv.requests_sum]
    exact length_selected_lt_iff _ hfit 0 inv.requests_range

/-- **When dropping makes progress**: when a request that is dropped has at most 64 bits, or the
region that it loses does not wrap in `uint32_t`. -/
theorem drop_progress_iff {s : AutoState R} (hprng : s.prng.Inv)
    (hpool : s.prng.bitPool = none) (hbits : getDef s.env.dropBits defDropBits ≤ 64)
    {orig : BitPool} (inv : orig.Inv) {copy : BitPool} (hcopy : Fresh orig.bitsFilled copy)
    (hzero : ∀ i, bitAt copy.bits i = false) :
    ∃ copy' dropCount s', dropFromBitPool orig copy s = .ok (copy', dropCount) s' ∧
      (copy'.bitsFilled < orig.consumed ↔
        ∃ fate ∈ fates s.env orig.requests s.prng.stream, fate.Loses) := by
  obtain ⟨copy', dropCount, s', hrun, -, hiff⟩ :=
    dropFromBitPool_shorter hprng hpool hbits inv hcopy hzero
  exact ⟨copy', dropCount, s', hrun, hiff⟩

end

theorem drop_progress_mixed : ∃ copy copy' dropCount s',
    allocBitPool 2 128 defPoolLimit 16 = some copy ∧
    dropFromBitPool mixedPool copy (freshAuto 1) = .ok (copy', dropCount) s' ∧
    (copy'.bitsFilled < 74 ↔
      ∃ fate ∈ fates (freshAuto 1).env [3, 70, 1] (freshAuto 1).prng.stream, fate.Loses) := by
  obtain ⟨copy, hcopy⟩ : ∃ copy, allocBitPool 2 128 defPoolLimit 16 = some copy := ⟨_, rfl⟩
  obtain ⟨hfresh, hzero⟩ := allocBitPool_fresh mixedPool_inv hcopy
  obtain ⟨copy', dropCount, s', hrun, hiff⟩ :=
    drop_progress_iff (freshAuto_ready 1).prng rfl (by decide) mixedPool_inv
      hfresh hzero
  exact ⟨copy, copy', dropCount, s', hcopy, hrun, hiff⟩

/-! ## A request that is dropped and kept -/

/-- A pool of `size` bits, all but the last of which were handed out at once. -/
def onePool (size : Nat) : BitPool where
  id := 1
  bits := List.replicate (size / 8) 0
  shrinking := false
  bitsFilled := size
  bitsCeil := size
  limit := defPoolLimit
  consumed := size - 1
  requests := [size - 1]
  requestCeil := 16
  generation := 0
  index := none

theorem onePool_inv {size : Nat} (haligned : size % 64 = 0) (hpos : 0 < size)
    (hmax : size ≤ 2 ^ 32) : (onePool size).Inv where
  bytes := by
    simp only [onePool, List.length_replicate]
    omega
  ceil_aligned := haligned
  ceil_le := by
    simp only [onePool, maxBits]
    omega
  filled_le_ceil := Nat.le_refl _
  filled_aligned := by
    simp only [onePool]
    omega
  consumed_le_filled := Nat.sub_le size 1
  consumed_le_limit := by
    simp only [onePool, defPoolLimit]
    omega
  requests_sum := by simp [onePool]
  requests_range := by
    simp only [onePool, List.mem_singleton]
    omega
  requestCount_le := (by decide : 1 ≤ 16)
  requestCeil_pos := by simp [onePool]
  shrinking := nofun
  filling := fun _ => haligned

/-- The draws of the step: the forced request, and the start and the length of the region. -/
def threeDraws : Auto Rng (Nat × Nat × Nat) := do
  let toDrop ← prngBits 32
  let dropOffset ← prngBits 32
  let dropSize ← prngBits 32
  return (toDrop.toNat, dropOffset.toNat, dropSize.toNat)

theorem threeDraws_run : ∃ s, threeDraws (freshAuto 3) =
    .ok (2356345771, 2399881651, 1895602663) s := by
  have hrun : passes (fun r _ => decide (r = (2356345771, 2399881651, 1895602663)))
      (threeDraws (freshAuto 3)) = true := by decide +kernel
  obtain ⟨r, s, heq, hr⟩ := of_passes hrun
  exact ⟨s, by rw [heq, of_decide_eq_true hr]⟩

theorem drawn_fresh : ∃ S : Nat → Bool, S = (freshAuto 3).prng.stream ∧
    drawn S 32 = 2356345771 ∧ drawn (later 32 S) 32 = 2399881651 ∧
    drawn (later 32 (later 32 S)) 32 = 1895602663 := by
  have hstart : Drawing (freshAuto 3) (freshAuto 3).prng.stream (freshAuto 3) :=
    ⟨(freshAuto_ready 3).prng, rfl, rfl, rfl, rfl⟩
  obtain ⟨s₁, hrun₁, hs₁⟩ := prngBits_run hstart (by decide : 32 ≤ 64)
  obtain ⟨s₂, hrun₂, hs₂⟩ := prngBits_run hs₁ (by decide : 32 ≤ 64)
  obtain ⟨s₃, hrun₃, -⟩ := prngBits_run hs₂ (by decide : 32 ≤ 64)
  obtain ⟨s, hrun⟩ := threeDraws_run
  rw [threeDraws, bind_apply, hrun₁] at hrun
  dsimp only at hrun
  rw [bind_apply, hrun₂] at hrun
  dsimp only at hrun
  rw [bind_apply, hrun₃] at hrun
  simp only [pure_apply, EStateM.Result.ok.injEq, Prod.mk.injEq] at hrun
  exact ⟨_, rfl, hrun.1.1, hrun.1.2.1, hrun.1.2.2⟩

/-- A request of `2^32 - 1` bits is dropped and all of it is kept. -/
theorem drop_progress_fails : ∃ copy copy' dropCount s',
    (onePool (2 ^ 32)).Inv ∧ (onePool (2 ^ 32)).requests = [2 ^ 32 - 1] ∧
    drawn (freshAuto 3).prng.stream 32 ≠ doNotDrop ∧
    allocBitPool 2 (2 ^ 32) defPoolLimit 16 = some copy ∧
    dropFromBitPool (onePool (2 ^ 32)) copy (freshAuto 3) = .ok (copy', dropCount) s' ∧
    copy'.bitsFilled = 2 ^ 32 - 1 ∧ ¬ copy'.bitsFilled < (onePool (2 ^ 32)).consumed := by
  have inv : (onePool (2 ^ 32)).Inv := onePool_inv (by decide) (by decide) (Nat.le_refl _)
  obtain ⟨S, hS, htoDrop, hoffset, hsize⟩ := drawn_fresh
  have hfates : fates (freshAuto 3).env [2 ^ 32 - 1] S = [.thinned 2399881651 1895602663] := by
    have hforced : forcedDrop 1 S = 0 := by
      rw [forcedDrop, htoDrop]
      decide
    simp [fates, fatesFrom, fateOf, dropDecision, lossOf, hforced, hoffset, hsize]
  have hmarker : drawn (freshAuto 3).prng.stream 32 ≠ doNotDrop := by
    rw [← hS, htoDrop]
    decide
  obtain ⟨copy, hcopy⟩ : ∃ copy, allocBitPool 2 (2 ^ 32) defPoolLimit 16 = some copy :=
    Option.ne_none_iff_exists'.mp (allocBitPool_copy inv 2 defPoolLimit 16)
  obtain ⟨hfresh, hzero⟩ := allocBitPool_fresh inv hcopy
  obtain ⟨copy', dropCount, s', hrun, hle, hiff⟩ :=
    dropFromBitPool_shorter (freshAuto_ready 3).prng rfl (by decide) inv hfresh hzero
  have hnot : ¬ copy'.bitsFilled < (onePool (2 ^ 32)).consumed := by
    intro hlt
    obtain ⟨fate, hmem, hloses⟩ := hiff.mp hlt
    rw [← hS] at hmem
    have hmem : fate ∈ fates (freshAuto 3).env [2 ^ 32 - 1] S := hmem
    rw [hfates, List.mem_singleton] at hmem
    subst hmem
    exact absurd hloses (by decide : ¬ 2399881651 + 1895602663 < 2 ^ 32)
  exact ⟨copy, copy', dropCount, s', inv, rfl, hmarker, hcopy, hrun,
    Nat.le_antisymm hle (Nat.le_of_not_lt hnot), hnot⟩

end Theft
