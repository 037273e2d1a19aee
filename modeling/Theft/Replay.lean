import Theft.PoolGenerations

/-!
# Replaying an unchanged pool

A copy that no edit changed is still a different pool: the bits that were not consumed are
dropped or halved, the zeroes at its end are cut, and its limit moves. `replay_unchanged`:
the callback cannot tell, because what was cut reads as zero.
-/

namespace Theft

open PackedBits Exec

section
variable {R : Type} [Platform R] {β : Type}

/-- The pools a callback was last run on, with what it returned: the pool of a new instance,
or of an instance shrunk from one of any generation. -/
inductive Produced (R : Type) [Platform R] (alloc : Gen (AllocRes × β)) :
    AllocRes × β → BitPool → Prop where
  | alloc {s s' : AutoState R} {ares res pool} :
      s.Ready → autoshrinkAlloc alloc s = .ok (ares, some res) s' →
      s'.env.bitPool = some pool → Produced R alloc (ares, res) pool
  | shrink {s s' : AutoState R} {fuel tactic sres res orig pool} :
      Generation R orig → s.Ready → s.env.bitPool = some orig →
      autoshrinkShrink fuel alloc tactic s = .ok (sres, some res, some pool) s' →
      Produced R alloc (.ok, res) pool
  | keep {γ : Type} {s s' : AutoState R} {alloc' : Gen (AllocRes × γ)} {fuel tactic r res orig pool} :
      Produced R alloc res orig → s.Ready → s.env.bitPool = some orig → alloc'.Sized →
      autoshrinkShrink fuel alloc' tactic s = .ok r s' → s'.env.bitPool = some pool →
      Produced R alloc res pool

theorem Produced.played {alloc : Gen (AllocRes × β)} (hz : alloc.Zeroed) {res : AllocRes × β}
    {pool : BitPool} (h : Produced R alloc res pool) : pool.Valid ∧ Played alloc res pool := by
  induction h with
  | alloc hs hrun hpool =>
    have hspec := autoshrinkAlloc_spec hs hz.sized
    rw [hrun] at hspec
    obtain ⟨-, pool', hpool', hvalid, -, -, hplayed⟩ := hspec
    rw [hpool] at hpool'
    cases hpool'
    exact ⟨hvalid, hplayed hz⟩
  | shrink hgen hs horig hrun =>
    cases (autoshrinkShrink_returned hs horig hgen.valid hz.sized hrun).2 with
    | shrunk hvalid _ _ _ hplayed => exact ⟨hvalid, hplayed hz⟩
  | keep _ hs horig hsized hrun hpool ih =>
    obtain ⟨pool', hpool', hvalid, hsame⟩ :=
      (autoshrinkShrink_returned hs horig ih.1 hsized hrun).1.pool
    rw [hpool] at hpool'
    cases hpool'
    refine ⟨hvalid, ?_⟩
    rw [hsame]
    exact ⟨ih.2.result, ih.2.consumed⟩

/-- A truncated copy with the consumed bits of a pool, under a limit that is not larger, gives
the callback the same bits. -/
theorem Played.eval_truncated {α : Type} {alloc : Gen α} {res : α} {orig copy : BitPool}
    (hplayed : Played alloc res orig) (rng : R) {m : Nat}
    (hbits : ∀ i < orig.consumed, bitAt copy.bits i = bitAt orig.bits i)
    (hfilled : orig.consumed ≤ copy.bitsFilled) (hlow : orig.consumed ≤ copy.limit)
    (hhigh : copy.limit ≤ orig.limit)
    (hcut : ∀ i, 8 * m ≤ i → i < copy.bitsFilled → bitAt copy.bits i = false) :
    alloc.eval (tape rng { copy with
      bitsFilled := 8 * m, limit := min copy.limit (8 * m), shrinking := true }) = res := by
  rw [hplayed.result]
  refine (alloc.eval_congr fun i hi => ?_).1.symm
  have hconsumed := hplayed.consumed
  by_cases hlt : i < orig.consumed
  · rw [consumedBits, decide_eq_true hlt, Bool.true_and, ← hbits i hlt]
    by_cases hm : i < 8 * m
    · rw [tape_of_lt rng (by dsimp only; omega) (by dsimp only; omega)]
    · rw [tape_of_le (by dsimp only; omega), hcut i (by omega) (by omega)]
  · -- the callback asked for more than the limit, and was given zeroes
    rw [consumedBits, decide_eq_false hlt, Bool.false_and, tape_of_le (by dsimp only; omega)]

/-- What follows the edit of a copy, when the copy still has the consumed bits. -/
theorem replay_copy {alloc : Gen (AllocRes × β)} (hz : alloc.Zeroed) {res : AllocRes × β}
    {orig : BitPool} (inv : orig.Inv) (hplayed : Played alloc res orig) {s₀ s : AutoState R}
    (hs₀ : s₀.Ready) (hs : Within s₀ s) {copy : BitPool} (hcopy : Fresh orig.bitsFilled copy)
    (hbits : ∀ i < orig.consumed, bitAt copy.bits i = bitAt orig.bits i)
    (hfilled : orig.consumed ≤ copy.bitsFilled) (hlow : orig.consumed ≤ copy.limit)
    (hhigh : copy.limit ≤ orig.limit) :
    ∃ pool s', (endCopy copy >>= fun copy => allocFromBitPool alloc copy true) s =
      .ok (res, pool) s' := by
  obtain ⟨m, hrun, hfresh, hcut⟩ := hcopy.truncate inv.filled_aligned
  have htruncating := (hs.ready hs₀).truncating
  have hend : endCopy copy s =
      .ok { copy with bitsFilled := 8 * m, limit := min copy.limit (8 * m) } s := by
    simp only [endCopy, bind_apply, get_apply, htruncating, Bool.false_eq_true, if_false, attempt,
      hrun]
  have inv' := hfresh.inv (Nat.mul_mod_right 8 m) (Nat.min_le_right copy.limit (8 * m))
  rcases allocFromBitPool_spec hs hz.sized true inv' hfresh.consumed with ⟨hfalse, -⟩ |
    ⟨res', pool', s', hreplay, -, -, -, -, heval⟩
  · cases hfalse
  · have hres := (heval hz).2
    refine ⟨pool', s', ?_⟩
    rw [bind_apply, hend]
    dsimp only
    rw [hreplay, hres]
    exact congrArg (fun r => EStateM.Result.ok (r, pool') s')
      (hplayed.eval_truncated s.prng.rng hbits hfilled hlow hhigh hcut)

/-- **Replaying an unchanged pool reproduces the instance.** When dropping keeps every request,
or no mutation changes a bit, the callback run on the truncated copy returns what it returned
from the original. -/
theorem replay_unchanged {alloc : Gen (AllocRes × β)} (hz : alloc.Zeroed) {res : AllocRes × β}
    {orig₀ orig : BitPool} (h : Produced R alloc res orig₀) (hindex : buildIndex orig₀ = some orig)
    {s s' : AutoState R} (hs : s.Ready) {id : Nat} {empty copy : BitPool}
    (hempty : allocBitPool id orig.bitsFilled orig.limit orig.requestCeil = some empty)
    (hunchanged :
      dropFromBitPool orig { empty with generation := orig.generation + 1, limit := orig.limit } s =
        .ok (copy, 0) s' ∨
      ∃ fuel, mutateBitPool fuel orig
          { empty with generation := orig.generation + 1, limit := orig.limit } s = .ok copy s' ∧
        ∀ i < orig.bitsFilled, bitAt copy.bits i = bitAt orig.bits i) :
    ∃ pool s'', (endCopy copy >>= fun copy => allocFromBitPool alloc copy true) s' =
      .ok (res, pool) s'' := by
  obtain ⟨hvalid, hplayed₀⟩ := h.played hz
  have horig := buildIndex_spec hindex hvalid.indexed
  have ho : Source orig := by
    rw [horig]
    exact ⟨hvalid.inv.setIndex _, rfl⟩
  have hplayed : Played alloc res orig := by
    rw [horig]
    exact ⟨hplayed₀.result, hplayed₀.consumed⟩
  obtain ⟨hfresh, hzero⟩ := allocBitPool_fresh ho.inv hempty
  have hfresh' : Fresh orig.bitsFilled
      { empty with generation := orig.generation + 1, limit := orig.limit } :=
    ⟨hfresh.bytes, hfresh.ceil_aligned, hfresh.ceil_le, hfresh.room, hfresh.filled_le,
      hfresh.consumed, hfresh.requests, hfresh.requestCeil_pos, hfresh.index⟩
  have hcf := ho.inv.consumed_le_filled
  have hcl := ho.inv.consumed_le_limit
  obtain hdrop | ⟨fuel, hmutate, hsame⟩ := hunchanged
  · obtain ⟨hwithin, hcopy, hlimit, hall⟩ :=
      Spec.returned (dropFromBitPool_safe hs.dropBits ho hfresh' hzero) hs.within hdrop
    obtain ⟨hfilled, hbits⟩ := hall rfl
    dsimp only at hlimit hcopy hfilled
    refine replay_copy hz ho.inv hplayed hs hwithin hcopy (fun i hi => ?_) ?_ ?_ ?_
    · rw [hbits, decide_eq_true hi, Bool.true_and]
    · omega
    · omega
    · omega
  · obtain ⟨hwithin, hcopy, hfilled, hlimit⟩ :=
      Spec.returned (mutateBitPool_safe s fuel ho hfresh') hs.within hmutate
    dsimp only at hlimit
    refine replay_copy hz ho.inv hplayed hs hwithin hcopy (fun i hi => hsame i (by omega)) ?_ ?_ ?_
    · omega
    · omega
    · omega

end

/-! ## A pool of which nothing is dropped -/

/-- A generator whose bits are all 1: its first draw in `drop_from_bit_pool` is
`DO_NOT_DROP`, and the others are too large to drop a request. -/
instance onesPlatform : Platform Unit where
  rngReset _ := ()
  rngRandom _ := (BitVec.allOnes 64, ())
  shiftBy64 _ w := w
  uninit _ := 0

/-- A callback that returns three random bits. -/
def threeBits : Gen (AllocRes × Word) := .bits 3 fun w => .ret (.ok, w)

/-- A runner with a pool of one word for its first argument. -/
def smallAuto : AutoState Unit :=
  ⟨⟨(), 0, 0, none⟩, ⟨1, []⟩, autoshrinkAllocEnv 0 0 ⟨true, 64, ⟨false, false, false⟩, 0⟩⟩

theorem smallAuto_ready : smallAuto.Ready :=
  ⟨⟨Nat.zero_le _, fun _ h => by cases h⟩, rfl, rfl, by decide, rfl⟩

theorem threeBits_zeroed : threeBits.Zeroed := fun _ => trivial

theorem replay_unchanged_three : ∃ (orig empty copy : BitPool) (s : AutoState Unit),
    orig.requests = [3] ∧ dropFromBitPool orig empty smallAuto = .ok (copy, 0) s ∧
    ∃ pool s', (endCopy copy >>= fun copy => allocFromBitPool threeBits copy true) s =
      .ok ((.ok, 7), pool) s' := by
  have hrun : ∃ orig₀ s₀, autoshrinkAlloc threeBits smallAuto = .ok (.ok, some 7) s₀ ∧
      s₀.env.bitPool = some orig₀ ∧ ∃ orig, buildIndex orig₀ = some orig ∧ orig.requests = [3] ∧
      ∃ empty, allocBitPool 2 orig.bitsFilled orig.limit orig.requestCeil = some empty ∧
      ∃ copy s, dropFromBitPool orig
        { empty with generation := orig.generation + 1, limit := orig.limit } smallAuto =
          .ok (copy, 0) s :=
    ⟨_, _, rfl, rfl, _, rfl, rfl, _, rfl, _, _, rfl⟩
  obtain ⟨orig₀, s₀, halloc, hpool, orig, hindex, hrequests, empty, hempty, copy, s, hdrop⟩ := hrun
  exact ⟨orig, _, copy, s, hrequests, hdrop, replay_unchanged threeBits_zeroed
    (.alloc smallAuto_ready halloc hpool) hindex smallAuto_ready hempty (.inl hdrop)⟩

end Theft
