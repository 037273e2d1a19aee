import Theft.Pool

/-!
# What a read from a pool gives

`fillBuf` copies word by word at whatever alignment source and destination have.
Here it is read as a statement about bits: bit `i` of the response is bit
`consumed + i` of the pool.
-/

namespace Theft

open PackedBits

theorem wordCount_eq (n : Nat) : wordCount n = (n + 63) / 64 := by
  unfold wordCount
  split <;> omega

theorem le_wordCount (n : Nat) : n ≤ 64 * wordCount n := by
  rw [wordCount_eq]
  omega

theorem getLsbD_getMask {n : Nat} (hn : n ≤ 64) (j : Nat) :
    (getMask n).getLsbD j = decide (j < n) := by
  by_cases h64 : n = 64
  · subst h64
    rw [getMask, if_pos rfl, BitVec.getLsbD_not, BitVec.getLsbD_zero, Bool.not_false, Bool.and_true]
  · have hpow : 2 ^ n < 2 ^ 64 := Nat.pow_lt_pow_right (by decide) (by omega)
    have hpos : 0 < 2 ^ n := Nat.two_pow_pos n
    have hval : (getMask n).toNat = 2 ^ n - 1 := by
      rw [getMask, if_neg h64, BitVec.toNat_sub, BitVec.toNat_shiftLeft, BitVec.toNat_ofNat,
        Nat.shiftLeft_eq, Nat.mod_eq_of_lt (show 1 < 2 ^ 64 by decide), Nat.one_mul,
        Nat.mod_eq_of_lt hpow, show (1 : Word).toNat = 1 from rfl]
      omega
    rw [BitVec.getLsbD, hval, Nat.testBit_two_pow_sub_one]

/-- Or-ing the low `t` bits of a word into a buffer at a bit offset inside one word. -/
theorem bitAt_orBits {dst : List Word} {k : Nat} {d : Word} (hd : dst[k]? = some d) (src : Word)
    {db t : Nat} (hdb : db + t ≤ 64) (j : Nat) :
    bitAt (dst.set k (d ||| ((src &&& getMask t) <<< db))) j =
      (bitAt dst j || (decide (64 * k + db ≤ j ∧ j < 64 * k + db + t) &&
        src.getLsbD (j - (64 * k + db)))) := by
  have hk : k < dst.length := (List.getElem?_eq_some_iff.mp hd).1
  rw [bitAt_set hk]
  by_cases hjk : j / 64 = k
  · subst hjk
    have hsub : j - (64 * (j / 64) + db) = j % 64 - db := by omega
    have hold : bitAt dst j = d.getLsbD (j % 64) := by simp [bitAt, hd]
    rw [if_pos rfl, hold, hsub, BitVec.getLsbD_or, BitVec.getLsbD_shiftLeft, BitVec.getLsbD_and,
      getLsbD_getMask (by omega)]
    by_cases hlo : j % 64 < db
    · have hout : ¬ (64 * (j / 64) + db ≤ j ∧ j < 64 * (j / 64) + db + t) := by omega
      simp [hlo, hout]
    · by_cases hhi : j % 64 - db < t
      · have hin : 64 * (j / 64) + db ≤ j ∧ j < 64 * (j / 64) + db + t := by omega
        have hlt : j % 64 < 64 := by omega
        simp only [hlo, hhi, hin, hlt, decide_true, decide_false, Bool.not_false, Bool.true_and,
          Bool.and_true, and_self]
      · have hout : ¬ (64 * (j / 64) + db ≤ j ∧ j < 64 * (j / 64) + db + t) := by omega
        simp [hhi, hout]
  · have hout : ¬ (64 * k + db ≤ j ∧ j < 64 * k + db + t) := by omega
    simp [hjk, hout]

/-! ## The copy loop -/

/-- What the destination holds when `i` of `n` bits have been copied: those bits, zeroes up to
the end of the word in progress, and the old contents from there on. -/
def copied (src old : Nat → Bool) (n i : Nat) : Nat → Bool := fun j =>
  if j < i then src j else if j < 64 * wordCount (min (i + 1) n) then false else old j

theorem copied_of_lt {src old : Nat → Bool} {n i : Nat} (h : i < n) (j : Nat) :
    copied src old n i j =
      if j < i then src j else if j < 64 * (i / 64 + 1) then false else old j := by
  have hword : (min (i + 1) n + 63) / 64 = i / 64 + 1 := by omega
  rw [copied, wordCount_eq, hword]

/-- One round of the loop: `t` more bits, inside one source and one destination word. -/
theorem copyRound {src : List Byte} {old : Nat → Bool} {c n i t : Nat} {dst : List Word}
    {s d : Word} (hi : i < n) (hd : dst[i / 64]? = some d)
    (hs : ∀ j, s.getLsbD j = (decide (j < 64) && bitAt src (64 * ((c + i) / 64) + j)))
    (hdrem : t ≤ 64 - i % 64) (hsrem : t ≤ 64 - (c + i) % 64)
    (hdst : ∀ j, bitAt dst j = copied (fun j => bitAt src (c + j)) old n i j) (j : Nat) :
    bitAt (dst.set (i / 64) (d ||| (((s >>> ((c + i) % 64)) &&& getMask t) <<< (i % 64)))) j =
      if j < i + t then bitAt src (c + j) else if j < 64 * (i / 64 + 1) then false else old j := by
  rw [bitAt_orBits hd _ (by omega), hdst j, copied_of_lt hi]
  by_cases hji : j < i
  · have hjt : j < i + t := by omega
    have hout : ¬ (64 * (i / 64) + i % 64 ≤ j ∧ j < 64 * (i / 64) + i % 64 + t) := by omega
    simp [hji, hjt, hout]
  · by_cases hjt : j < i + t
    · have hin : 64 * (i / 64) + i % 64 ≤ j ∧ j < 64 * (i / 64) + i % 64 + t := by omega
      have hjw : j < 64 * (i / 64 + 1) := by omega
      have hoff : (c + i) % 64 + (j - (64 * (i / 64) + i % 64)) < 64 := by omega
      have hsame : 64 * ((c + i) / 64) + ((c + i) % 64 + (j - (64 * (i / 64) + i % 64))) =
          c + j := by omega
      rw [BitVec.getLsbD_ushiftRight, hs, hsame]
      simp [hji, hjt, hin, hjw, hoff]
    · have hout : ¬ (64 * (i / 64) + i % 64 ≤ j ∧ j < 64 * (i / 64) + i % 64 + t) := by omega
      simp [hji, hjt, hout]

theorem copyBits_spec {src : List Byte} {c n : Nat} (hsrc : c + n ≤ 8 * src.length)
    (h8 : src.length % 8 = 0) (old : Nat → Bool) :
    ∀ fuel i dst, n - i < fuel → i ≤ n → wordCount n ≤ dst.length →
      (∀ j, bitAt dst j = copied (fun j => bitAt src (c + j)) old n i j) →
      ∃ dst', copyBits src n fuel i ((c + i) / 64) ((c + i) % 64) (i / 64) dst = .ok dst' ∧
        dst'.length = dst.length ∧
        ∀ j, bitAt dst' j = copied (fun j => bitAt src (c + j)) old n n j := by
  intro fuel
  induction fuel with
  | zero => intro i dst hf; omega
  | succ fuel ih =>
    intro i dst hf hi hlen hdst
    by_cases hlt : i < n
    · have hroom := le_wordCount n
      have hk : i / 64 < dst.length := by omega
      obtain ⟨s, hs, hsbit⟩ := getWord_eq_some src ((c + i) / 64) (by omega)
      have hd : dst[i / 64]? = some dst[i / 64] := List.getElem?_eq_getElem hk
      generalize dst[i / 64] = d at hd
      rw [copyBits, if_pos hlt]
      simp only [hs, hd]
      generalize ht : (if (if n - i < 64 - i % 64 then n - i else 64 - i % 64) <
        64 - (c + i) % 64 then (if n - i < 64 - i % 64 then n - i else 64 - i % 64)
        else 64 - (c + i) % 64) = t
      have hbounds : 0 < t ∧ t ≤ n - i ∧ t ≤ 64 - i % 64 ∧ t ≤ 64 - (c + i) % 64 := by
        split at ht <;> split at ht <;> omega
      obtain ⟨hpos, hreq, hdrem, hsrem⟩ := hbounds
      have hround := copyRound hlt hd hsbit hdrem hsrem hdst
      have hlen₁ : (dst.set (i / 64)
          (d ||| (((s >>> ((c + i) % 64)) &&& getMask t) <<< (i % 64)))).length = dst.length := by
        simp
      generalize dst.set (i / 64)
        (d ||| (((s >>> ((c + i) % 64)) &&& getMask t) <<< (i % 64))) = dst₁ at hround hlen₁ ⊢
      have hso : (if (c + i) % 64 + t = 64 then (c + i) / 64 + 1 else (c + i) / 64) =
          (c + (i + t)) / 64 := by split <;> omega
      have hsb : (if (c + i) % 64 + t = 64 then 0 else (c + i) % 64 + t) =
          (c + (i + t)) % 64 := by split <;> omega
      rw [hso, hsb, ← hlen₁]
      -- the word in progress is unchanged, finished, or finished with another one to start
      by_cases hfull : i % 64 + t = 64
      · have hnext : i / 64 + 1 = (i + t) / 64 := by omega
        rw [if_pos hfull, hnext]
        by_cases hmore : i + t < n
        · have hroom' : (i + t) / 64 < dst₁.length := by omega
          rw [if_pos hmore, if_pos hroom']
          obtain ⟨dst', hrun, hlen', hbits⟩ := ih (i + t) (dst₁.set ((i + t) / 64) 0) (by omega)
            (by omega) (by simp; omega) (fun j => by
              rw [bitAt_set hroom', hround, copied_of_lt hmore]
              by_cases hj : j / 64 = (i + t) / 64
              · have hge : ¬ j < i + t := by omega
                have hjw : j < 64 * ((i + t) / 64 + 1) := by omega
                simp [hj, hge, hjw]
              · by_cases hjt : j < i + t
                · simp [hj, hjt]
                · have h₁ : ¬ j < 64 * (i / 64 + 1) := by omega
                  have h₂ : ¬ j < 64 * ((i + t) / 64 + 1) := by omega
                  simp [hj, hjt, h₁, h₂])
          exact ⟨dst', hrun, by simpa using hlen', hbits⟩
        · rw [if_neg hmore]
          refine ih (i + t) dst₁ (by omega) (by omega) (by omega) (fun j => ?_)
          have hword : (min (i + t + 1) n + 63) / 64 = i / 64 + 1 := by omega
          rw [hround, copied, wordCount_eq, hword]
      · have hnext : i / 64 = (i + t) / 64 := by omega
        rw [if_neg hfull, hnext]
        refine ih (i + t) dst₁ (by omega) (by omega) (by omega) (fun j => ?_)
        have hword : (min (i + t + 1) n + 63) / 64 = i / 64 + 1 := by omega
        rw [hround, copied, wordCount_eq, hword]
    · have hin : i = n := by omega
      subst hin
      exact ⟨dst, by rw [copyBits, if_neg hlt], rfl, hdst⟩

/-- `fillBuf` writes the words that hold `n` bits and leaves the rest of the buffer alone. -/
theorem fillBuf_spec (pool : BitPool) {n : Nat} (dst : List Word) (hn : 0 < n)
    (hsrc : pool.consumed + n ≤ 8 * pool.bits.length) (h8 : pool.bits.length % 8 = 0)
    (hdst : wordCount n ≤ dst.length) :
    ∃ dst', fillBuf pool n dst = .ok ({ pool with consumed := pool.consumed + n }, dst') ∧
      dst'.length = dst.length ∧
      ∀ i, bitAt dst' i =
        if i < n then bitAt pool.bits (pool.consumed + i)
        else if i < 64 * wordCount n then false else bitAt dst i := by
  have hlen : 0 < dst.length := by
    have := le_wordCount n
    omega
  obtain ⟨dst', hrun, hlen', hbits⟩ :=
    copyBits_spec hsrc h8 (bitAt dst) (n + 1) 0 (dst.set 0 0) (by omega) (by omega)
      (by simpa using hdst) (fun j => by
        rw [bitAt_set hlen, copied, wordCount_eq]
        have hword : (min (0 + 1) n + 63) / 64 = 1 := by omega
        rw [hword]
        by_cases hj : j / 64 = 0
        · have : j < 64 := by omega
          simp [hj, this]
        · have : ¬ j < 64 := by omega
          simp [hj, this])
  refine ⟨dst', ?_, by simpa using hlen', fun i => ?_⟩
  · simp only [Nat.add_zero] at hrun
    rw [fillBuf, if_pos hlen, hrun]
  · have hmin : min (n + 1) n = n := by omega
    simpa only [copied, hmin] using hbits i

end Theft
