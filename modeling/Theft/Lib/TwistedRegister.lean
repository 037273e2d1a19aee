import Mathlib.Logic.Function.Basic

/-!
# Twisted feedback shift registers

A register of `size` words of `w` bits, in which each next word is made of the one `middle`
places into it and of a twisted mix of its first two.

* `Params.word`: the words of a register as one sequence, by their recurrence;
* `block_word`: generating a block of words in place, over the words before, follows it;
* `Params.Recurrent.of_window`: where the matrix has its top bit set, `size` consecutive words
  determine what was before them, but for bits of the first word;
* `xor_shiftRight_injective`, `xor_shiftLeft_injective`: the steps that words are tempered with
  lose nothing.
-/

namespace TwistedRegister

variable {w : Nat}

/-! ## Words -/

/-- The product of a word with the companion matrix of `a`, over the field of two elements. -/
def companion (a x : BitVec w) : BitVec w := (x >>> 1) ^^^ if x.getLsbD 0 then a else 0

/-- The bits of `x` outside the mask `low` and those of `y` inside it. -/
def mix (low x y : BitVec w) : BitVec w := (x &&& ~~~low) ||| (y &&& low)

theorem getLsbD_mix (low x y : BitVec w) {i : Nat} (hi : i < w) :
    (mix low x y).getLsbD i = if low.getLsbD i then y.getLsbD i else x.getLsbD i := by
  simp only [mix, BitVec.getLsbD_or, BitVec.getLsbD_and, BitVec.getLsbD_not, hi, decide_true,
    Bool.true_and]
  cases low.getLsbD i <;> simp

/-- The top bit of a product tells the lowest bit of the word, where the matrix has its own. -/
theorem companion_injective {a : BitVec w} (ha : a.msb = true) :
    Function.Injective (companion a) := by
  have hw : 0 < w := by
    rcases Nat.eq_zero_or_pos w with rfl | h
    · simp [BitVec.msb_eq_getLsbD_last] at ha
    · exact h
  have htop : ∀ x : BitVec w, (companion a x).getLsbD (w - 1) = x.getLsbD 0 := by
    intro x
    rw [BitVec.msb_eq_getLsbD_last] at ha
    have hout : x.getLsbD (1 + (w - 1)) = false := BitVec.getLsbD_of_ge x _ (by omega)
    rw [companion, BitVec.getLsbD_xor, BitVec.getLsbD_ushiftRight, hout, Bool.false_xor]
    cases x.getLsbD 0 with
    | true => exact ha
    | false => exact BitVec.getLsbD_zero
  intro x y h
  have hlow : x.getLsbD 0 = y.getLsbD 0 := by rw [← htop x, ← htop y, h]
  have hrest : x >>> 1 = y >>> 1 := by
    rw [companion, companion, hlow] at h
    exact (BitVec.xor_left_inj _).mp h
  apply BitVec.eq_of_getLsbD_eq
  intro i hi
  cases i with
  | zero => exact hlow
  | succ i =>
    have := congrArg (fun v : BitVec w => v.getLsbD i) hrest
    simpa only [BitVec.getLsbD_ushiftRight, Nat.add_comm 1 i] using this

/-! ## The sequence of words -/

/-- The shape of a register. -/
structure Params (w : Nat) where
  size : Nat
  middle : Nat
  low : BitVec w
  matrix : BitVec w
  middle_pos : 0 < middle
  middle_lt : middle < size

namespace Params
variable (p : Params w)

/-- The word that follows on the words `x`, `y` and, further on, `z`. -/
def follow (x y z : BitVec w) : BitVec w := z ^^^ companion p.matrix (mix p.low x y)

/-- The words of the register that starts with the words of `init`. -/
def word (init : Nat → BitVec w) (k : Nat) : BitVec w :=
  if k < p.size then init k
  else p.follow (word init (k - p.size)) (word init (k - p.size + 1))
    (word init (k - p.size + p.middle))
termination_by k
decreasing_by
  all_goals
    have := p.middle_pos
    have := p.middle_lt
    omega

/-- Each word follows on the ones before. -/
def Recurrent (x : Nat → BitVec w) : Prop :=
  ∀ k, x (k + p.size) = p.follow (x k) (x (k + 1)) (x (k + p.middle))

theorem word_of_lt (init : Nat → BitVec w) {k : Nat} (h : k < p.size) :
    p.word init k = init k := by
  rw [word, if_pos h]

theorem word_recurrent (init : Nat → BitVec w) : p.Recurrent (p.word init) := by
  intro k
  rw [word, if_neg (by omega), Nat.add_sub_cancel]

/-- The first words determine the sequence. -/
theorem Recurrent.eq_of_first {p : Params w} {x y : Nat → BitVec w} (hx : p.Recurrent x)
    (hy : p.Recurrent y) (h : ∀ k < p.size, x k = y k) : x = y := by
  have hpos := p.middle_pos
  have hlt := p.middle_lt
  funext k
  induction k using Nat.strongRecOn with
  | ind k ih =>
    by_cases hk : k < p.size
    · exact h k hk
    · obtain ⟨j, rfl⟩ := Nat.exists_eq_add_of_le' (Nat.le_of_not_lt hk)
      rw [hx j, hy j, ih j (by omega), ih (j + 1) (by omega), ih (j + p.middle) (by omega)]

theorem Recurrent.shift {p : Params w} {x : Nat → BitVec w} (hx : p.Recurrent x) (d : Nat) :
    p.Recurrent fun k => x (k + d) := by
  intro k
  have h := hx (k + d)
  rw [Nat.add_right_comm k d, Nat.add_right_comm k d, Nat.add_right_comm k d] at h
  exact h

/-! ## Going back -/

/-- Two words that follow on the same later word tell the bits that went into them. -/
theorem follow_injective {p : Params w} (ha : p.matrix.msb = true) {x y x' y' z : BitVec w}
    (h : p.follow x y z = p.follow x' y' z) {i : Nat} (hi : i < w) :
    if p.low.getLsbD i then y.getLsbD i = y'.getLsbD i else x.getLsbD i = x'.getLsbD i := by
  have hmix : mix p.low x y = mix p.low x' y' :=
    companion_injective ha ((BitVec.xor_right_inj z).mp h)
  have hbit := congrArg (fun v : BitVec w => v.getLsbD i) hmix
  simp only [getLsbD_mix p.low _ _ hi] at hbit
  cases hlow : p.low.getLsbD i with
  | true => simpa only [hlow, if_true] using hbit
  | false => simpa only [hlow, Bool.false_eq_true, if_false] using hbit

/-- Where two sequences agree on a window that reaches far enough, they agree on the word before
it as well, if it is not the very first. -/
theorem Recurrent.agree_before {p : Params w} (ha : p.matrix.msb = true) (hm : 1 < p.middle)
    {x y : Nat → BitVec w} (hx : p.Recurrent x) (hy : p.Recurrent y) {k top : Nat}
    (htop : k + 1 + p.size ≤ top) (h : ∀ j, k + 1 < j → j ≤ top → x j = y j) :
    x (k + 1) = y (k + 1) := by
  have hlt := p.middle_lt
  -- the word itself gives its bits outside the mask, the word before those inside
  have own : p.follow (x (k + 1)) (x (k + 2)) (x (k + 1 + p.middle)) =
      p.follow (y (k + 1)) (y (k + 2)) (x (k + 1 + p.middle)) := by
    have hfar := h (k + 1 + p.size) (by omega) htop
    rw [hx, hy, h (k + 1 + p.middle) (by omega) (by omega)] at hfar
    rw [h (k + 1 + p.middle) (by omega) (by omega)]
    exact hfar
  have before : p.follow (x k) (x (k + 1)) (x (k + p.middle)) =
      p.follow (y k) (y (k + 1)) (x (k + p.middle)) := by
    have hfar := h (k + p.size) (by omega) (by omega)
    rw [hx, hy, h (k + p.middle) (by omega) (by omega)] at hfar
    rw [h (k + p.middle) (by omega) (by omega)]
    exact hfar
  apply BitVec.eq_of_getLsbD_eq
  intro i hi
  have hown := follow_injective ha own hi
  have hbefore := follow_injective ha before hi
  cases hlow : p.low.getLsbD i with
  | true => simpa only [hlow, if_true] using hbefore
  | false => simpa only [hlow, Bool.false_eq_true, if_false] using hown

/-- **Going back.** As many consecutive words as the register holds determine all the words
before them, except for bits of the very first. -/
theorem Recurrent.of_window {p : Params w} (ha : p.matrix.msb = true) (hm : 1 < p.middle)
    {x y : Nat → BitVec w} (hx : p.Recurrent x) (hy : p.Recurrent y)
    (h : ∀ j < p.size, x (j + p.size) = y (j + p.size)) (k : Nat) : x (k + 1) = y (k + 1) := by
  have hlt := p.middle_lt
  have window : ∀ d, d < p.size → ∀ j, p.size - d ≤ j → j < 2 * p.size → x j = y j := by
    intro d
    induction d with
    | zero =>
      intro _ j hj htop
      obtain ⟨i, rfl⟩ := Nat.exists_eq_add_of_le' hj
      exact h i (by omega)
    | succ d ih =>
      intro hd j hj htop
      by_cases hnew : j = p.size - (d + 1)
      · obtain ⟨i, rfl⟩ : ∃ i, j = i + 1 := ⟨j - 1, by omega⟩
        have hafter : ∀ l, i + 1 < l → l ≤ 2 * p.size - 1 → x l = y l := fun l hl hltop =>
          ih (by omega) l (by omega) (by omega)
        exact agree_before ha hm hx hy (by omega) hafter
      · exact ih (by omega) j (by omega) htop
  have hfirst : ∀ j < p.size, x (j + 1) = y (j + 1) := fun j hj =>
    window (p.size - 1) (by omega) (j + 1) (by omega) (by omega)
  exact congrFun ((hx.shift 1).eq_of_first (hy.shift 1) hfirst) k

end Params

/-! ## Blocks of words -/

variable (p : Params w)

/-- The word at place `i` is overwritten with the one that comes `size` words later, made of the
words that are in the list now. -/
def twist (cells : List (BitVec w)) (i : Nat) : List (BitVec w) :=
  cells.set i (p.follow (cells.getD i 0) (cells.getD ((i + 1) % p.size) 0)
    (cells.getD ((i + p.middle) % p.size) 0))

/-- The list holds the words `x` from `lo` on, each at its place in the cycle. -/
def Holds (x : Nat → BitVec w) (cells : List (BitVec w)) (lo : Nat) : Prop :=
  cells.length = p.size ∧ ∀ k, lo ≤ k → k < lo + p.size → cells.getD (k % p.size) 0 = x k

variable {p}

/-- One word is generated in place. -/
theorem Holds.twist {x : Nat → BitVec w} (hx : p.Recurrent x) {cells : List (BitVec w)} {lo : Nat}
    (h : Holds p x cells lo) : Holds p x (twist p cells (lo % p.size)) (lo + 1) := by
  obtain ⟨hlen, hcells⟩ := h
  have hpos := p.middle_pos
  have hlt := p.middle_lt
  have hfirst := hcells lo (Nat.le_refl _) (by omega)
  have hsecond := hcells (lo + 1) (by omega) (by omega)
  have hmiddle := hcells (lo + p.middle) (by omega) (by omega)
  have hmod₁ : (lo % p.size + 1) % p.size = (lo + 1) % p.size := Nat.mod_add_mod _ _ _
  have hmod₂ : (lo % p.size + p.middle) % p.size = (lo + p.middle) % p.size :=
    Nat.mod_add_mod _ _ _
  have hplace : lo % p.size < cells.length := by
    rw [hlen]
    exact Nat.mod_lt _ (by omega)
  refine ⟨by rw [TwistedRegister.twist, List.length_set, hlen], fun k hk htop => ?_⟩
  rw [TwistedRegister.twist, hmod₁, hmod₂, hfirst, hsecond, hmiddle, ← hx lo]
  by_cases hnew : k = lo + p.size
  · subst hnew
    rw [Nat.add_mod_right, List.getD_eq_getElem?_getD, List.getElem?_set_self hplace]
    rfl
  · have hother : lo % p.size ≠ k % p.size := by
      intro heq
      have hdiff : (k - lo) % p.size = 0 := Nat.sub_mod_eq_zero_of_mod_eq heq.symm
      rw [Nat.mod_eq_of_lt (by omega)] at hdiff
      omega
    rw [List.getD_eq_getElem?_getD, List.getElem?_set_ne hother, ← List.getD_eq_getElem?_getD]
    exact hcells k (by omega) (by omega)

/-- **A block in place.** Overwriting all words of a register, from first to last, leaves the
next block of the sequence. -/
theorem Holds.block {x : Nat → BitVec w} (hx : p.Recurrent x) {cells : List (BitVec w)} {b : Nat}
    (h : Holds p x cells (b * p.size)) :
    Holds p x ((List.range p.size).foldl (TwistedRegister.twist p) cells) ((b + 1) * p.size) := by
  have upTo : ∀ j ≤ p.size,
      Holds p x ((List.range j).foldl (TwistedRegister.twist p) cells) (b * p.size + j) := by
    intro j
    induction j with
    | zero => exact fun _ => h
    | succ j ih =>
      intro hj
      have hstep := (ih (by omega)).twist hx
      have hplace : (b * p.size + j) % p.size = j := by
        rw [Nat.add_comm, Nat.add_mul_mod_self_right, Nat.mod_eq_of_lt (by omega)]
      rw [hplace] at hstep
      rw [List.range_succ, List.foldl_append]
      exact hstep
  have hall := upTo p.size (Nat.le_refl _)
  rwa [← Nat.succ_mul] at hall

/-! ## Tempering -/

/-- From the top bit down, each bit of the word is the one of the result without bits that are
known by then. -/
theorem xor_shiftRight_injective {k : Nat} (hk : 0 < k) (m : BitVec w) :
    Function.Injective fun x : BitVec w => x ^^^ ((x >>> k) &&& m) := by
  intro x y h
  have bits : ∀ d i, w ≤ i + d → x.getLsbD i = y.getLsbD i := by
    intro d
    induction d with
    | zero =>
      intro i hi
      rw [BitVec.getLsbD_of_ge x i hi, BitVec.getLsbD_of_ge y i hi]
    | succ d ih =>
      intro i hi
      have hbit := congrArg (fun v : BitVec w => v.getLsbD i) h
      simp only [BitVec.getLsbD_xor, BitVec.getLsbD_and, BitVec.getLsbD_ushiftRight,
        ih (k + i) (by omega)] at hbit
      exact Bool.xor_left_inj.mp hbit
  exact BitVec.eq_of_getLsbD_eq fun i _ => bits w i (by omega)

/-- The same from the lowest bit up. -/
theorem xor_shiftLeft_injective {k : Nat} (hk : 0 < k) (m : BitVec w) :
    Function.Injective fun x : BitVec w => x ^^^ ((x <<< k) &&& m) := by
  intro x y h
  have bits : ∀ i, x.getLsbD i = y.getLsbD i := by
    intro i
    induction i using Nat.strongRecOn with
    | ind i ih =>
      have hbit := congrArg (fun v : BitVec w => v.getLsbD i) h
      have hshift : (x <<< k).getLsbD i = (y <<< k).getLsbD i := by
        by_cases hik : i < k
        · simp [hik]
        · simp only [BitVec.getLsbD_shiftLeft, ih (i - k) (by omega)]
      simp only [BitVec.getLsbD_xor, BitVec.getLsbD_and, hshift] at hbit
      exact Bool.xor_left_inj.mp hbit
  exact BitVec.eq_of_getLsbD_eq fun i _ => bits i

end TwistedRegister
