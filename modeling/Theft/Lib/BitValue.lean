import Theft.Lib.PackedBits

/-!
# Numbers in a string of bits

The number that `n` bits from an offset on spell, the least significant first, and the rank of a
row of such numbers, in which earlier numbers count for more. A number is less when a part of it
is less and the bits above that part are the same; a row is less when one of its numbers is less
and the bits before that number are the same.
-/

namespace PackedBits

/-- The number that the `n` bits from an offset on spell -/
def valueOf (bits : Nat → Bool) (offset : Nat) : Nat → Nat
  | 0 => 0
  | n + 1 => (bits offset).toNat + 2 * valueOf bits (offset + 1) n

theorem valueOf_congr {f g : Nat → Bool} {n : Nat} : ∀ {a b : Nat},
    (∀ k < n, f (a + k) = g (b + k)) → valueOf f a n = valueOf g b n := by
  induction n with
  | zero =>
    intro a b _
    rfl
  | succ n ih =>
    intro a b h
    have hrest : valueOf f (a + 1) n = valueOf g (b + 1) n := by
      apply ih
      intro k hk
      rw [Nat.add_assoc, Nat.add_assoc, Nat.add_comm 1 k]
      exact h (k + 1) (by omega)
    rw [valueOf, valueOf, hrest, show f a = g b from h 0 (by omega)]

theorem valueOf_lt (bits : Nat → Bool) (n : Nat) : ∀ offset, valueOf bits offset n < 2 ^ n := by
  induction n with
  | zero =>
    intro offset
    exact Nat.one_pos
  | succ n ih =>
    intro offset
    have hrest := ih (offset + 1)
    have hbit := Bool.toNat_lt (bits offset)
    rw [valueOf, Nat.pow_succ]
    omega

theorem valueOf_add (bits : Nat → Bool) (a b : Nat) : ∀ offset,
    valueOf bits offset (a + b) = valueOf bits offset a + 2 ^ a * valueOf bits (offset + a) b := by
  induction a with
  | zero =>
    intro offset
    simp [valueOf]
  | succ a ih =>
    intro offset
    rw [show a + 1 + b = a + b + 1 by omega, valueOf, valueOf, ih, Nat.pow_succ,
      show offset + 1 + a = offset + (a + 1) by omega, Nat.mul_add, Nat.add_assoc, Nat.mul_comm _ 2,
      Nat.mul_assoc]

theorem testBit_valueOf (bits : Nat → Bool) (n : Nat) : ∀ offset j,
    (valueOf bits offset n).testBit j = (decide (j < n) && bits (offset + j)) := by
  induction n with
  | zero =>
    intro offset j
    simp [valueOf]
  | succ n ih =>
    intro offset j
    rw [valueOf]
    cases j with
    | zero =>
      have hmod : ((bits offset).toNat + 2 * valueOf bits (offset + 1) n) % 2 =
          (bits offset).toNat := by
        have hbit := Bool.toNat_lt (bits offset)
        omega
      rw [Nat.testBit_zero, hmod]
      cases bits offset <;> simp
    | succ j =>
      have hdiv : ((bits offset).toNat + 2 * valueOf bits (offset + 1) n) / 2 =
          valueOf bits (offset + 1) n := by
        have hbit := Bool.toNat_lt (bits offset)
        omega
      rw [Nat.testBit_succ, hdiv, ih, show offset + 1 + j = offset + (j + 1) by omega]
      simp

/-- A word whose bits are those from an offset on -/
theorem toNat_eq_valueOf {w : Word} {bits : Nat → Bool} {offset n : Nat} (hn : n ≤ 64)
    (h : ∀ j < 64, w.getLsbD j = (decide (j < n) && bits (offset + j))) :
    w.toNat = valueOf bits offset n := by
  apply Nat.eq_of_testBit_eq
  intro j
  rw [testBit_valueOf, BitVec.testBit_toNat]
  by_cases hj : j < 64
  · exact h j hj
  · rw [BitVec.getLsbD_of_ge _ _ (by omega), decide_eq_false (by omega), Bool.false_and]

/-- **A number is less when a part of it is less** and the bits above are the same, whatever the
bits below. -/
theorem valueOf_lt_of_part {f g : Nat → Bool} {offset n x len : Nat} (hle : x + len ≤ n)
    (hpart : valueOf g (offset + x) len < valueOf f (offset + x) len)
    (habove : ∀ i, offset + x + len ≤ i → i < offset + n → g i = f i) :
    valueOf g offset n < valueOf f offset n := by
  obtain ⟨rest, rfl⟩ := Nat.exists_eq_add_of_le hle
  have hrest : valueOf g (offset + x + len) rest = valueOf f (offset + x + len) rest :=
    valueOf_congr fun k hk => habove _ (by omega) (by omega)
  have hlow := valueOf_lt g x offset
  rw [Nat.add_assoc, valueOf_add, valueOf_add f, valueOf_add g, valueOf_add f, hrest]
  calc valueOf g offset x + 2 ^ x *
        (valueOf g (offset + x) len + 2 ^ len * valueOf f (offset + x + len) rest)
      < 2 ^ x * 1 + 2 ^ x *
        (valueOf g (offset + x) len + 2 ^ len * valueOf f (offset + x + len) rest) := by omega
    _ = 2 ^ x *
        (1 + (valueOf g (offset + x) len + 2 ^ len * valueOf f (offset + x + len) rest)) :=
      (Nat.mul_add _ _ _).symm
    _ ≤ 2 ^ x * (valueOf f (offset + x) len + 2 ^ len * valueOf f (offset + x + len) rest) :=
      Nat.mul_le_mul_left _ (by omega)
    _ ≤ _ := Nat.le_add_left _ _

/-- The rank of the numbers of these sizes, one after the other from an offset on -/
def rank (bits : Nat → Bool) : Nat → List Nat → Nat
  | _, [] => 0
  | offset, n :: sizes => valueOf bits offset n * 2 ^ sizes.sum + rank bits (offset + n) sizes

theorem rank_lt (bits : Nat → Bool) (sizes : List Nat) : ∀ offset,
    rank bits offset sizes < 2 ^ sizes.sum := by
  induction sizes with
  | nil =>
    intro offset
    exact Nat.one_pos
  | cons n sizes ih =>
    intro offset
    have hrest := ih (offset + n)
    have hvalue := valueOf_lt bits n offset
    rw [rank, List.sum_cons, Nat.pow_add]
    calc valueOf bits offset n * 2 ^ sizes.sum + rank bits (offset + n) sizes
        < valueOf bits offset n * 2 ^ sizes.sum + 2 ^ sizes.sum := by omega
      _ = (valueOf bits offset n + 1) * 2 ^ sizes.sum := by rw [Nat.add_mul, Nat.one_mul]
      _ ≤ 2 ^ n * 2 ^ sizes.sum := Nat.mul_le_mul_right _ hvalue

/-- **A row is less when one of its numbers is less** and the bits before are the same, whatever
the bits after. -/
theorem rank_lt_of_number {f g : Nat → Bool} (sizes : List Nat) : ∀ (offset : Nat)
    {pos n : Nat}, sizes[pos]? = some n →
    (∀ i, offset ≤ i → i < offset + (sizes.take pos).sum → g i = f i) →
    valueOf g (offset + (sizes.take pos).sum) n < valueOf f (offset + (sizes.take pos).sum) n →
    rank g offset sizes < rank f offset sizes := by
  induction sizes with
  | nil =>
    intro offset pos n hn
    cases hn
  | cons m sizes ih =>
    intro offset pos n hn hbefore hless
    cases pos with
    | zero =>
      cases hn
      have hrest := rank_lt g sizes (offset + m)
      rw [List.take_zero, List.sum_nil, Nat.add_zero] at hless
      rw [rank, rank]
      calc valueOf g offset m * 2 ^ sizes.sum + rank g (offset + m) sizes
          < valueOf g offset m * 2 ^ sizes.sum + 2 ^ sizes.sum := by omega
        _ = (valueOf g offset m + 1) * 2 ^ sizes.sum := by rw [Nat.add_mul, Nat.one_mul]
        _ ≤ valueOf f offset m * 2 ^ sizes.sum := Nat.mul_le_mul_right _ hless
        _ ≤ _ := Nat.le_add_right _ _
    | succ pos =>
      rw [List.take_succ_cons, List.sum_cons] at hbefore hless
      have hfirst : valueOf g offset m = valueOf f offset m :=
        valueOf_congr fun k hk => hbefore _ (by omega) (by omega)
      have hrest := ih (offset + m) hn (fun i hi hi' => hbefore i (by omega) (by omega))
        (by rwa [Nat.add_assoc])
      rw [rank, rank, hfirst]
      omega

end PackedBits
