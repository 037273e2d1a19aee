import Theft.Source
import Theft.Autoshrink

/-!
# The built-in array of characters

`char_ARRAY_alloc` fills a block that it doubles when it is full. It looks at the bound before it
looks at the capacity, so the zero at the bound is written behind a block that is just full:
`char_array_safe_iff` says for which bounds.
-/

namespace Theft

open PackedBits

/-- A block that `malloc` gave, with the bytes that have been written to it. -/
abbrev Block := List (Option Byte)

namespace Block

def malloc (size : Nat) : Block := List.replicate size none

/-- `realloc`, to a size that is not smaller -/
def realloc (block : Block) (size : Nat) : Block :=
  block ++ List.replicate (size - block.length) none

def store (block : Block) (i : Nat) (b : Byte) : Except Stop Block :=
  if i < block.length then .ok (block.set i (some b)) else .error .outOfBounds

/-- A string of `len` bytes and its terminator. -/
structure Holds (block : Block) (len : Nat) : Prop where
  ended : block[len]? = some (some 0)
  inside : ∀ i < len, ∃ b, b ≠ 0 ∧ block[i]? = some (some b)

end Block

/-- `DEF_BYTE_ARRAY_CEIL` -/
def defByteArrayCeil : Nat := 8

/-- The loop of `char_ARRAY_alloc`. A block is smaller than half of the address space, so that
`size` and `ceil` do not wrap. -/
def charArrayLoop (memory : Nat → Bool) (maxLength : Option Nat) :
    Nat → (ceil size : Nat) → Block → Gen (Except Stop (AllocRes × Option Block))
  | 0, _, _, _ => .ret (.error .fuel)
  | fuel + 1, ceil, size, res =>
    if maxLength = some (size + 1) then
      .ret ((res.store size 0).map fun res => (.ok, some res))
    else if size = ceil ∧ memory (2 * ceil) = false then .ret (.ok (.error, none))
    else
      let nceil := if size = ceil then 2 * ceil else ceil
      let res := if size = ceil then res.realloc nceil else res
      .bits 8 fun word =>
        let byte : Byte := word.setWidth 8
        match res.store size byte with
        | .error e => .ret (.error e)
        | .ok res =>
          if byte = 0 then .ret (.ok (.ok, some res))
          else charArrayLoop memory maxLength fuel nceil (size + 1) res

/-- `char_ARRAY_alloc`, where `memory` says which sizes can be allocated -/
def charArrayAlloc (memory : Nat → Bool) (maxLength : Option Nat) (fuel : Nat) :
    Gen (Except Stop (AllocRes × Option Block)) :=
  if maxLength = some 0 then .ret (.error .assertion)
  else if memory defByteArrayCeil = false then .ret (.ok (.error, none))
  else charArrayLoop memory maxLength fuel defByteArrayCeil 0 (Block.malloc defByteArrayCeil)

/-- The byte with index `i` of a stream of random bits -/
def byteAt (S : Nat → Bool) (i : Nat) : Byte := (Gen.answer (fun j => S (j + 8 * i)) 8).setWidth 8

theorem byteAt_succ (S : Nat → Bool) (i : Nat) : byteAt (fun j => S (j + 8)) i = byteAt S (i + 1) := by
  unfold byteAt
  congr 2

theorem byteAt_ne_zero {S : Nat → Bool} {i : Nat} (h : S (8 * i) = true) : byteAt S i ≠ 0 := by
  intro hzero
  have hbit : (byteAt S i).getLsbD 0 = true := by
    rw [byteAt, BitVec.getLsbD_setWidth, Gen.answer, getLsbD_ofBits, Nat.zero_add, h]
    rfl
  rw [hzero] at hbit
  cases hbit

/-- With enough fuel, `char_ARRAY_alloc` returns a string below the bound, and no access on the
way is outside its block. -/
def CharArraySafe (memory : Nat → Bool) (maxLength : Option Nat) (S : Nat → Bool) : Prop :=
  ∃ least, ∀ fuel ≥ least, ∃ res len,
    (charArrayAlloc memory maxLength fuel).eval S = .ok (.ok, some res) ∧ res.Holds len ∧
      ∀ bound, maxLength = some bound → len < bound

/-! ## The loop -/

/-- The block is the smallest of its kind that holds the bytes so far, none of which is zero. -/
structure Grown (ceil size : Nat) (res : Block) : Prop where
  length : res.length = ceil
  doubled : ∃ k, ceil = defByteArrayCeil * 2 ^ k
  fits : size ≤ ceil
  least : ∀ k, size ≤ defByteArrayCeil * 2 ^ k → ceil ≤ defByteArrayCeil * 2 ^ k
  inside : ∀ i < size, ∃ b, b ≠ 0 ∧ res[i]? = some (some b)

theorem grown_start : Grown defByteArrayCeil 0 (Block.malloc defByteArrayCeil) where
  length := List.length_replicate
  doubled := ⟨0, by omega⟩
  fits := Nat.zero_le _
  least k _ := Nat.le_mul_of_pos_right _ (Nat.two_pow_pos k)
  inside i hi := absurd hi (Nat.not_lt_zero i)

theorem Grown.ceil_pos {ceil size : Nat} {res : Block} (h : Grown ceil size res) : 0 < ceil := by
  obtain ⟨k, rfl⟩ := h.doubled
  exact Nat.mul_pos (by decide) (Nat.two_pow_pos k)

/-- The block that a byte is written to: as it was, or doubled. -/
def roomFor (ceil size : Nat) (res : Block) : Block :=
  if size = ceil then res.realloc (2 * ceil) else res

theorem getElem?_realloc {res : Block} {i : Nat} (h : i < res.length) (size : Nat) :
    (res.realloc size)[i]? = res[i]? :=
  List.getElem?_append_left h

section
variable {ceil size : Nat} {res : Block}

theorem Grown.length_roomFor (h : Grown ceil size res) :
    (roomFor ceil size res).length = if size = ceil then 2 * ceil else ceil := by
  have hlen := h.length
  unfold roomFor
  split
  · rw [Block.realloc, List.length_append, List.length_replicate]
    omega
  · exact hlen

theorem Grown.lt_roomFor (h : Grown ceil size res) : size < (roomFor ceil size res).length := by
  have hfits := h.fits
  have hpos := h.ceil_pos
  rw [h.length_roomFor]
  split <;> omega

/-- The bytes so far, in the block to write to -/
theorem Grown.inside_roomFor (h : Grown ceil size res) :
    ∀ i < size, ∃ b, b ≠ 0 ∧ (roomFor ceil size res)[i]? = some (some b) := by
  intro i hi
  have hfits := h.fits
  have hlen := h.length
  obtain ⟨b, hb, hget⟩ := h.inside i hi
  refine ⟨b, hb, ?_⟩
  unfold roomFor
  split
  · rw [getElem?_realloc (by omega), hget]
  · exact hget

/-- After the terminator there is a string. -/
theorem Grown.terminated (h : Grown ceil size res) :
    Block.Holds ((roomFor ceil size res).set size (some 0)) size where
  ended := List.getElem?_set_self h.lt_roomFor
  inside i hi := by
    obtain ⟨b, hb, hget⟩ := h.inside_roomFor i hi
    exact ⟨b, hb, by rw [List.getElem?_set_ne (by omega), hget]⟩

/-- After another byte the loop goes on as before. -/
theorem Grown.pushed (h : Grown ceil size res) {b : Byte} (hb : b ≠ 0) :
    Grown (if size = ceil then 2 * ceil else ceil) (size + 1)
      ((roomFor ceil size res).set size (some b)) where
  length := by rw [List.length_set, h.length_roomFor]
  doubled := by
    obtain ⟨k, hk⟩ := h.doubled
    split
    · exact ⟨k + 1, by rw [hk, Nat.pow_succ', Nat.mul_left_comm]⟩
    · exact ⟨k, hk⟩
  fits := h.length_roomFor ▸ h.lt_roomFor
  least k hk := by
    have hleast := h.least k (by omega)
    obtain ⟨j, hj⟩ := h.doubled
    split
    · have hlt : 2 ^ j < 2 ^ k := by
        unfold defByteArrayCeil at *
        omega
      have hle : 2 ^ (j + 1) ≤ 2 ^ k :=
        Nat.pow_le_pow_right (by decide) ((Nat.pow_lt_pow_iff_right (by decide)).mp hlt)
      rw [Nat.pow_succ] at hle
      unfold defByteArrayCeil at *
      omega
    · exact hleast
  inside i hi := by
    by_cases heq : i = size
    · subst heq
      exact ⟨b, hb, List.getElem?_set_self h.lt_roomFor⟩
    · obtain ⟨b', hb', hget⟩ := h.inside_roomFor i (by omega)
      exact ⟨b', hb', by rw [List.getElem?_set_ne (by omega), hget]⟩

variable {memory : Nat → Bool} {maxLength : Option Nat}

/-- One round that draws a byte. -/
theorem charArrayLoop_round (h : Grown ceil size res) (hmemory : ∀ n, memory n = true)
    (hbound : maxLength ≠ some (size + 1)) (fuel : Nat) (S : Nat → Bool) :
    (charArrayLoop memory maxLength (fuel + 1) ceil size res).eval S =
      if byteAt S 0 = 0 then .ok (.ok, some ((roomFor ceil size res).set size (some 0)))
      else (charArrayLoop memory maxLength fuel (if size = ceil then 2 * ceil else ceil) (size + 1)
        ((roomFor ceil size res).set size (some (byteAt S 0)))).eval fun j => S (j + 8) := by
  have hroom : (if size = ceil then res.realloc (if size = ceil then 2 * ceil else ceil) else res) =
      roomFor ceil size res := by
    unfold roomFor
    split <;> rfl
  have hbyte : (Gen.answer S (8 : Fin 65).val).setWidth 8 = byteAt S 0 := rfl
  have hstore : ∀ b, Block.store (roomFor ceil size res) size b =
      .ok ((roomFor ceil size res).set size (some b)) := fun b => if_pos h.lt_roomFor
  rw [charArrayLoop, if_neg hbound, if_neg (by simp [hmemory])]
  simp only [hroom, Gen.eval, hbyte, hstore]
  by_cases hzero : byteAt S 0 = 0
  · simp only [hzero, if_true, Gen.eval]
  · simp only [if_neg hzero]
    rfl

/-- The loop ends with a string, at a zero byte or at the bound, when no zero comes too late for a
bound behind a full block. -/
theorem charArrayLoop_safe (hmemory : ∀ n, memory n = true) (fuel : Nat) :
    ∀ {ceil size n : Nat} {res : Block} {S : Nat → Bool},
      Grown ceil size res → n < fuel → byteAt S n = 0 →
      (∀ bound, maxLength = some bound → size < bound) →
      (∀ k, maxLength = some (defByteArrayCeil * 2 ^ k + 1) →
        ∃ i, size + i < defByteArrayCeil * 2 ^ k ∧ byteAt S i = 0) →
      ∃ out len, (charArrayLoop memory maxLength fuel ceil size res).eval S =
        .ok (.ok, some out) ∧ out.Holds len ∧ ∀ bound, maxLength = some bound → len < bound := by
  induction fuel with
  | zero =>
    intro ceil size n res S h hfuel
    omega
  | succ fuel ih =>
    intro ceil size n res S h hfuel hzero hbelow hfull
    by_cases hbound : maxLength = some (size + 1)
    · have hspace : size ≠ ceil := by
        intro heq
        obtain ⟨k, hk⟩ := h.doubled
        obtain ⟨i, hi, -⟩ := hfull k (by rw [hbound, heq, hk])
        omega
      have hstring := h.terminated
      have hroom := h.lt_roomFor
      rw [roomFor, if_neg hspace] at hstring hroom
      refine ⟨_, size, ?_, hstring, hbelow⟩
      rw [charArrayLoop, if_pos hbound, Gen.eval, Block.store, if_pos hroom]
      rfl
    · rw [charArrayLoop_round h hmemory hbound]
      by_cases hfirst : byteAt S 0 = 0
      · rw [if_pos hfirst]
        exact ⟨_, size, rfl, h.terminated, hbelow⟩
      · rw [if_neg hfirst]
        have hn : n ≠ 0 := by
          rintro rfl
          exact hfirst hzero
        obtain ⟨m, rfl⟩ := Nat.exists_eq_succ_of_ne_zero hn
        refine ih (h.pushed hfirst) (show m < fuel by omega) (by rw [byteAt_succ]; exact hzero) ?_ ?_
        · intro bound hmax
          have hlt := hbelow bound hmax
          have hne : size + 1 ≠ bound := by
            rintro rfl
            exact hbound hmax
          omega
        · intro k hmax
          obtain ⟨i, hi, hbyte⟩ := hfull k hmax
          have hi0 : i ≠ 0 := by
            rintro rfl
            exact hfirst hbyte
          obtain ⟨j, rfl⟩ := Nat.exists_eq_succ_of_ne_zero hi0
          exact ⟨j, by omega, by rw [byteAt_succ]; exact hbyte⟩

/-- Without a zero before it, a bound behind a full block is written outside of it. -/
theorem charArrayLoop_overruns (hmemory : ∀ n, memory n = true) {k : Nat} (fuel : Nat) :
    ∀ {ceil size : Nat} {res : Block} {S : Nat → Bool},
      Grown ceil size res → size ≤ defByteArrayCeil * 2 ^ k →
      defByteArrayCeil * 2 ^ k - size < fuel →
      (∀ i, size + i < defByteArrayCeil * 2 ^ k → byteAt S i ≠ 0) →
      (charArrayLoop memory (some (defByteArrayCeil * 2 ^ k + 1)) fuel ceil size res).eval S =
        .error .outOfBounds := by
  induction fuel with
  | zero =>
    intro ceil size res S h hsize hfuel
    omega
  | succ fuel ih =>
    intro ceil size res S h hsize hfuel hbytes
    by_cases hend : size = defByteArrayCeil * 2 ^ k
    · have hceil : ceil = size := by
        have hfits := h.fits
        have hleast := h.least k hsize
        omega
      rw [charArrayLoop, if_pos (by rw [hend]), Gen.eval, Block.store,
        if_neg (by rw [h.length, hceil]; exact Nat.lt_irrefl _)]
      rfl
    · have hfirst := hbytes 0 (by omega)
      rw [charArrayLoop_round h hmemory (by simp; omega), if_neg hfirst]
      refine ih (h.pushed hfirst) (by omega) (by omega) fun i hi => ?_
      rw [byteAt_succ]
      exact hbytes (i + 1) (by omega)

end

/-- **When the generator of character arrays stays inside its block and its bound**: unless the
bound is one above a capacity and no zero byte comes before it. -/
theorem char_array_safe_iff {memory : Nat → Bool} {maxLength : Option Nat} {S : Nat → Bool}
    (hmemory : ∀ n, memory n = true) (hmax : maxLength ≠ some 0) (hzero : ∃ n, byteAt S n = 0) :
    CharArraySafe memory maxLength S ↔
      ¬ ∃ k, maxLength = some (defByteArrayCeil * 2 ^ k + 1) ∧
        ∀ i < defByteArrayCeil * 2 ^ k, byteAt S i ≠ 0 := by
  have hstart : ∀ fuel, charArrayAlloc memory maxLength fuel =
      charArrayLoop memory maxLength fuel defByteArrayCeil 0 (Block.malloc defByteArrayCeil) := by
    intro fuel
    rw [charArrayAlloc, if_neg hmax, if_neg (by simp [hmemory])]
  constructor
  · rintro ⟨least, hsafe⟩ ⟨k, rfl, hbytes⟩
    obtain ⟨out, len, heval, -⟩ := hsafe (least + defByteArrayCeil * 2 ^ k + 1) (by omega)
    rw [hstart, charArrayLoop_overruns hmemory _ grown_start (Nat.zero_le _) (by omega)
      (by simpa using hbytes)] at heval
    cases heval
  · intro hbound
    obtain ⟨n, hn⟩ := hzero
    refine ⟨n + 1, fun fuel hfuel => ?_⟩
    rw [hstart]
    refine charArrayLoop_safe hmemory fuel grown_start (show n < fuel by omega) hn ?_ ?_
    · rintro bound rfl
      simp only [ne_eq, Option.some.injEq] at hmax
      omega
    · intro k hk
      by_contra hnone
      refine hbound ⟨k, hk, fun i hi hbyte => hnone ⟨i, by omega, hbyte⟩⟩

theorem byteAt_eq_zero {S : Nat → Bool} {i : Nat} (h : ∀ j, 8 * i ≤ j → S j = false) :
    byteAt S i = 0 := by
  apply BitVec.eq_of_getLsbD_eq
  intro j hj
  rw [byteAt, BitVec.getLsbD_setWidth, Gen.answer, getLsbD_ofBits, h _ (by omega)]
  simp

/-- Twelve bytes 0xff, then zeros, and a bound of 17: the block grows once. -/
theorem char_array_safe_twelve :
    CharArraySafe (fun _ => true) (some 17) fun i => decide (i < 96) := by
  have hend : byteAt (fun i => decide (i < 96)) 12 = 0 :=
    byteAt_eq_zero fun j hj => decide_eq_false (by omega)
  refine (char_array_safe_iff (fun _ => rfl) (by decide) ⟨12, hend⟩).mpr ?_
  rintro ⟨k, hk, hbytes⟩
  simp only [Option.some.injEq] at hk
  exact hbytes 12 (by omega) hend

/-- Eight bytes 0xff, and a bound of 9. -/
theorem char_array_overruns : ¬ CharArraySafe (fun _ => true) (some 9) fun i => decide (i < 64) := by
  rintro ⟨least, hsafe⟩
  obtain ⟨out, len, heval, -⟩ := hsafe (least + 9) (by omega)
  have hbytes : ∀ i, 0 + i < defByteArrayCeil * 2 ^ 0 →
      byteAt (fun i => decide (i < 64)) i ≠ 0 := by
    intro i hi
    apply byteAt_ne_zero
    change 0 + i < 8 at hi
    exact decide_eq_true (by omega)
  have hfails := charArrayLoop_overruns (fun _ => rfl) (k := 0) (least + 9)
    grown_start (Nat.zero_le _) (by unfold defByteArrayCeil; omega) hbytes
  rw [charArrayAlloc, if_neg (by decide), if_neg (by decide)] at heval
  cases heval.symm.trans hfails

end Theft
