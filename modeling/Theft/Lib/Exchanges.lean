import Mathlib.Logic.Function.Basic
import Mathlib.Logic.Relation

/-!
# Exchanging one member at a time

A search among families. One member at a time is exchanged for another one that is offered for it,
as long as the family keeps what it is searched for. `member`: whatever the order of exchanges,
each member goes its own way, by what is offered for it.
-/

namespace Exchanges

open Relation

variable {ι α : Type} [DecidableEq ι]

/-- One member is exchanged. -/
inductive Step (offers : ι → α → α → Prop) (keeps : (ι → α) → Prop) (a : ι → α) : (ι → α) → Prop
  | exchange {i x} : offers i (a i) x → keeps (Function.update a i x) →
      Step offers keeps a (Function.update a i x)

/-- A family that is found by exchanges -/
abbrev Found (offers : ι → α → α → Prop) (keeps : (ι → α) → Prop) : (ι → α) → (ι → α) → Prop :=
  ReflTransGen (Step offers keeps)

variable {offers : ι → α → α → Prop} {keeps : (ι → α) → Prop} {a b : ι → α}

theorem Step.member (h : Step offers keeps a b) (i : ι) : a i = b i ∨ offers i (a i) (b i) := by
  cases h with
  | @exchange j x hoffered _ =>
    by_cases hi : i = j
    · subst hi
      rw [Function.update_self]
      exact .inr hoffered
    · rw [Function.update_of_ne hi]
      exact .inl rfl

/-- **Each member goes its own way.** -/
theorem Found.member (h : Found offers keeps a b) (i : ι) :
    ReflTransGen (offers i) (a i) (b i) := by
  induction h with
  | refl => exact .refl
  | tail _ hstep ih =>
    obtain hsame | hoffered := hstep.member i
    · exact hsame ▸ ih
    · exact ih.tail hoffered

/-- What is searched for is kept. -/
theorem Found.kept (h : Found offers keeps a b) (ha : keeps a) : keeps b := by
  cases h with
  | refl => exact ha
  | tail _ hstep =>
    cases hstep with
    | exchange _ hkept => exact hkept

/-- What every offer respects, exchanges do. -/
theorem Found.respects {related : α → α → Prop} [IsPreorder α related] {i : ι}
    (hoffers : ∀ x y, offers i x y → related x y) (h : Found offers keeps a b) :
    related (a i) (b i) := by
  have hmember := h.member i
  generalize b i = y at hmember
  induction hmember with
  | refl => exact Std.Refl.refl _
  | tail _ hoffered ih => exact IsTrans.trans _ _ _ ih (hoffers _ _ hoffered)

end Exchanges
