import Theft.Lib.Exec

/-!
# A program seen through a map of its states

Two programs agree through a map `f : σ → τ` when the second one does to `f s` what the first one
does to `s`: whatever `f` hides has no part in what the second one does.

* `seen f g`: a result, with `f` of the state and `g` of the value;
* `Mirrors f g m m'`, with its rules; a part that `f` hides is left out by `skip`.
-/

namespace Exec

variable {ε σ τ α β γ δ : Type}

def seen (f : σ → τ) (g : α → β) : EStateM.Result ε σ α → EStateM.Result ε τ β
  | .ok a s => .ok (g a) (f s)
  | .error e s => .error e (f s)

/-- `m'` does to what is seen of a state what `m` does to the state. -/
structure Mirrors (f : σ → τ) (g : α → β) (m : EStateM ε σ α) (m' : EStateM ε τ β) : Prop where
  run : ∀ s, m' (f s) = seen f g (m s)

namespace Mirrors
variable {f : σ → τ} {g : α → β} {h : γ → δ} {m : EStateM ε σ α} {m' : EStateM ε τ β}

theorem pure {a : α} {b : β} (hb : b = g a) :
    Mirrors f g (pure a : EStateM ε σ α) (pure b : EStateM ε τ β) :=
  ⟨fun s => by rw [pure_apply, pure_apply, hb, seen]⟩

theorem same (a : α) : Mirrors f id (Pure.pure a : EStateM ε σ α) (Pure.pure a : EStateM ε τ α) :=
  pure rfl

theorem throw (e : ε) : Mirrors f g (throw e : EStateM ε σ α) (throw e : EStateM ε τ β) :=
  ⟨fun _ => rfl⟩

theorem get : Mirrors f f (get : EStateM ε σ σ) (get : EStateM ε τ τ) := ⟨fun _ => rfl⟩

theorem modify {c : σ → σ} {c' : τ → τ} (hc : ∀ s, c' (f s) = f (c s)) :
    Mirrors f id (modify c : EStateM ε σ PUnit) (modify c' : EStateM ε τ PUnit) := by
  constructor
  intro s
  rw [modify_apply, modify_apply, hc]
  rfl

theorem set {t : σ} {t' : τ} (ht : t' = f t) :
    Mirrors f id (set t : EStateM ε σ PUnit) (set t' : EStateM ε τ PUnit) := by
  constructor
  intro s
  rw [set_apply, set_apply, ht]
  rfl

theorem attempt (x : Except ε α) :
    Mirrors f id (attempt x : EStateM ε σ α) (attempt x : EStateM ε τ α) := by
  constructor
  intro s
  cases x <;> rfl

theorem require {c : Prop} [Decidable c] (e : ε) :
    Mirrors f id (require c e : EStateM ε σ Unit) (require c e : EStateM ε τ Unit) := by
  unfold Exec.require
  split
  · exact same ()
  · exact throw e

theorem bind {k : α → EStateM ε σ γ} {k' : β → EStateM ε τ δ} (hm : Mirrors f g m m')
    (hk : ∀ a, Mirrors f h (k a) (k' (g a))) : Mirrors f h (m >>= k) (m' >>= k') := by
  constructor
  intro s
  rw [bind_apply, bind_apply, hm.run s]
  cases m s with
  | ok a t => exact (hk a).run t
  | error e t => rfl

/-- The rule for sequences whose first parts return the same. -/
theorem andThen {m' : EStateM ε τ α} {k : α → EStateM ε σ γ} {k' : α → EStateM ε τ δ}
    (hm : Mirrors f id m m') (hk : ∀ a, Mirrors f h (k a) (k' a)) :
    Mirrors f h (m >>= k) (m' >>= k') := hm.bind hk

/-- A program that always returns the same and changes nothing that is seen -/
theorem skip {a : α} {b : β} (hb : b = g a) (hm : ∀ s, ∃ t, m s = .ok a t ∧ f t = f s) :
    Mirrors f g m (Pure.pure b) := by
  constructor
  intro s
  obtain ⟨t, hrun, ht⟩ := hm s
  rw [pure_apply, hrun, seen, ht, hb]

theorem zoom {υ υ' : Type} {p : υ → υ'} {inner : EStateM ε υ α} {inner' : EStateM ε υ' β}
    {read : σ → υ} {read' : τ → υ'} {put : υ → σ → σ} {put' : υ' → τ → τ}
    (hinner : Mirrors p g inner inner') (hread : ∀ s, read' (f s) = p (read s))
    (hput : ∀ u s, put' (p u) (f s) = f (put u s)) :
    Mirrors f g (zoom read put inner) (zoom read' put' inner') := by
  constructor
  intro s
  unfold Exec.zoom
  rw [hread, hinner.run]
  cases inner (read s) with
  | ok a u => exact congrArg (EStateM.Result.ok (g a)) (hput u s)
  | error e u => exact congrArg (EStateM.Result.error e) (hput u s)

end Mirrors

end Exec
