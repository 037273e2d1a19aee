import Mathlib.Algebra.Order.Ring.Nat
import Mathlib.Algebra.Order.Ring.Int
import Mathlib.Order.Defs.Unbundled

/-!
# Reasoning about stateful programs that may stop

Programs are `EStateM ε σ α`: they return a value in a new state or stop with an
`ε`, and the state they stopped in is kept, so a statement about stopped runs is a
statement about every prefix of a run.

* `Spec P m Q E`: what holds after `m`, returned or stopped, with its rules;
* `Effect R m`: the change `m` makes lies in a preorder `R`, returned or stopped;
* `Yields m P`: whatever `m` returns is in `P`;
* `Settles e P m Q`: with enough fuel the programs `m` come to one end, which is not `e`.
-/

namespace Exec

variable {ε σ α β : Type}

/-- The state a program ended in, returned or stopped. -/
def final (m : EStateM ε σ α) (s : σ) : σ :=
  match m s with
  | .ok _ s' => s'
  | .error _ s' => s'

/-- The result of a program that has a result in one piece, without the state of its caller. -/
def attempt (x : Except ε α) : EStateM ε σ α := fun s =>
  match x with
  | .ok a => .ok a s
  | .error e => .error e s

/-- An assertion of the program. -/
def require (c : Prop) [Decidable c] (e : ε) : EStateM ε σ Unit := if c then pure () else throw e

/-- A program on one component of the state. -/
def zoom {τ : Type} (get : σ → τ) (put : τ → σ → σ) (m : EStateM ε τ α) : EStateM ε σ α :=
  fun s =>
    match m (get s) with
    | .ok a t => .ok a (put t s)
    | .error e t => .error e (put t s)

theorem bind_apply (m : EStateM ε σ α) (f : α → EStateM ε σ β) (s : σ) :
    (m >>= f) s = match m s with
      | .ok a s' => f a s'
      | .error e s' => .error e s' := rfl

theorem bind_of_ok {m : EStateM ε σ α} {f : α → EStateM ε σ β} {s t : σ} {a : α}
    (h : m s = .ok a t) : (m >>= f) s = f a t := by
  rw [bind_apply, h]

theorem bind_of_error {m : EStateM ε σ α} {f : α → EStateM ε σ β} {s t : σ} {e : ε}
    (h : m s = .error e t) : (m >>= f) s = .error e t := by
  rw [bind_apply, h]

/-- A sequence returns when its first part returns and its rest returns from there. -/
theorem bind_eq_ok {m : EStateM ε σ α} {f : α → EStateM ε σ β} {s t : σ} {b : β} :
    (m >>= f) s = .ok b t ↔ ∃ a u, m s = .ok a u ∧ f a u = .ok b t := by
  constructor
  · intro h
    rw [bind_apply] at h
    cases hm : m s with
    | ok a u => rw [hm] at h; exact ⟨a, u, rfl, h⟩
    | error e u => rw [hm] at h; cases h
  · rintro ⟨a, u, ha, hf⟩
    rw [bind_apply, ha]
    exact hf

theorem attempt_eq_ok {x : Except ε α} {a : α} {s t : σ} :
    (attempt x : EStateM ε σ α) s = .ok a t ↔ x = .ok a ∧ s = t := by
  cases x with
  | ok b => simp [attempt]
  | error e => simp [attempt]

/-- A test of what a run returned. A run that stopped fails it. -/
def passes (p : α → σ → Bool) : EStateM.Result ε σ α → Bool
  | .ok a s => p a s
  | .error _ _ => false

theorem of_passes {p : α → σ → Bool} {x : EStateM.Result ε σ α} (h : passes p x = true) :
    ∃ a s, x = .ok a s ∧ p a s = true := by
  cases x with
  | ok a s => exact ⟨a, s, rfl, h⟩
  | error e s => cases h

@[simp] theorem pure_apply (a : α) (s : σ) : (pure a : EStateM ε σ α) s = .ok a s := rfl

@[simp] theorem get_apply (s : σ) : (get : EStateM ε σ σ) s = .ok s s := rfl

@[simp] theorem set_apply (s t : σ) : (set t : EStateM ε σ PUnit) s = .ok ⟨⟩ t := rfl

@[simp] theorem modify_apply (f : σ → σ) (s : σ) :
    (modify f : EStateM ε σ PUnit) s = .ok ⟨⟩ (f s) := rfl

@[simp] theorem throw_apply (e : ε) (s : σ) : (throw e : EStateM ε σ α) s = .error e s := rfl

theorem final_get_bind (f : σ → EStateM ε σ β) (s : σ) :
    final (get >>= f) s = final (f s) s := rfl

theorem final_zoom {τ : Type} (get : σ → τ) (put : τ → σ → σ) (m : EStateM ε τ α) (s : σ) :
    final (zoom get put m) s = put (final m (get s)) s := by
  unfold final Exec.zoom
  cases m (get s) <;> rfl

theorem final_modify_bind (f : σ → σ) (g : PUnit → EStateM ε σ β) (s : σ) :
    final (modify f >>= g) s = final (g ⟨⟩) (f s) := rfl

/-! ## Pre- and postconditions -/

/-- From a state in `P` the program returns into `Q` or stops in `E`. -/
def Spec (P : σ → Prop) (m : EStateM ε σ α) (Q : α → σ → Prop) (E : ε → σ → Prop) : Prop :=
  ∀ s, P s → match m s with
    | .ok a s' => Q a s'
    | .error e s' => E e s'

namespace Spec
variable {P P' : σ → Prop} {m : EStateM ε σ α} {Q Q' : α → σ → Prop} {E E' : ε → σ → Prop}

theorem returned (h : Spec P m Q E) {s s' : σ} {a : α} (hp : P s) (hm : m s = .ok a s') :
    Q a s' := by
  have := h s hp
  rwa [hm] at this

theorem stopped (h : Spec P m Q E) {s s' : σ} {e : ε} (hp : P s) (hm : m s = .error e s') :
    E e s' := by
  have := h s hp
  rwa [hm] at this

/-- What holds of every end holds of the one that the program came to. -/
theorem final (h : Spec P m Q E) {R : σ → Prop} (hQ : ∀ a s, Q a s → R s)
    (hE : ∀ e s, E e s → R s) {s : σ} (hp : P s) : R (final m s) := by
  have := h s hp
  unfold Exec.final
  cases hm : m s with
  | ok a s' => rw [hm] at this; exact hQ a s' this
  | error e s' => rw [hm] at this; exact hE e s' this

theorem mono (h : Spec P m Q E) (hP : ∀ s, P' s → P s) (hQ : ∀ a s, Q a s → Q' a s)
    (hE : ∀ e s, E e s → E' e s) : Spec P' m Q' E' := by
  intro s hp
  have := h s (hP s hp)
  cases hm : m s with
  | ok a s' => rw [hm] at this; exact hQ a s' this
  | error e s' => rw [hm] at this; exact hE e s' this

/-- What every returned run satisfies holds besides the postcondition. -/
theorem also (h : Spec P m Q E) {F : α → σ → Prop}
    (hF : ∀ s a t, P s → m s = .ok a t → F a t) : Spec P m (fun a s => Q a s ∧ F a s) E := by
  intro s hp
  have := h s hp
  cases hm : m s with
  | ok a s' => rw [hm] at this; exact ⟨this, hF s a s' hp hm⟩
  | error e s' => rw [hm] at this; exact this

theorem pure {a : α} (h : ∀ s, P s → Q a s) : Spec P (pure a) Q E := fun s hp => h s hp

theorem bind {f : α → EStateM ε σ β} {R : β → σ → Prop} (hm : Spec P m Q E)
    (hf : ∀ a, Spec (Q a) (f a) R E) : Spec P (m >>= f) R E := by
  intro s hp
  have := hm s hp
  rw [bind_apply]
  cases h : m s with
  | ok a s' => rw [h] at this; exact hf a s' this
  | error e s' => rw [h] at this; exact this

theorem get {Q : σ → σ → Prop} (h : ∀ s, P s → Q s s) : Spec P get Q E := fun s hp => h s hp

theorem modify {f : σ → σ} {Q : PUnit → σ → Prop} (h : ∀ s, P s → Q ⟨⟩ (f s)) :
    Spec P (modify f) Q E := fun s hp => h s hp

theorem require {c : Prop} [Decidable c] {e : ε} {Q : Unit → σ → Prop} (hc : c)
    (h : ∀ s, P s → Q () s) : Spec P (require c e) Q E := by
  rw [Exec.require, if_pos hc]
  exact h

theorem attempt {x : Except ε α} {a : α} (hx : x = .ok a) (h : ∀ s, P s → Q a s) :
    Spec P (attempt x) Q E := by
  rw [hx]
  exact h

theorem zoom {τ : Type} {get : σ → τ} {put : τ → σ → σ} {m : EStateM ε τ α}
    (h : ∀ s, P s → Spec (fun t => t = get s) m (fun a t => Q a (put t s))
      fun e t => E e (put t s)) : Spec P (zoom get put m) Q E := by
  intro s hp
  have hm := h s hp (get s) rfl
  unfold Exec.zoom
  cases hrun : m (get s) with
  | ok a t => rw [hrun] at hm; exact hm
  | error e t => rw [hrun] at hm; exact hm

theorem throw {e : ε} (h : ∀ s, P s → E e s) : Spec P (throw e) Q E := fun s hp => h s hp

end Spec

/-! ## The change a program makes -/

/-- The state after the program, returned or stopped, is related to the state before. -/
structure Effect (R : σ → σ → Prop) (m : EStateM ε σ α) : Prop where
  change : ∀ s, R s (final m s)

/-- An assertion that is kept, as a change -/
def Keeping (I : σ → Prop) (s t : σ) : Prop := I s → I t

instance keeping_preorder (I : σ → Prop) : IsPreorder σ (Keeping I) where
  refl _ := id
  trans _ _ _ h₁ h₂ := h₂ ∘ h₁

namespace Effect
variable {R R' : σ → σ → Prop} {m : EStateM ε σ α}

theorem of_returned (h : Effect R m) {s s' : σ} {a : α} (hm : m s = .ok a s') : R s s' := by
  have := h.change s
  simpa only [final, hm] using this

theorem mono (h : Effect R m) (hR : ∀ s t, R s t → R' s t) : Effect R' m :=
  ⟨fun s => hR _ _ (h.change s)⟩

theorem modify {f : σ → σ} (h : ∀ s, R s (f s)) :
    Effect R (modify f : EStateM ε σ PUnit) := ⟨h⟩

theorem zoom {τ : Type} {get : σ → τ} {put : τ → σ → σ} {m : EStateM ε τ α}
    (h : ∀ s, R s (put (final m (get s)) s)) : Effect R (zoom get put m) := by
  constructor
  intro s
  rw [final_zoom]
  exact h s

/-- What holds before and is closed under the program's changes holds after. -/
theorem keeps (h : Effect R m) {I : σ → Prop} (hI : ∀ s t, I s → R s t → I t) :
    Spec I m (fun _ => I) (fun _ => I) := by
  intro s hs
  have h₁ := h.change s
  simp only [final] at h₁
  cases hm : m s with
  | ok a s' => rw [hm] at h₁; exact hI _ _ hs h₁
  | error e s' => rw [hm] at h₁; exact hI _ _ hs h₁

theorem of_spec {I : σ → Prop} (h : Spec I m (fun _ => I) fun _ => I) : Effect (Keeping I) m :=
  ⟨fun _ hs => h.final (fun _ _ ht => ht) (fun _ _ ht => ht) hs⟩

theorem to_spec {I : σ → Prop} (h : Effect (Keeping I) m) : Spec I m (fun _ => I) fun _ => I :=
  h.keeps fun _ _ hs hst => hst hs

variable [IsPreorder σ R]

theorem pure (a : α) : Effect R (pure a : EStateM ε σ α) := ⟨fun s => Std.Refl.refl s⟩

theorem get : Effect R (get : EStateM ε σ σ) := ⟨fun s => Std.Refl.refl s⟩

theorem throw (e : ε) : Effect R (throw e : EStateM ε σ α) := ⟨fun s => Std.Refl.refl s⟩

theorem attempt (x : Except ε α) : Effect R (attempt x : EStateM ε σ α) := by
  constructor
  intro s
  cases x <;> exact Std.Refl.refl s

theorem require {c : Prop} [Decidable c] {e : ε} :
    Effect R (require c e : EStateM ε σ Unit) := by
  unfold Exec.require
  split
  · exact pure ()
  · exact throw e

/-- The rule for sequences, from one state. -/
theorem bind_at {f : α → EStateM ε σ β} {s : σ} (hm : R s (final m s))
    (hf : ∀ a, Effect R (f a)) : R s (final (m >>= f) s) := by
  simp only [final, bind_apply] at hm ⊢
  cases h : m s with
  | ok a s' =>
    rw [h] at hm
    exact IsTrans.trans _ _ _ hm ((hf a).change s')
  | error e s' => rw [h] at hm; exact hm

theorem bind {f : α → EStateM ε σ β} (hm : Effect R m) (hf : ∀ a, Effect R (f a)) :
    Effect R (m >>= f) := ⟨fun s => bind_at (hm.change s) hf⟩

end Effect

/-! ## Returned values -/

/-- Whatever the program returns is in `P`. -/
structure Yields (m : EStateM ε σ α) (P : α → Prop) : Prop where
  returned : ∀ {s a t}, m s = .ok a t → P a

namespace Yields
variable {m : EStateM ε σ α} {P Q : α → Prop}

theorem mono (h : Yields m P) (hP : ∀ a, P a → Q a) : Yields m Q :=
  ⟨fun hrun => hP _ (h.returned hrun)⟩

theorem pure {a : α} (h : P a) : Yields (pure a : EStateM ε σ α) P := by
  constructor
  intro s b t hrun
  cases hrun
  exact h

theorem throw (e : ε) : Yields (throw e : EStateM ε σ α) P := by
  constructor
  intro s b t hrun
  cases hrun

theorem attempt {x : Except ε α} (h : ∀ a, x = .ok a → P a) :
    Yields (attempt x : EStateM ε σ α) P := by
  constructor
  intro s b t hrun
  cases x with
  | ok a =>
    cases hrun
    exact h _ rfl
  | error e => cases hrun

theorem bind {f : α → EStateM ε σ β} {R : β → Prop} (hm : Yields m P)
    (hf : ∀ a, P a → Yields (f a) R) : Yields (m >>= f) R := by
  constructor
  intro s b t hrun
  obtain ⟨a, u, ha, hb⟩ := bind_eq_ok.mp hrun
  exact (hf a (hm.returned ha)).returned hb

/-- A first part of which nothing is known. -/
theorem after {f : α → EStateM ε σ β} {R : β → Prop} (hf : ∀ a, Yields (f a) R) :
    Yields (m >>= f) R := by
  constructor
  intro s b t hrun
  obtain ⟨a, u, -, hb⟩ := bind_eq_ok.mp hrun
  exact (hf a).returned hb

end Yields

/-! ## Enough fuel -/

/-- From a state in `P` the programs come, as their fuel grows, to one end: they return in `Q`, or
they stop for another reason than `e`, which stands for too little fuel. -/
def Settles (e : ε) (P : σ → Prop) (m : Nat → EStateM ε σ α) (Q : α → σ → Prop) : Prop :=
  ∀ s, P s → ∃ enough,
    (∃ a t, Q a t ∧ ∀ fuel, enough ≤ fuel → m fuel s = .ok a t) ∨
      ∃ e' t, e' ≠ e ∧ ∀ fuel, enough ≤ fuel → m fuel s = .error e' t

namespace Settles
variable {e : ε} {P P' : σ → Prop} {m : Nat → EStateM ε σ α} {Q Q' : α → σ → Prop}

/-- A program that needs no fuel. -/
theorem const {m : EStateM ε σ α} (h : Spec P m Q fun e' _ => e' ≠ e) :
    Settles e P (fun _ => m) Q := by
  intro s hs
  have hm := h s hs
  refine ⟨0, ?_⟩
  cases hrun : m s with
  | ok a t =>
    rw [hrun] at hm
    exact .inl ⟨a, t, hm, fun _ _ => hrun⟩
  | error e' t =>
    rw [hrun] at hm
    exact .inr ⟨e', t, hm, fun _ _ => hrun⟩

theorem mono (h : Settles e P m Q) (hP : ∀ s, P' s → P s) (hQ : ∀ a s, Q a s → Q' a s) :
    Settles e P' m Q' := by
  intro s hs
  obtain ⟨enough, ⟨a, t, ha, hrun⟩ | hstop⟩ := h s (hP s hs)
  · exact ⟨enough, .inl ⟨a, t, hQ a t ha, hrun⟩⟩
  · exact ⟨enough, .inr hstop⟩

/-- One unit of fuel is spent before anything else. -/
theorem step (h : Settles e P (fun fuel => m (fuel + 1)) Q) : Settles e P m Q := by
  intro s hs
  obtain ⟨enough, ⟨a, t, ha, hrun⟩ | ⟨e', t, he, hrun⟩⟩ := h s hs
  · refine ⟨enough + 1, .inl ⟨a, t, ha, fun fuel hfuel => ?_⟩⟩
    obtain ⟨left, rfl⟩ := Nat.exists_eq_add_of_le' (Nat.le_trans (Nat.le_add_left 1 enough) hfuel)
    exact hrun left (Nat.le_of_succ_le_succ hfuel)
  · refine ⟨enough + 1, .inr ⟨e', t, he, fun fuel hfuel => ?_⟩⟩
    obtain ⟨left, rfl⟩ := Nat.exists_eq_add_of_le' (Nat.le_trans (Nat.le_add_left 1 enough) hfuel)
    exact hrun left (Nat.le_of_succ_le_succ hfuel)

/-- Programs that have some more fuel than they are given. -/
theorem more (h : Settles e P m Q) : Settles e P (fun fuel => m (fuel + 1)) Q := by
  intro s hs
  obtain ⟨enough, ⟨a, t, ha, hrun⟩ | ⟨e', t, he, hrun⟩⟩ := h s hs
  · exact ⟨enough, .inl ⟨a, t, ha, fun fuel hfuel => hrun _ (Nat.le_succ_of_le hfuel)⟩⟩
  · exact ⟨enough, .inr ⟨e', t, he, fun fuel hfuel => hrun _ (Nat.le_succ_of_le hfuel)⟩⟩

/-- What holds of every return holds of the one that the programs come to. -/
theorem also (h : Settles e P m Q) {E : ε → σ → Prop} (hm : ∀ fuel, Spec P' (m fuel) Q' E) :
    Settles e (fun s => P s ∧ P' s) m fun a s => Q a s ∧ Q' a s := by
  intro s ⟨hs, hs'⟩
  obtain ⟨enough, ⟨a, t, ha, hrun⟩ | hstop⟩ := h s hs
  · have ha' := (hm enough).returned hs' (hrun enough (Nat.le_refl _))
    exact ⟨enough, .inl ⟨a, t, ⟨ha, ha'⟩, hrun⟩⟩
  · exact ⟨enough, .inr hstop⟩

theorem bind {f : Nat → α → EStateM ε σ β} {R : β → σ → Prop} (hm : Settles e P m Q)
    (hf : ∀ a, Settles e (Q a) (fun fuel => f fuel a) R) :
    Settles e P (fun fuel => m fuel >>= f fuel) R := by
  intro s hs
  obtain ⟨enough, ⟨a, t, ha, hrun⟩ | ⟨e', t, he, hrun⟩⟩ := hm s hs
  · obtain ⟨enough', hrest⟩ := hf a t ha
    have hstep : ∀ fuel, max enough enough' ≤ fuel → (m fuel >>= f fuel) s = f fuel a t := by
      intro fuel hfuel
      rw [bind_apply, hrun fuel (Nat.le_trans (Nat.le_max_left _ _) hfuel)]
    refine ⟨max enough enough', ?_⟩
    obtain ⟨b, u, hb, hrun'⟩ | ⟨e', u, he, hrun'⟩ := hrest
    · refine .inl ⟨b, u, hb, fun fuel hfuel => ?_⟩
      exact (hstep fuel hfuel).trans (hrun' fuel (Nat.le_trans (Nat.le_max_right _ _) hfuel))
    · refine .inr ⟨e', u, he, fun fuel hfuel => ?_⟩
      exact (hstep fuel hfuel).trans (hrun' fuel (Nat.le_trans (Nat.le_max_right _ _) hfuel))
  · refine ⟨enough, .inr ⟨e', t, he, fun fuel hfuel => ?_⟩⟩
    show (m fuel >>= f fuel) s = _
    rw [bind_apply, hrun fuel hfuel]

/-- The state is read, and the programs go on from the same state. -/
theorem getThen {f : Nat → σ → EStateM ε σ β} {R : β → σ → Prop}
    (hf : ∀ s, P s → Settles e (fun t => t = s) (fun fuel => f fuel s) R) :
    Settles e P (fun fuel => MonadState.get >>= f fuel) R := fun s hs => hf s hs s rfl

theorem zoom {τ : Type} {get : σ → τ} {put : τ → σ → σ} {m : Nat → EStateM ε τ α}
    (h : ∀ s, P s → Settles e (fun t => t = get s) m fun a t => Q a (put t s)) :
    Settles e P (fun fuel => zoom get put (m fuel)) Q := by
  intro s hs
  obtain ⟨enough, ⟨a, t, ha, hrun⟩ | ⟨e', t, he, hrun⟩⟩ := h s hs (get s) rfl
  · refine ⟨enough, .inl ⟨a, put t s, ha, fun fuel hfuel => ?_⟩⟩
    simp only [Exec.zoom, hrun fuel hfuel]
  · refine ⟨enough, .inr ⟨e', put t s, he, fun fuel hfuel => ?_⟩⟩
    simp only [Exec.zoom, hrun fuel hfuel]

end Settles

end Exec
