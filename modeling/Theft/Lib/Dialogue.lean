import Theft.Lib.Exec

/-!
# Dialogues between a program and its environment

A program asks its environment questions and waits for each answer. A `Protocol` tells which
questions it may ask in which phase, and where the answers lead:

* `Admits`: the events of a dialogue lead to a phase; `Admits.invariant` is its induction;
* `Follows`: the same for a dialogue that may be broken off before an answer;
* `At`: what a program's state has to do with a phase, with rules for the parts of programs.

Events are listed newest first.
-/

namespace Dialogue

open Exec

/-- What may happen in each phase: a silent step; a notice, to which there is no answer; and a
question with its answer. -/
structure Protocol (P E : Type) where
  start : P
  Silent : P → P → Prop
  Notice : P → E → P → Prop
  Exchange : P → E → E → P → Prop

section
variable {P E : Type} (protocol : Protocol P E)

/-- The events may lead to the phase. -/
inductive Admits : List E → P → Prop
  | start : Admits [] protocol.start
  | silent {events : List E} {p q : P} :
      Admits events p → protocol.Silent p q → Admits events q
  | notice {events : List E} {p q : P} {event : E} :
      Admits events p → protocol.Notice p event q → Admits (event :: events) q
  | exchange {events : List E} {p q : P} {question answer : E} :
      Admits events p → protocol.Exchange p question answer q →
        Admits (answer :: question :: events) q

/-- The events follow the protocol, up to a question that was not answered. -/
inductive Follows : List E → Prop
  | settled {events : List E} {p : P} : Admits protocol events p → Follows events
  | asking {events : List E} {p q : P} {question answer : E} :
      Admits protocol events p → protocol.Exchange p question answer q →
        Follows (question :: events)

variable {protocol} {Inv : List E → P → Prop}

/-- What holds at the start and is kept by every step holds of all dialogues. -/
theorem Admits.invariant (hstart : Inv [] protocol.start)
    (hsilent : ∀ events p q, Inv events p → protocol.Silent p q → Inv events q)
    (hnotice : ∀ events p event q, Inv events p → protocol.Notice p event q →
      Inv (event :: events) q)
    (hexchange : ∀ events p question answer q, Inv events p →
      protocol.Exchange p question answer q → Inv (answer :: question :: events) q)
    {events : List E} {p : P} (h : Admits protocol events p) : Inv events p := by
  induction h with
  | start => exact hstart
  | silent _ hstep ih => exact hsilent _ _ _ ih hstep
  | notice _ hstep ih => exact hnotice _ _ _ _ ih hstep
  | exchange _ hstep ih => exact hexchange _ _ _ _ _ ih hstep

/-- What holds of the events of every dialogue, and of what came before, holds of a dialogue that
was broken off. -/
theorem Follows.of_admits {Q : List E → Prop}
    (hadmits : ∀ events p, Admits protocol events p → Q events)
    (hpast : ∀ event events, Q (event :: events) → Q events) {events : List E}
    (h : Follows protocol events) : Q events := by
  cases h with
  | settled h => exact hadmits _ _ h
  | asking h hstep => exact hpast _ _ (hadmits _ _ (h.exchange hstep))

end

/-! ## Programs -/

section
variable {ε σ α β S V E : Type}

/-- A program's state as its environment knows it: the events so far, and a view of its data. -/
structure Speaker (σ V E : Type) where
  log : σ → List E
  view : σ → V

/-- The same events and the same view. -/
structure Speaker.Unseen (speaker : Speaker σ V E) (s t : σ) : Prop where
  log : speaker.log t = speaker.log s
  view : speaker.view t = speaker.view s

instance (speaker : Speaker σ V E) : IsPreorder σ speaker.Unseen where
  refl _ := ⟨rfl, rfl⟩
  trans _ _ _ h₁ h₂ := ⟨h₂.log.trans h₁.log, h₂.view.trans h₁.view⟩

variable (protocol : Protocol (S × V) E) (speaker : Speaker σ V E)

/-- The state has a view, and its events lead to a stage with that view. -/
structure At (stage : S) (v : V) (s : σ) : Prop where
  view : speaker.view s = v
  admits : Admits protocol (speaker.log s) (stage, v)

/-- The program stopped within a dialogue. -/
def Broken (_ : ε) (s : σ) : Prop := Follows protocol (speaker.log s)

variable {protocol speaker} {stage stage' : S} {v v' : V} {Q : α → σ → Prop}

theorem At.follows {s : σ} (h : At protocol speaker stage v s) :
    Follows protocol (speaker.log s) := .settled h.admits

theorem At.silent {s : σ} (h : At protocol speaker stage v s)
    (hstep : protocol.Silent (stage, v) (stage', v)) : At protocol speaker stage' v s :=
  ⟨h.view, h.admits.silent hstep⟩

/-- A program that the environment sees nothing of. -/
theorem Speaker.Unseen.keeps {m : EStateM ε σ α} (h : Effect speaker.Unseen m) :
    Spec (At protocol speaker stage v) m (fun _ => At protocol speaker stage v)
      (Broken protocol speaker) := by
  have step : ∀ s t, At protocol speaker stage v s → speaker.Unseen s t →
      At protocol speaker stage v t :=
    fun s t hs hst => ⟨hst.view.trans hs.view, hst.log ▸ hs.admits⟩
  exact (h.keeps step).mono (fun _ h => h) (fun _ _ h => h) fun _ _ h => h.follows

/-- A silent step of the protocol before the program. -/
theorem At.before {m : EStateM ε σ α} {E' : ε → σ → Prop}
    (hstep : protocol.Silent (stage, v) (stage', v))
    (hm : Spec (At protocol speaker stage' v) m Q E') :
    Spec (At protocol speaker stage v) m Q E' :=
  hm.mono (fun _ h => h.silent hstep) (fun _ _ h => h) fun _ _ h => h

/-- A change of the data that the protocol makes too. -/
theorem At.change {f : σ → σ} (hlog : ∀ s, speaker.log (f s) = speaker.log s)
    (hview : ∀ s, speaker.view s = v → speaker.view (f s) = v')
    (hstep : protocol.Silent (stage, v) (stage', v')) :
    Spec (At protocol speaker stage v) (modify f : EStateM ε σ PUnit)
      (fun _ => At protocol speaker stage' v') (Broken protocol speaker) :=
  Spec.modify fun s hs => ⟨hview s hs.view, (hlog s).symm ▸ hs.admits.silent hstep⟩

/-- A notice in the log. -/
theorem At.notice {event : E} {f : σ → σ} (hlog : ∀ s, speaker.log (f s) = event :: speaker.log s)
    (hview : ∀ s, speaker.view (f s) = speaker.view s)
    (hstep : protocol.Notice (stage, v) event (stage', v)) :
    Spec (At protocol speaker stage v) (modify f : EStateM ε σ PUnit)
      (fun _ => At protocol speaker stage' v) (Broken protocol speaker) :=
  Spec.modify fun s hs => ⟨(hview s).trans hs.view, (hlog s).symm ▸ hs.admits.notice hstep⟩

end

end Dialogue
