import Theft.TrialBooks

/-!
# How errors get through

* `Calm`: no callback and no hook has answered an error;
* `Clash`: an error met a `shrink_post` hook, or its call was run again, so that it is lost;
* `Heeds`: a program answers an error as soon as one is answered to it, unless there is a clash;
* `Quits`: what a program does after an error, where it may not stop.
-/

namespace Theft

open PackedBits Exec

section
variable {R I σ : Type} {n : Nat} {α β : Type}

/-! ## Errors -/

/-- An answer that is an error. -/
def Event.isError : Event I n → Bool
  | .allocated .error _ | .shrunk .error _ | .returned .error | .runPreRes .error
  | .runPostRes .error | .genArgsPreRes .error | .trialPreRes .error | .trialPostRes .error
  | .counterexampleRes .error | .shrinkPreRes .error | .shrinkPostRes .error
  | .shrinkTrialPostRes .error => true
  | _ => false

/-- `alloc` or `shrink` answered an error. -/
def Event.refuses : Event I n → Bool
  | .allocated .error _ | .shrunk .error _ => true
  | _ => false

/-- The hook asks for one more call. -/
def HookShrinkTrialPostRes.again (rerun : Bool) : HookShrinkTrialPostRes → Bool
  | .repeat_ => true
  | .repeatOnce => !rerun
  | .cont | .error => false

/-- The events of a trial, newest first, in which an error is lost: the state that
`shrink_post_hook` reports is none of an error, and a call that is run again has its result
overwritten. An answer of `alloc` or `shrink` after a call is one of a shrinking step. -/
inductive Clash (r : Runner I σ n) : List (Event I n) → Prop where
  | shrinkPost {newer older : List (Event I n)} {e c : Event I n} : r.hooks.shrinkPost.isSome →
      e.refuses = true → c ∈ older → c.kind = .call → Clash r (newer ++ e :: older)
  | again {newer older : List (Event I n)} {answer : HookShrinkTrialPostRes}
      {info : ShrinkTrialPostInfo I n} {args : Args I n} {held : Fin n → ArgInfo I} {rerun : Bool} :
      answer.again rerun = true →
      Clash r (newer ++ .shrinkTrialPostRes answer :: .shrinkTrialPost info ::
        .returned .error :: .call args held rerun :: older)

/-- An error was answered. -/
def Loud (s : RunState R I σ n) : Prop := ∃ e ∈ s.trace, e.isError = true

/-- Since `base` an error was lost. -/
def Clashed (r : Runner I σ n) (base : List (Event I n)) (s : RunState R I σ n) : Prop :=
  ∃ new, s.trace = new ++ base ∧ Clash r new

/-- No error was answered. When the trial is `called`, the property was called since `base`. -/
structure Calm (base : List (Event I n)) (called : Prop) (s : RunState R I σ n) : Prop where
  noPool : s.prng.bitPool = none
  trace : ∃ new, s.trace = new ++ base ∧ (called → ∃ c ∈ new, c.kind = .call)
  quiet : ¬ Loud s

variable {r : Runner I σ n} {base : List (Event I n)} {called : Prop} {s t : RunState R I σ n}
  {K : List EventKind}

theorem Clash.append {new : List (Event I n)} (h : Clash r new) (newer : List (Event I n)) :
    Clash r (newer ++ new) := by
  cases h with
  | shrinkPost hhook hrefuses hc hcall =>
    rw [← List.append_assoc]
    exact .shrinkPost hhook hrefuses hc hcall
  | again hagain =>
    rw [← List.append_assoc]
    exact .again hagain

/-- The trace went on. -/
def Grows (s t : RunState R I σ n) : Prop := s.trace <:+ t.trace

instance : IsPreorder (RunState R I σ n) Grows where
  refl _ := List.suffix_rfl
  trans _ _ _ h₁ h₂ := List.IsSuffix.trans h₁ h₂

theorem Adds.grows (h : Adds K s t) : Grows s t := by
  obtain ⟨new, htrace, -⟩ := h
  exact ⟨new, htrace.symm⟩

theorem Clashed.grows (h : Clashed r base s) (hst : Grows s t) : Clashed r base t := by
  obtain ⟨new, htrace, hclash⟩ := h
  obtain ⟨newer, ht⟩ := hst
  exact ⟨newer ++ new, by rw [← ht, htrace, List.append_assoc], hclash.append newer⟩

/-- The callbacks that answer no error. -/
def quietKinds : List EventKind := [.free, .hash, .print]

theorem Event.isError_quiet {e : Event I n} (h : e.kind ∈ quietKinds) : e.isError = false := by
  cases e <;> first | rfl | simp [Event.kind, quietKinds] at h

theorem Loud.of_adds (hst : Adds quietKinds s t) (ht : Loud t) : Loud s := by
  obtain ⟨e, he, herror⟩ := ht
  obtain ⟨new, htrace, hnew⟩ := hst
  rw [htrace] at he
  obtain he | he := List.mem_append.mp he
  · rw [Event.isError_quiet (hnew e he)] at herror
    cases herror
  · exact ⟨e, he, herror⟩

theorem Calm.adds (h : Calm base called s) (hpool : t.prng.bitPool = none)
    (hst : Adds quietKinds s t) : Calm base called t := by
  obtain ⟨new, htrace, hcalled⟩ := h.trace
  refine ⟨hpool, ?_, fun ht => h.quiet (ht.of_adds hst)⟩
  obtain ⟨newer, ht, -⟩ := hst
  refine ⟨newer ++ new, by rw [ht, htrace, List.append_assoc], fun hc => ?_⟩
  obtain ⟨c, hmem, hkind⟩ := hcalled hc
  exact ⟨c, List.mem_append_right _ hmem, hkind⟩

/-- One more event that is no error. -/
theorem Loud.of_cons {e : Event I n} (he : e.isError = false) (htrace : t.trace = e :: s.trace)
    (ht : Loud t) : Loud s := by
  obtain ⟨e', he', herror⟩ := ht
  rw [htrace] at he'
  obtain rfl | he' := List.mem_cons.mp he'
  · rw [he] at herror
    cases herror
  · exact ⟨e', he', herror⟩

theorem Calm.cons (h : Calm base called s) {e : Event I n} (he : e.isError = false)
    (hpool : t.prng.bitPool = none) (htrace : t.trace = e :: s.trace) : Calm base called t := by
  obtain ⟨new, hs, hcalled⟩ := h.trace
  refine ⟨hpool, ⟨e :: new, by rw [htrace, hs, List.cons_append], fun hc => ?_⟩,
    fun ht => h.quiet (ht.of_cons he htrace)⟩
  obtain ⟨c, hmem, hkind⟩ := hcalled hc
  exact ⟨c, List.mem_cons_of_mem _ hmem, hkind⟩

/-! ## After an error -/

/-- The buffers that the hook `trial_post` fills with random bits have the size it announces. -/
def Runner.PostSized (r : Runner I σ n) : Prop :=
  ∀ hook, r.hooks.trialPost = some hook → ∀ info u, (hook info u).Sized

/-- A request that no pool answers returns. -/
theorem randomBitsBulk_returns [Platform R] {p : Prng R} (hp : p.bitPool = none) {bitCount : Nat}
    {buf : List Word} (hbuf : wordCount bitCount ≤ buf.length) :
    ∃ ws q, randomBitsBulk bitCount buf p = .ok ws q ∧ q.bitPool = none := by
  have hroom := le_wordCount bitCount
  obtain ⟨⟨ws, q⟩, hdraw⟩ := drawBits_returns (bitCount + 1) bitCount 0 0 buf p (Nat.lt_succ_self _)
    (by decide) (by omega)
  refine ⟨ws, q, ?_, (drawBits_pool _ hdraw).trans hp⟩
  simp only [randomBitsBulk, hp, hdraw]

theorem Gen.run_returns [Platform R] (g : Gen α) (hg : g.Sized) : ∀ {p : Prng R},
    p.bitPool = none → ∃ a q, g.run p = .ok a q ∧ q.bitPool = none := by
  induction g with
  | ret a =>
    intro p hp
    exact ⟨a, p, rfl, hp⟩
  | bits bitCount k ih =>
    intro p hp
    have hroom : wordCount bitCount ≤ [(0 : Word)].length := by
      have hle : bitCount.val ≤ 64 := by omega
      simp only [wordCount, List.length_singleton]
      split <;> omega
    obtain ⟨ws, q, hrun, hq⟩ := randomBitsBulk_returns hp hroom
    obtain ⟨a, q', hrest, hq'⟩ := ih (ws.getD 0 0) (hg _) hq
    refine ⟨a, q', ?_, hq'⟩
    have hle : bitCount.val ≤ 64 := by omega
    simp only [Gen.run, randomBits, if_pos hle, bind_apply, hrun, pure_apply, hrest]
  | bulk bitCount buf k ih =>
    intro p hp
    obtain ⟨ws, q, hrun, hq⟩ := randomBitsBulk_returns hp hg.1
    obtain ⟨a, q', hrest, hq'⟩ := ih ws (hg.2 ws) hq
    exact ⟨a, q', by simp only [Gen.run, bind_apply, hrun, hrest], hq'⟩

/-- Between callbacks the program returns a `bad` answer. -/
def Quits (m : Run R I σ n α) (bad : α → Prop) : Prop :=
  Spec (fun s => s.prng.bitPool = none) m (fun a t => t.prng.bitPool = none ∧ bad a)
    fun _ _ => False

namespace Quits
variable {bad : α → Prop} {m : Run R I σ n α}

theorem pure {a : α} (h : bad a) : Quits (pure a : Run R I σ n α) bad := fun _ hs => ⟨hs, h⟩

theorem after {m : Run R I σ n β} {good : β → Prop} {f : β → Run R I σ n α} (hm : Quits m good)
    (hf : ∀ b, good b → Quits (f b) bad) : Quits (m >>= f) bad :=
  Spec.bind hm fun b s hs => hf b hs.2 s hs.1

theorem getThen {f : RunState R I σ n → Run R I σ n α} (hf : ∀ s, Quits (f s) bad) :
    Quits (get >>= f) bad := fun s hs => hf s s hs

theorem modify {f : RunState R I σ n → RunState R I σ n} (hf : ∀ s, (f s).prng = s.prng) :
    Quits (modify f : Run R I σ n PUnit) fun _ => True := by
  refine Spec.modify fun s hs => ⟨?_, trivial⟩
  rw [hf]
  exact hs

theorem freePool (pool : BitPool) : Quits (freePool pool : Run R I σ n Unit) fun _ => True := by
  intro s hs
  have hfree : freeBitPool s.prng pool s.ledger = .ok (s.ledger.release (.pool pool.id)) := by
    rw [freeBitPool, hs]
    rfl
  simp only [Theft.freePool, bind_apply, get_apply, hfree, attempt]
  exact ⟨hs, trivial⟩

theorem freePoolIf (pool : Option BitPool) :
    Quits (freePoolIf pool : Run R I σ n Unit) fun _ => True := by
  cases pool with
  | none => exact pure trivial
  | some pool => exact freePool pool

theorem ifAutoshrink {argI : Fin n} {m : Run R I σ n Unit}
    (h : r.autoshrinks argI = true → Quits m fun _ => True) :
    Quits (ifAutoshrink r argI m) fun _ => True := by
  unfold Theft.ifAutoshrink
  split
  · rename_i henable
    exact h henable
  · exact pure trivial

theorem autoshrinkUpdateModel (argI : Fin n) (res : TrialRes) (adjustment : Byte) :
    Quits (autoshrinkUpdateModel r argI res adjustment : Run R I σ n Unit) fun _ => True :=
  ifAutoshrink fun _ => modify fun _ => rfl

theorem countShrink (argI : Fin n) (res : TrialRes) (repeated : Bool) :
    Quits (countShrink r argI res repeated : Run R I σ n Unit) fun _ => True := by
  unfold Theft.countShrink
  split
  · exact pure trivial
  · split
    · exact after (modify fun _ => rfl) fun _ _ => autoshrinkUpdateModel argI res 3
    · exact modify fun _ => rfl

theorem freeEnvIf (env : Option AutoshrinkEnv) :
    Quits (freeEnvIf env : Run R I σ n Unit) fun _ => True := by
  cases env with
  | none => exact pure trivial
  | some env => exact after (freePoolIf env.bitPool) fun _ _ => modify fun _ => rfl

variable [Platform R]

theorem freeInst (argI : Fin n) (inst : Option I) :
    Quits (freeInst r argI inst : Run R I σ n Unit) fun _ => True := by
  unfold Theft.freeInst freeWith
  split
  · exact pure trivial
  · exact after (modify fun _ => rfl) fun _ _ s hs => ⟨hs, trivial⟩

theorem freeArgs (is : List (Fin n)) :
    Quits (freeArgs r is : Run R I σ n Unit) fun _ => True := by
  induction is with
  | nil => exact pure trivial
  | cons i is ih =>
    have harg : Quits (freeArg r i : Run R I σ n Unit) fun _ => True := by
      apply getThen
      intro s
      apply after (freeEnvIf _)
      intro _ _
      split
      · exact freeInst i _
      · exact pure trivial
    exact after harg fun _ _ => ih

/-- The hook at the end of a trial, which may ask for random bits. -/
theorem trialPostHook (hpost : r.PostSized) (info : TrialPostInfo I n) :
    Quits (trialPostHook r info : Run R I σ n _) fun _ => True := by
  unfold Theft.trialPostHook
  cases hhook : r.hooks.trialPost with
  | none => exact pure trivial
  | some hook =>
    intro s hs
    obtain ⟨⟨a, u⟩, p, hrun, hpool⟩ := (hook info s.user).run_returns (hpost hook hhook _ _) hs
    dsimp only
    rw [ask_ok _ _ hrun]
    exact ⟨hpool, trivial⟩

end Quits

/-! ## Before an error -/

/-- No pool is injected after the program, if none was before. -/
def Poolless (m : Run R I σ n α) : Prop :=
  Spec (fun s => s.prng.bitPool = none) m (fun _ t => t.prng.bitPool = none) fun _ _ => True

namespace Poolless
variable {m : Run R I σ n α}

theorem pure (a : α) : Poolless (pure a : Run R I σ n α) := fun _ hs => hs

theorem throw (e : Stop) : Poolless (throw e : Run R I σ n α) := fun _ _ => trivial

theorem bind {f : α → Run R I σ n β} (hm : Poolless m) (hf : ∀ a, Poolless (f a)) :
    Poolless (m >>= f) := Spec.bind hm hf

theorem of_quits {good : α → Prop} (hm : Quits m good) : Poolless m :=
  Spec.mono hm (fun _ h => h) (fun _ _ h => h.1) fun _ _ h => h.elim

theorem of_even (hm : ∀ s, Even Account.zero ⟨0, 0, 0⟩ s m) : Poolless m := by
  intro s hs
  have hlevel := Level.zero hs
  rw [Level, Account.zero_held] at hlevel
  exact Spec.mono (hm s) (fun _ h => h) (fun _ _ h => h.noPool) (fun _ _ _ => trivial) s hlevel

end Poolless

/-- Errors get through the program: from a state in `P` it returns into `Q`, where no error was
answered to it, or it returns a `bad` answer. It stops only where no error was answered. -/
structure Heeds (r : Runner I σ n) (base : List (Event I n)) (P : RunState R I σ n → Prop)
    (m : Run R I σ n α) (bad : α → Prop) (Q : α → RunState R I σ n → Prop) : Prop where
  grows : Effect Grows m
  spec : Spec P m (fun a t => Clashed r base t ∨ (t.prng.bitPool = none ∧ bad a) ∨ Q a t)
    fun _ t => Clashed r base t ∨ ¬ Loud t

namespace Heeds
variable {P P' : RunState R I σ n → Prop} {m : Run R I σ n α} {bad : α → Prop}
  {Q Q' : α → RunState R I σ n → Prop}

theorem bind {f : α → Run R I σ n β} {bad' : β → Prop} {S : β → RunState R I σ n → Prop}
    (hm : Heeds r base P m bad Q) (hquit : ∀ a, bad a → Quits (f a) bad')
    (hf : ∀ a, Heeds r base (Q a) (f a) bad' S) : Heeds r base P (m >>= f) bad' S where
  grows := Effect.bind hm.grows fun a => (hf a).grows
  spec := by
    apply Spec.bind hm.spec
    rintro a t (hclashed | ⟨hpool, hbad⟩ | hq)
    · have hst := hclashed.grows ((hf a).grows.change t)
      unfold final at hst
      cases hrun : f a t with
      | ok b u =>
        rw [hrun] at hst
        exact .inl hst
      | error e u =>
        rw [hrun] at hst
        exact .inl hst
    · have hquits := hquit a hbad t hpool
      cases hrun : f a t with
      | ok b u =>
        rw [hrun] at hquits
        exact .inr (.inl hquits)
      | error e u =>
        rw [hrun] at hquits
        exact hquits.elim
    · exact (hf a).spec t hq

/-- No error comes out of the first part. -/
theorem andThen {f : α → Run R I σ n β} {bad' : β → Prop} {S : β → RunState R I σ n → Prop}
    (hm : Heeds r base P m (fun _ => False) Q) (hf : ∀ a, Heeds r base (Q a) (f a) bad' S) :
    Heeds r base P (m >>= f) bad' S := bind hm (fun _ h => h.elim) hf

theorem mono (h : Heeds r base P m bad Q) (hP : ∀ s, P' s → P s) (hQ : ∀ a s, Q a s → Q' a s) :
    Heeds r base P' m bad Q' :=
  ⟨h.grows, Spec.mono h.spec hP (fun a s hs => hs.imp id (Or.imp id (hQ a s))) fun _ _ hs => hs⟩

theorem pure {a : α} (h : ∀ s, P s → Q a s) : Heeds r base P (pure a : Run R I σ n α) bad Q :=
  ⟨Effect.pure a, Spec.pure fun s hs => .inr (.inr (h s hs))⟩

theorem throw {e : Stop} (h : ∀ s, P s → ¬ Loud s) :
    Heeds r base P (throw e : Run R I σ n α) bad Q :=
  ⟨Effect.throw e, Spec.throw fun s hs => .inr (h s hs)⟩

theorem getThen {f : RunState R I σ n → Run R I σ n α} (hf : ∀ s, Heeds r base P (f s) bad Q) :
    Heeds r base P (get >>= f) bad Q :=
  ⟨Effect.bind Effect.get fun s => (hf s).grows, fun s hs => (hf s).spec s hs⟩

/-- A program with a condition. -/
theorem given {c : Prop} (hgrows : Effect Grows m) (h : c → Heeds r base P m bad Q) :
    Heeds r base (fun s => c ∧ P s) m bad Q := ⟨hgrows, fun s hs => (h hs.1).spec s hs.2⟩

/-- A condition that is kept for later. -/
theorem carry {c : Prop} (h : Heeds r base P m bad Q) :
    Heeds r base (fun s => c ∧ P s) m bad fun a s => c ∧ Q a s :=
  ⟨h.grows, fun s hs => Spec.mono h.spec (fun _ hp => hp)
    (fun _ _ ht => ht.imp id (Or.imp id fun hq => ⟨hs.1, hq⟩)) (fun _ _ ht => ht) s hs.2⟩

/-- A program that calls nothing that could answer an error. -/
theorem quiet (hpool : Poolless m) (hadds : Effect (Adds quietKinds) m) :
    Heeds r base (Calm base called) m bad fun _ => Calm base called := by
  refine ⟨hadds.mono fun _ _ => Adds.grows, fun s hs => ?_⟩
  have hst := hadds.change s
  unfold final at hst
  have hnone := hpool s hs.noPool
  cases hrun : m s with
  | ok a t =>
    rw [hrun] at hst hnone
    exact .inr (.inr (hs.adds hnone hst))
  | error e t =>
    rw [hrun] at hst
    exact .inr fun ht => hs.quiet (ht.of_adds hst)

variable [Platform R]

/-- A callback that is called, and answers. -/
theorem ask_grows (event : Event I n) (answer : α → Event I n) (g : σ → Gen (α × σ)) :
    Effect Grows (ask event answer g : Run R I σ n α) := by
  constructor
  intro s
  unfold final
  obtain ⟨a, u, p, -, hrun⟩ | ⟨e, p, -, hrun⟩ := ask_cases event answer g s
  · rw [hrun]
    exact (List.suffix_cons _ _).trans (List.suffix_cons _ _)
  · rw [hrun]
    exact List.suffix_cons _ _

/-- A callback with its answer: an error is a `bad` answer. -/
theorem ask {event : Event I n} {answer : α → Event I n} (hevent : event.isError = false)
    (hbad : ∀ a, (answer a).isError = true → bad a) (g : σ → Gen (α × σ)) :
    Heeds r base (Calm base called) (ask event answer g : Run R I σ n α) bad
      fun _ => Calm base called := by
  refine ⟨ask_grows _ _ g, fun s hs => ?_⟩
  obtain ⟨a, u, p, hg, hrun⟩ | ⟨e, p, -, hrun⟩ := ask_cases event answer g s
  · rw [hrun]
    right
    have hpool := ((SamePool.run _).of_returned hg).none hs.noPool
    have hcalled : Calm base called { s with prng := p, trace := event :: s.trace } :=
      hs.cons hevent hpool rfl
    cases herror : (answer a).isError with
    | true => exact .inl ⟨hpool, hbad a herror⟩
    | false => exact .inr (hcalled.cons herror hpool rfl)
  · rw [hrun]
    exact .inr fun ht => hs.quiet (ht.of_cons hevent rfl)

theorem askHook {Info Res : Type} {bad : Res → Prop} {event : Event I n} {answer : Res → Event I n}
    (hevent : event.isError = false) (hbad : ∀ a, (answer a).isError = true → bad a)
    (hook : Option (Info → σ → Res × σ)) (info : Info) (dflt : Res) :
    Heeds r base (Calm base called) (askHook hook info dflt event answer : Run R I σ n Res) bad
      fun _ => Calm base called := by
  cases hook with
  | none => exact pure fun _ hs => hs
  | some hook => exact ask hevent hbad _

end Heeds

end

end Theft
