import Mathlib.Data.List.Infix
import Theft.AutoshrinkLedger
import Theft.RunFrames

/-!
# Which instances are freed

* `LiveFrees trace`: each call of `free` passes what a callback of that argument returned with
  `OK` more often than it was freed before, `NULL` too;
* `Blameless trace`: the hook after a shrinking step refuses only steps that were `OK`;
* `Owns argI inst k trace`: the trial may free an instance `k` times more.

`Careful` programs free only what they own. A candidate is owned when it came with `OK`; the hook
after the step is the only one that can have another freed.
-/

namespace Theft

open PackedBits Exec

section
variable {R I σ : Type} {n : Nat} {α : Type}
variable {s t : RunState R I σ n} {r : Runner I σ n} {m : Run R I σ n α}

/-! ## Idle programs -/

/-- The callbacks that neither put an instance out nor free it, and are not to blame. -/
def idleKinds : List EventKind :=
  [.hash, .print, .call, .runPre, .runPost, .genArgsPre, .trialPre, .trialPost, .counterexample,
    .shrinkPre, .shrinkTrialPost]

/-- The arguments stay, and whatever was called is idle. -/
structure Idles (s t : RunState R I σ n) : Prop where
  args : t.trial.getArgs = s.trial.getArgs
  trace : Adds idleKinds s t

instance : IsPreorder (RunState R I σ n) Idles where
  refl s := ⟨rfl, Std.Refl.refl s⟩
  trans _ _ _ h₁ h₂ := ⟨h₂.args.trans h₁.args, IsTrans.trans _ _ _ h₁.trace h₂.trace⟩

theorem Steady.getArgs {K : List EventKind} (h : Steady K s t) :
    t.trial.getArgs = s.trial.getArgs := by
  funext j
  have hcore := congrArg ArgInfo.inst (h.core j)
  exact hcore

namespace Idles

theorem of_steady {K : List EventKind} (hm : Effect (Steady K) m) (hK : K ⊆ idleKinds) :
    Effect Idles m := hm.mono fun _ _ h => ⟨h.getArgs, h.trace.mono hK⟩

theorem of_asked {K : List EventKind} (hm : Effect (Asked K) m) (hK : K ⊆ idleKinds) :
    Effect Idles m := of_steady (Asked.toSteady hm) hK

variable [Platform R]

theorem callMarkCalled (r : Runner I σ n) :
    Effect Idles (callMarkCalled r : Run R I σ n Unit) := by
  apply Effect.bind (of_asked (Asked.getArgHashBuffer (K := [.hash]) (by decide) r _) (by decide))
  intro buffer
  apply Effect.bind Effect.get
  intro s
  split
  · exact Effect.throw _
  · apply Effect.bind (Effect.attempt _)
    intro marked
    exact Effect.modify fun _ => ⟨rfl, .of_eq rfl⟩

theorem skipCalled (r : Runner I σ n) : Effect Idles (skipCalled r : Run R I σ n Bool) := by
  apply Effect.bind Effect.get
  intro s
  split
  · apply Effect.bind (of_asked (Asked.callCheckCalled (K := [.hash]) (by decide) r) (by decide))
    intro found
    split
    · exact Effect.pure _
    · apply Effect.bind (callMarkCalled r)
      intro _
      exact Effect.pure _
  · exact Effect.pure _

theorem markTrial (r : Runner I σ n) : Effect Idles (markTrial r : Run R I σ n Unit) := by
  apply Effect.bind Effect.get
  intro s
  split
  · exact callMarkCalled r
  · exact Effect.pure _

omit [Platform R] in
/-- Pools are freed and exchanged. -/
theorem onPool (r : Runner I σ n) (argI : Fin n) {m : Run R I σ n Unit}
    (hm : Effect (Freeing []) m) : Effect Idles (ifAutoshrink r argI m) :=
  of_steady (Steady.ifAutoshrink r argI (Freeing.toSteady hm)) (by decide)

omit [Platform R] in
/-- What changes the environment of an argument only. -/
theorem getArgs_modifyEnv (t : TrialInfo I n) (argI : Fin n)
    (f : Option AutoshrinkEnv → Option AutoshrinkEnv) :
    (t.modifyArg argI fun a => { a with env := f a.env }).getArgs = t.getArgs := by
  funext j
  simp only [TrialInfo.getArgs, TrialInfo.modifyArg, update]
  split
  · rename_i hj
    rw [hj]
  · rfl

omit [Platform R] in
theorem setPool (argI : Fin n) (pool : Option BitPool) :
    Effect Idles (setPool argI pool : Run R I σ n Unit) :=
  Effect.modify fun s => ⟨getArgs_modifyEnv s.trial argI _, .of_eq rfl⟩

omit [Platform R] in
theorem zoomEnv (argI : Fin n) (env : AutoshrinkEnv) (m : Auto R α) :
    Effect Idles (zoomEnv argI env m : Run R I σ n α) :=
  Effect.zoom fun s => ⟨getArgs_modifyEnv s.trial argI fun _ => some _, .of_eq rfl⟩

omit [Platform R] in
theorem revertPool (r : Runner I σ n) (argI : Fin n) (currentPool candidatePool : Option BitPool) :
    Effect Idles (revertPool r argI currentPool candidatePool : Run R I σ n Unit) := by
  apply Steady.ifAutoshrink
  apply Effect.bind (setPool argI currentPool)
  intro _
  exact of_steady (Freeing.toSteady (Freeing.freePoolPtr (K := []) candidatePool)) (by decide)

theorem shrinkTrials (r : Runner I σ n) (argI : Fin n) (tactic fuel : Nat) : ∀ repeated,
    Effect Idles (shrinkTrials r argI tactic fuel repeated : Run R I σ n _) := by
  induction fuel with
  | zero =>
    intro repeated
    exact Effect.throw _
  | succ fuel ih =>
    intro repeated
    apply Effect.bind Effect.get
    intro s
    apply Effect.bind (of_asked (Asked.call (K := [.call]) (by decide) r _ _) (by decide))
    intro res
    apply Effect.bind (of_steady (Steady.countShrink (K := []) r argI res repeated) (by decide))
    intro _
    apply Effect.bind (of_asked (Asked.shrinkTrialPostHook (K := [.shrinkTrialPost]) (by decide)
      r argI _ _ _) (by decide))
    intro answer
    cases answer with
    | repeat_ => exact ih true
    | repeatOnce =>
      cases repeated with
      | true => exact Effect.pure _
      | false => exact ih true
    | cont => exact Effect.pure _
    | error => exact Effect.pure _

end Idles

/-! ## Counting in the trace -/

/-- The hook after a shrinking step answers an error only when the step was `OK`. -/
def Blameless (trace : List (Event I n)) : Prop :=
  ∀ newer info older, trace = newer ++ .shrinkPostRes .error :: .shrinkPost info :: older →
    info.state = .shrunk

instance (trace : List (Event I n)) : Decidable (Blameless trace) :=
  decidable_of_iff
    (∀ rest ∈ trace.tails, (match rest with
      | .shrinkPostRes .error :: .shrinkPost info :: _ => decide (info.state = .shrunk)
      | _ => true) = true) (by
    simp only [List.mem_tails, List.IsSuffix]
    constructor
    · intro h newer info older htrace
      exact of_decide_eq_true (h _ ⟨newer, htrace.symm⟩)
    · rintro h rest ⟨newer, htrace⟩
      split
      · exact decide_eq_true (h newer _ _ htrace.symm)
      · rfl)

theorem Blameless.tail {e : Event I n} {older : List (Event I n)} (h : Blameless (e :: older)) :
    Blameless older := by
  intro newer info rest htrace
  exact h (e :: newer) info rest (by rw [htrace, List.cons_append])

variable [DecidableEq I]

/-- An answer with `OK` that puts the instance out for the argument. Its call is the event
before. -/
def Event.gives (argI : Fin n) (inst : Option I) : Event I n → Option (Event I n) → Bool
  | .allocated .ok v, some (.alloc i) => decide (i = argI ∧ v = inst)
  | .shrunk .ok v, some (.shrink i _ _) => decide (i = argI ∧ v = inst)
  | _, _ => false

/-- How often `alloc` and `shrink` returned the instance with `OK`. -/
def okCount (argI : Fin n) (inst : Option I) : List (Event I n) → Nat
  | [] => 0
  | e :: older => okCount argI inst older + if e.gives argI inst older.head? then 1 else 0

def Event.isFree (argI : Fin n) (inst : Option I) : Event I n → Bool
  | .free i v => decide (i = argI ∧ v = inst)
  | _ => false

/-- How often the instance was freed. -/
def freeCount (argI : Fin n) (inst : Option I) (trace : List (Event I n)) : Nat :=
  trace.countP (Event.isFree argI inst)

/-- Each call of `free` passes an instance that was returned with `OK` and is not freed yet. The
trace has the newest event first. -/
def LiveFrees (trace : List (Event I n)) : Prop :=
  ∀ newer argI inst older, trace = newer ++ .free argI inst :: older →
    freeCount argI inst older < okCount argI inst older

instance (trace : List (Event I n)) : Decidable (LiveFrees trace) :=
  decidable_of_iff
    (∀ rest ∈ trace.tails, (match rest with
      | .free argI inst :: older =>
        decide (freeCount argI inst older < okCount argI inst older)
      | _ => true) = true) (by
    simp only [List.mem_tails, List.IsSuffix]
    constructor
    · intro h newer argI inst older htrace
      exact of_decide_eq_true (h _ ⟨newer, htrace.symm⟩)
    · rintro h rest ⟨newer, htrace⟩
      split
      · exact decide_eq_true (h newer _ _ _ htrace.symm)
      · rfl)

/-- The calls of `free` for one instance. -/
def LiveAt (argI : Fin n) (inst : Option I) (trace : List (Event I n)) : Prop :=
  ∀ newer older, trace = newer ++ .free argI inst :: older →
    freeCount argI inst older < okCount argI inst older

/-- One for the instance of the argument, zero for others. -/
def share (argI : Fin n) (inst : Option I) (i : Fin n) (v : Option I) : Nat :=
  if i = argI ∧ v = inst then 1 else 0

/-- Until a hook is to blame, what was freed was live, and `k` frees of the instance are left. -/
def Owns (argI : Fin n) (inst : Option I) (k : Nat) (trace : List (Event I n)) : Prop :=
  Blameless trace →
    LiveAt argI inst trace ∧ freeCount argI inst trace + k ≤ okCount argI inst trace

variable {argI i : Fin n} {inst v : Option I} {k : Nat} {e : Event I n}
  {trace : List (Event I n)}

theorem LiveAt.cons (h : LiveAt argI inst trace) (he : e.isFree argI inst = true →
    freeCount argI inst trace < okCount argI inst trace) : LiveAt argI inst (e :: trace) := by
  intro newer older htrace
  cases newer with
  | nil =>
    obtain ⟨rfl, rfl⟩ := List.cons.inj htrace
    exact he (by simp [Event.isFree])
  | cons _ newer => exact h newer older (List.cons.inj htrace).2

namespace Owns

/-- After a hook is to blame nothing is promised. -/
theorem blamed (h : ¬Blameless trace) : Owns argI inst k trace := fun hb => absurd hb h

theorem mono (h : Owns argI inst k trace) {k' : Nat} (hk : k' ≤ k) : Owns argI inst k' trace := by
  intro hb
  obtain ⟨hlive, hcount⟩ := h hb
  exact ⟨hlive, by omega⟩

/-- An event that frees nothing. -/
theorem event (h : Owns argI inst k trace) (he : e.isFree argI inst = false) :
    Owns argI inst (k + if e.gives argI inst trace.head? then 1 else 0) (e :: trace) := by
  intro hb
  obtain ⟨hlive, hcount⟩ := h hb.tail
  refine ⟨hlive.cons fun hfree => ?_, ?_⟩
  · rw [he] at hfree
    cases hfree
  · simp only [freeCount, List.countP_cons, he, okCount] at hcount ⊢
    simp only [Bool.false_eq_true, if_false]
    omega

/-- One that puts nothing out either, or that is not counted on. -/
theorem skip (h : Owns argI inst k trace) (he : e.isFree argI inst = false) :
    Owns argI inst k (e :: trace) := (h.event he).mono (Nat.le_add_right _ _)

theorem idle (h : Owns argI inst k trace) {new : List (Event I n)}
    (hnew : ∀ e ∈ new, e.kind ∈ idleKinds) : Owns argI inst k (new ++ trace) := by
  induction new with
  | nil => exact h
  | cons e new ih =>
    refine (ih fun e' he' => hnew e' (List.mem_cons_of_mem _ he')).skip ?_
    have hkind := hnew e List.mem_cons_self
    cases e with
    | free => simp [Event.kind, idleKinds] at hkind
    | _ => rfl

/-- An instance that is owned is freed. -/
theorem free (h : Owns argI inst (k + share argI inst i v) trace) :
    Owns argI inst k (.free i v :: trace) := by
  intro hb
  obtain ⟨hlive, hcount⟩ := h hb.tail
  unfold share at hcount
  refine ⟨hlive.cons fun hfree => ?_, ?_⟩
  · rw [if_pos (of_decide_eq_true hfree)] at hcount
    omega
  · simp only [freeCount, List.countP_cons, Event.isFree, okCount, Event.gives, decide_eq_true_eq]
      at hcount ⊢
    split at hcount
    · rename_i heq
      simp only [heq, and_self, if_true, Bool.false_eq_true, if_false]
      omega
    · rename_i hne
      simp only [hne, if_false, Bool.false_eq_true]
      omega

theorem allocated (h : Owns argI inst k trace) (res : AllocRes) :
    Owns argI inst (k + if res = .ok then share argI inst i v else 0)
      (.allocated res v :: .alloc i :: trace) := by
  have hcall := h.skip (e := .alloc i) rfl
  cases res with
  | ok =>
    refine (hcall.event (e := .allocated .ok v) rfl).mono (Nat.le_of_eq ?_)
    simp [share, Event.gives]
  | skip => exact hcall.skip rfl
  | error => exact hcall.skip rfl

theorem shrunk (h : Owns argI inst k trace) (current : Option I) (tactic : Nat)
    (res : ShrinkRes) : Owns argI inst (k + if res = .ok then share argI inst i v else 0)
      (.shrunk res v :: .shrink i current tactic :: trace) := by
  have hcall := h.skip (e := .shrink i current tactic) rfl
  cases res with
  | ok =>
    refine (hcall.event (e := .shrunk .ok v) rfl).mono (Nat.le_of_eq ?_)
    simp [share, Event.gives]
  | deadEnd => exact hcall.skip rfl
  | noMoreTactics => exact hcall.skip rfl
  | error => exact hcall.skip rfl

end Owns

/-! ## Programs -/

variable {args : Args I n}

/-- The instances of the trial, and how often one of them may still be freed. -/
structure Holds (argI : Fin n) (inst : Option I) (args : Args I n) (k : Nat)
    (s : RunState R I σ n) : Prop where
  args : s.trial.getArgs = args
  owns : Owns argI inst k s.trace

/-- A program that frees only what it owns, also when it stops. -/
abbrev Careful (argI : Fin n) (inst : Option I) (P : RunState R I σ n → Prop)
    (m : Run R I σ n α) (Q : α → RunState R I σ n → Prop) : Prop :=
  Spec P m Q fun _ t => Owns argI inst 0 t.trace

theorem Holds.idle (h : Holds argI inst args k s) (ht : Idles s t) :
    Holds argI inst args k t := by
  obtain ⟨new, htrace, hnew⟩ := ht.trace
  refine ⟨ht.args.trans h.args, ?_⟩
  rw [htrace]
  exact h.owns.idle hnew

theorem Holds.mono (h : Holds argI inst args k s) {k' : Nat} (hk : k' ≤ k) :
    Holds argI inst args k' s := ⟨h.args, h.owns.mono hk⟩

theorem Idles.careful (hm : Effect Idles m) : Careful argI inst (Holds argI inst args k) m
    fun _ => Holds argI inst args k :=
  Spec.mono (hm.keeps fun _ _ => Holds.idle) (fun _ h => h) (fun _ _ h => h)
    fun _ _ h => h.owns.mono (Nat.zero_le _)

variable [Platform R]

theorem freeInst_careful (i : Fin n) (v : Option I) :
    Careful argI inst (Holds argI inst args (k + share argI inst i v))
      (freeInst r i v : Run R I σ n Unit) fun _ => Holds argI inst args k := by
  unfold freeInst freeWith
  split
  · exact Spec.pure fun _ hs => hs.mono (Nat.le_add_right _ _)
  · exact fun _ hs => ⟨hs.args, hs.owns.free⟩

omit [Platform R] in
theorem setInst_careful (i : Fin n) (v : Option I) :
    Careful argI inst (Holds argI inst args k) (setInst i v : Run R I σ n Unit)
      fun _ => Holds argI inst (update args i v) k := by
  apply Spec.modify
  rintro s ⟨rfl, howns⟩
  refine ⟨?_, howns⟩
  funext j
  simp only [TrialInfo.getArgs, TrialInfo.modifyArg, update]
  split <;> rfl

/-! ## Candidates -/

/-- What may be freed besides, when a shrinking step puts an instance out. -/
def offered (argI : Fin n) (inst : Option I) (i : Fin n)
    (c : ShrinkRes × Option I × Option BitPool) : Nat :=
  if c.1 = .ok then share argI inst i c.2.1 else 0

theorem autoshrinkCandidate_careful (fuel : Nat) (i : Fin n) (tactic : Nat) :
    Careful argI inst (Holds argI inst args k)
      (autoshrinkCandidate fuel r i tactic : Run R I σ n _)
      fun c => Holds argI inst args (k + offered argI inst i c) := by
  apply Spec.bind (Idles.careful Effect.get)
  intro s
  cases (s.trial.args i).env with
  | none => exact Spec.throw fun _ hs => hs.owns.mono (Nat.zero_le _)
  | some env =>
    have hanswers : ∀ (s' : RunState R I σ n) c t, Holds argI inst args k s' → zoomEnv i env
        (autoshrinkShrink fuel ((r.typeInfo i).alloc s.user) tactic) s' = .ok c t →
        (c.2.1 = none ∧ c.1 ≠ .ok) ∨ (c.2.1.isSome ∧ c.1 ≠ .noMoreTactics) := by
      intro s' c t _ hrun
      unfold zoomEnv zoom at hrun
      split at hrun
      · rename_i hstep
        cases hrun
        exact (autoshrinkShrink_answers _ _ _).returned hstep
      · cases hrun
    apply Spec.bind ((Idles.careful (Idles.zoomEnv i env _)).also hanswers)
    rintro ⟨sres, res, pool⟩
    cases res with
    | none =>
      refine Spec.pure fun t ht => ht.1.mono ?_
      simp_all [offered]
    | some res =>
      obtain ⟨v, user⟩ := res
      intro t ht
      refine ⟨ht.1.args, (ht.1.owns.allocated sres.allocRes (i := i) (v := v)).mono ?_⟩
      cases sres <;> simp [offered, ShrinkRes.allocRes]

theorem userCandidate_careful (i : Fin n) (current : Option I) (tactic : Nat) :
    Careful argI inst (Holds argI inst args k)
      (userCandidate r i current tactic : Run R I σ n _)
      fun c => Holds argI inst args (k + offered argI inst i c) := by
  cases hshrink : (r.typeInfo i).shrink with
  | none =>
    unfold userCandidate
    rw [hshrink]
    exact Spec.throw fun _ hs => hs.owns.mono (Nat.zero_le _)
  | some shrink =>
    intro s hs
    obtain ⟨a, u, p, -, hrun⟩ | ⟨e, p, -, hrun⟩ := userCandidate_cases hshrink current tactic s
    · rw [hrun]
      exact ⟨hs.args, hs.owns.shrunk current tactic a.1⟩
    · rw [hrun]
      exact (hs.owns.skip rfl).mono (Nat.zero_le _)

/-- Whatever offers the candidate. -/
theorem candidate_careful (fuel : Nat) (i : Fin n) (current : Option I) (tactic : Nat) :
    Careful argI inst (Holds argI inst args k)
      (if (r.typeInfo i).autoshrinkConfig.enable then autoshrinkCandidate fuel r i tactic
        else userCandidate r i current tactic : Run R I σ n _)
      fun c => Holds argI inst args (k + offered argI inst i c) := by
  split
  · exact autoshrinkCandidate_careful fuel i tactic
  · exact userCandidate_careful i current tactic

/-- The hook is to blame when it refuses a step that was not `OK`. -/
theorem shrinkPostHook_careful (i : Fin n) (shown : Option I) (tactic : Nat) (sres : ShrinkRes) :
    Careful argI inst (Holds argI inst args k)
      (shrinkPostHook r i shown tactic sres : Run R I σ n _)
      fun answer t => Holds argI inst args k t ∧
        (answer = .error → sres ≠ .ok → ¬Blameless t.trace) := by
  unfold shrinkPostHook
  split
  · exact Spec.pure fun s hs => ⟨hs, nofun⟩
  · split
    · exact Spec.throw fun _ hs => hs.owns.mono (Nat.zero_le _)
    · rename_i state hstate
      intro s hs
      refine ⟨⟨hs.args, (hs.owns.skip rfl).skip rfl⟩, fun hanswer hsres hblameless => ?_⟩
      have hshrunk := hblameless [] _ s.trace (by rw [← hanswer]; rfl)
      dsimp only at hshrunk
      subst hshrunk
      cases sres <;> simp_all [shrinkPostState]

/-! ## Trying a candidate -/

/-- The frees that are left while a candidate is in the place of an argument. -/
theorem share_exchange (i : Fin n) (v : Option I) :
    share argI inst argI (args argI) + share argI inst i v =
      share argI inst argI (update args i v argI) + share argI inst i (args i) := by
  unfold share update
  by_cases hi : i = argI
  · subst hi
    simp only [true_and, if_true]
    omega
  · simp [hi, Ne.symm hi]

omit [DecidableEq I] in
theorem update_back (i : Fin n) (v : Option I) :
    update (update args i v) i (args i) = args := by
  funext j
  unfold update
  split
  · rename_i hj
    rw [hj]
  · rfl

/-- What is in the trial may be freed. -/
def Owned (argI : Fin n) (inst : Option I) (s : RunState R I σ n) : Prop :=
  Owns argI inst (share argI inst argI (s.trial.args argI).inst) s.trace

omit [Platform R] in
theorem Owned.idle (h : Owned argI inst s) (ht : Idles s t) : Owned argI inst t := by
  have hholds : Holds argI inst s.trial.getArgs
      (share argI inst argI (s.trial.args argI).inst) s := ⟨rfl, h⟩
  obtain ⟨hargs, howns⟩ := hholds.idle ht
  rw [Owned, show (t.trial.args argI).inst = _ from congrFun hargs argI]
  exact howns

omit [Platform R] in
theorem Idles.owned (hm : Effect Idles m) :
    Careful argI inst (Owned argI inst) m fun _ => Owned argI inst :=
  Spec.mono (hm.keeps fun _ _ => Owned.idle) (fun _ h => h) (fun _ _ h => h)
    fun _ _ h => Owns.mono h (Nat.zero_le _)

omit [Platform R] in
theorem Holds.owned (h : Holds argI inst args (share argI inst argI (args argI)) s) :
    Owned argI inst s := by
  obtain ⟨rfl, howns⟩ := h
  exact howns

end

end Theft
