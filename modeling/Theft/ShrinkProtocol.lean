import Theft.LiveFrees
import Theft.Protocol
import Theft.Source

/-!
# Shrinking keeps to the protocol

Each program of the runner is a part of the dialogue: from a stage of the protocol it returns in
the stage its result stands for, or stops within the protocol. The view that the protocol has is
that of the state.

* `Proceeds`: the view stays;
* `Shrinks`: the trial stays, while its arguments are exchanged and its attempts are counted.
-/

namespace Theft

open PackedBits Exec Dialogue

section
variable {R I σ : Type} {n : Nat} {α : Type}

/-- What the environment of a run sees of it. -/
def speaker : Speaker (RunState R I σ n) (View I n) (Event I n) := ⟨RunState.trace, RunState.view⟩

/-- The run is in a stage of the protocol. -/
abbrev In (r : Runner I σ n) (stage : Stage I n) (v : View I n) : RunState R I σ n → Prop :=
  At (protocol r) speaker stage v

/-- The run stopped within the protocol. -/
abbrev Off (r : Runner I σ n) : Stop → RunState R I σ n → Prop := Broken (protocol r) speaker

/-- From a stage to the stages that the result stands for -/
abbrev Proceeds (r : Runner I σ n) (p : Stage I n) (v : View I n) (m : Run R I σ n α)
    (q : α → Stage I n) : Prop := Spec (In r p v) m (fun a => In r (q a) v) (Off r)

variable {r : Runner I σ n} {p q : Stage I n} {v v' : View I n}

/-! ## Unseen programs -/

abbrev Unseen : RunState R I σ n → RunState R I σ n → Prop := speaker.Unseen

namespace Unseen

theorem of_steady {s t : RunState R I σ n} (h : Steady [] s t)
    (hcounts : t.trial.shrinkCount = s.trial.shrinkCount ∧
      t.trial.successfulShrinks = s.trial.successfulShrinks ∧
      t.trial.failedShrinks = s.trial.failedShrinks) : Unseen s t := by
  obtain ⟨new, htrace, hnone⟩ := h.trace
  have hnil : new = [] := List.eq_nil_iff_forall_not_mem.mpr fun e he => by
    cases hnone e he
  refine ⟨by rw [hnil] at htrace; exact htrace, ?_⟩
  simp only [speaker, RunState.view, h.same.counters, h.same.trial, h.same.seed, hcounts,
    h.getArgs]

theorem of_freeing {m : Run R I σ n α} (h : Effect (Freeing []) m) : Effect Unseen m :=
  h.mono fun _ _ h => of_steady h.steady (by rw [h.trial]; exact ⟨rfl, rfl, rfl⟩)

theorem of_asked {m : Run R I σ n α} (h : Effect (Asked []) m) : Effect Unseen m :=
  of_freeing (Asked.toFreeing h)

/-- The environment of an argument is not seen. -/
theorem view_modifyEnv {s t : RunState R I σ n} (argI : Fin n)
    (f : Option AutoshrinkEnv → Option AutoshrinkEnv) (hcounters : t.counters = s.counters)
    (htrial : t.trial = s.trial.modifyArg argI fun a => { a with env := f a.env }) :
    t.view = s.view := by
  unfold RunState.view
  rw [hcounters, htrial, Idles.getArgs_modifyEnv]
  rfl

theorem modifyEnv (argI : Fin n) (f : Option AutoshrinkEnv → Option AutoshrinkEnv) :
    Effect Unseen (modifyTrial (fun t => t.modifyArg argI fun a => { a with env := f a.env }) :
      Run R I σ n Unit) :=
  Effect.modify fun _ => ⟨rfl, view_modifyEnv argI f rfl rfl⟩

theorem setPool (argI : Fin n) (pool : Option BitPool) :
    Effect Unseen (setPool argI pool : Run R I σ n Unit) := modifyEnv argI _

theorem zoomEnv (argI : Fin n) (env : AutoshrinkEnv) (m : Auto R α) :
    Effect Unseen (zoomEnv argI env m : Run R I σ n α) :=
  Effect.zoom fun _ => ⟨rfl, view_modifyEnv argI (fun _ => some _) rfl rfl⟩

theorem ifFreeing (r : Runner I σ n) (argI : Fin n) {m : Run R I σ n Unit}
    (h : Effect (Freeing []) m) : Effect Unseen (ifAutoshrink r argI m) :=
  Steady.ifAutoshrink r argI (of_freeing h)

theorem revertPool (r : Runner I σ n) (argI : Fin n) (currentPool candidatePool : Option BitPool) :
    Effect Unseen (revertPool r argI currentPool candidatePool : Run R I σ n Unit) := by
  apply Steady.ifAutoshrink
  apply Effect.bind (setPool argI currentPool)
  intro _
  exact of_freeing (Freeing.freePoolPtr candidatePool)

theorem autoshrinkUpdateModel (r : Runner I σ n) (argI : Fin n) (res : TrialRes)
    (adjustment : Byte) :
    Effect Unseen (autoshrinkUpdateModel r argI res adjustment : Run R I σ n Unit) := by
  apply Steady.ifAutoshrink
  exact modifyEnv argI fun env => env.map fun env =>
    { env with model := updateModel env.model res adjustment }

end Unseen

/-- A program the callbacks see nothing of -/
theorem Proceeds.unseen {m : Run R I σ n α} (h : Effect Unseen m) : Proceeds r p v m fun _ => p :=
  Speaker.Unseen.keeps h

/-- Data changed as in the protocol -/
theorem In.change {f : RunState R I σ n → RunState R I σ n} (htrace : ∀ s, (f s).trace = s.trace)
    (hview : ∀ s : RunState R I σ n, s.view = v → (f s).view = v')
    (hstep : SilentStep r (p, v) (q, v')) :
    Spec (In r p v) (modify f : Run R I σ n PUnit) (fun _ => In r q v') (Off r) :=
  At.change htrace hview hstep

theorem In.before {m : Run R I σ n α} {Q : α → RunState R I σ n → Prop}
    (hstep : SilentStep r (p, v) (q, v)) (hm : Spec (In r q v) m Q (Off r)) :
    Spec (In r p v) m Q (Off r) := At.before hstep hm

theorem Proceeds.ret {a : α} {q : α → Stage I n} (h : q a = p) :
    Proceeds r p v (pure a : Run R I σ n α) q := Spec.pure fun _ hs => h ▸ hs

/-- The end of a program whose last step is silent -/
theorem Proceeds.last {a : α} {q : α → Stage I n} (h : SilentStep r (p, v) (q a, v)) :
    Proceeds r p v (pure a : Run R I σ n α) q := Spec.pure fun _ hs => hs.silent h

theorem Proceeds.stop {m : Stop} {q : α → Stage I n} : Proceeds r p v (throw m : Run R I σ n α) q :=
  Spec.throw fun _ hs => hs.follows

theorem Proceeds.read {m : RunState R I σ n → Run R I σ n α} {Q : α → RunState R I σ n → Prop}
    (h : ∀ s, s.view = v → Spec (In r p v) (m s) Q (Off r)) :
    Spec (In r p v) (MonadState.get >>= m) Q (Off r) := fun s hs => h s hs.view s hs

variable [Platform R]

/-! ## Callbacks -/

/-- The answer of a callback is in the trace, or the call is all there is. -/
theorem Proceeds.ask {event : Event I n} {answer : α → Event I n} {g : σ → Gen (α × σ)}
    {q : α → Stage I n} (h : ∀ a u u', (g u).Returns (a, u') →
      ExchangeStep r (p, v) event (answer a) (q a, v)) :
    Proceeds r p v (ask event answer g : Run R I σ n α) q := by
  intro s hs
  obtain ⟨a, u, p', hrun, hask⟩ | ⟨e, p', -, hask⟩ := ask_cases event answer g s
  · rw [hask]
    exact ⟨hs.view, hs.admits.exchange (h a _ _ (Gen.Returns.of_run _ hrun))⟩
  · rw [hask]
    exact .asking hs.admits (h _ _ _ (Gen.Returns.eval (g s.user) fun _ => false))

/-- A hook that may not be installed -/
theorem Proceeds.askHook {Info Res : Type} {hook : Option (Info → σ → Res × σ)} {info : Info}
    {dflt : Res} {event : Event I n} {answer : Res → Event I n} {q : Res → Stage I n}
    (hnone : hook = none → SilentStep r (p, v) (q dflt, v))
    (hsome : ∀ f u, hook = some f → ExchangeStep r (p, v) event (answer (f info u).1)
      (q (f info u).1, v)) :
    Proceeds r p v (askHook hook info dflt event answer : Run R I σ n Res) q := by
  cases hook with
  | none => exact Proceeds.last (hnone rfl)
  | some f =>
    intro s hs
    have hrun : Theft.askHook (some f) info dflt event answer s = .ok (f info s.user).1 { s with
        user := (f info s.user).2, trace := answer (f info s.user).1 :: event :: s.trace } :=
      ask_ok event answer rfl
    rw [hrun]
    exact ⟨hs.view, hs.admits.exchange (hsome f s.user rfl)⟩

theorem Proceeds.runPlain (f : σ → α × σ) : Proceeds r p v (runPlain f : Run R I σ n α) fun _ => p :=
  Proceeds.unseen (Unseen.of_asked (Asked.runCallback _))

omit [Platform R] in
theorem Proceeds.record {event : Event I n} (h : NoticeStep r (p, v) event (q, v)) :
    Proceeds r p v (record event : Run R I σ n Unit) fun _ => q :=
  At.notice (fun _ => rfl) (fun _ => rfl) h

theorem Proceeds.free (argI : Fin n) (inst : Option I) :
    Proceeds r (.freeing argI inst q) v (freeInst r argI inst : Run R I σ n Unit) fun _ => q := by
  unfold freeInst freeWith
  split
  · rename_i hnone
    exact Proceeds.last (.noFree hnone)
  · rename_i free hsome
    apply Spec.bind (Proceeds.record (.free (by rw [hsome]; rfl)))
    intro _
    exact Proceeds.runPlain _

/-! ## One argument after the other -/

theorem drop_finRange_nil {argI : Nat} (hle : argI ≤ n) (h : [] = (List.finRange n).drop argI) :
    argI = n := by
  have hlength := congrArg List.length h
  rw [List.length_drop, List.length_finRange, List.length_nil] at hlength
  omega

theorem drop_finRange_cons {argI : Nat} {i : Fin n} {is : List (Fin n)}
    (h : i :: is = (List.finRange n).drop argI) :
    argI = i ∧ is = (List.finRange n).drop (i + 1) := by
  have hlt : argI < n := by
    have hlength := congrArg List.length h
    rw [List.length_drop, List.length_finRange, List.length_cons] at hlength
    omega
  rw [List.drop_eq_getElem_cons (by rwa [List.length_finRange]), List.getElem_finRange] at h
  injection h with hi hrest
  obtain rfl : i.val = argI := congrArg Fin.val hi
  exact ⟨rfl, hrest⟩

/-! ## Hashes -/

theorem Proceeds.hashArg (argI : Fin n) : Proceeds r (.hashing argI q) v
    (hashArg r argI : Run R I σ n Word) fun _ => .hashing (argI + 1) q := by
  apply Proceeds.read
  intro s hs
  dsimp only
  split
  · rename_i hash hsome
    have harg : (s.trial.args argI).inst = v.args argI := by
      rw [← hs]
      rfl
    rw [harg]
    apply Spec.bind (Proceeds.record (.hash (by rw [hsome]; rfl)))
    intro _
    exact Proceeds.runPlain _
  · rename_i hnone
    apply In.before (.noHash hnone)
    split
    · exact Proceeds.unseen (Effect.attempt _)
    · exact Proceeds.stop

/-- The arguments from one on are hashed. -/
theorem Proceeds.getArgHashBuffer (is : List (Fin n)) : ∀ argI, argI ≤ n →
    is = (List.finRange n).drop argI → Proceeds r (.hashing argI q) v
      (getArgHashBuffer r is : Run R I σ n (List Word)) fun _ => q := by
  induction is with
  | nil =>
    intro argI hle his
    obtain rfl := drop_finRange_nil hle his
    exact Proceeds.last .allHashed
  | cons i is ih =>
    intro argI hle his
    obtain ⟨rfl, hrest⟩ := drop_finRange_cons his
    apply Spec.bind (Proceeds.hashArg i)
    intro h
    apply Spec.bind (ih (i + 1) i.isLt hrest)
    intro hs
    exact Proceeds.ret rfl

theorem Proceeds.callCheckCalled : Proceeds r (.hashing 0 q) v
    (callCheckCalled r : Run R I σ n Bool) fun _ => q := by
  apply Spec.bind (Proceeds.getArgHashBuffer _ 0 (Nat.zero_le n) rfl)
  intro buffer
  apply Proceeds.read
  intro s hs
  split
  · exact Proceeds.stop
  · exact Proceeds.unseen (Effect.attempt _)

theorem Proceeds.callMarkCalled : Proceeds r (.hashing 0 q) v
    (callMarkCalled r : Run R I σ n Unit) fun _ => q := by
  apply Spec.bind (Proceeds.getArgHashBuffer _ 0 (Nat.zero_le n) rfl)
  intro buffer
  apply Proceeds.read
  intro s hs
  split
  · exact Proceeds.stop
  · apply Proceeds.unseen
    apply Effect.bind (Effect.attempt _)
    intro marked
    exact Effect.modify fun _ => ⟨rfl, rfl⟩

theorem Proceeds.markTrial :
    Proceeds r .running v (markTrial r : Run R I σ n Unit) fun _ => .calling := by
  apply Proceeds.read
  intro s hs
  split
  · exact In.before .mark Proceeds.callMarkCalled
  · exact Proceeds.last .unmarked

/-! ## Hooks of the shrinking loop -/

theorem Proceeds.shrinkPreHook {argI : Fin n} {tactic : Nat} {progress : Bool}
    (htactic : tactic < maxTactics) : Proceeds r (.attempting argI tactic progress) v
      (shrinkPreHook r argI (v.args argI) tactic : Run R I σ n _)
      (Stage.afterShrinkPre ⟨argI, tactic, v.args argI, progress⟩) := by
  apply Proceeds.read
  rintro s rfl
  exact Proceeds.askHook SilentStep.noShrinkPre fun f u h => .shrinkPre h htactic rfl

theorem Proceeds.shrinkPostHook (a : Attempt I n) (sres : ShrinkRes) (candidate : Option I) :
    Proceeds r (.offered a sres candidate) v
      (shrinkPostHook r a.argI (if sres = .ok then candidate else a.current) a.tactic sres :
        Run R I σ n _) (Stage.afterShrinkPost a sres candidate) := by
  unfold Theft.shrinkPostHook
  split
  · rename_i hnone
    exact Proceeds.last (.noShrinkPost hnone)
  · rename_i hook hsome
    split
    · exact Proceeds.stop
    · rename_i state hstate
      apply Proceeds.read
      rintro s rfl
      refine Proceeds.askHook (fun h => by cases h) fun f u h => ?_
      cases h
      exact .shrinkPost hsome hstate rfl

theorem Proceeds.shrinkTrialPostHook (a : Attempt I n) (candidate : Option I) (repeated : Bool)
    (res : TrialRes) : Proceeds r (.counted a candidate repeated res) v
      (shrinkTrialPostHook r a.argI v.args a.tactic res : Run R I σ n _)
      (Stage.afterShrinkTrialPost a candidate repeated res) := by
  apply Proceeds.read
  rintro s rfl
  exact Proceeds.askHook SilentStep.noShrinkTrialPost fun f u h => .shrinkTrialPost h rfl

/-! ## Candidates -/

theorem Proceeds.userCandidate {a : Attempt I n}
    (hnot : (r.typeInfo a.argI).autoshrinkConfig.enable = false) : Proceeds r (.asking a) v
      (userCandidate r a.argI a.current a.tactic : Run R I σ n _)
      fun x => .answered a x.1 x.2.1 := by
  unfold Theft.userCandidate
  split
  · exact Proceeds.stop
  · rename_i shrink hsome
    have hask : Proceeds r (.asking a) v (Theft.ask (.shrink a.argI a.current a.tactic)
        (fun x => .shrunk x.1 x.2) (fun u => (shrink a.current a.tactic u).apart) : Run R I σ n _)
        fun x => .answered a x.1 x.2 := by
      refine Proceeds.ask fun x u u' hres => ?_
      obtain ⟨⟨res, candidate, u''⟩, hres, heq⟩ := Gen.Returns.of_map hres
      cases heq
      exact .shrink hsome hnot hres
    apply Spec.bind hask
    intro x
    exact Proceeds.ret rfl

omit [Platform R] in
/-- A callback that was run on random bits of its own is put into the trace. -/
theorem In.exchanged {question answer : Event I n} {m : Run R I σ n α}
    {Q : α → RunState R I σ n → Prop} (h : ExchangeStep r (p, v) question answer (q, v))
    (hm : Spec (In r q v) m Q (Off r)) : Spec (In r p v) (do
      record question
      record answer
      m) Q (Off r) := fun _ hs => hm _ ⟨hs.view, hs.admits.exchange h⟩

theorem shrinkCopy_uncalled {β : Type} (fuel : Nat) (alloc : Gen (AllocRes × β))
    (orig copy : BitPool) : Yields (shrinkCopy fuel alloc orig copy : Auto R _)
      fun x => x.2.1 = none → x.1 ≠ .ok := by
  refine Yields.after fun _ => Yields.after fun _ => Yields.after fun _ => Yields.after fun _ =>
    Yields.after ?_
  rintro ⟨⟨ares, res⟩, copy⟩
  cases ares with
  | ok => exact Yields.pure nofun
  | skip => exact Yields.after fun _ => Yields.pure nofun
  | error => exact Yields.after fun _ => Yields.pure nofun

/-- Without a call of `alloc` there is no candidate. -/
theorem autoshrinkShrink_uncalled {β : Type} (fuel : Nat) (alloc : Gen (AllocRes × β))
    (tactic : Nat) : Yields (autoshrinkShrink fuel alloc tactic : Auto R _)
      fun x => x.2.1 = none → x.1 ≠ .ok := by
  unfold autoshrinkShrink
  apply Yields.after
  intro s
  split
  · exact Yields.throw _
  · split
    · exact Yields.pure fun _ => nofun
    · split
      · exact Yields.pure fun _ => nofun
      · apply Yields.after
        intro _
        split
        · exact Yields.pure fun _ => nofun
        · apply Yields.after
          intro _
          exact shrinkCopy_uncalled fuel alloc _ _

theorem Proceeds.autoshrinkCandidate {a : Attempt I n}
    (henable : (r.typeInfo a.argI).autoshrinkConfig.enable = true) (fuel : Nat) :
    Proceeds r (.asking a) v (autoshrinkCandidate fuel r a.argI a.tactic : Run R I σ n _)
      fun x => .answered a x.1 x.2.1 := by
  apply Proceeds.read
  intro s hs
  dsimp only
  split
  · exact Proceeds.stop
  · rename_i env _
    have hzoom := (Proceeds.unseen (r := r) (p := .asking a) (v := v)
      (Unseen.zoomEnv (R := R) (σ := σ) a.argI env
        (autoshrinkShrink fuel ((r.typeInfo a.argI).alloc s.user) a.tactic))).also
      (F := fun x _ => x.2.1 = none → x.1 ≠ .ok) fun s x t _ hrun => by
        unfold Theft.zoomEnv Exec.zoom at hrun
        split at hrun
        · rename_i x' t' hinner
          cases hrun
          exact (autoshrinkShrink_uncalled fuel _ _).returned hinner
        · cases hrun
    apply Spec.bind hzoom
    rintro ⟨sres, res, pool⟩
    cases res with
    | none => exact Spec.pure fun t ht => ht.1.silent (.noCandidate henable (ht.2 rfl))
    | some res =>
      obtain ⟨inst, user⟩ := res
      refine Spec.mono (In.exchanged (.allocShrunk henable) ?_) (fun _ h => h.1) (fun _ _ h => h)
        fun _ _ h => h
      refine Spec.bind (Proceeds.unseen (Effect.modify fun _ => ⟨rfl, rfl⟩)) fun _ => ?_
      exact Proceeds.ret rfl

theorem Proceeds.candidate (fuel : Nat) (a : Attempt I n) : Proceeds r (.asking a) v
    (if (r.typeInfo a.argI).autoshrinkConfig.enable then
      Theft.autoshrinkCandidate fuel r a.argI a.tactic
    else Theft.userCandidate r a.argI a.current a.tactic : Run R I σ n _)
    fun x => .answered a x.1 x.2.1 := by
  split
  · rename_i henable
    exact Proceeds.autoshrinkCandidate henable fuel
  · rename_i hnot
    exact Proceeds.userCandidate (Bool.not_eq_true _ ▸ hnot)

/-! ## Shrinking -/

/-- The same trial of the run. -/
structure View.Sibling (v v₀ : View I n) : Prop where
  counters : v.counters = v₀.counters
  trial : v.trial = v₀.trial
  seed : v.seed = v₀.seed

/-- The run is in a stage of a trial. -/
def DuringTrial (r : Runner I σ n) (v₀ : View I n) (stage : Stage I n) (s : RunState R I σ n) : Prop :=
  ∃ v, v.Sibling v₀ ∧ In r stage v s

/-- From a stage of a trial to the stages that the result stands for -/
abbrev Shrinks (r : Runner I σ n) (v₀ : View I n) (p : Stage I n) (m : Run R I σ n α)
    (q : α → Stage I n) : Prop := Spec (DuringTrial r v₀ p) m (fun a => DuringTrial r v₀ (q a)) (Off r)

variable {v₀ : View I n}

omit [Platform R] in
theorem Shrinks.of_in {m : Run R I σ n α} {q : α → Stage I n} (h : ∀ v : View I n, v.Sibling v₀ →
    Spec (In r p v) m (fun a => DuringTrial r v₀ (q a)) (Off r)) : Shrinks r v₀ p m q := by
  rintro s ⟨v, hv, hs⟩
  exact h v hv s hs

omit [Platform R] in
theorem Proceeds.within {m : Run R I σ n α} {q : α → Stage I n} (hv : v.Sibling v₀)
    (h : Proceeds r p v m q) : Spec (In r p v) m (fun a => DuringTrial r v₀ (q a)) (Off r) :=
  h.mono (fun _ hs => hs) (fun _ _ ht => ⟨v, hv, ht⟩) fun _ _ ht => ht

omit [Platform R] in
/-- From one view of the trial -/
theorem Shrinks.run {m : Run R I σ n α} {q : α → Stage I n} (h : Shrinks r v₀ p m q)
    (hv : v.Sibling v₀) : Spec (In r p v) m (fun a => DuringTrial r v₀ (q a)) (Off r) :=
  h.mono (fun _ hs => ⟨v, hv, hs⟩) (fun _ _ ht => ht) fun _ _ ht => ht

namespace Stage

/-- What the calls with a candidate come to; nothing when a hook answers an error. -/
def afterTrials (a : Attempt I n) (candidate : Option I) : Option TrialRes → Stage I n
  | some res => settled a candidate res
  | none => freeing a.argI a.current (shrunk false)

def afterAttempt (argI : Fin n) (progress : Bool) : AttemptRes → Stage I n
  | .ok => shrinking argI true
  | .deadEnd => shrinking (argI + 1) progress
  | .halt => shrunk true
  | .error => shrunk false

/-- A tactic decides the attempt to shrink an argument, or is followed by the next one. -/
def afterTactic (argI : Fin n) (tactic : Nat) (progress : Bool) : Option AttemptRes → Stage I n
  | some res => afterAttempt argI progress res
  | none => attempting argI (tactic + 1) progress

end Stage

theorem Proceeds.call {args : Args I n} {rerun : Bool} {q : TrialRes → Stage I n}
    (h : ∀ held res u u', (r.propFun args u).Returns (res, u') →
      ExchangeStep r (p, v) (.call args held rerun) (.returned res) (q res, v)) :
    Proceeds r p v (call r args rerun : Run R I σ n TrialRes) q := by
  apply Proceeds.read
  intro s hs
  exact Proceeds.ask (h _)

omit [Platform R] in
theorem View.Sibling.countShrink (hv : v.Sibling v₀) (repeated : Bool) (res : TrialRes) :
    (v.countShrink repeated res).Sibling v₀ := by
  unfold View.countShrink
  split
  · exact hv
  · split <;> exact ⟨hv.counters, hv.trial, hv.seed⟩

omit [Platform R] in
theorem View.countShrink_args (repeated : Bool) (res : TrialRes) :
    (v.countShrink repeated res).args = v.args := by
  unfold View.countShrink
  split
  · rfl
  · split <;> rfl

omit [Platform R] in
theorem In.countShrink (a : Attempt I n) (candidate : Option I) (repeated : Bool)
    (res : TrialRes) : Spec (In r (.tried a candidate repeated res) v)
      (countShrink r a.argI res repeated : Run R I σ n Unit)
      (fun _ => In r (.counted a candidate repeated res) (v.countShrink repeated res))
      (Off r) := by
  unfold Theft.countShrink
  by_cases hrep : repeated = true
  · rw [if_pos hrep]
    refine Spec.pure fun s hs => ?_
    have hv : v.countShrink repeated res = v := if_pos hrep
    have hstep : SilentStep r (.tried a candidate repeated res, v)
        (.counted a candidate repeated res, v.countShrink repeated res) := .count
    rw [hv] at hstep ⊢
    exact hs.silent hstep
  · rw [if_neg hrep]
    by_cases hfail : res = .fail
    · rw [if_pos hfail]
      have hv : v.countShrink repeated res =
          { v with successfulShrinks := v.successfulShrinks + 1 } := by
        rw [View.countShrink, if_neg hrep, if_pos hfail]
      refine Spec.bind (In.change (fun _ => rfl) ?_ .count) fun _ => Proceeds.unseen
        (Unseen.autoshrinkUpdateModel r a.argI res 3)
      rintro s rfl
      exact hv.symm
    · rw [if_neg hfail]
      have hv : v.countShrink repeated res =
          { v with failedShrinks := v.failedShrinks + 1 } := by
        rw [View.countShrink, if_neg hrep, if_neg hfail]
      refine In.change (fun _ => rfl) ?_ .count
      rintro s rfl
      exact hv.symm

/-- **The calls with a candidate.** -/
theorem Shrinks.shrinkTrials (a : Attempt I n) (candidate : Option I) (fuel : Nat) :
    ∀ repeated, Shrinks r v₀ (.trying a candidate repeated)
      (shrinkTrials r a.argI a.tactic fuel repeated : Run R I σ n _)
      (Stage.afterTrials a candidate) := by
  induction fuel with
  | zero =>
    intro repeated
    apply Shrinks.of_in
    intro v hv
    exact Proceeds.within hv Proceeds.stop
  | succ fuel ih =>
    intro repeated
    apply Shrinks.of_in
    intro v hv
    apply Proceeds.read
    intro s hs
    have hargs : s.trial.getArgs = v.args := by
      rw [← hs]
      rfl
    dsimp only
    rw [hargs]
    apply Spec.bind (Proceeds.call fun _ _ _ _ hres => .callShrunk hres)
    intro res
    apply Spec.bind (In.countShrink a candidate repeated res)
    intro _
    have hhook := Proceeds.shrinkTrialPostHook (R := R) (r := r) (v := v.countShrink repeated res) a
      candidate repeated res
    rw [View.countShrink_args] at hhook
    apply Spec.bind (Proceeds.within (hv.countShrink repeated res) hhook)
    intro answer
    cases answer with
    | repeat_ => exact ih true
    | repeatOnce =>
      cases repeated with
      | true => exact Spec.pure fun _ h => h
      | false => exact ih true
    | cont => exact Spec.pure fun _ h => h
    | error => exact Spec.pure fun _ h => h

omit [Platform R] in
theorem View.Sibling.setArg (hv : v.Sibling v₀) (argI : Fin n) (inst : Option I) :
    (v.setArg argI inst).Sibling v₀ := ⟨hv.counters, hv.trial, hv.seed⟩

omit [Platform R] in
theorem view_setInst (s : RunState R I σ n) (argI : Fin n) (inst : Option I) :
    ({ s with trial := s.trial.modifyArg argI fun a => { a with inst := inst } }).view =
      s.view.setArg argI inst := by
  have hargs : (s.trial.modifyArg argI fun a => { a with inst := inst }).getArgs =
      update s.trial.getArgs argI inst := by
    funext j
    simp only [TrialInfo.getArgs, TrialInfo.modifyArg, update]
    split
    · rfl
    · rfl
  unfold RunState.view View.setArg
  rw [hargs]
  rfl

omit [Platform R] in
/-- The instance of an argument is exchanged as in the protocol. -/
theorem In.setInst {argI : Fin n} {inst : Option I}
    (hstep : SilentStep r (p, v) (q, v.setArg argI inst)) :
    Spec (In r p v) (setInst argI inst : Run R I σ n Unit)
      (fun _ => In r q (v.setArg argI inst)) (Off r) := by
  refine In.change (fun _ => rfl) ?_ hstep
  rintro s rfl
  exact view_setInst s argI inst

/-- **What a candidate comes to.** -/
theorem Shrinks.judgeCandidate (a : Attempt I n) (candidate : Option I)
    (currentPool candidatePool : Option BitPool) (res : TrialRes) :
    Shrinks r v₀ (.settled a candidate res)
      (judgeCandidate r a.argI a.current candidate currentPool candidatePool res :
        Run R I σ n _) (Stage.afterTactic a.argI a.tactic a.progress) := by
  apply Shrinks.of_in
  intro v hv
  have hpool : ∀ p v, Proceeds r p v
      (ifAutoshrink r a.argI (Theft.freePoolPtr currentPool) : Run R I σ n Unit) fun _ => p :=
    fun p v => Proceeds.unseen (Unseen.ifFreeing r a.argI (Freeing.freePoolPtr currentPool))
  have back : Spec (In r (.reverting a (.freeing a.argI candidate (.next a))) v) (do
      Theft.setInst a.argI a.current
      Theft.revertPool r a.argI currentPool candidatePool
      freeInst r a.argI candidate
      return none : Run R I σ n (Option AttemptRes))
      (fun res => DuringTrial r v₀ (Stage.afterTactic a.argI a.tactic a.progress res)) (Off r) := by
    apply Spec.bind (In.setInst .revert)
    intro _
    apply Spec.bind (Proceeds.unseen (Unseen.revertPool r a.argI currentPool candidatePool))
    intro _
    apply Spec.bind (Proceeds.free a.argI candidate)
    intro _
    exact Proceeds.within (hv.setArg a.argI a.current) (Proceeds.ret rfl)
  have lost : Spec (In r (.freeing a.argI a.current (.shrunk false)) v) (do
      freeInst r a.argI a.current
      ifAutoshrink r a.argI (Theft.freePoolPtr currentPool)
      return some .error : Run R I σ n (Option AttemptRes))
      (fun res => DuringTrial r v₀ (Stage.afterTactic a.argI a.tactic a.progress res)) (Off r) := by
    apply Spec.bind (Proceeds.free a.argI a.current)
    intro _
    apply Spec.bind (hpool _ _)
    intro _
    exact Proceeds.within hv (Proceeds.ret rfl)
  apply Spec.bind (Proceeds.unseen (Unseen.autoshrinkUpdateModel r a.argI res 8))
  intro _
  cases res with
  | pass => exact back
  | skip => exact back
  | fail =>
    apply Spec.bind (hpool _ _)
    intro _
    apply Spec.bind (Proceeds.free a.argI a.current)
    intro _
    exact Proceeds.within hv (Proceeds.ret rfl)
  | dup => exact lost
  | error => exact lost

namespace Stage

/-- Whether the candidate was called before -/
def afterCheck (a : Attempt I n) (candidate : Option I) : Bool → Stage I n
  | true => freeing a.argI candidate (reverting a (next a))
  | false => trying a candidate false

end Stage

theorem Proceeds.skipCalled (a : Attempt I n) (candidate : Option I) :
    Proceeds r (.checking a candidate) v (skipCalled r : Run R I σ n Bool)
      (Stage.afterCheck a candidate) := by
  apply Proceeds.read
  intro s hs
  split
  · apply In.before .check
    apply Spec.bind Proceeds.callCheckCalled
    intro called
    split
    · exact Proceeds.last .called
    · apply In.before .markCandidate
      apply Spec.bind Proceeds.callMarkCalled
      intro _
      exact Proceeds.ret rfl
  · exact Proceeds.last .unchecked

theorem Shrinks.tryCandidate (fuel : Nat) (a : Attempt I n) (candidate : Option I)
    (currentPool candidatePool : Option BitPool) :
    Shrinks r v₀ (.accepted a candidate)
      (tryCandidate fuel r a.argI a.tactic a.current candidate currentPool candidatePool :
        Run R I σ n _) (Stage.afterTactic a.argI a.tactic a.progress) := by
  apply Shrinks.of_in
  intro v hv
  have hv' := hv.setArg a.argI candidate
  apply Spec.bind (In.setInst .exchange)
  intro _
  apply Spec.bind (Proceeds.unseen (Steady.ifAutoshrink r a.argI (Unseen.setPool _ _)))
  intro _
  apply Spec.bind (Proceeds.skipCalled a candidate)
  intro called
  cases called with
  | true =>
    apply Spec.bind (Proceeds.free a.argI candidate)
    intro _
    apply Spec.bind (Proceeds.unseen (Unseen.revertPool r a.argI currentPool candidatePool))
    intro _
    apply Spec.bind (In.setInst .revert)
    intro _
    exact Proceeds.within (hv'.setArg a.argI a.current) (Proceeds.ret rfl)
  | false =>
    apply Spec.bind ((Shrinks.shrinkTrials a candidate fuel false).run hv')
    intro res
    cases res with
    | some res => exact Shrinks.judgeCandidate a candidate currentPool candidatePool res
    | none =>
      apply Shrinks.of_in
      intro v hv
      apply Spec.bind (Proceeds.free a.argI a.current)
      intro _
      apply Spec.bind (Proceeds.unseen (Unseen.ifFreeing r a.argI (Freeing.freePoolIf currentPool)))
      intro _
      exact Proceeds.within hv (Proceeds.ret rfl)

/-! ## Attempts -/

theorem Shrinks.attemptTactic (fuel : Nat) {argI : Fin n} {tactic : Nat} {progress : Bool}
    (htactic : tactic < maxTactics) :
    Shrinks r v₀ (.attempting argI tactic progress)
      (attemptTactic fuel r argI tactic : Run R I σ n _)
      (Stage.afterTactic argI tactic progress) := by
  apply Shrinks.of_in
  intro v hv
  apply Proceeds.read
  intro s hs
  have hcurrent : (s.trial.args argI).inst = v.args argI := by
    rw [← hs]
    rfl
  dsimp only
  rw [hcurrent]
  apply Spec.bind (Proceeds.shrinkPreHook htactic)
  intro answer
  cases answer with
  | halt => exact Proceeds.within hv (Proceeds.ret rfl)
  | error => exact Proceeds.within hv (Proceeds.ret rfl)
  | cont =>
    generalize ha : (⟨argI, tactic, v.args argI, progress⟩ : Attempt I n) = a
    obtain ⟨rfl, rfl, hinst, rfl⟩ : a.argI = argI ∧ a.tactic = tactic ∧ a.current = v.args argI ∧
        a.progress = progress := by
      subst ha
      exact ⟨rfl, rfl, rfl, rfl⟩
    rw [← hinst]
    apply Spec.bind (Proceeds.candidate fuel a)
    rintro ⟨sres, candidate, candidatePool⟩
    apply Spec.bind (Proceeds.unseen (Effect.bind Effect.get fun _ => Effect.pure _))
    intro currentPool
    refine Spec.bind (In.change (fun _ => rfl) ?_ .countAttempt) fun _ => ?_
    · rintro s rfl
      rfl
    apply Spec.bind (Proceeds.shrinkPostHook a sres candidate)
    intro answer
    have hv' : View.Sibling { v with shrinkCount := v.shrinkCount + 1 } v₀ :=
      ⟨hv.counters, hv.trial, hv.seed⟩
    cases answer with
    | error =>
      apply Spec.bind (Proceeds.free a.argI candidate)
      intro _
      apply Spec.bind (Proceeds.unseen (Unseen.of_freeing (Freeing.freePoolIf candidatePool)))
      intro _
      exact Proceeds.within hv' (Proceeds.ret rfl)
    | cont =>
      cases sres with
      | ok =>
        exact (Shrinks.tryCandidate fuel a candidate currentPool candidatePool).run hv'
      | deadEnd => exact Proceeds.within hv' (Proceeds.ret rfl)
      | noMoreTactics => exact Proceeds.within hv' (Proceeds.ret rfl)
      | error => exact Proceeds.within hv' (Proceeds.ret rfl)

theorem Shrinks.attemptTactics (fuel : Nat) (argI : Fin n) (progress : Bool) (left : Nat) :
    ∀ tactic, tactic + left = maxTactics →
      Shrinks r v₀ (.attempting argI tactic progress)
        (attemptTactics fuel r argI left tactic : Run R I σ n _)
        (Stage.afterAttempt argI progress) := by
  induction left with
  | zero =>
    intro tactic htactic
    rw [Nat.add_zero] at htactic
    apply Shrinks.of_in
    intro v hv
    rw [htactic]
    exact Proceeds.within hv (Proceeds.last .lastTactic)
  | succ left ih =>
    intro tactic htactic
    apply Spec.bind (Shrinks.attemptTactic fuel (by omega))
    intro res
    cases res with
    | some res => exact Spec.pure fun _ h => h
    | none => exact ih (tactic + 1) (by omega)

theorem Shrinks.attemptToShrinkArg (fuel : Nat) (argI : Fin n) (progress : Bool) :
    Shrinks r v₀ (.attempting argI 0 progress)
      (attemptToShrinkArg fuel r argI : Run R I σ n _) (Stage.afterAttempt argI progress) :=
  Shrinks.attemptTactics fuel argI progress maxTactics 0 (Nat.zero_add _)

omit [Platform R] in
theorem Shrinks.before {m : Run R I σ n α} {q' : α → Stage I n}
    (hstep : ∀ v, SilentStep r (p, v) (q, v)) (hm : Shrinks r v₀ q m q') : Shrinks r v₀ p m q' := by
  apply Shrinks.of_in
  intro v hv
  exact In.before (hstep v) (hm.run hv)

/-- **The two loops of `theft_shrink`.** -/
theorem Shrinks.shrinkFrom (inner fuel : Nat) : ∀ argI progress, argI ≤ n →
    Shrinks r v₀ (.shrinking argI progress)
      (shrinkFrom inner r fuel argI progress : Run R I σ n Bool) Stage.shrunk := by
  induction fuel with
  | zero =>
    intro argI progress _
    apply Shrinks.of_in
    intro v hv
    exact Proceeds.within hv Proceeds.stop
  | succ fuel ih =>
    intro argI progress hle
    unfold Theft.shrinkFrom
    split
    · rename_i hlt
      split
      · rename_i hshrink
        have hstep : ∀ v, SilentStep r (.shrinking argI progress, v)
            (.attempting ⟨argI, hlt⟩ 0 progress, v) := fun _ => .attempt hshrink
        apply Shrinks.before hstep
        apply Spec.bind (Shrinks.attemptToShrinkArg inner ⟨argI, hlt⟩ progress)
        intro res
        cases res with
        | ok => exact ih argI true hle
        | halt => exact Spec.pure fun _ h => h
        | deadEnd => exact ih (argI + 1) progress hlt
        | error => exact Spec.pure fun _ h => h
      · rename_i hnot
        rw [not_or, Option.not_isSome_iff_eq_none, Bool.not_eq_true] at hnot
        have hstep : ∀ v, SilentStep r (.shrinking argI progress, v)
            (.shrinking (argI + 1) progress, v) := fun _ => .unshrinkable hnot.1 hnot.2
        exact Shrinks.before hstep (ih (argI + 1) progress hlt)
    · rename_i hge
      obtain rfl : argI = n := Nat.le_antisymm hle (Nat.le_of_not_lt hge)
      cases progress with
      | true => exact Shrinks.before (fun _ => .anotherRound) (ih 0 false (Nat.zero_le _))
      | false => exact Shrinks.before (fun _ => .minimal) (Spec.pure fun _ h => h)

theorem Shrinks.shrink (fuel : Nat) : Shrinks r v₀ (.shrinking 0 false)
    (shrink fuel r : Run R I σ n Bool) Stage.shrunk := by
  have hrequire : Shrinks r v₀ (.shrinking 0 false)
      (require (0 < n) .assertion : Run R I σ n Unit) fun _ => .shrinking 0 false := by
    unfold Exec.require
    split
    · exact Spec.pure fun _ h => h
    · apply Shrinks.of_in
      intro v hv
      exact Proceeds.within hv Proceeds.stop
  apply Spec.bind hrequire
  intro _
  exact Shrinks.shrinkFrom fuel fuel 0 false (Nat.zero_le n)

end

end Theft
