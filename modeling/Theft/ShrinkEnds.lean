import Theft.MutationEnds
import Theft.ShrinkStep

/-!
# Shrinking comes to an end

* `Prompt`: a program of the runner that does not stop for want of fuel;
* `attemptTactics_settles`: an attempt to shrink an argument comes to one end;
* `shrinkFrom_returns`: the loops of `theft_shrink` return, where every exchange of an argument
  goes down in a well-founded order.
-/

namespace Theft

open PackedBits Exec

/-! ## Weights of the mutations -/

/-- An adjusted weight stays within its bounds, so none becomes 0. -/
theorem adjust_sub {model : AutoshrinkModel} (hsub : model.weights .sub ≠ 0)
    (w : AutoshrinkAction) {min max : Byte} (hmin : min ≠ 0) (hmax : max ≠ 0) (adjustment : Byte) :
    (adjust model w min max adjustment).weights .sub ≠ 0 := by
  unfold adjust
  dsimp only
  generalize (if model.curSet w then model.weights w + adjustment
    else if model.curTried w && (0#8).slt adjustment then model.weights w - adjustment
    else 0) = nv
  by_cases hnv : nv ≠ 0
  · rw [if_pos hnv]
    dsimp only
    split
    · split
      · exact hmax
      · split
        · exact hmin
        · exact hnv
    · exact hsub
  · rw [if_neg hnv]
    exact hsub

theorem updateModel_weighted {model : AutoshrinkModel} (h : model.Weighted) (res : TrialRes)
    (adjustment : Byte) : (updateModel model res adjustment).Weighted := by
  obtain hsub | ⟨hdrop, hset⟩ := h
  · left
    unfold updateModel
    split
    · apply adjust_sub _ _ (by decide) (by decide)
      apply adjust_sub _ _ (by decide) (by decide)
      apply adjust_sub _ _ (by decide) (by decide)
      apply adjust_sub _ _ (by decide) (by decide)
      exact adjust_sub hsub _ (by decide) (by decide) _
    · exact hsub
  · right
    rw [updateModel, if_neg (by simp [hset])]
    exact ⟨hdrop, hset⟩

namespace Ended

theorem checkChunks (size2 : Nat) (hash : Word) (bits : List Byte) (is : List Nat) :
    Ended (checkChunks size2 hash bits is) := by
  induction is with
  | nil => exact ok _
  | cons i is ih =>
    rw [Theft.checkChunks]
    split
    · exact ih
    · exact ok _
    · exact error (by decide)

theorem bloomCheck (bloom : Bloom) (data : List Byte) : Ended (bloomCheck bloom data) := by
  have chain : ∀ hash filters, Ended (checkChain hash filters) := by
    intro hash filters
    induction filters with
    | nil => exact ok _
    | cons bf next ih =>
      have hchunks := checkChunks bf.size2 hash bf.bits (List.range hashCount)
      rw [checkChain]
      split
      · exact ok _
      · exact ih
      · rename_i e he
        rw [he] at hchunks
        intro h
        cases h
        exact hchunks rfl
  exact chain _ _

theorem markChunks (size2 : Nat) (hash : Word) (is : List Nat) :
    ∀ bits anySet, Ended (markChunks size2 hash is bits anySet) := by
  induction is with
  | nil => exact fun _ _ => ok _
  | cons i is ih =>
    intro bits anySet
    rw [Theft.markChunks]
    split
    · exact ih _ _
    · exact error (by decide)

theorem bloomMark (malloc : Nat → Bool) (bloom : Bloom) (data : List Byte) :
    Ended (bloomMark malloc bloom data) := by
  unfold Theft.bloomMark bloomMarkHash
  dsimp only
  split
  · exact ok _
  · rename_i bf next _
    have hchunks := markChunks bf.size2 (hashOnepass data >>> bloom.topBlock2)
      (List.range hashCount) bf.bits false
    split
    · split
      · rename_i e he
        rw [he] at hchunks
        intro h
        cases h
        exact hchunks rfl
      · split
        · exact ok _
        · split
          · exact ok _
          · split
            · exact ok _
            · exact ok _
    · exact error (by decide)

theorem autoshrinkHash (env : AutoshrinkEnv) : Ended (autoshrinkHash env) := by
  unfold Theft.autoshrinkHash
  split
  · exact error (by decide)
  · apply map
    unfold sunkBytes
    split
    · split
      · split
        · exact error (by decide)
        · exact ok _
      · exact ok _
    · exact error (by decide)

end Ended

/-! ## Programs that need no fuel -/

section
variable {R I σ : Type} {n : Nat} {α β : Type} {r : Runner I σ n}

/-- Every model of an argument has a weight for a mutation, or will have one. -/
def RunState.Weighted (s : RunState R I σ n) : Prop :=
  ∀ i env, (s.trial.args i).env = some env → env.model.Weighted

/-- One argument is changed, and its model is still weighted. -/
theorem RunState.Weighted.modifyArg {s : RunState R I σ n} (h : s.Weighted) {i : Fin n}
    {f : ArgInfo I → ArgInfo I}
    (hf : ∀ env, (f (s.trial.args i)).env = some env → env.model.Weighted) :
    ({ s with trial := s.trial.modifyArg i f } : RunState R I σ n).Weighted := by
  intro j env henv
  by_cases hji : j = i
  · subst hji
    rw [show ({ s with trial := s.trial.modifyArg j f } : RunState R I σ n).trial.args j =
      f (s.trial.args j) from modifyArg_same _ _ _] at henv
    exact hf env henv
  · rw [show ({ s with trial := s.trial.modifyArg i f } : RunState R I σ n).trial.args j =
      s.trial.args j from modifyArg_other _ hji _] at henv
    exact h j env henv

/-- Between callbacks, with weights for mutations. -/
structure RunState.Weighable (s : RunState R I σ n) : Prop where
  prng : s.prng.Inv
  noPool : s.prng.bitPool = none
  weighted : s.Weighted

theorem RunState.Weighable.modifyArg {s : RunState R I σ n} (h : s.Weighable) {i : Fin n}
    {f : ArgInfo I → ArgInfo I}
    (hf : ∀ env, (f (s.trial.args i)).env = some env → env.model.Weighted) :
    ({ s with trial := s.trial.modifyArg i f } : RunState R I σ n).Weighable :=
  ⟨h.prng, h.noPool, h.weighted.modifyArg hf⟩

/-- The program does not stop for want of fuel. -/
abbrev Prompt (m : Run R I σ n α) : Prop :=
  Spec RunState.Weighable m (fun _ => RunState.Weighable) fun e _ => e ≠ .fuel

theorem Prompt.settles {m : Run R I σ n α} (h : Prompt m) :
    Settles .fuel RunState.Weighable (fun _ => m) fun _ => RunState.Weighable := .const h

namespace Prompt

theorem pure (a : α) : Prompt (pure a : Run R I σ n α) := Spec.pure fun _ hs => hs

theorem get : Prompt (get : Run R I σ n (RunState R I σ n)) := Spec.get fun _ hs => hs

theorem throw {e : Stop} (he : e ≠ .fuel) : Prompt (throw e : Run R I σ n α) :=
  Spec.throw fun _ _ => he

theorem attempt {x : Except Stop α} (hx : Ended x) : Prompt (attempt x : Run R I σ n α) := by
  intro s hs
  cases x with
  | ok a => exact hs
  | error e =>
    intro he
    exact hx (by rw [he])

/-- A change of the state outside of arguments and random bits. -/
theorem modify {f : RunState R I σ n → RunState R I σ n} (hprng : ∀ s, (f s).prng = s.prng)
    (hargs : ∀ s, (f s).trial.args = s.trial.args) : Prompt (modify f) := by
  refine Spec.modify fun s hs => ⟨?_, ?_, ?_⟩
  · rw [hprng]
    exact hs.prng
  · rw [hprng]
    exact hs.noPool
  · intro i
    rw [hargs]
    exact hs.weighted i

theorem record (event : Event I n) : Prompt (record event : Run R I σ n Unit) :=
  modify (fun _ => rfl) fun _ => rfl

theorem modifyTrial {f : TrialInfo I n → TrialInfo I n} (hf : ∀ t, (f t).args = t.args) :
    Prompt (modifyTrial f : Run R I σ n Unit) := modify (fun _ => rfl) fun _ => hf _

theorem setInst (argI : Fin n) (inst : Option I) : Prompt (setInst argI inst : Run R I σ n Unit) :=
  Spec.modify fun _ hs => hs.modifyArg fun env henv => hs.weighted argI env henv

theorem setPool (argI : Fin n) (pool : Option BitPool) :
    Prompt (setPool argI pool : Run R I σ n Unit) := by
  refine Spec.modify fun s hs => hs.modifyArg fun env henv => ?_
  obtain ⟨env', henv', rfl⟩ := Option.map_eq_some_iff.mp henv
  exact hs.weighted argI env' henv'

theorem currentPool (argI : Fin n) : Prompt (currentPool argI : Run R I σ n _) := by
  apply Spec.bind get
  intro s
  exact pure _

theorem ifAutoshrink {argI : Fin n} {m : Run R I σ n Unit} (h : Prompt m) :
    Prompt (ifAutoshrink r argI m) := by
  unfold Theft.ifAutoshrink
  split
  · exact h
  · exact pure ()

theorem freePool (pool : BitPool) : Prompt (freePool pool : Run R I σ n Unit) := by
  intro s hs
  have hended := Ended.freeBitPool s.prng pool s.ledger
  unfold Theft.freePool
  rw [bind_apply, get_apply]
  dsimp only
  cases hfree : freeBitPool s.prng pool s.ledger with
  | ok ledger => exact ⟨hs.prng, hs.noPool, hs.weighted⟩
  | error e =>
    rw [hfree] at hended
    intro he
    exact hended (by rw [he])

theorem freePoolIf (pool : Option BitPool) : Prompt (freePoolIf pool : Run R I σ n Unit) := by
  cases pool with
  | none => exact pure ()
  | some pool => exact freePool pool

theorem freePoolPtr (pool : Option BitPool) : Prompt (freePoolPtr pool : Run R I σ n Unit) := by
  cases pool with
  | none => exact throw (by decide)
  | some pool => exact freePool pool

theorem autoshrinkUpdateModel (argI : Fin n) (res : TrialRes) (adjustment : Byte) :
    Prompt (autoshrinkUpdateModel r argI res adjustment : Run R I σ n Unit) := by
  apply ifAutoshrink
  refine Spec.modify fun s hs => hs.modifyArg fun env henv => ?_
  obtain ⟨env', henv', rfl⟩ := Option.map_eq_some_iff.mp henv
  exact updateModel_weighted (hs.weighted argI env' henv') res adjustment

theorem countShrink (argI : Fin n) (res : TrialRes) (repeated : Bool) :
    Prompt (countShrink r argI res repeated : Run R I σ n Unit) := by
  unfold Theft.countShrink
  split
  · exact pure ()
  · split
    · refine Spec.bind (modifyTrial ?_) fun _ => ?_
      · exact fun _ => rfl
      · exact autoshrinkUpdateModel argI res 3
    · exact modifyTrial fun _ => rfl

theorem revertPool (argI : Fin n) (currentPool candidatePool : Option BitPool) :
    Prompt (revertPool r argI currentPool candidatePool : Run R I σ n Unit) := by
  apply ifAutoshrink
  apply Spec.bind (setPool argI currentPool)
  intro _
  exact freePoolPtr candidatePool

/-! ### Callbacks -/

variable [Platform R]

theorem runCallback {g : σ → Gen (α × σ)} (hg : ∀ u, (g u).Sized) :
    Prompt (runCallback g : Run R I σ n α) := by
  intro s hs
  obtain ⟨a, u, p', hrun, hp', hpool, -⟩ := runCallback_run (hg s.user) hs.prng hs.noPool
  rw [hrun]
  exact ⟨hp', hpool, hs.weighted⟩

theorem runPlain (f : σ → α × σ) : Prompt (runPlain f : Run R I σ n α) :=
  runCallback fun _ => trivial

theorem ask {event : Event I n} {answer : α → Event I n} {g : σ → Gen (α × σ)}
    (hg : ∀ u, (g u).Sized) : Prompt (ask event answer g : Run R I σ n α) := by
  apply Spec.bind (record event)
  intro _
  apply Spec.bind (runCallback hg)
  intro a
  apply Spec.bind (record (answer a))
  intro _
  exact pure a

theorem askHook {Info Res : Type} (hook : Option (Info → σ → Res × σ)) (info : Info) (dflt : Res)
    (event : Event I n) (answer : Res → Event I n) :
    Prompt (askHook hook info dflt event answer : Run R I σ n Res) := by
  cases hook with
  | none => exact pure dflt
  | some f => exact ask fun _ => trivial

theorem freeInst (argI : Fin n) (inst : Option I) :
    Prompt (freeInst r argI inst : Run R I σ n Unit) := by
  unfold Theft.freeInst freeWith
  split
  · exact pure ()
  · apply Spec.bind (record _)
    intro _
    exact runPlain _

theorem shrinkPreHook (argI : Fin n) (arg : Option I) (tactic : Nat) :
    Prompt (shrinkPreHook r argI arg tactic : Run R I σ n _) := by
  apply Spec.bind get
  intro s
  exact askHook _ _ _ _ _

theorem shrinkPostHook (argI : Fin n) (arg : Option I) (tactic : Nat) (sres : ShrinkRes) :
    Prompt (shrinkPostHook r argI arg tactic sres : Run R I σ n _) := by
  unfold Theft.shrinkPostHook
  split
  · exact pure _
  · split
    · exact throw (by decide)
    · apply Spec.bind get
      intro s
      exact askHook _ _ _ _ _

theorem shrinkTrialPostHook (argI : Fin n) (args : Args I n) (tactic : Nat) (res : TrialRes) :
    Prompt (shrinkTrialPostHook r argI args tactic res : Run R I σ n _) := by
  apply Spec.bind get
  intro s
  exact askHook _ _ _ _ _

theorem call (hr : r.Sized) (args : Args I n) (rerun : Bool) :
    Prompt (call r args rerun : Run R I σ n _) := by
  apply Spec.bind get
  intro s
  exact ask fun u => hr.propFun args u

theorem hashArg (argI : Fin n) : Prompt (hashArg r argI : Run R I σ n _) := by
  apply Spec.bind get
  intro s
  dsimp only
  split
  · apply Spec.bind (record _)
    intro _
    exact runPlain _
  · split
    · exact attempt (.autoshrinkHash _)
    · exact throw (by decide)

theorem getArgHashBuffer (is : List (Fin n)) :
    Prompt (getArgHashBuffer r is : Run R I σ n _) := by
  induction is with
  | nil => exact pure _
  | cons i is ih =>
    apply Spec.bind (hashArg i)
    intro h
    apply Spec.bind ih
    intro hs
    exact pure _

theorem callCheckCalled : Prompt (callCheckCalled r : Run R I σ n _) := by
  apply Spec.bind (getArgHashBuffer _)
  intro buffer
  apply Spec.bind get
  intro s
  split
  · exact throw (by decide)
  · exact attempt (.bloomCheck _ _)

theorem callMarkCalled : Prompt (callMarkCalled r : Run R I σ n _) := by
  apply Spec.bind (getArgHashBuffer _)
  intro buffer
  apply Spec.bind get
  intro s
  split
  · exact throw (by decide)
  · apply Spec.bind (attempt (.bloomMark _ _ _))
    intro marked
    exact modify (fun _ => rfl) fun _ => rfl

theorem skipCalled : Prompt (skipCalled r : Run R I σ n _) := by
  apply Spec.bind get
  intro s
  split
  · apply Spec.bind callCheckCalled
    intro found
    split
    · exact pure _
    · apply Spec.bind callMarkCalled
      intro _
      exact pure _
  · exact pure _

theorem userCandidate (hr : r.Sized) (argI : Fin n) (current : Option I) (tactic : Nat) :
    Prompt (userCandidate r argI current tactic : Run R I σ n _) := by
  unfold Theft.userCandidate
  cases hshrink : (r.typeInfo argI).shrink with
  | none => exact throw (by decide)
  | some shrink =>
    apply Spec.bind (ask fun u => (hr.shrink argI shrink hshrink current tactic u).map)
    intro answer
    exact pure _

theorem judgeCandidate (argI : Fin n) (current candidate : Option I)
    (currentPool candidatePool : Option BitPool) (res : TrialRes) :
    Prompt (judgeCandidate r argI current candidate currentPool candidatePool res :
      Run R I σ n _) := by
  have back : Prompt (do
      Theft.setInst argI current
      Theft.revertPool r argI currentPool candidatePool
      Theft.freeInst r argI candidate
      return (none : Option AttemptRes) : Run R I σ n _) := by
    apply Spec.bind (setInst argI current)
    intro _
    apply Spec.bind (revertPool argI currentPool candidatePool)
    intro _
    apply Spec.bind (freeInst argI candidate)
    intro _
    exact pure _
  have failed : Prompt (do
      Theft.freeInst r argI current
      Theft.ifAutoshrink r argI (Theft.freePoolPtr currentPool)
      return some .error : Run R I σ n (Option AttemptRes)) := by
    apply Spec.bind (freeInst argI current)
    intro _
    apply Spec.bind (ifAutoshrink (freePoolPtr currentPool))
    intro _
    exact pure _
  apply Spec.bind (autoshrinkUpdateModel argI res 8)
  intro _
  cases res with
  | pass => exact back
  | skip => exact back
  | fail =>
    apply Spec.bind (ifAutoshrink (freePoolPtr currentPool))
    intro _
    apply Spec.bind (freeInst argI current)
    intro _
    exact pure _
  | dup => exact failed
  | error => exact failed

end Prompt

/-! ## Programs that need some -/

variable [Platform R]

/-- No hook asks for the same call again. -/
def Runner.NeverRepeats (r : Runner I σ n) : Prop :=
  ∀ hook, r.hooks.shrinkTrialPost = some hook → ∀ info u,
    (hook info u).1 ≠ .repeat_ ∧ (hook info u).1 ≠ .repeatOnce

/-- The hook after a call with a candidate does not ask for another one. -/
theorem shrinkTrialPostHook_answer (hrepeats : r.NeverRepeats) (argI : Fin n) (args : Args I n)
    (tactic : Nat) (res : TrialRes) :
    Spec RunState.Weighable (shrinkTrialPostHook r argI args tactic res : Run R I σ n _)
      (fun answer s => s.Weighable ∧ answer ≠ .repeat_ ∧ answer ≠ .repeatOnce)
      fun e _ => e ≠ .fuel := by
  refine Spec.also (Prompt.shrinkTrialPostHook argI args tactic res) fun s answer t _ hrun => ?_
  unfold shrinkTrialPostHook at hrun
  rw [bind_apply, get_apply] at hrun
  dsimp only at hrun
  cases hhook : r.hooks.shrinkTrialPost with
  | none =>
    rw [hhook] at hrun
    cases hrun
    exact ⟨by decide, by decide⟩
  | some hook =>
    rw [hhook] at hrun
    cases hrun
    exact hrepeats hook hhook _ _

/-- The property is called with a candidate once. -/
theorem shrinkTrials_settles (hr : r.Sized) (hrepeats : r.NeverRepeats) (argI : Fin n)
    (tactic : Nat) (repeated : Bool) :
    Settles .fuel RunState.Weighable
      (fun fuel => (shrinkTrials r argI tactic fuel repeated : Run R I σ n _))
      fun _ => RunState.Weighable := by
  apply Settles.step
  apply Settles.bind (Prompt.settles Prompt.get)
  intro s
  apply Settles.bind (Prompt.settles (Prompt.call hr _ _))
  intro res
  apply Settles.bind (Prompt.settles (Prompt.countShrink argI res repeated))
  intro _
  apply Settles.bind (.const (shrinkTrialPostHook_answer hrepeats argI _ tactic res))
  rintro answer t ⟨ht, hrepeat, honce⟩
  cases answer with
  | repeat_ => exact absurd rfl hrepeat
  | repeatOnce => exact absurd rfl honce
  | cont => exact (Prompt.settles (Prompt.pure _)) t ht
  | error => exact (Prompt.settles (Prompt.pure _)) t ht

theorem tryCandidate_settles (hr : r.Sized) (hrepeats : r.NeverRepeats) (argI : Fin n)
    (tactic : Nat) (current candidate : Option I) (currentPool candidatePool : Option BitPool) :
    Settles .fuel RunState.Weighable
      (fun fuel => (tryCandidate fuel r argI tactic current candidate currentPool candidatePool :
        Run R I σ n _))
      fun _ => RunState.Weighable := by
  apply Settles.bind (Prompt.settles (Prompt.setInst argI candidate))
  intro _
  apply Settles.bind (Prompt.settles (Prompt.ifAutoshrink (Prompt.setPool argI candidatePool)))
  intro _
  apply Settles.bind (Prompt.settles Prompt.skipCalled)
  intro found
  cases found with
  | true =>
    apply Settles.bind (Prompt.settles (Prompt.freeInst argI candidate))
    intro _
    apply Settles.bind (Prompt.settles (Prompt.revertPool argI currentPool candidatePool))
    intro _
    apply Settles.bind (Prompt.settles (Prompt.setInst argI current))
    intro _
    exact Prompt.settles (Prompt.pure _)
  | false =>
    apply Settles.bind (shrinkTrials_settles hr hrepeats argI tactic false)
    intro out
    cases out with
    | some res => exact Prompt.settles (Prompt.judgeCandidate argI _ _ _ _ res)
    | none =>
      apply Settles.bind (Prompt.settles (Prompt.freeInst argI current))
      intro _
      apply Settles.bind (Prompt.settles (Prompt.ifAutoshrink (Prompt.freePoolIf currentPool)))
      intro _
      exact Prompt.settles (Prompt.pure _)

/-- A shrinking step of an argument that is autoshrunk. -/
theorem autoshrinkCandidate_settles (hfair : Fair R) (hr : r.Sized) {argI : Fin n}
    (henable : r.autoshrinks argI = true) (tactic : Nat) :
    Settles .fuel (fun s => s.Ready r ∧ s.Weighable)
      (fun fuel => (autoshrinkCandidate fuel r argI tactic : Run R I σ n _))
      fun _ => RunState.Weighable := by
  apply Settles.getThen
  rintro s ⟨hs, hweighable⟩
  obtain ⟨env, pool, ha⟩ := hs.args argI henable
  have step : Settles .fuel (fun t => t = s)
      (fun fuel => zoomEnv argI env
        (autoshrinkShrink fuel ((r.typeInfo argI).alloc s.user) tactic))
      fun _ => RunState.Weighable := by
    apply Settles.zoom
    intro t ht
    rw [ht, ha.hasEnv, Option.getD_some]
    refine (autoshrinkShrink_settles hfair (ha.auto hs) (hweighable.weighted argI env ha.hasEnv)
      ha.hasPool ha.valid (hr.alloc argI s.user) tactic).mono (fun _ h => h) fun _ t ht => ?_
    have hready : ({ s with prng := t.prng, ledger := t.ledger } : RunState R I σ n).Weighable :=
      ⟨ht.prng, ht.noPool, hweighable.weighted⟩
    refine hready.modifyArg fun env' henv => ?_
    cases henv
    exact ht.weighted
  rw [ha.hasEnv]
  apply Settles.bind step
  intro answer
  obtain ⟨sres, res, pool'⟩ := answer
  cases res with
  | none => exact Prompt.settles (Prompt.pure _)
  | some res =>
    apply Settles.bind (Prompt.settles (Prompt.record _))
    intro _
    apply Settles.bind (Prompt.settles (Prompt.record _))
    intro _
    refine Settles.bind (Prompt.settles (Prompt.modify ?_ ?_)) fun _ => ?_
    · exact fun _ => rfl
    · exact fun _ => rfl
    · exact Prompt.settles (Prompt.pure _)

/-- One tactic, from a state in which everything is held since `s`. -/
theorem attemptTactic_settles {argI : Fin n} (hfair : r.autoshrinks argI = true → Fair R)
    (hr : r.Sized) (hrepeats : r.NeverRepeats) {s : RunState R I σ n} (hs : s.Ready r)
    (hshrinkable : r.shrinkable argI) (tactic : Nat) :
    Settles .fuel (fun t => Held r s t ∧ t.Weighable) (fun fuel => attemptTactic fuel r argI tactic)
      fun out t => t.Weighable ∧ Attempted r argI tactic s out t := by
  have tried : Settles .fuel (fun t => Held r s t ∧ t.Weighable)
      (fun fuel => attemptTactic fuel r argI tactic) fun _ => RunState.Weighable := by
    apply Settles.getThen
    rintro t ⟨ht, hweighable⟩
    have hkeeps : Keeps r s (shrinkPreHook r argI (t.trial.args argI).inst tactic) _ :=
      Keeps.shrinkPreHook argI _ tactic
    have hook : Settles .fuel (fun u => u = t)
        (fun _ => shrinkPreHook r argI (t.trial.args argI).inst tactic)
        fun _ u => u.Weighable ∧ u.Ready r := by
      refine (Settles.also (Prompt.settles (Prompt.shrinkPreHook argI _ tactic)) fun _ =>
        hkeeps).mono ?_ ?_
      · intro u hu
        rw [hu]
        exact ⟨hweighable, ht⟩
      · exact fun _ u hu => ⟨hu.1, hu.2.1.ready⟩
    apply Settles.bind hook
    intro answer
    cases answer with
    | halt => exact (Prompt.settles (Prompt.pure _)).mono (fun _ h => h.1) fun _ _ h => h
    | error => exact (Prompt.settles (Prompt.pure _)).mono (fun _ h => h.1) fun _ _ h => h
    | cont =>
      have offer : Settles .fuel (fun u => u.Weighable ∧ u.Ready r)
          (fun fuel => if r.autoshrinks argI = true then autoshrinkCandidate fuel r argI tactic
            else (userCandidate r argI (t.trial.args argI).inst tactic : Run R I σ n _))
          fun _ => RunState.Weighable := by
        by_cases henable : r.autoshrinks argI = true
        · simp only [if_pos henable]
          exact (autoshrinkCandidate_settles (hfair henable) hr henable tactic).mono
            (fun _ h => ⟨h.2, h.1⟩) fun _ _ h => h
        · simp only [if_neg henable]
          exact (Prompt.settles (Prompt.userCandidate hr argI _ tactic)).mono (fun _ h => h.1)
            fun _ _ h => h
      apply Settles.bind offer
      intro offered
      obtain ⟨sres, candidate, candidatePool⟩ := offered
      apply Settles.bind (Prompt.settles (Prompt.currentPool argI))
      intro currentPool
      refine Settles.bind (Prompt.settles (Prompt.modifyTrial ?_)) fun _ => ?_
      · exact fun _ => rfl
      apply Settles.bind (Prompt.settles (Prompt.shrinkPostHook argI _ tactic sres))
      intro answer
      cases answer with
      | error =>
        apply Settles.bind (Prompt.settles (Prompt.freeInst argI candidate))
        intro _
        apply Settles.bind (Prompt.settles (Prompt.freePoolIf candidatePool))
        intro _
        exact Prompt.settles (Prompt.pure _)
      | cont =>
        cases sres with
        | ok => exact tryCandidate_settles hr hrepeats argI tactic _ _ _ _
        | deadEnd => exact Prompt.settles (Prompt.pure _)
        | noMoreTactics => exact Prompt.settles (Prompt.pure _)
        | error => exact Prompt.settles (Prompt.pure _)
  refine (tried.also fun fuel => attemptTactic_spec hr hs hshrinkable fuel tactic).mono ?_ ?_
  · exact fun t ht => ⟨ht, ht.1⟩
  · exact fun _ _ h => h

/-- **An attempt comes to one end**, and what it did is known. -/
theorem attemptTactics_settles {argI : Fin n} (hfair : r.autoshrinks argI = true → Fair R)
    (hr : r.Sized) (hrepeats : r.NeverRepeats) {s : RunState R I σ n} (hs : s.Ready r)
    (hshrinkable : r.shrinkable argI) (left : Nat) : ∀ tactic,
    Settles .fuel (fun t => Held r s t ∧ t.Weighable)
      (fun fuel => attemptTactics fuel r argI left tactic)
      fun res t => t.Weighable ∧ ((res = .deadEnd ∧ Held r s t) ∨
        ∃ tactic, Attempted r argI tactic s (some res) t) := by
  induction left with
  | zero =>
    intro tactic
    exact .const (Spec.pure fun t ht => ⟨ht.2, .inl ⟨rfl, ht.1⟩⟩)
  | succ left ih =>
    intro tactic
    apply Settles.bind (attemptTactic_settles hfair hr hrepeats hs hshrinkable tactic)
    intro out
    cases out with
    | none =>
      refine (ih (tactic + 1)).mono ?_ fun _ _ h => h
      rintro t ⟨ht, hattempted⟩
      cases hattempted with
      | next hheld => exact ⟨hheld, ht⟩
    | some res => exact .const (Spec.pure fun t ht => ⟨ht.1, .inr ⟨tactic, ht.2⟩⟩)

/-! ## The loops -/

/-- With enough fuel the loops of `theft_shrink` return. -/
def LoopReturns (r : Runner I σ n) (argI : Nat) (progress : Bool) (s : RunState R I σ n) : Prop :=
  ∃ enough, ∀ inner fuel, enough ≤ inner → enough ≤ fuel →
    ∃ res t, shrinkFrom inner r fuel argI progress s = .ok res t

/-- No shrinking step answers an error that `shrink_post` would be told of. -/
def Tellable (r : Runner I σ n) (s : RunState R I σ n) : Prop :=
  r.hooks.shrinkPost.isSome → ∀ argI tactic inst copy,
    ¬ Offered r argI (s.trial.args argI) tactic (.error, inst, copy)

/-- Each exchange of an argument in a `good` state goes down in a well-founded order, nothing else
goes up in it, and `shrink_post` can be told what the steps answer. -/
structure GoesDown (r : Runner I σ n) (good : RunState R I σ n → Prop)
    (lower : RunState R I σ n → RunState R I σ n → Prop) : Prop where
  wf : WellFounded lower
  held : ∀ {s t u}, Held r s t → lower u t → lower u s
  goodHeld : ∀ {s t}, Held r s t → good s → good t
  exchanged : ∀ {argI tactic s t}, s.Ready r → good s →
    Attempted r argI tactic s (some .ok) t → lower t s ∧ good t
  tellable : ∀ {s}, s.Ready r → good s → Tellable r s

/-- What the loops need of a state to go on from it. -/
structure Resting (r : Runner I σ n) (good : RunState R I σ n → Prop) (s : RunState R I σ n) :
    Prop where
  ready : s.Ready r
  weighable : s.Weighable
  good : good s

/-- What the loops do with the result of an attempt. -/
def afterAttempt (inner : Nat) (r : Runner I σ n) (fuel argI : Nat) (progress : Bool) :
    AttemptRes → Run R I σ n Bool
  | .ok => shrinkFrom inner r fuel argI true
  | .halt => return true
  | .deadEnd => shrinkFrom inner r fuel (argI + 1) progress
  | .error => return false

theorem shrinkFrom_attempt {argI : Nat} (hlt : argI < n) (hshrinkable : r.shrinkable ⟨argI, hlt⟩)
    (inner fuel : Nat) (progress : Bool) (s : RunState R I σ n) :
    shrinkFrom inner r (fuel + 1) argI progress s =
      (attemptToShrinkArg inner r ⟨argI, hlt⟩ >>= afterAttempt inner r fuel argI progress) s := by
  rw [shrinkFrom, dif_pos hlt, if_pos hshrinkable, bind_apply, bind_apply]
  cases attemptToShrinkArg inner r ⟨argI, hlt⟩ s with
  | ok res t => cases res <;> rfl
  | error e t => rfl

/-- What follows an attempt returns, when the loops return from where it may lead. -/
theorem afterAttempt_returns {good : RunState R I σ n → Prop}
    {lower : RunState R I σ n → RunState R I σ n → Prop} (hdown : GoesDown r good lower)
    {s t : RunState R I σ n} (hs : Resting r good s) (ht : t.Weighable) {argI : Nat}
    (hlt : argI < n) {progress : Bool} {res : AttemptRes}
    (hres : (res = .deadEnd ∧ Held r s t) ∨
      ∃ tactic, Attempted r ⟨argI, hlt⟩ tactic s (some res) t)
    (hok : ∀ t, lower t s → Resting r good t → LoopReturns r argI true t)
    (hdead : ∀ t, Held r s t → Resting r good t → LoopReturns r (argI + 1) progress t) :
    ∃ enough, ∀ inner fuel, enough ≤ inner → enough ≤ fuel →
      ∃ out u, afterAttempt inner r fuel argI progress res t = .ok out u := by
  have dead (hheld : Held r s t) : LoopReturns r (argI + 1) progress t :=
    hdead t hheld ⟨hheld.ready, ht, hdown.goodHeld hheld hs.good⟩
  obtain ⟨rfl, hheld⟩ | ⟨tactic, hattempted⟩ := hres
  · exact dead hheld
  · cases res with
    | ok =>
      obtain ⟨hlower, hgood⟩ := hdown.exchanged hs.ready hs.good hattempted
      refine hok t hlower ⟨?_, ht, hgood⟩
      cases hattempted with
      | committed _ hheld => exact hheld.ready
    | halt => exact ⟨0, fun _ _ _ _ => ⟨true, t, rfl⟩⟩
    | deadEnd =>
      cases hattempted with
      | deadEnd hheld => exact dead hheld
    | error => exact ⟨0, fun _ _ _ _ => ⟨false, t, rfl⟩⟩

/-- Where the loops return after the next argument was tried, they return. -/
theorem LoopReturns.attempt {good : RunState R I σ n → Prop}
    {lower : RunState R I σ n → RunState R I σ n → Prop}
    (hfair : ∀ i, r.autoshrinks i = true → Fair R) (hr : r.Sized) (hrepeats : r.NeverRepeats)
    (hdown : GoesDown r good lower) {s : RunState R I σ n}
    (hs : Resting r good s) {argI : Nat} (hlt : argI < n) {progress : Bool}
    (hok : ∀ t, lower t s → Resting r good t → LoopReturns r argI true t)
    (hdead : ∀ t, Held r s t → Resting r good t → LoopReturns r (argI + 1) progress t) :
    LoopReturns r argI progress s := by
  by_cases hshrinkable : r.shrinkable ⟨argI, hlt⟩
  · obtain ⟨enough, ⟨res, t, ⟨ht, hres⟩, hrun⟩ | ⟨e, t, he, hrun⟩⟩ :=
      attemptTactics_settles (hfair _) hr hrepeats hs.ready hshrinkable maxTactics 0 s
        ⟨.refl hs.ready, hs.weighable⟩
    · obtain ⟨enough', hrest⟩ := afterAttempt_returns hdown hs ht hlt hres hok hdead
      refine ⟨max enough (enough' + 1), fun inner fuel hinner hfuel => ?_⟩
      obtain ⟨left, rfl⟩ : ∃ left, fuel = left + 1 := ⟨fuel - 1, by omega⟩
      have hreturned : attemptToShrinkArg inner r ⟨argI, hlt⟩ s = .ok res t := hrun inner (by omega)
      rw [shrinkFrom_attempt hlt hshrinkable, bind_of_ok hreturned]
      exact hrest inner left (by omega) (by omega)
    · have hstop : attemptToShrinkArg enough r ⟨argI, hlt⟩ s = .error e t :=
        hrun enough (Nat.le_refl _)
      obtain hfuel | ⟨-, hhook, tactic, inst, copy, herror⟩ :=
        (attemptToShrinkArg_spec hr hs.ready hshrinkable enough).stopped rfl hstop
      · exact absurd hfuel he
      · exact absurd herror (hdown.tellable hs.ready hs.good hhook _ _ _ _)
  · obtain ⟨enough, hrest⟩ := hdead s (.refl hs.ready) hs
    refine ⟨enough + 1, fun inner fuel hinner hfuel => ?_⟩
    obtain ⟨left, rfl⟩ : ∃ left, fuel = left + 1 := ⟨fuel - 1, by omega⟩
    have hskip : shrinkFrom inner r (left + 1) argI progress s =
        shrinkFrom inner r left (argI + 1) progress s := by
      rw [shrinkFrom, dif_pos hlt, if_neg hshrinkable]
    rw [hskip]
    exact hrest inner left (by omega) (by omega)

/-- A round over the arguments returns, when one that starts again does. -/
theorem LoopReturns.round {good : RunState R I σ n → Prop}
    {lower : RunState R I σ n → RunState R I σ n → Prop}
    (hfair : ∀ i, r.autoshrinks i = true → Fair R) (hr : r.Sized) (hrepeats : r.NeverRepeats)
    (hdown : GoesDown r good lower) {s : RunState R I σ n}
    (hless : ∀ t, lower t s → Resting r good t → ∀ argI ≤ n, ∀ progress,
      LoopReturns r argI progress t)
    {progress : Bool}
    (hagain : progress = true → ∀ t, Held r s t → Resting r good t → LoopReturns r 0 false t)
    (left : Nat) : ∀ (argI : Nat) (t : RunState R I σ n), argI + left = n → Held r s t →
      Resting r good t → LoopReturns r argI progress t := by
  induction left with
  | zero =>
    intro argI t hargI hheld ht
    have hend : ∀ inner fuel, shrinkFrom inner r (fuel + 1) argI progress t =
        (if progress then shrinkFrom inner r fuel 0 false else return true : Run R I σ n Bool)
          t := by
      intro inner fuel
      rw [shrinkFrom, dif_neg (by omega)]
    cases progress with
    | false =>
      refine ⟨1, fun inner fuel _ hfuel => ?_⟩
      obtain ⟨left, rfl⟩ : ∃ left, fuel = left + 1 := ⟨fuel - 1, by omega⟩
      exact ⟨true, t, hend inner left⟩
    | true =>
      obtain ⟨enough, hrest⟩ := hagain rfl t hheld ht
      refine ⟨enough + 1, fun inner fuel hinner hfuel => ?_⟩
      obtain ⟨left, rfl⟩ : ∃ left, fuel = left + 1 := ⟨fuel - 1, by omega⟩
      rw [hend inner left]
      exact hrest inner left (by omega) (by omega)
  | succ left ih =>
    intro argI t hargI hheld ht
    refine .attempt hfair hr hrepeats hdown ht (by omega) (fun u hu hgood => ?_)
      fun u hu hgood => ?_
    · exact hless u (hdown.held hheld hu) hgood argI (by omega) true
    · exact ih (argI + 1) u (by omega) (hheld.trans hu) hgood

/-- **The loops of `theft_shrink` return**, where every exchange goes down in a well-founded
order. -/
theorem shrinkFrom_returns {good : RunState R I σ n → Prop}
    {lower : RunState R I σ n → RunState R I σ n → Prop}
    (hfair : ∀ i, r.autoshrinks i = true → Fair R) (hr : r.Sized) (hrepeats : r.NeverRepeats)
    (hdown : GoesDown r good lower) (s : RunState R I σ n) :
    Resting r good s → ∀ argI ≤ n, ∀ progress, LoopReturns r argI progress s := by
  induction s using hdown.wf.induction with
  | h s ih =>
    intro hs argI hargI progress
    have last : ∀ argI ≤ n, ∀ t, Held r s t → Resting r good t → LoopReturns r argI false t :=
      fun argI hargI t => .round hfair hr hrepeats hdown ih (fun h => by cases h)
        (n - argI) argI t (by omega)
    exact .round hfair hr hrepeats hdown ih (fun _ => last 0 (Nat.zero_le n))
      (n - argI) argI s (by omega) (.refl hs.ready) hs

end

end Theft
