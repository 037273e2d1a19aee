import Theft.Errors

/-!
# Errors on their way through a run

Each program heeds the errors that its callbacks and hooks answer, from an attempt to shrink an
argument up to the run.
-/

namespace Theft

open PackedBits Exec

section
variable {R I σ : Type} {n : Nat} {α β : Type} [Platform R]
variable {r : Runner I σ n} {base : List (Event I n)} {called : Prop} {s t : RunState R I σ n}

/-! ## Calls and hooks -/

namespace Heeds

omit [Platform R] in
/-- A step that calls nothing. -/
theorem change {f : RunState R I σ n → RunState R I σ n} (hprng : ∀ s, (f s).prng = s.prng)
    (htrace : ∀ s, (f s).trace = s.trace) :
    Heeds r base (Calm base called) (modify f) (fun _ => False) fun _ => Calm base called :=
  quiet (.of_quits (.modify hprng)) (Effect.modify fun s => .of_eq (htrace s))

omit [Platform R] in
theorem modifyTrial (f : TrialInfo I n → TrialInfo I n) :
    Heeds r base (Calm base called) (modifyTrial f : Run R I σ n Unit) (fun _ => False)
      fun _ => Calm base called := change (fun _ => rfl) fun _ => rfl

theorem skipCalled : Heeds r base (Calm base called) (skipCalled r : Run R I σ n Bool)
    (fun _ => False) fun _ => Calm base called := by
  apply quiet
  · exact .of_even fun s => Even.skipCalled (Nat.le_of_eq (Account.zero_ofArgs _))
  · exact Effect.mono (Marking.skipCalled (by decide) r) fun _ _ h => h.trace

theorem markTrial : Heeds r base (Calm base called) (markTrial r : Run R I σ n Unit)
    (fun _ => False) fun _ => Calm base called := by
  apply quiet
  · exact .of_even fun s => Even.markTrial (Nat.le_of_eq (Account.zero_ofArgs _))
  · exact Effect.mono (Marking.markTrial (by decide) r) fun _ _ h => h.trace

theorem freeInst (argI : Fin n) (inst : Option I) :
    Heeds r base (Calm base called) (freeInst r argI inst : Run R I σ n Unit)
      (fun _ => False) fun _ => Calm base called := by
  apply quiet
  · exact .of_quits (Quits.freeInst argI inst)
  · exact Effect.mono (Asked.freeInst (by decide) r argI inst) fun _ _ h => h.trace

omit [Platform R] in
theorem freePoolIf (pool : Option BitPool) :
    Heeds r base (Calm base called) (freePoolIf pool : Run R I σ n Unit)
      (fun _ => False) fun _ => Calm base called := by
  apply quiet
  · exact .of_quits (Quits.freePoolIf pool)
  · exact Effect.mono (Freeing.freePoolIf pool) fun _ _ h => h.trace

theorem shrinkPreHook (argI : Fin n) (arg : Option I) (tactic : Nat) :
    Heeds r base (Calm base called) (shrinkPreHook r argI arg tactic : Run R I σ n _)
      (fun a => a = .error) fun _ => Calm base called := by
  apply getThen
  intro s
  apply askHook rfl
  intro a ha
  cases a <;> first | rfl | cases ha

theorem trialPreHook (trial : Nat) (seed : Word) :
    Heeds r base (Calm base called) (trialPreHook r trial seed : Run R I σ n _)
      (fun a => a = .error) fun _ => Calm base called := by
  apply getThen
  intro s
  apply askHook rfl
  intro a ha
  cases a <;> first | rfl | cases ha

theorem genArgsPreHook : Heeds r base (Calm base called) (genArgsPreHook r : Run R I σ n _)
    (fun a => a = .error) fun _ => Calm base called := by
  apply getThen
  intro s
  apply askHook rfl
  intro a ha
  cases a <;> first | rfl | cases ha

theorem trialPostHook (info : TrialPostInfo I n) :
    Heeds r base (Calm base called) (trialPostHook r info : Run R I σ n _)
      (fun a => a = .error) fun _ => Calm base called := by
  unfold Theft.trialPostHook
  split
  · exact pure fun _ hs => hs
  · apply ask rfl
    intro a ha
    cases a <;> first | rfl | cases ha

theorem counterexampleHook (info : CounterexampleInfo I n) :
    Heeds r base (Calm base called) (counterexampleHook r info : Run R I σ n _)
      (fun a => a = .error) fun _ => Calm base called := by
  unfold Theft.counterexampleHook
  split
  · have hprint : Heeds r base (Calm base called)
        (printArgs r info.args (List.finRange n) : Run R I σ n Unit)
        (fun _ => False) fun _ => Calm base called := by
      apply quiet
      · exact .of_even fun s => Even.printArgs (Nat.le_of_eq (Account.zero_ofArgs _)) _
      · exact Effect.mono (Asked.printArgs (by decide) r _ _) fun _ _ h => h.trace
    exact andThen hprint fun _ => pure fun _ hs => hs
  · apply ask rfl
    intro a ha
    cases a <;> first | rfl | cases ha

end Heeds

/-! ## Calls -/

/-- The property has just answered an error. -/
structure Erred (base : List (Event I n)) (rerun : Bool) (s : RunState R I σ n) : Prop where
  noPool : s.prng.bitPool = none
  trace : ∃ args held new, s.trace = .returned .error :: .call args held rerun :: (new ++ base)

omit [Platform R] in
theorem Calm.forget (h : Calm base True s) : Calm base called s := by
  obtain ⟨new, htrace, hcalled⟩ := h.trace
  exact ⟨h.noPool, ⟨new, htrace, fun _ => hcalled trivial⟩, h.quiet⟩

namespace Heeds

/-- After a call that answered no error the trial is called. -/
theorem callThen (args : Args I n) (rerun : Bool) :
    Heeds r base (Calm base called) (call r args rerun : Run R I σ n _) (fun _ => False)
      fun res t => (res = .error → Erred base rerun t) ∧ (res ≠ .error → Calm base True t) := by
  refine ⟨Effect.bind Effect.get fun s => ask_grows _ _ _, fun s hs => ?_⟩
  obtain ⟨new, htrace, -⟩ := hs.trace
  unfold call
  rw [bind_apply, get_apply]
  dsimp only
  obtain ⟨res, u, p, hg, hrun⟩ | ⟨e, p, -, hrun⟩ := ask_cases
    (.call args s.trial.args rerun) .returned (r.propFun args) s
  · rw [hrun]
    right
    right
    have hpool := ((SamePool.run _).of_returned hg).none hs.noPool
    refine ⟨?_, fun hres => ?_⟩
    · rintro rfl
      refine ⟨hpool, args, s.trial.args, new, ?_⟩
      rw [← htrace]
    · have hcalled : Calm base called
          { s with prng := p, trace := .call args s.trial.args rerun :: s.trace } :=
        hs.cons rfl hpool rfl
      have hquiet : (Event.returned (I := I) (n := n) res).isError = false := by
        cases res <;> first | rfl | exact absurd rfl hres
      have hreturned := hcalled.cons hquiet hpool
        (t := { s with
          prng := p
          user := u
          trace := .returned res :: .call args s.trial.args rerun :: s.trace }) rfl
      refine ⟨hpool, ⟨.returned res :: .call args s.trial.args rerun :: new, ?_, fun _ => ?_⟩,
        hreturned.quiet⟩
      · dsimp only
        rw [htrace, List.cons_append, List.cons_append]
      · exact ⟨_, List.mem_cons_self, rfl⟩
  · rw [hrun]
    exact .inr fun ht => hs.quiet (ht.of_cons (e := .call args s.trial.args rerun) rfl rfl)

theorem call (args : Args I n) (rerun : Bool) :
    Heeds r base (Calm base called) (call r args rerun : Run R I σ n _) (fun res => res = .error)
      fun _ => Calm base True := by
  refine ⟨(callThen args rerun : Heeds r base (Calm base called) _ (fun _ => False) _).grows,
    Spec.mono (callThen args rerun).spec (fun _ h => h) ?_ fun _ _ h => h⟩
  rintro res t (hclashed | hfalse | ⟨herror, hcalm⟩)
  · exact .inl hclashed
  · exact hfalse.2.elim
  · by_cases hres : res = .error
    · exact .inr (.inl ⟨(herror hres).noPool, hres⟩)
    · exact .inr (.inr (hcalm hres))

end Heeds

/-! ## Trying a candidate -/

/-- An error of the property is lost only if the call is run again. -/
theorem erred_hook (argI : Fin n) (args : Args I n) (tactic : Nat) (rerun : Bool) :
    Heeds r base (Erred base rerun) (shrinkTrialPostHook r argI args tactic .error : Run R I σ n _)
      (fun a => a.again rerun = false) fun _ _ => False := by
  refine ⟨Effect.mono (Asked.shrinkTrialPostHook (K := [.shrinkTrialPost]) (by decide) r argI args
    tactic .error) fun _ _ h => h.trace.grows, fun s hs => ?_⟩
  obtain ⟨cargs, held, new, htrace⟩ := hs.trace
  unfold shrinkTrialPostHook
  rw [bind_apply, get_apply]
  dsimp only
  cases r.hooks.shrinkTrialPost with
  | none => exact .inr (.inl ⟨hs.noPool, rfl⟩)
  | some hook =>
    dsimp only [askHook]
    rw [ask_ok _ _ rfl]
    dsimp only
    rw [htrace]
    generalize (hook _ s.user).1 = answer
    cases hagain : answer.again rerun with
    | false => exact .inr (.inl ⟨hs.noPool, rfl⟩)
    | true =>
      left
      exact ⟨[] ++ .shrinkTrialPostRes answer :: .shrinkTrialPost _ :: .returned .error ::
        .call cargs held rerun :: new, rfl, .again hagain⟩

omit [Platform R] in
theorem erred_count (argI : Fin n) (rerun : Bool) :
    Heeds r base (Erred base rerun) (countShrink r argI .error rerun : Run R I σ n Unit)
      (fun _ => False) fun _ => Erred base rerun := by
  have hsteady := Steady.countShrink (R := R) (I := I) (σ := σ) (K := []) r argI .error rerun
  refine ⟨hsteady.mono fun _ _ h => h.trace.grows, fun s hs => ?_⟩
  have hst := hsteady.change s
  have hquits := Quits.countShrink (r := r) argI .error rerun s hs.noPool
  unfold final at hst
  cases hrun : countShrink r argI .error rerun s with
  | ok a t =>
    rw [hrun] at hst hquits
    obtain ⟨cargs, held, new, htrace⟩ := hs.trace
    obtain ⟨more, ht, hmore⟩ := hst.trace
    obtain rfl : more = [] := List.eq_nil_iff_forall_not_mem.mpr fun e he => by
      cases hmore e he
    exact .inr (.inr ⟨hquits.1, cargs, held, new, ht.trans htrace⟩)
  | error e t =>
    rw [hrun] at hquits
    exact hquits.elim

namespace Heeds

theorem shrinkTrialPostHook (argI : Fin n) (args : Args I n) (tactic : Nat) (res : TrialRes) :
    Heeds r base (Calm base called)
      (shrinkTrialPostHook r argI args tactic res : Run R I σ n _) (fun a => a = .error)
      fun _ => Calm base called := by
  apply getThen
  intro s
  apply askHook rfl
  intro a ha
  cases a <;> first | rfl | cases ha

omit [Platform R] in
theorem countShrink (argI : Fin n) (res : TrialRes) (repeated : Bool) :
    Heeds r base (Calm base called) (countShrink r argI res repeated : Run R I σ n Unit)
      (fun _ => False) fun _ => Calm base called := by
  apply quiet
  · exact .of_quits (Quits.countShrink argI res repeated)
  · exact Effect.mono (Steady.countShrink r argI res repeated) fun _ _ h => h.trace

/-- The loop of calls answers an error, or none when a hook answered one. -/
theorem shrinkTrials (argI : Fin n) (tactic fuel : Nat) : ∀ repeated,
    Heeds r base (Calm base called) (shrinkTrials r argI tactic fuel repeated : Run R I σ n _)
      (fun out => out = none ∨ out = some .error) fun _ => Calm base called := by
  induction fuel with
  | zero =>
    intro repeated
    exact throw fun _ hs => hs.quiet
  | succ fuel ih =>
    intro repeated
    apply getThen
    intro s
    apply andThen (callThen _ repeated)
    intro res
    by_cases hres : res = .error
    · subst hres
      refine mono (P := Erred base repeated) ?_ (fun _ h => h.1 rfl) fun _ _ h => h
      apply andThen (erred_count argI repeated)
      intro _
      apply bind (erred_hook argI _ tactic repeated)
      · intro answer hanswer
        cases answer with
        | repeat_ => cases hanswer
        | repeatOnce =>
          cases repeated with
          | false => cases hanswer
          | true => exact Quits.pure (.inr rfl)
        | cont => exact Quits.pure (.inr rfl)
        | error => exact Quits.pure (.inl rfl)
      · intro answer
        have hagain := (ih true).mono (fun _ (h : False) => h.elim) fun _ _ h => h
        cases answer with
        | repeat_ => exact hagain
        | repeatOnce =>
          cases repeated with
          | false => exact hagain
          | true => exact pure fun _ h => h.elim
        | cont => exact pure fun _ h => h.elim
        | error => exact pure fun _ h => h.elim
    · refine mono (P := Calm base called) ?_ (fun _ h => (h.2 hres).forget) fun _ _ h => h
      apply andThen (countShrink argI res repeated)
      intro _
      apply bind (shrinkTrialPostHook argI _ tactic res)
      · rintro _ rfl
        exact Quits.pure (.inl rfl)
      · intro answer
        cases answer with
        | repeat_ => exact ih true
        | repeatOnce =>
          cases repeated with
          | false => exact ih true
          | true => exact pure fun _ h => h
        | cont => exact pure fun _ h => h
        | error => exact pure fun _ h => h

end Heeds

/-! ### Judging a candidate -/

omit [Platform R] in
theorem freePoolPtr_quits (argI : Fin n) {pool : Option BitPool}
    (h : r.autoshrinks argI = true → pool.isSome) :
    Quits (ifAutoshrink r argI (freePoolPtr pool) : Run R I σ n Unit) fun _ => True := by
  apply Quits.ifAutoshrink
  intro henable
  obtain ⟨pool, rfl⟩ := Option.isSome_iff_exists.mp (h henable)
  exact Quits.freePool pool

omit [Platform R] in
theorem freePoolPtr_poolless (argI : Fin n) (pool : Option BitPool) :
    Poolless (ifAutoshrink r argI (freePoolPtr pool) : Run R I σ n Unit) := by
  unfold ifAutoshrink
  split
  · cases pool with
    | none => exact .throw _
    | some pool => exact .of_quits (Quits.freePool pool)
  · exact .pure ()

omit [Platform R] in
theorem revertPool_poolless (argI : Fin n) (currentPool candidatePool : Option BitPool) :
    Poolless (revertPool r argI currentPool candidatePool : Run R I σ n Unit) := by
  unfold revertPool ifAutoshrink
  split
  · refine Poolless.bind (.of_quits (Quits.modify fun _ => rfl)) fun _ => ?_
    cases candidatePool with
    | none => exact .throw _
    | some pool => exact .of_quits (Quits.freePool pool)
  · exact .pure ()

/-- An error that the property answered ends the attempt. -/
theorem judgeCandidate_quits (argI : Fin n) (current candidate : Option I)
    {currentPool candidatePool : Option BitPool}
    (hpool : r.autoshrinks argI = true → currentPool.isSome) :
    Quits (judgeCandidate r argI current candidate currentPool candidatePool .error :
      Run R I σ n _) fun out => out = some .error := by
  apply Quits.after (Quits.autoshrinkUpdateModel argI .error 8)
  intro _ _
  apply Quits.after (Quits.freeInst argI current)
  intro _ _
  apply Quits.after (freePoolPtr_quits argI hpool)
  intro _ _
  exact Quits.pure rfl

theorem judgeCandidate_poolless (argI : Fin n) (current candidate : Option I)
    (currentPool candidatePool : Option BitPool) (res : TrialRes) :
    Poolless (judgeCandidate r argI current candidate currentPool candidatePool res :
      Run R I σ n _) := by
  have hfree : ∀ inst, Poolless (freeInst r argI inst : Run R I σ n Unit) :=
    fun inst => .of_quits (Quits.freeInst argI inst)
  have hset : Poolless (setInst argI current : Run R I σ n Unit) :=
    .of_quits (Quits.modify fun _ => rfl)
  have hptr := freePoolPtr_poolless (R := R) (σ := σ) (I := I) (r := r) argI currentPool
  have hrevert := revertPool_poolless (R := R) (σ := σ) (I := I) (r := r) argI currentPool
    candidatePool
  apply Poolless.bind (.of_quits (Quits.autoshrinkUpdateModel argI res 8))
  intro _
  cases res with
  | pass => exact hset.bind fun _ => hrevert.bind fun _ => (hfree _).bind fun _ => .pure _
  | skip => exact hset.bind fun _ => hrevert.bind fun _ => (hfree _).bind fun _ => .pure _
  | fail => exact hptr.bind fun _ => (hfree _).bind fun _ => .pure _
  | dup => exact (hfree _).bind fun _ => hptr.bind fun _ => .pure _
  | error => exact (hfree _).bind fun _ => hptr.bind fun _ => .pure _

namespace Heeds

theorem judgeCandidate (argI : Fin n) (current candidate : Option I)
    (currentPool candidatePool : Option BitPool) (res : TrialRes) :
    Heeds r base (Calm base called)
      (judgeCandidate r argI current candidate currentPool candidatePool res : Run R I σ n _)
      (fun out => out = some .error) fun _ => Calm base called := by
  apply quiet
  · exact judgeCandidate_poolless argI current candidate currentPool candidatePool res
  · exact Effect.mono (Quiet.judgeCandidate (by decide) r argI _ _ _ _ res) fun _ _ h => h.trace

/-- A candidate is tried. -/
theorem tryCandidate (fuel : Nat) (argI : Fin n) (tactic : Nat) (current candidate : Option I)
    {currentPool candidatePool : Option BitPool}
    (hpool : r.autoshrinks argI = true → currentPool.isSome) :
    Heeds r base (Calm base called)
      (tryCandidate fuel r argI tactic current candidate currentPool candidatePool :
        Run R I σ n _) (fun out => out = some .error) fun _ => Calm base called := by
  apply andThen (modifyTrial _)
  intro _
  have hset : Heeds r base (Calm base called)
      (ifAutoshrink r argI (setPool argI candidatePool) : Run R I σ n Unit) (fun _ => False)
      fun _ => Calm base called := by
    unfold ifAutoshrink
    split
    · exact modifyTrial _
    · exact pure fun _ hs => hs
  apply andThen hset
  intro _
  apply andThen skipCalled
  intro found
  split
  · apply andThen (freeInst argI candidate)
    intro _
    have hrevert : Heeds r base (Calm base called)
        (revertPool r argI currentPool candidatePool : Run R I σ n Unit) (fun _ => False)
        fun _ => Calm base called := by
      apply quiet (revertPool_poolless argI _ _)
      exact Effect.mono (Quiet.revertPool r argI _ _) fun _ _ h => h.trace
    apply andThen hrevert
    intro _
    apply andThen (modifyTrial _)
    intro _
    exact pure fun _ hs => hs
  · apply bind (shrinkTrials argI tactic fuel false)
    · rintro _ (rfl | rfl)
      · apply Quits.after (Quits.freeInst argI current)
        intro _ _
        apply Quits.after (Quits.ifAutoshrink fun _ => Quits.freePoolIf currentPool)
        intro _ _
        exact Quits.pure rfl
      · exact judgeCandidate_quits argI current candidate hpool
    · intro out
      cases out with
      | some res => exact judgeCandidate argI current candidate currentPool candidatePool res
      | none =>
        apply andThen (freeInst argI current)
        intro _
        have hfree : Heeds r base (Calm base called)
            (ifAutoshrink r argI (Theft.freePoolIf currentPool) : Run R I σ n Unit)
            (fun _ => False) fun _ => Calm base called := by
          unfold ifAutoshrink
          split
          · exact freePoolIf currentPool
          · exact pure fun _ hs => hs
        apply andThen hfree
        intro _
        exact pure fun _ hs => hs

end Heeds

/-! ## An attempt -/

/-- An argument that is autoshrunk has a pool. -/
def Pooled (r : Runner I σ n) (argI : Fin n) (s : RunState R I σ n) : Prop :=
  r.autoshrinks argI = true → ((s.trial.args argI).env.bind AutoshrinkEnv.bitPool).isSome

/-- A step that offers a candidate: its errors are told apart from those of the generation by the
call before them. -/
theorem autoshrinkCandidate_heeds (fuel : Nat) (argI : Fin n) (tactic : Nat) :
    Heeds r base (Calm base True) (autoshrinkCandidate fuel r argI tactic : Run R I σ n _)
      (fun c => c.1 = .error ∧ r.hooks.shrinkPost = none)
      fun _ t => Calm base True t ∧ Pooled r argI t := by
  refine ⟨Effect.mono (Steady.autoshrinkCandidate (K := [.alloc]) (by decide) fuel r argI tactic)
    fun _ _ h => h.trace.grows, fun s hs => ?_⟩
  obtain ⟨new, htrace, hcalled⟩ := hs.trace
  unfold autoshrinkCandidate
  rw [bind_apply, get_apply]
  dsimp only
  cases henv : (s.trial.args argI).env with
  | none => exact .inr hs.quiet
  | some env =>
    dsimp only
    rw [bind_apply]
    simp only [zoomEnv, zoom]
    cases hrun : autoshrinkShrink fuel ((r.typeInfo argI).alloc s.user) tactic
        ⟨s.prng, s.ledger, (s.trial.args argI).env.getD env⟩ with
    | error e t => exact .inr hs.quiet
    | ok c t =>
      obtain ⟨hpool, -⟩ := autoshrinkShrink_ledger hs.noPool hrun
      have htactics := (autoshrinkShrink_tactics _ _ _).returned hrun
      have hsome := autoshrinkShrink_pool hrun
      have hpooled : ∀ {u : RunState R I σ n},
          u.trial = s.trial.modifyArg argI (fun a => { a with env := some t.env }) →
          Pooled r argI u := by
        intro u hu _
        rw [hu, modifyArg_same]
        exact hsome
      obtain ⟨sres, res, pool⟩ := c
      cases res with
      | none => exact .inr (.inr ⟨⟨hpool, ⟨new, htrace, hcalled⟩, hs.quiet⟩, hpooled rfl⟩)
      | some res =>
        obtain ⟨inst, user⟩ := res
        dsimp only at htactics ⊢
        have halloc : Calm base True { s with
            prng := t.prng
            ledger := t.ledger
            trial := s.trial.modifyArg argI fun a => { a with env := some t.env }
            trace := .alloc argI :: s.trace } :=
          hs.cons (e := .alloc argI) rfl hpool rfl
        -- an error of the callback, and a clash if the hook is there to see it
        cases sres with
        | ok => exact .inr (.inr ⟨halloc.cons rfl hpool rfl, hpooled rfl⟩)
        | deadEnd => exact .inr (.inr ⟨halloc.cons rfl hpool rfl, hpooled rfl⟩)
        | noMoreTactics => cases htactics rfl
        | error =>
          cases hhook : r.hooks.shrinkPost with
          | none => exact .inr (.inl ⟨hpool, rfl, rfl⟩)
          | some hook =>
            left
            obtain ⟨c, hc, hkind⟩ := hcalled trivial
            refine ⟨[] ++ .allocated .error inst :: .alloc argI :: new, ?_, ?_⟩
            · dsimp only
              rw [htrace]
              rfl
            · exact .shrinkPost (by rw [hhook]; rfl) rfl (List.mem_cons_of_mem _ hc) hkind

theorem userCandidate_heeds {argI : Fin n} (henable : r.autoshrinks argI ≠ true)
    (current : Option I) (tactic : Nat) :
    Heeds r base (Calm base True) (userCandidate r argI current tactic : Run R I σ n _)
      (fun c => c.1 = .error ∧ r.hooks.shrinkPost = none)
      fun _ t => Calm base True t ∧ Pooled r argI t := by
  refine ⟨Effect.mono (Steady.userCandidate (K := [.shrink]) (by decide) r argI current tactic)
    fun _ _ h => h.trace.grows, fun s hs => ?_⟩
  obtain ⟨new, htrace, hcalled⟩ := hs.trace
  cases hshrink : (r.typeInfo argI).shrink with
  | none =>
    unfold userCandidate
    rw [hshrink]
    exact .inr hs.quiet
  | some shrink =>
    obtain ⟨⟨sres, inst⟩, u, p, hg, hrun⟩ | ⟨e, p, -, hrun⟩ :=
      userCandidate_cases hshrink current tactic s
    · rw [hrun]
      have hpool := ((SamePool.run _).of_returned hg).none hs.noPool
      have hasked : Calm base True
          { s with prng := p, user := u, trace := .shrink argI current tactic :: s.trace } :=
        hs.cons (e := .shrink argI current tactic) rfl hpool rfl
      have hpooled : ∀ t : RunState R I σ n, Pooled r argI t := fun _ h => absurd h henable
      cases sres with
      | ok => exact .inr (.inr ⟨hasked.cons rfl hpool rfl, hpooled _⟩)
      | deadEnd => exact .inr (.inr ⟨hasked.cons rfl hpool rfl, hpooled _⟩)
      | noMoreTactics => exact .inr (.inr ⟨hasked.cons rfl hpool rfl, hpooled _⟩)
      | error =>
        cases hhook : r.hooks.shrinkPost with
        | none => exact .inr (.inl ⟨hpool, rfl, rfl⟩)
        | some hook =>
          left
          obtain ⟨c, hc, hkind⟩ := hcalled trivial
          refine ⟨[] ++ .shrunk .error inst :: .shrink argI current tactic :: new, ?_, ?_⟩
          · dsimp only [pure_apply]
            rw [htrace]
            rfl
          · exact .shrinkPost (by rw [hhook]; rfl) rfl (List.mem_cons_of_mem _ hc) hkind
    · rw [hrun]
      exact .inr fun ht => hs.quiet (ht.of_cons (e := .shrink argI current tactic) rfl rfl)

theorem shrinkPostHook_heeds (argI : Fin n) (arg : Option I) (tactic : Nat) (sres : ShrinkRes) :
    Heeds r base (Calm base called)
      (shrinkPostHook r argI arg tactic sres : Run R I σ n _) (fun a => a = .error)
      fun _ => Calm base called := by
  unfold shrinkPostHook
  split
  · exact .pure fun _ hs => hs
  · split
    · exact .throw fun _ hs => hs.quiet
    · apply Heeds.getThen
      intro s
      apply Heeds.askHook rfl
      intro a ha
      cases a <;> first | rfl | cases ha

omit [Platform R] in
theorem currentPool_heeds (argI : Fin n) :
    Heeds r base (fun t => Calm base called t ∧ Pooled r argI t)
      (currentPool argI : Run R I σ n _) (fun _ => False)
      fun pool t => (r.autoshrinks argI = true → pool.isSome) ∧ Calm base called t :=
  ⟨Effect.bind Effect.get fun _ => Effect.pure _, fun _ hs => .inr (.inr ⟨hs.2, hs.1⟩)⟩

/-- One tactic. -/
theorem attemptTactic_heeds (fuel : Nat) (argI : Fin n) (tactic : Nat) :
    Heeds r base (Calm base True) (attemptTactic fuel r argI tactic : Run R I σ n _)
      (fun out => out = some .error) fun _ => Calm base True := by
  apply Heeds.getThen
  intro s
  apply Heeds.bind (Heeds.shrinkPreHook argI _ tactic)
  · rintro _ rfl
    exact Quits.pure rfl
  intro answer
  cases answer with
  | halt => exact .pure fun _ hs => hs
  | error => exact .pure fun _ hs => hs
  | cont =>
    have hoffer : Heeds r base (Calm base True)
        (if r.autoshrinks argI = true then autoshrinkCandidate fuel r argI tactic
          else userCandidate r argI (s.trial.args argI).inst tactic : Run R I σ n _)
        (fun c => c.1 = .error ∧ r.hooks.shrinkPost = none)
        fun _ t => Calm base True t ∧ Pooled r argI t := by
      split
      · exact autoshrinkCandidate_heeds fuel argI tactic
      · rename_i henable
        exact userCandidate_heeds henable _ tactic
    have hcount : Quits (modifyTrial fun t => { t with shrinkCount := t.shrinkCount + 1 } :
        Run R I σ n Unit) fun _ => True := Quits.modify fun _ => rfl
    apply Heeds.bind hoffer
    · rintro ⟨sres, candidate, candidatePool⟩ ⟨rfl, hhook⟩
      have hpool : Quits (currentPool argI : Run R I σ n _) fun _ => True :=
        Quits.getThen fun _ => Quits.pure trivial
      have hpost : ∀ arg, Quits (shrinkPostHook r argI arg tactic .error : Run R I σ n _)
          fun a => a = .cont := by
        intro arg
        unfold shrinkPostHook
        rw [hhook]
        exact Quits.pure rfl
      apply Quits.after hpool
      intro pool _
      apply Quits.after hcount
      intro _ _
      apply Quits.after (hpost _)
      rintro _ rfl
      exact Quits.pure rfl
    · rintro ⟨sres, candidate, candidatePool⟩
      apply Heeds.andThen (currentPool_heeds argI)
      intro pool
      apply Heeds.andThen (Heeds.carry (Heeds.modifyTrial _))
      intro _
      apply Heeds.bind (Heeds.carry (shrinkPostHook_heeds argI _ tactic sres))
      · rintro _ rfl
        apply Quits.after (Quits.freeInst argI candidate)
        intro _ _
        apply Quits.after (Quits.freePoolIf candidatePool)
        intro _ _
        exact Quits.pure rfl
      · intro answer
        cases answer with
        | error =>
          refine Heeds.mono ?_ (fun _ h => h.2) fun _ _ h => h
          apply Heeds.andThen (Heeds.freeInst argI candidate)
          intro _
          apply Heeds.andThen (Heeds.freePoolIf candidatePool)
          intro _
          exact .pure fun _ hs => hs
        | cont =>
          cases sres with
          | ok =>
            have hgrows := Effect.mono (Marking.tryCandidate (K := shrinkKinds) (fun _ h => h) fuel r
              argI tactic (s.trial.args argI).inst candidate pool candidatePool)
              fun (s t : RunState R I σ n) h => h.trace.grows
            exact Heeds.given hgrows fun hpool =>
              Heeds.tryCandidate fuel argI tactic _ candidate hpool
          | deadEnd => exact .pure fun _ hs => hs.2
          | noMoreTactics => exact .pure fun _ hs => hs.2
          | error => exact .pure fun _ hs => hs.2

theorem attemptTactics_heeds (fuel : Nat) (argI : Fin n) (left : Nat) : ∀ tactic,
    Heeds r base (Calm base True) (attemptTactics fuel r argI left tactic : Run R I σ n _)
      (fun res => res = .error) fun _ => Calm base True := by
  induction left with
  | zero =>
    intro tactic
    exact .pure fun _ hs => hs
  | succ left ih =>
    intro tactic
    apply Heeds.bind (attemptTactic_heeds fuel argI tactic)
    · rintro _ rfl
      exact Quits.pure rfl
    · intro out
      cases out with
      | some res => exact .pure fun _ hs => hs
      | none => exact ih _

/-! ## Shrinking -/

theorem shrinkFrom_heeds (inner fuel : Nat) : ∀ argI progress,
    Heeds r base (Calm base True) (shrinkFrom inner r fuel argI progress : Run R I σ n _)
      (fun more => more = false) fun _ => Calm base True := by
  induction fuel with
  | zero =>
    intro argI progress
    exact .throw fun _ hs => hs.quiet
  | succ fuel ih =>
    intro argI progress
    unfold shrinkFrom
    split
    · split
      · apply Heeds.bind (attemptTactics_heeds inner _ _ _)
        · rintro _ rfl
          exact Quits.pure rfl
        · intro res
          cases res with
          | ok => exact ih _ _
          | halt => exact .pure fun _ hs => hs
          | deadEnd => exact ih _ _
          | error => exact .pure fun _ hs => hs
      · exact ih _ _
    · split
      · exact ih _ _
      · exact .pure fun _ hs => hs

theorem shrink_heeds (fuel : Nat) :
    Heeds r base (Calm base True) (shrink fuel r : Run R I σ n Bool) (fun more => more = false)
      fun _ => Calm base True := by
  have hrequire : Heeds r base (Calm base True) (require (0 < n) .assertion : Run R I σ n Unit)
      (fun _ => False) fun _ => Calm base True := by
    unfold require
    split
    · exact .pure fun _ hs => hs
    · exact .throw fun _ hs => hs.quiet
  exact Heeds.andThen hrequire fun _ => shrinkFrom_heeds fuel fuel _ _

end

end Theft
