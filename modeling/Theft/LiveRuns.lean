import Theft.Genuine
import Theft.LiveFrees
import Theft.Trials

/-!
# Runs free live instances only

`runTrials_careful`: as long as the hook after a shrinking step refuses only steps that were `OK`,
a run frees nothing but what the callbacks returned with `OK`, and nothing of it twice.
-/

namespace Theft

open PackedBits Exec

section
variable {R I σ : Type} {n : Nat} {α : Type} [DecidableEq I] [Platform R]
variable {argI : Fin n} {inst : Option I} {args : Args I n} {k : Nat}
variable {s t : RunState R I σ n} {r : Runner I σ n}

/-! ## Shrinking -/

/-- A candidate is in the place of an argument, and both may be freed. -/
abbrev Both (argI : Fin n) (inst : Option I) (args : Args I n) (i : Fin n) (candidate : Option I) :
    RunState R I σ n → Prop :=
  Holds argI inst (update args i candidate)
    (share argI inst argI (args argI) + share argI inst i candidate)

/-- The argument is freed, and the candidate stays. -/
theorem freeCurrent_careful (i : Fin n) (candidate : Option I) :
    Careful argI inst (Both argI inst args i candidate) (freeInst r i (args i) : Run R I σ n Unit)
      fun _ => Owned argI inst := by
  rw [Both, share_exchange]
  exact Spec.mono (freeInst_careful i (args i)) (fun _ h => h) (fun _ _ h => h.owned) fun _ _ h => h

theorem judgeCandidate_careful (i : Fin n) (candidate : Option I)
    (currentPool candidatePool : Option BitPool) (res : TrialRes) :
    Careful argI inst (Both argI inst args i candidate)
      (judgeCandidate r i (args i) candidate currentPool candidatePool res : Run R I σ n _)
      fun _ => Owned argI inst := by
  have back : Careful argI inst (Both argI inst args i candidate)
      (do
        setInst i (args i)
        revertPool r i currentPool candidatePool
        freeInst r i candidate
        return none : Run R I σ n (Option AttemptRes))
      fun _ => Owned argI inst := by
    apply Spec.bind (setInst_careful i (args i))
    intro _
    rw [update_back]
    apply Spec.bind (Idles.careful (Idles.revertPool r i _ _))
    intro _
    apply Spec.bind (freeInst_careful i candidate)
    intro _
    exact Spec.pure fun _ ht => ht.owned
  have lost : Careful argI inst (Both argI inst args i candidate)
      (do
        freeInst r i (args i)
        ifAutoshrink r i (freePoolPtr currentPool)
        return some .error : Run R I σ n (Option AttemptRes))
      fun _ => Owned argI inst := by
    apply Spec.bind (freeCurrent_careful i candidate)
    intro _
    apply Spec.bind (Idles.owned (Idles.onPool r i (Freeing.freePoolPtr _)))
    intro _
    exact Spec.pure fun _ ht => ht
  have hupdate : Effect Idles (autoshrinkUpdateModel r i res 8 : Run R I σ n Unit) :=
    Idles.of_steady (Steady.autoshrinkUpdateModel (K := []) r i res 8) (by decide)
  apply Spec.bind (Idles.careful hupdate)
  intro _
  cases res with
  | pass => exact back
  | skip => exact back
  | fail =>
    apply Spec.bind (Idles.careful (Idles.onPool r i (Freeing.freePoolPtr _)))
    intro _
    apply Spec.bind (freeCurrent_careful i candidate)
    intro _
    exact Spec.pure fun _ ht => ht
  | dup => exact lost
  | error => exact lost

theorem tryCandidate_careful (fuel : Nat) (i : Fin n) (tactic : Nat) (candidate : Option I)
    (currentPool candidatePool : Option BitPool) :
    Careful argI inst
      (Holds argI inst args (share argI inst argI (args argI) + share argI inst i candidate))
      (tryCandidate fuel r i tactic (args i) candidate currentPool candidatePool : Run R I σ n _)
      fun _ => Owned argI inst := by
  apply Spec.bind (setInst_careful i candidate)
  intro _
  apply Spec.bind (Idles.careful (Steady.ifAutoshrink r i (Idles.setPool i candidatePool)))
  intro _
  apply Spec.bind (Idles.careful (Idles.skipCalled r))
  intro found
  cases found with
  | true =>
    apply Spec.bind (freeInst_careful i candidate)
    intro _
    apply Spec.bind (Idles.careful (Idles.revertPool r i _ _))
    intro _
    apply Spec.bind (setInst_careful i (args i))
    intro _
    rw [update_back]
    exact Spec.pure fun _ ht => ht.owned
  | false =>
    apply Spec.bind (Idles.careful (Idles.shrinkTrials r i tactic fuel false))
    intro out
    cases out with
    | some res => exact judgeCandidate_careful i candidate currentPool candidatePool res
    | none =>
      apply Spec.bind (freeCurrent_careful i candidate)
      intro _
      apply Spec.bind (Idles.owned (Idles.onPool r i (Freeing.freePoolIf _)))
      intro _
      exact Spec.pure fun _ ht => ht

theorem attemptTactic_careful (fuel : Nat) (i : Fin n) (tactic : Nat) :
    Careful argI inst (Owned argI inst) (attemptTactic fuel r i tactic : Run R I σ n _)
      fun _ => Owned argI inst := by
  intro s hs
  have hholds : Holds argI inst s.trial.getArgs (share argI inst argI (s.trial.getArgs argI)) s :=
    ⟨rfl, hs⟩
  unfold attemptTactic
  rw [bind_apply, get_apply]
  dsimp only
  rw [show (s.trial.args i).inst = s.trial.getArgs i from rfl]
  generalize s.trial.getArgs = args at hholds ⊢
  refine Spec.bind (Idles.careful (Idles.of_asked
    (Asked.shrinkPreHook (K := [.shrinkPre]) (by decide) r i _ tactic) (by decide)))
    (fun answer => ?_) s hholds
  cases answer with
  | halt => exact Spec.pure fun _ ht => ht.owned
  | error => exact Spec.pure fun _ ht => ht.owned
  | cont =>
    apply Spec.bind (candidate_careful fuel i (args i) tactic)
    rintro ⟨sres, candidate, candidatePool⟩
    apply Spec.bind (Idles.careful (Effect.bind Effect.get fun _ => Effect.pure _))
    intro currentPool
    have hcount : Effect Idles (modifyTrial fun t => { t with shrinkCount := t.shrinkCount + 1 } :
        Run R I σ n Unit) := Effect.modify fun _ => ⟨rfl, .of_eq rfl⟩
    apply Spec.bind (Idles.careful hcount)
    intro _
    apply Spec.bind (shrinkPostHook_careful i _ tactic sres)
    intro answer
    cases answer with
    | error =>
      have hfree : Careful argI inst
          (fun t => Holds argI inst args (share argI inst argI (args argI) +
            offered argI inst i (sres, candidate, candidatePool)) t ∧
            (HookShrinkPostRes.error = .error → sres ≠ .ok → ¬Blameless t.trace))
          (freeInst r i candidate : Run R I σ n Unit) fun _ => Owned argI inst := by
        have hfree : Careful argI inst (Holds argI inst args (share argI inst argI (args argI) +
            share argI inst i candidate)) (freeInst r i candidate : Run R I σ n Unit)
            fun _ => Holds argI inst args (share argI inst argI (args argI)) :=
          freeInst_careful i candidate
        refine Spec.mono hfree ?_ (fun _ _ ht => ht.owned) fun _ _ h => h
        rintro t ⟨ht, hblame⟩
        cases sres with
        | ok => exact ht
        | _ => exact ⟨ht.args, .blamed (hblame rfl nofun)⟩
      apply Spec.bind hfree
      intro _
      have hpool : Effect Idles (freePoolIf candidatePool : Run R I σ n Unit) :=
        Idles.of_steady (Freeing.toSteady (Freeing.freePoolIf (K := []) _)) (by decide)
      apply Spec.bind (Idles.owned hpool)
      intro _
      exact Spec.pure fun _ ht => ht
    | cont =>
      have given : ∀ {t : RunState R I σ n}, Holds argI inst args (share argI inst argI (args argI) +
          offered argI inst i (sres, candidate, candidatePool)) t → Owned argI inst t :=
        fun ht => (ht.mono (Nat.le_add_right _ _)).owned
      cases sres with
      | ok =>
        refine Spec.mono (tryCandidate_careful fuel i tactic candidate currentPool candidatePool)
          (fun _ h => h.1) (fun _ _ h => h) fun _ _ h => h
      | deadEnd => exact Spec.pure fun _ ht => given ht.1
      | noMoreTactics => exact Spec.pure fun _ ht => given ht.1
      | error => exact Spec.pure fun _ ht => given ht.1

theorem attemptTactics_careful (fuel : Nat) (i : Fin n) (left : Nat) : ∀ tactic,
    Careful argI inst (Owned argI inst) (attemptTactics fuel r i left tactic : Run R I σ n _)
      fun _ => Owned argI inst := by
  induction left with
  | zero =>
    intro tactic
    exact Spec.pure fun _ ht => ht
  | succ left ih =>
    intro tactic
    apply Spec.bind (attemptTactic_careful fuel i tactic)
    intro out
    cases out with
    | some res => exact Spec.pure fun _ ht => ht
    | none => exact ih (tactic + 1)

theorem shrinkFrom_careful (inner fuel : Nat) : ∀ i progress,
    Careful argI inst (Owned argI inst) (shrinkFrom inner r fuel i progress : Run R I σ n _)
      fun _ => Owned argI inst := by
  induction fuel with
  | zero =>
    intro i progress
    exact Spec.throw fun _ hs => Owns.mono hs (Nat.zero_le _)
  | succ fuel ih =>
    intro i progress
    unfold shrinkFrom
    split
    · split
      · apply Spec.bind (attemptTactics_careful inner _ maxTactics 0)
        intro res
        cases res with
        | ok => exact ih i true
        | halt => exact Spec.pure fun _ ht => ht
        | deadEnd => exact ih (i + 1) progress
        | error => exact Spec.pure fun _ ht => ht
      · exact ih (i + 1) progress
    · split
      · exact ih 0 false
      · exact Spec.pure fun _ ht => ht

theorem shrink_careful (fuel : Nat) :
    Careful argI inst (Owned argI inst) (shrink fuel r : Run R I σ n Bool)
      fun _ => Owned argI inst := by
  apply Spec.bind (Idles.owned Effect.require)
  intro _
  exact shrinkFrom_careful fuel fuel 0 false

/-! ## The trial -/

theorem judgeTrial_careful (fuel : Nat) (info : TrialPostInfo I n) :
    Careful argI inst (Owned argI inst) (judgeTrial fuel r info : Run R I σ n _)
      fun _ => Owned argI inst := by
  have hcount : ∀ f, Effect Idles (modifyCounters f : Run R I σ n Unit) :=
    fun f => Effect.modify fun _ => ⟨rfl, .of_eq rfl⟩
  have hpost : ∀ info, Effect Idles (trialPostHook r info : Run R I σ n _) := fun info =>
    Idles.of_asked (Asked.trialPostHook (K := [.trialPost]) (by decide) r info) (by decide)
  have counted : ∀ {f : RunReport → RunReport} {info : TrialPostInfo I n}
      {g : HookTrialPostRes → Bool × HookTrialPostRes}, Effect Idles (do
        modifyCounters f
        let tpres ← trialPostHook r info
        return g tpres : Run R I σ n _) := by
    intro f info g
    apply Effect.bind (hcount f)
    intro _
    apply Effect.bind (hpost info)
    intro tpres
    exact Effect.pure _
  unfold judgeTrial
  split
  · exact Idles.owned counted
  · apply Spec.bind (shrink_careful fuel)
    intro shrunk
    apply Idles.owned
    split
    · apply Effect.bind (hcount _)
      intro _
      apply Effect.bind Effect.get
      intro s
      apply Effect.bind (Idles.of_asked (Asked.reportOnFailure
        (K := [.call, .trialPost, .print, .counterexample]) (fun _ h => h) fuel r _) (by decide))
      intro tpres
      exact Effect.pure _
    · apply Effect.bind (hpost _)
      intro tpres
      exact Effect.pure _
  · exact Idles.owned counted
  · exact Idles.owned (Effect.bind (hpost info) fun _ => Effect.pure _)
  · exact Idles.owned (Effect.bind (hpost info) fun _ => Effect.pure _)

theorem trialRun_careful (fuel : Nat) :
    Careful argI inst (Owned argI inst) (trialRun fuel r : Run R I σ n _)
      fun _ => Owned argI inst := by
  apply Spec.bind (Idles.owned Effect.require)
  intro _
  apply Spec.bind (Idles.owned (Idles.markTrial r))
  intro _
  apply Spec.bind (Idles.owned Effect.get)
  intro s
  apply Spec.bind (Idles.owned (Idles.of_asked (Asked.call (K := [.call]) (by decide) r _ _)
    (by decide)))
  intro res
  exact judgeTrial_careful fuel _

/-! ## Filling and freeing the arguments -/

/-- The arguments of `rest` are still to be generated. -/
structure Filling (argI : Fin n) (inst : Option I) (rest : List (Fin n))
    (s : RunState R I σ n) : Prop where
  unborn : argI ∈ rest → (s.trial.args argI).inst = none
  born : argI ∉ rest → Owned argI inst s
  owns : Owns argI inst 0 s.trace

/-- The arguments were generated, or given up on the way. -/
def Loaded (argI : Fin n) (inst : Option I) (s : RunState R I σ n) : Prop :=
  ∃ rest, Filling argI inst rest s

omit [Platform R] in
theorem Filling.idle {rest : List (Fin n)} (h : Filling argI inst rest s) (ht : Idles s t) :
    Filling argI inst rest t := by
  have hinst : (t.trial.args argI).inst = (s.trial.args argI).inst := congrFun ht.args argI
  obtain ⟨new, htrace, hnew⟩ := ht.trace
  refine ⟨fun hmem => hinst.trans (h.unborn hmem), fun hmem => (h.born hmem).idle ht, ?_⟩
  rw [htrace]
  exact h.owns.idle hnew

omit [Platform R] in
theorem Owned.filled (h : Owned argI inst s) : Filling argI inst [] s :=
  ⟨nofun, fun _ => h, Owns.mono h (Nat.zero_le _)⟩

omit [Platform R] in
theorem Loaded.idle (h : Loaded argI inst s) (ht : Idles s t) : Loaded argI inst t := by
  obtain ⟨rest, h⟩ := h
  exact ⟨rest, h.idle ht⟩

omit [Platform R] in
theorem Holds.filling (h : Holds argI inst args k s) {rest : List (Fin n)}
    (hunborn : argI ∈ rest → args argI = none)
    (hborn : argI ∉ rest → share argI inst argI (args argI) ≤ k) :
    Filling argI inst rest s := by
  obtain ⟨rfl, howns⟩ := h
  exact ⟨hunborn, fun hmem => howns.mono (hborn hmem), howns.mono (Nat.zero_le _)⟩

theorem genArg_careful (i : Fin n) : Careful argI inst (Holds argI inst args k)
    (genArg r i : Run R I σ n _) fun a => Holds argI inst args
      (k + if a.1 = .ok then share argI inst i a.2 else 0) := by
  unfold genArg
  split
  · apply Spec.bind (Idles.careful Effect.get)
    intro s
    cases (s.trial.args i).env with
    | none => exact Spec.throw fun _ hs => hs.owns.mono (Nat.zero_le _)
    | some env =>
      have hanswers : ∀ (s' : RunState R I σ n) a t, Holds argI inst args k s' → zoomEnv i env
          (autoshrinkAlloc ((r.typeInfo i).alloc s.user)) s' = .ok a t →
          a.2 = none → a.1 = .error := by
        intro s' a t _ hrun hnone
        unfold zoomEnv zoom at hrun
        split at hrun
        · rename_i hstep
          cases hrun
          obtain ⟨-, herror, -⟩ | ⟨b, pool, hsome, -⟩ := autoshrinkAlloc_ledger hstep
          · exact herror
          · rw [hsome] at hnone
            cases hnone
        · cases hrun
      apply Spec.bind ((Idles.careful (Idles.zoomEnv i env _)).also hanswers)
      rintro ⟨ares, res⟩
      cases res with
      | none =>
        refine Spec.pure fun t ht => ht.1.mono ?_
        have hares : ares = .error := ht.2 rfl
        simp [hares]
      | some res =>
        obtain ⟨v, user⟩ := res
        exact fun t ht => ⟨ht.1.args, ht.1.owns.allocated ares⟩
  · intro s hs
    obtain ⟨a, u, p, -, hrun⟩ | ⟨e, p, -, hrun⟩ := allocBasic_cases i (r.typeInfo i).alloc s
    · rw [hrun]
      exact ⟨hs.args, hs.owns.allocated a.1⟩
    · rw [hrun]
      exact (hs.owns.skip rfl).mono (Nat.zero_le _)

theorem genAllArgs_careful (rest : List (Fin n)) : rest.Nodup →
    Careful argI inst (Filling argI inst rest) (genAllArgs r rest : Run R I σ n _)
      fun gres t => Loaded argI inst t ∧ (gres = .ok → Owned argI inst t) := by
  induction rest with
  | nil =>
    intro _
    have hidle : Effect Idles (genAllArgs r [] : Run R I σ n _) := by
      apply Effect.bind Effect.get
      intro s
      split
      · apply Effect.bind (Idles.of_asked (Asked.callCheckCalled (K := [.hash]) (by decide) r)
          (by decide))
        intro found
        split
        · exact Effect.pure _
        · exact Effect.pure _
      · exact Effect.pure _
    refine Spec.mono (Idles.owned hidle) (fun _ hs => hs.born List.not_mem_nil)
      (fun _ _ ht => ⟨⟨[], ht.filled⟩, fun _ => ht⟩) fun _ _ h => h
  | cons i rest ih =>
    intro hnodup s hs
    obtain ⟨hi, hrest⟩ := List.nodup_cons.mp hnodup
    have hunborn : argI ∈ i :: rest → s.trial.getArgs argI = none := hs.unborn
    have hholds : Holds argI inst s.trial.getArgs
        (if argI ∈ i :: rest then 0 else share argI inst argI (s.trial.getArgs argI)) s := by
      refine ⟨rfl, ?_⟩
      split
      · exact hs.owns
      · rename_i hmem
        exact hs.born hmem
    generalize s.trial.getArgs = args at hunborn hholds
    refine Spec.bind (genArg_careful i) (fun a => ?_) s hholds
    obtain ⟨ares, v⟩ := a
    have dropped : ∀ {t : RunState R I σ n}, Holds argI inst args
        (if argI ∈ i :: rest then 0 else share argI inst argI (args argI)) t →
        Loaded argI inst t := by
      intro t ht
      refine ⟨i :: rest, ht.filling hunborn fun hmem => ?_⟩
      rw [if_neg hmem]
    cases ares with
    | skip => exact Spec.pure fun _ ht => ⟨dropped ht, by simp⟩
    | error => exact Spec.pure fun _ ht => ⟨dropped ht, by simp⟩
    | ok =>
      apply Spec.bind (setInst_careful i v)
      intro _
      refine Spec.mono (ih hrest) (fun t ht => ?_) (fun _ _ h => h) fun _ _ h => h
      apply ht.filling
      · intro hmem
        have hne : argI ≠ i := by
          rintro rfl
          exact hi hmem
        rw [update, if_neg hne]
        exact hunborn (List.mem_cons_of_mem _ hmem)
      · intro hmem
        by_cases hne : argI = i
        · subst hne
          simp [update]
        · simp [update, hne, hmem]

/-! ## Freeing the arguments -/

/-- What may be freed while the arguments of `rest` are still to be freed: instances, but no
`NULL`. -/
def unfreed (argI : Fin n) (inst : Option I) (args : Args I n) (rest : List (Fin n)) : Nat :=
  if argI ∈ rest ∧ (args argI).isSome then share argI inst argI (args argI) else 0

omit [Platform R] in
theorem unfreed_cons (i : Fin n) (rest : List (Fin n)) :
    unfreed argI inst args rest ≤ unfreed argI inst args (i :: rest) := by
  unfold unfreed
  split
  · rename_i h
    rw [if_pos ⟨List.mem_cons_of_mem _ h.1, h.2⟩]
  · exact Nat.zero_le _

theorem unfreed_some {i : Fin n} {rest : List (Fin n)} (hi : i ∉ rest)
    (hsome : (args i).isSome) :
    unfreed argI inst args rest + share argI inst i (args i) ≤
      unfreed argI inst args (i :: rest) := by
  by_cases hargI : i = argI
  · subst hargI
    simp [unfreed, hi, hsome]
  · have hshare : share argI inst i (args i) = 0 := if_neg fun h => hargI h.1
    rw [hshare]
    exact unfreed_cons i rest

theorem freeArg_careful {i : Fin n} {rest : List (Fin n)} (hi : i ∉ rest) :
    Careful argI inst (Holds argI inst args (unfreed argI inst args (i :: rest)))
      (freeArg r i : Run R I σ n Unit)
      fun _ => Holds argI inst args (unfreed argI inst args rest) := by
  intro s hs
  have hinst : (s.trial.args i).inst = args i := congrFun hs.args i
  unfold freeArg
  rw [bind_apply, get_apply]
  dsimp only
  rw [hinst]
  refine Spec.bind (Idles.careful (Idles.of_steady (Freeing.toSteady
    (Freeing.freeEnvIf (K := []) _)) (by decide))) (fun _ => ?_) s hs
  split
  · rename_i hsome
    exact Spec.mono (freeInst_careful i (args i)) (fun _ ht => ht.mono (unfreed_some hi hsome))
      (fun _ _ h => h) fun _ _ h => h
  · exact Spec.pure fun _ ht => ht.mono (unfreed_cons i rest)

theorem freeArgs_careful (rest : List (Fin n)) : rest.Nodup →
    Careful argI inst (Holds argI inst args (unfreed argI inst args rest))
      (freeArgs r rest : Run R I σ n Unit) fun _ t => Owns argI inst 0 t.trace := by
  induction rest with
  | nil => exact fun _ => Spec.pure fun _ hs => hs.owns.mono (Nat.zero_le _)
  | cons i rest ih =>
    intro hnodup
    obtain ⟨hi, hrest⟩ := List.nodup_cons.mp hnodup
    exact Spec.bind (freeArg_careful hi) fun _ => ih hrest

/-- All arguments are freed, those that are no `NULL`. -/
theorem freeAll_careful : Careful argI inst (Loaded argI inst)
    (freeArgs r (List.finRange n) : Run R I σ n Unit) fun _ t => Owns argI inst 0 t.trace := by
  rintro s ⟨rest, hs⟩
  apply freeArgs_careful (List.finRange n) (List.nodup_finRange n) s
  refine ⟨rfl, ?_⟩
  unfold unfreed
  split
  · rename_i hsome
    apply hs.born
    intro hmem
    have hnone : s.trial.getArgs argI = none := hs.unborn hmem
    rw [hnone] at hsome
    cases hsome.2
  · exact hs.owns

/-! ## A step of the run -/

theorem runGenerated_careful (fuel trial : Nat) (seed : Word) (gres : AllGenRes) :
    Careful argI inst (fun s => Loaded argI inst s ∧ (gres = .ok → Owned argI inst s))
      (runGenerated fuel r trial seed gres : Run R I σ n _) fun _ => Loaded argI inst := by
  have loaded : ∀ {m : Run R I σ n RunStepRes}, Effect Idles m → Careful argI inst
      (fun s => Loaded argI inst s ∧ (gres = .ok → Owned argI inst s)) m
      fun _ => Loaded argI inst := by
    intro m hm
    refine Spec.mono (hm.keeps fun _ _ => Loaded.idle) (fun _ hs => hs.1) (fun _ _ h => h) ?_
    rintro _ t ⟨rest, ht⟩
    exact ht.owns
  have hcount : ∀ f, Effect Idles (modifyCounters f : Run R I σ n Unit) :=
    fun f => Effect.modify fun _ => ⟨rfl, .of_eq rfl⟩
  have hpost : ∀ info, Effect Idles (trialPostHook r info : Run R I σ n _) := fun info =>
    Idles.of_asked (Asked.trialPostHook (K := [.trialPost]) (by decide) r info) (by decide)
  intro s hs
  unfold runGenerated
  rw [bind_apply, get_apply]
  dsimp only
  cases gres with
  | skip =>
    refine loaded (Effect.bind (hcount _) fun _ => ?_) s hs
    exact Effect.bind (hpost _) fun _ => Effect.pure _
  | dup =>
    refine loaded (Effect.bind (hcount _) fun _ => ?_) s hs
    exact Effect.bind (hpost _) fun _ => Effect.pure _
  | error => exact loaded (Effect.bind (hpost _) fun _ => Effect.pure _) s hs
  | ok =>
    have hpre : Effect Idles (trialPreHook r trial seed : Run R I σ n _) :=
      Idles.of_asked (Asked.trialPreHook (K := [.trialPre]) (by decide) r trial seed) (by decide)
    refine Spec.bind (Idles.owned hpre) (fun answer => ?_) s (hs.2 rfl)
    cases answer with
    | halt => exact Spec.pure fun _ ht => ⟨[], ht.filled⟩
    | error => exact Spec.pure fun _ ht => ⟨[], ht.filled⟩
    | cont =>
      apply Spec.bind (trialRun_careful fuel)
      rintro ⟨more, pres⟩
      exact Spec.pure fun _ ht => ⟨[], ht.filled⟩

omit [DecidableEq I] [Platform R] in
theorem Idles.initArgInfo (rest : List (Fin n)) :
    Effect Idles (initArgInfo r rest : Run R I σ n Bool) :=
  initArgInfo_effect
    (fun s i => ⟨Idles.getArgs_modifyEnv s.trial i fun _ => some _, .of_eq rfl⟩) rest

omit [Platform R] in
theorem Filling.careful {m : Run R I σ n α} (hm : Effect Idles m) :
    Careful argI inst (Filling argI inst (List.finRange n)) m
      fun _ => Filling argI inst (List.finRange n) :=
  Spec.mono (hm.keeps fun _ _ => Filling.idle) (fun _ h => h) (fun _ _ h => h) fun _ _ h => h.owns

theorem stepFromHook_careful (fuel trial : Nat) (seed : Word) :
    Careful argI inst (Filling argI inst (List.finRange n))
      (stepFromHook fuel r trial seed : Run R I σ n _) fun _ t => Owns argI inst 0 t.trace := by
  apply Spec.bind (Filling.careful
    (Idles.of_asked (Asked.genArgsPreHook (K := [.genArgsPre]) (by decide) r) (by decide)))
  intro answer
  cases answer with
  | halt => exact Spec.pure fun _ ht => ht.owns
  | error => exact Spec.pure fun _ ht => ht.owns
  | cont =>
    have hseed : Effect Idles (modify fun s => { s with
        prng := s.prng.setSeed seed } : Run R I σ n PUnit) :=
      Effect.modify fun _ => ⟨rfl, .of_eq rfl⟩
    apply Spec.bind (Filling.careful hseed)
    intro _
    apply Spec.bind (genAllArgs_careful _ (List.nodup_finRange n))
    intro gres
    apply Spec.bind (runGenerated_careful fuel trial _ gres)
    intro res
    have hnext : Effect Idles (nextSeed res seed : Run R I σ n Word) :=
      Idles.of_asked (Asked.nextSeed (K := []) res _) (by decide)
    have hloaded : Careful argI inst (Loaded argI inst)
        (nextSeed res seed : Run R I σ n Word) fun _ => Loaded argI inst := by
      refine Spec.mono (hnext.keeps fun _ _ => Loaded.idle) (fun _ h => h) (fun _ _ h => h) ?_
      rintro _ t ⟨rest, ht⟩
      exact ht.owns
    apply Spec.bind hloaded
    intro seed'
    apply Spec.bind freeAll_careful
    intro _
    exact Spec.pure fun _ ht => ht

theorem runStep_careful (fuel trial : Nat) (seed : Word) :
    Careful argI inst (fun s => Owns argI inst 0 s.trace)
      (runStep fuel r trial seed : Run R I σ n _) fun _ t => Owns argI inst 0 t.trace := by
  have hstart : Careful argI inst (fun s => Owns argI inst 0 s.trace)
      (modifyTrial fun _ => .start trial (stepSeed r trial seed) : Run R I σ n Unit)
      fun _ => Filling argI inst (List.finRange n) :=
    Spec.modify fun s hs => ⟨fun _ => rfl, fun hmem => absurd (List.mem_finRange argI) hmem, hs⟩
  apply Spec.bind hstart
  intro _
  apply Spec.bind (Filling.careful (Idles.initArgInfo _))
  intro equipped
  cases equipped with
  | false => exact Spec.pure fun _ ht => ht.owns
  | true => exact stepFromHook_careful fuel trial _

/-! ## The run -/

theorem runLoop_careful (fuel left : Nat) : ∀ trial seed,
    Careful argI inst (fun s => Owns argI inst 0 s.trace)
      (runLoop fuel r left trial seed : Run R I σ n _) fun _ t => Owns argI inst 0 t.trace := by
  induction left with
  | zero =>
    intro trial seed
    exact Spec.pure fun _ hs => hs
  | succ left ih =>
    intro trial seed
    apply Spec.bind (runStep_careful fuel trial seed)
    rintro ⟨res, seed'⟩
    have hwipe : Careful argI inst (fun s => Owns argI inst 0 s.trace)
        (modifyTrial fun _ => .start 0 0 : Run R I σ n Unit) fun _ s => Owns argI inst 0 s.trace :=
      Spec.modify fun _ hs => hs
    apply Spec.bind hwipe
    intro _
    cases res with
    | ok => exact ih (trial + 1) seed'
    | halt => exact Spec.pure fun _ hs => hs
    | genError => exact Spec.pure fun _ hs => hs
    | trialError => exact Spec.pure fun _ hs => hs

/-- **A run frees what it owns only**, returned or stopped. -/
theorem runTrials_careful (fuel : Nat) :
    Careful argI inst (fun s => Owns argI inst 0 s.trace) (runTrials fuel r : Run R I σ n _)
      fun _ t => Owns argI inst 0 t.trace := by
  have idle : ∀ {α : Type} {m : Run R I σ n α}, Effect Idles m →
      Careful argI inst (fun s => Owns argI inst 0 s.trace) m
        fun _ t => Owns argI inst 0 t.trace := by
    intro α m hm
    apply hm.keeps
    intro s t hs ht
    obtain ⟨new, htrace, hnew⟩ := ht.trace
    rw [htrace]
    exact hs.idle hnew
  apply Spec.bind (idle (Idles.of_asked (Asked.runPreHook (K := [.runPre]) (by decide) r)
    (by decide)))
  intro answer
  cases answer with
  | error => exact Spec.pure fun _ ht => ht
  | cont =>
    apply Spec.bind (runLoop_careful fuel _ 0 _)
    intro more
    apply idle
    split
    · apply Effect.bind (Idles.of_asked (Asked.runPostHook (K := [.runPost]) (by decide) r)
        (by decide))
      intro answer
      cases answer with
      | error => exact Effect.pure _
      | cont => exact Effect.bind Effect.get fun _ => Effect.pure _
    · exact Effect.pure _

/-- **Only live instances are freed**, in every run, returned or stopped, as long as the hook after
a shrinking step refuses only steps that were `OK`. -/
theorem frees_live {memory : Memory} {cfg : Config I σ n} {user : σ}
    {s₀ : RunState R I σ n} (hinit : runInit memory cfg user = some (r, s₀)) (fuel : Nat)
    (hblameless : Blameless (final (runTrials fuel r) s₀).trace) :
    LiveFrees (final (runTrials fuel r) s₀).trace := by
  have hstart : ∀ argI inst, Owns argI inst 0 s₀.trace := by
    intro argI inst _
    rw [(runInit_started hinit).trace]
    exact ⟨fun newer older htrace => by simp at htrace, Nat.le_refl 0⟩
  intro newer argI inst older htrace
  have howns : Owns argI inst 0 (final (runTrials fuel r) s₀).trace :=
    (runTrials_careful fuel).final (fun _ _ h => h) (fun _ _ h => h) (hstart argI inst)
  exact (howns hblameless).1 newer older htrace

end

/-! ## The hook after a shrinking step -/

/-- The property fails, and the one shrinking step comes to `sres`. The hook after it refuses. -/
def refusingStep (sres : ShrinkRes) : Config Nat Unit 1 where
  name := none
  prop := some fun _ u => .ret (.fail, u)
  typeInfo := fun _ =>
    { alloc := fun u => .ret (.ok, some 1, u)
      free := some fun _ u => u
      hash := none
      print := none
      shrink := some fun _ _ u => .ret (sres, if sres = .ok then some 0 else none, u)
      autoshrinkConfig := ⟨false, 0, ⟨false, false, false⟩, 0⟩ }
  trials := 1
  seed := 1
  alwaysSeeds := []
  hooks := ⟨none, none, none, none, none, none, none, some fun _ u => (.error, u), none⟩

/-- A candidate that the hook refuses is freed, and so is the argument. -/
theorem frees_live_refused : ∃ r s₀,
    runInit ⟨false, granted, granted⟩ (refusingStep .ok) () = some (r, s₀) ∧
    LiveFrees (final (runTrials 8 r) (s₀ : RunState Nat Nat Unit 1)).trace ∧
    freeCount 0 (some 0) (final (runTrials 8 r) s₀).trace = 1 := by
  have hrun : (runInit (R := Nat) ⟨false, granted, granted⟩ (refusingStep .ok) ()).any (fun a =>
      decide (Blameless (final (runTrials 8 a.1) a.2).trace ∧
        freeCount 0 (some 0) (final (runTrials 8 a.1) a.2).trace = 1)) = true := by decide +kernel
  obtain ⟨⟨r, s₀⟩, hinit, hfacts⟩ := (Option.any_eq_true _ _).mp hrun
  obtain ⟨hblameless, hcount⟩ := of_decide_eq_true hfacts
  exact ⟨r, s₀, hinit, frees_live hinit 8 hblameless, hcount⟩

/-- A shrinking step that comes to a dead end puts out no instance. When the hook refuses it,
`NULL` is freed. -/
theorem null_freed : ¬∀ (memory : Memory) (cfg : Config Nat Unit 1) (r : Runner Nat Unit 1)
    (s₀ : RunState Nat Nat Unit 1) (fuel : Nat), runInit memory cfg () = some (r, s₀) →
    LiveFrees (final (runTrials fuel r) s₀).trace := by
  intro h
  have hrun : (runInit (R := Nat) ⟨false, granted, granted⟩
      (refusingStep .deadEnd) ()).any (fun a =>
      decide (¬LiveFrees (final (runTrials 8 a.1) a.2).trace)) = true := by decide +kernel
  obtain ⟨⟨r, s₀⟩, hinit, hdead⟩ := (Option.any_eq_true _ _).mp hrun
  exact of_decide_eq_true hdead (h _ _ r s₀ 8 hinit)

end Theft
