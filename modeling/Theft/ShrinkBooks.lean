import Theft.Books
import Theft.Genuine

/-!
# The books over an attempt to shrink

* `Level A base t`: the arguments are those of `base`, and hold all there is;
* `attemptTactic_audit`: a tactic gives up its candidate or exchanges an argument for it, and
  frees the one that is not kept;
* `attempt_leaves_trial`: an attempt that does not shrink an argument leaves all of them alone.
-/

namespace Theft

open PackedBits Exec

section
variable {R I σ : Type} {n : Nat} {α β : Type}
variable {A : Account I} {b b' : Balance} {base s t : RunState R I σ n} {r : Runner I σ n}

/-- The arguments of `base` hold whatever was returned or acquired and is not freed. -/
abbrev Level (A : Account I) (base t : RunState R I σ n) : Prop :=
  Since A (A.held base.trial.args) base t

theorem Account.of_le (A : Account I) (args : Args I n) (i : Fin n) :
    A.of i (args i) ≤ A.ofArgs args :=
  Finset.single_le_sum (f := fun i : Fin n => A.of i (args i)) (fun _ _ => Nat.zero_le _)
    (Finset.mem_univ i)

theorem Since.inst (h : Since A b base t) (i : Fin n) :
    (t.trial.args i).inst = (base.trial.args i).inst := by
  have hcore := congrArg ArgInfo.inst (h.core i)
  exact hcore

theorem Since.getArgs (h : Since A b base t) : t.trial.getArgs = base.trial.getArgs :=
  funext h.inst

/-- The same arguments, compared with another state. -/
theorem Since.rebase (h : Since A b s t)
    (hcore : ∀ i, (s.trial.args i).core = (base.trial.args i).core) : Since A b base t :=
  ⟨h.noPool, fun i => (h.core i).trans (hcore i), h.books⟩

namespace Even
variable [Platform R]

theorem hashArg (hb : A.ofArgs base.trial.getArgs ≤ b.insts) (argI : Fin n) :
    Even A b base (hashArg r argI : Run R I σ n Word) := by
  apply Audit.getThen
  intro s hs
  dsimp only
  split
  · apply tell
    refine ⟨rfl, rfl, ?_⟩
    dsimp only [Account.passed]
    rw [hs.inst argI]
    exact Nat.le_trans (A.of_le base.trial.getArgs argI) hb
  · split
    · exact attempt _
    · exact throw _

theorem getArgHashBuffer (hb : A.ofArgs base.trial.getArgs ≤ b.insts) (is : List (Fin n)) :
    Even A b base (getArgHashBuffer r is : Run R I σ n (List Word)) := by
  induction is with
  | nil => exact pure []
  | cons i is ih =>
    apply Spec.bind (hashArg hb i)
    intro h
    apply Spec.bind ih
    intro hs
    exact pure _

theorem callCheckCalled (hb : A.ofArgs base.trial.getArgs ≤ b.insts) :
    Even A b base (callCheckCalled r : Run R I σ n Bool) := by
  apply Spec.bind (getArgHashBuffer hb _)
  intro buffer
  apply Audit.getThen
  intro s _
  split
  · exact throw _
  · exact attempt _

theorem callMarkCalled (hb : A.ofArgs base.trial.getArgs ≤ b.insts) :
    Even A b base (callMarkCalled r : Run R I σ n Unit) := by
  apply Spec.bind (getArgHashBuffer hb _)
  intro buffer
  apply Audit.getThen
  intro s _
  split
  · exact throw _
  · apply Spec.bind (attempt _)
    intro marked
    exact change (fun _ => rfl) (fun _ => rfl) (fun _ => rfl) fun _ _ => rfl

theorem skipCalled (hb : A.ofArgs base.trial.getArgs ≤ b.insts) :
    Even A b base (skipCalled r : Run R I σ n Bool) := by
  apply Audit.getThen
  intro s _
  split
  · apply Spec.bind (callCheckCalled hb)
    intro found
    split
    · exact pure _
    · apply Spec.bind (callMarkCalled hb)
      intro _
      exact pure _
  · exact pure _

/-- The property is called with the arguments of the trial. -/
theorem call (hb : A.ofArgs base.trial.getArgs ≤ b.insts) {args : Args I n}
    (hargs : args = base.trial.getArgs) (rerun : Bool) :
    Even A b base (call r args rerun : Run R I σ n TrialRes) := by
  apply Audit.getThen
  intro s _
  apply ask
  · exact ⟨rfl, rfl, hargs ▸ hb⟩
  · exact fun _ => ⟨rfl, rfl, Nat.le_refl 0⟩

/-! ### Hooks and counters -/

theorem shrinkPreHook {argI : Fin n} {arg : Option I} (harg : A.of argI arg ≤ b.insts)
    (tactic : Nat) : Even A b base (shrinkPreHook r argI arg tactic : Run R I σ n _) := by
  apply Audit.getThen
  intro s _
  apply askHook
  · exact ⟨rfl, rfl, harg⟩
  · exact fun _ => ⟨rfl, rfl, Nat.le_refl 0⟩

theorem shrinkPostHook {argI : Fin n} {arg : Option I} (harg : A.of argI arg ≤ b.insts)
    (tactic : Nat) (sres : ShrinkRes) :
    Even A b base (shrinkPostHook r argI arg tactic sres : Run R I σ n _) := by
  unfold Theft.shrinkPostHook
  split
  · exact pure _
  · split
    · exact throw _
    · apply Audit.getThen
      intro s _
      apply askHook
      · exact ⟨rfl, rfl, harg⟩
      · exact fun _ => ⟨rfl, rfl, Nat.le_refl 0⟩

theorem shrinkTrialPostHook (hb : A.ofArgs base.trial.getArgs ≤ b.insts) (argI : Fin n)
    {args : Args I n} (hargs : args = base.trial.getArgs) (tactic : Nat) (res : TrialRes) :
    Even A b base (shrinkTrialPostHook r argI args tactic res : Run R I σ n _) := by
  apply Audit.getThen
  intro s _
  apply askHook
  · exact ⟨rfl, rfl, hargs ▸ hb⟩
  · exact fun _ => ⟨rfl, rfl, Nat.le_refl 0⟩

omit [Platform R] in
theorem modifyTrial {f : TrialInfo I n → TrialInfo I n} (hf : ∀ t, (f t).args = t.args) :
    Even A b base (modifyTrial f : Run R I σ n Unit) :=
  change (fun _ => rfl) (fun _ => rfl) (fun _ => rfl) fun s i => by
    rw [show (f s.trial).args = s.trial.args from hf s.trial]

omit [Platform R] in
theorem ifAutoshrink {m : Run R I σ n Unit} (argI : Fin n) (hm : Even A b base m) :
    Even A b base (ifAutoshrink r argI m) := by
  unfold Theft.ifAutoshrink
  split
  · exact hm
  · exact pure ()

omit [Platform R] in
theorem autoshrinkUpdateModel (argI : Fin n) (res : TrialRes) (adjustment : Byte) :
    Even A b base (autoshrinkUpdateModel r argI res adjustment : Run R I σ n Unit) := by
  apply ifAutoshrink
  refine change (fun _ => rfl) (fun _ => rfl) (fun _ => rfl) fun s i => ?_
  dsimp only [TrialInfo.modifyArg, update]
  split
  · rename_i hi
    rw [hi]
    unfold ArgInfo.core
    cases (s.trial.args argI).env <;> rfl
  · rfl

omit [Platform R] in
theorem countShrink (argI : Fin n) (res : TrialRes) (repeated : Bool) :
    Even A b base (countShrink r argI res repeated : Run R I σ n Unit) := by
  unfold Theft.countShrink
  split
  · exact pure ()
  · split
    · refine Spec.bind (modifyTrial fun _ => rfl) fun _ => ?_
      exact autoshrinkUpdateModel argI res 3
    · exact modifyTrial fun _ => rfl

theorem shrinkTrials (hb : A.ofArgs base.trial.getArgs ≤ b.insts) (argI : Fin n)
    (tactic fuel : Nat) : ∀ repeated,
    Even A b base (shrinkTrials r argI tactic fuel repeated : Run R I σ n _) := by
  induction fuel with
  | zero =>
    intro repeated
    exact throw _
  | succ fuel ih =>
    intro repeated
    apply Audit.getThen
    intro s hs
    apply Spec.bind (call hb hs.getArgs repeated)
    intro res
    apply Spec.bind (countShrink argI res repeated)
    intro _
    apply Spec.bind (shrinkTrialPostHook hb argI hs.getArgs tactic res)
    intro answer
    cases answer with
    | repeat_ => exact ih true
    | repeatOnce =>
      cases repeated with
      | false => exact ih true
      | true => exact pure _
    | cont => exact pure _
    | error => exact pure _

end Even

/-! ## Candidates -/

/-- The balance with what a shrinking step offers. -/
def Account.offer (A : Account I) (b : Balance) (argI : Nat)
    (c : ShrinkRes × Option I × Option BitPool) : Balance :=
  Balance.put { b with res := b.res + A.ofPool c.2.2 } (A.of argI c.2.1) (decide (c.1 = .ok))

/-- An argument has an environment for the pool that is to replace its own. -/
structure Swap (r : Runner I σ n) (argI : Fin n) (s : RunState R I σ n) (copy : Option BitPool) :
    Prop where
  env : r.autoshrinks argI = true → (s.trial.args argI).env.isSome
  copy : r.autoshrinks argI = false → copy = none

variable [Platform R]

/-- A shrinking step on the environment of an argument. -/
theorem zoomEnv_audit {argI : Fin n} {env : AutoshrinkEnv} (hs : Since A b base s)
    (henv : (s.trial.args argI).env = some env) (fuel : Nat)
    (alloc : Gen (AllocRes × Option I × σ)) (tactic : Nat) :
    Audit A (fun t => t = s) (zoomEnv argI env (autoshrinkShrink fuel alloc tactic) : Run R I σ n _)
      fun c t => Since A { b with res := b.res + A.ofPool c.2.2 } base t ∧
        (t.trial.args argI).env.isSome ∧ ∃ after, ShrinkLedger s.ledger after c := by
  intro s' hs'
  subst hs'
  simp only [zoomEnv, zoom]
  cases hrun : autoshrinkShrink fuel alloc tactic
      ⟨s'.prng, s'.ledger, (s'.trial.args argI).env.getD env⟩ with
  | error e t => exact hs.books.clean
  | ok c t =>
    have hcore := (CoreOnly.autoshrinkShrink fuel alloc tactic).of_returned hrun
    obtain ⟨hnone, hledger⟩ := autoshrinkShrink_ledger hs.noPool hrun
    rw [henv, Option.getD_some] at hcore
    unfold CoreOnly at hcore
    refine ⟨⟨hnone, fun i => ?_, hs.books.shrinkLedger hledger rfl⟩, ?_, _, hledger⟩
    · refine Eq.trans ?_ (hs.core i)
      dsimp only [TrialInfo.modifyArg, update]
      split
      · rename_i hi
        rw [hi]
        simp only [ArgInfo.core, henv, Option.map_some, hcore]
      · rfl
    · dsimp only
      rw [modifyArg_same]
      rfl

/-- What `theft_autoshrink_shrink` offers is loose, its pool too. -/
theorem autoshrinkCandidate_audit (fuel : Nat) (argI : Fin n) (tactic : Nat) :
    Audit A (Since A b base) (autoshrinkCandidate fuel r argI tactic : Run R I σ n _)
      fun c t => Since A (A.offer b argI c) base t ∧ (t.trial.args argI).env.isSome ∧
        (c.1 ≠ .ok → c.2.2 = none) := by
  apply Audit.getAt
  intro s hs
  cases henv : (s.trial.args argI).env with
  | none => exact Spec.throw fun _ ht => ht ▸ hs.books.clean
  | some env =>
    apply Spec.bind (zoomEnv_audit hs henv _ _ _)
    rintro c t ⟨ht, hsome, after, hledger⟩
    cases hledger with
    | none hsres =>
      refine ⟨⟨ht.noPool, ht.core, ht.books.rebalance ?_ ?_ rfl⟩, hsome, fun _ => rfl⟩
      · simp [Account.offer, Balance.put, Account.of]
      · simp [Account.offer, Balance.put, Account.of]
    | @offered res pool hid =>
      obtain ⟨inst, user⟩ := res
      refine ⟨⟨ht.noPool, ht.core, ?_⟩, hsome, fun h => absurd rfl h⟩
      rw [if_pos rfl]
      apply Books.rebalance
      · exact ht.books.allocated rfl rfl
      · exact Nat.le_refl _
      · exact Nat.le_refl _
      · rfl
    | @freed sres res hsres =>
      obtain ⟨inst, user⟩ := res
      refine ⟨⟨ht.noPool, ht.core, ?_⟩, hsome, fun _ => rfl⟩
      rw [if_neg hsres]
      apply Books.rebalance
      · exact ht.books.allocated rfl rfl
      · cases sres <;>
          first | exact absurd rfl hsres | simp [Account.offer, Balance.put, ShrinkRes.allocRes]
      · cases sres <;> simp [Account.offer, Balance.put, Account.of, ShrinkRes.allocRes]
      · rfl

/-- What the `shrink` callback puts out is loose. -/
theorem userCandidate_audit (argI : Fin n) {current : Option I}
    (hcurrent : A.of argI current ≤ b.insts) (tactic : Nat) :
    Audit A (Since A b base) (userCandidate r argI current tactic : Run R I σ n _)
      fun c t => Since A (A.offer b argI c) base t ∧ c.2.2 = none := by
  cases hshrink : (r.typeInfo argI).shrink with
  | none =>
    unfold userCandidate
    rw [hshrink]
    exact Spec.throw fun _ hs => hs.books.clean
  | some shrink =>
    intro s hs
    obtain ⟨a, u, p, hg, hrun⟩ | ⟨e, p, -, hrun⟩ := userCandidate_cases hshrink current tactic s
    · rw [hrun]
      have hnone := ((SamePool.run _).of_returned hg).none hs.noPool
      exact ⟨⟨hnone, hs.core, hs.books.shrunk rfl rfl hcurrent⟩, rfl⟩
    · rw [hrun]
      exact hs.books.clean_cons (Nat.le_trans hcurrent (Nat.le_add_right _ _))

/-- Whatever offers the candidate. -/
theorem candidate_audit (fuel : Nat) (argI : Fin n) {current : Option I}
    (hcurrent : A.of argI current ≤ b.insts) (tactic : Nat) :
    Audit A (Since A b base)
      (if r.autoshrinks argI = true then autoshrinkCandidate fuel r argI tactic
        else userCandidate r argI current tactic : Run R I σ n _)
      fun c t => Since A (A.offer b argI c) base t ∧ Swap r argI t c.2.2 ∧
        (c.1 ≠ .ok → c.2.2 = none) := by
  split
  · rename_i henable
    refine Spec.mono (autoshrinkCandidate_audit fuel argI tactic) (fun _ h => h) ?_ fun _ _ h => h
    rintro c t ⟨ht, hsome, hnone⟩
    refine ⟨ht, ⟨fun _ => hsome, fun hdisabled => ?_⟩, hnone⟩
    rw [henable] at hdisabled
    cases hdisabled
  · rename_i hdisabled
    refine Spec.mono (userCandidate_audit argI hcurrent tactic) (fun _ h => h) ?_ fun _ _ h => h
    rintro c t ⟨ht, hnone⟩
    exact ⟨ht, ⟨fun henable => absurd henable hdisabled, fun _ => hnone⟩, fun _ => hnone⟩

/-! ## Exchanging an argument for a candidate -/

/-- The weight of a pool, if the argument is autoshrunk. -/
def Account.ofPoolIf (A : Account I) (r : Runner I σ n) (argI : Fin n) (pool : Option BitPool) :
    Nat := if r.autoshrinks argI = true then A.ofPool pool else 0

omit [Platform R] in
/-- What an argument and its candidate hold together. -/
theorem held_exchange {argI : Fin n} {copy : Option BitPool} (hswap : Swap r argI s copy)
    (inst : Option I) :
    (A.held ((s.withInst argI inst).withPoolIf r argI copy).trial.args).insts +
        A.of argI (s.trial.args argI).inst = (A.held s.trial.args).insts + A.of argI inst ∧
      (A.held ((s.withInst argI inst).withPoolIf r argI copy).trial.args).res +
        A.ofPoolIf r argI ((s.trial.args argI).env.bind AutoshrinkEnv.bitPool) =
      (A.held s.trial.args).res + A.ofPool copy := by
  have hinst := A.held_modifyArg s.trial argI fun a => { a with inst := inst }
  dsimp only at hinst
  by_cases henable : r.autoshrinks argI = true
  · obtain ⟨env, henv⟩ := Option.isSome_iff_exists.mp (hswap.env henable)
    have hpool := A.held_modifyArg (s.withInst argI inst).trial argI fun a =>
      { a with env := a.env.map fun env => { env with bitPool := copy } }
    have hsame : (s.withInst argI inst).trial.args argI =
        { s.trial.args argI with inst := inst } :=
      modifyArg_same s.trial argI fun a => { a with inst := inst }
    rw [hsame] at hpool
    dsimp only at hpool
    rw [henv] at hpool hinst
    simp only [RunState.withPoolIf, if_pos henable, Account.ofPoolIf, henv, Option.bind_some]
    simp only [RunState.withInst, RunState.withPool, Account.ofEnv, Option.map_some,
      Option.elim_some] at hpool hinst ⊢
    omega
  · have hnone := hswap.copy (Bool.eq_false_iff.mpr henable)
    subst hnone
    simp only [RunState.withPoolIf, if_neg henable, Account.ofPoolIf]
    simp only [RunState.withInst, Account.ofPool, Option.elim_none] at hinst ⊢
    omega

/-- The balance while a candidate is tried: the trial holds it, and the argument that it replaces
is kept aside. -/
def Account.trying (A : Account I) (s : RunState R I σ n) (argI : Fin n) (inst : Option I)
    (copy : Option BitPool) : Balance :=
  ⟨(A.held s.trial.args).insts + A.of argI inst, 0, (A.held s.trial.args).res + A.ofPool copy⟩

/-- The state with a candidate and its pool in place of an argument. -/
abbrev RunState.exchange (r : Runner I σ n) (s : RunState R I σ n) (argI : Fin n)
    (inst : Option I) (copy : Option BitPool) : RunState R I σ n :=
  (s.withInst argI inst).withPoolIf r argI copy

omit [Platform R] in
theorem trying_eq {argI : Fin n} {copy : Option BitPool} (hswap : Swap r argI s copy)
    (inst : Option I) : A.trying s argI inst copy =
      ⟨(A.held (s.exchange r argI inst copy).trial.args).insts + A.of argI (s.trial.args argI).inst,
        0, (A.held (s.exchange r argI inst copy).trial.args).res +
          A.ofPoolIf r argI ((s.trial.args argI).env.bind AutoshrinkEnv.bitPool)⟩ := by
  obtain ⟨hinsts, hres⟩ := held_exchange (A := A) hswap inst
  rw [hinsts, hres, Account.trying]

omit [Platform R] in
theorem setInst_audit (argI : Fin n) (inst : Option I) :
    Audit A (Since A b base) (setInst argI inst : Run R I σ n Unit)
      fun _ => Since A b (base.withInst argI inst) := fun _ hs => hs.withInst argI inst

omit [Platform R] in
theorem install_audit (argI : Fin n) (pool : Option BitPool) :
    Audit A (Since A b base) (ifAutoshrink r argI (setPool argI pool) : Run R I σ n Unit)
      fun _ => Since A b (base.withPoolIf r argI pool) := by
  intro s hs
  have ht := hs.withPoolIf r argI pool
  unfold ifAutoshrink RunState.withPoolIf at *
  split at ht
  · rename_i henable
    rw [if_pos henable, if_pos henable]
    exact ht
  · rename_i hdisabled
    rw [if_neg hdisabled, if_neg hdisabled]
    exact ht

omit [Platform R] in
theorem revertPool_audit {insts strays res : Nat} {argI : Fin n} {copy : Option BitPool}
    (hcopy : r.autoshrinks argI = false → copy = none) (pool : Option BitPool) :
    Audit A (Since A ⟨insts, strays, res + A.ofPool copy⟩ base)
      (revertPool r argI pool copy : Run R I σ n Unit)
      fun _ => Since A ⟨insts, strays, res⟩ (base.withPoolIf r argI pool) := by
  unfold revertPool ifAutoshrink RunState.withPoolIf
  split
  · refine Spec.bind (fun s hs => ?_) fun _ => freePoolPtr_audit copy
    exact hs.modifyArg argI fun _ _ hab => ArgInfo.core_setPool hab pool
  · rename_i hdisabled
    rw [hcopy (Bool.eq_false_iff.mpr hdisabled)]
    exact Even.pure ()

omit [Platform R] in
theorem freeCurrentPool_audit {insts strays res : Nat} {argI : Fin n} {pool : Option BitPool}
    {m : Run R I σ n Unit}
    (hm : Audit A (Since A ⟨insts, strays, res + A.ofPool pool⟩ base) m
      fun _ => Since A ⟨insts, strays, res⟩ base) :
    Audit A (Since A ⟨insts, strays, res + A.ofPoolIf r argI pool⟩ base) (ifAutoshrink r argI m)
      fun _ => Since A ⟨insts, strays, res⟩ base := by
  unfold ifAutoshrink Account.ofPoolIf
  split
  · exact hm
  · exact Even.pure ()

/-- A candidate was given up, or it stays in the place of the argument. -/
inductive Settled (A : Account I) (s s₁ : RunState R I σ n) :
    Option AttemptRes → RunState R I σ n → Prop where
  | reverted {u} : Level A s u → Settled A s s₁ none u
  | kept {u res} : Level A s₁ u → res = .ok ∨ res = .error → Settled A s s₁ (some res) u

theorem judgeCandidate_audit (hr : A.Freeable r) {argI : Fin n} {copy : Option BitPool}
    (hswap : Swap r argI s copy) (inst : Option I) (res : TrialRes) :
    Audit A (Since A (A.trying s argI inst copy) (s.exchange r argI inst copy))
      (judgeCandidate r argI (s.trial.args argI).inst inst
        ((s.trial.args argI).env.bind AutoshrinkEnv.bitPool) copy res : Run R I σ n _)
      (Settled A s (s.exchange r argI inst copy)) := by
  -- the argument and its pool are put back
  have back : Audit A (Since A (A.trying s argI inst copy) (s.exchange r argI inst copy))
      (do
        setInst argI (s.trial.args argI).inst
        revertPool r argI ((s.trial.args argI).env.bind AutoshrinkEnv.bitPool) copy
        freeInst r argI inst
        return none : Run R I σ n (Option AttemptRes))
      (Settled A s (s.exchange r argI inst copy)) := by
    apply Spec.bind (setInst_audit argI _)
    intro _
    apply Spec.bind (revertPool_audit hswap.copy _)
    intro _
    rw [RunState.exchange, withInst_withPoolIf, exchange_back]
    apply Spec.bind (freeLoose_audit hr)
    intro _
    exact Spec.pure fun _ ht => .reverted ht
  have lost : Audit A (Since A (A.trying s argI inst copy) (s.exchange r argI inst copy))
      (do
        freeInst r argI (s.trial.args argI).inst
        ifAutoshrink r argI
          (freePoolPtr ((s.trial.args argI).env.bind AutoshrinkEnv.bitPool))
        return some .error : Run R I σ n (Option AttemptRes))
      (Settled A s (s.exchange r argI inst copy)) := by
    rw [trying_eq hswap]
    apply Spec.bind (freeLoose_audit hr)
    intro _
    apply Spec.bind (freeCurrentPool_audit (freePoolPtr_audit _))
    intro _
    exact Spec.pure fun _ ht => .kept ht (.inr rfl)
  apply Spec.bind (Even.autoshrinkUpdateModel argI res 8)
  intro _
  cases res with
  | pass => exact back
  | skip => exact back
  | fail =>
    rw [trying_eq hswap]
    apply Spec.bind (freeCurrentPool_audit (freePoolPtr_audit _))
    intro _
    apply Spec.bind (freeLoose_audit hr)
    intro _
    exact Spec.pure fun _ ht => .kept ht (.inl rfl)
  | dup => exact lost
  | error => exact lost

theorem tryCandidate_audit (hr : A.Freeable r) {argI : Fin n} {copy : Option BitPool}
    (hswap : Swap r argI s copy) (inst : Option I) (fuel tactic : Nat) :
    Audit A (Since A (A.trying s argI inst copy) s)
      (tryCandidate fuel r argI tactic (s.trial.args argI).inst inst
        ((s.trial.args argI).env.bind AutoshrinkEnv.bitPool) copy : Run R I σ n _)
      (Settled A s (s.exchange r argI inst copy)) := by
  have hb : A.ofArgs (s.exchange r argI inst copy).trial.getArgs ≤
      (A.trying s argI inst copy).insts := by
    rw [trying_eq hswap]
    exact Nat.le_add_right _ _
  apply Spec.bind (setInst_audit argI inst)
  intro _
  apply Spec.bind (install_audit argI copy)
  intro _
  apply Spec.bind (Even.skipCalled hb)
  intro found
  cases found with
  | true =>
    apply Spec.bind (freeLoose_audit hr)
    intro _
    apply Spec.bind (revertPool_audit hswap.copy _)
    intro _
    apply Spec.bind (setInst_audit argI _)
    intro _
    rw [exchange_back]
    exact Spec.pure fun _ ht => .reverted ht
  | false =>
    apply Spec.bind (Even.shrinkTrials hb argI tactic fuel false)
    intro out
    cases out with
    | some res => exact judgeCandidate_audit hr hswap inst res
    | none =>
      rw [trying_eq hswap]
      apply Spec.bind (freeLoose_audit hr)
      intro _
      apply Spec.bind (freeCurrentPool_audit (freePoolIf_audit _))
      intro _
      exact Spec.pure fun _ ht => .kept ht (.inr rfl)

/-! ## An attempt -/

/-- After a tactic, or a whole attempt: the arguments hold all there is, and one that was
exchanged is the only one. -/
inductive AfterAttempt (A : Account I) (argI : Fin n) (s : RunState R I σ n) :
    Option AttemptRes → RunState R I σ n → Prop where
  | same {u res} : Level A s u → res ≠ some .ok → AfterAttempt A argI s res u
  | exchanged {base u res} : Level A base u →
      (∀ j ≠ argI, (base.trial.args j).core = (s.trial.args j).core) →
      res = .ok ∨ res = .error → AfterAttempt A argI s (some res) u

theorem attemptTactic_audit (hr : A.Freeable r) (fuel : Nat) (argI : Fin n) (tactic : Nat) :
    Audit A (Level A s) (attemptTactic fuel r argI tactic : Run R I σ n _)
      (AfterAttempt A argI s) := by
  have hcurrent : A.of argI (s.trial.args argI).inst ≤ (A.held s.trial.args).insts :=
    A.of_le s.trial.getArgs argI
  apply Audit.getThen
  intro s' hs'
  rw [hs'.inst argI]
  apply Spec.bind (Even.shrinkPreHook hcurrent tactic)
  intro answer
  cases answer with
  | halt => exact Spec.pure fun _ ht => .same ht (by decide)
  | error => exact Spec.pure fun _ ht => .same ht (by decide)
  | cont =>
    apply Spec.bind (candidate_audit fuel argI hcurrent tactic)
    rintro ⟨sres, inst, copy⟩ t₀ ⟨ht₀, hswap, hnone⟩
    have hcore := ht₀.core
    have hstart : Since A (A.offer (A.held t₀.trial.args) argI (sres, inst, copy)) t₀ t₀ := by
      rw [A.held_core hcore]
      exact ⟨ht₀.noPool, fun _ => rfl, ht₀.books⟩
    have back : ∀ {u}, Level A t₀ u → Level A s u := by
      intro u hu
      rw [Level, ← A.held_core hcore]
      exact hu.rebase hcore
    rw [← ht₀.inst argI]
    have hpool : currentPool argI t₀ =
        .ok ((t₀.trial.args argI).env.bind AutoshrinkEnv.bitPool) t₀ := rfl
    have count : Even A (A.offer (A.held t₀.trial.args) argI (sres, inst, copy)) t₀
        (modifyTrial fun t => { t with shrinkCount := t.shrinkCount + 1 } : Run R I σ n Unit) :=
      Even.modifyTrial fun _ => rfl
    have hshown : A.of argI (if sres = .ok then inst else (t₀.trial.args argI).inst) ≤
        (A.offer (A.held t₀.trial.args) argI (sres, inst, copy)).insts := by
      have hle := A.of_le t₀.trial.getArgs argI
      cases sres with
      | ok => exact Nat.le_add_left _ _
      | _ => exact hle
    dsimp only
    rw [bind_apply, hpool]
    dsimp only
    refine Spec.bind count (fun _ => ?_) t₀ hstart
    apply Spec.bind (Even.shrinkPostHook hshown tactic sres)
    intro answer
    cases answer with
    | error =>
      have hfree : Audit A (Since A (A.offer (A.held t₀.trial.args) argI (sres, inst, copy)) t₀)
          (freeInst r argI inst : Run R I σ n Unit) fun _ => Since A
            ⟨(A.held t₀.trial.args).insts, 0, (A.held t₀.trial.args).res + A.ofPool copy⟩ t₀ := by
        apply freeInst_audit hr
        · cases sres <;> simp [Account.offer, Balance.put]
        · cases sres <;> simp [Account.offer, Balance.put]
        · rfl
      apply Spec.bind hfree
      intro _
      apply Spec.bind (freePoolIf_audit copy)
      intro _
      exact Spec.pure fun _ ht => .same (back ht) (by decide)
    | cont =>
      -- what was put out without an OK is forgotten
      have forget : sres ≠ .ok → ∀ {u}, Since A (A.offer (A.held t₀.trial.args) argI
          (sres, inst, copy)) t₀ u → Level A s u := by
        intro hsres u hu
        have hcopy : copy = none := hnone hsres
        refine back ⟨hu.noPool, hu.core, hu.books.rebalance ?_ ?_ ?_⟩
        · simp [Account.offer, Balance.put, hsres]
        · simp [Account.offer, Balance.put, Account.held, hsres]
        · rw [hcopy]
          rfl
      cases sres with
      | ok =>
        refine Spec.mono (tryCandidate_audit hr hswap inst fuel tactic) (fun _ h => h) ?_
          fun _ _ h => h
        intro out u hu
        cases hu with
        | reverted hu => exact .same (back hu) (by decide)
        | kept hu hres =>
          refine .exchanged hu (fun j hj => ?_) hres
          rw [RunState.exchange, exchange_other _ hj]
          exact hcore j
      | deadEnd => exact Spec.pure fun _ ht => .same (forget (by decide) ht) (by decide)
      | noMoreTactics => exact Spec.pure fun _ ht => .same (forget (by decide) ht) (by decide)
      | error => exact Spec.pure fun _ ht => .same (forget (by decide) ht) (by decide)

theorem attemptTactics_audit (hr : A.Freeable r) (fuel : Nat) (argI : Fin n) (left : Nat) :
    ∀ tactic, Audit A (Level A s) (attemptTactics fuel r argI left tactic : Run R I σ n _)
      fun res => AfterAttempt A argI s (some res) := by
  induction left with
  | zero =>
    intro tactic
    exact Spec.pure fun _ ht => .same ht (by decide)
  | succ left ih =>
    intro tactic
    apply Spec.bind (attemptTactic_audit hr fuel argI tactic)
    intro out
    cases out with
    | some res => exact Spec.pure fun _ ht => ht
    | none =>
      intro t ht
      cases ht with
      | same ht => exact ih (tactic + 1) t ht

/-! ## What an attempt leaves alone -/

/-- An account that counts nothing. -/
def Account.zero : Account I := ⟨fun _ => 0, fun _ _ => 0⟩

omit [Platform R] in
theorem Account.zero_of (argI : Nat) (inst : Option I) : (zero : Account I).of argI inst = 0 := by
  cases inst <;> rfl

omit [Platform R] in
theorem Account.zero_ofArgs (args : Args I n) : Account.zero.ofArgs args = 0 := by
  simp [Account.ofArgs, Account.zero_of]

omit [Platform R] in
theorem Account.zero_passed (e : Event I n) : Account.zero.passed e = 0 := by
  cases e with
  | trialPre info => cases hargs : info.args <;> simp [Account.passed, hargs, Account.zero_ofArgs]
  | _ => first | rfl | exact Account.zero_of _ _ | exact Account.zero_ofArgs _

omit [Platform R] in
theorem Account.zero_held (args : Fin n → ArgInfo I) : Account.zero.held args = ⟨0, 0, 0⟩ := by
  have henv : ∀ i, (Account.zero : Account I).ofEnv (args i).env = 0 := by
    intro i
    cases (args i).env with
    | none => rfl
    | some env =>
      simp only [Account.ofEnv, Account.ofPool, Account.zero, Option.elim_some]
      cases env.bitPool <;> rfl
  simp [Account.held, Account.zero_of, henv]

omit [Platform R] in
/-- The books of an account that counts nothing are balanced. -/
theorem Level.zero (hs : s.prng.bitPool = none) : Level .zero s s := by
  refine ⟨hs, fun _ => rfl, ?_⟩
  rw [Account.zero_held]
  have hput : ∀ ok, ((outputs s.trace).map (Account.zero.ofOutput ok)).sum = 0 := by
    intro ok
    apply List.sum_eq_zero
    simp [Account.ofOutput, Account.zero]
  have hfreed : (s.trace.map Account.zero.freedBy).sum = 0 := by
    apply List.sum_eq_zero
    intro w hw
    obtain ⟨e, -, rfl⟩ := List.mem_map.mp hw
    cases e <;> first | rfl | exact Account.zero_of _ _
  have hledger : Account.zero.acquired (I := I) s.ledger = 0 ∧
      Account.zero.released (I := I) s.ledger = 0 := by
    constructor
    · apply List.sum_eq_zero
      intro w hw
      obtain ⟨e, -, rfl⟩ := List.mem_map.mp hw
      cases e <;> rfl
    · apply List.sum_eq_zero
      intro w hw
      obtain ⟨e, -, rfl⟩ := List.mem_map.mp hw
      cases e <;> rfl
  refine ⟨?_, ?_, ?_, ?_, fun x hx => absurd hx (Nat.lt_irrefl 0)⟩
  · rw [Account.returned, hput]
    exact Nat.zero_le _
  · rw [Account.freed, hfreed]
    exact Nat.zero_le _
  · intro newer e older _ hpos
    rw [Account.zero_passed] at hpos
    cases hpos
  · dsimp only
    rw [hledger.1, hledger.2]

/-- **An attempt that does not shrink an argument leaves the trial as it was.** -/
theorem attempt_leaves_trial (fuel : Nat) (argI : Fin n) {res : AttemptRes}
    (hs : s.prng.bitPool = none) (h : attemptToShrinkArg fuel r argI s = .ok res t) :
    t.prng.bitPool = none ∧
      (res = .deadEnd ∨ res = .halt →
        ∀ i, (t.trial.args i).core = (s.trial.args i).core) ∧
      (res = .ok → ∀ i ≠ argI, (t.trial.args i).core = (s.trial.args i).core) := by
  have hfreeable : Account.zero.Freeable r := fun _ _ => Account.zero_of _
  have hafter := (attemptTactics_audit hfreeable fuel argI maxTactics 0).returned (.zero hs) h
  cases hafter with
  | same ht hres => exact ⟨ht.noPool, fun _ => ht.core, fun hok => absurd (congrArg some hok) hres⟩
  | @exchanged base _ _ ht hothers hres =>
    refine ⟨ht.noPool, ?_, fun _ i hi => (ht.core i).trans (hothers i hi)⟩
    rintro (rfl | rfl)
    · exact absurd hres (by decide)
    · exact absurd hres (by decide)

/-- A trial with three random bits, and one attempt to shrink it. -/
def notSevenAttempt : Run Nat Word Unit 1 (AllGenRes × Bool × AttemptRes) := do
  let _ ← initArgInfo notSevenRunner (List.finRange 1)
  modify fun s => { s with prng := s.prng.setSeed 1 }
  let gres ← genAllArgs notSevenRunner (List.finRange 1)
  let s ← get
  let res ← attemptToShrinkArg 20 notSevenRunner 0
  return (gres, s.prng.bitPool.isNone, res)

theorem attempt_leaves_trial_seven : ∃ s t : RunState Nat Word Unit 1,
    attemptToShrinkArg 20 notSevenRunner 0 s = .ok .deadEnd t ∧ t.prng.bitPool = none ∧
      ∀ i, (t.trial.args i).core = (s.trial.args i).core := by
  obtain ⟨t, hrun⟩ : ∃ t, notSevenAttempt notSevenIdle = .ok (.ok, true, .deadEnd) t := by
    have hrun : passes (fun a _ => decide (a = (.ok, true, .deadEnd)))
        (notSevenAttempt notSevenIdle) = true := by decide +kernel
    obtain ⟨a, t, heq, ha⟩ := of_passes hrun
    exact ⟨t, by rw [heq, of_decide_eq_true ha]⟩
  obtain ⟨_, t₁, -, hrun⟩ := bind_eq_ok.mp hrun
  obtain ⟨_, t₂, -, hrun⟩ := bind_eq_ok.mp hrun
  obtain ⟨gres, s, -, hrun⟩ := bind_eq_ok.mp hrun
  obtain ⟨_, _, hget, hrun⟩ := bind_eq_ok.mp hrun
  cases hget
  obtain ⟨res, u, hattempt, hlast⟩ := bind_eq_ok.mp hrun
  injection hlast with hval hstate
  simp only [Prod.mk.injEq, Option.isNone_iff_eq_none] at hval
  obtain ⟨-, hnone, rfl⟩ := hval
  have hleaves := attempt_leaves_trial 20 0 hnone hattempt
  exact ⟨s, u, hattempt, hleaves.1, hleaves.2.1 (.inl rfl)⟩

/-! ## Shrinking -/

/-- The arguments hold whatever was returned or acquired and is not freed. -/
abbrev Stocked (A : Account I) (t : RunState R I σ n) : Prop := Level A t t

omit [Platform R] in
theorem Since.stocked (h : Level A base t) : Stocked A t := by
  refine ⟨h.noPool, fun _ => rfl, ?_⟩
  rw [A.held_core h.core]
  exact h.books

theorem shrinkFrom_audit (hr : A.Freeable r) (inner fuel : Nat) : ∀ argI progress,
    Audit A (Stocked A) (shrinkFrom inner r fuel argI progress : Run R I σ n _)
      fun _ => Stocked A := by
  induction fuel with
  | zero =>
    intro argI progress
    exact Spec.throw fun _ ht => ht.books.clean
  | succ fuel ih =>
    intro argI progress
    unfold shrinkFrom
    split
    · split
      · rename_i hlt _
        have attempt : Audit A (Stocked A)
            (attemptToShrinkArg inner r ⟨argI, hlt⟩ : Run R I σ n AttemptRes)
            fun _ => Stocked A := by
          intro t ht
          refine Spec.mono (attemptTactics_audit hr inner ⟨argI, hlt⟩ maxTactics 0) (fun _ h => h)
            ?_ (fun _ _ h => h) t ht
          intro res u hu
          cases hu with
          | same hu => exact hu.stocked
          | exchanged hu => exact hu.stocked
        apply Spec.bind attempt
        intro res
        cases res with
        | ok => exact ih _ _
        | halt => exact Spec.pure fun _ ht => ht
        | deadEnd => exact ih _ _
        | error => exact Spec.pure fun _ ht => ht
      · exact ih _ _
    · split
      · exact ih _ _
      · exact Spec.pure fun _ ht => ht

theorem shrink_audit (hr : A.Freeable r) (fuel : Nat) :
    Audit A (Stocked A) (shrink fuel r : Run R I σ n _) fun _ => Stocked A := by
  intro s hs
  refine Spec.bind Even.require (fun _ => ?_) s hs
  intro t ht
  exact shrinkFrom_audit hr fuel fuel 0 false t ht.stocked

end

end Theft
