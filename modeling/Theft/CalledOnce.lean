import Theft.Replay
import Theft.RunFrames
import Theft.ShrinkStep
import Theft.Trials

/-!
# No arguments are called twice

The bloom filter links the calls of a run over all of its trials: whatever was called is marked,
and what is marked is not called again, unless a hook asks for it.

* `Noted`: every call so far is known to the filter, and none repeats an earlier one;
* `Holding`: what the trial holds, and which arguments the filter knows;
* `calls_distinct`: the calls of a whole run.
-/

namespace Theft

open PackedBits Exec

section
variable {R I σ : Type} {n : Nat} {α β : Type} {r : Runner I σ n}
  {hashes : Fin n → Option I → Word} {s t b c : RunState R I σ n}

/-! ## Calls -/

/-- The hashes of all arguments, in their order. -/
def hashTuple (r : Runner I σ n) (hashes : Fin n → Option I → Word) (args : Fin n → ArgInfo I) :
    Except Stop (List Word) :=
  (List.finRange n).mapM fun i => hashOf r hashes i (args i)

theorem hashAll_congr {a b : Fin n → ArgInfo I} (h : hashTuple r hashes a = hashTuple r hashes b) :
    hashAll r hashes a = hashAll r hashes b :=
  congrArg (Except.map fun buffer => hashOnepass (hashBytes buffer)) h

theorem hashTuple_core {a b : Fin n → ArgInfo I} (h : ∀ i, (a i).core = (b i).core) :
    hashTuple r hashes a = hashTuple r hashes b := by
  have hsame : (fun i => hashOf r hashes i (a i)) = fun i => hashOf r hashes i (b i) :=
    funext fun i => hashOf_core i (h i)
  rw [hashTuple, hashTuple, hsame]

/-- No call, unless it is a re-run, has the hashes of an earlier one. -/
def CalledOnce (r : Runner I σ n) (hashes : Fin n → Option I → Word)
    (trace : List (Event I n)) : Prop :=
  ∀ newer older args held, trace = newer ++ .call args held false :: older →
    ∀ args' held' rerun, .call args' held' rerun ∈ older →
      hashTuple r hashes held ≠ hashTuple r hashes held'

/-- The calls are with the arguments that the trial held. -/
def CalledHeld (trace : List (Event I n)) : Prop :=
  ∀ args held rerun, .call args held rerun ∈ trace → args = fun i => (held i).inst

/-- The filter knows the arguments. -/
def Known (r : Runner I σ n) (hashes : Fin n → Option I → Word) (s : RunState R I σ n)
    (args : Fin n → ArgInfo I) : Prop :=
  ∃ w, hashAll r hashes args = .ok w ∧ s.Seen w

/-- No call was with the hashes of these arguments. -/
def Uncalled (r : Runner I σ n) (hashes : Fin n → Option I → Word) (s : RunState R I σ n)
    (args : Fin n → ArgInfo I) : Prop :=
  ∀ args' held rerun, .call args' held rerun ∈ s.trace →
    hashTuple r hashes args ≠ hashTuple r hashes held

/-- Every call so far is known to the filter, and none repeats an earlier one. -/
structure Noted (r : Runner I σ n) (hashes : Fin n → Option I → Word) (s : RunState R I σ n) :
    Prop where
  filter : ∃ b, s.bloom = some b ∧ b.Inv
  known : ∀ args held rerun, .call args held rerun ∈ s.trace → Known r hashes s held
  held : CalledHeld s.trace
  once : CalledOnce r hashes s.trace

/-! ## Traces -/

theorem CalledOnce.cons_other {e : Event I n} {trace : List (Event I n)}
    (h : CalledOnce r hashes trace) (he : ∀ args held, e ≠ .call args held false) :
    CalledOnce r hashes (e :: trace) := by
  intro newer older args held hsplit
  cases newer with
  | nil =>
    cases hsplit
    exact absurd rfl (he args held)
  | cons x newer =>
    obtain ⟨-, hrest⟩ := List.cons.inj hsplit
    exact h newer older args held hrest

theorem CalledOnce.cons_call {args : Args I n} {held : Fin n → ArgInfo I}
    {trace : List (Event I n)} (h : CalledOnce r hashes trace)
    (huncalled : ∀ args' held' rerun, .call args' held' rerun ∈ trace →
      hashTuple r hashes held ≠ hashTuple r hashes held') :
    CalledOnce r hashes (.call args held false :: trace) := by
  intro newer older args held hsplit
  cases newer with
  | nil =>
    cases hsplit
    exact huncalled
  | cons x newer =>
    obtain ⟨-, hrest⟩ := List.cons.inj hsplit
    exact h newer older args held hrest

theorem CalledOnce.append {new trace : List (Event I n)} (h : CalledOnce r hashes trace)
    (hnew : ∀ e ∈ new, ∀ args held, e ≠ .call args held false) :
    CalledOnce r hashes (new ++ trace) := by
  induction new with
  | nil => exact h
  | cons e new ih =>
    apply CalledOnce.cons_other
    · exact ih fun e' he' => hnew e' (List.mem_cons_of_mem _ he')
    · exact hnew e List.mem_cons_self

/-- Other callbacks add no call. -/
theorem Adds.call_mem {K : List EventKind} (h : Adds K s t) (hK : .call ∉ K) {args : Args I n}
    {held : Fin n → ArgInfo I} {rerun : Bool} (hmem : .call args held rerun ∈ t.trace) :
    .call args held rerun ∈ s.trace := by
  obtain ⟨new, htrace, hnew⟩ := h
  rw [htrace] at hmem
  obtain hmem | hmem := List.mem_append.mp hmem
  · exact absurd (hnew _ hmem) hK
  · exact hmem

theorem Known.mono {args : Fin n → ArgInfo I} (h : Known r hashes s args)
    (hseen : ∀ w, s.Seen w → t.Seen w) : Known r hashes t args := by
  obtain ⟨w, hw, hmarked⟩ := h
  exact ⟨w, hw, hseen w hmarked⟩

theorem Known.congr {a a' : Fin n → ArgInfo I} (h : Known r hashes s a)
    (hcore : ∀ i, (a' i).core = (a i).core) : Known r hashes s a' := by
  obtain ⟨w, hw, hmarked⟩ := h
  exact ⟨w, by rw [hashAll_congr (hashTuple_core hcore), hw], hmarked⟩

theorem Uncalled.congr {a a' : Fin n → ArgInfo I} (h : Uncalled r hashes s a)
    (hcore : ∀ i, (a' i).core = (a i).core) : Uncalled r hashes s a' := by
  unfold Uncalled at h ⊢
  rwa [hashTuple_core hcore]

theorem Uncalled.adds {K : List EventKind} {args : Fin n → ArgInfo I}
    (h : Uncalled r hashes s args) (hadds : Adds K s t) (hK : .call ∉ K) :
    Uncalled r hashes t args :=
  fun args' held rerun hmem => h args' held rerun (hadds.call_mem hK hmem)

/-- Whatever was called is marked. -/
theorem Noted.uncalled {args : Fin n → ArgInfo I} {w : Word} (h : Noted r hashes s)
    (hw : hashAll r hashes args = .ok w) (hnot : ¬ s.Seen w) : Uncalled r hashes s args := by
  intro args' held rerun hmem heq
  obtain ⟨w', hw', hmarked⟩ := h.known args' held rerun hmem
  rw [← hashAll_congr heq, hw] at hw'
  cases hw'
  exact hnot hmarked

theorem seen_of_bloom (h : t.bloom = s.bloom) {w : Word} (hw : s.Seen w) : t.Seen w := by
  unfold RunState.Seen at hw ⊢
  rwa [h]

/-- Steps without a call, after which at least as much is marked. -/
theorem Noted.adds {K : List EventKind} (h : Noted r hashes s)
    (hfilter : ∃ b, t.bloom = some b ∧ b.Inv) (hseen : ∀ w, s.Seen w → t.Seen w)
    (hadds : Adds K s t) (hK : .call ∉ K) : Noted r hashes t where
  filter := hfilter
  known := fun args held rerun hmem =>
    (h.known args held rerun (hadds.call_mem hK hmem)).mono hseen
  held := fun args held rerun hmem => h.held args held rerun (hadds.call_mem hK hmem)
  once := by
    obtain ⟨new, htrace, hnew⟩ := hadds
    rw [htrace]
    apply h.once.append
    rintro e he args held rfl
    exact hK (hnew _ he)

theorem Noted.quiet {K : List EventKind} (h : Noted r hashes s) (hq : Quiet K s t)
    (hK : .call ∉ K) : Noted r hashes t := by
  apply h.adds _ (fun _ => seen_of_bloom hq.bloom) hq.trace hK
  rw [hq.bloom]
  exact h.filter

/-! ## What the trial holds -/

/-- The trial holds the arguments of `b`, and the filter knows those in the list. -/
structure Holding (r : Runner I σ n) (hashes : Fin n → Option I → Word)
    (known : List (Fin n → ArgInfo I)) (b s : RunState R I σ n) : Prop where
  noted : Noted r hashes s
  known : ∀ args ∈ known, Known r hashes s args
  core : ∀ i, (s.trial.args i).core = (b.trial.args i).core

/-- The filter knows the arguments that the trial holds. -/
def Registered (r : Runner I σ n) (hashes : Fin n → Option I → Word) (s : RunState R I σ n) : Prop :=
  Noted r hashes s ∧ Known r hashes s s.trial.args

variable {known : List (Fin n → ArgInfo I)}

theorem Holding.registered (h : Holding r hashes known b s) (hb : b.trial.args ∈ known) :
    Registered r hashes s := ⟨h.noted, (h.known _ hb).congr h.core⟩

theorem Registered.holding (h : Registered r hashes s) : Holding r hashes [s.trial.args] s s where
  noted := h.1
  known := by
    intro args hargs
    rw [List.mem_singleton.mp hargs]
    exact h.2
  core := fun _ => rfl

theorem Holding.getArgs (h : Holding r hashes known b s) : s.trial.getArgs = b.trial.getArgs := by
  funext i
  have hinst := congrArg ArgInfo.inst (h.core i)
  exact hinst

/-- The trial holds arguments that were not called. -/
def Due (r : Runner I σ n) (hashes : Fin n → Option I → Word)
    (known : List (Fin n → ArgInfo I)) (b s : RunState R I σ n) : Prop :=
  Holding r hashes known b s ∧ Uncalled r hashes s b.trial.args

/-- The arguments are compared with those of a later state. -/
theorem Holding.rebase (h : Holding r hashes known b s) : Holding r hashes known s s :=
  ⟨h.noted, h.known, fun _ => rfl⟩

/-- Callbacks other than the property. -/
theorem Holding.steady {K : List EventKind} (h : Holding r hashes known b s) (hst : Steady K s t)
    (hK : .call ∉ K) : Holding r hashes known b t where
  noted := h.noted.quiet ⟨hst.bloom, hst.same, hst.trace⟩ hK
  known := fun args hargs => (h.known args hargs).mono fun _ => seen_of_bloom hst.bloom
  core := fun i => (hst.core i).trans (h.core i)

/-- An argument is changed alike in the state and in what it is compared with. -/
theorem Holding.modifyArg (h : Holding r hashes known b s) (argI : Fin n)
    {f : ArgInfo I → ArgInfo I}
    (hf : ∀ a a' : ArgInfo I, a.core = a'.core → (f a).core = (f a').core) :
    Holding r hashes known { b with trial := b.trial.modifyArg argI f }
      { s with trial := s.trial.modifyArg argI f } where
  noted := h.noted.adds h.noted.filter (fun _ hw => hw) (K := []) (.of_eq rfl) List.not_mem_nil
  known := fun args hargs => (h.known args hargs).mono fun _ hw => hw
  core := by
    intro i
    by_cases hi : i = argI
    · subst hi
      simp only [modifyArg_same]
      exact hf _ _ (h.core i)
    · simp only [modifyArg_other _ hi]
      exact h.core i

theorem Holding.withInst (h : Holding r hashes known b s) (argI : Fin n) (inst : Option I) :
    Holding r hashes known (b.withInst argI inst) (s.withInst argI inst) :=
  h.modifyArg argI fun _ _ hcore => ArgInfo.core_setInst hcore inst

theorem Holding.withPool (h : Holding r hashes known b s) (argI : Fin n) (pool : Option BitPool) :
    Holding r hashes known (b.withPool argI pool) (s.withPool argI pool) :=
  h.modifyArg argI fun _ _ hcore => ArgInfo.core_setPool hcore pool

theorem Due.steady {K : List EventKind} (h : Due r hashes known b s) (hst : Steady K s t)
    (hK : .call ∉ K) : Due r hashes known b t :=
  ⟨h.1.steady hst hK, h.2.adds hst.trace hK⟩

/-- A call with what the trial holds: a re-run, or the first with these arguments. -/
theorem Holding.called (h : Holding r hashes known b s) (hb : b.trial.args ∈ known)
    {rerun : Bool} (hfirst : rerun = false → Uncalled r hashes s b.trial.args)
    {new : List (Event I n)} (hnew : ∀ e ∈ new, ∃ res, e = .returned res)
    (hbloom : t.bloom = s.bloom) (htrial : t.trial = s.trial)
    (htrace : t.trace = new ++ .call b.trial.getArgs s.trial.args rerun :: s.trace) :
    Holding r hashes known b t := by
  have hseen : ∀ w, s.Seen w → t.Seen w := fun _ => seen_of_bloom hbloom
  have hcall : ∀ args held rerun', .call args held rerun' ∈ t.trace →
      (args = b.trial.getArgs ∧ held = s.trial.args) ∨ .call args held rerun' ∈ s.trace := by
    intro args held rerun' hmem
    rw [htrace] at hmem
    obtain hmem | hmem := List.mem_append.mp hmem
    · obtain ⟨res, heq⟩ := hnew _ hmem
      cases heq
    · obtain heq | hmem := List.mem_cons.mp hmem
      · cases heq
        exact .inl ⟨rfl, rfl⟩
      · exact .inr hmem
  refine ⟨⟨?_, ?_, ?_, ?_⟩, ?_, ?_⟩
  · rw [hbloom]
    exact h.noted.filter
  · intro args held rerun' hmem
    obtain ⟨rfl, rfl⟩ | hmem := hcall args held rerun' hmem
    · exact ((h.known _ hb).congr h.core).mono hseen
    · exact (h.noted.known args held rerun' hmem).mono hseen
  · intro args held rerun' hmem
    obtain ⟨rfl, rfl⟩ | hmem := hcall args held rerun' hmem
    · exact h.getArgs.symm
    · exact h.noted.held args held rerun' hmem
  · rw [htrace]
    apply CalledOnce.append
    · cases rerun with
      | true => exact h.noted.once.cons_other nofun
      | false =>
        apply h.noted.once.cons_call
        exact (hfirst rfl).congr h.core
    · intro e he args held heq
      obtain ⟨res, rfl⟩ := hnew e he
      cases heq
  · exact fun args hargs => (h.known args hargs).mono hseen
  · rw [htrial]
    exact h.core

/-- Before and after a program, and wherever it stopped, nothing was called twice. -/
abbrev Notes (r : Runner I σ n) (hashes : Fin n → Option I → Word) (P : RunState R I σ n → Prop)
    (m : Run R I σ n α) (Q : α → RunState R I σ n → Prop) : Prop :=
  Spec P m Q fun _ => Noted r hashes

namespace Notes
variable {K : List EventKind}

theorem of_quiet {m : Run R I σ n α} (h : Effect (Quiet K) m) (hK : .call ∉ K) :
    Notes r hashes (Noted r hashes) m fun _ => Noted r hashes :=
  h.keeps fun _ _ hs hq => hs.quiet hq hK

theorem of_steady {m : Run R I σ n α} (h : Effect (Steady K) m) (hK : .call ∉ K) :
    Notes r hashes (Holding r hashes known b) m fun _ => Holding r hashes known b :=
  Spec.mono (h.keeps fun _ _ hs hst => hs.steady hst hK) (fun _ h => h) (fun _ _ h => h)
    fun _ _ h => h.noted

theorem of_asked {m : Run R I σ n α} (h : Effect (Asked K) m) (hK : .call ∉ K) :
    Notes r hashes (Holding r hashes known b) m fun _ => Holding r hashes known b :=
  of_steady (Asked.toSteady h) hK

variable [Platform R]

/-! ## The filter -/

theorem runPlain_returned {f : σ → α × σ} {a : α} (h : runPlain f s = .ok a t) :
    ∃ u, a = (f u).1 := by
  cases h
  exact ⟨_, rfl⟩

/-- A hash that was computed is the hash of the argument. -/
theorem hashArg_returned (hby : HashesBy r hashes) {i : Fin n} {w : Word}
    (h : hashArg r i s = .ok w t) : hashOf r hashes i (s.trial.args i) = .ok w := by
  obtain ⟨_, _, hget, h⟩ := bind_eq_ok.mp h
  cases hget
  unfold hashOf
  cases hhash : (r.typeInfo i).hash with
  | some hash =>
    rw [hhash] at h
    obtain ⟨_, s₁, -, h⟩ := bind_eq_ok.mp h
    obtain ⟨u, rfl⟩ := runPlain_returned h
    rw [if_pos (by simp), hby i hash hhash]
  | none =>
    rw [hhash] at h
    dsimp only at h
    rw [if_neg (by simp)]
    cases henv : (s.trial.args i).env with
    | none =>
      rw [henv] at h
      cases h
    | some env =>
      rw [henv] at h
      dsimp only at h ⊢
      unfold attempt at h
      cases hhashed : autoshrinkHash env with
      | ok w' =>
        rw [hhashed] at h
        cases h
        rfl
      | error e =>
        rw [hhashed] at h
        cases h

theorem getArgHashBuffer_returned (hby : HashesBy r hashes) {is : List (Fin n)} :
    ∀ {s t : RunState R I σ n} {buffer : List Word}, getArgHashBuffer r is s = .ok buffer t →
      is.mapM (fun i => hashOf r hashes i (s.trial.args i)) = .ok buffer := by
  induction is with
  | nil =>
    intro s t buffer h
    cases h
    rfl
  | cons i is ih =>
    intro s t buffer h
    obtain ⟨w, s₁, hw, h⟩ := bind_eq_ok.mp h
    obtain ⟨ws, s₂, hws, h⟩ := bind_eq_ok.mp h
    have htrial : s₁.trial = s.trial :=
      ((Asked.hashArg (K := [.hash]) (by decide) r i).of_returned hw).trial
    cases h
    rw [List.mapM_cons, hashArg_returned hby hw, ← htrial, ih hws]
    rfl

theorem getArgHashBuffer (hby : HashesBy r hashes) {P : RunState R I σ n → Prop}
    (hP : ∀ s t, P s → Asked [.hash] s t → P t) (hheld : ∀ s, P s → Holding r hashes known b s) :
    Notes r hashes P (getArgHashBuffer r (List.finRange n)) fun buffer s =>
      P s ∧ hashTuple r hashes b.trial.args = .ok buffer := by
  apply Spec.also
  · apply Spec.mono ((Asked.getArgHashBuffer (by decide) r _).keeps hP)
    · exact fun _ h => h
    · exact fun _ _ h => h
    · exact fun _ s h => (hheld s h).noted
  · intro s buffer t hs hrun
    rw [← hashTuple_core (hheld s hs).core]
    exact getArgHashBuffer_returned hby hrun

/-- Arguments that are not reported as called were not called. -/
theorem callCheckCalled (hby : HashesBy r hashes) :
    Notes r hashes (Holding r hashes known b) (callCheckCalled r) fun found s =>
      Holding r hashes known b s ∧ (found = false → Due r hashes known b s) := by
  apply Spec.bind (getArgHashBuffer hby (fun _ _ hs h => hs.steady h.freeing.steady (by decide))
    fun _ h => h)
  rintro buffer s ⟨hs, hbuffer⟩
  obtain ⟨bloom, hbloom, hinv⟩ := hs.noted.filter
  obtain ⟨found, hcheck, -⟩ := check_iff hinv (hashOnepass (hashBytes buffer))
  have hrun : bloomCheck bloom (hashBytes buffer) = .ok found := hcheck
  simp only [bind_apply, get_apply, hbloom, attempt, hrun]
  refine ⟨hs, ?_⟩
  rintro rfl
  refine ⟨hs, hs.noted.uncalled (w := hashOnepass (hashBytes buffer)) ?_ ?_⟩
  · rw [hashAll, show (List.finRange n).mapM _ = _ from hbuffer]
    rfl
  · rintro ⟨bloom', hbloom', hfound⟩
    rw [hbloom] at hbloom'
    cases hbloom'
    rw [hcheck] at hfound
    cases hfound

/-- The arguments are marked, and what was marked is marked still. -/
theorem callMarkCalled (hgranted : r.filterMemory = granted) (hby : HashesBy r hashes) :
    Notes r hashes (Due r hashes known b) (callMarkCalled r)
      fun _ => Due r hashes (b.trial.args :: known) b := by
  apply Spec.bind (getArgHashBuffer hby (fun _ _ hs h => hs.steady h.freeing.steady (by decide))
    fun _ h => h.1)
  rintro buffer s ⟨⟨hs, huncalled⟩, hbuffer⟩
  obtain ⟨bloom, hbloom, hinv⟩ := hs.noted.filter
  obtain ⟨ok, bloom', hmark, hinv'⟩ := mark_any r.filterMemory hinv (hashOnepass (hashBytes buffer))
  have hrun : bloomMark r.filterMemory bloom (hashBytes buffer) = .ok (ok, bloom') := hmark
  simp only [bind_apply, get_apply, hbloom, attempt, hrun, modify_apply]
  rw [hgranted] at hmark
  have hseen : ∀ w, s.Seen w → RunState.Seen { s with bloom := some bloom' } w := by
    rintro w ⟨_, hsome, hfound⟩
    rw [hbloom] at hsome
    cases hsome
    exact ⟨bloom', rfl, check_mono hinv hmark hfound⟩
  refine ⟨⟨?_, ?_, hs.core⟩, huncalled⟩
  · exact hs.noted.adds (K := []) ⟨bloom', rfl, hinv'⟩ hseen (.of_eq rfl) List.not_mem_nil
  · intro args hargs
    obtain rfl | hargs := List.mem_cons.mp hargs
    · refine ⟨hashOnepass (hashBytes buffer), ?_, bloom', rfl, check_marked hinv hmark⟩
      rw [hashAll, show (List.finRange n).mapM _ = _ from hbuffer]
      rfl
    · exact (hs.known args hargs).mono hseen

theorem skipCalled (hgranted : r.filterMemory = granted) (hby : HashesBy r hashes) :
    Notes r hashes (Holding r hashes known b) (skipCalled r) fun found s =>
      Holding r hashes known b s ∧
        (found = false → Due r hashes (b.trial.args :: known) b s) := by
  intro s hs
  obtain ⟨bloom, hbloom, -⟩ := hs.noted.filter
  unfold Theft.skipCalled
  rw [bind_apply, get_apply]
  dsimp only
  rw [if_pos (by rw [hbloom]; rfl)]
  refine Spec.bind (callCheckCalled hby) (fun found => ?_) s hs
  rintro t ⟨ht, hdue⟩
  cases found with
  | true => exact ⟨ht, nofun⟩
  | false =>
    refine Spec.bind (callMarkCalled hgranted hby) (fun _ => ?_) t (hdue rfl)
    apply Spec.pure
    intro t' ht'
    refine ⟨⟨ht'.1.noted, ?_, ht'.1.core⟩, fun _ => ht'⟩
    exact fun args hargs => ht'.1.known args (List.mem_cons_of_mem _ hargs)

/-! ## The property -/

/-- A call with the arguments that the trial holds. -/
theorem call {P : RunState R I σ n → Prop} {rerun : Bool} (hb : b.trial.args ∈ known)
    (hheld : ∀ s, P s → Holding r hashes known b s)
    (hfirst : ∀ s, P s → rerun = false → Uncalled r hashes s b.trial.args) :
    Notes r hashes P (call r b.trial.getArgs rerun) fun _ => Holding r hashes known b := by
  intro s hs
  obtain ⟨res, u, p, -, hrun⟩ | ⟨e, p, -, hrun⟩ :=
    ask_cases (.call b.trial.getArgs s.trial.args rerun) .returned (r.propFun b.trial.getArgs) s
  · rw [show Theft.call r b.trial.getArgs rerun s = _ from hrun]
    have hnew : ∀ e ∈ [(Event.returned res : Event I n)], ∃ res, e = .returned res := by
      intro e he
      exact ⟨res, List.mem_singleton.mp he⟩
    exact (hheld s hs).called hb (hfirst s hs) hnew rfl rfl rfl
  · rw [show Theft.call r b.trial.getArgs rerun s = _ from hrun]
    show Noted r hashes _
    have hnew : ∀ e ∈ ([] : List (Event I n)), ∃ res, e = .returned res := nofun
    have hcalled : Holding r hashes known b
        { s with prng := p, trace := .call b.trial.getArgs s.trial.args rerun :: s.trace } :=
      (hheld s hs).called hb (hfirst s hs) hnew rfl rfl rfl
    exact hcalled.noted

/-- The first call with due arguments. -/
theorem callFirst (hb : b.trial.args ∈ known) :
    Notes r hashes (Due r hashes known b) (Theft.call r b.trial.getArgs false)
      fun _ => Holding r hashes known b := call hb (fun _ h => h.1) fun _ h _ => h.2

theorem callAgain (hb : b.trial.args ∈ known) :
    Notes r hashes (Holding r hashes known b) (Theft.call r b.trial.getArgs true)
      fun _ => Holding r hashes known b := call hb (fun _ h => h) nofun

/-- After the first call with a candidate there are re-runs only. -/
theorem shrinkTrials (hb : b.trial.args ∈ known) (argI : Fin n) (tactic fuel : Nat) :
    Notes r hashes (Holding r hashes known b) (shrinkTrials r argI tactic fuel true)
        (fun _ => Holding r hashes known b) ∧
      Notes r hashes (Due r hashes known b) (Theft.shrinkTrials r argI tactic fuel false)
        fun _ => Holding r hashes known b := by
  induction fuel with
  | zero =>
    constructor
    · exact Spec.throw fun s hs => hs.noted
    · exact Spec.throw fun s hs => hs.1.noted
  | succ fuel ih =>
    have rest (args : Args I n) (repeated : Bool) (res : TrialRes) :
        Notes r hashes (Holding r hashes known b)
          (afterShrinkTrial r argI tactic args (Theft.shrinkTrials r argI tactic fuel true) repeated
            res)
          fun _ => Holding r hashes known b := by
      apply Spec.bind (of_steady (Steady.countShrink (K := []) r argI res repeated)
        List.not_mem_nil)
      intro _
      apply Spec.bind (of_asked (Asked.shrinkTrialPostHook (K := [.shrinkTrialPost]) (by decide) r
        argI args tactic res) (by decide))
      intro answer
      cases answer with
      | repeat_ => exact ih.1
      | repeatOnce =>
        cases repeated with
        | true => exact Spec.pure fun _ h => h
        | false => exact ih.1
      | cont => exact Spec.pure fun _ h => h
      | error => exact Spec.pure fun _ h => h
    constructor
    · intro s hs
      rw [shrinkTrials_succ, hs.getArgs]
      exact Spec.bind (callAgain hb) (fun res => rest b.trial.getArgs true res) s hs
    · intro s hs
      rw [shrinkTrials_succ, hs.1.getArgs]
      exact Spec.bind (callFirst hb) (fun res => rest b.trial.getArgs false res) s hs

/-! ## Attempts -/

theorem freeInst (argI : Fin n) (inst : Option I) :
    Notes r hashes (Holding r hashes known b) (freeInst r argI inst)
      fun _ => Holding r hashes known b :=
  of_asked (Asked.freeInst (K := [.free]) (by decide) r argI inst) (by decide)

omit [Platform R] in
theorem setInst (argI : Fin n) (inst : Option I) :
    Notes r hashes (Holding r hashes known b) (setInst argI inst)
      fun _ => Holding r hashes known (b.withInst argI inst) :=
  Spec.modify fun _ hs => hs.withInst argI inst

omit [Platform R] in
/-- Freeing a pool. -/
theorem freeing {argI : Fin n} {m : Run R I σ n Unit} (h : Effect (Freeing []) m) :
    Notes r hashes (Holding r hashes known b) (ifAutoshrink r argI m)
      fun _ => Holding r hashes known b :=
  of_steady (Steady.ifAutoshrink r argI (Freeing.toSteady h)) List.not_mem_nil

omit [Platform R] in
theorem setPool (argI : Fin n) (pool : Option BitPool) :
    Notes r hashes (Holding r hashes known b) (ifAutoshrink r argI (setPool argI pool))
      fun _ => Holding r hashes known (b.withPoolIf r argI pool) := by
  unfold ifAutoshrink RunState.withPoolIf
  by_cases henable : r.autoshrinks argI = true
  · rw [if_pos henable, if_pos henable]
    exact Spec.modify fun _ hs => hs.withPool argI pool
  · rw [if_neg henable, if_neg henable]
    exact Spec.pure fun _ hs => hs

omit [Platform R] in
theorem revertPool (argI : Fin n) (pool candidatePool : Option BitPool) :
    Notes r hashes (Holding r hashes known b) (revertPool r argI pool candidatePool)
      fun _ => Holding r hashes known (b.withPoolIf r argI pool) := by
  have hset : Notes r hashes (Holding r hashes known b) _ _ := setPool argI pool
  unfold Theft.revertPool ifAutoshrink
  unfold ifAutoshrink at hset
  by_cases henable : r.autoshrinks argI = true
  · rw [if_pos henable] at hset ⊢
    apply Spec.bind hset
    intro _
    exact of_steady (Freeing.toSteady (Freeing.freePoolPtr (K := []) candidatePool))
      List.not_mem_nil
  · rw [if_neg henable] at hset ⊢
    exact hset

/-- What came of a candidate for the arguments of `b`, which is in place in `c`. -/
def Judged (r : Runner I σ n) (hashes : Fin n → Option I → Word)
    (known : List (Fin n → ArgInfo I)) (b c : RunState R I σ n) (out : Option AttemptRes)
    (s : RunState R I σ n) : Prop :=
  match out with
  | none => Holding r hashes known b s
  | some .ok => Holding r hashes (c.trial.args :: known) c s
  | some res => res = .error ∧ Noted r hashes s

theorem judgeCandidate {argI : Fin n} {candidate : Option I} {candidatePool : Option BitPool}
    (hc : c = (b.withInst argI candidate).withPoolIf r argI candidatePool) (res : TrialRes) :
    Notes r hashes (Holding r hashes (c.trial.args :: known) c)
      (judgeCandidate r argI (b.trial.args argI).inst candidate
        ((b.trial.args argI).env.bind AutoshrinkEnv.bitPool) candidatePool res)
      (Judged r hashes known b c) := by
  have forget {b s : RunState R I σ n} (h : Holding r hashes (c.trial.args :: known) b s) :
      Holding r hashes known b s :=
    ⟨h.noted, fun args hargs => h.known args (List.mem_cons_of_mem _ hargs), h.core⟩
  have hback : (c.withInst argI (b.trial.args argI).inst).withPoolIf r argI
      ((b.trial.args argI).env.bind AutoshrinkEnv.bitPool) = b := by
    rw [hc, withInst_withPoolIf, exchange_back]
  have back : Notes r hashes (Holding r hashes (c.trial.args :: known) c) (do
      Theft.setInst argI (b.trial.args argI).inst
      Theft.revertPool r argI ((b.trial.args argI).env.bind AutoshrinkEnv.bitPool) candidatePool
      Theft.freeInst r argI candidate
      return (none : Option AttemptRes)) (Judged r hashes known b c) := by
    apply Spec.bind (setInst argI _)
    intro _
    apply Spec.bind (revertPool argI _ candidatePool)
    intro _
    rw [hback]
    apply Spec.bind (freeInst argI candidate)
    intro _
    exact Spec.pure fun s hs => forget hs
  have lost : Notes r hashes (Holding r hashes (c.trial.args :: known) c) (do
      Theft.freeInst r argI (b.trial.args argI).inst
      ifAutoshrink r argI (freePoolPtr ((b.trial.args argI).env.bind AutoshrinkEnv.bitPool))
      return some .error : Run R I σ n (Option AttemptRes)) (Judged r hashes known b c) := by
    apply Spec.bind (freeInst argI _)
    intro _
    apply Spec.bind (freeing (Freeing.freePoolPtr _))
    intro _
    exact Spec.pure fun s hs => ⟨rfl, hs.noted⟩
  apply Spec.bind (of_steady (Steady.autoshrinkUpdateModel (K := []) r argI res 8) List.not_mem_nil)
  intro _
  cases res with
  | pass => exact back
  | skip => exact back
  | fail =>
    apply Spec.bind (freeing (Freeing.freePoolPtr _))
    intro _
    apply Spec.bind (freeInst argI _)
    intro _
    exact Spec.pure fun s hs => hs
  | dup => exact lost
  | error => exact lost

/-- A candidate is called only if it was not called before. -/
theorem tryCandidate (hgranted : r.filterMemory = granted) (hby : HashesBy r hashes)
    {argI : Fin n} {candidate : Option I} {candidatePool : Option BitPool}
    (hc : c = (b.withInst argI candidate).withPoolIf r argI candidatePool) (fuel tactic : Nat) :
    Notes r hashes (Holding r hashes known b)
      (tryCandidate fuel r argI tactic (b.trial.args argI).inst candidate
        ((b.trial.args argI).env.bind AutoshrinkEnv.bitPool) candidatePool)
      (Judged r hashes known b c) := by
  apply Spec.bind (setInst argI candidate)
  intro _
  apply Spec.bind (setPool argI candidatePool)
  intro _
  rw [← hc]
  apply Spec.bind (skipCalled hgranted hby)
  intro found
  cases found with
  | true =>
    intro s hs
    have hfree : Notes r hashes (Holding r hashes known c) _ _ := freeInst argI candidate
    refine Spec.bind hfree (fun _ => ?_) s hs.1
    apply Spec.bind (revertPool argI _ candidatePool)
    intro _
    apply Spec.bind (setInst argI _)
    intro _
    rw [hc, exchange_back]
    exact Spec.pure fun s hs => hs
  | false =>
    intro s hs
    refine Spec.bind (shrinkTrials (b := c) List.mem_cons_self argI tactic fuel).2 (fun out => ?_)
      s (hs.2 rfl)
    cases out with
    | some res => exact judgeCandidate hc res
    | none =>
      apply Spec.bind (freeInst argI _)
      intro _
      apply Spec.bind (freeing (Freeing.freePoolIf _))
      intro _
      exact Spec.pure fun s hs => ⟨rfl, hs.noted⟩

/-- Every attempt but one that failed leaves arguments that the filter knows. -/
theorem attemptTactic (hgranted : r.filterMemory = granted) (hby : HashesBy r hashes)
    (argI : Fin n) (fuel tactic : Nat) :
    Notes r hashes (Registered r hashes) (attemptTactic fuel r argI tactic : Run R I σ n _)
      fun out s => Noted r hashes s ∧ (out ≠ some .error → Registered r hashes s) := by
  intro s hs
  have hheld := hs.holding
  have hb : s.trial.args ∈ [s.trial.args] := List.mem_singleton.mpr rfl
  unfold Theft.attemptTactic
  rw [bind_apply, get_apply]
  refine Spec.bind (of_asked (Asked.shrinkPreHook (K := [.shrinkPre]) (by decide) r argI
    (s.trial.args argI).inst tactic) (by decide)) (fun answer => ?_) s hheld
  cases answer with
  | halt => exact Spec.pure fun t ht => ⟨ht.noted, fun _ => ht.registered hb⟩
  | error => exact Spec.pure fun t ht => ⟨ht.noted, fun h => absurd rfl h⟩
  | cont =>
    apply Spec.bind (of_steady (Steady.candidate (K := [.alloc, .shrink]) (by simp) fuel r argI
      _ tactic) (by decide))
    intro a t ht
    obtain ⟨sres, candidate, candidatePool⟩ := a
    have hinst : (s.trial.args argI).inst = (t.trial.args argI).inst :=
      (congrArg ArgInfo.inst (ht.core argI)).symm
    have count : Notes r hashes (Holding r hashes [s.trial.args] t)
        (modifyTrial fun t => { t with shrinkCount := t.shrinkCount + 1 })
        fun _ => Holding r hashes [s.trial.args] t :=
      of_steady (Steady.modifyTrial (K := []) (fun _ => rfl) (fun _ => rfl) fun _ => rfl)
        List.not_mem_nil
    dsimp only
    rw [hinst, bind_apply, Keeps.currentPool_run]
    dsimp only
    refine Spec.bind count (fun _ => ?_) t ht.rebase
    apply Spec.bind (of_asked (Asked.shrinkPostHook (K := [.shrinkPost]) (by decide) r argI
      _ tactic sres) (by decide))
    intro answer
    cases answer with
    | error =>
      apply Spec.bind (freeInst argI candidate)
      intro _
      apply Spec.bind (of_steady (Freeing.toSteady (Freeing.freePoolIf (K := []) candidatePool))
        List.not_mem_nil)
      intro _
      exact Spec.pure fun t ht => ⟨ht.noted, fun h => absurd rfl h⟩
    | cont =>
      have stays {u : RunState R I σ n} (hu : Holding r hashes [s.trial.args] t u) :
          Noted r hashes u ∧ Registered r hashes u := by
        have hknown := (hu.known _ hb).congr fun i => (hu.core i).trans (ht.core i)
        exact ⟨hu.noted, hu.noted, hknown⟩
      cases sres with
      | ok =>
        apply Spec.mono (tryCandidate hgranted hby rfl fuel tactic) (fun _ h => h) _ fun _ _ h => h
        intro out u hjudged
        match out, hjudged with
        | none, hu => exact ⟨hu.noted, fun _ => (stays hu).2⟩
        | some .ok, hu => exact ⟨hu.noted, fun _ => hu.registered List.mem_cons_self⟩
        | some .error, hu => exact ⟨hu.2, fun h => absurd rfl h⟩
      | deadEnd => exact Spec.pure fun u hu => ⟨hu.noted, fun _ => (stays hu).2⟩
      | noMoreTactics => exact Spec.pure fun u hu => ⟨hu.noted, fun _ => (stays hu).2⟩
      | error => exact Spec.pure fun u hu => ⟨hu.noted, fun h => absurd rfl h⟩

theorem attemptTactics (hgranted : r.filterMemory = granted) (hby : HashesBy r hashes)
    (argI : Fin n) (fuel left : Nat) : ∀ tactic,
    Notes r hashes (Registered r hashes) (attemptTactics fuel r argI left tactic : Run R I σ n _)
      fun res s => Noted r hashes s ∧ (res ≠ .error → Registered r hashes s) := by
  induction left with
  | zero =>
    intro tactic
    exact Spec.pure fun s hs => ⟨hs.1, fun _ => hs⟩
  | succ left ih =>
    intro tactic
    apply Spec.bind (attemptTactic hgranted hby argI fuel tactic)
    intro out
    cases out with
    | none =>
      exact Spec.mono (ih (tactic + 1)) (fun _ h => h.2 (by simp)) (fun _ _ h => h) fun _ _ h => h
    | some res =>
      apply Spec.pure
      rintro s ⟨hs, hregistered⟩
      refine ⟨hs, fun hres => hregistered ?_⟩
      rintro ⟨⟩
      exact hres rfl

theorem shrinkFrom (hgranted : r.filterMemory = granted) (hby : HashesBy r hashes)
    (inner fuel : Nat) : ∀ argI progress,
    Notes r hashes (Registered r hashes) (shrinkFrom inner r fuel argI progress : Run R I σ n _)
      fun shrunk s => Noted r hashes s ∧ (shrunk = true → Registered r hashes s) := by
  induction fuel with
  | zero =>
    intro argI progress
    exact Spec.throw fun s hs => hs.1
  | succ fuel ih =>
    have again {P : RunState R I σ n → Prop} (hP : ∀ s, P s → Registered r hashes s) (argI progress) :
        Notes r hashes P (Theft.shrinkFrom inner r fuel argI progress : Run R I σ n _)
          fun shrunk s => Noted r hashes s ∧ (shrunk = true → Registered r hashes s) :=
      Spec.mono (ih argI progress) hP (fun _ _ h => h) fun _ _ h => h
    intro argI progress
    unfold Theft.shrinkFrom
    split
    · split
      · apply Spec.bind (attemptTactics hgranted hby _ inner maxTactics 0)
        intro res
        cases res with
        | ok => exact again (fun _ h => h.2 (by simp)) _ _
        | halt => exact Spec.pure fun s hs => ⟨hs.1, fun _ => hs.2 (by simp)⟩
        | deadEnd => exact again (fun _ h => h.2 (by simp)) _ _
        | error => exact Spec.pure fun s hs => ⟨hs.1, by simp⟩
      · exact ih _ _
    · split
      · exact ih _ _
      · exact Spec.pure fun s hs => ⟨hs.1, fun _ => hs⟩

theorem shrink (hgranted : r.filterMemory = granted) (hby : HashesBy r hashes) (fuel : Nat) :
    Notes r hashes (Registered r hashes) (shrink fuel r : Run R I σ n _)
      fun shrunk s => Noted r hashes s ∧ (shrunk = true → Registered r hashes s) := by
  unfold Theft.shrink require
  split
  · exact shrinkFrom hgranted hby fuel fuel 0 false
  · exact Spec.throw fun s hs => hs.1

/-! ## Trials -/

/-- Whatever a hook asks to repeat is called with the arguments of the trial. -/
theorem repeatFailure {info : TrialPostInfo I n} (hb : b.trial.args ∈ known)
    (hargs : info.args = b.trial.getArgs) (fuel : Nat) (res : HookTrialPostRes) :
    Notes r hashes (Holding r hashes known b) (repeatFailure r info fuel res : Run R I σ n _)
      fun _ => Holding r hashes known b := by
  apply repeatFailure_induct
    (P := fun x => Notes r hashes (Holding r hashes known b) x fun _ => Holding r hashes known b)
  · exact fun _ => Spec.pure fun _ h => h
  · exact Spec.throw fun _ h => h.noted
  · intro k _ ih
    rw [hargs]
    exact Spec.bind (callAgain hb) ih
  · intro k _ ih
    exact Spec.bind (of_asked (Asked.trialPostHook (K := [.trialPost]) (by decide) r _)
      (by decide)) ih

theorem reportOnFailure {info : TrialPostInfo I n} (hb : b.trial.args ∈ known)
    (hargs : info.args = b.trial.getArgs) (fuel : Nat) :
    Notes r hashes (Holding r hashes known b) (reportOnFailure fuel r info : Run R I σ n _)
      fun _ => Holding r hashes known b := by
  intro s hs
  unfold Theft.reportOnFailure
  rw [bind_apply, get_apply]
  refine Spec.bind (of_asked (Asked.counterexampleHook (K := [.print, .counterexample])
    (fun _ h => h) r _) (by decide)) (fun answer => ?_) s hs
  cases answer with
  | error => exact Spec.pure fun _ h => h
  | cont =>
    apply Spec.bind (of_asked (Asked.trialPostHook (K := [.trialPost]) (by decide) r info)
      (by decide))
    intro res
    exact repeatFailure hb hargs fuel res

theorem trialPostHook (info : TrialPostInfo I n) :
    Notes r hashes (Noted r hashes) (trialPostHook r info : Run R I σ n _)
      fun _ => Noted r hashes :=
  of_quiet (Asked.toQuiet (Asked.trialPostHook (K := [.trialPost]) (by decide) r info)) (by decide)

omit [Platform R] in
/-- A change outside of filter and trace. -/
theorem change {f : RunState R I σ n → RunState R I σ n} (hbloom : ∀ s, (f s).bloom = s.bloom)
    (htrace : ∀ s, (f s).trace = s.trace) :
    Notes r hashes (Noted r hashes) (modify f) fun _ => Noted r hashes := by
  apply Spec.modify
  intro s hs
  apply hs.adds (K := []) _ (fun _ => seen_of_bloom (hbloom s)) (.of_eq (htrace s)) List.not_mem_nil
  rw [hbloom]
  exact hs.filter

omit [Platform R] in
theorem modifyCounters (f : RunReport → RunReport) :
    Notes r hashes (Noted r hashes) (modifyCounters f : Run R I σ n Unit)
      fun _ => Noted r hashes := change (fun _ => rfl) fun _ => rfl

omit [Platform R] in
theorem setTrial (trial : Nat) (seed : Word) :
    Notes r hashes (Noted r hashes)
      (modifyTrial fun _ => .start trial seed : Run R I σ n Unit) fun _ => Noted r hashes :=
    change (fun _ => rfl) fun _ => rfl

theorem setSeed (seed : Word) :
    Notes r hashes (Noted r hashes)
      (modify fun s => { s with prng := s.prng.setSeed seed } : Run R I σ n PUnit)
      fun _ => Noted r hashes := change (fun _ => rfl) fun _ => rfl

/-- A hook after the trial, and the result of its steps. -/
theorem conclude {β : Type} (info : TrialPostInfo I n) (f : HookTrialPostRes → β) :
    Notes r hashes (Noted r hashes) (do
      let tpres ← Theft.trialPostHook r info
      return f tpres : Run R I σ n β) fun _ => Noted r hashes := by
  apply Spec.bind (trialPostHook info)
  intro tpres
  exact Spec.pure fun _ h => h

theorem judgeTrial (hgranted : r.filterMemory = granted) (hby : HashesBy r hashes) (fuel : Nat)
    (info : TrialPostInfo I n) :
    Notes r hashes (Registered r hashes) (judgeTrial fuel r info : Run R I σ n _)
      fun _ => Noted r hashes := by
  have noted {m : Run R I σ n (Bool × HookTrialPostRes)}
      (h : Notes r hashes (Noted r hashes) m fun _ => Noted r hashes) :
      Notes r hashes (Registered r hashes) m fun _ => Noted r hashes :=
    Spec.mono h (fun _ hs => hs.1) (fun _ _ h => h) fun _ _ h => h
  unfold Theft.judgeTrial
  cases info.result with
  | pass =>
    apply noted
    apply Spec.bind (modifyCounters _)
    intro _
    exact conclude info _
  | skip =>
    apply noted
    apply Spec.bind (modifyCounters _)
    intro _
    exact conclude info _
  | dup => exact noted (conclude info _)
  | error => exact noted (conclude info _)
  | fail =>
    apply Spec.bind (shrink hgranted hby fuel)
    rintro shrunk s ⟨hs, hregistered⟩
    cases shrunk with
    | false => exact conclude _ _ s hs
    | true =>
      have hheld := (hregistered rfl).holding
      have count : Notes r hashes (Holding r hashes [s.trial.args] s)
          (Theft.modifyCounters fun c => { c with fail := c.fail + 1 })
          fun _ => Holding r hashes [s.trial.args] s := by
        apply Spec.modify
        intro t ht
        refine ⟨?_, fun args hargs => (ht.known args hargs).mono fun _ h => h, ht.core⟩
        exact ht.noted.adds (K := []) ht.noted.filter (fun _ hw => hw) (.of_eq rfl)
          List.not_mem_nil
      refine Spec.bind count (fun _ => ?_) s hheld
      intro t ht
      rw [bind_apply, get_apply]
      dsimp only
      refine Spec.bind (reportOnFailure (List.mem_singleton.mpr rfl) ?_ fuel) (fun tpres => ?_) t ht
      · exact ht.getArgs
      · exact Spec.pure fun _ h => h.noted

theorem markTrial (hgranted : r.filterMemory = granted) (hby : HashesBy r hashes) :
    Notes r hashes (Due r hashes known b) (markTrial r : Run R I σ n Unit)
      fun _ => Due r hashes (b.trial.args :: known) b := by
  intro s hs
  obtain ⟨bloom, hbloom, -⟩ := hs.1.noted.filter
  unfold Theft.markTrial
  rw [bind_apply, get_apply]
  dsimp only
  rw [if_pos (by rw [hbloom]; rfl)]
  exact callMarkCalled hgranted hby s hs

theorem trialRun (hgranted : r.filterMemory = granted) (hby : HashesBy r hashes) (fuel : Nat) :
    Notes r hashes (Due r hashes known b) (trialRun fuel r : Run R I σ n _)
      fun _ => Noted r hashes := by
  unfold Theft.trialRun require
  split
  · refine Spec.bind (Q := fun _ => Due r hashes known b) (Spec.pure fun _ h => h) fun _ => ?_
    apply Spec.bind (markTrial hgranted hby)
    intro _ s hs
    rw [bind_apply, get_apply]
    dsimp only
    rw [hs.1.getArgs]
    refine Spec.bind (callFirst List.mem_cons_self) (fun tres => ?_) s hs
    apply Spec.mono (judgeTrial hgranted hby fuel _) _ (fun _ _ h => h) fun _ _ h => h
    exact fun t ht => ht.registered List.mem_cons_self
  · exact Spec.bind (Spec.throw fun s hs => hs.1.noted) (Q := fun _ _ => False) fun _ _ h => h.elim

/-- Arguments that were generated and not called before. -/
theorem genAllArgs (hby : HashesBy r hashes) (is : List (Fin n)) :
    Notes r hashes (Noted r hashes) (genAllArgs r is : Run R I σ n _) fun res s =>
      Noted r hashes s ∧ (res = .ok → Due r hashes [] s s) := by
  induction is with
  | nil =>
    intro s hs
    obtain ⟨bloom, hbloom, -⟩ := hs.filter
    have hheld : Holding r hashes [] s s := ⟨hs, nofun, fun _ => rfl⟩
    unfold Theft.genAllArgs
    rw [bind_apply, get_apply]
    dsimp only
    rw [if_pos (by rw [hbloom]; rfl)]
    refine Spec.bind (callCheckCalled hby) (fun found => ?_) s hheld
    rintro t ⟨ht, hdue⟩
    cases found with
    | true => exact ⟨ht.noted, nofun⟩
    | false =>
      refine ⟨ht.noted, fun _ => ⟨ht.rebase, ?_⟩⟩
      exact (hdue rfl).2.congr ht.core
  | cons i is ih =>
    apply Spec.bind (of_quiet (Quiet.genArg (K := [.alloc]) (by decide) r i) (by decide))
    intro a
    obtain ⟨ares, inst⟩ := a
    cases ares with
    | skip => exact Spec.pure fun s hs => ⟨hs, nofun⟩
    | error => exact Spec.pure fun s hs => ⟨hs, nofun⟩
    | ok =>
      apply Spec.bind (of_quiet (Quiet.setInst (K := []) i inst) List.not_mem_nil)
      intro _
      exact ih

theorem runGenerated (hgranted : r.filterMemory = granted) (hby : HashesBy r hashes)
    (fuel trial : Nat) (seed : Word) (gres : AllGenRes) :
    Notes r hashes (fun s => Noted r hashes s ∧ (gres = .ok → Due r hashes [] s s))
      (runGenerated fuel r trial seed gres : Run R I σ n _) fun _ => Noted r hashes := by
  rintro s ⟨hs, hdue⟩
  unfold Theft.runGenerated
  rw [bind_apply, get_apply]
  dsimp only
  cases gres with
  | skip =>
    refine Spec.bind (modifyCounters _) (fun _ => ?_) s hs
    exact conclude _ _
  | dup =>
    refine Spec.bind (modifyCounters _) (fun _ => ?_) s hs
    exact conclude _ _
  | error => exact conclude _ _ s hs
  | ok =>
    have pre : Notes r hashes (Due r hashes [] s) (trialPreHook r trial seed)
        fun _ => Due r hashes [] s := by
      have hkeeps := (Asked.trialPreHook (K := [.trialPre]) (by decide) r trial seed).keeps
        fun t u (ht : Due r hashes [] s t) h => ht.steady h.freeing.steady (by decide)
      exact Spec.mono hkeeps (fun _ h => h) (fun _ _ h => h) fun _ _ h => h.1.noted
    refine Spec.bind pre (fun answer => ?_) s (hdue rfl)
    cases answer with
    | halt => exact Spec.pure fun t ht => ht.1.noted
    | error => exact Spec.pure fun t ht => ht.1.noted
    | cont =>
      apply Spec.bind (trialRun hgranted hby fuel)
      intro res
      exact Spec.pure fun _ h => h

/-! ## Runs -/

theorem stepFromHook (hgranted : r.filterMemory = granted) (hby : HashesBy r hashes)
    (fuel trial : Nat) (seed : Word) :
    Notes r hashes (Noted r hashes) (stepFromHook fuel r trial seed : Run R I σ n _)
      fun _ => Noted r hashes := by
  apply Spec.bind (of_quiet (Asked.toQuiet (Asked.genArgsPreHook (K := [.genArgsPre]) (by decide) r))
    (by decide))
  intro answer
  cases answer with
  | halt => exact Spec.pure fun _ h => h
  | error => exact Spec.pure fun _ h => h
  | cont =>
    apply Spec.bind (setSeed _)
    intro _
    apply Spec.bind (genAllArgs hby _)
    intro gres
    apply Spec.bind (runGenerated hgranted hby fuel trial _ gres)
    intro res
    apply Spec.bind (of_quiet (Asked.toQuiet (Asked.nextSeed (K := []) res _)) List.not_mem_nil)
    intro seed'
    apply Spec.bind (of_quiet (Freeing.toQuiet (Freeing.freeArgs (K := [.free]) (by decide) r _))
      (by decide))
    intro _
    exact Spec.pure fun _ h => h

theorem runStep (hgranted : r.filterMemory = granted) (hby : HashesBy r hashes)
    (fuel trial : Nat) (seed : Word) :
    Notes r hashes (Noted r hashes) (runStep fuel r trial seed : Run R I σ n _)
      fun _ => Noted r hashes := by
  apply Spec.bind (setTrial _ _)
  intro _
  apply Spec.bind (of_quiet (Quiet.initArgInfo (K := []) r _) List.not_mem_nil)
  intro equipped
  cases equipped with
  | false => exact Spec.pure fun _ h => h
  | true => exact stepFromHook hgranted hby fuel trial _

theorem runLoop (hgranted : r.filterMemory = granted) (hby : HashesBy r hashes) (fuel left : Nat) :
    ∀ trial seed, Notes r hashes (Noted r hashes) (runLoop fuel r left trial seed : Run R I σ n _)
      fun _ => Noted r hashes := by
  induction left with
  | zero =>
    intro trial seed
    exact Spec.pure fun _ h => h
  | succ left ih =>
    intro trial seed
    apply Spec.bind (runStep hgranted hby fuel trial seed)
    rintro ⟨res, seed'⟩
    apply Spec.bind (setTrial 0 0)
    intro _
    cases res with
    | ok => exact ih _ _
    | halt => exact Spec.pure fun _ h => h
    | genError => exact Spec.pure fun _ h => h
    | trialError => exact Spec.pure fun _ h => h

theorem runTrials (hgranted : r.filterMemory = granted) (hby : HashesBy r hashes) (fuel : Nat) :
    Notes r hashes (Noted r hashes) (runTrials fuel r : Run R I σ n _)
      fun _ => Noted r hashes := by
  apply Spec.bind (of_quiet (Asked.toQuiet (Asked.runPreHook (K := [.runPre]) (by decide) r))
    (by decide))
  intro answer
  cases answer with
  | error => exact Spec.pure fun _ h => h
  | cont =>
    apply Spec.bind (runLoop hgranted hby fuel _ _ _)
    intro more
    split
    · apply Spec.bind (of_quiet (Asked.toQuiet (Asked.runPostHook (K := [.runPost]) (by decide) r))
        (by decide))
      intro answer
      cases answer with
      | error => exact Spec.pure fun _ h => h
      | cont =>
        apply Spec.bind (Spec.get fun _ h => h)
        intro s
        exact Spec.pure fun _ h => h
    · exact Spec.pure fun _ h => h

end Notes

/-- **No arguments are called twice**, unless a hook asks for it. -/
theorem calls_distinct [Platform R] {memory : Memory} {cfg : Config I σ n} {user : σ}
    {s₀ : RunState R I σ n} (hinit : runInit memory cfg user = some (r, s₀))
    (hhashable : allHashable cfg.typeInfo = true) (htable : memory.table = true)
    (hgranted : memory.filter = granted) (hby : HashesBy r hashes) (fuel : Nat) :
    CalledHeld (final (runTrials fuel r) s₀).trace ∧
      CalledOnce r hashes (final (runTrials fuel r) s₀).trace := by
  have hstart := runInit_started hinit
  have hnoted : Noted r hashes s₀ := by
    refine ⟨⟨bloomInit none, ?_, bloomInit_inv⟩, ?_, ?_, ?_⟩
    · rw [hstart.bloom, hhashable, htable]
      rfl
    · rw [hstart.trace]
      exact fun _ _ _ h => absurd h List.not_mem_nil
    · rw [hstart.trace]
      exact fun _ _ _ h => absurd h List.not_mem_nil
    · rw [hstart.trace]
      intro newer older args held h
      simp at h
  have hrun := Notes.runTrials (hstart.filterMemory.trans hgranted) hby fuel s₀ hnoted
  unfold final
  cases hres : runTrials fuel r s₀ with
  | ok res t =>
    rw [hres] at hrun
    exact ⟨hrun.held, hrun.once⟩
  | error e t =>
    rw [hres] at hrun
    exact ⟨hrun.held, hrun.once⟩

end

/-! ## A generator of two values -/

/-- The instances are 0 and 1 by turns. -/
def twoValues : Config Nat Nat 1 where
  name := none
  prop := some fun _ u => .ret (.pass, u)
  typeInfo := fun _ =>
    { alloc := fun u => .ret (.ok, some (u % 2), u + 1)
      free := none
      hash := some fun inst u => (BitVec.ofNat 64 (inst.getD 0), u)
      print := none
      shrink := none
      autoshrinkConfig := ⟨false, 0, ⟨false, false, false⟩, 0⟩ }
  trials := 4
  seed := 1
  alwaysSeeds := []
  hooks := ⟨none, none, none, none, none, none, none, none, none⟩

/-- Two of the four trials are not run. -/
theorem calls_distinct_two : ∃ r s₀ t, runInit ⟨true, granted, granted⟩ twoValues 0 = some (r, s₀) ∧
    runTrials 1 r (s₀ : RunState Unit Nat Nat 1) = .ok .pass t ∧ t.counters.dup = 2 ∧
    CalledOnce r (fun _ inst => BitVec.ofNat 64 (inst.getD 0)) t.trace := by
  have hrun : (runInit (R := Unit) ⟨true, granted, granted⟩ twoValues 0).any (fun a =>
      passes (fun res t => decide (res = .pass ∧ t.counters.dup = 2))
        (runTrials 1 a.1 a.2)) = true := by decide +kernel
  obtain ⟨⟨r, s₀⟩, hinit, hpass⟩ := (Option.any_eq_true _ _).mp hrun
  obtain ⟨res, t, hstep, hpass⟩ := of_passes hpass
  obtain ⟨rfl, hdup⟩ := of_decide_eq_true hpass
  have hby : HashesBy r fun _ inst => BitVec.ofNat 64 (inst.getD 0) := by
    intro i hash hhash inst u
    rw [(runInit_started hinit).typeInfo] at hhash
    cases hhash
    rfl
  have honce := (calls_distinct hinit rfl rfl rfl hby 1).2
  rw [final, hstep] at honce
  exact ⟨r, s₀, t, hinit, hstep, hdup, honce⟩

end Theft
