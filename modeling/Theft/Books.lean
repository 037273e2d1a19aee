import Mathlib.Algebra.BigOperators.Fin
import Mathlib.Algebra.Order.BigOperators.Group.Finset
import Theft.AutoshrinkLedger
import Theft.Frames
import Theft.Held

/-!
# Who holds what

Whatever a callback returns and whatever is allocated is held by an argument, or loose until
it is stored or freed. An `Account` gives each instance, pool and environment a weight:

* `Books A b s`: what was returned or acquired is what was freed, plus the balance `b`;
* `Clean`: no callback was passed an instance that nobody held;
* `Since A b base t`: the arguments are those of `base`, with the books balanced by `b`, and
  the rules for callbacks, for freeing and for exchanging an argument.
-/

namespace Theft

open PackedBits Exec

section
variable {R I σ : Type} {n : Nat} {α β : Type}

/-! ## Answers with an instance -/

/-- An instance that a callback put out for an argument, and whether it answered `OK`. -/
structure Output (I : Type) where
  argI : Nat
  inst : I
  ok : Bool
  deriving DecidableEq, Repr

/-- The instances in the answers of `alloc` and `shrink`, newest first. Each answer stands right
after its call. -/
def outputs : List (Event I n) → List (Output I)
  | .allocated res (some v) :: .alloc argI :: older =>
    ⟨argI, v, decide (res = .ok)⟩ :: outputs older
  | .shrunk res (some v) :: .shrink argI _ _ :: older =>
    ⟨argI, v, decide (res = .ok)⟩ :: outputs older
  | _ :: older => outputs older
  | [] => []

/-- Events that no instance comes out of. -/
def Event.mute : Event I n → Bool
  | .allocated _ _ | .shrunk _ _ => false
  | _ => true

theorem outputs_mute {e : Event I n} (h : e.mute = true) (older : List (Event I n)) :
    outputs (e :: older) = outputs older := by
  cases e <;> first | rfl | cases h

/-- What was put out before is put out still. -/
theorem outputs_suffix (newer older : List (Event I n)) :
    outputs older <:+ outputs (newer ++ older) := by
  have step : ∀ (e : Event I n) (older : List (Event I n)),
      outputs older <:+ outputs (e :: older) := by
    intro e older
    cases e with
    | allocated res inst =>
      rcases inst with _ | v
      · exact List.suffix_rfl
      rcases older with _ | ⟨e', older⟩
      · exact List.suffix_rfl
      cases e' <;> first | exact List.suffix_rfl | exact List.suffix_cons _ _
    | shrunk res inst =>
      rcases inst with _ | v
      · exact List.suffix_rfl
      rcases older with _ | ⟨e', older⟩
      · exact List.suffix_rfl
      cases e' <;> first | exact List.suffix_rfl | exact List.suffix_cons _ _
    | _ => exact List.suffix_rfl
  induction newer with
  | nil => exact List.suffix_rfl
  | cons e newer ih => exact ih.trans (step e _)

/-! ## Accounts -/

/-- The address of a pool or an environment. -/
def Resource.id : Resource → Nat
  | .pool id => id
  | .env id => id

/-- Weights of pools and environments, and of the instances of each argument. -/
structure Account (I : Type) where
  res : Resource → Nat
  inst : Nat → I → Nat

/-- What is held: instances, instances that were put out without an `OK`, and pools and
environments. -/
structure Balance where
  insts : Nat
  strays : Nat
  res : Nat

/-- The balance with something that a callback put out. -/
def Balance.put (b : Balance) (weight : Nat) (ok : Bool) : Balance :=
  ⟨b.insts + if ok then weight else 0, b.strays + if ok then 0 else weight, b.res⟩

namespace Account
variable (A : Account I)

/-- The weight of an instance that may be `NULL`. -/
def of (argI : Nat) (inst : Option I) : Nat := inst.elim 0 (A.inst argI)

def ofArgs (args : Args I n) : Nat := ∑ i : Fin n, A.of i (args i)

def ofPool (pool : Option BitPool) : Nat := pool.elim 0 fun pool => A.res (.pool pool.id)

def ofEnv (env : Option AutoshrinkEnv) : Nat :=
  env.elim 0 fun env => A.res (.env env.id) + A.ofPool env.bitPool

/-- What the arguments of a trial hold. -/
def held (args : Fin n → ArgInfo I) : Balance :=
  ⟨∑ i : Fin n, A.of i (args i).inst, 0, ∑ i : Fin n, A.ofEnv (args i).env⟩

def ofOutput (ok : Bool) (o : Output I) : Nat := if o.ok = ok then A.inst o.argI o.inst else 0

/-- What was returned with `OK`. -/
def returned (trace : List (Event I n)) : Nat := ((outputs trace).map (A.ofOutput true)).sum

/-- What was put out without an `OK`. -/
def strays (trace : List (Event I n)) : Nat := ((outputs trace).map (A.ofOutput false)).sum

def freedBy : Event I n → Nat
  | .free argI inst => A.of argI inst
  | _ => 0

def freed (trace : List (Event I n)) : Nat := (trace.map A.freedBy).sum

/-- What a callback is passed. -/
def passed : Event I n → Nat
  | .free argI inst | .hash argI inst | .print argI inst | .shrink argI inst _ => A.of argI inst
  | .call args _ _ => A.ofArgs args
  | .trialPre info => info.args.elim 0 A.ofArgs
  | .trialPost info => A.ofArgs info.args
  | .counterexample info => A.ofArgs info.args
  | .shrinkPre info => A.of info.argIndex info.arg
  | .shrinkPost info => A.of info.argIndex info.arg
  | .shrinkTrialPost info => A.ofArgs info.args
  | _ => 0

/-- No callback was passed an instance that was freed as often as it was put out. -/
def Clean (trace : List (Event I n)) : Prop :=
  ∀ newer e older, trace = newer ++ e :: older → 0 < A.passed e →
    A.freed older < A.returned older + A.strays older

def acquired (l : Ledger) : Nat :=
  (l.entries.map fun | .acquire x => A.res x | .release _ => 0).sum

def released (l : Ledger) : Nat :=
  (l.entries.map fun | .release x => A.res x | .acquire _ => 0).sum

end Account

/-- Whatever was returned and not freed is in the balance, and so is whatever was acquired and
not released. -/
structure Books (A : Account I) (b : Balance) (s : RunState R I σ n) : Prop where
  kept : A.returned s.trace ≤ A.freed s.trace + b.insts
  once : A.freed s.trace + b.insts + b.strays ≤ A.returned s.trace + A.strays s.trace
  clean : A.Clean s.trace
  res : A.acquired s.ledger = A.released s.ledger + b.res
  fresh : ∀ x, 0 < A.res x →
    s.ledger.entries.count (.acquire x) ≤ if x.id < s.ledger.nextId then 1 else 0

theorem Account.Clean.cons {A : Account I} {trace : List (Event I n)} (h : A.Clean trace)
    {e : Event I n} (he : 0 < A.passed e → A.freed trace < A.returned trace + A.strays trace) :
    A.Clean (e :: trace) := by
  intro newer e' older htrace hpos
  cases newer with
  | nil =>
    obtain ⟨rfl, rfl⟩ := List.cons.inj htrace
    exact he hpos
  | cons _ newer => exact h newer e' older (List.cons.inj htrace).2 hpos

/-! ### What events change -/

namespace Books
variable {A : Account I} {b : Balance} {s t : RunState R I σ n}

theorem congr (h : Books A b s) (htrace : t.trace = s.trace) (hledger : t.ledger = s.ledger) :
    Books A b t := by
  refine ⟨?_, ?_, ?_, ?_, ?_⟩
  · rw [htrace]; exact h.kept
  · rw [htrace]; exact h.once
  · rw [htrace]; exact h.clean
  · rw [hledger]; exact h.res
  · rw [hledger]; exact h.fresh

/-- What is still held may be passed to a callback. -/
theorem clean_cons (h : Books A b s) {e : Event I n} (hpassed : A.passed e ≤ b.insts + b.strays) :
    A.Clean (e :: s.trace) := by
  apply h.clean.cons
  intro hpos
  have honce := h.once
  omega

/-- A call, or an answer, that no instance comes out of. -/
theorem event (h : Books A b s) {e : Event I n} (hmute : e.mute = true) (hfree : A.freedBy e = 0)
    (hpassed : A.passed e ≤ b.insts) (htrace : t.trace = e :: s.trace)
    (hledger : t.ledger = s.ledger) : Books A b t := by
  have hreturned : A.returned t.trace = A.returned s.trace := by
    rw [htrace, Account.returned, outputs_mute hmute, Account.returned]
  have hstrays : A.strays t.trace = A.strays s.trace := by
    rw [htrace, Account.strays, outputs_mute hmute, Account.strays]
  have hfreed : A.freed t.trace = A.freed s.trace := by
    rw [htrace, Account.freed, List.map_cons, List.sum_cons, hfree, Nat.zero_add, Account.freed]
  refine ⟨?_, ?_, ?_, ?_, ?_⟩
  · rw [hreturned, hfreed]; exact h.kept
  · rw [hreturned, hfreed, hstrays]; exact h.once
  · rw [htrace]; exact h.clean_cons (by omega)
  · rw [hledger]; exact h.res
  · rw [hledger]; exact h.fresh

/-- An instance is freed that somebody held, or that was put out without an `OK`. -/
theorem free (h : Books A b s) {b' : Balance} {argI : Fin n} {inst : Option I}
    (htrace : t.trace = .free argI inst :: s.trace) (hledger : t.ledger = s.ledger)
    (hkept : b.insts ≤ b'.insts + A.of argI inst)
    (honce : b'.insts + b'.strays + A.of argI inst ≤ b.insts + b.strays) (hres : b'.res = b.res) :
    Books A b' t := by
  have hfreed : A.freed t.trace = A.of argI inst + A.freed s.trace := by
    rw [htrace]
    rfl
  have hreturned : A.returned t.trace = A.returned s.trace := by rw [htrace]; rfl
  have hstrays : A.strays t.trace = A.strays s.trace := by rw [htrace]; rfl
  have hkept' := h.kept
  have honce' := h.once
  refine ⟨by omega, by omega, ?_, ?_, ?_⟩
  · rw [htrace]
    apply h.clean_cons
    dsimp only [Account.passed]
    omega
  · rw [hledger, hres]; exact h.res
  · rw [hledger]; exact h.fresh

/-- A callback was called, and answered with an instance or without one. -/
theorem answer (h : Books A b s) {call answer : Event I n} {argI : Nat} {inst : Option I}
    {ok : Bool} (htrace : t.trace = answer :: call :: s.trace) (hledger : t.ledger = s.ledger)
    (houtputs : outputs (answer :: call :: s.trace) =
      (inst.map fun v => ⟨argI, v, ok⟩).toList ++ outputs s.trace)
    (hcall : A.freedBy call = 0 ∧ A.passed call ≤ b.insts)
    (hanswer : A.freedBy answer = 0 ∧ A.passed answer = 0) :
    Books A (b.put (A.of argI inst) ok) t := by
  have hfreed : A.freed t.trace = A.freed s.trace := by
    rw [htrace, Account.freed, List.map_cons, List.map_cons, List.sum_cons, List.sum_cons, hcall.1,
      hanswer.1, Nat.zero_add, Nat.zero_add, Account.freed]
  have hput : A.returned t.trace = (if ok then A.of argI inst else 0) + A.returned s.trace ∧
      A.strays t.trace = (if ok then 0 else A.of argI inst) + A.strays s.trace := by
    rw [htrace, Account.returned, Account.strays, houtputs]
    cases inst <;> cases ok <;>
      simp [Account.of, Account.ofOutput, Account.returned, Account.strays]
  obtain ⟨hreturned, hstray⟩ := hput
  have hkept := h.kept
  have honce := h.once
  unfold Balance.put
  refine ⟨by dsimp only; omega, by dsimp only; omega, ?_, ?_, ?_⟩
  · rw [htrace]
    apply (h.clean_cons (by omega)).cons
    intro hpos
    omega
  · rw [hledger]; exact h.res
  · rw [hledger]; exact h.fresh

theorem allocated (h : Books A b s) {argI : Fin n} {res : AllocRes} {inst : Option I}
    (htrace : t.trace = .allocated res inst :: .alloc argI :: s.trace)
    (hledger : t.ledger = s.ledger) : Books A (b.put (A.of argI inst) (decide (res = .ok))) t := by
  apply h.answer htrace hledger
  · cases inst <;> rfl
  · exact ⟨rfl, Nat.zero_le _⟩
  · exact ⟨rfl, rfl⟩

theorem shrunk (h : Books A b s) {argI : Fin n} {current : Option I} {tactic : Nat}
    {res : ShrinkRes} {inst : Option I}
    (htrace : t.trace = .shrunk res inst :: .shrink argI current tactic :: s.trace)
    (hledger : t.ledger = s.ledger) (hcurrent : A.of argI current ≤ b.insts) :
    Books A (b.put (A.of argI inst) (decide (res = .ok))) t := by
  apply h.answer htrace hledger
  · cases inst <;> rfl
  · exact ⟨rfl, hcurrent⟩
  · exact ⟨rfl, rfl⟩

/-- What was put out without an `OK` may be forgotten. -/
theorem rebalance (h : Books A b s) {b' : Balance} (hkept : b.insts ≤ b'.insts)
    (honce : b'.insts + b'.strays ≤ b.insts + b.strays) (hres : b'.res = b.res) :
    Books A b' s := by
  have hkept' := h.kept
  have honce' := h.once
  exact ⟨by omega, by omega, h.clean, by rw [hres]; exact h.res, h.fresh⟩

/-! ### What the ledger changes -/

theorem acquire (h : Books A b s) {x : Resource} (hx : x.id = s.ledger.nextId)
    (htrace : t.trace = s.trace)
    (hledger : t.ledger = ⟨s.ledger.nextId + 1, .acquire x :: s.ledger.entries⟩) :
    Books A { b with res := b.res + A.res x } t := by
  refine ⟨?_, ?_, ?_, ?_, ?_⟩
  · rw [htrace]; exact h.kept
  · rw [htrace]; exact h.once
  · rw [htrace]; exact h.clean
  · have hres := h.res
    rw [hledger]
    simp only [Account.acquired, Account.released, List.map_cons, List.sum_cons] at hres ⊢
    omega
  · intro y hy
    have hfresh := h.fresh y hy
    rw [hledger]
    dsimp only
    by_cases hxy : x = y
    · subst hxy
      rw [List.count_cons_self, hx]
      rw [hx, if_neg (Nat.lt_irrefl _)] at hfresh
      rw [if_pos (Nat.lt_succ_self _)]
      omega
    · rw [List.count_cons_of_ne fun heq => hxy (LedgerEntry.acquire.inj heq)]
      split_ifs at hfresh ⊢ <;> omega

theorem release {insts strays res : Nat} {x : Resource}
    (h : Books A ⟨insts, strays, res + A.res x⟩ s) (htrace : t.trace = s.trace)
    (hledger : t.ledger = s.ledger.release x) : Books A ⟨insts, strays, res⟩ t := by
  refine ⟨?_, ?_, ?_, ?_, ?_⟩
  · rw [htrace]; exact h.kept
  · rw [htrace]; exact h.once
  · rw [htrace]; exact h.clean
  · have hres := h.res
    rw [hledger]
    simp only [Ledger.release, Account.acquired, Account.released, List.map_cons,
      List.sum_cons] at hres ⊢
    omega
  · intro y hy
    have hfresh := h.fresh y hy
    rw [hledger]
    dsimp only [Ledger.release]
    rw [List.count_cons_of_ne (by rintro ⟨⟩)]
    exact hfresh

/-- A shrinking step leaves the pool that it offers in the balance. -/
theorem shrinkLedger (h : Books A b s) {c : ShrinkRes × Option β × Option BitPool}
    (hledger : ShrinkLedger s.ledger t.ledger c) (htrace : t.trace = s.trace) :
    Books A { b with res := b.res + A.ofPool c.2.2 } t := by
  have hacquired : Books A { b with res := b.res + A.res (.pool s.ledger.nextId) }
      { s with ledger := s.ledger.acquirePool } := h.acquire rfl rfl rfl
  generalize hafter : t.ledger = after at hledger
  cases hledger with
  | none _ hsame => exact h.congr htrace (hafter.trans hsame)
  | offered hid hsame =>
    dsimp only [Account.ofPool, Option.elim_some]
    rw [hid]
    exact hacquired.congr htrace (hafter.trans hsame)
  | freed _ hsame => exact hacquired.release htrace (hafter.trans hsame)

end Books

/-! ## The arguments and the books -/

/-- The arguments are those of `base`, no pool is injected, and the books are balanced by `b`. -/
structure Since (A : Account I) (b : Balance) (base t : RunState R I σ n) : Prop where
  noPool : t.prng.bitPool = none
  core : ∀ i, (t.trial.args i).core = (base.trial.args i).core
  books : Books A b t

theorem Account.ofEnv_core (A : Account I) (env : AutoshrinkEnv) :
    A.ofEnv (some env.core) = A.ofEnv (some env) := by
  simp only [Account.ofEnv, AutoshrinkEnv.core, Account.ofPool, Option.elim_some]
  cases env.bitPool <;> rfl

theorem Account.ofEnv_eq (A : Account I) {a a' : ArgInfo I} (h : a.core = a'.core) :
    A.ofEnv a.env = A.ofEnv a'.env := by
  have hcore := congrArg ArgInfo.env h
  simp only [ArgInfo.core] at hcore
  cases ha : a.env with
  | none =>
    rw [ha, Option.map_none, eq_comm, Option.map_eq_none_iff] at hcore
    rw [hcore]
  | some env =>
    rw [ha, Option.map_some, eq_comm, Option.map_eq_some_iff] at hcore
    obtain ⟨env', henv', heq⟩ := hcore
    rw [henv', ← A.ofEnv_core env, ← A.ofEnv_core env', heq]

/-- What arguments hold is in their cores. -/
theorem Account.held_core (A : Account I) {args args' : Fin n → ArgInfo I}
    (h : ∀ i, (args i).core = (args' i).core) : A.held args = A.held args' := by
  have hinst : ∀ i, (args i).inst = (args' i).inst := by
    intro i
    have hcore := congrArg ArgInfo.inst (h i)
    exact hcore
  have henv : ∀ i, A.ofEnv (args i).env = A.ofEnv (args' i).env := fun i => A.ofEnv_eq (h i)
  unfold Account.held
  simp only [hinst, henv]

/-- A program with clean books when it stops. -/
abbrev Audit (A : Account I) (P : RunState R I σ n → Prop) (m : Run R I σ n α)
    (Q : α → RunState R I σ n → Prop) : Prop := Spec P m Q fun _ t => A.Clean t.trace

/-- A program that leaves the arguments and the balance as they are. -/
abbrev Even (A : Account I) (b : Balance) (base : RunState R I σ n) (m : Run R I σ n α) : Prop :=
  Audit A (Since A b base) m fun _ => Since A b base

variable {A : Account I} {b b' : Balance} {base s t : RunState R I σ n}

/-- The state is read, and the program goes on from the same state. -/
theorem Audit.getAt {f : RunState R I σ n → Run R I σ n α} {Q : α → RunState R I σ n → Prop}
    (hf : ∀ s, Since A b base s → Audit A (fun t => t = s) (f s) Q) :
    Audit A (Since A b base) (get >>= f) Q := fun s hs => hf s hs s rfl

/-- The state is read. -/
theorem Audit.getThen {f : RunState R I σ n → Run R I σ n α} {Q : α → RunState R I σ n → Prop}
    (hf : ∀ s, Since A b base s → Audit A (Since A b base) (f s) Q) :
    Audit A (Since A b base) (get >>= f) Q := fun s hs => hf s hs s hs

/-- An event that no instance comes out of, and that passes only what is held. -/
structure Account.Fine (A : Account I) (insts : Nat) (e : Event I n) : Prop where
  mute : e.mute = true
  keeps : A.freedBy e = 0
  passed : A.passed e ≤ insts

namespace Even

theorem pure (a : α) : Even A b base (pure a : Run R I σ n α) := fun _ h => h

theorem throw (e : Stop) : Even A b base (throw e : Run R I σ n α) := fun _ h => h.books.clean

theorem attempt (x : Except Stop α) : Even A b base (attempt x : Run R I σ n α) := by
  intro s hs
  cases x with
  | ok a => exact hs
  | error e => exact hs.books.clean

theorem require {c : Prop} [Decidable c] {e : Stop} :
    Even A b base (require c e : Run R I σ n Unit) := by
  unfold Exec.require
  split
  · exact pure ()
  · exact throw e

theorem change {f : RunState R I σ n → RunState R I σ n} (hprng : ∀ s, (f s).prng = s.prng)
    (hledger : ∀ s, (f s).ledger = s.ledger) (htrace : ∀ s, (f s).trace = s.trace)
    (hcore : ∀ s i, ((f s).trial.args i).core = (s.trial.args i).core) :
    Even A b base (modify f : Run R I σ n PUnit) := by
  intro s hs
  refine ⟨?_, fun i => (hcore s i).trans (hs.core i), hs.books.congr (htrace s) (hledger s)⟩
  rw [hprng]
  exact hs.noPool

variable [Platform R]

/-- A callback that answers with no instance. -/
theorem ask {event : Event I n} {answer : α → Event I n} (hevent : A.Fine b.insts event)
    (hanswer : ∀ a, A.Fine 0 (answer a)) (g : σ → Gen (α × σ)) :
    Even A b base (ask event answer g : Run R I σ n α) := by
  intro s hs
  have hcalled : Books A b { s with trace := event :: s.trace } :=
    hs.books.event hevent.mute hevent.keeps hevent.passed rfl rfl
  obtain ⟨a, u, p, hg, hrun⟩ | ⟨e, p, -, hrun⟩ := ask_cases event answer g s
  · rw [hrun]
    have hnone := ((SamePool.run _).of_returned hg).none hs.noPool
    refine ⟨hnone, hs.core, ?_⟩
    exact hcalled.event (hanswer a).mute (hanswer a).keeps (Nat.le_trans (hanswer a).passed
      (Nat.zero_le _)) rfl rfl
  · rw [hrun]
    exact hcalled.clean

theorem askHook {Info Res : Type} {event : Event I n} {answer : Res → Event I n}
    (hevent : A.Fine b.insts event) (hanswer : ∀ a, A.Fine 0 (answer a))
    (hook : Option (Info → σ → Res × σ)) (info : Info) (dflt : Res) :
    Even A b base (askHook hook info dflt event answer : Run R I σ n Res) := by
  cases hook with
  | none => exact pure dflt
  | some hook => exact ask hevent hanswer _

/-- A callback that answers nothing. -/
theorem tell {event : Event I n} (hevent : A.Fine b.insts event) (f : σ → α × σ) :
    Even A b base (do
      record event
      runPlain f : Run R I σ n α) := by
  intro s hs
  exact ⟨hs.noPool, hs.core, hs.books.event hevent.mute hevent.keeps hevent.passed rfl rfl⟩

end Even

/-! ## Freeing -/

/-- Every type whose instances count has a `free` callback. -/
def Account.Freeable (A : Account I) (r : Runner I σ n) : Prop :=
  ∀ i, (r.typeInfo i).free = none → ∀ inst, A.of i inst = 0

theorem freePool_audit {insts strays res : Nat} (pool : BitPool) :
    Audit A (Since A ⟨insts, strays, res + A.res (.pool pool.id)⟩ base)
      (freePool pool : Run R I σ n Unit) fun _ => Since A ⟨insts, strays, res⟩ base := by
  intro s hs
  have hfree : freeBitPool s.prng pool s.ledger = .ok (s.ledger.release (.pool pool.id)) := by
    rw [freeBitPool, hs.noPool]
    rfl
  have hrun : freePool pool s = .ok () { s with ledger := s.ledger.release (.pool pool.id) } := by
    simp only [freePool, bind_apply, get_apply, hfree, attempt]
    rfl
  rw [hrun]
  exact ⟨hs.noPool, hs.core, hs.books.release rfl rfl⟩

theorem freePoolIf_audit {insts strays res : Nat} (pool : Option BitPool) :
    Audit A (Since A ⟨insts, strays, res + A.ofPool pool⟩ base)
      (freePoolIf pool : Run R I σ n Unit) fun _ => Since A ⟨insts, strays, res⟩ base := by
  cases pool with
  | none => exact Even.pure ()
  | some pool => exact freePool_audit pool

theorem freePoolPtr_audit {insts strays res : Nat} (pool : Option BitPool) :
    Audit A (Since A ⟨insts, strays, res + A.ofPool pool⟩ base)
      (freePoolPtr pool : Run R I σ n Unit) fun _ => Since A ⟨insts, strays, res⟩ base := by
  cases pool with
  | none => exact fun _ h => h.books.clean
  | some pool => exact freePool_audit pool

variable [Platform R]

theorem freeInst_audit {r : Runner I σ n} (hr : A.Freeable r) {argI : Fin n} {inst : Option I}
    (hkept : b.insts ≤ b'.insts + A.of argI inst)
    (honce : b'.insts + b'.strays + A.of argI inst ≤ b.insts + b.strays) (hres : b'.res = b.res) :
    Audit A (Since A b base) (freeInst r argI inst : Run R I σ n Unit)
      fun _ => Since A b' base := by
  intro s hs
  unfold freeInst freeWith
  cases hfree : (r.typeInfo argI).free with
  | none =>
    have hzero := hr argI hfree inst
    exact ⟨hs.noPool, hs.core, hs.books.rebalance (by omega) (by omega) hres⟩
  | some free => exact ⟨hs.noPool, hs.core, hs.books.free rfl rfl hkept honce hres⟩

/-- What is loose is freed. -/
theorem freeLoose_audit {r : Runner I σ n} (hr : A.Freeable r) {insts strays res : Nat}
    {argI : Fin n} {inst : Option I} :
    Audit A (Since A ⟨insts + A.of argI inst, strays, res⟩ base)
      (freeInst r argI inst : Run R I σ n Unit) fun _ => Since A ⟨insts, strays, res⟩ base := by
  apply freeInst_audit hr
  · exact Nat.le_refl _
  · dsimp only
    omega
  · rfl

/-! ## Exchanging an argument -/

omit [Platform R] in
theorem Since.modifyArg (h : Since A b base t) (i : Fin n) {f : ArgInfo I → ArgInfo I}
    (hcore : ∀ a b : ArgInfo I, a.core = b.core → (f a).core = (f b).core) :
    Since A b { base with trial := base.trial.modifyArg i f }
      { t with trial := t.trial.modifyArg i f } where
  noPool := h.noPool
  core := by
    intro j
    dsimp only
    by_cases hji : j = i
    · subst hji
      rw [modifyArg_same, modifyArg_same]
      exact hcore _ _ (h.core j)
    · rw [modifyArg_other _ hji, modifyArg_other _ hji]
      exact h.core j
  books := h.books.congr rfl rfl

omit [Platform R] in
theorem Since.withInst (h : Since A b base t) (i : Fin n) (inst : Option I) :
    Since A b (base.withInst i inst) (t.withInst i inst) :=
  h.modifyArg i fun _ _ hab => ArgInfo.core_setInst hab inst

omit [Platform R] in
theorem Since.withPoolIf (h : Since A b base t) (r : Runner I σ n) (i : Fin n)
    (pool : Option BitPool) : Since A b (base.withPoolIf r i pool) (t.withPoolIf r i pool) := by
  unfold RunState.withPoolIf
  split
  · exact h.modifyArg i fun _ _ hab => ArgInfo.core_setPool hab pool
  · exact h

theorem sum_change {f g : Fin n → Nat} {i : Fin n} (h : ∀ j ≠ i, f j = g j) :
    ∑ j, f j + g i = ∑ j, g j + f i := by
  have hrest : ∑ j ∈ Finset.univ.erase i, f j = ∑ j ∈ Finset.univ.erase i, g j :=
    Finset.sum_congr rfl fun j hj => h j (Finset.ne_of_mem_erase hj)
  have hf := Finset.add_sum_erase Finset.univ f (Finset.mem_univ i)
  have hg := Finset.add_sum_erase Finset.univ g (Finset.mem_univ i)
  omega

/-- The balance of the arguments with one of them changed. -/
theorem Account.held_modifyArg (A : Account I) (trial : TrialInfo I n) (i : Fin n)
    (f : ArgInfo I → ArgInfo I) :
    (A.held (trial.modifyArg i f).args).insts + A.of i (trial.args i).inst =
        (A.held trial.args).insts + A.of i (f (trial.args i)).inst ∧
      (A.held (trial.modifyArg i f).args).res + A.ofEnv (trial.args i).env =
        (A.held trial.args).res + A.ofEnv (f (trial.args i)).env := by
  have hsame := modifyArg_same trial i f
  constructor
  · have hsum := sum_change (f := fun j => A.of j ((trial.modifyArg i f).args j).inst)
      (g := fun j => A.of j (trial.args j).inst) (i := i) fun j hji => by
        rw [modifyArg_other _ hji]
    rw [hsame] at hsum
    exact hsum
  · have hsum := sum_change (f := fun j => A.ofEnv ((trial.modifyArg i f).args j).env)
      (g := fun j => A.ofEnv (trial.args j).env) (i := i) fun j hji => by
        rw [modifyArg_other _ hji]
    rw [hsame] at hsum
    exact hsum

end

end Theft
