import Theft.Autoshrink

/-!
# The runner, its callbacks and what they see

`struct theft` split in two: `Runner` is what `theft_run_init` fixes for the whole run, and
`RunState` is what changes. User code is any state of type `σ`; an argument instance is an
`Option I`, with `none` for `NULL`. Every call of a callback is recorded in the trace, and so
is its answer.
-/

namespace Theft

open PackedBits Exec

instance neZero_one : NeZero 1 := ⟨by decide⟩

/-! ## Results -/

/-- `enum theft_run_res` -/
inductive RunRes
  | pass
  | fail
  | skip
  | error
  | errorMemory
  | errorBadArgs
  deriving DecidableEq, Repr

/-- `enum theft_generate_res` -/
inductive GenerateRes
  | ok
  | skip
  | errorAlloc
  | errorMemory
  | errorBadArgs
  deriving DecidableEq, Repr

/-- `enum theft_hook_run_pre_res` -/
inductive HookRunPreRes
  | error
  | cont
  deriving DecidableEq, Repr

/-- `enum theft_hook_run_post_res` -/
inductive HookRunPostRes
  | error
  | cont
  deriving DecidableEq, Repr

/-- `enum theft_hook_gen_args_pre_res` -/
inductive HookGenArgsPreRes
  | error
  | cont
  | halt
  deriving DecidableEq, Repr

/-- `enum theft_hook_trial_pre_res` -/
inductive HookTrialPreRes
  | error
  | cont
  | halt
  deriving DecidableEq, Repr

/-- `enum theft_hook_trial_post_res` -/
inductive HookTrialPostRes
  | error
  | cont
  | repeat_
  | repeatOnce
  deriving DecidableEq, Repr

/-- `enum theft_hook_counterexample_res` -/
inductive HookCounterexampleRes
  | cont
  | error
  deriving DecidableEq, Repr

/-- `enum theft_hook_shrink_pre_res` -/
inductive HookShrinkPreRes
  | error
  | cont
  | halt
  deriving DecidableEq, Repr

/-- `enum theft_hook_shrink_post_res` -/
inductive HookShrinkPostRes
  | error
  | cont
  deriving DecidableEq, Repr

/-- `enum theft_shrink_post_state` -/
inductive ShrinkPostState
  | shrinkFailed
  | shrunk
  | doneShrinking
  deriving DecidableEq, Repr

/-- `enum theft_hook_shrink_trial_post_res` -/
inductive HookShrinkTrialPostRes
  | error
  | cont
  | repeat_
  | repeatOnce
  deriving DecidableEq, Repr

/-! ## What hooks are told -/

section Info
variable (I : Type) (n : Nat)

/-- The instances of all arguments. -/
abbrev Args := Fin n → Option I

/-- `struct theft_run_report`, and `struct counter_info` -/
structure RunReport where
  pass : Nat
  fail : Nat
  skip : Nat
  dup : Nat
  deriving DecidableEq, Repr

/-- `struct theft_hook_run_pre_info` -/
structure RunPreInfo where
  propName : Option String
  totalTrials : Nat
  runSeed : Word
  deriving DecidableEq, Repr

/-- `struct theft_hook_run_post_info` -/
structure RunPostInfo where
  propName : Option String
  totalTrials : Nat
  runSeed : Word
  report : RunReport
  deriving DecidableEq, Repr

/-- `struct theft_hook_gen_args_pre_info` -/
structure GenArgsPreInfo where
  propName : Option String
  totalTrials : Nat
  trialId : Nat
  failures : Nat
  runSeed : Word
  trialSeed : Word
  arity : Nat
  deriving DecidableEq, Repr

/-- `struct theft_hook_trial_pre_info` -/
structure TrialPreInfo where
  propName : Option String
  totalTrials : Nat
  trialId : Nat
  failures : Nat
  runSeed : Word
  trialSeed : Word
  arity : Nat
  args : Option (Args I n)

/-- `struct theft_hook_trial_post_info` -/
structure TrialPostInfo where
  propName : Option String
  totalTrials : Nat
  trialId : Nat
  failures : Nat
  runSeed : Word
  trialSeed : Word
  arity : Nat
  args : Args I n
  result : TrialRes
  repeat_ : Bool

/-- `struct theft_hook_counterexample_info` -/
structure CounterexampleInfo where
  propName : Option String
  totalTrials : Nat
  trialId : Nat
  trialSeed : Word
  arity : Nat
  args : Args I n

/-- `struct theft_hook_shrink_pre_info` -/
structure ShrinkPreInfo where
  propName : Option String
  totalTrials : Nat
  trialId : Nat
  failures : Nat
  runSeed : Word
  trialSeed : Word
  arity : Nat
  shrinkCount : Nat
  successfulShrinks : Nat
  failedShrinks : Nat
  argIndex : Nat
  arg : Option I
  tactic : Nat

/-- `struct theft_hook_shrink_post_info` -/
structure ShrinkPostInfo where
  propName : Option String
  totalTrials : Nat
  trialId : Nat
  runSeed : Word
  trialSeed : Word
  arity : Nat
  shrinkCount : Nat
  successfulShrinks : Nat
  failedShrinks : Nat
  argIndex : Nat
  arg : Option I
  tactic : Nat
  state : ShrinkPostState

/-- `struct theft_hook_shrink_trial_post_info` -/
structure ShrinkTrialPostInfo where
  propName : Option String
  totalTrials : Nat
  trialId : Nat
  failures : Nat
  runSeed : Word
  trialSeed : Word
  arity : Nat
  shrinkCount : Nat
  successfulShrinks : Nat
  failedShrinks : Nat
  argIndex : Nat
  args : Args I n
  tactic : Nat
  result : TrialRes

end Info

/-! ## Callbacks -/

/-- `struct theft_type_info`. A callback that is handed `t` may ask for random bits. -/
structure TypeInfo (I σ : Type) where
  alloc : σ → Gen (AllocRes × Option I × σ)
  free : Option (Option I → σ → σ)
  hash : Option (Option I → σ → Word × σ)
  print : Option (Option I → σ → σ)
  shrink : Option (Option I → Nat → σ → Gen (ShrinkRes × Option I × σ))
  autoshrinkConfig : AutoshrinkConfig

/-- The hooks of a configuration, or the ones a run has after `theft_run_init`: the hooks that
print by default are then `none`. -/
structure Hooks (I σ : Type) (n : Nat) where
  runPre : Option (RunPreInfo → σ → HookRunPreRes × σ)
  runPost : Option (RunPostInfo → σ → HookRunPostRes × σ)
  genArgsPre : Option (GenArgsPreInfo → σ → HookGenArgsPreRes × σ)
  trialPre : Option (TrialPreInfo I n → σ → HookTrialPreRes × σ)
  trialPost : Option (TrialPostInfo I n → σ → Gen (HookTrialPostRes × σ))
  counterexample : Option (CounterexampleInfo I n → σ → Gen (HookCounterexampleRes × σ))
  shrinkPre : Option (ShrinkPreInfo I → σ → HookShrinkPreRes × σ)
  shrinkPost : Option (ShrinkPostInfo I → σ → HookShrinkPostRes × σ)
  shrinkTrialPost : Option (ShrinkTrialPostInfo I n → σ → HookShrinkTrialPostRes × σ)

/-- What a run keeps unchanged: `struct prop_info`, `struct seed_info` and `struct hook_info`,
which sizes of bloom filters there is memory for, and which autoshrink environments, by their
address. When each call is forked, `propFun` is what the parent sees of it. -/
structure Runner (I σ : Type) (n : Nat) where
  name : Option String
  propFun : Args I n → σ → Gen (TrialRes × σ)
  trialCount : Nat
  typeInfo : Fin n → TypeInfo I σ
  runSeed : Word
  alwaysSeeds : List Word
  hooks : Hooks I σ n
  filterMemory : Nat → Bool
  envMemory : Nat → Bool

/-! ## The changing state -/

/-- `struct arg_info`. `env` is there when the type is `ARG_AUTOSHRINK`. -/
structure ArgInfo (I : Type) where
  inst : Option I
  env : Option AutoshrinkEnv

/-- `struct trial_info` -/
structure TrialInfo (I : Type) (n : Nat) where
  trial : Nat
  seed : Word
  shrinkCount : Nat
  successfulShrinks : Nat
  failedShrinks : Nat
  args : Fin n → ArgInfo I

/-- A call of a callback. A call of the property is recorded with the arguments and pools that
the trial held, and with whether a hook asked to run it again. -/
inductive Event (I : Type) (n : Nat)
  | alloc (argI : Fin n)
  | free (argI : Fin n) (inst : Option I)
  | hash (argI : Fin n) (inst : Option I)
  | print (argI : Fin n) (inst : Option I)
  | shrink (argI : Fin n) (inst : Option I) (tactic : Nat)
  | call (args : Args I n) (held : Fin n → ArgInfo I) (rerun : Bool)
  | runPre (info : RunPreInfo)
  | runPost (info : RunPostInfo)
  | genArgsPre (info : GenArgsPreInfo)
  | trialPre (info : TrialPreInfo I n)
  | trialPost (info : TrialPostInfo I n)
  | counterexample (info : CounterexampleInfo I n)
  | shrinkPre (info : ShrinkPreInfo I)
  | shrinkPost (info : ShrinkPostInfo I)
  | shrinkTrialPost (info : ShrinkTrialPostInfo I n)
  | allocated (res : AllocRes) (inst : Option I)
  | shrunk (res : ShrinkRes) (inst : Option I)
  | returned (res : TrialRes)
  | runPreRes (res : HookRunPreRes)
  | runPostRes (res : HookRunPostRes)
  | genArgsPreRes (res : HookGenArgsPreRes)
  | trialPreRes (res : HookTrialPreRes)
  | trialPostRes (res : HookTrialPostRes)
  | counterexampleRes (res : HookCounterexampleRes)
  | shrinkPreRes (res : HookShrinkPreRes)
  | shrinkPostRes (res : HookShrinkPostRes)
  | shrinkTrialPostRes (res : HookShrinkTrialPostRes)

/-- The changing part of `struct theft`, the state of user code, and the trace, newest first. -/
structure RunState (R I σ : Type) (n : Nat) where
  bloom : Option Bloom
  prng : Prng R
  ledger : Ledger
  counters : RunReport
  trial : TrialInfo I n
  user : σ
  trace : List (Event I n)

/-- Programs of the runner. -/
abbrev Run (R I σ : Type) (n : Nat) := EStateM Stop (RunState R I σ n)

section
variable {R I σ : Type} {n : Nat} {α : Type}

def record (event : Event I n) : Run R I σ n Unit :=
  modify fun s => { s with trace := event :: s.trace }

def modifyTrial (f : TrialInfo I n → TrialInfo I n) : Run R I σ n Unit :=
  modify fun s => { s with trial := f s.trial }

def modifyCounters (f : RunReport → RunReport) : Run R I σ n Unit :=
  modify fun s => { s with counters := f s.counters }

/-- A table with one entry replaced. -/
def update {β : Type} (f : Fin n → β) (i : Fin n) (b : β) : Fin n → β :=
  fun j => if j = i then b else f j

/-- One argument of the trial changed. -/
def TrialInfo.modifyArg (t : TrialInfo I n) (argI : Fin n) (f : ArgInfo I → ArgInfo I) :
    TrialInfo I n := { t with args := update t.args argI (f (t.args argI)) }

/-- `t->trial.args[i].instance = inst` -/
def setInst (argI : Fin n) (inst : Option I) : Run R I σ n Unit :=
  modifyTrial fun t => t.modifyArg argI fun a => { a with inst := inst }

/-- `t->trial.args[i].u.as.env->bit_pool = pool` -/
def setPool (argI : Fin n) (pool : Option BitPool) : Run R I σ n Unit :=
  modifyTrial fun t => t.modifyArg argI fun a =>
    { a with env := a.env.map fun env => { env with bitPool := pool } }

/-- `theft_trial_get_args` -/
def TrialInfo.getArgs (t : TrialInfo I n) : Args I n := fun i => (t.args i).inst

variable [Platform R]

/-- A callback that is handed `t` runs on the random bits and on the state of user code. -/
def runCallback (g : σ → Gen (α × σ)) : Run R I σ n α := do
  let s ← get
  let (a, user) ← zoom RunState.prng (fun p s => { s with prng := p }) (g s.user).run
  modify fun s => { s with user := user }
  return a

/-- A callback that is not handed `t`. -/
def runPlain (f : σ → α × σ) : Run R I σ n α := runCallback fun u => .ret (f u)

/-- A callback with its call and its answer in the trace. -/
def ask (event : Event I n) (answer : α → Event I n) (g : σ → Gen (α × σ)) : Run R I σ n α := do
  record event
  let a ← runCallback g
  record (answer a)
  return a

/-- A hook that may not be installed. -/
def askHook {Info Res : Type} (hook : Option (Info → σ → Res × σ)) (info : Info) (dflt : Res)
    (event : Event I n) (answer : Res → Event I n) : Run R I σ n Res :=
  match hook with
  | none => return dflt
  | some hook => ask event answer fun u => .ret (hook info u)

/-- `ti->free(instance, ti->env)`, if there is a callback -/
def freeWith (info : TypeInfo I σ) (argI : Fin n) (inst : Option I) : Run R I σ n Unit :=
  match info.free with
  | none => return ()
  | some free => do
    record (.free argI inst)
    runPlain fun u => ((), free inst u)

/-- The `free` callback of an argument. -/
def freeInst (r : Runner I σ n) (argI : Fin n) (inst : Option I) : Run R I σ n Unit :=
  freeWith (r.typeInfo argI) argI inst

/-- A step of `theft_autoshrink.c` on the environment of an argument. -/
def zoomEnv (argI : Fin n) (env : AutoshrinkEnv) (m : Auto R α) : Run R I σ n α :=
  zoom
    (fun s => ⟨s.prng, s.ledger, (s.trial.args argI).env.getD env⟩)
    (fun t s => { s with
      prng := t.prng
      ledger := t.ledger
      trial := s.trial.modifyArg argI fun a => { a with env := some t.env } })
    m

/-- `theft_autoshrink_free_bit_pool(t, pool)` -/
def freePool (pool : BitPool) : Run R I σ n Unit := do
  let s ← get
  let ledger ← attempt (freeBitPool s.prng pool s.ledger)
  set { s with ledger := ledger }

end

end Theft
