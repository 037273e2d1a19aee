import Theft.Trial

/-!
# A run

`theft_run.c` and `theft.c`: a configuration is checked, and each trial generates its arguments
from its own seed, which is the first number drawn at the end of the trial before.
-/

namespace Theft

open PackedBits Exec

/-- `enum all_gen_res` -/
inductive AllGenRes
  | ok
  | skip
  | dup
  | error
  deriving DecidableEq, Repr

/-- `enum run_step_res` -/
inductive RunStepRes
  | ok
  | halt
  | genError
  | trialError
  deriving DecidableEq, Repr

section
variable {R I σ : Type} {n : Nat} [Platform R]

/-! ## Generating the arguments -/

/-- The trial before its arguments are generated. -/
def TrialInfo.start (trial : Nat) (seed : Word) : TrialInfo I n :=
  ⟨trial, seed, 0, 0, 0, fun _ => ⟨none, none⟩⟩

/-- The new environment of an argument -/
def RunState.equip (s : RunState R I σ n) (r : Runner I σ n) (argI : Fin n) : RunState R I σ n :=
  { s with
    ledger := s.ledger.acquireEnv
    trial := s.trial.modifyArg argI fun a =>
      { a with env := some (autoshrinkAllocEnv s.ledger.nextId argI
          (r.typeInfo argI).autoshrinkConfig) } }

/-- `init_arg_info`; false when there is no memory for an environment. Those allocated before it
are then in the trial, whose record is wiped when `run_step` has returned. -/
def initArgInfo (r : Runner I σ n) : List (Fin n) → Run R I σ n Bool
  | [] => return true
  | argI :: rest => do
    if (r.typeInfo argI).autoshrinkConfig.enable then
      if r.envMemory (← get).ledger.nextId then
        modify fun s => s.equip r argI
        initArgInfo r rest
      else return false
    else initArgInfo r rest

/-- A call of `alloc`, with its answer in the trace -/
def allocBasic (argI : Fin n) (alloc : σ → Gen (AllocRes × Option I × σ)) :
    Run R I σ n (AllocRes × Option I) :=
  ask (.alloc argI) (fun a => .allocated a.1 a.2) fun u =>
    (alloc u).map fun (res, inst, u) => ((res, inst), u)

/-- The call of `theft_autoshrink_alloc` -/
def allocAutoshrink (r : Runner I σ n) (argI : Fin n) : Run R I σ n (AllocRes × Option I) := do
  let s ← get
  match (s.trial.args argI).env with
  | none => throw .assertion
  | some env => do
    let (ares, res) ← zoomEnv argI env (autoshrinkAlloc ((r.typeInfo argI).alloc s.user))
    match res with
    | none => return (ares, none)
    | some (inst, user) => do
      record (.alloc argI)
      record (.allocated ares inst)
      modify fun s => { s with user := user }
      return (ares, inst)

/-- One round of `gen_all_args` -/
def genArg (r : Runner I σ n) (argI : Fin n) : Run R I σ n (AllocRes × Option I) :=
  if (r.typeInfo argI).autoshrinkConfig.enable then allocAutoshrink r argI
  else allocBasic argI (r.typeInfo argI).alloc

/-- `gen_all_args` -/
def genAllArgs (r : Runner I σ n) : List (Fin n) → Run R I σ n AllGenRes
  | [] => do
    if (← get).bloom.isSome then
      if ← callCheckCalled r then return .dup else return .ok
    else return .ok
  | argI :: rest => do
    match ← genArg r argI with
    | (.skip, _) => return .skip
    | (.error, _) => return .error
    | (.ok, inst) => do
      setInst argI inst
      genAllArgs r rest

/-! ## One step of the run -/

/-- The call of `gen_args_pre` -/
def genArgsPreHook (r : Runner I σ n) : Run R I σ n HookGenArgsPreRes := do
  let s ← get
  let info : GenArgsPreInfo :=
    { propName := r.name
      totalTrials := r.trialCount
      failures := s.counters.fail
      runSeed := r.runSeed
      trialId := s.trial.trial
      trialSeed := s.trial.seed
      arity := n }
  askHook r.hooks.genArgsPre info .cont (.genArgsPre info) .genArgsPreRes

/-- The call of `trial_pre` -/
def trialPreHook (r : Runner I σ n) (trial : Nat) (seed : Word) :
    Run R I σ n HookTrialPreRes := do
  let s ← get
  let info : TrialPreInfo I n :=
    { propName := r.name
      totalTrials := r.trialCount
      failures := s.counters.fail
      runSeed := r.runSeed
      trialId := trial
      trialSeed := seed
      arity := n
      args := none }
  askHook r.hooks.trialPre info .cont (.trialPre info) .trialPreRes

/-- The result of a step whose trial came to its end. -/
def stepRes (pres : HookTrialPostRes) : RunStepRes :=
  if pres = .error then .trialError else .ok

/-- The part of `run_step` from the generated arguments to the seed of the next trial. -/
def runGenerated (fuel : Nat) (r : Runner I σ n) (trial : Nat) (seed : Word) (gres : AllGenRes) :
    Run R I σ n RunStepRes := do
  let s ← get
  let info : TrialPostInfo I n :=
    { propName := r.name
      totalTrials := r.trialCount
      failures := s.counters.fail
      runSeed := seed
      trialId := trial
      trialSeed := seed
      arity := n
      args := s.trial.getArgs
      result := .pass
      repeat_ := false }
  match gres with
  | .skip => do
    modifyCounters fun c => { c with skip := c.skip + 1 }
    let pres ← trialPostHook r { info with result := .skip }
    return stepRes pres
  | .dup => do
    modifyCounters fun c => { c with dup := c.dup + 1 }
    let pres ← trialPostHook r { info with result := .dup }
    return stepRes pres
  | .error => do
    let _ ← trialPostHook r { info with result := .error }
    return .genError
  | .ok =>
    match ← trialPreHook r trial seed with
    | .halt => return .halt
    | .error => return .trialError
    | .cont =>
      let (more, pres) ← trialRun fuel r
      return if more then stepRes pres else .trialError

/-- The seed of a step: the seeds to run always come first, then the seed of the run. -/
def stepSeed (r : Runner I σ n) (trial : Nat) (seed : Word) : Word :=
  if h : trial < r.alwaysSeeds.length then r.alwaysSeeds[trial]
  else if 0 < r.alwaysSeeds.length ∧ trial = r.alwaysSeeds.length then r.runSeed
  else seed

/-- `*seed = theft_random(t)`, after a step without errors -/
def nextSeed (res : RunStepRes) (seed : Word) : Run R I σ n Word :=
  if res = .ok then zoom RunState.prng (fun p s => { s with prng := p }) random else return seed

/-- `run_step`: its result, and `*seed` -/
def runStep (fuel : Nat) (r : Runner I σ n) (trial : Nat) (seed : Word) :
    Run R I σ n (RunStepRes × Word) := do
  let seed := stepSeed r trial seed
  modifyTrial fun _ => .start trial seed
  if ← initArgInfo r (List.finRange n) then
    match ← genArgsPreHook r with
    | .halt => return (.halt, seed)
    | .error => return (.genError, seed)
    | .cont =>
      modify fun s => { s with prng := s.prng.setSeed seed }
      let gres ← genAllArgs r (List.finRange n)
      let res ← runGenerated fuel r trial seed gres
      let seed ← nextSeed res seed
      freeArgs r (List.finRange n)
      return (res, seed)
  else return (.genError, seed)

/-- `run_step` from its hook on, with the seed of the trial -/
def stepFromHook (fuel : Nat) (r : Runner I σ n) (trial : Nat) (seed : Word) :
    Run R I σ n (RunStepRes × Word) := do
  match ← genArgsPreHook r with
  | .halt => return (.halt, seed)
  | .error => return (.genError, seed)
  | .cont =>
    modify fun s => { s with prng := s.prng.setSeed seed }
    let gres ← genAllArgs r (List.finRange n)
    let res ← runGenerated fuel r trial seed gres
    let seed ← nextSeed res seed
    freeArgs r (List.finRange n)
    return (res, seed)

/-- The rest of `run_step`, when there was memory for the environments or not -/
def stepFrom (fuel : Nat) (r : Runner I σ n) (trial : Nat) (seed : Word) (equipped : Bool) :
    Run R I σ n (RunStepRes × Word) :=
  if equipped then stepFromHook fuel r trial seed else return (.genError, seed)

theorem runStep_eq (fuel : Nat) (r : Runner I σ n) (trial : Nat) (seed : Word)
    (s : RunState R I σ n) : runStep fuel r trial seed s =
      (initArgInfo r (List.finRange n) >>= stepFrom fuel r trial (stepSeed r trial seed))
        { s with trial := .start trial (stepSeed r trial seed) } := by
  rw [bind_apply]
  unfold runStep
  rw [bind_apply, modifyTrial, modify_apply]
  dsimp only
  rw [bind_apply]
  cases initArgInfo r (List.finRange n)
      { s with trial := .start trial (stepSeed r trial seed) } with
  | error e t => rfl
  | ok equipped t => cases equipped <;> rfl

/-! ## The run -/

/-- The loop of `theft_run_trials`; false when it goes to its label `cleanup`. -/
def runLoop (fuel : Nat) (r : Runner I σ n) : Nat → Nat → Word → Run R I σ n Bool
  | 0, _, _ => return true
  | left + 1, trial, seed => do
    let (res, seed) ← runStep fuel r trial seed
    modifyTrial fun _ => .start 0 0
    match res with
    | .ok => runLoop fuel r left (trial + 1) seed
    | .halt => return true
    | .genError | .trialError => return false

/-- The call of `run_pre`. Without a hook the configuration is printed. -/
def runPreHook (r : Runner I σ n) : Run R I σ n HookRunPreRes := do
  let info : RunPreInfo := ⟨r.name, r.trialCount, r.runSeed⟩
  askHook r.hooks.runPre info .cont (.runPre info) .runPreRes

/-- The call of `run_post`. Without a hook the report is printed. -/
def runPostHook (r : Runner I σ n) : Run R I σ n HookRunPostRes := do
  let info : RunPostInfo := ⟨r.name, r.trialCount, r.runSeed, (← get).counters⟩
  askHook r.hooks.runPost info .cont (.runPost info) .runPostRes

/-- `theft_run_trials` -/
def runTrials (fuel : Nat) (r : Runner I σ n) : Run R I σ n RunRes := do
  match ← runPreHook r with
  | .error => return .error
  | .cont =>
    if ← runLoop fuel r r.trialCount 0 r.runSeed then
      match ← runPostHook r with
      | .error => return .error
      | .cont =>
        let c := (← get).counters
        return if 0 < c.fail then .fail else if 0 < c.pass then .pass else .skip
    else return .error

end

/-! ## Starting a run -/

/-- `struct theft_run_config`. Its types have an `alloc` callback; the property is the one for
their number, if there is one. -/
structure Config (I σ : Type) (n : Nat) where
  name : Option String
  prop : Option (Args I n → σ → Gen (TrialRes × σ))
  typeInfo : Fin n → TypeInfo I σ
  trials : Nat
  seed : Word
  alwaysSeeds : List Word
  hooks : Hooks I σ n

/-- What memory there is: for the table of the bloom filter, for which sizes of its filters, and
for which autoshrink environments. -/
structure Memory where
  table : Bool
  filter : Nat → Bool
  env : Nat → Bool

/-- `DEFAULT_THEFT_SEED` -/
def defaultSeed : Word := 0xa600d64b175eed

/-- `THEFT_DEF_TRIALS` -/
def defTrials : Nat := 100

section
variable {R I σ : Type} {n : Nat}

/-- `check_all_args` refuses an argument that is both autoshrunk and shrunk by a callback. -/
def checkAllArgs (typeInfo : Fin n → TypeInfo I σ) : Bool :=
  (List.finRange n).all fun i =>
    !((typeInfo i).autoshrinkConfig.enable && (typeInfo i).shrink.isSome)

/-- `*all_hashable` -/
def allHashable (typeInfo : Fin n → TypeInfo I σ) : Bool :=
  (List.finRange n).all fun i => (typeInfo i).hash.isSome || (typeInfo i).autoshrinkConfig.enable

variable [Platform R]

/-- `theft_run_init`; `none` for `THEFT_RUN_INIT_ERROR_BAD_ARGS` -/
def runInit (memory : Memory) (cfg : Config I σ n) (user : σ) :
    Option (Runner I σ n × RunState R I σ n) :=
  if n = 0 then none
  else if checkAllArgs cfg.typeInfo then
    match cfg.prop with
    | none => none
    | some propFun =>
      let runSeed := if cfg.seed ≠ 0 then cfg.seed else defaultSeed
      let runner : Runner I σ n :=
        { name := cfg.name
          propFun := propFun
          trialCount := if cfg.trials = 0 then defTrials else cfg.trials
          typeInfo := cfg.typeInfo
          runSeed := runSeed
          alwaysSeeds := cfg.alwaysSeeds
          hooks := cfg.hooks
          filterMemory := memory.filter
          envMemory := memory.env }
      let prng : Prng R := ⟨Platform.rngReset defaultSeed, 0, 0, none⟩
      some (runner,
        { bloom := if allHashable cfg.typeInfo && memory.table then some (bloomInit none) else none
          prng := prng.setSeed runSeed
          ledger := ⟨0, []⟩
          counters := ⟨0, 0, 0, 0⟩
          trial := .start 0 0
          user := user
          trace := [] })
  else none

/-- `theft_run`: what the run came to; `none` for `THEFT_RUN_ERROR_BAD_ARGS` -/
def run (fuel : Nat) (memory : Memory) (cfg : Config I σ n) (user : σ) :
    Option (EStateM.Result Stop (RunState R I σ n) RunRes) :=
  (runInit memory cfg user).map fun (r, s) => runTrials fuel r s

/-! ## Generating one instance -/

/-- The configuration in `theft_generate` -/
def generateConfig (seed : Word) (info : TypeInfo I σ) : Config I σ 1 where
  name := some "generate"
  -- `should_not_run`
  prop := some fun _ u => .ret (.error, u)
  typeInfo := fun _ => info
  trials := 0
  seed := seed
  alwaysSeeds := []
  hooks := ⟨none, none, none, none, none, none, none, none, none⟩

/-- The part of `theft_generate` after the runner was set up. -/
def generateInstance (info : TypeInfo I σ) : Run R I σ 1 GenerateRes := do
  let (ares, inst) ← allocBasic 0 info.alloc
  match ares with
  | .skip => return .skip
  | .error => return .errorAlloc
  | .ok => do
    printInst info 0 inst
    freeWith info 0 inst
    return .ok

/-- `theft_generate`; `none` for `THEFT_GENERATE_ERROR_BAD_ARGS` -/
def generate (memory : Memory) (seed : Word) (info : TypeInfo I σ) (user : σ) :
    Option (EStateM.Result Stop (RunState R I σ 1) GenerateRes) :=
  (runInit memory (generateConfig seed info) user).map fun (_, s) => generateInstance info s

end

end Theft
