import Theft.Runner

/-!
# Calling the property and shrinking its arguments

`theft_call.c` (without forking) and `theft_shrink.c`. `fuel` bounds the loops that theft does
not bound itself: the draws for a mutation, the repeats asked for by a hook, and the attempts
to shrink.
-/

namespace Theft

open PackedBits Exec

/-- `enum shrink_res`, the result of an attempt to shrink an argument -/
inductive AttemptRes
  | ok
  | deadEnd
  | error
  | halt
  deriving DecidableEq, Repr

/-- The bytes of a buffer of hashes. -/
def hashBytes (buffer : List Word) : List Byte :=
  buffer.flatMap fun h => (List.range 8).map fun k => h.extractLsb' (8 * k) 8

section
variable {R I σ : Type} {n : Nat} [Platform R]

/-! ## Calls -/

/-- `theft_call`, without forking. `rerun` is for the trace only. -/
def call (r : Runner I σ n) (args : Args I n) (rerun : Bool) : Run R I σ n TrialRes := do
  let s ← get
  ask (.call args s.trial.args rerun) .returned (r.propFun args)

/-- The hash of an argument, for `get_arg_hash_buffer` -/
def hashArg (r : Runner I σ n) (argI : Fin n) : Run R I σ n Word := do
  let arg := (← get).trial.args argI
  match (r.typeInfo argI).hash with
  | some hash => do
    record (.hash argI arg.inst)
    runPlain (hash arg.inst)
  | none =>
    match arg.env with
    | some env => attempt (autoshrinkHash env)
    | none => throw .outOfBounds

/-- `get_arg_hash_buffer` -/
def getArgHashBuffer (r : Runner I σ n) : List (Fin n) → Run R I σ n (List Word)
  | [] => return []
  | argI :: rest => do
    let h ← hashArg r argI
    let hs ← getArgHashBuffer r rest
    return h :: hs

/-- `theft_call_check_called` -/
def callCheckCalled (r : Runner I σ n) : Run R I σ n Bool := do
  let buffer ← getArgHashBuffer r (List.finRange n)
  match (← get).bloom with
  | none => throw .outOfBounds
  | some bloom => attempt (bloomCheck bloom (hashBytes buffer))

/-- `theft_call_mark_called` -/
def callMarkCalled (r : Runner I σ n) : Run R I σ n Unit := do
  let buffer ← getArgHashBuffer r (List.finRange n)
  match (← get).bloom with
  | none => throw .outOfBounds
  | some bloom => do
    let (_, bloom) ← attempt (bloomMark r.filterMemory bloom (hashBytes buffer))
    modify fun s => { s with bloom := some bloom }

/-! ## Hooks of the shrinking loop -/

/-- `shrink_pre_hook` -/
def shrinkPreHook (r : Runner I σ n) (argIndex : Fin n) (arg : Option I) (tactic : Nat) :
    Run R I σ n HookShrinkPreRes := do
  let s ← get
  let info : ShrinkPreInfo I :=
    { propName := r.name
      totalTrials := r.trialCount
      failures := s.counters.fail
      runSeed := r.runSeed
      trialId := s.trial.trial
      trialSeed := s.trial.seed
      arity := n
      shrinkCount := s.trial.shrinkCount
      successfulShrinks := s.trial.successfulShrinks
      failedShrinks := s.trial.failedShrinks
      argIndex := argIndex
      arg := arg
      tactic := tactic }
  askHook r.hooks.shrinkPre info .cont (.shrinkPre info) .shrinkPreRes

/-- The state that `shrink_post_hook` reports; an error has none. -/
def shrinkPostState : ShrinkRes → Option ShrinkPostState
  | .ok => some .shrunk
  | .noMoreTactics => some .doneShrinking
  | .deadEnd => some .shrinkFailed
  | .error => none

/-- `shrink_post_hook` -/
def shrinkPostHook (r : Runner I σ n) (argIndex : Fin n) (arg : Option I) (tactic : Nat)
    (sres : ShrinkRes) : Run R I σ n HookShrinkPostRes :=
  match r.hooks.shrinkPost with
  | none => return .cont
  | some hook =>
    match shrinkPostState sres with
    | none => throw .assertion
    | some state => do
      let s ← get
      let info : ShrinkPostInfo I :=
        { propName := r.name
          totalTrials := r.trialCount
          runSeed := r.runSeed
          trialId := s.trial.trial
          trialSeed := s.trial.seed
          arity := n
          shrinkCount := s.trial.shrinkCount
          successfulShrinks := s.trial.successfulShrinks
          failedShrinks := s.trial.failedShrinks
          argIndex := argIndex
          arg := arg
          tactic := tactic
          state := state }
      askHook (some hook) info .cont (.shrinkPost info) .shrinkPostRes

/-- `shrink_trial_post_hook` -/
def shrinkTrialPostHook (r : Runner I σ n) (argIndex : Fin n) (args : Args I n) (lastTactic : Nat)
    (result : TrialRes) : Run R I σ n HookShrinkTrialPostRes := do
  let s ← get
  let info : ShrinkTrialPostInfo I n :=
    { propName := r.name
      totalTrials := r.trialCount
      failures := s.counters.fail
      runSeed := r.runSeed
      trialId := s.trial.trial
      trialSeed := s.trial.seed
      arity := n
      shrinkCount := s.trial.shrinkCount
      successfulShrinks := s.trial.successfulShrinks
      failedShrinks := s.trial.failedShrinks
      argIndex := argIndex
      args := args
      tactic := lastTactic
      result := result }
  askHook r.hooks.shrinkTrialPost info .cont (.shrinkTrialPost info) .shrinkTrialPostRes

/-! ## One attempt -/

/-- What `alloc` answered, when a shrinking step ran it. -/
def ShrinkRes.allocRes : ShrinkRes → AllocRes
  | .ok => .ok
  | .deadEnd => .skip
  | .noMoreTactics => .error
  | .error => .error

/-- The call of `theft_autoshrink_shrink`: the result, the candidate and its pool -/
def autoshrinkCandidate (fuel : Nat) (r : Runner I σ n) (argI : Fin n) (tactic : Nat) :
    Run R I σ n (ShrinkRes × Option I × Option BitPool) := do
  let s ← get
  match (s.trial.args argI).env with
  | none => throw .assertion
  | some env => do
    let (sres, res, pool) ← zoomEnv argI env
      (autoshrinkShrink fuel ((r.typeInfo argI).alloc s.user) tactic)
    match res with
    | none => return (sres, none, none)
    | some (inst, user) => do
      record (.alloc argI)
      record (.allocated sres.allocRes inst)
      modify fun s => { s with user := user }
      return (sres, if sres = .ok then inst else none, pool)

/-- The call of the type's `shrink` callback -/
def userCandidate (r : Runner I σ n) (argI : Fin n) (current : Option I) (tactic : Nat) :
    Run R I σ n (ShrinkRes × Option I × Option BitPool) :=
  match (r.typeInfo argI).shrink with
  | none => throw .outOfBounds
  | some shrink => do
    let (sres, candidate) ← ask (.shrink argI current tactic) (fun a => .shrunk a.1 a.2) fun u =>
      (shrink current tactic u).map fun (sres, candidate, u) => ((sres, candidate), u)
    return (sres, candidate, none)

/-- The pool in the environment of an argument. -/
def currentPool (argI : Fin n) : Run R I σ n (Option BitPool) := do
  return ((← get).trial.args argI).env.bind AutoshrinkEnv.bitPool

/-- `theft_autoshrink_free_bit_pool(t, pool)`, which asserts that there is a pool -/
def freePoolPtr (pool : Option BitPool) : Run R I σ n Unit :=
  match pool with
  | none => throw .assertion
  | some pool => freePool pool

/-- The same where there may be no pool -/
def freePoolIf (pool : Option BitPool) : Run R I σ n Unit :=
  match pool with
  | none => return ()
  | some pool => freePool pool

/-- Steps for an argument that is autoshrunk. -/
def ifAutoshrink (r : Runner I σ n) (argI : Fin n) (m : Run R I σ n Unit) : Run R I σ n Unit :=
  if (r.typeInfo argI).autoshrinkConfig.enable then m else return ()

/-- `theft_autoshrink_update_model` -/
def autoshrinkUpdateModel (r : Runner I σ n) (argI : Fin n) (res : TrialRes) (adjustment : Byte) :
    Run R I σ n Unit :=
  ifAutoshrink r argI do
    modifyTrial fun t => t.modifyArg argI fun a =>
      { a with env := a.env.map fun env => { env with model := updateModel env.model res adjustment } }

/-- The first call with a candidate is counted. -/
def countShrink (r : Runner I σ n) (argI : Fin n) (res : TrialRes) (repeated : Bool) :
    Run R I σ n Unit :=
  if repeated then return ()
  else if res = .fail then do
    modifyTrial fun t => { t with successfulShrinks := t.successfulShrinks + 1 }
    autoshrinkUpdateModel r argI res 3
  else modifyTrial fun t => { t with failedShrinks := t.failedShrinks + 1 }

/-- The loop that calls the property with a candidate, again as long as a hook asks for it;
`none` when the hook answers an error. -/
def shrinkTrials (r : Runner I σ n) (argI : Fin n) (tactic : Nat) :
    Nat → Bool → Run R I σ n (Option TrialRes)
  | 0, _ => throw .fuel
  | fuel + 1, repeated => do
    let args := (← get).trial.getArgs
    let res ← call r args repeated
    countShrink r argI res repeated
    let stpres ← shrinkTrialPostHook r argI args tactic res
    match stpres with
    | .repeat_ => shrinkTrials r argI tactic fuel true
    | .repeatOnce => if repeated then return some res else shrinkTrials r argI tactic fuel true
    | .cont => return some res
    | .error => return none

/-- What `shrinkTrials` does once the property was called, with the rest of the loop. -/
def afterShrinkTrial (r : Runner I σ n) (argI : Fin n) (tactic : Nat) (args : Args I n)
    (again : Run R I σ n (Option TrialRes)) (repeated : Bool) (res : TrialRes) :
    Run R I σ n (Option TrialRes) := do
  countShrink r argI res repeated
  let stpres ← shrinkTrialPostHook r argI args tactic res
  match stpres with
  | .repeat_ => again
  | .repeatOnce => if repeated then return some res else again
  | .cont => return some res
  | .error => return none

theorem shrinkTrials_succ (r : Runner I σ n) (argI : Fin n) (tactic fuel : Nat) (repeated : Bool)
    (s : RunState R I σ n) : shrinkTrials r argI tactic (fuel + 1) repeated s =
      (call r s.trial.getArgs repeated >>= afterShrinkTrial r argI tactic s.trial.getArgs
        (shrinkTrials r argI tactic fuel true) repeated) s := rfl

/-- A candidate is given up: the argument is what it was, and the candidate is freed. The two
places of the source differ in the order of the two calls of `free`. -/
def revertPool (r : Runner I σ n) (argI : Fin n) (currentPool candidatePool : Option BitPool) :
    Run R I σ n Unit :=
  ifAutoshrink r argI do
    setPool argI currentPool
    freePoolPtr candidatePool

/-- Whether the candidate was already called; otherwise it is marked as called. -/
def skipCalled (r : Runner I σ n) : Run R I σ n Bool := do
  if (← get).bloom.isSome then
    if ← callCheckCalled r then return true
    else
      callMarkCalled r
      return false
  else return false

/-- The part of `attempt_to_shrink_arg` that judges the calls with a candidate; `none` when the
next tactic is to be tried. -/
def judgeCandidate (r : Runner I σ n) (argI : Fin n) (current candidate : Option I)
    (currentPool candidatePool : Option BitPool) (res : TrialRes) :
    Run R I σ n (Option AttemptRes) := do
  autoshrinkUpdateModel r argI res 8
  match res with
  | .pass | .skip =>
    setInst argI current
    revertPool r argI currentPool candidatePool
    freeInst r argI candidate
    return none
  | .fail =>
    -- nothing moves the candidate after `tryCandidate` put it in place, so the two assertions of
    -- the source, which compare its pointer and that of its pool, hold here
    ifAutoshrink r argI (freePoolPtr currentPool)
    freeInst r argI current
    return some .ok
  | .dup | .error =>
    freeInst r argI current
    ifAutoshrink r argI (freePoolPtr currentPool)
    return some .error

/-- The part of `attempt_to_shrink_arg` that tries a candidate. -/
def tryCandidate (fuel : Nat) (r : Runner I σ n) (argI : Fin n) (tactic : Nat)
    (current candidate : Option I) (currentPool candidatePool : Option BitPool) :
    Run R I σ n (Option AttemptRes) := do
  setInst argI candidate
  ifAutoshrink r argI (setPool argI candidatePool)
  if ← skipCalled r then
    freeInst r argI candidate
    revertPool r argI currentPool candidatePool
    setInst argI current
    return none
  else
    match ← shrinkTrials r argI tactic fuel false with
    | some res => judgeCandidate r argI current candidate currentPool candidatePool res
    | none =>
      freeInst r argI current
      ifAutoshrink r argI (freePoolIf currentPool)
      return some .error

/-- One tactic of `attempt_to_shrink_arg`; `none` when the next one is to be tried. -/
def attemptTactic (fuel : Nat) (r : Runner I σ n) (argI : Fin n) (tactic : Nat) :
    Run R I σ n (Option AttemptRes) := do
  let current := ((← get).trial.args argI).inst
  match ← shrinkPreHook r argI current tactic with
  | .halt => return some .halt
  | .error => return some .error
  | .cont =>
    let (sres, candidate, candidatePool) ←
      (if (r.typeInfo argI).autoshrinkConfig.enable then autoshrinkCandidate fuel r argI tactic
        else userCandidate r argI current tactic)
    let currentPool ← currentPool argI
    modifyTrial fun t => { t with shrinkCount := t.shrinkCount + 1 }
    match ← shrinkPostHook r argI (if sres = .ok then candidate else current) tactic sres with
    | .error =>
      freeInst r argI candidate
      freePoolIf candidatePool
      return some .error
    | .cont =>
      match sres with
      | .ok => tryCandidate fuel r argI tactic current candidate currentPool candidatePool
      | .deadEnd => return none
      | .noMoreTactics => return some .deadEnd
      | .error => return some .error

/-- `THEFT_MAX_TACTICS` -/
def maxTactics : Nat := 2 ^ 32 - 1

/-- The loop of `attempt_to_shrink_arg` over the tactics that are left. -/
def attemptTactics (fuel : Nat) (r : Runner I σ n) (argI : Fin n) :
    Nat → Nat → Run R I σ n AttemptRes
  | 0, _ => return .deadEnd
  | left + 1, tactic => do
    match ← attemptTactic fuel r argI tactic with
    | some res => return res
    | none => attemptTactics fuel r argI left (tactic + 1)

/-- `attempt_to_shrink_arg` -/
def attemptToShrinkArg (fuel : Nat) (r : Runner I σ n) (argI : Fin n) : Run R I σ n AttemptRes :=
  attemptTactics fuel r argI maxTactics 0

/-! ## Shrinking -/

/-- The two loops of `theft_shrink`, from an argument on. -/
def shrinkFrom (inner : Nat) (r : Runner I σ n) : Nat → Nat → Bool → Run R I σ n Bool
  | 0, _, _ => throw .fuel
  | fuel + 1, argI, progress =>
    if h : argI < n then
      if (r.typeInfo ⟨argI, h⟩).shrink.isSome ∨
          (r.typeInfo ⟨argI, h⟩).autoshrinkConfig.enable = true then do
        match ← attemptToShrinkArg inner r ⟨argI, h⟩ with
        | .ok => shrinkFrom inner r fuel argI true
        | .halt => return true
        | .deadEnd => shrinkFrom inner r fuel (argI + 1) progress
        | .error => return false
      else shrinkFrom inner r fuel (argI + 1) progress
    else if progress then shrinkFrom inner r fuel 0 false
    else return true

/-- `theft_shrink` -/
def shrink (fuel : Nat) (r : Runner I σ n) : Run R I σ n Bool := do
  require (0 < n) .assertion
  shrinkFrom fuel r fuel 0 false

end

end Theft
