import Theft.Shrink

/-!
# One trial

`theft_trial.c`: the property is called with the generated arguments, a failure is shrunk and
reported, and in the end the arguments are freed.
-/

namespace Theft

open PackedBits Exec

section
variable {R I σ : Type} {n : Nat} [Platform R]

/-! ## Hooks -/

/-- `trial_post(hook_info, env)`. Without a hook the result is printed. -/
def trialPostHook (r : Runner I σ n) (info : TrialPostInfo I n) :
    Run R I σ n HookTrialPostRes :=
  match r.hooks.trialPost with
  | none => return .cont
  | some hook => ask (.trialPost info) .trialPostRes (hook info)

/-- `ti->print(f, instance, ti->env)`, if there is a callback -/
def printInst (info : TypeInfo I σ) (argI : Fin n) (inst : Option I) : Run R I σ n Unit :=
  match info.print with
  | none => return ()
  | some print => do
    record (.print argI inst)
    runPlain fun u => ((), print inst u)

/-- The part of `theft_print_counterexample` that calls back. -/
def printArgs (r : Runner I σ n) (args : Args I n) : List (Fin n) → Run R I σ n Unit
  | [] => return ()
  | argI :: rest => do
    printInst (r.typeInfo argI) argI (args argI)
    printArgs r args rest

/-- `counterexample(&counterexample_hook_info, env)`. Without a hook the arguments are printed. -/
def counterexampleHook (r : Runner I σ n) (info : CounterexampleInfo I n) :
    Run R I σ n HookCounterexampleRes :=
  match r.hooks.counterexample with
  | none => do
    printArgs r info.args (List.finRange n)
    return .cont
  | some hook => ask (.counterexample info) .counterexampleRes (hook info)

/-! ## Reporting a failure -/

/-- The loop of `report_on_failure` that runs a failed trial again, as long as the hook asks
for it. -/
def repeatFailure (r : Runner I σ n) (info : TrialPostInfo I n) :
    Nat → HookTrialPostRes → Run R I σ n HookTrialPostRes
  | _, .cont => return .cont
  | _, .error => return .error
  | 0, _ => throw .fuel
  | fuel + 1, _ => do
    match ← call r info.args true with
    | .fail => do
      let res ← trialPostHook r { info with repeat_ := true }
      if res = .repeatOnce then return res else repeatFailure r info fuel res
    | .pass => return .error
    | .error => return .error
    | .skip | .dup => return .cont

/-- What holds of every return, of the fuel's end, and of a call or a hook before what it holds
of, holds of the loop. -/
theorem repeatFailure_induct {P : Run R I σ n HookTrialPostRes → Prop} {r : Runner I σ n}
    {info : TrialPostInfo I n} (hpure : ∀ res, P (pure res)) (hthrow : P (throw .fuel))
    (hcall : ∀ k : TrialRes → Run R I σ n HookTrialPostRes, k .error = pure .error →
      (∀ res, P (k res)) → P (call r info.args true >>= k))
    (hhook : ∀ k : HookTrialPostRes → Run R I σ n HookTrialPostRes, k .error = pure .error →
      (∀ res, P (k res)) → P (trialPostHook r { info with repeat_ := true } >>= k))
    (fuel : Nat) : ∀ res, P (repeatFailure r info fuel res) := by
  induction fuel with
  | zero =>
    intro res
    cases res with
    | cont => exact hpure _
    | error => exact hpure _
    | repeat_ => exact hthrow
    | repeatOnce => exact hthrow
  | succ fuel ih =>
    have again (res : TrialRes) : P (match res with
        | .fail => do
          let res ← trialPostHook r { info with repeat_ := true }
          if res = .repeatOnce then return res else repeatFailure r info fuel res
        | .pass => return .error
        | .error => return .error
        | .skip | .dup => return .cont) := by
      cases res with
      | fail =>
        apply hhook _ (by cases fuel <;> rfl)
        intro answer
        split
        · exact hpure _
        · exact ih answer
      | pass => exact hpure _
      | error => exact hpure _
      | skip => exact hpure _
      | dup => exact hpure _
    intro res
    cases res with
    | cont => exact hpure _
    | error => exact hpure _
    | repeat_ => exact hcall _ rfl again
    | repeatOnce => exact hcall _ rfl again

/-- `report_on_failure` -/
def reportOnFailure (fuel : Nat) (r : Runner I σ n) (info : TrialPostInfo I n) :
    Run R I σ n HookTrialPostRes := do
  let s ← get
  let cinfo : CounterexampleInfo I n :=
    { propName := r.name
      totalTrials := r.trialCount
      trialId := s.trial.trial
      trialSeed := s.trial.seed
      arity := n
      args := info.args }
  match ← counterexampleHook r cinfo with
  | .error => return .error
  | .cont =>
    let res ← trialPostHook r info
    repeatFailure r info fuel res

/-! ## The trial -/

/-- What `theft_trial_run` does with the result of the first call. -/
def judgeTrial (fuel : Nat) (r : Runner I σ n) (info : TrialPostInfo I n) :
    Run R I σ n (Bool × HookTrialPostRes) := do
  match info.result with
  | .pass => do
    modifyCounters fun c => { c with pass := c.pass + 1 }
    let tpres ← trialPostHook r info
    return (decide (tpres ≠ .error), tpres)
  | .fail => do
    if ← shrink fuel r then
      modifyCounters fun c => { c with fail := c.fail + 1 }
      let args := (← get).trial.getArgs
      let tpres ← reportOnFailure fuel r { info with args := args }
      return (decide (tpres ≠ .error), tpres)
    else
      -- the arguments may be freed already
      let tpres ← trialPostHook r { info with result := .error, args := fun _ => none }
      return (false, tpres)
  | .skip => do
    modifyCounters fun c => { c with skip := c.skip + 1 }
    let tpres ← trialPostHook r info
    return (decide (tpres ≠ .error), tpres)
  | .dup | .error => do
    let tpres ← trialPostHook r info
    return (false, tpres)

/-- The arguments are marked as called, if there is a bloom filter. -/
def markTrial (r : Runner I σ n) : Run R I σ n Unit := do
  if (← get).bloom.isSome then callMarkCalled r else return ()

/-- `theft_trial_run`: whether the run goes on, and `*tpres` -/
def trialRun (fuel : Nat) (r : Runner I σ n) : Run R I σ n (Bool × HookTrialPostRes) := do
  require (0 < n) .assertion
  markTrial r
  let s ← get
  let args := s.trial.getArgs
  let tres ← call r args false
  judgeTrial fuel r
    { propName := r.name
      totalTrials := r.trialCount
      failures := 0
      runSeed := r.runSeed
      trialId := s.trial.trial
      trialSeed := s.trial.seed
      arity := n
      args := args
      result := tres
      repeat_ := false }

/-! ## Freeing the arguments -/

/-- `theft_autoshrink_free_env` -/
def freeEnv (env : AutoshrinkEnv) : Run R I σ n Unit := do
  freePoolIf env.bitPool
  modify fun s => { s with ledger := s.ledger.release (.env env.id) }

/-- The environment of an argument is freed, if it has one. -/
def freeEnvIf (env : Option AutoshrinkEnv) : Run R I σ n Unit :=
  match env with
  | none => return ()
  | some env => freeEnv env

/-- One round of `theft_trial_free_args` -/
def freeArg (r : Runner I σ n) (argI : Fin n) : Run R I σ n Unit := do
  let ai := (← get).trial.args argI
  freeEnvIf ai.env
  if ai.inst.isSome then freeInst r argI ai.inst else return ()

/-- `theft_trial_free_args` -/
def freeArgs (r : Runner I σ n) : List (Fin n) → Run R I σ n Unit
  | [] => return ()
  | argI :: rest => do
    freeArg r argI
    freeArgs r rest

end

end Theft
