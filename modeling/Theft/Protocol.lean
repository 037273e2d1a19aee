import Theft.Lib.Dialogue
import Theft.Run

/-!
# The protocol of the callbacks

What the author of callbacks may rely on: which callback is called when, what it is told, and
where its answers lead. `View` is what the callbacks can tell of the state of a run, and `Stage`
where in the run they are called. Nothing here says how theft computes; `protocol` is only what
can be seen of it.

Random bits are not seen, nor is the bloom filter, nor what memory there is. So the protocol leaves
it open what seed comes next, whether arguments are hashed, and which are taken for called. What is
done with each argument is done in their order, and once.
-/

namespace Theft

open PackedBits Dialogue

/-- What the callbacks can tell of a run. -/
structure View (I : Type) (n : Nat) where
  counters : RunReport
  trial : Nat
  seed : Word
  shrinkCount : Nat
  successfulShrinks : Nat
  failedShrinks : Nat
  args : Args I n

/-- A tactic tried on an argument that holds `current`. `progress` when an argument was shrunk
since the first one was last tried. -/
structure Attempt (I : Type) (n : Nat) where
  argI : Fin n
  tactic : Nat
  current : Option I
  progress : Bool

/-- What an answer of `trial_post` decides: whether the trial is an error; also whether the
property is called again, which it may have been already; or nothing. -/
inductive PostUse
  | trial
  | failure (repeated : Bool)
  | nothing (res : RunStepRes)
  deriving DecidableEq, Repr

/-- Where in the run the callbacks are called. -/
inductive Stage (I : Type) (n : Nat)
  | start
  | between (trial : Nat) (seed : Word)
  | begun
  | generating (argI : Nat)
  | allocated (argI : Fin n) (inst : Option I)
  | hashed
  | generated (res : AllGenRes)
  | running
  | calling
  | judged (res : TrialRes)
  | shrinking (argI : Nat) (progress : Bool)
  | attempting (argI : Fin n) (tactic : Nat) (progress : Bool)
  | asking (a : Attempt I n)
  | answered (a : Attempt I n) (res : ShrinkRes) (candidate : Option I)
  | offered (a : Attempt I n) (res : ShrinkRes) (candidate : Option I)
  | accepted (a : Attempt I n) (candidate : Option I)
  | checking (a : Attempt I n) (candidate : Option I)
  | checked (a : Attempt I n) (candidate : Option I)
  | trying (a : Attempt I n) (candidate : Option I) (repeated : Bool)
  | tried (a : Attempt I n) (candidate : Option I) (repeated : Bool) (res : TrialRes)
  | counted (a : Attempt I n) (candidate : Option I) (repeated : Bool) (res : TrialRes)
  | reverting (a : Attempt I n) (next : Stage I n)
  | freeing (argI : Fin n) (inst : Option I) (next : Stage I n)
  | hashing (argI : Nat) (next : Stage I n)
  | shrunk (done : Bool)
  | reporting (info : TrialPostInfo I n)
  | printing (argI : Nat) (info : TrialPostInfo I n)
  | posting (info : TrialPostInfo I n) (use : PostUse)
  | again (info : TrialPostInfo I n)
  | ended (res : RunStepRes)
  | releasing (argI : Nat) (res : RunStepRes)
  | freed (res : RunStepRes)
  | closing
  | finished (res : RunRes)

section
variable {R I σ : Type} {n : Nat}

/-- The view of a state. -/
def RunState.view (s : RunState R I σ n) : View I n where
  counters := s.counters
  trial := s.trial.trial
  seed := s.trial.seed
  shrinkCount := s.trial.shrinkCount
  successfulShrinks := s.trial.successfulShrinks
  failedShrinks := s.trial.failedShrinks
  args := s.trial.getArgs

/-- Nothing was called yet. -/
def View.initial : View I n := ⟨⟨0, 0, 0, 0⟩, 0, 0, 0, 0, 0, fun _ => none⟩

/-- A trial whose arguments are not there yet -/
def View.start (v : View I n) (trial : Nat) (seed : Word) : View I n :=
  ⟨v.counters, trial, seed, 0, 0, 0, fun _ => none⟩

def View.setArg (v : View I n) (argI : Fin n) (inst : Option I) : View I n :=
  { v with args := update v.args argI inst }

/-- The first call with a candidate is counted. -/
def View.countShrink (v : View I n) (repeated : Bool) (res : TrialRes) : View I n :=
  if repeated then v
  else if res = .fail then { v with successfulShrinks := v.successfulShrinks + 1 }
  else { v with failedShrinks := v.failedShrinks + 1 }

/-! ## What hooks are told -/

section
variable (r : Runner I σ n) (v : View I n)

def View.genArgsPreInfo : GenArgsPreInfo :=
  ⟨r.name, r.trialCount, v.trial, v.counters.fail, r.runSeed, v.seed, n⟩

def View.trialPreInfo : TrialPreInfo I n :=
  ⟨r.name, r.trialCount, v.trial, v.counters.fail, r.runSeed, v.seed, n, none⟩

/-- For a trial whose property was not called: the seed of the run is not told. -/
def View.uncalledInfo (res : TrialRes) : TrialPostInfo I n :=
  ⟨r.name, r.trialCount, v.trial, v.counters.fail, v.seed, v.seed, n, v.args, res, false⟩

/-- For a trial whose property was called: its number of failures is not told. -/
def View.calledInfo (res : TrialRes) : TrialPostInfo I n :=
  ⟨r.name, r.trialCount, v.trial, 0, r.runSeed, v.seed, n, v.args, res, false⟩

def View.counterexampleInfo (args : Args I n) : CounterexampleInfo I n :=
  ⟨r.name, r.trialCount, v.trial, v.seed, n, args⟩

def View.shrinkPreInfo (argI : Fin n) (tactic : Nat) : ShrinkPreInfo I :=
  ⟨r.name, r.trialCount, v.trial, v.counters.fail, r.runSeed, v.seed, n, v.shrinkCount,
    v.successfulShrinks, v.failedShrinks, argI, v.args argI, tactic⟩

def View.shrinkPostInfo (a : Attempt I n) (inst : Option I) (state : ShrinkPostState) :
    ShrinkPostInfo I :=
  ⟨r.name, r.trialCount, v.trial, r.runSeed, v.seed, n, v.shrinkCount, v.successfulShrinks,
    v.failedShrinks, a.argI, inst, a.tactic, state⟩

def View.shrinkTrialPostInfo (a : Attempt I n) (res : TrialRes) : ShrinkTrialPostInfo I n :=
  ⟨r.name, r.trialCount, v.trial, v.counters.fail, r.runSeed, v.seed, n, v.shrinkCount,
    v.successfulShrinks, v.failedShrinks, a.argI, v.args, a.tactic, res⟩

end

/-! ## Where answers lead -/

namespace Stage

def afterRunPre (seed : Word) : HookRunPreRes → Stage I n
  | .cont => between 0 seed
  | .error => finished .error

def afterRunPost (c : RunReport) : HookRunPostRes → Stage I n
  | .cont => finished (if 0 < c.fail then .fail else if 0 < c.pass then .pass else .skip)
  | .error => finished .error

def afterGenArgsPre : HookGenArgsPreRes → Stage I n
  | .cont => generating 0
  | .halt => freed .halt
  | .error => freed .genError

def afterAlloc (argI : Fin n) (inst : Option I) : AllocRes → Stage I n
  | .ok => allocated argI inst
  | .skip => generated .skip
  | .error => generated .error

def afterTrialPre : HookTrialPreRes → Stage I n
  | .cont => running
  | .halt => ended .halt
  | .error => ended .trialError

def afterTrialPost (info : TrialPostInfo I n) : PostUse → HookTrialPostRes → Stage I n
  | .nothing res, _ => ended res
  | .failure false, .repeat_ | .failure false, .repeatOnce | .failure true, .repeat_ => again info
  | _, .error => ended .trialError
  | _, _ => ended .ok

/-- After the property was called again: another result than the failure ends the trial. -/
def afterAgain (info : TrialPostInfo I n) : TrialRes → Stage I n
  | .fail => posting { info with repeat_ := true } (.failure true)
  | .skip | .dup => ended .ok
  | .pass | .error => ended .trialError

def afterCounterexample (info : TrialPostInfo I n) : HookCounterexampleRes → Stage I n
  | .cont => posting info (.failure false)
  | .error => ended .trialError

def afterShrinkPre (a : Attempt I n) : HookShrinkPreRes → Stage I n
  | .cont => asking a
  | .halt => shrunk true
  | .error => shrunk false

/-- The next tactic on the argument of an attempt -/
def next (a : Attempt I n) : Stage I n := attempting a.argI (a.tactic + 1) a.progress

def afterShrinkPost (a : Attempt I n) (res : ShrinkRes) (candidate : Option I) :
    HookShrinkPostRes → Stage I n
  | .error => freeing a.argI candidate (shrunk false)
  | .cont =>
    match res with
    | .ok => accepted a candidate
    | .deadEnd => next a
    | .noMoreTactics => shrinking (a.argI + 1) a.progress
    | .error => shrunk false

/-- The calls with a candidate have a result. -/
def settled (a : Attempt I n) (candidate : Option I) : TrialRes → Stage I n
  | .pass | .skip => reverting a (freeing a.argI candidate (next a))
  | .fail => freeing a.argI a.current (shrinking a.argI true)
  | .dup | .error => freeing a.argI a.current (shrunk false)

def afterShrinkTrialPost (a : Attempt I n) (candidate : Option I) (repeated : Bool)
    (res : TrialRes) : HookShrinkTrialPostRes → Stage I n
  | .repeat_ => trying a candidate true
  | .repeatOnce => if repeated then settled a candidate res else trying a candidate true
  | .cont => settled a candidate res
  | .error => freeing a.argI a.current (shrunk false)

end Stage

/-! ## The steps -/

/-- A stage of the run and what the callbacks can tell of it -/
abbrev Phase (I : Type) (n : Nat) := Stage I n × View I n

/-- Steps without a callback. Where no hook is installed the run goes on. -/
inductive SilentStep (r : Runner I σ n) : Phase I n → Phase I n → Prop
  | noRunPre {v} (h : r.hooks.runPre = none) :
      SilentStep r (.start, v) (.afterRunPre r.runSeed .cont, v)
  | trial {v k seed} (h : k < r.trialCount) :
      SilentStep r (.between k seed, v) (.begun, v.start k (stepSeed r k seed))
  | lastTrial {v seed} : SilentStep r (.between r.trialCount seed, v) (.closing, v)
  | noEnvironment {v} {argI : Fin n} (h : (r.typeInfo argI).autoshrinkConfig.enable = true) :
      SilentStep r (.begun, v) (.freed .genError, v)
  | noGenArgsPre {v} (h : r.hooks.genArgsPre = none) :
      SilentStep r (.begun, v) (.afterGenArgsPre .cont, v)
  | nextArg {v argI inst} :
      SilentStep r (.allocated argI inst, v) (.generating (argI + 1), v.setArg argI inst)
  | noMemory {v} {argI : Fin n} (h : (r.typeInfo argI).autoshrinkConfig.enable = true) :
      SilentStep r (.generating argI, v) (.generated .error, v)
  | allGenerated {v} : SilentStep r (.generating n, v) (.generated .ok, v)
  | hashGenerated {v} : SilentStep r (.generating n, v) (.hashing 0 .hashed, v)
  | original {v} : SilentStep r (.hashed, v) (.generated .ok, v)
  | duplicate {v} : SilentStep r (.hashed, v) (.generated .dup, v)
  | genSkip {v} : SilentStep r (.generated .skip, v) (.posting (v.uncalledInfo r .skip) .trial,
      { v with counters := { v.counters with skip := v.counters.skip + 1 } })
  | genDup {v} : SilentStep r (.generated .dup, v) (.posting (v.uncalledInfo r .dup) .trial,
      { v with counters := { v.counters with dup := v.counters.dup + 1 } })
  | genError {v} :
      SilentStep r (.generated .error, v)
        (.posting (v.uncalledInfo r .error) (.nothing .genError), v)
  | noTrialPre {v} (h : r.hooks.trialPre = none) :
      SilentStep r (.generated .ok, v) (.afterTrialPre .cont, v)
  | unmarked {v} : SilentStep r (.running, v) (.calling, v)
  | mark {v} : SilentStep r (.running, v) (.hashing 0 .calling, v)
  | passed {v} : SilentStep r (.judged .pass, v) (.posting (v.calledInfo r .pass) .trial,
      { v with counters := { v.counters with pass := v.counters.pass + 1 } })
  | skipped {v} : SilentStep r (.judged .skip, v) (.posting (v.calledInfo r .skip) .trial,
      { v with counters := { v.counters with skip := v.counters.skip + 1 } })
  | failed {v} : SilentStep r (.judged .fail, v) (.shrinking 0 false, v)
  | erred {v res} (h : res = .dup ∨ res = .error) :
      SilentStep r (.judged res, v) (.posting (v.calledInfo r res) (.nothing .trialError), v)
  | attempt {v} {argI : Fin n} {progress} (h : (r.typeInfo argI).shrink.isSome ∨
      (r.typeInfo argI).autoshrinkConfig.enable = true) :
      SilentStep r (.shrinking argI progress, v) (.attempting argI 0 progress, v)
  | unshrinkable {v} {argI : Fin n} {progress} (h : (r.typeInfo argI).shrink = none)
      (hnot : (r.typeInfo argI).autoshrinkConfig.enable = false) :
      SilentStep r (.shrinking argI progress, v) (.shrinking (argI + 1) progress, v)
  | anotherRound {v} : SilentStep r (.shrinking n true, v) (.shrinking 0 false, v)
  | minimal {v} : SilentStep r (.shrinking n false, v) (.shrunk true, v)
  | noShrinkPre {v argI tactic progress} (h : r.hooks.shrinkPre = none) :
      SilentStep r (.attempting argI tactic progress, v)
        (.asking ⟨argI, tactic, v.args argI, progress⟩, v)
  | lastTactic {v argI progress} : SilentStep r (.attempting argI maxTactics progress, v)
      (.shrinking (argI + 1) progress, v)
  | noCandidate {v res} {a : Attempt I n}
      (h : (r.typeInfo a.argI).autoshrinkConfig.enable = true) (hres : res ≠ .ok) :
      SilentStep r (.asking a, v) (.answered a res none, v)
  | countAttempt {v a res candidate} : SilentStep r (.answered a res candidate, v)
      (.offered a res candidate, { v with shrinkCount := v.shrinkCount + 1 })
  | noShrinkPost {v a res candidate} (h : r.hooks.shrinkPost = none) :
      SilentStep r (.offered a res candidate, v) (.afterShrinkPost a res candidate .cont, v)
  | exchange {v a candidate} :
      SilentStep r (.accepted a candidate, v) (.checking a candidate, v.setArg a.argI candidate)
  | unchecked {v a candidate} :
      SilentStep r (.checking a candidate, v) (.trying a candidate false, v)
  | check {v a candidate} :
      SilentStep r (.checking a candidate, v) (.hashing 0 (.checked a candidate), v)
  | called {v a candidate} : SilentStep r (.checked a candidate, v)
      (.freeing a.argI candidate (.reverting a (.next a)), v)
  | markCandidate {v a candidate} :
      SilentStep r (.checked a candidate, v) (.hashing 0 (.trying a candidate false), v)
  | count {v a candidate repeated res} : SilentStep r (.tried a candidate repeated res, v)
      (.counted a candidate repeated res, v.countShrink repeated res)
  | noShrinkTrialPost {v a candidate repeated res} (h : r.hooks.shrinkTrialPost = none) :
      SilentStep r (.counted a candidate repeated res, v) (.settled a candidate res, v)
  | revert {v next} {a : Attempt I n} :
      SilentStep r (.reverting a next, v) (next, v.setArg a.argI a.current)
  | noFree {v argI inst next} (h : (r.typeInfo argI).free = none) :
      SilentStep r (.freeing argI inst next, v) (next, v)
  | noHash {v next} {argI : Fin n} (h : (r.typeInfo argI).hash = none) :
      SilentStep r (.hashing argI next, v) (.hashing (argI + 1) next, v)
  | allHashed {v next} : SilentStep r (.hashing n next, v) (next, v)
  | report {v} : SilentStep r (.shrunk true, v) (.reporting (v.calledInfo r .fail),
      { v with counters := { v.counters with fail := v.counters.fail + 1 } })
  | lost {v} : SilentStep r (.shrunk false, v) (.posting
      { v.calledInfo r .error with args := fun _ => none } (.nothing .trialError), v)
  | noCounterexample {v info} (h : r.hooks.counterexample = none) :
      SilentStep r (.reporting info, v) (.printing 0 info, v)
  | noPrint {v info} {argI : Fin n} (h : (r.typeInfo argI).print = none) :
      SilentStep r (.printing argI info, v) (.printing (argI + 1) info, v)
  | allPrinted {v info} : SilentStep r (.printing n info, v) (.afterCounterexample info .cont, v)
  | noTrialPost {v info use} (h : r.hooks.trialPost = none) :
      SilentStep r (.posting info use, v) (.afterTrialPost info use .cont, v)
  | release {v res} : SilentStep r (.ended res, v) (.releasing 0 res, v)
  | noRelease {v res} {argI : Fin n} (h : (r.typeInfo argI).free = none ∨ v.args argI = none) :
      SilentStep r (.releasing argI res, v) (.releasing (argI + 1) res, v)
  | allReleased {v res} : SilentStep r (.releasing n res, v) (.freed res, v)
  | nextTrial {v seed} :
      SilentStep r (.freed .ok, v) (.between (v.trial + 1) seed, v.start 0 0)
  | halt {v} : SilentStep r (.freed .halt, v) (.closing, v.start 0 0)
  | stop {v res} (h : res = .genError ∨ res = .trialError) :
      SilentStep r (.freed res, v) (.finished .error, v.start 0 0)
  | noRunPost {v} (h : r.hooks.runPost = none) :
      SilentStep r (.closing, v) (.afterRunPost v.counters .cont, v)

/-- Callbacks without an answer -/
inductive NoticeStep (r : Runner I σ n) : Phase I n → Event I n → Phase I n → Prop
  | hash {v next} {argI : Fin n} (h : (r.typeInfo argI).hash.isSome) :
      NoticeStep r (.hashing argI next, v) (.hash argI (v.args argI)) (.hashing (argI + 1) next, v)
  | free {v argI inst next} (h : (r.typeInfo argI).free.isSome) :
      NoticeStep r (.freeing argI inst next, v) (.free argI inst) (next, v)
  | print {v info} {argI : Fin n} (h : (r.typeInfo argI).print.isSome) :
      NoticeStep r (.printing argI info, v) (.print argI (info.args argI))
        (.printing (argI + 1) info, v)
  | release {v res} {argI : Fin n} (h : (r.typeInfo argI).free.isSome)
      (harg : (v.args argI).isSome) :
      NoticeStep r (.releasing argI res, v) (.free argI (v.args argI))
        (.releasing (argI + 1) res, v)

/-- Callbacks with their answers. Except for `alloc`, what they answer is what they may. -/
inductive ExchangeStep (r : Runner I σ n) : Phase I n → Event I n → Event I n → Phase I n → Prop
  | runPre {v hook u res} (h : r.hooks.runPre = some hook)
      (hres : (hook ⟨r.name, r.trialCount, r.runSeed⟩ u).1 = res) :
      ExchangeStep r (.start, v) (.runPre ⟨r.name, r.trialCount, r.runSeed⟩) (.runPreRes res)
        (.afterRunPre r.runSeed res, v)
  | genArgsPre {v hook u res} (h : r.hooks.genArgsPre = some hook)
      (hres : (hook (v.genArgsPreInfo r) u).1 = res) :
      ExchangeStep r (.begun, v) (.genArgsPre (v.genArgsPreInfo r)) (.genArgsPreRes res)
        (.afterGenArgsPre res, v)
  | alloc {v res inst} {argI : Fin n} :
      ExchangeStep r (.generating argI, v) (.alloc argI) (.allocated res inst)
        (.afterAlloc argI inst res, v)
  | trialPre {v hook u res} (h : r.hooks.trialPre = some hook)
      (hres : (hook (v.trialPreInfo r) u).1 = res) :
      ExchangeStep r (.generated .ok, v) (.trialPre (v.trialPreInfo r)) (.trialPreRes res)
        (.afterTrialPre res, v)
  | call {v held res u u'} (hres : (r.propFun v.args u).Returns (res, u')) :
      ExchangeStep r (.calling, v) (.call v.args held false) (.returned res) (.judged res, v)
  | shrinkPre {v hook u res} {argI : Fin n} {tactic progress} (h : r.hooks.shrinkPre = some hook)
      (htactic : tactic < maxTactics)
      (hres : (hook (v.shrinkPreInfo r argI tactic) u).1 = res) :
      ExchangeStep r (.attempting argI tactic progress, v)
        (.shrinkPre (v.shrinkPreInfo r argI tactic)) (.shrinkPreRes res)
        (.afterShrinkPre ⟨argI, tactic, v.args argI, progress⟩ res, v)
  | shrink {v res candidate shrink u u'} {a : Attempt I n}
      (h : (r.typeInfo a.argI).shrink = some shrink)
      (hnot : (r.typeInfo a.argI).autoshrinkConfig.enable = false)
      (hres : (shrink a.current a.tactic u).Returns (res, candidate, u')) :
      ExchangeStep r (.asking a, v) (.shrink a.argI a.current a.tactic) (.shrunk res candidate)
        (.answered a res candidate, v)
  | allocShrunk {v res inst} {a : Attempt I n}
      (h : (r.typeInfo a.argI).autoshrinkConfig.enable = true) :
      ExchangeStep r (.asking a, v) (.alloc a.argI) (.allocated res.allocRes inst)
        (.answered a res (if res = .ok then inst else none), v)
  | shrinkPost {v hook u res state candidate answer} {a : Attempt I n}
      (h : r.hooks.shrinkPost = some hook) (hstate : shrinkPostState res = some state)
      (hanswer : (hook (v.shrinkPostInfo r a (if res = .ok then candidate else a.current) state)
        u).1 = answer) :
      ExchangeStep r (.offered a res candidate, v)
        (.shrinkPost (v.shrinkPostInfo r a (if res = .ok then candidate else a.current) state))
        (.shrinkPostRes answer) (.afterShrinkPost a res candidate answer, v)
  | callShrunk {v a candidate repeated held res u u'}
      (hres : (r.propFun v.args u).Returns (res, u')) :
      ExchangeStep r (.trying a candidate repeated, v) (.call v.args held repeated) (.returned res)
        (.tried a candidate repeated res, v)
  | shrinkTrialPost {v hook u a candidate repeated res answer}
      (h : r.hooks.shrinkTrialPost = some hook)
      (hanswer : (hook (v.shrinkTrialPostInfo r a res) u).1 = answer) :
      ExchangeStep r (.counted a candidate repeated res, v)
        (.shrinkTrialPost (v.shrinkTrialPostInfo r a res)) (.shrinkTrialPostRes answer)
        (.afterShrinkTrialPost a candidate repeated res answer, v)
  | counterexample {v info res hook u u'} (h : r.hooks.counterexample = some hook)
      (hres : (hook (v.counterexampleInfo r info.args) u).Returns (res, u')) :
      ExchangeStep r (.reporting info, v) (.counterexample (v.counterexampleInfo r info.args))
        (.counterexampleRes res) (.afterCounterexample info res, v)
  | trialPost {v info use res hook u u'} (h : r.hooks.trialPost = some hook)
      (hres : (hook info u).Returns (res, u')) :
      ExchangeStep r (.posting info use, v) (.trialPost info) (.trialPostRes res)
        (.afterTrialPost info use res, v)
  | callAgain {v held res u u'} {info : TrialPostInfo I n}
      (hres : (r.propFun info.args u).Returns (res, u')) :
      ExchangeStep r (.again info, v) (.call info.args held true) (.returned res)
        (.afterAgain info res, v)
  | runPost {v hook u res} (h : r.hooks.runPost = some hook)
      (hres : (hook ⟨r.name, r.trialCount, r.runSeed, v.counters⟩ u).1 = res) :
      ExchangeStep r (.closing, v) (.runPost ⟨r.name, r.trialCount, r.runSeed, v.counters⟩)
        (.runPostRes res) (.afterRunPost v.counters res, v)

/-- **The protocol of the callbacks.** -/
def protocol (r : Runner I σ n) : Protocol (Phase I n) (Event I n) where
  start := (.start, .initial)
  Silent := SilentStep r
  Notice := NoticeStep r
  Exchange := ExchangeStep r

end

end Theft
