import Theft.Autoshrink

/-!
# Calling the property in a child process

`theft_call.c` with `t->fork.enable`. The parent asks the system for processes and pipes; what
the children do and how the system answers is decided by an environment, one `Turn` for each
system call. Children take steps whenever the parent makes one, and each is known by the number
of the `fork` that made it, since their process IDs may be used again.
-/

namespace Theft

open Exec

/-! ## Processes -/

/-- `errno`, as far as the code tells its values apart -/
inductive Errno
  | eagain
  | eintr
  | echild
  | esrch
  | other
  deriving DecidableEq, Repr

/-- `wstatus`: an exit status, or the signal that killed the process -/
inductive ExitStatus
  | exited (status : Nat)
  | signaled (signal : Nat)
  deriving DecidableEq, Repr

/-- `EXIT_SUCCESS` -/
def exitSuccess : Nat := 0

/-- `EXIT_FAILURE` -/
def exitFailure : Nat := 1

/-- `SIGTERM`, which is `DEF_KILL_SIGNAL` -/
def sigterm : Nat := 15

/-- `ESRCH`, as a number -/
def esrch : Int := 3

/-- The number behind a name of `enum theft_trial_res` -/
def TrialRes.code : TrialRes → Nat
  | .pass => 0
  | .fail => 1
  | .skip => 2
  | .dup => 3
  | .error => 4

/-- A child process until it is reaped: the result that it wrote, and how it ended. -/
structure Child where
  id : Nat
  pid : Nat
  sent : Option TrialRes
  status : Option ExitStatus
  deriving DecidableEq, Repr

/-- A step of a child.

* `returned`: the property, or `fork_post`, came to a result, and its byte was written;
* `finished`: the child exits after it wrote its result;
* `died`: it crashes, exits or is killed at any other moment;
* `vanished`: it has ended, and was reaped by something else than `theft_call`. -/
inductive ChildEvent
  | returned (id : Nat) (res : TrialRes)
  | finished (id : Nat)
  | died (id : Nat) (status : ExitStatus)
  | vanished (id : Nat)
  deriving DecidableEq, Repr

/-- The status with which the child exits after its result: success for a property that passed. -/
def childStatus (res : TrialRes) : ExitStatus :=
  .exited (if res = .pass then exitSuccess else exitFailure)

/-! ## System calls -/

/-- The system calls of `theft_call`. Its second `kill`, with `SIGKILL`, is named apart. -/
inductive Syscall
  | pipe
  | fork
  | waitpid
  | nanosleep
  | poll
  | read
  | kill (pid signal : Nat)
  | sigkill (pid : Nat)
  deriving DecidableEq, Repr

inductive Answer
  | failed (errno : Errno)
  | done
  | forked (id pid : Nat)
  | reaped (id pid : Nat) (status : ExitStatus)
  | noChange
  | ready
  | timeout
  | byte (res : TrialRes)
  | eof
  deriving DecidableEq, Repr

/-- What happened, in the order in which it did. -/
inductive ForkEvent
  | child (event : ChildEvent)
  | sys (call : Syscall) (answer : Answer)
  deriving DecidableEq, Repr

/-- `enum worker_state` -/
inductive WorkerState
  | inactive
  | active
  | stopped
  deriving DecidableEq, Repr

/-- `struct worker_info`. Its pipe is in the `World`. -/
structure WorkerInfo where
  state : WorkerState
  pid : Nat
  wstatus : ExitStatus
  deriving DecidableEq, Repr

/-- A pipe for one byte, and the child that holds its other end. -/
structure Pipe where
  writer : Option Nat
  byte : Option TrialRes
  deriving DecidableEq, Repr

/-- The parent's worker and pipe, and the children that are not reaped. `asked` counts the turns
of the environment; the trace has the newest event first. -/
structure World where
  asked : Nat
  children : List Child
  nextId : Nat
  pipe : Pipe
  worker : WorkerInfo
  trace : List ForkEvent
  deriving DecidableEq, Repr

/-- A turn of the environment: what children do before the system call is answered, whether the
call fails, whether the time of a `poll` has expired, which of the children that ended `waitpid`
reports, and the process ID of a new child. -/
structure Turn where
  events : List ChildEvent
  fault : Option Errno
  expired : Bool
  pick : Nat
  pid : Nat
  deriving DecidableEq, Repr

/-- Some turns, after which nothing more happens. -/
def scripted (turns : List Turn) (n : Nat) : Turn := turns.getD n ⟨[], none, false, 0, 0⟩

/-- Programs of the parent process. -/
abbrev Parent := EStateM Stop World

namespace World

/-- A child is changed. -/
def setChild (w : World) (id : Nat) (f : Child → Child) : World :=
  { w with children := w.children.map fun c => if c.id = id then f c else c }

/-- The child that has not ended. -/
def running (w : World) (id : Nat) : Option Child :=
  w.children.find? fun c => c.id = id && c.status.isNone

def log (w : World) (event : ForkEvent) : World := { w with trace := event :: w.trace }

/-- The child writes its result. -/
def writeByte (w : World) (id : Nat) (res : TrialRes) : World :=
  let w := w.setChild id fun c => { c with sent := some res }
  if w.pipe.writer = some id then { w with pipe := { w.pipe with byte := some res } } else w

/-- The child ends, and its end of the pipe is closed. -/
def endChild (w : World) (id : Nat) (status : ExitStatus) : World :=
  let w := w.setChild id fun c => { c with status := some status }
  if w.pipe.writer = some id then { w with pipe := { w.pipe with writer := none } } else w

/-- A child that ended is gone. -/
def reap (w : World) (id : Nat) : World :=
  { w with children := w.children.filter fun c => c.id ≠ id }

/-- A step of a child, which is none where the child cannot take it. -/
def childEvent (w : World) (event : ChildEvent) : World :=
  match event with
  | .returned id res =>
    match w.running id with
    | none => w
    | some c =>
      if c.sent.isSome then w else (w.writeByte id res).log (.child event)
  | .finished id =>
    match w.running id with
    | none => w
    | some c =>
      match c.sent with
      | none => w
      | some res => (w.endChild id (childStatus res)).log (.child event)
  | .died id status =>
    match w.running id with
    | none => w
    | some _ => (w.endChild id status).log (.child event)
  | .vanished id =>
    if w.children.any fun c => c.id = id && c.status.isSome then (w.reap id).log (.child event)
    else w

/-- `fork` makes a child, which holds the other end of the pipe. -/
def spawn (w : World) (pid : Nat) : World :=
  { w with
    children := ⟨w.nextId, pid, none, none⟩ :: w.children
    nextId := w.nextId + 1
    pipe := { w.pipe with writer := some w.nextId } }

/-- The part of `step_waitpid` that saves the status of a worker -/
def saveStatus (w : World) (pid : Nat) (wstatus : ExitStatus) : World :=
  if pid = w.worker.pid then
    { w with worker := { w.worker with state := .stopped, wstatus := wstatus } }
  else w

/-- Before the first call. -/
def start : World := ⟨0, [], 0, ⟨none, none⟩, ⟨.inactive, 0, .exited exitSuccess⟩, []⟩

end World

section
variable (env : Nat → Turn)

/-- The environment takes its turn. -/
def takeTurn : Parent Turn := do
  let w ← get
  set ((env w.asked).events.foldl World.childEvent { w with asked := w.asked + 1 })
  return env w.asked

def answered (call : Syscall) (answer : Answer) : Parent Answer := do
  modify fun w => w.log (.sys call answer)
  return answer

/-- A system call that may fail, and changes nothing else. -/
def plainCall (call : Syscall) : Parent Answer := do
  let turn ← takeTurn env
  answered call (turn.fault.elim .done .failed)

/-- `nanosleep` -/
def nanosleep : Parent Answer := plainCall env .nanosleep

/-- `pipe(t->workers[0].fds)` -/
def pipe : Parent Answer := do
  let answer ← plainCall env .pipe
  modify fun w => { w with pipe := ⟨none, none⟩ }
  return answer

/-- A process ID that no child has. -/
def freshPid (children : List Child) (pid : Nat) : Nat :=
  if children.any (·.pid = pid) then (children.map Child.pid).max?.getD 0 + 1 else pid

/-- `fork` -/
def fork : Parent Answer := do
  let turn ← takeTurn env
  match turn.fault with
  | some e => answered .fork (.failed e)
  | none => do
    let w ← get
    let pid := freshPid w.children turn.pid
    set (w.spawn pid)
    answered .fork (.forked w.nextId pid)

/-- `waitpid(-1, &wstatus, WNOHANG)`. `ECHILD` is the answer when there are no children. -/
def waitpid : Parent Answer := do
  let turn ← takeTurn env
  match turn.fault.filter (· ≠ .echild) with
  | some e => answered .waitpid (.failed e)
  | none => do
    let w ← get
    let ended := w.children.filter fun c => c.status.isSome
    match ended[turn.pick % ended.length]? with
    | some c => do
      set (w.reap c.id)
      answered .waitpid (.reaped c.id c.pid (c.status.getD (.exited exitSuccess)))
    | none => answered .waitpid (if w.children = [] then .failed .echild else .noChange)

/-- `kill`: 0, or -1 when there is no such process -/
def kill (call : Syscall) (pid : Nat) : Parent Int := do
  let turn ← takeTurn env
  let w ← get
  let answer : Answer := match turn.fault with
    | some e => .failed e
    | none => if w.children.any (·.pid = pid) then .done else .failed .esrch
  let answer ← answered call answer
  return if answer = .done then 0 else -1

/-- `read` from the pipe, which after `poll` has a byte or is closed -/
def read : Parent Answer := do
  let turn ← takeTurn env
  match turn.fault with
  | some e => answered .read (.failed e)
  | none => do
    let w ← get
    answered .read (w.pipe.byte.elim .eof .byte)

/-- `poll` for the pipe. A negative timeout never expires. -/
def poll (timeout : Int) : Nat → Parent Answer
  | 0 => throw .fuel
  | fuel + 1 => do
    let turn ← takeTurn env
    match turn.fault with
    | some e => answered .poll (.failed e)
    | none => do
      let w ← get
      if w.pipe.byte.isSome || w.pipe.writer.isNone then answered .poll .ready
      else if 0 ≤ timeout && turn.expired then answered .poll .timeout
      else poll timeout fuel

/-! ## Waiting for children -/

/-- `step_waitpid`. The loop returns a member of `enum theft_trial_res` as a `bool`. -/
def stepWaitpid : Nat → Parent Bool
  | 0 => throw .fuel
  | fuel + 1 => do
    match ← waitpid env with
    | .failed .echild => return true
    | .failed _ => return decide (TrialRes.error.code ≠ 0)
    | .reaped _ pid wstatus => do
      modify fun w => w.saveStatus pid wstatus
      stepWaitpid fuel
    | _ => return true

/-- The part of a round of `wait_for_exit` that sends `SIGKILL` -/
def killInRound (timeout killTimeout i : Nat) : Parent Bool :=
  if i = timeout then do
    require (0 < killTimeout) .assertion
    let pid := (← get).worker.pid
    let killRes ← kill env (.sigkill pid) pid
    if killRes = -1 then return decide (killRes = esrch) else return true
  else return true

/-- The loop of `wait_for_exit`, with the rounds that are left. -/
def waitRounds (fuel timeout killTimeout : Nat) : Nat → Nat → Parent Bool
  | 0, _ => return true
  | left + 1, i => do
    if ← stepWaitpid env fuel then
      if (← get).worker.state = .stopped then return true
      else if ← killInRound env timeout killTimeout i then
        match ← nanosleep env with
        | .failed _ => return false
        | _ => waitRounds fuel timeout killTimeout left (i + 1)
      else return false
    else return false

/-- `wait_for_exit`; the sum is one of `size_t`. -/
def waitForExit (fuel timeout killTimeout : Nat) : Parent Bool :=
  waitRounds env fuel timeout killTimeout ((timeout + killTimeout) % 2 ^ 64) 0

/-! ## The call -/

/-- `struct fork_info` -/
structure ForkInfo where
  timeout : Nat
  signal : Nat
  exitTimeout : Nat
  deriving DecidableEq, Repr

/-- `THEFT_DEF_EXIT_TIMEOUT_MSEC` -/
def defExitTimeoutMsec : Nat := 100

/-- `kill_time` -/
def killTime : Nat := 10

namespace ForkInfo

/-- `timeout_msec` -/
def timeoutMsec (fork : ForkInfo) : Nat :=
  if fork.exitTimeout = 0 then defExitTimeoutMsec else fork.exitTimeout

def killSignal (fork : ForkInfo) : Nat := if fork.signal = 0 then sigterm else fork.signal

/-- The timeout that `poll` gets, an `int` -/
def pollTimeout (fork : ForkInfo) : Int :=
  if (BitVec.ofNat 32 fork.timeout).toInt = 0 then -1 else (BitVec.ofNat 32 fork.timeout).toInt

end ForkInfo

/-- The loop around `poll` -/
def pollRetry (timeout : Int) : Nat → Parent Answer
  | 0 => throw .fuel
  | fuel + 1 => do
    match ← poll env timeout (fuel + 1) with
    | .failed .eagain | .failed .eintr => pollRetry timeout fuel
    | answer => return answer

/-- The loop around `read` -/
def readRetry : Nat → Parent Answer
  | 0 => throw .fuel
  | fuel + 1 => do
    match ← read env with
    | .failed .eintr => readRetry fuel
    | answer => return answer

/-- The part of `parent_handle_child_call` after a timeout -/
def handleTimeout (fuel : Nat) (fork : ForkInfo) (pid : Nat) : Parent TrialRes := do
  if (← kill env (.kill pid fork.killSignal) pid) = -1 then return .error
  else if ← waitForExit env fuel fork.timeoutMsec killTime then
    let worker := (← get).worker
    return if worker.state = .stopped ∧ worker.wstatus = .exited exitSuccess then .pass else .fail
  else return .error

/-- `parent_handle_child_call` -/
def parentHandleChildCall (fuel : Nat) (fork : ForkInfo) (pid : Nat) : Parent TrialRes := do
  match ← pollRetry env fork.pollTimeout fuel with
  | .failed _ => return .error
  | .timeout => handleTimeout env fuel fork pid
  | _ =>
    match ← readRetry env fuel with
    | .byte res => return res
    | .eof => return .fail
    | _ => return .error

/-- The end of `parent_handle_child_call`: the result that the child wrote -/
def receiveResult (fuel : Nat) : Parent TrialRes := do
  match ← readRetry env fuel with
  | .byte res => return res
  | .eof => return .fail
  | _ => return .error

/-- The loop around `fork`, with `tv.tv_nsec`; `none` when it gives up. -/
def forkRetry (fuel : Nat) : Nat → Nat → Parent (Option Nat)
  | 0, _ => throw .fuel
  | left + 1, nsec => do
    match ← fork env with
    | .forked _ pid => return some pid
    | .failed .eagain => do
      if ← stepWaitpid env fuel then
        match ← nanosleep env with
        | .failed _ => return none
        | _ => if 2 ^ 10 ≤ nsec then return none else forkRetry fuel left (2 * nsec)
      else return none
    | _ => return none

/-- The parent's branch of `theft_call`, after `fork` -/
def callParent (fuel : Nat) (fork : ForkInfo) (pid : Nat) : Parent TrialRes := do
  modify fun w => { w with worker := { w.worker with state := .active, pid := pid } }
  let res ← parentHandleChildCall env fuel fork pid
  modify fun w => { w with worker := { w.worker with state := .inactive } }
  if ← stepWaitpid env fuel then return res else return .error

/-- `theft_call`, with forking -/
def callForked (fuel : Nat) (fork : ForkInfo) : Parent TrialRes := do
  match ← pipe env with
  | .failed _ => return .error
  | _ =>
    match ← forkRetry env fuel fuel 1 with
    | none => return .error
    | some pid => callParent env fuel fork pid

/-- `theft_call` once there is a pipe -/
def forkAndCall (fuel : Nat) (fork : ForkInfo) : Parent TrialRes := do
  match ← forkRetry env fuel fuel 1 with
  | none => return .error
  | some pid => callParent env fuel fork pid

/-- A call of `theft_call` that returned, and the events during it, the newest first. -/
structure Call (fork : ForkInfo) (w : World) (new : List ForkEvent) (res : TrialRes)
    (w' : World) : Prop where
  returned : ∃ fuel, callForked env fuel fork w = .ok res w'
  trace : w'.trace = new ++ w.trace

/-- Calls in a row, and the events during each, those of the newest call first. -/
inductive Calls : World → List (List ForkEvent) → World → Prop
  | none (w : World) : Calls w [] w
  | next {w w' w'' : World} {news : List (List ForkEvent)} {fork : ForkInfo}
      {new : List ForkEvent} {res : TrialRes} :
      Calls w news w' → Call env fork w' new res w'' → Calls w (new :: news) w''

end

end Theft
