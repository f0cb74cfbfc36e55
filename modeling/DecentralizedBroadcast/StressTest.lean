import DecentralizedBroadcast.Lib.Machine
import Mathlib.Data.List.Perm.Basic
import Mathlib.Data.List.Range
import Mathlib.Logic.Function.Basic

/-! The stress test of the tools: several threads stop, continue and terminate the processes
they started, each under the lock of the process, then all are continued and terminated, and
waited for. A step is what one thread does between two points where others may see it. -/
set_option autoImplicit false

namespace DecentralizedBroadcast.Stress

inductive ProcessState where
  | running | stopped | terminated
  deriving DecidableEq, Repr

inductive Signal where
  | sigcont | sigstop | sigterm
  deriving DecidableEq, Repr

/-- What becomes of a process that the system hands signals to, if SIGTERM ends it. A stopped
process gets SIGTERM only when it is continued. -/
inductive OsState where
  | running | stopped | pending | ended
  deriving DecidableEq, Repr

def OsState.take : OsState → Signal → OsState
  | .running, .sigstop => .stopped
  | .running, .sigterm => .ended
  | .stopped, .sigcont => .running
  | .stopped, .sigterm => .pending
  | .pending, .sigcont => .ended
  | st, _ => st

def outcome (signals : List Signal) : OsState := signals.foldl OsState.take .running

def stateToSignal : ProcessState → Signal
  | .running => .sigcont
  | .stopped => .sigstop
  | .terminated => .sigterm

def validStateTransition (current desired : ProcessState) : Bool :=
  if current = .terminated then false
  else if current = .running then desired = .stopped || desired = .terminated
  else if current = .stopped then desired = .running
  else false

structure AtomicSaturatedCounter where
  saturation : Int
  value : Int

def AtomicSaturatedCounter.reserve (c : AtomicSaturatedCounter) : AtomicSaturatedCounter × Bool :=
  if c.value < c.saturation then ({ c with value := c.value + 1 }, true) else (c, false)

/-- `lock` is the thread that holds it; `signals` is what the handle was sent. -/
structure ProcessInfo where
  lock : Option Nat
  state : ProcessState
  signals : List Signal

/-- Where a thread stands in the loop of `stress`. -/
inductive Pc where
  | choosing
  | chosen (proc : Nat) (op : ProcessState)      -- before `with info.lock`
  | checking (proc : Nat) (op : ProcessState)
  | reserving (proc : Nat)
  | sending (proc : Nat) (op : ProcessState)     -- before `send_signal`
  | sent (proc : Nat) (op : ProcessState)        -- before `info.state = op`
  | raised                                       -- an exception has ended the thread
  deriving DecidableEq

structure Thread where
  selectProc : List Nat
  successfulAttempts : Nat
  pc : Pc

/-- Where `main` stands: the threads run, it goes through `processesInfo`, it waits for Enter,
or it joins the monitors, each of which waits for its process. -/
inductive Phase where
  | stressing
  | continuing (left : List Nat)
  | waiting
  | terminating (left : List Nat)
  | joining (left : List Nat)
  | finished
  deriving DecidableEq

structure State where
  info : Nat → ProcessInfo
  terminatedProcs : AtomicSaturatedCounter
  thread : Nat → Thread
  phase : Phase

/-- What the test is started with. Every thread shuffles the ids of the processes. A process of
`endsOnSigterm` ends when SIGTERM reaches it; one that hangs in its handler is none of them. -/
structure Settings where
  processes : Nat
  concurrency : Nat
  attempts : Nat
  selectOp : List ProcessState
  selectProc : Nat → List Nat
  shuffled : ∀ i, (selectProc i).Perm (List.range' 1 processes)
  endsOnSigterm : Nat → Bool

def Settings.threads (c : Settings) : Nat := if 1 < c.concurrency then c.concurrency else 1

def maxTerminatedProcesses (processes : Nat) : Int :=
  if processes % 2 = 1 then (processes : Int) / 2 else ((processes : Int) - 1) / 2

def start (c : Settings) : State where
  info _ := { lock := none, state := .running, signals := [] }
  terminatedProcs := { saturation := maxTerminatedProcesses c.processes, value := 0 }
  thread i := { selectProc := c.selectProc i, successfulAttempts := 0, pc := .choosing }
  phase := .stressing

inductive Action where
  | choose (i proc : Nat) (op : ProcessState)
  | acquire (i : Nat)
  | check (i : Nat)
  | reserve (i : Nat)
  | sendSignal (i : Nat)
  | record (i : Nat)
  | join
  | continueNext
  | pressEnter
  | terminateNext
  | joinNext

namespace State

def setInfo (s : State) (p : Nat) (x : ProcessInfo) : State :=
  { s with info := Function.update s.info p x }

def setThread (s : State) (i : Nat) (x : Thread) : State :=
  { s with thread := Function.update s.thread i x }

def setPc (s : State) (i : Nat) (pc : Pc) : State :=
  s.setThread i { s.thread i with pc := pc }

def setLock (s : State) (p : Nat) (lock : Option Nat) : State :=
  s.setInfo p { s.info p with lock := lock }

/-- The end of the block under the lock, without a signal: `continue`, or nothing to do. -/
def leave (s : State) (i p : Nat) : State := (s.setLock p none).setPc i .choosing

def send (s : State) (p : Nat) (signal : Signal) : State :=
  s.setInfo p { s.info p with signals := (s.info p).signals ++ [signal] }

/-- `random.choice` of an empty list raises. -/
def choose (c : Settings) (s : State) (i proc : Nat) (op : ProcessState) : Option State :=
  if (s.thread i).pc = .choosing ∧ (s.thread i).successfulAttempts < c.attempts then
    if (s.thread i).selectProc = [] ∨ c.selectOp = [] then some (s.setPc i .raised)
    else if proc ∈ (s.thread i).selectProc ∧ op ∈ c.selectOp then
      some (s.setPc i (.chosen proc op))
    else none
  else none

def acquire (s : State) (i : Nat) : Option State :=
  match (s.thread i).pc with
  | .chosen p op =>
      if (s.info p).lock = none then some ((s.setLock p (some i)).setPc i (.checking p op))
      else none
  | _ => none

def check (s : State) (i : Nat) : Option State :=
  match (s.thread i).pc with
  | .checking p op =>
      if validStateTransition (s.info p).state op then
        some (s.setPc i (if op = .terminated then .reserving p else .sending p op))
      else some (s.leave i p)
  | _ => none

/-- `selectProc.remove(proc)` raises if `proc` is not there; the lock is released on the way. -/
def reserve (s : State) (i : Nat) : Option State :=
  match (s.thread i).pc with
  | .reserving p =>
      let (counter, reserved) := s.terminatedProcs.reserve
      let s := { s with terminatedProcs := counter }
      if reserved then
        if p ∈ (s.thread i).selectProc then
          some (s.setThread i { s.thread i with
            selectProc := (s.thread i).selectProc.erase p, pc := .sending p .terminated })
        else some ((s.setLock p none).setPc i .raised)
      else some (s.leave i p)
  | _ => none

def sendSignal (s : State) (i : Nat) : Option State :=
  match (s.thread i).pc with
  | .sending p op => some ((s.send p (stateToSignal op)).setPc i (.sent p op))
  | _ => none

def record (s : State) (i : Nat) : Option State :=
  match (s.thread i).pc with
  | .sent p op => some ((s.setInfo p { s.info p with lock := none, state := op }).setThread i
      { s.thread i with
        successfulAttempts := (s.thread i).successfulAttempts + 1, pc := .choosing })
  | _ => none

/-- A thread is over when its loop has ended, or by an exception. -/
def Over (c : Settings) (s : State) (i : Nat) : Prop :=
  (s.thread i).pc = .raised ∨
    (s.thread i).pc = .choosing ∧ c.attempts ≤ (s.thread i).successfulAttempts

instance (c : Settings) (s : State) (i : Nat) : Decidable (s.Over c i) :=
  inferInstanceAs (Decidable (_ ∨ _))

/-- One round of `continueStoppedProcesses`. The state that is kept does not change. -/
def continueOne (s : State) (p : Nat) : State :=
  if (s.info p).state ≠ .terminated ∧ (s.info p).state = .stopped then
    s.send p (stateToSignal .running)
  else s

def terminateOne (s : State) (p : Nat) : State :=
  if (s.info p).state ≠ .terminated then
    let s := if (s.info p).state = .stopped then s.send p (stateToSignal .running) else s
    s.send p (stateToSignal .terminated)
  else s

def remainingUnterminatedProcesses (c : Settings) (s : State) : List Nat :=
  (List.range' 1 c.processes).filter fun p => (s.info p).state ≠ .terminated

def Exited (c : Settings) (s : State) (p : Nat) : Prop :=
  outcome (s.info p).signals = .ended ∧ c.endsOnSigterm p

instance (c : Settings) (s : State) (p : Nat) : Decidable (s.Exited c p) :=
  inferInstanceAs (Decidable (_ ∧ _))

def step (c : Settings) (s : State) : Action → Option State
  | .choose i proc op =>
      if i < c.threads ∧ s.phase = .stressing then s.choose c i proc op else none
  | .acquire i => if i < c.threads ∧ s.phase = .stressing then s.acquire i else none
  | .check i => if i < c.threads ∧ s.phase = .stressing then s.check i else none
  | .reserve i => if i < c.threads ∧ s.phase = .stressing then s.reserve i else none
  | .sendSignal i => if i < c.threads ∧ s.phase = .stressing then s.sendSignal i else none
  | .record i => if i < c.threads ∧ s.phase = .stressing then s.record i else none
  | .join =>
      if s.phase = .stressing ∧ ∀ i < c.threads, s.Over c i then
        some { s with phase := .continuing (List.range' 1 c.processes) }
      else none
  | .continueNext =>
      match s.phase with
      | .continuing [] => some { s with phase := .waiting }
      | .continuing (p :: left) => some { s.continueOne p with phase := .continuing left }
      | _ => none
  | .pressEnter =>
      if s.phase = .waiting then
        if s.remainingUnterminatedProcesses c = [] then
          some { s with phase := .joining (List.range' 1 c.processes) }
        else some { s with phase := .terminating (List.range' 1 c.processes) }
      else none
  | .terminateNext =>
      match s.phase with
      | .terminating [] => some { s with phase := .joining (List.range' 1 c.processes) }
      | .terminating (p :: left) => some { s.terminateOne p with phase := .terminating left }
      | _ => none
  | .joinNext =>
      match s.phase with
      | .joining [] => some { s with phase := .finished }
      | .joining (p :: left) =>
          if s.Exited c p then some { s with phase := .joining left } else none
      | _ => none

end State

def stressMachine (c : Settings) : Machine State Action := ⟨start c, State.step c⟩

end DecentralizedBroadcast.Stress
