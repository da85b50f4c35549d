/-
Scheduling with the ready queues of `kernel/proc.c`: `scheduler` on any number of CPUs, `yield`,
`sleep`, `wakeup`, `kill`, `fork`, `exit`, `wait` and `userinit` as far as they touch `p->lock`,
the state of a process or a ready queue.

A CPU runs its scheduler loop or the kernel code of a process.  Kernel code is a stack of
frames, each of which says where a function is; a call pushes a frame, and so does an interrupt.
Between two steps of one CPU any number of steps of the others can happen.  A step takes at
most one lock, and a CPU that finds the lock taken stays where it is.

A CPU that holds none of these locks can call any of the functions at any time, which covers
all that processes and interrupts do.  `wait_lock`, the memory that `fork` allocates and the
times that only `procinfo` and `wait2` report are left out.
-/
import Mathlib.Logic.Function.Basic
import Xv6.Lib.Run
import Xv6.Param

namespace Xv6.Sched

open Function

inductive Status where
  | unused
  | used
  | sleeping
  | runnable
  | running
  | zombie
  deriving DecidableEq, Repr

structure Proc where
  state : Status
  chan : Nat
  pid : Int
  killed : Bool
  priority : Nat
  tsticks : UInt32
  next : Option Nat

structure Queue where
  head : Option Nat
  tail : Option Nat

inductive Lock where
  | proc (p : Nat)
  | queue (i : Nat)
  deriving DecidableEq, Repr

/-- A place in a function that the kernel code of a process or an interrupt executes; `p` is the
caller in those that use `myproc()`, `q` the process a loop has come to. -/
inductive Frame where
  | yield (p : Nat)
  | yieldHeld (p : Nat)
  | yieldQueued (p : Nat)
  | sleep (p chan : Nat)
  | sleepHeld (p chan : Nat)
  | sleepResumed (p : Nat)
  | exit (p : Nat)
  | exitHeld (p : Nat)
  | exited (p : Nat)
  | wakeup (me : Option Nat) (chan q : Nat)
  | wakeupHeld (me : Option Nat) (chan q : Nat)
  | kill (pid : Int) (q : Nat)
  | killHeld (pid : Int) (q : Nat)
  /-- The loop of `allocproc`, called by `userinit` or by the `fork` of a process. -/
  | allocproc (me : Option Nat) (q : Nat)
  | allocprocHeld (me : Option Nat) (q : Nat)
  | fork (p np : Nat)
  | forkLink (p np : Nat)
  | forkReady (p np : Nat)
  | wait (q : Nat)
  | waitHeld (q : Nat)
  /-- `enqueue_at_head` or `enqueue_at_tail`, before and after `queue[i].lock` is taken. -/
  | enqueue (front : Bool) (p i : Nat)
  | insert (front : Bool) (p i : Nat)
  /-- `release(&q->lock)`, after which the code goes on in the frame below. -/
  | release (q : Nat)
  deriving DecidableEq, Repr

/-- A place in the loop of `scheduler`, with the call of `dequeue`. -/
inductive Loop where
  | dequeue (i : Nat)
  | dequeueHeld (i : Nat)
  | dequeueProc (i p : Nat)
  | dequeueTake (i p : Nat)
  | dequeueTail (i p : Nat)
  | acquire (p : Nat)
  | pick (p : Nat)
  /-- `c->proc` is `p`, and the CPU executes it. -/
  | running (p : Nat)
  | back (p : Nat)
  deriving DecidableEq, Repr

/-- The process table, the queues, the CPU that holds each lock, the kernel stacks of the
processes, the loop of each CPU and the interrupts that have come while it was there. -/
structure State where
  procs : Nat → Proc
  queues : Nat → Queue
  locks : Lock → Option Nat
  kstacks : Nat → List Frame
  loops : Nat → Loop
  intrs : Nat → List Frame
  nextpid : Int

inductive Call where
  /-- A timer interrupt in user or kernel code. -/
  | timer (user : Bool)
  | sleep (chan : Nat)
  | exit
  | wakeup (chan : Nat)
  | kill (pid : Int)
  | fork
  | wait

/-- CPU `c` takes a step or starts a call.  `choice` says whether memory suffices in `fork`,
whether `wait` looks at a child, and whether it can store the status. -/
inductive Event where
  | run (c : Nat) (choice : Bool)
  | call (c : Nat) (call : Call)

namespace State

variable (s : State)

def setProc (p : Nat) (x : Proc) : State := { s with procs := update s.procs p x }

def setState (p : Nat) (x : Status) : State := s.setProc p { s.procs p with state := x }

def setLock (l : Lock) (c : Option Nat) : State := { s with locks := update s.locks l c }

def setLoop (c : Nat) (ℓ : Loop) : State := { s with loops := update s.loops c ℓ }

def frames (c : Nat) : List Frame :=
  match s.loops c with
  | .running p => s.kstacks p
  | _ => s.intrs c

def setFrames (c : Nat) (fs : List Frame) : State :=
  match s.loops c with
  | .running p => { s with kstacks := update s.kstacks p fs }
  | _ => { s with intrs := update s.intrs c fs }

/-- CPU `c` takes the lock and goes on with `fs`, or spins. -/
def acquire (c : Nat) (l : Lock) (fs : List Frame) : State :=
  if s.locks l = none then (s.setLock l (some c)).setFrames c fs else s

/-- `sched()`: process `p` has left `fs` to go on with, and CPU `c` goes back to its loop. -/
def sched (c p : Nat) (fs : List Frame) : State := (s.setFrames c fs).setLoop c (.back p)

/-! ## The queues -/

def enqueueAtTail (p i : Nat) : Except Panic State :=
  let q := s.queues i
  if q.head = none ∧ q.tail = none then
    .ok { s with queues := update s.queues i ⟨some p, some p⟩ }
  else
    match q.tail with
    | none => .error .enqueueAtTail
    | some t => .ok { s.setProc t { s.procs t with next := some p } with
        queues := update s.queues i ⟨q.head, some p⟩ }

def enqueueAtHead (p i : Nat) : Except Panic State :=
  let q := s.queues i
  if q.head = none ∧ q.tail = none then
    .ok { s with queues := update s.queues i ⟨some p, some p⟩ }
  else
    match q.head with
    | none => .error .enqueueAtHead
    | some h => .ok { s.setProc p { s.procs p with next := some h } with
        queues := update s.queues i ⟨some p, q.tail⟩ }

/-- `queue[i].head = p->next; p->next = 0`. -/
def unlink (p i : Nat) : State :=
  { s.setProc p { s.procs p with next := none } with
    queues := update s.queues i ⟨(s.procs p).next, (s.queues i).tail⟩ }

/-- `if(!queue[i].head) queue[i].tail = 0`. -/
def fixTail (i : Nat) : State :=
  if (s.queues i).head = none then
    { s with queues := update s.queues i ⟨none, none⟩ }
  else s

/-! ## Processes -/

/-- `allocproc` has found slot `p`.  The new process starts in `forkret`, which releases its
lock. -/
def allocproc (p : Nat) : State :=
  { s.setProc p { s.procs p with
      pid := s.nextpid, state := .used, priority := high, tsticks := .ofNat tsticksHigh,
      next := none } with
    nextpid := (s.nextpid + 1 + 2 ^ 31) % 2 ^ 32 - 2 ^ 31
    kstacks := update s.kstacks p [.release p] }

def freeproc (p : Nat) : State :=
  s.setProc p { s.procs p with pid := 0, chan := 0, killed := false, state := .unused }

end State

/-- What a timer interrupt does to `tsticks` and `priority`.  `ticksHigh` is what the copy of
this code in `usertrap` or in `kerneltrap` stores for priority HIGH. -/
def tick (ticksHigh : Nat) (x : Proc) : Proc :=
  let x := { x with tsticks := x.tsticks - 1 }
  if x.tsticks ≤ 0 then
    let x := { x with tsticks :=
      if x.priority = low then .ofNat tsticksLow
      else if x.priority = medium then .ofNat tsticksMedium
      else if x.priority = high then .ofNat ticksHigh
      else x.tsticks }
    if low < x.priority then
      let x := { x with priority := x.priority - 1 }
      { x with tsticks :=
        if x.priority = medium then .ofNat tsticksMedium
        else if x.priority = low then .ofNat tsticksLow
        else x.tsticks }
    else x
  else x

/-- `usertrap` reloads `tsticks` with TSTICKSHIGH, `kerneltrap` with HIGH. -/
def timer (user : Bool) (x : Proc) : Proc :=
  tick (if user then tsticksHigh else high) x

/-! ## Steps -/

def runFrame (s : State) (c : Nat) (choice : Bool) (f : Frame) (fs : List Frame) :
    Except Panic State :=
  match f with
  | .yield p => .ok (s.acquire c (.proc p) (.yieldHeld p :: fs))
  | .yieldHeld p => .ok ((s.setState p .runnable).setFrames c
      (.enqueue false p (s.procs p).priority :: .yieldQueued p :: fs))
  | .yieldQueued p => .ok (s.sched c p (.release p :: fs))
  | .sleep p chan => .ok (s.acquire c (.proc p) (.sleepHeld p chan :: fs))
  | .sleepHeld p chan =>
    .ok ((s.setProc p { s.procs p with chan := chan, state := .sleeping }).sched c p
      (.sleepResumed p :: fs))
  | .sleepResumed p =>
    .ok ((s.setProc p { s.procs p with chan := 0 }).setFrames c (.release p :: fs))
  | .exit p => .ok (s.acquire c (.proc p) (.exitHeld p :: fs))
  | .exitHeld p => .ok ((s.setState p .zombie).sched c p (.exited p :: fs))
  | .exited _ => .error .zombieExit
  | .wakeup me chan q =>
    if q < nproc then
      if me = some q then .ok (s.setFrames c (.wakeup me chan (q + 1) :: fs))
      else .ok (s.acquire c (.proc q) (.wakeupHeld me chan q :: fs))
    else .ok (s.setFrames c fs)
  | .wakeupHeld me chan q =>
    let rest := .release q :: .wakeup me chan (q + 1) :: fs
    if (s.procs q).state = .sleeping ∧ (s.procs q).chan = chan then
      .ok ((s.setState q .runnable).setFrames c (.enqueue true q (s.procs q).priority :: rest))
    else .ok (s.setFrames c rest)
  | .kill pid q =>
    if q < nproc then .ok (s.acquire c (.proc q) (.killHeld pid q :: fs))
    else .ok (s.setFrames c fs)
  | .killHeld pid q =>
    if (s.procs q).pid = pid then
      let s' := s.setProc q { s.procs q with killed := true }
      if (s.procs q).state = .sleeping then
        .ok ((s'.setState q .runnable).setFrames c
          (.enqueue false q (s.procs q).priority :: .release q :: fs))
      else .ok (s'.setFrames c (.release q :: fs))
    else .ok (s.setFrames c (.release q :: .kill pid (q + 1) :: fs))
  | .allocproc me q =>
    if q < nproc then .ok (s.acquire c (.proc q) (.allocprocHeld me q :: fs))
    else if me = none then .error .kerneltrap
    else .ok (s.setFrames c fs)
  | .allocprocHeld me q =>
    if (s.procs q).state = .unused then
      let s' := s.allocproc q
      match me with
      | none => .ok ((s'.setState q .runnable).setFrames c
          (.enqueue false q (s'.procs q).priority :: .release q :: fs))
      | some p => .ok (s'.setFrames c (.fork p q :: fs))
    else .ok (s.setFrames c (.release q :: .allocproc me (q + 1) :: fs))
  | .fork p np =>
    if choice then .ok (s.setFrames c (.release np :: .forkLink p np :: fs))
    else .ok ((s.freeproc np).setFrames c (.release np :: fs))
  | .forkLink p np => .ok (s.acquire c (.proc np) (.forkReady p np :: fs))
  | .forkReady _ np =>
    .ok ((s.setState np .runnable).setFrames c
      (.enqueue false np (s.procs np).priority :: .release np :: fs))
  | .wait q =>
    if q < nproc then
      if choice then .ok (s.acquire c (.proc q) (.waitHeld q :: fs))
      else .ok (s.setFrames c (.wait (q + 1) :: fs))
    else .ok (s.setFrames c fs)
  | .waitHeld q =>
    if (s.procs q).state = .zombie then
      if choice then .ok ((s.freeproc q).setFrames c (.release q :: fs))
      else .ok (s.setFrames c (.release q :: fs))
    else .ok (s.setFrames c (.release q :: .wait (q + 1) :: fs))
  | .enqueue front p i =>
    if nproc ≤ p then .error (if front then .enqueueAtHead else .enqueueAtTail)
    else .ok (s.acquire c (.queue i) (.insert front p i :: fs))
  | .insert front p i => do
      let s' ← if front then s.enqueueAtHead p i else s.enqueueAtTail p i
      return (s'.setLock (.queue i) none).setFrames c fs
  | .release q => .ok ((s.setLock (.proc q) none).setFrames c fs)

/-- CPU `c` takes the lock and goes on at `ℓ`, or spins. -/
def State.acquireLoop (s : State) (c : Nat) (l : Lock) (ℓ : Loop) : State :=
  if s.locks l = none then (s.setLock l (some c)).setLoop c ℓ else s

def runLoop (s : State) (c : Nat) : Except Panic State :=
  match s.loops c with
  | .dequeue i => .ok (s.acquireLoop c (.queue i) (.dequeueHeld i))
  | .dequeueHeld i =>
    if (s.queues i).head = none ∧ (s.queues i).tail = none then
      .ok ((s.setLock (.queue i) none).setLoop c (.dequeue (if i < low then i + 1 else high)))
    else
      match (s.queues i).head with
      | none => .error .dequeue
      | some p => .ok (s.setLoop c (.dequeueProc i p))
  | .dequeueProc i p => .ok (s.acquireLoop c (.proc p) (.dequeueTake i p))
  | .dequeueTake i p =>
    .ok (((s.unlink p i).setLock (.proc p) none).setLoop c (.dequeueTail i p))
  | .dequeueTail i p => .ok (((s.fixTail i).setLock (.queue i) none).setLoop c (.acquire p))
  | .acquire p => .ok (s.acquireLoop c (.proc p) (.pick p))
  | .pick p =>
    if (s.procs p).state = .runnable then .ok ((s.setState p .running).setLoop c (.running p))
    else .ok (s.setLoop c (.back p))
  | .back p => .ok ((s.setLock (.proc p) none).setLoop c (.dequeue high))
  | .running _ => .ok s

def Frame.held : Frame → List Lock
  | .yieldHeld p | .yieldQueued p | .sleepHeld p _ | .sleepResumed p | .exitHeld p | .exited p
  | .wakeupHeld _ _ p | .killHeld _ p | .allocprocHeld _ p | .fork _ p | .forkReady _ p
  | .waitHeld p | .enqueue _ p _ | .release p => [.proc p]
  | .insert _ p i => [.proc p, .queue i]
  | _ => []

def Loop.held : Loop → List Lock
  | .dequeueHeld i | .dequeueProc i _ | .dequeueTail i _ => [.queue i]
  | .dequeueTake i p => [.proc p, .queue i]
  | .pick p | .back p => [.proc p]
  | _ => []

def State.held (s : State) (c : Nat) : List Lock :=
  match s.frames c, s.loops c with
  | f :: _, _ => f.held
  | [], ℓ => ℓ.held

/-- The frame that a call starts with; only `wakeup` is called without a process. -/
def Call.frame : Option Nat → Call → Option Frame
  | some p, .timer _ => some (.yield p)
  | some p, .sleep chan => some (.sleep p chan)
  | some p, .exit => some (.exit p)
  | some _, .kill pid => some (.kill pid 0)
  | some p, .fork => some (.allocproc (some p) 0)
  | some _, .wait => some (.wait 0)
  | me, .wakeup chan => some (.wakeup me chan 0)
  | none, _ => none

def Loop.proc : Loop → Option Nat
  | .running p => some p
  | _ => none

/-- CPU `c` calls a function or takes an interrupt, which it can do where it holds no lock. -/
def State.call (s : State) (c : Nat) (call : Call) : State :=
  if s.held c = [] then
    match call.frame (s.loops c).proc with
    | none => s
    | some f =>
      let s' := match call, s.loops c with
        | .timer user, .running p => s.setProc p (timer user (s.procs p))
        | _, _ => s
      s'.setFrames c (f :: s.frames c)
  else s

def step (s : State) : Event → Except Panic State
  | .run c choice =>
    match s.frames c with
    | f :: fs => runFrame s c choice f fs
    | [] => runLoop s c
  | .call c call => .ok (s.call c call)

/-- The machine at the call of `userinit`, which CPU 0 makes. -/
structure Boot (s : State) : Prop where
  unused : ∀ p, (s.procs p).state = .unused
  next : ∀ p, (s.procs p).next = none
  priority : ∀ p, (s.procs p).priority < nqueue
  queues : ∀ i, s.queues i = ⟨none, none⟩
  locks : ∀ l, s.locks l = none
  loops : ∀ c, s.loops c = .dequeue high
  kstacks : ∀ p, s.kstacks p = []
  intrs : ∀ c, s.intrs c = if c = 0 then [.allocproc none 0] else []

end Xv6.Sched
