/-
Open files: the file table of `kernel/file.c`, descriptors and the calls of `kernel/sysfile.c`
that make and drop them, the ends of a pipe from `kernel/pipe.c`, and what `fork` and `exit` do
with descriptors.  A call runs to its end before the next one starts.

What depends on the rest of the kernel is chosen by whoever makes the call: the inode that a path
leads to and whether user memory can be written.  Pages come from the allocator, which other
parts of the kernel use as well.
-/
import Xv6.Lib.Run
import Xv6.Vm.Kalloc

namespace Xv6.Ftable

open Function

/-- A panic, or the use of a pipe whose page has been freed. -/
inductive Fault where
  | panic (p : Panic)
  | freedPipe (pi : Nat)
  deriving DecidableEq, Repr

inductive FdType where
  | none
  | pipe
  | inode
  | device
  deriving DecidableEq, Repr

/-- `struct file`; `pipe` is the address of the page and `ip` the index of the inode. -/
structure File where
  type : FdType
  ref : Int
  readable : Bool
  writable : Bool
  pipe : Nat
  ip : Nat
  off : Nat
  major : Int

/-- `struct pipe` without its data. -/
structure Pipe where
  readopen : Bool
  writeopen : Bool
  nread : Nat
  nwrite : Nat
  deriving DecidableEq

/-- The file table, which slots hold a process and their descriptors, the pipes whose page is
allocated, the references to inodes that open files have, physical memory and the pages that
other parts of the kernel hold. -/
structure State where
  ftable : Nat → File
  used : Nat → Bool
  ofile : Nat → Nat → Option Nat
  pipes : Nat → Option Pipe
  iref : Nat → Int
  phys : Phys
  held : List Nat

inductive InodeType where
  | dir
  | file
  | device
  deriving DecidableEq, Repr

structure Found where
  ip : Nat
  type : InodeType
  major : Int

def ndev : Int := 10

def oWronly : Nat := 0x001
def oRdwr : Nat := 0x002

inductive Event where
  /-- `found` is what `create` or `namei` returns; null also where the arguments are bad. -/
  | open (p omode : Nat) (found : Option Found)
  | dup (p fd : Nat)
  /-- `copied` says whether both descriptors can be stored in user memory. -/
  | pipe (p : Nat) (copied : Bool)
  | close (p fd : Nat)
  | read (p fd : Nat)
  | write (p fd : Nat)
  | fork (p np : Nat)
  | exit (p : Nat)
  /-- `kalloc` and `kfree` by other parts of the kernel. -/
  | takePage
  | givePage (i : Nat)

namespace State

variable (s : State)

def setFile (f : Nat) (v : File) : State := { s with ftable := update s.ftable f v }

def setFd (p fd : Nat) (v : Option Nat) : State :=
  { s with ofile := update s.ofile p (update (s.ofile p) fd v) }

def setRef (f : Nat) (r : Int) : State := s.setFile f { s.ftable f with ref := r }

/-- `none` is the null pointer. -/
def filealloc : Option (Nat × State) :=
  match (List.range nfile).find? fun f => (s.ftable f).ref = 0 with
  | none => none
  | some f => some (f, s.setRef f 1)

def filedup (f : Nat) : Except Fault State :=
  if (s.ftable f).ref < 1 then .error (.panic .filedup)
  else .ok (s.setRef f ((s.ftable f).ref + 1))

def pipeclose (pi : Nat) (writable : Bool) : Except Fault State :=
  match s.pipes pi with
  | none => .error (.freedPipe pi)
  | some q =>
    let q := if writable then { q with writeopen := false } else { q with readopen := false }
    if q.readopen = false ∧ q.writeopen = false then do
      let ph ← (kfree s.phys pi).mapError .panic
      return { s with phys := ph, pipes := update s.pipes pi none }
    else return { s with pipes := update s.pipes pi (some q) }

/-- `iput`, as far as the number of references goes. -/
def iput (ip : Nat) : State := { s with iref := update s.iref ip (s.iref ip - 1) }

def fileclose (f : Nat) : Except Fault State :=
  let ff := s.ftable f
  if ff.ref < 1 then .error (.panic .fileclose)
  else if ff.ref - 1 > 0 then .ok (s.setRef f (ff.ref - 1))
  else
    let s := s.setFile f { ff with ref := 0, type := .none }
    match ff.type with
    | .pipe => s.pipeclose ff.pipe ff.writable
    | .inode | .device => .ok (s.iput ff.ip)
    | .none => .ok s

def fdalloc (p f : Nat) : Option (Nat × State) :=
  match (List.range nofile).find? fun fd => s.ofile p fd = none with
  | none => none
  | some fd => some (fd, s.setFd p fd (some f))

def argfd (p fd : Nat) : Option Nat := if fd < nofile then s.ofile p fd else none

/-! ## System calls -/

def sysDup (p fd : Nat) : Except Fault State :=
  match s.argfd p fd with
  | none => .ok s
  | some f =>
    match s.fdalloc p f with
    | none => .ok s
    | some (_, s) => s.filedup f

def sysClose (p fd : Nat) : Except Fault State :=
  match s.argfd p fd with
  | none => .ok s
  | some f => (s.setFd p fd none).fileclose f

/-- The part of `sys_open` after the inode is found; the caller holds a reference to it. -/
def openFound (p omode : Nat) (i : Found) : Except Fault State :=
  if i.type = .device ∧ (i.major < 0 ∨ i.major ≥ ndev) then .ok (s.iput i.ip)
  else
    match s.filealloc with
    | none => .ok (s.iput i.ip)
    | some (f, s) =>
      match s.fdalloc p f with
      | none => do
          let s ← s.fileclose f
          return s.iput i.ip
      | some (_, s) =>
        let file := s.ftable f
        let file := if i.type = .device then { file with type := .device, major := i.major }
          else { file with type := .inode, off := 0 }
        .ok (s.setFile f { file with
          ip := i.ip
          readable := !has omode oWronly
          writable := has omode oWronly || has omode oRdwr })

def sysOpen (p omode : Nat) (found : Option Found) : Except Fault State :=
  match found with
  | none => .ok s
  | some i => { s with iref := update s.iref i.ip (s.iref i.ip + 1) }.openFound p omode i

/-- `pipealloc`; `none` when it fails. -/
def pipealloc : Except Fault (Option (Nat × Nat) × State) :=
  match s.filealloc with
  | none => .ok (none, s)
  | some (f0, s) =>
    match s.filealloc with
    | none => do
        let s ← s.fileclose f0
        return (none, s)
    | some (f1, s) =>
      match kalloc s.phys with
      | none => do
          let s ← s.fileclose f0
          let s ← s.fileclose f1
          return (none, s)
      | some (pi, ph) =>
        let q : Pipe := { readopen := true, writeopen := true, nread := 0, nwrite := 0 }
        let s := { s with phys := ph, pipes := update s.pipes pi (some q) }
        let s := s.setFile f0 { s.ftable f0 with
          type := .pipe, readable := true, writable := false, pipe := pi }
        let s := s.setFile f1 { s.ftable f1 with
          type := .pipe, readable := false, writable := true, pipe := pi }
        .ok (some (f0, f1), s)

/-- The part of `sys_pipe` after `pipealloc`: descriptors for both files. -/
def pipeFds (p rf wf : Nat) (copied : Bool) : Except Fault State :=
  match s.fdalloc p rf with
  | none => do
      let s ← s.fileclose rf
      s.fileclose wf
  | some (fd0, s) =>
    match s.fdalloc p wf with
    | none => do
        let s ← (s.setFd p fd0 none).fileclose rf
        s.fileclose wf
    | some (fd1, s) =>
      if copied then .ok s
      else do
        let s ← ((s.setFd p fd0 none).setFd p fd1 none).fileclose rf
        s.fileclose wf

def sysPipe (p : Nat) (copied : Bool) : Except Fault State := do
  let (files, s) ← s.pipealloc
  match files with
  | none => return s
  | some (rf, wf) => s.pipeFds p rf wf copied

def usePipe (pi : Nat) : Except Fault State :=
  match s.pipes pi with
  | none => .error (.freedPipe pi)
  | some _ => .ok s

/-- `sys_read`, as far as it uses a pipe. -/
def sysRead (p fd : Nat) : Except Fault State :=
  match s.argfd p fd with
  | none => .ok s
  | some f =>
    if (s.ftable f).readable ∧ (s.ftable f).type = .pipe then s.usePipe (s.ftable f).pipe
    else .ok s

/-- `sys_write`, as far as it uses a pipe. -/
def sysWrite (p fd : Nat) : Except Fault State :=
  match s.argfd p fd with
  | none => .ok s
  | some f =>
    if (s.ftable f).writable ∧ (s.ftable f).type = .pipe then s.usePipe (s.ftable f).pipe
    else .ok s

def forkFiles (p np : Nat) : Nat → Except Fault State
  | 0 => .ok s
  | n + 1 => do
      let s ← forkFiles p np n
      match s.ofile p n with
      | none => return s
      | some f =>
        let s ← s.filedup f
        return s.setFd np n (some f)

def exitFiles (p : Nat) : Nat → Except Fault State
  | 0 => .ok s
  | n + 1 => do
      let s ← exitFiles p n
      match s.ofile p n with
      | none => return s
      | some f =>
        let s ← s.fileclose f
        return s.setFd p n none

def setUsed (p : Nat) (u : Bool) : State := { s with used := update s.used p u }

def runs (p : Nat) : Prop := p < nproc ∧ s.used p = true

instance (p : Nat) : Decidable (s.runs p) := inferInstanceAs (Decidable (_ ∧ _))

/-- The effect of an event; nothing happens where it is not possible. -/
def step : Event → Except Fault State
  | .open p omode found => if s.runs p then s.sysOpen p omode found else .ok s
  | .dup p fd => if s.runs p then s.sysDup p fd else .ok s
  | .pipe p copied => if s.runs p then s.sysPipe p copied else .ok s
  | .close p fd => if s.runs p then s.sysClose p fd else .ok s
  | .read p fd => if s.runs p then s.sysRead p fd else .ok s
  | .write p fd => if s.runs p then s.sysWrite p fd else .ok s
  | .fork p np =>
    if s.runs p ∧ np < nproc ∧ s.used np = false then do
      let s ← s.forkFiles p np nofile
      return s.setUsed np true
    else .ok s
  | .exit p =>
    if s.runs p then do
      let s ← s.exitFiles p nofile
      return s.setUsed p false
    else .ok s
  | .takePage =>
    match kalloc s.phys with
    | none => .ok s
    | some (pa, ph) => .ok { s with phys := ph, held := pa :: s.held }
  | .givePage i =>
    match s.held[i]? with
    | none => .ok s
    | some pa => do
        let ph ← (kfree s.phys pa).mapError .panic
        return { s with phys := ph, held := s.held.eraseIdx i }

/-- The kernel when the first process starts: no file is open.  Static storage is zero. -/
def start (ph : Phys) : State :=
  { ftable := fun _ => { type := .none, ref := 0, readable := false, writable := false, pipe := 0
                         ip := 0, off := 0, major := 0 }
    used := fun p => p == 0
    ofile := fun _ _ => none
    pipes := fun _ => none
    iref := fun _ => 0
    phys := ph
    held := [] }

end State

end Xv6.Ftable
