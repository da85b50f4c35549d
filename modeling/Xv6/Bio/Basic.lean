/-
The buffer cache of `kernel/bio.c` under the log of `kernel/log.c`: any number of processes that
call `bread`, `bwrite`, `brelse` and `log_write`, and the commit that the last `end_op` runs
through the same cache.

A step is a critical section under `bcache.lock` or `log.lock`, the taking or release of a
buffer's sleeplock, a transfer between a buffer and the disk, or a store to a buffer.
`virtio_disk_rw` looks at `b->blockno` only, so there is one disk for all device numbers.
-/
import Xv6.Lib.Listing
import Xv6.Log.Disk

namespace Xv6.Bio

open Function
open Log (Block Disk)

/-- `struct buf`; `lock` is the process that holds the sleeplock. -/
structure Buf where
  valid : Bool
  dev : Nat
  blockno : Nat
  lock : Option Nat
  refcnt : Nat
  data : Block

/-- Where a process is in `bread` or `brelse`: it waits for the sleeplock that `bget` takes, has
it and goes on in `bread`, or has released it and gives its reference back. -/
inductive Phase where
  | ready
  | acquiresleep (i : Nat)
  | fill (i : Nat)
  | unref (i : Nat)
  deriving DecidableEq

/-- Where a process goes on when it is not in `bread` or `brelse`: in the file system, or at a
line of the commit.  `last` tells the second call of `write_head` from the first. -/
inductive Loc where
  | user
  | commit
  | writeLog (tail : Nat)
  | writeLogFrom (tail dst : Nat)
  | writeLogCopy (tail dst src : Nat)
  | writeLogBwrite (tail dst src : Nat)
  | writeLogRelease (tail dst src : Nat)
  | writeLogReleaseTo (tail dst : Nat)
  | writeHead (last : Bool)
  | writeHeadStore (last : Bool) (buf : Nat)
  | writeHeadBwrite (last : Bool) (buf : Nat)
  | writeHeadRelease (last : Bool) (buf : Nat)
  | installTrans (tail : Nat)
  | installTransDst (tail lbuf : Nat)
  | installTransCopy (tail lbuf dbuf : Nat)
  | installTransBwrite (tail lbuf dbuf : Nat)
  | installTransUnpin (tail lbuf dbuf : Nat)
  | installTransRelease (tail lbuf dbuf : Nat)
  | installTransReleaseDst (tail dbuf : Nat)
  | clear
  | finish
  deriving DecidableEq

structure State where
  bufs : Nat → Buf
  /-- The buffers from `head.next`, the most recently used one, to `head.prev`. -/
  lru : List Nat
  disk : Disk
  /-- `log.dev` -/
  dev : Nat
  log : Log.State
  loc : Nat → Loc
  phase : Nat → Phase
  /-- history: the contents with which each block was last released -/
  latest : Disk
  /-- history: the buffers that have been stored to since they were last written or logged -/
  unsaved : Nat → Bool
  /-- history: how many blocks of the header `install_trans` has written home and unpinned -/
  installed : Nat

namespace State

variable (s : State)

@[simps bufs lru dev log loc phase unsaved installed] def setBuf (i : Nat) (b : Buf) : State := { s with bufs := update s.bufs i b }

@[simps bufs lru dev log loc phase unsaved installed] def setLoc (p : Nat) (ℓ : Loc) : State := { s with loc := update s.loc p ℓ }

@[simps bufs lru dev log loc phase unsaved installed] def setPhase (p : Nat) (ph : Phase) : State := { s with phase := update s.phase p ph }

@[simp] theorem disk_setBuf (i : Nat) (b : Buf) : (s.setBuf i b).disk = s.disk := rfl

@[simp] theorem latest_setBuf (i : Nat) (b : Buf) : (s.setBuf i b).latest = s.latest := rfl

@[simp] theorem disk_setLoc (p : Nat) (ℓ : Loc) : (s.setLoc p ℓ).disk = s.disk := rfl

@[simp] theorem latest_setLoc (p : Nat) (ℓ : Loc) : (s.setLoc p ℓ).latest = s.latest := rfl

@[simp] theorem disk_setPhase (p : Nat) (ph : Phase) : (s.setPhase p ph).disk = s.disk := rfl

@[simp] theorem latest_setPhase (p : Nat) (ph : Phase) : (s.setPhase p ph).latest = s.latest := rfl

/-! ## bio.c -/

def lookup (dev b : Nat) : Option Nat :=
  s.lru.find? fun i => (s.bufs i).dev == dev && (s.bufs i).blockno == b

def victim : Option Nat := s.lru.reverse.find? fun i => (s.bufs i).refcnt == 0

/-- The critical section of `bget`: the buffer for the block, with one more reference. -/
def bget (dev b : Nat) : Except Panic (Nat × State) :=
  match s.lookup dev b with
  | some i => .ok (i, s.setBuf i { s.bufs i with refcnt := (s.bufs i).refcnt + 1 })
  | none =>
    match s.victim with
    | some i => .ok (i, s.setBuf i
        { s.bufs i with dev := dev, blockno := b, valid := false, refcnt := 1 })
    | none => .error .bgetNoBuffers

/-- The call of `bread` by process `p`, which goes on at `next` with the buffer. -/
def bread (p dev b : Nat) (next : Nat → Loc) : Except Panic State := do
  let (i, s') ← s.bget dev b
  return (s'.setPhase p (.acquiresleep i)).setLoc p (next i)

def acquiresleep (p i : Nat) : State :=
  if (s.bufs i).lock = none then
    (s.setBuf i { s.bufs i with lock := some p }).setPhase p (.fill i)
  else s

def filled (i : Nat) : Buf :=
  if (s.bufs i).valid then s.bufs i
  else { s.bufs i with data := s.disk (s.bufs i).blockno, valid := true }

def fill (p i : Nat) : State := (s.setBuf i (s.filled i)).setPhase p .ready

def bwrite (p i : Nat) : Except Panic State :=
  if (s.bufs i).lock = some p then
    .ok { s with
      disk := update s.disk (s.bufs i).blockno (s.bufs i).data
      unsaved := update s.unsaved i false }
  else .error .bwrite

/-- `brelse` up to the release of the sleeplock; process `p` goes on at `next` afterwards. -/
def brelse (p i : Nat) (next : Loc) : Except Panic State :=
  if (s.bufs i).lock = some p then
    .ok (({ s.setBuf i { s.bufs i with lock := none } with
      latest := update s.latest (s.bufs i).blockno (s.bufs i).data }.setPhase p
        (.unref i)).setLoc p next)
  else .error .brelse

def unref (p i : Nat) : State :=
  let s' := (s.setBuf i { s.bufs i with refcnt := (s.bufs i).refcnt - 1 }).setPhase p .ready
  if (s'.bufs i).refcnt = 0 then { s' with lru := i :: s.lru.erase i } else s'

def store (i : Nat) (d : Block) : State :=
  { s.setBuf i { s.bufs i with data := d } with unsaved := update s.unsaved i true }

/-! ## log.c -/

/-- `log_write`; a block that is new in the header is pinned. -/
def logWrite (i : Nat) : Except Panic State := do
  let l ← Log.logWrite s.log (s.bufs i).blockno
  let s' := { s with log := l, unsaved := update s.unsaved i false }
  if s.log.lh.find (s.bufs i).blockno = s.log.lh.n then
    return s'.setBuf i { s.bufs i with refcnt := (s.bufs i).refcnt + 1 }
  else return s'

def bunpin (i : Nat) : State :=
  { s.setBuf i { s.bufs i with refcnt := (s.bufs i).refcnt - 1 } with installed := s.installed + 1 }

/-- The next line of the commit that process `p` runs. -/
def runLoc (p : Nat) : Except Panic State :=
  match s.loc p with
  | .user => .ok s
  | .commit => .ok (s.setLoc p (if 0 < s.log.lh.n then .writeLog 0 else .finish))
  | .writeLog tail =>
    if tail < s.log.lh.n then s.bread p s.dev (s.log.start + tail + 1) (.writeLogFrom tail)
    else .ok (s.setLoc p (.writeHead false))
  | .writeLogFrom tail dst => s.bread p s.dev (s.log.lh.block tail) (.writeLogCopy tail dst)
  | .writeLogCopy tail dst src =>
    .ok ((s.store dst (s.bufs src).data).setLoc p (.writeLogBwrite tail dst src))
  | .writeLogBwrite tail dst src =>
    (s.bwrite p dst).map (·.setLoc p (.writeLogRelease tail dst src))
  | .writeLogRelease tail dst src => s.brelse p src (.writeLogReleaseTo tail dst)
  | .writeLogReleaseTo tail dst => s.brelse p dst (.writeLog (tail + 1))
  | .writeHead last => s.bread p s.dev s.log.start (.writeHeadStore last)
  | .writeHeadStore last buf =>
    .ok ((s.store buf (Log.encodeHeader s.log.lh (s.bufs buf).data)).setLoc p
      (.writeHeadBwrite last buf))
  | .writeHeadBwrite last buf => (s.bwrite p buf).map (·.setLoc p (.writeHeadRelease last buf))
  | .writeHeadRelease last buf => s.brelse p buf (if last then .finish else .installTrans 0)
  | .installTrans tail =>
    if tail < s.log.lh.n then s.bread p s.dev (s.log.start + tail + 1) (.installTransDst tail)
    else .ok (s.setLoc p .clear)
  | .installTransDst tail lbuf =>
    s.bread p s.dev (s.log.lh.block tail) (.installTransCopy tail lbuf)
  | .installTransCopy tail lbuf dbuf =>
    .ok ((s.store dbuf (s.bufs lbuf).data).setLoc p (.installTransBwrite tail lbuf dbuf))
  | .installTransBwrite tail lbuf dbuf =>
    (s.bwrite p dbuf).map (·.setLoc p (.installTransUnpin tail lbuf dbuf))
  | .installTransUnpin tail lbuf dbuf =>
    .ok ((s.bunpin dbuf).setLoc p (.installTransRelease tail lbuf dbuf))
  | .installTransRelease tail lbuf dbuf => s.brelse p lbuf (.installTransReleaseDst tail dbuf)
  | .installTransReleaseDst tail dbuf => s.brelse p dbuf (.installTrans (tail + 1))
  | .clear =>
    .ok ({ s with log := { s.log with lh := { s.log.lh with n := 0 } }, installed := 0 }.setLoc p
      (.writeHead true))
  | .finish => .ok ({ s with log := { s.log with committing := false } }.setLoc p .user)

def run (p : Nat) : Except Panic State :=
  match s.phase p with
  | .ready => s.runLoc p
  | .acquiresleep i => .ok (s.acquiresleep p i)
  | .fill i => .ok (s.fill p i)
  | .unref i => .ok (s.unref p i)

end State

/-- A call by the file system, or a store to the data of a buffer. -/
inductive Call where
  | beginOp
  | endOp
  | bread (dev b : Nat)
  | store (i : Nat) (d : Block)
  | logWrite (i : Nat)
  | bwrite (i : Nat)
  | brelse (i : Nat)

inductive Event where
  | run (p : Nat)
  | call (p : Nat) (c : Call)

/-- `begin_op` and the last `end_op` are those of `Xv6.Log.Basic`: the first one tries again
while there is no room, the second goes on to commit. -/
def State.call (s : State) (p : Nat) : Call → Except Panic State
  | .beginOp => .ok (match Log.beginOp s.log with
      | none => s
      | some l => { s with log := l })
  | .endOp => do
      let l ← Log.endOp s.log
      return { s with log := l }.setLoc p (if l.committing then .commit else .user)
  | .bread dev b => s.bread p dev b fun _ => .user
  | .store i d => .ok (s.store i d)
  | .logWrite i => s.logWrite i
  | .bwrite i => s.bwrite p i
  | .brelse i => s.brelse p i .user

/-- A step of one of `n` processes; a process that is in a call makes no other. -/
def step (n : Nat) (s : State) : Event → Except Panic State
  | .run p => if p < n then s.run p else .ok s
  | .call p c =>
    if p < n ∧ s.phase p = .ready ∧ s.loc p = .user then s.call p c else .ok s

/-- The discipline that the comments in `bio.c` and `log.c` ask for: a buffer is changed by the
process that holds it, and what is changed is logged or written before it is released. -/
def Documented (s : State) : Event → Prop
  | .call p (.store i _) | .call p (.logWrite i) | .call p (.bwrite i) =>
    i < nbuf ∧ (s.bufs i).lock = some p
  | .call p (.brelse i) => i < nbuf ∧ (s.bufs i).lock = some p ∧ s.unsaved i = false
  | _ => True

def InLog (l : Log.State) (b : Nat) : Prop := l.start ≤ b ∧ b < l.start + l.size

/-- What the file system adds to the discipline: there is one device, the blocks of the log are
left to the log, and a block that is being committed is not written past the log. -/
def Disciplined (s : State) (e : Event) : Prop :=
  Documented s e ∧
    match e with
    | .call _ (.bread dev _) => dev = s.dev
    | .call _ (.store i _) | .call _ (.logWrite i) => ¬ InLog s.log (s.bufs i).blockno
    | .call _ (.bwrite i) => ¬ InLog s.log (s.bufs i).blockno ∧
        ¬ (s.log.committing ∧ (s.bufs i).blockno ∈ s.log.lh.blocks)
    | _ => True

/-- The cache at rest after `initlog`: nothing is referenced or logged, and what is cached is
what is on the disk. -/
structure Start (s : State) : Prop where
  lru : Listing.Of s.lru (· < nbuf)
  rest : ∀ i < nbuf, (s.bufs i).refcnt = 0 ∧ (s.bufs i).lock = none
  unique : ∀ i j, i < nbuf → j < nbuf → (s.bufs i).dev = (s.bufs j).dev →
    (s.bufs i).blockno = (s.bufs j).blockno → (s.bufs i).dev ≠ 0 → i = j
  valid : ∀ i < nbuf, (s.bufs i).valid → (s.bufs i).dev = s.dev ∧
    (s.bufs i).data = s.disk (s.bufs i).blockno
  dev : s.dev ≠ 0
  empty : s.log.lh.n = 0
  outstanding : s.log.outstanding = 0
  committing : s.log.committing = false
  loc : ∀ p, s.loc p = .user
  phase : ∀ p, s.phase p = .ready
  latest : s.latest = s.disk
  unsaved : ∀ i, s.unsaved i = false
  installed : s.installed = 0

end Xv6.Bio
