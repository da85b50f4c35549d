/-
`kernel/virtio_disk.c`: processes that submit requests as chains of three descriptors and wait
for them, the interrupt handler, and the device.

The threads below `NPROC` are processes that call `virtio_disk_rw` on a buffer whose lock they
hold; the others are interrupts, which call `virtio_disk_intr`.  The device takes the entries of
the avail ring in order and posts each chain once, with status 0, whenever it likes.  The data
that it moves is left out.
-/
import Xv6.Lib.Monitor
import Xv6.Lib.Ring
import Xv6.Param

namespace Xv6.Virtio

open Function

/-- `NUM`, the number of descriptors and the size of the rings. -/
def num : Nat := 8

/-- What the address of a descriptor points to: the header `disk.ops[i]`, the data of a buffer,
or the byte `disk.info[i].status`. -/
inductive Addr where
  | null
  | op (i : Nat)
  | data (b : Nat)
  | status (i : Nat)
  deriving DecidableEq, Repr

def vringDescFNext : Nat := 1
def vringDescFWrite : Nat := 2

structure Desc where
  addr : Addr
  len : Nat
  flags : Nat
  next : Nat
  deriving DecidableEq

def Desc.zero : Desc := ⟨.null, 0, 0, 0⟩

structure Info where
  b : Option Nat
  status : Nat

structure BlkReq where
  type : Nat
  reserved : Nat
  sector : Nat

/-- How far the request that starts at a descriptor has come: there is none, or it is formatted,
in the avail ring, taken by the device, in the used ring, seen by the interrupt handler, or
done. -/
inductive Phase where
  | idle
  | draft
  | queued
  | taken
  | posted
  | clearing
  | cleared
  deriving DecidableEq, Repr

/-- A request in flight, with its other two descriptors. -/
structure Req where
  owner : Nat
  buf : Nat
  i1 : Nat
  i2 : Nat
  serial : Nat

/-- `struct disk`, the rings, `b->disk` of the buffers, and the state of the device.  The last
fields are bookkeeping: the caller that has a buffer, the requests in flight under their first
descriptor, the allocated descriptors that are in no request, and the numbers of the requests
that the device has completed and that `virtio_disk_rw` has returned from. -/
structure Disk where
  desc : Nat → Desc
  availIdx : UInt16
  availRing : Nat → Nat
  usedIdx : UInt16
  usedRing : Nat → Nat
  free : Nat → Bool
  usedSeen : UInt16
  info : Nat → Info
  ops : Nat → BlkReq
  blockno : Nat → Nat
  bufDisk : Nat → Bool
  lastAvail : UInt16
  pending : List Nat
  locked : Nat → Option Nat
  req : Nat → Option Req
  phase : Nat → Phase
  held : List Nat
  serials : Nat
  completed : List Nat
  returned : List Nat

inductive Chan where
  | free
  | buf (b : Nat)
  deriving DecidableEq, Repr

inductive Loc where
  | idle
  /-- `virtio_disk_rw` is about to call `alloc3_desc`. -/
  | rw (b : Nat) (write : Bool)
  /-- `alloc3_desc` has failed and frees what it got. -/
  | undo (b : Nat) (write : Bool) (idx : List Nat)
  | publish (b i0 serial : Nat)
  | waitDisk (b i0 serial : Nat)
  | freeChain (b i serial : Nat)
  | rwDone (b serial : Nat)
  | intr
  | intrNext (id : Nat)

inductive Input where
  | rw (b : Nat) (write : Bool)
  | intr
  | take
  | post (k : Nat)

abbrev Act := Monitor.Act Disk Loc Chan
abbrev State := Monitor.State Disk Loc Chan
abbrev Event := Monitor.Event Input

namespace Disk

variable (d : Disk)

def allocDesc : Option (Nat × Disk) :=
  ((List.range num).find? d.free).map fun i =>
    (i, { d with free := update d.free i false, held := d.held ++ [i] })

def freeDesc (i : Nat) : Except Panic Disk :=
  if num ≤ i then .error .freeDesc1
  else if d.free i then .error .freeDesc2
  else .ok { d with
    desc := update d.desc i .zero
    free := update d.free i true
    held := d.held.erase i }

def setPhase (h : Nat) (phase : Phase) : Disk :=
  { d with phase := update d.phase h phase }

/-- The three descriptors, `disk.info` and the slot of the avail ring are filled in. -/
def format (t b : Nat) (write : Bool) (i0 i1 i2 : Nat) : Disk :=
  let desc0 := update d.desc i0 ⟨.op i0, 16, vringDescFNext, i1⟩
  let flags := (if write then 0 else vringDescFWrite) ||| vringDescFNext
  let desc1 := update desc0 i1 ⟨.data b, bsize, flags, i2⟩
  { d with
    ops := update d.ops i0 ⟨if write then 1 else 0, 0, d.blockno b * (bsize / 512) % 2 ^ 32⟩
    desc := update desc1 i2 ⟨.status i0, 1, vringDescFWrite, 0⟩
    info := update d.info i0 ⟨some b, 255⟩
    bufDisk := update d.bufDisk b true
    availRing := update d.availRing (d.availIdx.toNat % num) i0
    req := update d.req i0 (some ⟨t, b, i1, i2, d.serials⟩)
    phase := update d.phase i0 .draft
    held := []
    serials := d.serials + 1 }

/-- `disk.info[idx[0]].b = 0`, before the chain is freed. -/
def retire (i0 : Nat) : Disk :=
  { d with
    info := update d.info i0 { d.info i0 with b := none }
    req := update d.req i0 none
    phase := update d.phase i0 .idle
    held := match d.req i0 with
      | some r => [i0, r.i1, r.i2]
      | none => [] }

def take : Disk :=
  if d.lastAvail = d.availIdx then d
  else
    let h := d.availRing (d.lastAvail.toNat % num)
    { d.setPhase h .taken with lastAvail := d.lastAvail + 1, pending := d.pending ++ [h] }

/-- The device writes 0 to the byte that the third descriptor of the chain points to. -/
def writeStatus (h : Nat) : Nat → Info :=
  match (d.desc (d.desc (d.desc h).next).next).addr with
  | .status i => update d.info i { d.info i with status := 0 }
  | _ => d.info

/-- The device completes one of the requests it has taken. -/
def post (k : Nat) : Disk :=
  match d.pending[k]? with
  | none => d
  | some h =>
    { d.setPhase h .posted with
      info := d.writeStatus h
      usedRing := update d.usedRing (d.usedIdx.toNat % num) h
      usedIdx := d.usedIdx + 1
      pending := d.pending.eraseIdx k
      completed := d.completed ++ ((d.req h).map (·.serial)).toList }

end Disk

/-- The call of `alloc3_desc` in `virtio_disk_rw`, and what follows when it succeeds. -/
def virtioDiskRw (d : Disk) (t b : Nat) (write : Bool) : Act :=
  match d.allocDesc with
  | none => .sleep .free d (.rw b write)
  | some (i0, d1) =>
    match d1.allocDesc with
    | none => .goto d1 (.undo b write [i0])
    | some (i1, d2) =>
      match d2.allocDesc with
      | none => .goto d2 (.undo b write [i0, i1])
      | some (i2, d3) => .goto (d3.format t b write i0 i1 i2) (.publish b i0 d3.serials)

def virtioDiskIntr (d : Disk) : Except Panic Act :=
  if d.usedSeen = d.usedIdx then .ok (.release d .idle)
  else
    let id := d.usedRing (d.usedSeen.toNat % num)
    if (d.info id).status ≠ 0 then .error .virtioDiskIntrStatus
    else
      match (d.info id).b with
      | none => .error .outOfBounds
      | some b =>
        .ok (.wakeup (.buf b)
          { d.setPhase id .clearing with bufDisk := update d.bufDisk b false }
          (.intrNext id))

def inside (t : Nat) (ℓ : Loc) (d : Disk) : Except Panic Act :=
  match ℓ with
  | .rw b write => .ok (virtioDiskRw d t b write)
  | .undo b write [] => .ok (.sleep .free d (.rw b write))
  | .undo b write (i :: idx) => do
      let d' ← d.freeDesc i
      return .wakeup .free d' (.undo b write idx)
  | .publish b i0 serial =>
    .ok (.goto { d.setPhase i0 .queued with availIdx := d.availIdx + 1 } (.waitDisk b i0 serial))
  | .waitDisk b i0 serial =>
    if d.bufDisk b then .ok (.sleep (.buf b) d (.waitDisk b i0 serial))
    else .ok (.goto (d.retire i0) (.freeChain b i0 serial))
  | .freeChain b i serial => do
      let flag := (d.desc i).flags
      let nxt := (d.desc i).next
      let d' ← d.freeDesc i
      return .wakeup .free d'
        (if flag &&& vringDescFNext ≠ 0 then .freeChain b nxt serial else .rwDone b serial)
  | .rwDone b serial =>
    .ok (.release { d with
      locked := update d.locked b none, returned := d.returned ++ [serial] } .idle)
  | .intr => virtioDiskIntr d
  | .intrNext id => .ok (.goto { d.setPhase id .cleared with usedSeen := d.usedSeen + 1 } .intr)
  | .idle => .ok (.release d .idle)

/-- A process calls `virtio_disk_rw` with a buffer that no other call has; an interrupt
arrives. -/
def outside (t : Nat) (ℓ : Loc) (d : Disk) (inp : Input) : Monitor.Move Disk Loc :=
  match ℓ, inp with
  | .idle, .rw b write =>
    if t < nproc ∧ d.locked b = none then
      .acquire { d with locked := update d.locked b (some t) } (.rw b write)
    else .stay
  | .idle, .intr => if t < nproc then .stay else .acquire d .intr
  | _, _ => .stay

def client : Monitor.Client Disk Loc Chan Input Panic where
  inside t _ ℓ d _ := inside t ℓ d
  outside t _ ℓ d inp := .ok (outside t ℓ d inp)
  env d inp :=
    match inp with
    | .take => d.take
    | .post k => d.post k
    | _ => d

def step : State → Event → Except Panic State := Monitor.step client nproc

/-- The driver after `virtio_disk_init`, with the ring indices at any common value. -/
structure Start (s : State) : Prop where
  avail : s.data.lastAvail = s.data.availIdx
  used : s.data.usedSeen = s.data.usedIdx
  free : ∀ i, s.data.free i = true
  pending : s.data.pending = []
  locked : ∀ b, s.data.locked b = none
  req : ∀ h, s.data.req h = none
  phase : ∀ h, s.data.phase h = .idle
  held : s.data.held = []
  completed : s.data.completed = []
  returned : s.data.returned = []
  holder : s.holder = none
  ctl : ∀ t, s.ctl t = .out .idle

end Xv6.Virtio
