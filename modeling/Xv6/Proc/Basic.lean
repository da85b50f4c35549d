/-
Processes and their mapped regions: the process table of `kernel/proc.h` and the functions of
`kernel/proc.c`, `kernel/sysfile.c` and `kernel/trap.c` that build, change and tear down
address spaces.  Every function runs to its end without interleaving; the scheduling fields
and the locks are left to the model of the scheduler.
-/
import Xv6.Vm.Basic

namespace Xv6

open Function

inductive ProcState where
  | unused | used | sleeping | runnable | running | zombie
  deriving DecidableEq, Repr

/-- A pointer to a `struct mmr_node`: the node of region `idx` of process `proc`. -/
structure NodePtr where
  proc : Nat
  idx : Nat
  deriving DecidableEq, Repr

/-- `struct mmr_node`; `none` is the null pointer.  Nothing reads its `proc` field. -/
structure MmrNode where
  listid : Int
  next : Option NodePtr
  prev : Option NodePtr
  deriving DecidableEq, Repr

/-- `struct mmr`.  `length`, `prot` and `flags` are words of an `int`.  `origin` is a ghost: the
number of the `mmap` call that made the region, copied along by `fork` and read by no function. -/
structure Mmr where
  addr : Nat
  length : Nat
  prot : Nat
  flags : Nat
  valid : Bool
  family : MmrNode
  origin : Nat

/-- The part of `struct proc` that the address-space functions use. -/
structure Proc where
  state : ProcState
  killed : Bool
  xstate : Nat
  pid : Int
  parent : Option Nat
  sz : Nat
  pagetable : PageTable
  trapframe : Option Nat
  ofile : Nat → Option Nat
  cwd : Option Nat
  mmr : Nat → Mmr
  curMax : Nat

/-- The kernel's data: the process table, physical memory, the valid bits of `mmr_list`, the
reference counts of open files and inodes, and the ghost count of `mmap` calls. -/
structure Kernel where
  proc : Nat → Proc
  phys : Phys
  mmrList : Nat → Bool
  fileRef : Nat → Int
  inodeRef : Nat → Int
  nextpid : Int
  initproc : Nat
  origins : Nat

def Mmr.isPrivate (r : Mmr) : Bool := has r.flags mapPrivate

/-- `r->addr + r->length` -/
def Mmr.stop (r : Mmr) : Nat := word (r.addr + sext r.length)

namespace Kernel

def setProc (k : Kernel) (p : Nat) (q : Proc) : Kernel :=
  { k with proc := update k.proc p q }

def setMmr (k : Kernel) (p i : Nat) (r : Mmr) : Kernel :=
  k.setProc p { k.proc p with mmr := update (k.proc p).mmr i r }

def node (k : Kernel) (n : NodePtr) : MmrNode := ((k.proc n.proc).mmr n.idx).family

def setNode (k : Kernel) (n : NodePtr) (v : MmrNode) : Kernel :=
  k.setMmr n.proc n.idx { (k.proc n.proc).mmr n.idx with family := v }

/-- Replace the page table of `p` and physical memory. -/
def setVm (k : Kernel) (p : Nat) (r : PageTable × Phys) : Kernel :=
  { k.setProc p { k.proc p with pagetable := r.1 } with phys := r.2 }

end Kernel

/-! ## mmr_list -/

def nlist : Nat := nproc * maxMmr

def inMmrList (listid : Int) : Prop := 0 ≤ listid ∧ listid < nlist

instance (listid : Int) : Decidable (inMmrList listid) := inferInstanceAs (Decidable (_ ∧ _))

def deallocMmrListid (k : Kernel) (listid : Int) : Except Panic Kernel :=
  if inMmrList listid then
    .ok { k with mmrList := update k.mmrList listid.toNat false }
  else .error .outOfBounds

/-- `alloc_mmr_listid`; -1 when all ids are taken. -/
def allocMmrListid (k : Kernel) : Int × Kernel :=
  match (List.range nlist).find? (fun i => !k.mmrList i) with
  | none => (-1, k)
  | some i => (i, { k with mmrList := update k.mmrList i true })

/-- `get_mmr_list`; whether the pointer is non-null. -/
def getMmrList (k : Kernel) (listid : Int) : Bool := inMmrList listid && k.mmrList listid.toNat

/-- The critical section on a region's family when `p` gives region `i` up.  The result says
whether no other member is left, in which case the id is given back. -/
def leaveFamily (k : Kernel) (p i : Nat) : Except Panic (Bool × Kernel) :=
  let self : NodePtr := ⟨p, i⟩
  if (k.node self).next = some self then do
    let k ← deallocMmrListid k (k.node self).listid
    return (true, k)
  else
    match (k.node self).next with
    | none => .error .kerneltrap
    | some n =>
      let k := k.setNode n { k.node n with prev := (k.node self).prev }
      match (k.node self).prev with
      | none => .error .kerneltrap
      | some m => .ok (false, k.setNode m { k.node m with next := (k.node self).next })

def unmapLoop (doFree : Bool) : Nat → Nat → PageTable → Phys → Except Panic (PageTable × Phys)
  | 0, _, pt, ph => .ok (pt, ph)
  | n + 1, addr, pt, ph => do
      let pa ← walkaddr pt addr
      if pa ≠ 0 then
        let (pt, ph) ← uvmunmap pt ph addr 1 doFree
        unmapLoop doFree n (addr + pgsize) pt ph
      else unmapLoop doFree n (addr + pgsize) pt ph

/-! ## freeproc and allocproc -/

/-- How `freeproc` gives region `i` up; the result says whether its frames are to be freed. -/
def releaseRegion (k : Kernel) (p i : Nat) : Except Panic (Bool × Kernel) :=
  let r := (k.proc p).mmr i
  if r.isPrivate then .ok (true, k)
  else if inMmrList r.family.listid then leaveFamily k p i
  else .error .outOfBounds

/-- The body of the loop of `freeproc` over the regions.  The region stays marked valid. -/
def freeRegion (k : Kernel) (p i : Nat) : Except Panic Kernel :=
  let r := (k.proc p).mmr i
  if r.valid then do
    let (doFree, k) ← releaseRegion k p i
    let vm ← unmapLoop doFree (pageCount r.addr r.stop) r.addr (k.proc p).pagetable k.phys
    return k.setVm p vm
  else .ok k

def freeRegions (k : Kernel) (p : Nat) : Nat → Except Panic Kernel
  | 0 => .ok k
  | n + 1 => do
      let k ← freeRegions k p n
      freeRegion k p n

def freeTrapframe (k : Kernel) (p : Nat) : Except Panic Kernel :=
  match (k.proc p).trapframe with
  | none => .ok k
  | some tf => do
      let ph ← kfree k.phys tf
      return { k.setProc p { k.proc p with trapframe := none } with phys := ph }

def freeTable (k : Kernel) (p : Nat) : Except Panic Phys :=
  if (k.proc p).pagetable.isNull then .ok k.phys
  else procFreepagetable (k.proc p).pagetable k.phys (k.proc p).sz

def freeproc (k : Kernel) (p : Nat) : Except Panic Kernel := do
  let k ← freeTrapframe k p
  let k ← freeRegions k p maxMmr
  let ph ← freeTable k p
  return { k.setProc p { k.proc p with
    pagetable := .absent, sz := 0, pid := 0, parent := none, killed := false, xstate := 0,
    state := .unused } with phys := ph }

/-- The 32-bit successor of `nextpid`. -/
def allocpid (k : Kernel) : Int × Kernel :=
  (k.nextpid, { k with nextpid := (k.nextpid + 1 + 2 ^ 31) % 2 ^ 32 - 2 ^ 31 })

def freeSlot (k : Kernel) : Option Nat :=
  (List.range nproc).find? fun p => (k.proc p).state = .unused

def allocproc (k : Kernel) : Except Panic (Option Nat × Kernel) :=
  match freeSlot k with
  | none => .ok (none, k)
  | some p =>
    let (pid, k) := allocpid k
    let k := k.setProc p { k.proc p with pid := pid, state := .used }
    match kalloc k.phys with
    | none => do
        let k ← freeproc k p
        return (none, k)
    | some (tf, ph) => do
        let k := { k.setProc p { k.proc p with trapframe := some tf } with phys := ph }
        let vm ← procPagetable k.phys tf
        let k := k.setVm p vm
        if vm.1.isNull then
          let k ← freeproc k p
          return (none, k)
        else return (some p, k)

end Xv6
