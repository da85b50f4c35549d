/-
The calls that change address spaces: `fork`, `exit`, `wait` and `growproc` of `kernel/proc.c`,
`sys_mmap` and `munmap` of `kernel/sysfile.c`, and the page-fault branch of `usertrap` in
`kernel/trap.c`; then the machine that boots and runs them in any order.
-/
import Xv6.Proc.Basic

namespace Xv6

open Function

/-! ## fork -/

/-- `filedup` on every open file of `p`, for the first `n` descriptors of the child. -/
def forkFiles (k : Kernel) (p np : Nat) : Nat → Except Panic Kernel
  | 0 => .ok k
  | n + 1 => do
      let k ← forkFiles k p np n
      match (k.proc p).ofile n with
      | none => return k
      | some f =>
        require (1 ≤ k.fileRef f) .filedup
        let k := { k with fileRef := update k.fileRef f (k.fileRef f + 1) }
        return k.setProc np { k.proc np with
          ofile := update (k.proc np).ofile n (some f) }

/-- One page of a region, by `uvmcopyshared` or `uvmcopy`. -/
def copyPage (shared : Bool) (old new : PageTable) (ph : Phys) (addr : Nat) :
    Except Panic (Bool × PageTable × Phys) :=
  if shared then uvmcopyshared old new ph addr (addr + pgsize)
  else uvmcopy old new ph addr (addr + pgsize)

/-- The loop of `fork` over the pages of a region: touched pages are copied or shared. -/
def copyRegionLoop (shared : Bool) (old : PageTable) :
    Nat → Nat → PageTable → Phys → Except Panic (Bool × PageTable × Phys)
  | 0, _, new, ph => .ok (true, new, ph)
  | n + 1, addr, new, ph => do
      let pa ← walkaddr old addr
      if pa ≠ 0 then
        let (ok, new, ph) ← copyPage shared old new ph addr
        if ok then copyRegionLoop shared old n (addr + pgsize) new ph
        else return (false, new, ph)
      else copyRegionLoop shared old n (addr + pgsize) new ph

/-- The insertion of the child's node behind the parent's.  The node that followed the parent
keeps its back link. -/
def joinFamily (k : Kernel) (p np i : Nat) : Kernel :=
  let self : NodePtr := ⟨p, i⟩
  let child : NodePtr := ⟨np, i⟩
  let k := k.setNode child { listid := (k.node self).listid
                             next := (k.node self).next
                             prev := some self }
  let k := k.setNode self { k.node self with next := some child }
  if (k.node self).prev = some self then k.setNode self { k.node self with prev := some child }
  else k

/-- The body of the loop of `fork` over the regions; `false` when memory ran out. -/
def forkRegion (k : Kernel) (p np i : Nat) : Except Panic (Bool × Kernel) :=
  let r := (k.proc p).mmr i
  if r.valid then do
    let (ok, vm) ← copyRegionLoop (!r.isPrivate) (k.proc p).pagetable (pageCount r.addr r.stop)
      r.addr (k.proc np).pagetable k.phys
    let k := k.setVm np vm
    if !ok then return (false, k)
    else if r.isPrivate then
      return (true, k.setNode ⟨np, i⟩ { listid := -1, next := some ⟨np, i⟩, prev := some ⟨np, i⟩ })
    else
      require (inMmrList r.family.listid) .outOfBounds
      return (true, joinFamily k p np i)
  else .ok (true, k)

def forkRegions (k : Kernel) (p np : Nat) : Nat → Except Panic (Bool × Kernel)
  | 0 => .ok (true, k)
  | n + 1 => do
      let (ok, k) ← forkRegions k p np n
      if ok then forkRegion k p np n else return (false, k)

/-- `*(np->trapframe) = *(p->trapframe); np->trapframe->a0 = 0;` for trapframe pages `src` and
`dst`: 36 registers, `a0` the fifteenth. -/
def copyTrapframe (mem : Nat → UInt8) (dst src : Nat) : Nat → UInt8 :=
  fun a => if dst + 112 ≤ a ∧ a < dst + 120 then 0 else copyBytes mem dst src 288 a

def forkTrapframe (k : Kernel) (p np : Nat) : Except Panic Kernel :=
  match (k.proc p).trapframe, (k.proc np).trapframe with
  | some src, some dst =>
    .ok { k with phys := { k.phys with mem := copyTrapframe k.phys.mem dst src } }
  | _, _ => .error .kerneltrap

/-- `np->cwd = idup(p->cwd);` -/
def forkCwd (k : Kernel) (p np : Nat) : Except Panic Kernel :=
  match (k.proc p).cwd with
  | none => .error .kerneltrap
  | some d =>
    let k := { k with inodeRef := update k.inodeRef d (k.inodeRef d + 1) }
    .ok (k.setProc np { k.proc np with cwd := some d })

/-- The part of `fork` between the copy of the heap and the loop over the regions: size,
registers, open files, working directory and the table of regions. -/
def forkFields (k : Kernel) (p np : Nat) : Except Panic Kernel := do
  let k := k.setProc np { k.proc np with sz := (k.proc p).sz, curMax := (k.proc p).curMax }
  let k ← forkTrapframe k p np
  let k ← forkFiles k p np nofile
  let k ← forkCwd k p np
  return k.setProc np { k.proc np with mmr := (k.proc p).mmr }

def forkAbort (k : Kernel) (np : Nat) : Except Panic (Int × Kernel) := do
  let k ← freeproc k np
  return (-1, k)

/-- `fork` by process `p` once the slot `np` is set up. -/
def forkInto (k : Kernel) (p np : Nat) : Except Panic (Int × Kernel) := do
  let (ok, vm) ← uvmcopy (k.proc p).pagetable (k.proc np).pagetable k.phys 0 (k.proc p).sz
  if ok then
    let k ← forkFields (k.setVm np vm) p np
    let (ok, k) ← forkRegions k p np maxMmr
    if ok then
      return ((k.proc np).pid,
        k.setProc np { k.proc np with parent := some p, state := .runnable })
    else forkAbort k np
  else forkAbort (k.setVm np vm) np

/-- `fork` by process `p`; the pid of the child, or -1. -/
def fork (k : Kernel) (p : Nat) : Except Panic (Int × Kernel) := do
  let (slot, k) ← allocproc k
  match slot with
  | none => return (-1, k)
  | some np => forkInto k p np

/-! ## exit and wait -/

/-- Close the first `n` descriptors of `p`.  What the last close of a file releases belongs to
the file system. -/
def exitFiles (k : Kernel) (p : Nat) : Nat → Except Panic Kernel
  | 0 => .ok k
  | n + 1 => do
      let k ← exitFiles k p n
      match (k.proc p).ofile n with
      | none => return k
      | some f =>
        require (1 ≤ k.fileRef f) .fileclose
        let k := { k with fileRef := update k.fileRef f (k.fileRef f - 1) }
        return k.setProc p { k.proc p with ofile := update (k.proc p).ofile n none }

def reparent (k : Kernel) (p : Nat) : Kernel :=
  { k with proc := fun q =>
      if q < nproc ∧ (k.proc q).parent = some p then { k.proc q with parent := some k.initproc }
      else k.proc q }

/-- `exit` by process `p`; `status` is the word of an `int`. -/
def exit (k : Kernel) (p status : Nat) : Except Panic Kernel :=
  if p = k.initproc then .error .initExiting
  else do
    let k ← exitFiles k p nofile
    match (k.proc p).cwd with
    | none => .error .kerneltrap
    | some d =>
      let k := { k with inodeRef := update k.inodeRef d (k.inodeRef d - 1) }
      let k := k.setProc p { k.proc p with cwd := none }
      let k := reparent k p
      return k.setProc p { k.proc p with xstate := status, state := .zombie }

def intBytes (w : Nat) : List UInt8 :=
  [.ofNat w, .ofNat (w / 2 ^ 8), .ofNat (w / 2 ^ 16), .ofNat (w / 2 ^ 24)]

/-- One scan of the table by `wait`.  Where no child has exited the caller returns -1 or goes to
sleep, and nothing has changed. -/
def wait (k : Kernel) (p addr : Nat) : Except Panic Kernel :=
  match (List.range nproc).find?
      fun c => (k.proc c).parent = some p ∧ (k.proc c).state = .zombie with
  | none => .ok k
  | some c =>
    if addr = 0 then freeproc k c
    else do
      let (ok, ph) ← copyout (k.proc p).pagetable k.phys addr (intBytes (k.proc c).xstate)
      let k := { k with phys := ph }
      if ok then freeproc k c else return k

/-! ## sbrk, mmap, munmap and page faults -/

/-- `growproc`; `n` is the word of an `int` and the size goes through a `uint`. -/
def growproc (k : Kernel) (p n : Nat) : Except Panic (Bool × Kernel) :=
  let sz := (k.proc p).sz % 2 ^ 32
  let newsz := (sz + n) % 2 ^ 32
  let finish := fun (sz : Nat) (pt : PageTable) (ph : Phys) =>
    { k.setProc p { k.proc p with pagetable := pt, sz := sz } with phys := ph }
  if n = 0 then .ok (true, finish sz (k.proc p).pagetable k.phys)
  else if n < 2 ^ 31 then do
    let (r, pt, ph) ← uvmalloc (k.proc p).pagetable k.phys sz newsz
    if r % 2 ^ 32 = 0 then return (false, k.setVm p (pt, ph))
    else return (true, finish (r % 2 ^ 32) pt ph)
  else do
    let (r, pt, ph) ← uvmdealloc (k.proc p).pagetable k.phys sz newsz
    return (true, finish (r % 2 ^ 32) pt ph)

def freeMmr (k : Kernel) (p : Nat) : Option Nat :=
  (List.range maxMmr).find? fun i => !((k.proc p).mmr i).valid

/-- The entry that `sys_mmap` fills in for region `i` before it looks at the page table. -/
def newMmr (k : Kernel) (p i length prot flags : Nat) : Mmr :=
  let start := pgrounddown (wsub (k.proc p).curMax length)
  { addr := start
    length := wsub (k.proc p).curMax start % 2 ^ 32
    prot := prot
    flags := flags
    valid := true
    family := { (k.node ⟨p, i⟩) with next := some ⟨p, i⟩, prev := some ⟨p, i⟩ }
    origin := k.origins }

/-- `if (flags & MAP_SHARED) newmmr->mmr_family.listid = alloc_mmr_listid();` -/
def startFamily (k : Kernel) (p i flags : Nat) : Kernel :=
  if has flags mapShared then
    let (listid, k) := allocMmrListid k
    k.setNode ⟨p, i⟩ { k.node ⟨p, i⟩ with listid := listid }
  else k

/-- `sys_mmap`; the start of the region, or `none` for -1. -/
def sysMmap (k : Kernel) (p length prot flags : Nat) : Except Panic (Option Nat × Kernel) :=
  match freeMmr k p with
  | none => .ok (none, k)
  | some i => do
      let r := newMmr k p i length prot flags
      let k := { k.setMmr p i r with origins := k.origins + 1 }
      let (ok, vm) ← mapvpages (k.proc p).pagetable k.phys r.addr (sext r.length)
      let k := k.setVm p vm
      if ok then
        let k := startFamily k p i flags
        return (some r.addr, k.setProc p { k.proc p with curMax := r.addr })
      else return (none, k.setMmr p i { r with valid := false })

def findMmr (k : Kernel) (p addr length : Nat) : Option Nat :=
  (List.range maxMmr).find? fun i =>
    ((k.proc p).mmr i).valid ∧ addr = ((k.proc p).mmr i).addr ∧
      pgroundup length = sext ((k.proc p).mmr i).length

/-- How `munmap` gives region `i` up.  The lock of a list that `get_mmr_list` did not find is
taken all the same, through a null pointer. -/
def dropRegion (k : Kernel) (p i : Nat) : Except Panic (Bool × Kernel) :=
  let r := (k.proc p).mmr i
  if r.isPrivate then .ok (true, k)
  else if getMmrList k r.family.listid then leaveFamily k p i
  else .error .kerneltrap

/-- `munmap`; whether it returned 0. -/
def munmap (k : Kernel) (p addr length : Nat) : Except Panic (Bool × Kernel) :=
  match findMmr k p addr length with
  | none => .ok (false, k)
  | some i => do
      let r := (k.proc p).mmr i
      let (doFree, k) ← dropRegion (k.setMmr p i { r with valid := false }) p i
      let vm ← unmapLoop doFree (pageCount addr r.stop) addr (k.proc p).pagetable k.phys
      return (true, k.setVm p vm)

/-- The body of the loop of `usertrap` over the regions, for a load (13) or store (15) fault at
`va`.  Neither the result of `kalloc` nor that of `mappages` is looked at. -/
def faultRegion (k : Kernel) (p i : Nat) (store : Bool) (va : Nat) : Except Panic Kernel :=
  let r := (k.proc p).mmr i
  if r.addr ≤ va ∧ va < r.stop ∧ r.valid then
    if has r.prot (if store then pteW else pteR) then do
      let (pa, ph) := (kalloc k.phys).getD (0, k.phys)
      let (_, vm) ← mappages (k.proc p).pagetable ph (pgrounddown va) pgsize pa
        ((r.prot ||| pteU) % 2 ^ 32)
      return k.setVm p vm
    else .ok k
  else .ok k

def faultRegions (k : Kernel) (p : Nat) (store : Bool) (va : Nat) : Nat → Except Panic Kernel
  | 0 => .ok k
  | n + 1 => do
      let k ← faultRegions k p store va n
      faultRegion k p n store va

def usertrapFault (k : Kernel) (p : Nat) (store : Bool) (va : Nat) : Except Panic Kernel := do
  let k ← faultRegions k p store va maxMmr
  if (k.proc p).killed then exit k p (2 ^ 32 - 1) else return k

/-- The access takes no page fault: the entry is valid, for the user, and allows it.  An entry with W
and without R is reserved, and an access through it faults.  Whether there is memory at the address
is another question. -/
def allowed (pt : PageTable) (store : Bool) (va : Nat) : Bool :=
  va < maxva && has (pt.pte va) pteV && has (pt.pte va) pteU && has (pt.pte va) pteR &&
    (!store || has (pt.pte va) pteW)

end Xv6
