/-
The page-table layer, `kernel/vm.c`.  A page table is the tree of its pages; a function that
changes one takes it and the physical memory and returns both.  A null `pagetable_t` is the
table without a root page.
-/
import Xv6.Vm.Kalloc

namespace Xv6

/-- The pages of a three-level table; the entries of the lowest level are PTE words.  An entry
of the upper levels is `PA2PTE(frame) | PTE_V` of the page below it, or 0. -/
abbrev PageTable := Radix.Table Nat 2

namespace PageTable

/-- The entry for `va`; 0 where a page on the path is missing. -/
def pte (pt : PageTable) (va : Nat) : Nat := Radix.Table.get 512 pt (vpn va)

/-- The store `*pte = w` through the pointer that `walk` returned for `va`. -/
def setPte (pt : PageTable) (va w : Nat) : PageTable := Radix.Table.set 512 pt (vpn va) w

def pages (pt : PageTable) : List Nat := Radix.Table.pages 512 pt

/-- The path to the entry for `va` has all its pages. -/
def reaches (pt : PageTable) (va : Nat) : Bool := Radix.Table.reaches 512 pt 0 (vpn va)

def isNull : PageTable → Bool
  | .absent => true
  | .dir _ _ => false

end PageTable

/-- `walk`; the result says whether the pointer is non-null.  Page-table pages are taken top
down, and those made before `kalloc` failed stay in the table. -/
def walk (pt : PageTable) (ph : Phys) (va : Nat) (alloc : Bool) :
    Except Panic (Bool × PageTable × Phys) :=
  if va ≥ maxva then .error .walk
  else if pt.isNull then .error .kerneltrap
  else if alloc then .ok (Radix.Table.grow 512 kalloc pt (vpn va) ph)
  else .ok (pt.reaches va, pt, ph)

/-- `walkaddr`; 0 if not mapped for the user. -/
def walkaddr (pt : PageTable) (va : Nat) : Except Panic Nat :=
  if va ≥ maxva then .ok 0
  else if pt.isNull then .error .kerneltrap
  else if !pt.reaches va then .ok 0
  else if !has (pt.pte va) pteV then .ok 0
  else if !has (pt.pte va) pteU then .ok 0
  else .ok (pte2pa (pt.pte va))

/-- The loop of `mappages` and `mapvpages` over the pages from `a` on, `n` after the first;
`store` is what is done with the entry of the page at the given offset from the first. -/
def mapLoop (store : Nat → Nat → PageTable → PageTable) :
    Nat → Nat → Nat → PageTable → Phys → Except Panic (Bool × PageTable × Phys)
  | n, off, a, pt, ph => do
      let (found, pt, ph) ← walk pt ph a true
      if found then
        require (!has (pt.pte a) pteV) .mappagesRemap
        match n with
        | 0 => return (true, store off a pt, ph)
        | n + 1 => mapLoop store n (off + pgsize) (word (a + pgsize)) (store off a pt) ph
      else return (false, pt, ph)

/-- The number of steps `a += PGSIZE` until `a == last`. -/
def pagesTo (a last : Nat) : Nat := wsub last a / pgsize

/-- `mappages`; `perm` is the word of an `int`. -/
def mappages (pt : PageTable) (ph : Phys) (va size pa perm : Nat) :
    Except Panic (Bool × PageTable × Phys) :=
  if size = 0 then .error .mappagesSize
  else
    let a := pgrounddown va
    let last := pgrounddown (word (va + size - 1))
    mapLoop (fun off a pt => pt.setPte a (pa2pte (word (pa + off)) ||| sext perm ||| pteV))
      (pagesTo a last) 0 a pt ph

/-- `mapvpages`: make the page-table pages, leave the entries alone. -/
def mapvpages (pt : PageTable) (ph : Phys) (va size : Nat) :
    Except Panic (Bool × PageTable × Phys) :=
  if size = 0 then .error .mappagesSize
  else
    let a := pgrounddown va
    let last := pgrounddown (word (va + size - 1))
    mapLoop (fun _ _ pt => pt) (pagesTo a last) 0 a pt ph

/-- The number of rounds of `for(a = from; a < to; a += PGSIZE)`. -/
def pageCount (start stop : Nat) : Nat :=
  if start < stop then (stop - start + (pgsize - 1)) / pgsize else 0

/-- `if(do_free) kfree(pa);` -/
def kfreeIf (doFree : Bool) (ph : Phys) (pa : Nat) : Except Panic Phys :=
  if doFree then kfree ph pa else .ok ph

def uvmunmapLoop (doFree : Bool) :
    Nat → Nat → PageTable → Phys → Except Panic (PageTable × Phys)
  | 0, _, pt, ph => .ok (pt, ph)
  | n + 1, a, pt, ph => do
      let (found, _, _) ← walk pt ph a false
      require found .uvmunmapWalk
      require (has (pt.pte a) pteV) .uvmunmapNotMapped
      require (pteFlags (pt.pte a) != pteV) .uvmunmapNotALeaf
      let ph ← kfreeIf doFree ph (pte2pa (pt.pte a))
      uvmunmapLoop doFree n (a + pgsize) (pt.setPte a 0) ph

def uvmunmap (pt : PageTable) (ph : Phys) (va npages : Nat) (doFree : Bool) :
    Except Panic (PageTable × Phys) :=
  if va % pgsize ≠ 0 then .error .uvmunmapNotAligned
  else uvmunmapLoop doFree (pageCount va (word (va + npages * pgsize))) va pt ph

def uvmcreate (ph : Phys) : Option (PageTable × Phys) :=
  (kalloc ph).map fun r => (Radix.Table.empty r.1 2, r.2)

/-- `uvmdealloc`; the new size. -/
def uvmdealloc (pt : PageTable) (ph : Phys) (oldsz newsz : Nat) :
    Except Panic (Nat × PageTable × Phys) :=
  if newsz ≥ oldsz then .ok (oldsz, pt, ph)
  else if pgroundup newsz < pgroundup oldsz then do
    -- the page count goes through an `int`
    let npages := sext ((pgroundup oldsz - pgroundup newsz) / pgsize)
    let (pt, ph) ← uvmunmap pt ph (pgroundup newsz) npages true
    return (newsz, pt, ph)
  else .ok (newsz, pt, ph)

def uvmallocLoop (oldsz newsz : Nat) :
    Nat → Nat → PageTable → Phys → Except Panic (Nat × PageTable × Phys)
  | 0, _, pt, ph => .ok (newsz, pt, ph)
  | n + 1, a, pt, ph =>
    match kalloc ph with
    | none => do
        let (_, pt, ph) ← uvmdealloc pt ph a oldsz
        return (0, pt, ph)
    | some (mem, ph) => do
        let ph := { ph with mem := memsetPage ph.mem mem 0 }
        let (ok, pt, ph) ← mappages pt ph a pgsize mem (pteW ||| pteX ||| pteR ||| pteU)
        if ok then uvmallocLoop oldsz newsz n (a + pgsize) pt ph
        else
          let ph ← kfree ph mem
          let (_, pt, ph) ← uvmdealloc pt ph a oldsz
          return (0, pt, ph)

/-- `uvmalloc`; the new size, 0 on error. -/
def uvmalloc (pt : PageTable) (ph : Phys) (oldsz newsz : Nat) :
    Except Panic (Nat × PageTable × Phys) :=
  if newsz < oldsz then .ok (oldsz, pt, ph)
  else
    let oldsz := pgroundup oldsz
    uvmallocLoop oldsz newsz (pageCount oldsz newsz) oldsz pt ph

/-- The scan of a lowest-level page by `freewalk`.  A valid entry without R, W and X would be
taken for a lower page table, whatever memory it points to. -/
def freewalkScan (e : Nat → Nat) : Nat → Except Panic Unit
  | 0 => .ok ()
  | n + 1 => do
      freewalkScan e n
      if has (e n) pteV then
        if has (e n) (pteR ||| pteW ||| pteX) then .error .freewalkLeaf
        else .error .outOfBounds
      else .ok ()

/-- The loop of `freewalk` over the first `n` entries, given what it does with one. -/
def freewalkLoop (visit : Nat → Phys → Except Panic Phys) : Nat → Phys → Except Panic Phys
  | 0, ph => .ok ph
  | n + 1, ph => do
      let ph ← freewalkLoop visit n ph
      visit n ph

/-- `freewalk` on a page of any level. -/
def freewalk : {l : Nat} → Radix.Table Nat l → Phys → Except Panic Phys
  | _, .absent, ph => .ok ph
  | _, .page f e, ph => do
      freewalkScan e 512
      kfree ph f
  | _, .dir f c, ph => do
      let ph ← freewalkLoop (fun i ph => freewalk (c i) ph) 512 ph
      kfree ph f

def uvmfree (pt : PageTable) (ph : Phys) (sz : Nat) : Except Panic Phys :=
  if sz > 0 then do
    let (pt, ph) ← uvmunmap pt ph 0 (pgroundup sz / pgsize) true
    freewalk pt ph
  else freewalk pt ph

def isDevice (pa : Nat) : Bool :=
  (uart0 ≤ pa && pa < uart0 + pgsize) || (virtio0 ≤ pa && pa < virtio0 + pgsize) ||
    (plic ≤ pa && pa < plic + 0x400000)

/-- The kernel can read `pa` through its direct map. -/
def kernelReads (pa : Nat) : Bool := (kernbase ≤ pa && pa < phystop) || isDevice pa

/-- The kernel can write `pa` through its direct map: its own code is mapped read-only. -/
def kernelWrites (pa : Nat) : Bool := (etext ≤ pa && pa < phystop) || isDevice pa

/-- `memmove(dst, src, n)` between two places that do not overlap. -/
def copyBytes (mem : Nat → UInt8) (dst src n : Nat) : Nat → UInt8 :=
  fun a => if dst ≤ a ∧ a < dst + n then mem (src + (a - dst)) else mem a

/-- The frame that the child gets for a page of the parent in `pa`: the same one, or a new one
with a copy of its bytes. -/
def frameFor (shared : Bool) (ph : Phys) (pa : Nat) : Except Panic (Option Nat × Phys) :=
  if shared then .ok (some pa, ph)
  else
    match kalloc ph with
    | none => .ok (none, ph)
    | some (mem, ph) => do
        require (kernelReads pa) .kerneltrap
        return (some mem, { ph with mem := copyBytes ph.mem mem pa pgsize })

/-- The loop of `uvmcopy` and of `uvmcopyshared`; both unmap from address 0 when they fail. -/
def uvmcopyLoop (shared : Bool) (old : PageTable) :
    Nat → Nat → PageTable → Phys → Except Panic (Bool × PageTable × Phys)
  | 0, _, new, ph => .ok (true, new, ph)
  | n + 1, i, new, ph => do
      let (found, _, _) ← walk old ph i false
      require found .uvmcopyPteShouldExist
      require (has (old.pte i) pteV) .uvmcopyPageNotPresent
      let (frame, ph) ← frameFor shared ph (pte2pa (old.pte i))
      match frame with
      | none =>
        let (new, ph) ← uvmunmap new ph 0 (i / pgsize) true
        return (false, new, ph)
      | some mem =>
        let (ok, new, ph) ← mappages new ph i pgsize mem (pteFlags (old.pte i))
        if ok then uvmcopyLoop shared old n (i + pgsize) new ph
        else
          let ph ← kfreeIf (!shared) ph mem
          let (new, ph) ← uvmunmap new ph 0 (i / pgsize) true
          return (false, new, ph)

def uvmcopy (old new : PageTable) (ph : Phys) (start stop : Nat) :
    Except Panic (Bool × PageTable × Phys) :=
  uvmcopyLoop false old (pageCount start stop) start new ph

def uvmcopyshared (old new : PageTable) (ph : Phys) (start stop : Nat) :
    Except Panic (Bool × PageTable × Phys) :=
  uvmcopyLoop true old (pageCount start stop) start new ph

/-- `uvmclear`: take the user bit away. -/
def uvmclear (pt : PageTable) (ph : Phys) (va : Nat) : Except Panic PageTable := do
  let (found, _, _) ← walk pt ph va false
  require found .uvmclear
  return pt.setPte va (pt.pte va - (pt.pte va &&& pteU))

/-- `uvminit`: the first page of the first process, with `src` in it. -/
def uvminit (pt : PageTable) (ph : Phys) (src : List UInt8) : Except Panic (PageTable × Phys) :=
  if src.length ≥ pgsize then .error .inituvmMoreThanAPage
  else
    match kalloc ph with
    | none => .error .kerneltrap
    | some (mem, ph) => do
        let bytes := memsetPage ph.mem mem 0
        let (_, pt, ph) ← mappages pt { ph with mem := bytes } 0 pgsize mem
          (pteW ||| pteR ||| pteX ||| pteU)
        return (pt, { ph with mem := fun a =>
          if mem ≤ a ∧ a < mem + src.length then src.getD (a - mem) 0 else ph.mem a })

/-- `copyout`; whether all bytes of `src` were stored.  The first argument bounds the number
of pages. -/
def copyoutLoop (pt : PageTable) : Nat → Nat → List UInt8 → Phys → Except Panic (Bool × Phys)
  | 0, _, src, ph => .ok (src.isEmpty, ph)
  | fuel + 1, dstva, src, ph =>
    if src.isEmpty then .ok (true, ph)
    else do
      let va0 := pgrounddown dstva
      let pa0 ← walkaddr pt va0
      if pa0 = 0 then return (false, ph)
      else
        let n := min (pgsize - (dstva - va0)) src.length
        let dst := pa0 + (dstva - va0)
        require (kernelWrites dst) .kerneltrap
        let ph := { ph with mem := fun a =>
          if dst ≤ a ∧ a < dst + n then src.getD (a - dst) 0 else ph.mem a }
        copyoutLoop pt fuel (word (va0 + pgsize)) (src.drop n) ph

def copyout (pt : PageTable) (ph : Phys) (dstva : Nat) (src : List UInt8) :
    Except Panic (Bool × Phys) :=
  copyoutLoop pt src.length dstva src ph

/-! ## The page table of a process, from `kernel/proc.c` -/

/-- `proc_pagetable` for a process whose trapframe page is `tf`. -/
def procPagetable (ph : Phys) (tf : Nat) : Except Panic (PageTable × Phys) :=
  match uvmcreate ph with
  | none => .ok (.absent, ph)
  | some (pt, ph) => do
      let (ok, pt, ph) ← mappages pt ph trampoline pgsize trampolineCode (pteR ||| pteX)
      if ok then
        let (ok, pt, ph) ← mappages pt ph trapframe pgsize tf (pteR ||| pteW)
        if ok then return (pt, ph)
        else
          let (pt, ph) ← uvmunmap pt ph trampoline 1 false
          let ph ← uvmfree pt ph 0
          return (.absent, ph)
      else
        let ph ← uvmfree pt ph 0
        return (.absent, ph)

def procFreepagetable (pt : PageTable) (ph : Phys) (sz : Nat) : Except Panic Phys := do
  let (pt, ph) ← uvmunmap pt ph trampoline 1 false
  let (pt, ph) ← uvmunmap pt ph trapframe 1 false
  uvmfree pt ph sz

end Xv6
