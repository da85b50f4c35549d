/-
`exec` of `kernel/exec.c`.  The executable is given by the bytes of its file, `none` when the
path names none, and the arguments by their strings without the final NUL.
-/
import Xv6.Proc.Basic

namespace Xv6

/-- `readi(ip, 0, dst, off, n)` on a file with the given bytes: what is stored at `dst`. -/
def readi (file : List UInt8) (off n : Nat) : List UInt8 :=
  if off > file.length ∨ (off + n) % 2 ^ 32 < off then [] else (file.drop off).take n

def leAt (bytes : List UInt8) (off : Nat) : Nat → Nat
  | 0 => 0
  | n + 1 => (bytes.getD off 0).toNat + 2 ^ 8 * leAt bytes (off + 1) n

def elfMagic : Nat := 0x464C457F
def elfProgLoad : Nat := 1
def sizeofElfhdr : Nat := 64
def sizeofProghdr : Nat := 56

structure Elfhdr where
  magic : Nat
  entry : Nat
  phoff : Nat
  phnum : Nat

def Elfhdr.ofBytes (b : List UInt8) : Elfhdr :=
  { magic := leAt b 0 4, entry := leAt b 24 8, phoff := leAt b 32 8, phnum := leAt b 56 2 }

structure Proghdr where
  type : Nat
  off : Nat
  vaddr : Nat
  filesz : Nat
  memsz : Nat

def Proghdr.ofBytes (b : List UInt8) : Proghdr :=
  { type := leAt b 0 4, off := leAt b 8 8, vaddr := leAt b 16 8, filesz := leAt b 32 8
    memsz := leAt b 40 8 }

def storeBytes (mem : Nat → UInt8) (pa : Nat) (src : List UInt8) : Nat → UInt8 :=
  fun a => if pa ≤ a ∧ a < pa + src.length then src.getD (a - pa) 0 else mem a

def loadsegLoop (pt : PageTable) (file : List UInt8) (va offset sz : Nat) :
    Nat → Nat → Phys → Except Panic (Bool × Phys)
  | 0, _, ph => .ok (true, ph)
  | rounds + 1, i, ph => do
      let pa ← walkaddr pt (word (va + i))
      require (pa != 0) .loadsegAddressShouldExist
      let n := min (sz - i) pgsize
      let bytes := readi file ((offset + i) % 2 ^ 32) n
      require (kernelWrites pa) .kerneltrap
      let ph := { ph with mem := storeBytes ph.mem pa bytes }
      if bytes.length = n then loadsegLoop pt file va offset sz rounds (i + pgsize) ph
      else return (false, ph)

def loadseg (pt : PageTable) (ph : Phys) (va : Nat) (file : List UInt8) (offset sz : Nat) :
    Except Panic (Bool × Phys) :=
  loadsegLoop pt file va offset sz (pageCount 0 sz) 0 ph

/-- The loop over the program headers, `n` of them from offset `off` of the file.  `false` is
the jump to `bad`; the size is the one `bad` finds. -/
def loadProgram (file : List UInt8) :
    Nat → Nat → PageTable → Phys → Nat → Except Panic (Bool × PageTable × Phys × Nat)
  | 0, _, pt, ph, sz => .ok (true, pt, ph, sz)
  | n + 1, off, pt, ph, sz =>
    let bytes := readi file off sizeofProghdr
    let next := (off + sizeofProghdr) % 2 ^ 32
    let hdr := Proghdr.ofBytes bytes
    if bytes.length ≠ sizeofProghdr then .ok (false, pt, ph, sz)
    else if hdr.type ≠ elfProgLoad then loadProgram file n next pt ph sz
    else if hdr.memsz < hdr.filesz then .ok (false, pt, ph, sz)
    else if word (hdr.vaddr + hdr.memsz) < hdr.vaddr then .ok (false, pt, ph, sz)
    else do
      let (sz1, pt, ph) ← uvmalloc pt ph sz (word (hdr.vaddr + hdr.memsz))
      if sz1 = 0 then return (false, pt, ph, sz)
      else if hdr.vaddr % pgsize ≠ 0 then return (false, pt, ph, sz1)
      else
        let (ok, ph) ← loadseg pt ph hdr.vaddr file (hdr.off % 2 ^ 32) (hdr.filesz % 2 ^ 32)
        if ok then loadProgram file n next pt ph sz1 else return (false, pt, ph, sz1)

def wordBytes (w : Nat) : List UInt8 := (List.range 8).map fun i => .ofNat (w / 2 ^ (8 * i))

/-- `sp -= n; sp -= sp % 16;` -/
def pushSp (sp n : Nat) : Nat := wsub sp n - wsub sp n % 16

/-- The loop that pushes the argument strings; `none` is the jump to `bad`, else the stack
pointer and the addresses of the strings pushed after `ustack`. -/
def pushArgs (pt : PageTable) (stackbase : Nat) :
    List (List UInt8) → Nat → List Nat → Phys → Except Panic (Option (Nat × List Nat) × Phys)
  | [], sp, ustack, ph => .ok (some (sp, ustack), ph)
  | s :: argv, sp, ustack, ph =>
    if ustack.length ≥ maxarg then .ok (none, ph)
    else
      let sp := pushSp sp (s.length + 1)
      if sp < stackbase then .ok (none, ph)
      else do
        let (ok, ph) ← copyout pt ph sp (s ++ [0])
        if ok then pushArgs pt stackbase argv sp (ustack ++ [sp]) ph
        else return (none, ph)

/-- Push the strings and the array of pointers to them; the stack pointer, or `none` for the
jump to `bad`. -/
def pushArgv (pt : PageTable) (ph : Phys) (sz : Nat) (argv : List (List UInt8)) :
    Except Panic (Option Nat × Phys) := do
  let stackbase := wsub sz pgsize
  let (pushed, ph) ← pushArgs pt stackbase argv sz [] ph
  match pushed with
  | none => return (none, ph)
  | some (sp, ustack) =>
    -- `ustack` has MAXARG places, and the null pointer at its end needs one
    require (ustack.length < maxarg) .outOfBounds
    let sp := pushSp sp ((ustack.length + 1) * 8)
    if sp < stackbase then return (none, ph)
    else
      let (ok, ph) ← copyout pt ph sp ((ustack ++ [0]).flatMap wordBytes)
      return (if ok then some sp else none, ph)

/-- The stack of the new image: two pages above the program, the lower one a guard. -/
def execStack (pt : PageTable) (ph : Phys) (sz : Nat) (argv : List (List UInt8)) :
    Except Panic (Option Nat × PageTable × Phys × Nat) := do
  let sz := pgroundup sz
  let (sz1, pt, ph) ← uvmalloc pt ph sz (word (sz + 2 * pgsize))
  if sz1 = 0 then return (none, pt, ph, sz)
  else
    let pt ← uvmclear pt ph (wsub sz1 (2 * pgsize))
    let (sp, ph) ← pushArgv pt ph sz1 argv
    return (sp, pt, ph, sz1)

def execBad (k : Kernel) (pt : PageTable) (ph : Phys) (sz : Nat) : Except Panic (Bool × Kernel) := do
  let ph ← procFreepagetable pt ph sz
  return (false, { k with phys := ph })

/-- The end of a successful `exec`: the registers a1, epc and sp, and the old address space. -/
def execCommit (k : Kernel) (p tf entry sp : Nat) (pt : PageTable) (ph : Phys) (sz : Nat) :
    Except Panic (Bool × Kernel) := do
  let mem := storeBytes ph.mem (tf + 120) (wordBytes sp)
  let mem := storeBytes mem (tf + 24) (wordBytes entry)
  let mem := storeBytes mem (tf + 48) (wordBytes sp)
  let ph ← procFreepagetable (k.proc p).pagetable { ph with mem := mem } (k.proc p).sz
  return (true, { k.setProc p { k.proc p with pagetable := pt, sz := sz } with phys := ph })

/-- `exec` by process `p`; whether it returned a count and not -1. -/
def exec (k : Kernel) (p : Nat) (file : Option (List UInt8)) (argv : List (List UInt8)) :
    Except Panic (Bool × Kernel) :=
  match file, (k.proc p).trapframe with
  | none, _ => .ok (false, k)
  | some _, none => .error .kerneltrap
  | some file, some tf =>
    let bytes := readi file 0 sizeofElfhdr
    let elf := Elfhdr.ofBytes bytes
    if bytes.length ≠ sizeofElfhdr ∨ elf.magic ≠ elfMagic then .ok (false, k)
    else do
      let (pt, ph) ← procPagetable k.phys tf
      if pt.isNull then return (false, { k with phys := ph })
      else
        let (ok, pt, ph, sz) ← loadProgram file elf.phnum (elf.phoff % 2 ^ 32) pt ph 0
        if ok then
          let (sp, pt, ph, sz) ← execStack pt ph sz argv
          match sp with
          | none => execBad k pt ph sz
          | some sp => execCommit k p tf elf.entry sp pt ph sz
        else execBad k pt ph sz

end Xv6
