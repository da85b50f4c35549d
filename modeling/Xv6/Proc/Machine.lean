/-
The machine: `userinit` makes the first process, and from then on any process that can run makes
any call or touches any address.
-/
import Xv6.Lib.Run
import Xv6.Proc.Calls
import Xv6.Proc.Exec

namespace Xv6

open Run (map_eq_ok)

/-- An entry of the process table before its first use: static storage is zero. -/
def Proc.zero : Proc :=
  { state := .unused, killed := false, xstate := 0, pid := 0, parent := none, sz := 0
    pagetable := .absent, trapframe := none, ofile := fun _ => none, cwd := none
    mmr := fun _ => { addr := 0, length := 0, prot := 0, flags := 0, valid := false
                      family := { listid := 0, next := none, prev := none }, origin := 0 }
    curMax := 0 }

/-- The kernel after its initialisation, when the pages left over are those of `ph`. -/
def Kernel.start (ph : Phys) : Kernel :=
  { proc := fun _ => Proc.zero, phys := ph, mmrList := fun _ => false, fileRef := fun _ => 0
    inodeRef := fun _ => 0, nextpid := 1, initproc := 0, origins := 0 }

/-- A user program that calls exec("/init"). -/
def initcode : List UInt8 :=
  [0x17, 0x05, 0x00, 0x00, 0x13, 0x05, 0x45, 0x02, 0x97, 0x05, 0x00, 0x00, 0x93, 0x85, 0x35, 0x02,
   0x93, 0x08, 0x70, 0x00, 0x73, 0x00, 0x00, 0x00, 0x93, 0x08, 0x20, 0x00, 0x73, 0x00, 0x00, 0x00,
   0xef, 0xf0, 0x9f, 0xff, 0x2f, 0x69, 0x6e, 0x69, 0x74, 0x00, 0x00, 0x24, 0x00, 0x00, 0x00, 0x00,
   0x00, 0x00, 0x00, 0x00]

def rootino : Nat := 1

def userinit (k : Kernel) : Except Panic Kernel := do
  let (slot, k) ← allocproc k
  match slot with
  | none => .error .kerneltrap
  | some p =>
    let k := { k with initproc := p }
    let vm ← uvminit (k.proc p).pagetable k.phys initcode
    let k := k.setVm p vm
    let tf := (k.proc p).trapframe.getD 0
    -- epc and sp of the trapframe
    let mem := storeBytes k.phys.mem (tf + 24) (wordBytes 0)
    let mem := storeBytes mem (tf + 48) (wordBytes pgsize)
    let k := { k with phys := { k.phys with mem := mem }
                      inodeRef := Function.update k.inodeRef rootino (k.inodeRef rootino + 1) }
    return k.setProc p { k.proc p with
      curMax := maxva - 2 * pgsize, sz := pgsize, cwd := some rootino, state := .runnable }

/-- What a process can do to address spaces.  Arguments are the words in its registers. -/
inductive Event where
  | fork (p : Nat)
  | exit (p status : Nat)
  | wait (p addr : Nat)
  | sbrk (p n : Nat)
  | mmap (p length prot flags : Nat)
  | munmap (p addr length : Nat)
  | access (p : Nat) (store : Bool) (va : Nat)
  | exec (p : Nat) (file : Option (List UInt8)) (argv : List (List UInt8))

def Event.proc : Event → Nat
  | fork p | exit p _ | wait p _ | sbrk p _ | mmap p _ _ _ | munmap p _ _ | access p _ _
  | exec p _ _ => p

def Kernel.runs (k : Kernel) (p : Nat) : Prop := p < nproc ∧ (k.proc p).state = .runnable

instance (k : Kernel) (p : Nat) : Decidable (k.runs p) := inferInstanceAs (Decidable (_ ∧ _))

/-- The effect of an event; nothing happens when its process cannot run.  An access that takes no
page fault changes nothing here, whatever the bus has at its address. -/
def Kernel.step (k : Kernel) (e : Event) : Except Panic Kernel :=
  if k.runs e.proc then
    match e with
    | .fork p => (fork k p).map (·.2)
    | .exit p status => Xv6.exit k p (status % 2 ^ 32)
    | .wait p addr => wait k p (word addr)
    | .sbrk p n => (growproc k p (n % 2 ^ 32)).map (·.2)
    | .mmap p length prot flags =>
      (sysMmap k p (word length) (prot % 2 ^ 32) (flags % 2 ^ 32)).map (·.2)
    | .munmap p addr length => (munmap k p (word addr) (word length)).map (·.2)
    | .access p store va =>
      if allowed (k.proc p).pagetable store (word va) then .ok k
      else usertrapFault k p store (word va)
    | .exec p file argv => (Xv6.exec k p file argv).map (·.2)
  else .ok k

/-- What an event does when its process can run: the call it stands for. -/
inductive Kernel.Does (k : Kernel) : Event → Kernel → Prop where
  | fork {p : Nat} {r : Int} {k' : Kernel} (h : Xv6.fork k p = .ok (r, k')) : Does k (.fork p) k'
  | exit {p status : Nat} {k' : Kernel} (h : Xv6.exit k p (status % 2 ^ 32) = .ok k') :
      Does k (.exit p status) k'
  | wait {p addr : Nat} {k' : Kernel} (h : Xv6.wait k p (word addr) = .ok k') :
      Does k (.wait p addr) k'
  | sbrk {p n : Nat} {done : Bool} {k' : Kernel} (h : growproc k p (n % 2 ^ 32) = .ok (done, k')) :
      Does k (.sbrk p n) k'
  | mmap {p length prot flags : Nat} {res : Option Nat} {k' : Kernel}
      (h : sysMmap k p (word length) (prot % 2 ^ 32) (flags % 2 ^ 32) = .ok (res, k')) :
      Does k (.mmap p length prot flags) k'
  | munmap {p addr length : Nat} {done : Bool} {k' : Kernel}
      (h : Xv6.munmap k p (word addr) (word length) = .ok (done, k')) :
      Does k (.munmap p addr length) k'
  | hit {p va : Nat} {store : Bool} (h : allowed (k.proc p).pagetable store (word va) = true) :
      Does k (.access p store va) k
  | fault {p va : Nat} {store : Bool} {k' : Kernel}
      (hmiss : allowed (k.proc p).pagetable store (word va) = false)
      (h : usertrapFault k p store (word va) = .ok k') : Does k (.access p store va) k'
  | exec {p : Nat} {file : Option (List UInt8)} {argv : List (List UInt8)} {done : Bool}
      {k' : Kernel} (h : Xv6.exec k p file argv = .ok (done, k')) : Does k (.exec p file argv) k'

theorem Kernel.step_eq_ok {k k' : Kernel} {e : Event} (h : k.step e = .ok k') :
    k' = k ∨ k.runs e.proc ∧ k.Does e k' := by
  unfold step at h
  split at h
  · rename_i hruns
    refine .inr ⟨hruns, ?_⟩
    cases e with
    | fork p => obtain ⟨⟨_, _⟩, hcall, rfl⟩ := map_eq_ok.1 h; exact .fork hcall
    | exit p status => exact .exit h
    | wait p addr => exact .wait h
    | sbrk p n => obtain ⟨⟨_, _⟩, hcall, rfl⟩ := map_eq_ok.1 h; exact .sbrk hcall
    | mmap p length prot flags => obtain ⟨⟨_, _⟩, hcall, rfl⟩ := map_eq_ok.1 h; exact .mmap hcall
    | munmap p addr length => obtain ⟨⟨_, _⟩, hcall, rfl⟩ := map_eq_ok.1 h; exact .munmap hcall
    | access p store va =>
      dsimp only at h
      split at h
      · rename_i hallowed
        cases h
        exact .hit hallowed
      · rename_i hmiss
        exact .fault (by simpa using hmiss) h
    | exec p file argv => obtain ⟨⟨_, _⟩, hcall, rfl⟩ := map_eq_ok.1 h; exact .exec hcall
  · cases h
    exact .inl rfl

theorem Kernel.runs.live {k : Kernel} {p : Nat} (h : k.runs p) : (k.proc p).state ≠ .unused := by
  rw [h.2]
  decide

/-- The machine boots with these free pages: whole pages of RAM, none of them twice, and enough
of them for the first process. -/
structure Boots (ph : Phys) (k : Kernel) : Prop where
  nodup : ph.freelist.Nodup
  ram : ∀ f ∈ ph.freelist, RamPage f
  room : 7 ≤ ph.freelist.length
  start : userinit (Kernel.start ph) = .ok k

end Xv6
