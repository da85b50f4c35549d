/-
Physical memory and its allocator, from `kernel/kalloc.c`.
-/
import Xv6.Riscv
import Xv6.Lib.Radix

namespace Xv6

variable {pa : Nat} {ph ph' : Phys}

/-- `if(!c) panic(e);` -/
def require (c : Bool) (e : Panic) : Except Panic Unit := if c then .ok () else .error e

theorem require_eq_ok {c : Bool} {e : Panic} {u : Unit} : require c e = .ok u ↔ c = true := by
  cases c <;> simp [require]

/-- Physical memory: the pages on `kmem.freelist`, first the one that is handed out next, and
the bytes of memory by address.  Page-table pages are kept as values (`PageTable`), so their
bytes are not looked up here. -/
structure Phys where
  freelist : List Nat
  mem : Nat → UInt8

/-- `memset(pa, c, PGSIZE)` -/
def memsetPage (mem : Nat → UInt8) (pa : Nat) (c : UInt8) : Nat → UInt8 :=
  fun a => if pa ≤ a ∧ a < pa + pgsize then c else mem a

/-- A page that `kfree` accepts. -/
def RamPage (pa : Nat) : Prop := pa % pgsize = 0 ∧ kernelEnd ≤ pa ∧ pa < phystop

instance (pa : Nat) : Decidable (RamPage pa) := inferInstanceAs (Decidable (_ ∧ _ ∧ _))

def kfree (ph : Phys) (pa : Nat) : Except Panic Phys :=
  if pa % pgsize ≠ 0 ∨ pa < kernelEnd ∨ pa ≥ phystop then .error .kfree
  else .ok { freelist := pa :: ph.freelist, mem := memsetPage ph.mem pa 1 }

def kalloc (ph : Phys) : Option (Nat × Phys) :=
  match ph.freelist with
  | [] => none
  | r :: next => some (r, { freelist := next, mem := memsetPage ph.mem r 5 })

theorem kfree_of_ram (h : RamPage pa) :
    kfree ph pa = .ok { freelist := pa :: ph.freelist, mem := memsetPage ph.mem pa 1 } := by
  obtain ⟨h₁, h₂, h₃⟩ := h
  rw [kfree, if_neg (by omega)]

theorem kfree_eq_ok (h : kfree ph pa = .ok ph') :
    RamPage pa ∧ ph'.freelist = pa :: ph.freelist := by
  unfold kfree at h
  split at h
  · cases h
  · rename_i hc
    cases h
    exact ⟨⟨by omega, by omega, by omega⟩, rfl⟩

theorem kalloc_eq_none : kalloc ph = none ↔ ph.freelist = [] := by
  unfold kalloc
  split <;> simp_all

theorem kalloc_eq_some (h : kalloc ph = some (pa, ph')) : ph.freelist = pa :: ph'.freelist := by
  unfold kalloc at h
  split at h
  · cases h
  · cases h
    assumption

theorem mem_of_kalloc (h : kalloc ph = some (pa, ph')) : ph'.mem = memsetPage ph.mem pa 5 := by
  unfold kalloc at h
  split at h
  · cases h
  · cases h
    rfl

theorem freelist_of_takes {new : List Nat} (h : Radix.Table.Takes kalloc ph new ph') :
    ph.freelist = new ++ ph'.freelist := by
  induction new generalizing ph with
  | nil => cases h; rfl
  | cons f fs ih =>
    obtain ⟨ph₁, halloc, hrest⟩ := h
    rw [kalloc_eq_some halloc, ih hrest, List.cons_append]

end Xv6
