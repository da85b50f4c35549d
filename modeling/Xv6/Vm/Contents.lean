/-
The bytes of memory while frames are taken: only frames that were free are written to.
-/
import Xv6.Vm.Spec

namespace Xv6

open Run (bind_eq_ok)

variable {a f pa : Nat} {mem : Nat → UInt8}

def InFrame (f a : Nat) : Prop := f ≤ a ∧ a < f + pgsize

theorem InFrame.unique {g : Nat} (h : InFrame f a) (h' : InFrame g a) (hf : f % pgsize = 0)
    (hg : g % pgsize = 0) : f = g := by
  unfold InFrame pgsize at *
  omega

theorem inFrame_add {off : Nat} (h : off < pgsize) : InFrame f (f + off) :=
  ⟨Nat.le_add_right _ _, Nat.add_lt_add_left h f⟩

theorem memsetPage_of_not {v : UInt8} (h : ¬ InFrame pa a) :
    memsetPage mem pa v a = mem a := if_neg h

/-- Frames were taken from the free list, and nothing was written but into them. -/
structure Written (ph ph' : Phys) : Prop where
  sub : ∀ f ∈ ph'.freelist, f ∈ ph.freelist
  nodup : ph.freelist.Nodup → ph'.freelist.Nodup
  mem : ∀ a, (∀ f ∈ ph.freelist, ¬ InFrame f a) → ph'.mem a = ph.mem a

namespace Written

variable {ph ph₁ ph₂ : Phys}

theorem refl (ph : Phys) : Written ph ph := ⟨fun _ h => h, fun h => h, fun _ _ => rfl⟩

theorem trans (h : Written ph ph₁) (h' : Written ph₁ ph₂) : Written ph ph₂ :=
  ⟨fun f hf => h.sub f (h'.sub f hf), fun hn => h'.nodup (h.nodup hn), fun a ha =>
    (h'.mem a fun f hf => ha f (h.sub f hf)).trans (h.mem a ha)⟩

theorem of_kalloc (h : kalloc ph = some (f, ph₁)) : Written ph ph₁ := by
  have hcons := kalloc_eq_some h
  refine ⟨fun g hg => ?_, fun hn => ?_, fun a ha => ?_⟩
  · rw [hcons]
    exact List.mem_cons_of_mem _ hg
  · rw [hcons] at hn
    exact hn.of_cons
  · rw [mem_of_kalloc h]
    exact memsetPage_of_not (ha f (by rw [hcons]; exact List.mem_cons_self))

theorem of_takes {fs : List Nat} (h : Radix.Table.Takes kalloc ph fs ph₁) : Written ph ph₁ := by
  induction fs generalizing ph with
  | nil =>
    cases h
    exact .refl _
  | cons f fs ih =>
    obtain ⟨ph₂, halloc, hrest⟩ := h
    exact (of_kalloc halloc).trans (ih hrest)

theorem of_mappages {pt pt' : PageTable} {va perm : Nat} {ok : Bool} (hva : va % pgsize = 0)
    (hlt : va + pgsize ≤ 2 ^ 64) (h : mappages pt ph va pgsize pa perm = .ok (ok, pt', ph₁)) :
    Written ph ph₁ := by
  obtain ⟨fs, htakes⟩ := mappages_takes hva hlt h
  exact of_takes htakes

theorem bytes (h : Written ph ph₁) (hfree : ∀ g ∈ ph.freelist, g % pgsize = 0) (hf : f % pgsize = 0)
    (hnot : f ∉ ph.freelist) (ha : InFrame f a) : ph₁.mem a = ph.mem a :=
  h.mem a fun g hg hin => hnot (hin.unique ha (hfree g hg) hf ▸ hg)

end Written

end Xv6
