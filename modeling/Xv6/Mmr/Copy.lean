/-
What a process can do with its memory, and what the kernel can do for it: loads and stores with
the page faults they take, against `copyin` and `copyout`.
-/
import Xv6.Mmr.Fault
import Xv6.Vm.Total

namespace Xv6

open Kernel PageTable
open Run (bind_eq_ok)

variable {store : Bool} {k k' : Kernel} {i n p va : Nat}

/-! ## Accesses -/

/-- The access gets to its byte: the entry allows it, and there is memory or a device at the
physical address.  An access that the entry allows and nothing answers is the end of its process. -/
def completes (pt : PageTable) (store : Bool) (va : Nat) : Bool :=
  allowed pt store va && kernelReads (pte2pa (pt.pte va))

/-- A load or store of the byte at `va` succeeds, at once or after the page fault that it takes.
A process that has been killed does not come back from the fault. -/
def Kernel.userCan (k : Kernel) (p : Nat) (store : Bool) (va : Nat) : Bool :=
  completes (k.proc p).pagetable store va ||
    !(k.proc p).killed &&
      match faultRegions k p store va maxMmr with
      | .error _ => false
      | .ok k' => completes (k'.proc p).pagetable store va

/-- The entry that a fault installs for a page of region `r`: with the frame that `kalloc` returns,
or with address 0 if it returns none. -/
def Kernel.newEntry (k : Kernel) (r : Mmr) : Nat := leafWord (k.phys.freelist.headD 0) r.perm

/-- A page not touched yet, which the first access maps so that the access is allowed: it lies in
one valid region whose `prot` has the bit of the access (in two the handler panics) and R, and
there are frames for it and for the pages of the table that are missing.  High bits of `prot` end
up in the physical address. -/
structure Kernel.Lazy (k : Kernel) (p : Nat) (store : Bool) (va : Nat) : Prop where
  lives : (k.proc p).killed = false
  root : (k.proc p).pagetable.isNull = false
  lt : va < maxva
  unmapped : has ((k.proc p).pagetable.pte va) pteV = false
  room : (k.proc p).pagetable.missing va ≤ k.phys.freelist.length - 1
  region : ∃ i < maxMmr, ((k.proc p).mmr i).Serves store va ∧
    (∀ j < maxMmr, ((k.proc p).mmr j).Serves store va → j = i) ∧
    has ((k.proc p).mmr i).prot pteR = true ∧
    kernelReads (pte2pa (k.newEntry ((k.proc p).mmr i))) = true

/-- What a process can access, from its table, its regions and the free list. -/
def Kernel.Accessible (k : Kernel) (p : Nat) (store : Bool) (va : Nat) : Prop :=
  completes (k.proc p).pagetable store va = true ∨ k.Lazy p store va

theorem has_congr {x y m : Nat} (h : x % 1024 = y % 1024) (hm : m &&& 0x3ff = m) :
    has x m = has y m := by
  rw [← has_pteFlags x hm, ← has_pteFlags y hm, pteFlags, pteFlags,
    show (0x3ff : Nat) = 2 ^ 10 - 1 by decide, Nat.and_two_pow_sub_one_eq_mod,
    Nat.and_two_pow_sub_one_eq_mod, h]

theorem Mmr.has_leafWord (r : Mmr) (pa : Nat) {m : Nat} (hm : m &&& 0x3ff = m)
    (hV : has pteV m = false) : has (leafWord pa r.perm) m = (has r.prot m || has pteU m) := by
  have hperm : has (sext r.perm) m = has (r.prot ||| pteU) m := by
    refine has_congr ?_ hm
    unfold sext Mmr.perm
    split <;> omega
  have hlt : m < 1024 := hm ▸ Nat.lt_succ_of_le Nat.and_le_right
  rw [leafWord, has_or, has_or, has_pa2pte _ hlt, hperm, hV, has_or, Bool.false_or, Bool.or_false]

theorem completes_newEntry {pt : PageTable} {r : Mmr} (hpte : pt.pte va = k.newEntry r)
    (hva : va < maxva) (hs : r.Serves store va) : completes pt store va = true ↔
      has r.prot pteR = true ∧ kernelReads (pte2pa (k.newEntry r)) = true := by
  have hbit : ∀ m, m &&& 0x3ff = m → has pteV m = false →
      has (k.newEntry r) m = (has r.prot m || has pteU m) := fun m => r.has_leafWord _
  have hV : has (k.newEntry r) pteV = true := Xv6.has_leafWord _ _
  have hU : has (k.newEntry r) pteU = true := by
    rw [hbit _ (by decide) (by decide), show has pteU pteU = true by decide, Bool.or_true]
  have hR : has (k.newEntry r) pteR = has r.prot pteR := by
    rw [hbit _ (by decide) (by decide), show has pteU pteR = false by decide, Bool.or_false]
  have hW : (!store || has (k.newEntry r) pteW) = true := by
    cases store with
    | false => rfl
    | true =>
      rw [hbit _ (by decide) (by decide), show has r.prot pteW = true from hs.2.2.2]
      rfl
  simp only [completes, allowed, hpte, hva, hV, hU, hR, hW, decide_true, Bool.true_and,
    Bool.and_true, Bool.and_eq_true]

theorem faultRegions_of_one (hi : i < n)
    (honly : ∀ j < n, ((k.proc p).mmr j).Serves store va → j = i)
    (hmmr : ∀ k', faultRegion k p i store va = .ok k' → (k'.proc p).mmr = (k.proc p).mmr) :
    faultRegions k p store va n = faultRegion k p i store va := by
  induction n with
  | zero => exact absurd hi i.not_lt_zero
  | succ n ih =>
    rw [faultRegions]
    rcases Nat.lt_succ_iff_lt_or_eq.1 hi with hi | rfl
    · rw [ih hi fun j hj => honly j (by omega)]
      cases hstep : faultRegion k p i store va with
      | error e => rfl
      | ok k' =>
        refine faultRegion_of_not_serves fun hs => ?_
        rw [hmmr k' hstep] at hs
        exact absurd (honly n n.lt_succ_self hs) hi.ne'
    · rw [faultRegions_of_not_serves fun j hj hs => hj.ne (honly j (by omega) hs)]
      rfl

theorem Kernel.Lazy.faultRegions (h : k.Lazy p store va) :
    ∃ k', faultRegions k p store va maxMmr = .ok k' ∧
      completes (k'.proc p).pagetable store va = true := by
  obtain ⟨i, hi, hs, honly, hR, hmem⟩ := h.region
  obtain ⟨ph, hk, hlen⟩ := kalloc_getD k.phys
  obtain ⟨⟨ok, vm⟩, hmap⟩ := mappages_ok ph (k.phys.freelist.headD 0) ((k.proc p).mmr i).perm
    h.root (vpn_lt h.lt) (leaf_eq_none.2 h.unmapped)
  have hstep : faultRegion k p i store va = .ok (k.setVm p vm) := by
    unfold faultRegion
    dsimp only
    rw [if_pos ⟨hs.1, hs.2.1, hs.2.2.1⟩, if_pos hs.2.2.2, hk]
    exact bind_eq_ok.2 ⟨_, hmap, rfl⟩
  refine ⟨_, (faultRegions_of_one hi honly fun k' hk' => ?_).trans hstep, ?_⟩
  · cases hstep.symm.trans hk'
    rw [proc_setVm_self]
  cases ok with
  | true =>
    rw [proc_setVm_self]
    exact (completes_newEntry ((mappages_fault hk.symm hmap).1 rfl).2 h.lt hs).2 ⟨hR, hmem⟩
  | false => exact absurd h.room (Nat.not_le.2 ((mappages_fault hk.symm hmap).2 rfl).1)

theorem userCan_iff : k.userCan p store va = true ↔ k.Accessible p store va := by
  unfold Kernel.userCan
  rw [Bool.or_eq_true]
  constructor
  · rintro (h | h)
    · exact .inl h
    · rw [Bool.and_eq_true, Bool.not_eq_true'] at h
      obtain ⟨hlives, h⟩ := h
      split at h
      · cases h
      rename_i k' hfault
      rcases faultRegions_cases hfault with ⟨-, rfl⟩ | ⟨-, -, hstuck⟩ |
        ⟨i, hi, hs, honly, pa, ph, vm, hpa, hmap, rfl⟩
      · exact .inl h
      · have hno := leaf_eq_none.1 (leaf_of_missing hstuck.missing)
        rw [← pte_eq] at hno
        simp [completes, allowed, hno] at h
      · obtain ⟨hva, hnull, hleaf, -⟩ := touched_of_mappages hpa hmap
        obtain ⟨hroom, hpte⟩ := (mappages_fault hpa hmap).1 rfl
        rw [proc_setVm_self] at h
        obtain ⟨hR, hmem⟩ := (completes_newEntry hpte hva hs).1 h
        exact .inr ⟨hlives, hnull, hva, leaf_eq_none.1 hleaf, hroom, i, hi, hs, honly, hR, hmem⟩
  · rintro (h | h)
    · exact .inl h
    · obtain ⟨k', hfault, hk'⟩ := h.faultRegions
      rw [h.lives, hfault]
      exact .inr hk'

def permits (pt : PageTable) (store : Bool) (va : Nat) : Bool :=
  has (pt.pte va) pteR && (!store || has (pt.pte va) pteW)

theorem accessible_of_reach (h : reach store (k.proc p).pagetable va = true) :
    k.Accessible p store va ↔ permits (k.proc p).pagetable store va = true := by
  simp only [reach, Bool.and_eq_true, decide_eq_true_eq] at h
  obtain ⟨⟨⟨hlt, hv⟩, hu⟩, hd⟩ := h
  have hself : completes (k.proc p).pagetable store va = permits (k.proc p).pagetable store va := by
    simp only [completes, allowed, permits, hlt, hv, hu, kernelReads_of_direct hd, decide_true,
      Bool.true_and, Bool.and_true]
  refine (or_iff_left fun hlazy => ?_).trans (by rw [hself])
  cases hv.symm.trans hlazy.unmapped

/-! ## Copies against accesses -/

/-- `copyout` of `n` bytes, whichever they are, or `copyin` of as many, succeeds. -/
def Kernel.Copies (k : Kernel) (p : Nat) (store : Bool) (va n : Nat) : Prop :=
  if store then ∀ src : List UInt8, src.length = n →
    ∃ ph, copyout (k.proc p).pagetable k.phys (word va) src = .ok (true, ph)
  else ∃ bytes, copyin (k.proc p).pagetable k.phys (word va) n = .ok (true, bytes)

/-- No `copyout` of `n` bytes changes a byte of a page that is mapped without W, unless a page of
the range that is mapped with W has the same frame. -/
def Kernel.Spares (k : Kernel) (p va n : Nat) : Prop :=
  let pt := (k.proc p).pagetable
  ∀ src ok ph, src.length = n → copyout pt k.phys (word va) src = .ok (ok, ph) →
    ∀ a, has (pt.pte a) pteV = true → has (pt.pte a) pteW = false →
      (∀ i < n, has (pt.pte (word (va + i))) pteW = true →
        physOf pt (word (va + i)) ≠ physOf pt a) →
      ph.mem (physOf pt a) = k.phys.mem (physOf pt a)

/-- The kernel's copy agrees with what the process could do itself: it succeeds exactly when an
access to every byte would, and stores nothing that the process could not. -/
structure Kernel.Agrees (k : Kernel) (p : Nat) (store : Bool) (va n : Nat) : Prop where
  succeeds : k.Copies p store va n ↔ ∀ i < n, k.userCan p store (word (va + i)) = true
  spares : store = true → k.Spares p va n

theorem copies_iff : k.Copies p store va n ↔
    ∀ i < n, reach store (k.proc p).pagetable (word (va + i)) = true := by
  unfold Kernel.Copies
  cases store with
  | false =>
    rw [copyin_eq_bytes]
    exact copyinBytes_true
  | true =>
    constructor
    · intro h
      obtain ⟨ph, hcopy⟩ := h (List.replicate n 0) List.length_replicate
      rcases copyout_cases (k.proc p).pagetable k.phys va (List.replicate n 0) with
        ⟨-, e, he⟩ | ⟨-, he⟩
      · cases hcopy.symm.trans he
      · have hall := congrArg Prod.fst (Except.ok.inj (hcopy.symm.trans he))
        simpa using hall.symm
    · rintro h src rfl
      rcases copyout_cases (k.proc p).pagetable k.phys va src with ⟨htrap, -⟩ | ⟨-, he⟩
      · obtain ⟨i, hi, hno⟩ := htrap.exists_not_reach
        exact absurd (h i hi) hno
      · exact ⟨_, he.trans (by rw [decide_eq_true h])⟩

/-- The bytes that `copyout` stores to before it stops are on pages with W, or it traps. -/
def Kernel.StoresAllowed (k : Kernel) (p va n : Nat) : Prop :=
  let pt := (k.proc p).pagetable
  Trapped pt va n ∨ ∀ i < n, (∀ j ≤ i, reach true pt (word (va + j)) = true) →
    ∃ j < n, has (pt.pte (word (va + j))) pteW = true ∧
      physOf pt (word (va + j)) = physOf pt (word (va + i))

theorem has_of_reach {pt : PageTable} {a : Nat} (h : reach store pt a = true) :
    has (pt.pte a) pteV = true := by
  simp only [reach, Bool.and_eq_true] at h
  exact h.1.1.2

theorem spares_iff : k.Spares p va n ↔ k.StoresAllowed p va n := by
  constructor
  · intro h
    by_contra hno
    simp only [Kernel.StoresAllowed, not_or, not_forall] at hno
    obtain ⟨hret, i, hi, hall, hw⟩ := hno
    -- a byte that differs from the one that is there
    let x := physOf (k.proc p).pagetable (word (va + i))
    rcases copyout_cases (k.proc p).pagetable k.phys va (List.replicate n (k.phys.mem x + 1)) with
      ⟨htrap, -⟩ | ⟨-, hcopy⟩
    · exact hret (by simpa using htrap)
    have hkept := h _ _ _ List.length_replicate hcopy (word (va + i))
      (has_of_reach (hall i le_rfl)) (by
        by_contra hne
        exact hw ⟨i, hi, by simpa using hne, rfl⟩)
      fun j hj hwj he => hw ⟨j, hj, hwj, he⟩
    rcases putBytes_cases (k.proc p).pagetable va (List.replicate n (k.phys.mem x + 1))
      k.phys.mem x with ⟨hnot, -⟩ | ⟨j, -, hget⟩
    · exact hnot i (by simpa using hi) ⟨hall, rfl⟩
    · rw [show putBytes _ _ _ k.phys.mem x = k.phys.mem x from hkept,
        List.getElem?_replicate] at hget
      split at hget
      · simp at hget
      · cases hget
  · rintro hallowed src ok ph rfl hcopy a hv hw hfar
    rcases copyout_cases (k.proc p).pagetable k.phys va src with ⟨-, e, he⟩ | ⟨hret, he⟩ <;>
      rw [hcopy] at he <;> cases he
    rcases putBytes_cases (k.proc p).pagetable va src k.phys.mem
      (physOf (k.proc p).pagetable a) with ⟨-, hsame⟩ | ⟨i, hlands, hget⟩
    · exact hsame
    · have hi := (List.getElem?_eq_some_iff.1 hget).1
      obtain ⟨j, hj, hwj, hsame⟩ := hallowed.resolve_left hret i hi hlands.1
      exact absurd (hsame.trans hlands.2) (hfar j hj hwj)

/-- No page of the range is one on which the copy and the access disagree: the kernel reaches none
whose entry forbids the access, and it reaches those that the process could access, among them the
pages not touched yet. -/
def Kernel.PagesAgree (k : Kernel) (p : Nat) (store : Bool) (va n : Nat) : Prop :=
  let pt := (k.proc p).pagetable
  (∀ i < n, reach store pt (word (va + i)) = true → permits pt store (word (va + i)) = true) ∧
    ∀ i < n, k.Accessible p store (word (va + i)) → reach store pt (word (va + i)) = true

/-- The range has a byte out of the kernel's reach and one out of the user's. -/
def Kernel.BothFail (k : Kernel) (p : Nat) (store : Bool) (va n : Nat) : Prop :=
  (∃ i < n, reach store (k.proc p).pagetable (word (va + i)) = false) ∧
    ∃ i < n, ¬k.Accessible p store (word (va + i))

/-- A copy agrees with the accesses of its process exactly when no page of the range is mapped
without the permission and none is a page not touched yet, or when both fail anyway, and, for a
store, no byte was written before that on a page without write permission. -/
theorem copy_agrees_iff (k : Kernel) (p : Nat) (store : Bool) (va n : Nat) :
    k.Agrees p store va n ↔
      (k.PagesAgree p store va n ∨ k.BothFail p store va n) ∧
        (store = true → k.StoresAllowed p va n) := by
  have hsucceeds : (k.Copies p store va n ↔ ∀ i < n, k.userCan p store (word (va + i)) = true) ↔
      k.PagesAgree p store va n ∨ k.BothFail p store va n := by
    simp only [copies_iff, userCan_iff]
    by_cases hall : ∀ i < n, reach store (k.proc p).pagetable (word (va + i)) = true
    · refine ⟨fun h => .inl ⟨fun i hi hr => ?_, fun i hi _ => hall i hi⟩, ?_⟩
      · exact (accessible_of_reach hr).1 (h.1 hall i hi)
      · rintro (⟨hbits, -⟩ | ⟨⟨i, hi, hr⟩, -⟩)
        · exact iff_of_true hall fun i hi =>
            (accessible_of_reach (hall i hi)).2 (hbits i hi (hall i hi))
        · cases (hall i hi).symm.trans hr
    · refine ⟨fun h => .inr ?_, fun h => iff_of_false hall fun hcan => ?_⟩
      · have hcan := mt h.2 hall
        simp only [not_forall, Bool.not_eq_true] at hall hcan
        obtain ⟨i, hi, hr⟩ := hall
        obtain ⟨j, hj, hc⟩ := hcan
        exact ⟨⟨i, hi, hr⟩, j, hj, hc⟩
      · rcases h with ⟨-, hlazy⟩ | ⟨-, j, hj, hc⟩
        · exact hall fun i hi => hlazy i hi (hcan i hi)
        · exact hc (hcan j hj)
  exact ⟨fun h => ⟨hsucceeds.1 h.succeeds, fun hs => spares_iff.1 (h.spares hs)⟩,
    fun h => ⟨hsucceeds.2 h.1, fun hs => spares_iff.2 (h.2 hs)⟩⟩

/-- A process maps a readable page and has it copied from before it touches it, and a page that it
has read, but may not write, is written for it. -/
theorem copies_disagree : ∃ ph k k', Boots ph k ∧ Run.exec Kernel.step k
      [.mmap 0 (2 * pgsize) pteR mapPrivate, .access 0 false (trapframe - 2 * pgsize)] = .ok k' ∧
    ¬ k'.Agrees 0 false (trapframe - pgsize) 1 ∧
    ¬ k'.Agrees 0 true (trapframe - 2 * pgsize) 1 := by
  have hends : bootRun.ends 32 [.mmap 0 (2 * pgsize) pteR mapPrivate,
      .access 0 false (trapframe - 2 * pgsize)] (fun k' =>
        !reach false (k'.proc 0).pagetable (word (trapframe - pgsize)) &&
        k'.userCan 0 false (word (trapframe - pgsize)) &&
        reach true (k'.proc 0).pagetable (word (trapframe - 2 * pgsize)) &&
        !k'.userCan 0 true (word (trapframe - 2 * pgsize))) = true := by decide +kernel
  obtain ⟨k, k', hboot, hrun, hcheck⟩ := bootRun.of_ends (by decide) (by decide) hends
  simp only [Bool.and_eq_true, Bool.not_eq_true'] at hcheck
  obtain ⟨⟨⟨hno, hcan⟩, hreach⟩, hcannot⟩ := hcheck
  refine ⟨_, k, k', hboot, hrun, fun h => ?_, fun h => ?_⟩
  · have := copies_iff.1 (h.succeeds.2 fun i hi => by
      obtain rfl : i = 0 := by omega
      exact hcan) 0 (by decide)
    rw [Nat.add_zero, hno] at this
    cases this
  · have := h.succeeds.1 (copies_iff.2 fun i hi => by
      obtain rfl : i = 0 := by omega
      exact hreach) 0 (by decide)
    rw [Nat.add_zero, hcannot] at this
    cases this

end Xv6
