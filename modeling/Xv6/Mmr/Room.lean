/-
What page faults and `fork` do when memory does not run out: each page takes at most three
frames, one for itself and two for pages of the table.
-/
import Xv6.Mmr.Fault

namespace Xv6

open List

open Run (bind_eq_ok)

variable {ok shared store : Bool} {k k' : Kernel} {i n np p v va : Nat} {new new' old : PageTable}
  {ph ph' : Phys}

/-! ## Page faults -/

theorem Mmr.perm_lt {r : Mmr} (h : r.prot < 1024) : r.perm < 1024 :=
  (Nat.mod_le _ _).trans_lt (Nat.or_lt_two_pow (n := 10) h (by decide))

theorem Mmr.Serves.room {r : Mmr} (hs : r.Serves store va) (hw : r.Wf) :
    vpn va * pgsize + pgsize ≤ 2 ^ 64 := by
  have hva := hs.lt_maxva hw
  unfold vpn pgsize maxva at *
  omega

theorem faultRegions_eq_ok (hb : k.Basic)
    (hprot : ∀ i, ((k.proc p).mmr i).valid = true → ((k.proc p).mmr i).prot < 1024)
    (hroom : (∃ i < n, ((k.proc p).mmr i).Serves store va) → 3 ≤ k.phys.freelist.length)
    (hf : faultRegions k p store va n = .ok k') :
    ((∀ i < n, ¬ ((k.proc p).mmr i).Serves store va) ∧ k' = k) ∨
      ∃ i < n, ((k.proc p).mmr i).Serves store va ∧ ∃ vm,
        Filled (k.proc p).pagetable k.phys [vpn va] (fun _ => ((k.proc p).mmr i).perm) []
          (fun _ => 0) vm.1 vm.2 ∧ k' = k.setVm p vm := by
  rcases faultRegions_cases hf with hnone | ⟨hshort, hs, hstuck⟩ |
    ⟨i, hi, hs, -, pa, ph, vm, hpa, hmap, rfl⟩
  · exact .inl hnone
  · have h3 := hroom hs
    have hnull : (k.proc p).pagetable.isNull = false := by
      rcases faultRegions_touched hf with ⟨hnot, -⟩ | ⟨-, hnull, -⟩
      · obtain ⟨i, hi, hs⟩ := hs
        exact absurd hs (hnot i hi)
      · exact hnull
    have := PageTable.missing_le hnull va
    omega
  · have h3 := hroom ⟨i, hi, hs⟩
    refine .inr ⟨i, hi, hs, vm, ?_, rfl⟩
    cases hal : kalloc k.phys with
    | none =>
      rw [kalloc_eq_none.1 hal] at h3
      exact absurd h3 (by decide)
    | some q =>
      rw [hal] at hpa
      cases hpa
      exact (Filled.nil (k.proc p).pagetable k.phys (fun _ => ((k.proc p).mmr i).perm)
        (fun _ => 0)).step hb.ram (Mmr.perm_lt (hprot i hs.2.2.1)) hal
        (hs.room ((hb.sound p).region i hs.2.2.1).1) hmap rfl

/-! ## fork -/

theorem uvmcopyLoop_room (h3 : 3 * n ≤ ph.freelist.length)
    (h : uvmcopyLoop shared old n (v * pgsize) new ph = .ok (ok, new', ph')) :
    ok = true ∧ ph.freelist.length ≤ ph'.freelist.length + 3 * n := by
  induction n generalizing v new ph with
  | zero =>
    cases h
    exact ⟨rfl, by omega⟩
  | succ n ih =>
    have hlen : ∀ {pa mem ph₁}, frameFor shared ph pa = .ok (some mem, ph₁) →
        ph.freelist.length ≤ ph₁.freelist.length + 1 := fun hf => by
      rcases frameFor_eq_some hf with ⟨-, -, rfl⟩ | ⟨-, ph₂, hk, -, rfl⟩
      · omega
      · rw [kalloc_eq_some hk, length_cons]
    obtain ⟨hva, -, ⟨mem, ph₁, new₁, ph₂, hf, hmap, h⟩ |
      ⟨-, pt₁, ph₁, -, ⟨hf, -⟩ | ⟨mem, ph₂, ph₃, hf, hmap, -⟩⟩⟩ := uvmcopyLoop_cases h
    · have h₁ := hlen hf
      have h₂ := (mappages_two (Nat.mul_mod_left _ _) (room_of_lt hva) (by omega) hmap).2
      rw [← Nat.succ_mul] at h
      obtain ⟨hok, hrest⟩ := ih (by omega) h
      exact ⟨hok, by omega⟩
    · rw [kalloc_eq_none.1 (frameFor_eq_none hf).2.1, length_nil] at h3
      omega
    · have h₁ := hlen hf
      have h₂ := (mappages_two (Nat.mul_mod_left _ _) (room_of_lt hva) (by omega) hmap).1
      cases h₂

theorem copyPage_room (h3 : 3 ≤ ph.freelist.length)
    (h : copyPage shared old new ph (v * pgsize) = .ok (ok, new', ph')) :
    ok = true ∧ ph.freelist.length ≤ ph'.freelist.length + 3 := by
  have hloop : uvmcopyLoop shared old 1 (v * pgsize) new ph = .ok (ok, new', ph') := by
    rw [← pageCount_page (v * pgsize)]
    cases shared <;> exact h
  exact uvmcopyLoop_room h3 hloop

theorem copyRegionLoop_room (h3 : 3 * (old.touched (List.range' v n)).length ≤ ph.freelist.length)
    (h : copyRegionLoop shared old n (v * pgsize) new ph = .ok (ok, new', ph')) :
    ok = true ∧ ph.freelist.length ≤
      ph'.freelist.length + 3 * (old.touched (List.range' v n)).length := by
  induction n generalizing v new ph with
  | zero =>
    cases h
    exact ⟨rfl, by omega⟩
  | succ n ih =>
    have hnext : v * pgsize + pgsize = (v + 1) * pgsize := by rw [Nat.succ_mul]
    obtain ⟨pa, hwalk, h⟩ := bind_eq_ok.1 h
    obtain ⟨hsome, hnone⟩ := walkaddr_eq_ok hwalk
    rw [List.range'_succ, PageTable.touched] at h3 ⊢
    by_cases h0 : pa ≠ 0
    · rw [filter_cons_of_pos (by simp [hsome h0]), length_cons] at h3 ⊢
      rw [if_pos h0] at h
      obtain ⟨⟨ok₁, new₁, ph₁⟩, hcopy, h⟩ := bind_eq_ok.1 h
      obtain ⟨rfl, hroom⟩ := copyPage_room (by omega) hcopy
      rw [hnext] at h
      obtain ⟨hok, hrest⟩ := ih (by rw [PageTable.touched]; omega) h
      rw [PageTable.touched] at hrest
      exact ⟨hok, by omega⟩
    · rw [filter_cons_of_neg (by simp [hnone (not_not.1 h0)])] at h3 ⊢
      rw [if_neg h0, hnext] at h
      exact ih h3 h

def regionPages (x : Proc) (n : Nat) : Nat :=
  (usablePages x.pagetable x.mmr false n).length + (usablePages x.pagetable x.mmr true n).length

theorem regionPages_succ (x : Proc) (n : Nat) : regionPages x (n + 1) = regionPages x n +
    if (x.mmr n).valid then (x.pagetable.touched (x.mmr n).pages).length else 0 := by
  rw [regionPages, usablePages_succ, usablePages_succ,
    regionPages]
  cases (x.mmr n).valid <;> cases (x.mmr n).isPrivate <;> simp <;> omega

theorem forkRegion_room (haddr : ((k.proc p).mmr i).addr % pgsize = 0)
    (h3 : 3 * (if ((k.proc p).mmr i).valid then
      ((k.proc p).pagetable.touched ((k.proc p).mmr i).pages).length else 0) ≤
        k.phys.freelist.length) (h : forkRegion k p np i = .ok (ok, k')) :
    ok = true ∧ k.phys.freelist.length ≤ k'.phys.freelist.length + 3 *
      (if ((k.proc p).mmr i).valid then
        ((k.proc p).pagetable.touched ((k.proc p).mmr i).pages).length else 0) := by
  have hstart : ((k.proc p).mmr i).addr = vpn ((k.proc p).mmr i).addr * pgsize :=
    (Nat.div_mul_cancel (Nat.dvd_of_mod_eq_zero haddr)).symm
  unfold forkRegion at h
  dsimp only at h
  split at h
  · rename_i hv
    rw [if_pos hv] at h3 ⊢
    obtain ⟨⟨ok₁, vm⟩, hcopy, h⟩ := bind_eq_ok.1 h
    rw [hstart] at hcopy
    obtain ⟨rfl, hroom⟩ := copyRegionLoop_room (by rw [← hstart]; exact h3) hcopy
    rw [← hstart] at hroom
    simp only [Bool.not_true, Bool.false_eq_true, if_false] at h
    split at h
    · cases h
      exact ⟨rfl, hroom⟩
    · obtain ⟨-, -, h⟩ := bind_eq_ok.1 h
      cases h
      refine ⟨rfl, ?_⟩
      rw [(relinked_joinFamily _ p np i).phys]
      exact hroom
  · rename_i hv
    cases h
    exact ⟨rfl, by omega⟩

theorem forkRegions_room (hne : p ≠ np) (haddr : ∀ i, ((k.proc p).mmr i).addr % pgsize = 0)
    (h3 : 3 * regionPages (k.proc p) n ≤ k.phys.freelist.length)
    (h : forkRegions k p np n = .ok (ok, k')) : ok = true ∧ k.phys.freelist.length ≤
      k'.phys.freelist.length + 3 * regionPages (k.proc p) n := by
  induction n generalizing k' ok with
  | zero =>
    cases h
    exact ⟨rfl, by omega⟩
  | succ n ih =>
    obtain ⟨⟨ok₁, k₁⟩, h₁, h⟩ := bind_eq_ok.1 h
    rw [regionPages_succ] at h3 ⊢
    obtain ⟨rfl, hroom⟩ := ih (by omega) h₁
    have hpr := (pruned_forkRegions h₁).others p hne
    have hreg := hpr.regions n
    have hpt : (k₁.proc p).pagetable = (k.proc p).pagetable := by rw [hpr.fields]
    have hpages : (k₁.proc p).pagetable.touched ((k₁.proc p).mmr n).pages =
        (k.proc p).pagetable.touched ((k.proc p).mmr n).pages := by
      rw [hpt, hreg.pages]
    have hvalid : ((k₁.proc p).mmr n).valid = ((k.proc p).mmr n).valid := by rw [hreg]
    obtain ⟨hok, hlast⟩ := forkRegion_room (by rw [hreg]; exact haddr n)
      (by rw [hpages, hvalid]; omega) h
    rw [hpages, hvalid] at hlast
    exact ⟨hok, by omega⟩

def forkNeed (x : Proc) : Nat := 4 + 3 * (npages x.sz + regionPages x maxMmr)

theorem allocproc_room {slot : Option Nat} (hslot : freeSlot k = some np)
    (h4 : 4 ≤ k.phys.freelist.length) (h : allocproc k = .ok (slot, k')) : slot = some np := by
  unfold allocproc at h
  rw [hslot] at h
  dsimp only [allocpid] at h
  split at h
  · rename_i hnone
    rw [Kernel.phys_setProc, kalloc_eq_none] at hnone
    rw [hnone] at h4
    exact absurd h4 (by decide)
  · rename_i tf ph hsome
    rw [Kernel.phys_setProc] at hsome
    have hlen : k.phys.freelist.length = ph.freelist.length + 1 := by
      rw [kalloc_eq_some hsome, length_cons]
    obtain ⟨⟨pt, ph₁⟩, hpt, h⟩ := bind_eq_ok.1 h
    split at h
    · rename_i hnull
      have := (procPagetable_room hpt).2 hnull
      omega
    · cases h
      rfl

theorem fork_room {r : Int} (hb : k.Basic) (hlive : (k.proc p).state ≠ .unused)
    (hslot : freeSlot k = some np) (hroom : forkNeed (k.proc p) ≤ k.phys.freelist.length)
    (h : fork k p = .ok (r, k')) : r = k.nextpid ∧ Forked k k' p np := by
  unfold forkNeed at hroom
  have hne : p ≠ np := fun he => hlive (he ▸ (freeSlot_eq_some hslot).2)
  obtain ⟨⟨slot, k₀⟩, halloc, h⟩ := bind_eq_ok.1 h
  obtain rfl := allocproc_room hslot (by omega) halloc
  obtain ⟨-, tf, ph, pt₀, hkalloc, hpt, hnull, hk₀⟩ := (allocproc_eq_ok halloc).2 np rfl
  have hproc₀ : k₀.proc p = k.proc p := by
    rw [hk₀]
    exact Function.update_of_ne hne ..
  have hlen₀ : k.phys.freelist.length = k₀.phys.freelist.length + 4 := by
    rw [kalloc_eq_some hkalloc, length_cons, (procPagetable_room hpt).1 hnull]
  obtain ⟨⟨ok, vm⟩, hcopy, h⟩ := bind_eq_ok.1 h
  -- the heap
  have hcount : pageCount 0 (k₀.proc p).sz = npages (k.proc p).sz := by
    rw [hproc₀]
    unfold pageCount npages pgsize
    split <;> omega
  have hheap := hcopy
  unfold uvmcopy at hheap
  rw [hcount, ← Nat.zero_mul pgsize] at hheap
  obtain ⟨rfl, hlen₁⟩ := uvmcopyLoop_room (by omega) hheap
  obtain ⟨k₁, hfields, h⟩ := bind_eq_ok.1 h
  -- the regions
  obtain ⟨⟨ok, k₂⟩, hregions, h⟩ := bind_eq_ok.1 h
  obtain ⟨files, dir, mem, hk₁⟩ := forkFields_eq_ok hne hfields
  have hproc₁ : k₁.proc p = k.proc p := by
    rw [hk₁, ← hproc₀]
    simp [Kernel.setProc, Kernel.setVm, Function.update_of_ne hne]
  have hfree₁ : k₁.phys.freelist = vm.2.freelist := by
    rw [hk₁]
    rfl
  obtain ⟨rfl, -⟩ := forkRegions_room hne (by rw [hproc₁]; exact (hb.sound p).addr)
    (by rw [hproc₁, hfree₁]; omega) hregions
  cases h
  have hstages : ForkStages k _ p np _ tf ph pt₀ vm k₀ k₁ k₂ :=
    ⟨hslot, hne, hkalloc, hpt, hnull, hk₀, hcopy, hfields, hregions, rfl, rfl⟩
  exact hstages.forked hb.ram (hb.sound p).addr

end Xv6
