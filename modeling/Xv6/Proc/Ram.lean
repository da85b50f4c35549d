/-
The free list only ever holds pages of RAM: every function that allocates or frees keeps it so.
-/
import Xv6.Proc.Region
import Xv6.Proc.Fork
import Xv6.Proc.Image

namespace Xv6

open List

open Run (bind_eq_ok)

variable {doFree ok : Bool} {a newsz oldsz pa sz va : Nat}

def Phys.Ram (ph : Phys) : Prop := ∀ f ∈ ph.freelist, RamPage f

namespace Phys.Ram

variable {ph ph' : Phys} {pt pt' old new new' : PageTable}

section

variable (h : ph.Ram)

include h

theorem of_freelist (hfree : ph'.freelist = ph.freelist) : ph'.Ram := by
  rw [Ram, hfree]
  exact h

theorem of_count (hcount : ∀ f, ph'.freelist.count f ≤ ph.freelist.count f) : ph'.Ram :=
  fun f hf => h f (count_pos_iff.1 (lt_of_lt_of_le (count_pos_iff.2 hf) (hcount f)))

theorem kfree (hk : Xv6.kfree ph pa = .ok ph') : ph'.Ram := by
  obtain ⟨hpa, hfree⟩ := kfree_eq_ok hk
  intro f hf
  rw [hfree] at hf
  rcases mem_cons.1 hf with rfl | hf
  · exact hpa
  · exact h f hf

theorem kfreeIf (hk : Xv6.kfreeIf doFree ph pa = .ok ph') : ph'.Ram := by
  unfold Xv6.kfreeIf at hk
  split at hk
  · exact h.kfree hk
  · cases hk; exact h

theorem kalloc (hk : Xv6.kalloc ph = some (pa, ph')) : ph'.Ram := by
  intro f hf
  refine h f ?_
  rw [kalloc_eq_some hk]
  exact mem_cons_of_mem _ hf

theorem acct (ha : Acct pt ph pt' ph' [] []) : ph'.Ram := by
  refine h.of_count fun f => ?_
  have hcons := ha.cons f
  have hmono := ha.mono f
  omega

theorem mapLoop {store : Nat → Nat → PageTable → PageTable} {n off : Nat}
    (hm : Xv6.mapLoop store n off a pt ph = .ok (ok, pt', ph')) : ph'.Ram := by
  induction n generalizing off a pt ph with
  | zero =>
    obtain ⟨⟨found, pt₁, ph₁⟩, hwalk, hm⟩ := bind_eq_ok.1 hm
    have h₁ := h.acct (walk_true_eq_ok hwalk).2.2.1
    cases found with
    | false => cases hm; exact h₁
    | true =>
      obtain ⟨-, -, hm⟩ := bind_eq_ok.1 hm
      cases hm
      exact h₁
  | succ n ih =>
    obtain ⟨⟨found, pt₁, ph₁⟩, hwalk, hm⟩ := bind_eq_ok.1 hm
    have h₁ := h.acct (walk_true_eq_ok hwalk).2.2.1
    cases found with
    | false => cases hm; exact h₁
    | true =>
      obtain ⟨-, -, hm⟩ := bind_eq_ok.1 hm
      exact ih h₁ hm

theorem mappages {size perm : Nat} (hm : Xv6.mappages pt ph va size pa perm = .ok (ok, pt', ph')) :
    ph'.Ram := by
  unfold Xv6.mappages at hm
  split at hm
  · cases hm
  · exact h.mapLoop hm

theorem mapvpages {size : Nat} (hm : Xv6.mapvpages pt ph va size = .ok (ok, pt', ph')) :
    ph'.Ram := by
  unfold Xv6.mapvpages at hm
  split at hm
  · cases hm
  · exact h.mapLoop hm

theorem uvmunmapLoop {n : Nat} (hu : Xv6.uvmunmapLoop doFree n a pt ph = .ok (pt', ph')) :
    ph'.Ram := by
  induction n generalizing a pt ph with
  | zero => cases hu; exact h
  | succ n ih =>
    obtain ⟨-, -, -, ph₁, hfree, hu⟩ := uvmunmapLoop_succ hu
    exact ih (h.kfreeIf hfree) hu

theorem uvmunmap {n : Nat} (hu : Xv6.uvmunmap pt ph va n doFree = .ok (pt', ph')) : ph'.Ram := by
  unfold Xv6.uvmunmap at hu
  split at hu
  · cases hu
  · exact h.uvmunmapLoop hu

theorem uvmdealloc (hd : Xv6.uvmdealloc pt ph oldsz newsz = .ok (sz, pt', ph')) : ph'.Ram := by
  unfold Xv6.uvmdealloc at hd
  split at hd
  · cases hd; exact h
  split at hd
  · obtain ⟨⟨pt₁, ph₁⟩, hu, hd⟩ := bind_eq_ok.1 hd
    cases hd
    exact h.uvmunmap hu
  · cases hd; exact h

theorem uvmallocLoop {n : Nat} (ha : Xv6.uvmallocLoop oldsz newsz n a pt ph = .ok (sz, pt', ph')) :
    ph'.Ram := by
  induction n generalizing a pt ph with
  | zero => cases ha; exact h
  | succ n ih =>
    have hmap : ∀ {mem ph₁ pt₂ ph₂ b}, Xv6.kalloc ph = some (mem, ph₁) →
        Xv6.mappages pt { ph₁ with mem := memsetPage ph₁.mem mem 0 } a pgsize mem heapPerm =
          .ok (b, pt₂, ph₂) → ph₂.Ram := fun {mem ph₁ pt₂ ph₂ b} hk hm => by
      have h₁ : Ram { ph₁ with mem := memsetPage ph₁.mem mem 0 } := (h.kalloc hk).of_freelist rfl
      exact h₁.mappages hm
    rcases uvmallocLoop_succ ha with ⟨mem, ph₁, pt₂, ph₂, hk, hm, ha⟩ |
      ⟨-, pt₁, ph₁, r, hd, ⟨rfl, rfl⟩ | ⟨mem, ph₂, ph₃, hk, hm, hfree⟩⟩
    · exact ih (hmap hk hm) ha
    · exact h.uvmdealloc hd
    · exact ((hmap hk hm).kfree hfree).uvmdealloc hd

theorem uvmalloc (ha : Xv6.uvmalloc pt ph oldsz newsz = .ok (sz, pt', ph')) : ph'.Ram := by
  unfold Xv6.uvmalloc at ha
  split at ha
  · cases ha; exact h
  · exact h.uvmallocLoop ha

theorem freewalk {l : Nat} {t : Radix.Table Nat l} (hf : Xv6.freewalk t ph = .ok ph') :
    ph'.Ram := by
  obtain ⟨hcount, -, hpages⟩ := freewalk_eq_ok hf
  intro f hmem
  have hpos := count_pos_iff.2 hmem
  rw [hcount f] at hpos
  by_cases hin : f ∈ ph.freelist
  · exact h f hin
  · rw [count_eq_zero.2 hin, Nat.zero_add] at hpos
    exact hpages f (count_pos_iff.1 hpos)

theorem uvmfree (hf : Xv6.uvmfree pt ph sz = .ok ph') : ph'.Ram := by
  unfold Xv6.uvmfree at hf
  split at hf
  · obtain ⟨⟨pt₁, ph₁⟩, hu, hf⟩ := bind_eq_ok.1 hf
    exact (h.uvmunmap hu).freewalk hf
  · exact h.freewalk hf

theorem procFreepagetable (hf : Xv6.procFreepagetable pt ph sz = .ok ph') : ph'.Ram := by
  obtain ⟨⟨pt₁, ph₁⟩, hu₁, hf⟩ := bind_eq_ok.1 hf
  obtain ⟨⟨pt₂, ph₂⟩, hu₂, hf⟩ := bind_eq_ok.1 hf
  exact ((h.uvmunmap hu₁).uvmunmap hu₂).uvmfree hf

theorem procPagetable {tf : Nat} (hp : Xv6.procPagetable ph tf = .ok (pt, ph')) : ph'.Ram := by
  obtain ⟨hnull, hsome⟩ := procPagetable_eq_ok hp
  cases hn : pt.isNull with
  | true => exact h.of_count fun f => ((hnull hn).2 f).le
  | false => exact h.of_count fun f => by have := (hsome hn).1 f; omega

theorem uvmcopyLoop {shared : Bool} {n i : Nat}
    (hc : Xv6.uvmcopyLoop shared old n i new ph = .ok (ok, new', ph')) : ph'.Ram := by
  induction n generalizing i new ph with
  | zero => cases hc; exact h
  | succ n ih =>
    have hframe : ∀ {pa mem ph₁}, frameFor shared ph pa = .ok (some mem, ph₁) → ph₁.Ram :=
      fun hf => by
        rcases frameFor_eq_some hf with ⟨-, -, rfl⟩ | ⟨-, ph₂, hk, -, rfl⟩
        · exact h
        · exact (h.kalloc hk).of_freelist rfl
    obtain ⟨-, -, ⟨mem, ph₁, new₁, ph₂, hf, hm, hc⟩ |
      ⟨-, pt₁, ph₁, hu, ⟨hf, -⟩ | ⟨mem, ph₂, ph₃, hf, hm, hfree⟩⟩⟩ := uvmcopyLoop_cases hc
    · exact ih ((hframe hf).mappages hm) hc
    · obtain ⟨-, -, rfl⟩ := frameFor_eq_none hf
      exact h.uvmunmap hu
    · exact (((hframe hf).mappages hm).kfreeIf hfree).uvmunmap hu

theorem copyRegionLoop {shared : Bool} {n addr : Nat}
    (hc : Xv6.copyRegionLoop shared old n addr new ph = .ok (ok, new', ph')) : ph'.Ram := by
  induction n generalizing addr new ph with
  | zero => cases hc; exact h
  | succ n ih =>
    obtain ⟨pa, -, hc⟩ := bind_eq_ok.1 hc
    split at hc
    · obtain ⟨⟨ok', new₁, ph₁⟩, hpage, hc⟩ := bind_eq_ok.1 hc
      have h₁ : ph₁.Ram := by
        unfold copyPage at hpage
        split at hpage
        · exact h.uvmcopyLoop hpage
        · exact h.uvmcopyLoop hpage
      dsimp only at hc
      split at hc
      · exact ih h₁ hc
      · cases hc; exact h₁
    · exact ih h hc

theorem unmapLoop {n addr : Nat} (hu : Xv6.unmapLoop doFree n addr pt ph = .ok (pt', ph')) :
    ph'.Ram := by
  induction n generalizing addr pt ph with
  | zero => cases hu; exact h
  | succ n ih =>
    obtain ⟨pa, -, hu⟩ := bind_eq_ok.1 hu
    split at hu
    · obtain ⟨⟨pt₁, ph₁⟩, hone, hu⟩ := bind_eq_ok.1 hu
      exact ih (h.uvmunmap hone) hu
    · exact ih h hu

end

end Phys.Ram

/-! ## The calls -/

variable {k k' : Kernel} {p np n : Nat}

section

variable (hram : k.phys.Ram)

include hram

theorem ram_freeRegions (h : freeRegions k p n = .ok k') : k'.phys.Ram := by
  induction n generalizing k' with
  | zero => cases h; exact hram
  | succ n ih =>
    obtain ⟨k₁, hfirst, h⟩ := bind_eq_ok.1 h
    have h₁ := ih hfirst
    rcases freeRegion_eq_ok h with ⟨-, rfl⟩ | ⟨-, doFree, k₂, vm, -, hun, rfl⟩
    · exact h₁
    · exact h₁.unmapLoop hun

theorem ram_freeTrapframe (h : freeTrapframe k p = .ok k') : k'.phys.Ram := by
  unfold freeTrapframe at h
  split at h
  · cases h; exact hram
  · obtain ⟨ph₁, hk, h⟩ := bind_eq_ok.1 h
    cases h
    exact hram.kfree hk

theorem ram_freeproc (h : freeproc k p = .ok k') : k'.phys.Ram := by
  obtain ⟨k₁, k₂, ph, htf, hreg, htab, rfl⟩ := freeproc_eq_ok h
  have h₂ := ram_freeRegions (ram_freeTrapframe hram htf) hreg
  unfold freeTable at htab
  split at htab
  · cases htab; exact h₂
  · exact h₂.procFreepagetable htab

theorem ram_allocproc {slot : Option Nat} (h : allocproc k = .ok (slot, k')) : k'.phys.Ram := by
  unfold allocproc at h
  split at h
  · cases h; exact hram
  · dsimp only [allocpid] at h
    split at h
    · obtain ⟨k₁, hfree, h⟩ := bind_eq_ok.1 h
      cases h
      refine ram_freeproc ?_ hfree
      exact hram
    · rename_i tf ph hk
      obtain ⟨⟨pt, ph₁⟩, hpt, h⟩ := bind_eq_ok.1 h
      have h₁ := (Phys.Ram.kalloc hram hk).procPagetable hpt
      split at h
      · obtain ⟨k₁, hfree, h⟩ := bind_eq_ok.1 h
        cases h
        exact ram_freeproc h₁ hfree
      · cases h; exact h₁

theorem ram_forkRegions (h : forkRegions k p np n = .ok (ok, k')) : k'.phys.Ram := by
  induction n generalizing k' ok with
  | zero => cases h; exact hram
  | succ n ih =>
    obtain ⟨⟨ok₁, k₁⟩, hfirst, h⟩ := bind_eq_ok.1 h
    have h₁ := ih hfirst
    dsimp only at h
    split at h
    · unfold forkRegion at h
      dsimp only at h
      split at h
      · obtain ⟨⟨ok₂, vm⟩, hcopy, h⟩ := bind_eq_ok.1 h
        have h₂ := h₁.copyRegionLoop hcopy
        split at h
        · cases h; exact h₂
        · split at h
          · cases h; exact h₂
          · obtain ⟨-, -, h⟩ := bind_eq_ok.1 h
            cases h
            exact h₂.of_freelist (congrArg _ (relinked_joinFamily _ _ _ _).phys)
      · cases h; exact h₁
    · cases h; exact h₁

end

theorem ram_fork {r : Int} (hlive : (k.proc p).state ≠ .unused) (hram : k.phys.Ram)
    (h : fork k p = .ok (r, k')) : k'.phys.Ram := by
  obtain ⟨⟨slot, k₀⟩, halloc, h⟩ := bind_eq_ok.1 h
  have h₀ := ram_allocproc hram halloc
  cases slot with
  | none => cases h; exact h₀
  | some np =>
    have hne : p ≠ np := by
      intro he
      exact hlive (he ▸ (freeSlot_eq_some ((allocproc_eq_ok halloc).2 np rfl).1).2)
    obtain ⟨⟨ok, vm⟩, hcopy, h⟩ := bind_eq_ok.1 h
    have h₁ := h₀.uvmcopyLoop hcopy
    cases ok with
    | false =>
      obtain ⟨k₁, hfree, h⟩ := bind_eq_ok.1 h
      cases h
      exact ram_freeproc h₁ hfree
    | true =>
      obtain ⟨k₁, hfields, h⟩ := bind_eq_ok.1 h
      obtain ⟨files, dir, mem, hk₁⟩ := forkFields_eq_ok hne hfields
      have h₂ : k₁.phys.Ram := h₁.of_freelist (by rw [hk₁]; rfl)
      obtain ⟨⟨ok, k₂⟩, hregions, h⟩ := bind_eq_ok.1 h
      have h₃ := ram_forkRegions h₂ hregions
      cases ok with
      | false =>
        obtain ⟨k₃, hfree, h⟩ := bind_eq_ok.1 h
        cases h
        exact ram_freeproc h₃ hfree
      | true => cases h; exact h₃

end Xv6
