/-
What the calls on one address space do when they return: `mmap`, `munmap`, page faults and
`sbrk`; and what `exit` and `wait` leave alone.
-/
import Xv6.Proc.Spec

namespace Xv6

open Function Kernel PageTable List
open Run (bind_eq_ok)

variable {ok : Bool} {e : Mmr} {flags prot : Nat} {res : Option Nat} {pt pt' : PageTable}
  {vm : PageTable × Phys} {ph' : Phys}

variable {done store : Bool} {k k' : Kernel} {addr i length n p va : Nat} {ph : Phys}

/-! ## mmap -/

theorem mapvLoop_eq_ok {off a : Nat}
    (h : mapLoop (fun _ _ pt => pt) n off a pt ph = .ok (ok, pt', ph')) :
    a < maxva ∧ pt.isNull = false ∧ Acct pt ph pt' ph' [] [] ∧
      (∀ v, pt'.entry v = pt.entry v) ∧
      (ok = true → a + n * pgsize < maxva ∧ ∀ j ≤ n, pt.leaf (vpn a + j) = none) := by
  induction n generalizing off a pt ph with
  | zero =>
    obtain ⟨⟨found, pt₁, ph₁⟩, hwalk, h⟩ := bind_eq_ok.1 h
    obtain ⟨hlt, hnull, hacct, hentry, -, -, -⟩ := walk_true_eq_ok hwalk
    cases found with
    | false =>
      cases h
      exact ⟨hlt, hnull, hacct, hentry, fun h => by cases h⟩
    | true =>
      obtain ⟨_, hreq, h⟩ := bind_eq_ok.1 h
      rw [require_eq_ok, Bool.not_eq_true', pte_eq, hentry] at hreq
      cases h
      refine ⟨hlt, hnull, hacct, hentry, fun _ => ⟨by omega, fun j hj => ?_⟩⟩
      rw [Nat.le_zero.1 hj]
      exact leaf_eq_none.2 hreq
  | succ n ih =>
    obtain ⟨⟨found, pt₁, ph₁⟩, hwalk, h⟩ := bind_eq_ok.1 h
    obtain ⟨hlt, hnull, hacct, hentry, -, -, -⟩ := walk_true_eq_ok hwalk
    cases found with
    | false =>
      cases h
      exact ⟨hlt, hnull, hacct, hentry, fun h => by cases h⟩
    | true =>
      obtain ⟨_, hreq, h⟩ := bind_eq_ok.1 h
      rw [require_eq_ok, Bool.not_eq_true', pte_eq, hentry] at hreq
      obtain ⟨hlt', -, hacct', hentry', hrest⟩ := ih h
      have hword : word (a + pgsize) = a + pgsize := by
        have hmax := maxva_room
        exact word_of_lt (by omega)
      rw [hword] at hrest
      refine ⟨hlt, hnull, hacct.trans hacct', fun v => (hentry' v).trans (hentry v),
        fun hok => ⟨?_, fun j hj => ?_⟩⟩
      · have := (hrest hok).1
        rw [Nat.succ_mul]
        omega
      · cases j with
        | zero => exact leaf_eq_none.2 hreq
        | succ j =>
          have hnone := (hrest hok).2 j (by omega)
          rw [vpn_add_page] at hnone
          rw [← leaf_congr (hentry _)]
          rwa [show vpn a + (j + 1) = vpn a + 1 + j by omega]

/-- The number of pages after the first that `mapvpages` visits. -/
def mapvCount (va size : Nat) : Nat :=
  pagesTo (pgrounddown va) (pgrounddown (word (va + size - 1)))

theorem mapvpages_eq_ok {size : Nat} (hva : va % pgsize = 0)
    (h : mapvpages pt ph va size = .ok (ok, pt', ph')) :
    size ≠ 0 ∧ va < maxva ∧ pt.isNull = false ∧ Acct pt ph pt' ph' [] [] ∧
      (∀ v, pt'.entry v = pt.entry v) ∧
      (ok = true → va + mapvCount va size * pgsize < maxva ∧
        ∀ j ≤ mapvCount va size, pt.leaf (vpn va + j) = none) := by
  unfold mapvpages at h
  split at h
  · cases h
  · rename_i hsize
    unfold mapvCount
    rw [pgrounddown_of_mod hva] at h ⊢
    exact ⟨hsize, mapvLoop_eq_ok h⟩

theorem freeMmr_eq_some (h : freeMmr k p = some i) :
    i < maxMmr ∧ ((k.proc p).mmr i).valid = false := by
  have hmem := mem_of_find?_eq_some h
  have hv := List.find?_some h
  exact ⟨mem_range.1 hmem, by simpa using hv⟩

theorem allocMmrListid_eq {id : Int} (h : allocMmrListid k = (id, k')) :
    k' = { k with mmrList := k'.mmrList } ∧
      ((id = -1 ∧ k'.mmrList = k.mmrList ∧ ∀ j < nlist, k.mmrList j = true) ∨
        ∃ j < nlist, id = j ∧ k.mmrList j = false ∧
          k'.mmrList = update k.mmrList j true) := by
  unfold allocMmrListid at h
  split at h
  · rename_i hnone
    cases h
    refine ⟨rfl, .inl ⟨rfl, rfl, fun j hj => ?_⟩⟩
    simpa using List.find?_eq_none.1 hnone j (mem_range.2 hj)
  · rename_i j hsome
    cases h
    have hmem := mem_of_find?_eq_some hsome
    have hv := List.find?_some hsome
    exact ⟨rfl, .inr ⟨j, mem_range.1 hmem, rfl, by simpa using hv, rfl⟩⟩

/-- How the id of a family is chosen: not at all, -1 when there is none left, or a free one. -/
inductive ListidFrom (flags : Nat) (old : Int) (l : Nat → Bool) : Int → (Nat → Bool) → Prop where
  | kept (h : has flags mapShared = false) : ListidFrom flags old l old l
  | none (h : has flags mapShared = true) (hfull : ∀ j < nlist, l j = true) :
      ListidFrom flags old l (-1) l
  | new (h : has flags mapShared = true) {j : Nat} (hj : j < nlist) (hfree : l j = false) :
      ListidFrom flags old l j (update l j true)

/-- The kernel after a `mmap` by `p` that filled entry `i` with `r`, where `id` is the id of the
family. -/
def Kernel.mapRegion (k : Kernel) (p i : Nat) (r : Mmr) (id : Int) (l : Nat → Bool)
    (vm : PageTable × Phys) : Kernel :=
  { k.setProc p { k.proc p with
      pagetable := vm.1
      curMax := r.addr
      mmr := update (k.proc p).mmr i
        { r with family := { r.family with listid := id } } } with
    phys := vm.2, mmrList := l, origins := k.origins + 1 }

/-- The kernel after a `mmap` that ran out of memory: the entry is filled and not valid. -/
def Kernel.mapFailed (k : Kernel) (p i : Nat) (r : Mmr) (vm : PageTable × Phys) : Kernel :=
  { k.setProc p { k.proc p with
      pagetable := vm.1
      mmr := update (k.proc p).mmr i { r with valid := false } } with
    phys := vm.2, origins := k.origins + 1 }

theorem startFamily_eq (k : Kernel) (p i flags : Nat) :
    ∃ id l, startFamily k p i flags =
        { k.setNode ⟨p, i⟩ { k.node ⟨p, i⟩ with listid := id } with mmrList := l } ∧
      ListidFrom flags (k.node ⟨p, i⟩).listid k.mmrList id l := by
  unfold startFamily
  cases hs : has flags mapShared with
  | false =>
    exact ⟨(k.node ⟨p, i⟩).listid, k.mmrList, (k.setNode_eq_self ⟨p, i⟩).symm, .kept hs⟩
  | true =>
    rcases hid : allocMmrListid k with ⟨id, k₁⟩
    obtain ⟨hk₁, hcase⟩ := allocMmrListid_eq hid
    refine ⟨id, k₁.mmrList, ?_, ?_⟩
    · rw [hk₁]
      rfl
    · rcases hcase with ⟨rfl, hl, hfull⟩ | ⟨j, hj, rfl, hfree, hl⟩
      · rw [hl]
        exact .none hs hfull
      · rw [hl]
        exact .new hs hj hfree

theorem sysMmap_eq_ok (h : sysMmap k p length prot flags = .ok (res, k')) :
    (freeMmr k p = none ∧ res = none ∧ k' = k) ∨
      ∃ i r ok vm, freeMmr k p = some i ∧ r = newMmr k p i length prot flags ∧
        mapvpages (k.proc p).pagetable k.phys r.addr (sext r.length) = .ok (ok, vm) ∧
        (ok = false → res = none ∧ k' = k.mapFailed p i r vm) ∧
        (ok = true → res = some r.addr ∧ ∃ id l, k' = k.mapRegion p i r id l vm ∧
          ListidFrom flags (k.node ⟨p, i⟩).listid k.mmrList id l) := by
  unfold sysMmap at h
  split at h
  · rename_i hnone
    cases h
    exact .inl ⟨hnone, rfl, rfl⟩
  · rename_i i hsome
    obtain ⟨⟨ok, vm⟩, hmap, h⟩ := bind_eq_ok.1 h
    refine .inr ⟨i, newMmr k p i length prot flags, ok, vm, hsome, rfl, ?_, ?_⟩
    · simpa [Kernel.setMmr] using hmap
    · cases ok with
      | false =>
        cases h
        simp [Kernel.mapFailed, Kernel.setMmr, Kernel.setVm, Kernel.setProc]
      | true =>
        obtain ⟨id, l, hstart, hid⟩ := startFamily_eq
          (({ k.setMmr p i (newMmr k p i length prot flags) with
              origins := k.origins + 1 }).setVm p vm) p i flags
        cases h
        refine ⟨by simp, fun _ => ⟨rfl, id, l, ?_, ?_⟩⟩
        · rw [hstart]
          simp [Kernel.mapRegion, Kernel.setMmr, Kernel.setVm, Kernel.setProc, Kernel.setNode,
            Kernel.node]
        · simpa [Kernel.node, Kernel.setMmr, Kernel.setVm, Kernel.setProc, newMmr] using hid

/-- `k'` is `k` with entry `i` of `p` filled with `e`, and with the tables of `vm`. -/
structure Kernel.Mapped (k k' : Kernel) (p i : Nat) (e : Mmr) (vm : PageTable × Phys) : Prop where
  others : ∀ q, q ≠ p → k'.proc q = k.proc q
  self : k'.proc p = { k.proc p with
    pagetable := vm.1
    curMax := (k'.proc p).curMax
    mmr := update (k.proc p).mmr i e }
  phys : k'.phys = vm.2
  origins : k'.origins = k.origins + 1

theorem Kernel.mapped_mapFailed (k : Kernel) (p i : Nat) (r : Mmr) (vm : PageTable × Phys) :
    k.Mapped (k.mapFailed p i r vm) p i { r with valid := false } vm :=
  ⟨fun _ hq => proc_setProc_of_ne _ hq _,
    by rw [Kernel.mapFailed, proc_setProc_self], rfl, rfl⟩

theorem Kernel.mapped_mapRegion (k : Kernel) (p i : Nat) (r : Mmr) (id : Int) (l : Nat → Bool)
    (vm : PageTable × Phys) : k.Mapped (k.mapRegion p i r id l vm) p i
      { r with family := { r.family with listid := id } } vm :=
  ⟨fun _ hq => proc_setProc_of_ne _ hq _,
    by rw [Kernel.mapRegion, proc_setProc_self], rfl, rfl⟩

theorem Kernel.Mapped.kept (h : k.Mapped k' p i e vm) {s j : Nat} (hne : ¬(s = p ∧ j = i)) :
    (k'.proc s).mmr j = (k.proc s).mmr j := by
  by_cases hs : s = p
  · subst hs
    rw [h.self]
    exact update_of_ne (fun hj => hne ⟨rfl, hj⟩) ..
  · rw [h.others s hs]

theorem Kernel.Mapped.entry (h : k.Mapped k' p i e vm) : (k'.proc p).mmr i = e := by
  rw [h.self]
  exact update_self ..

theorem sysMmap_others (h : sysMmap k p length prot flags = .ok (res, k')) {q : Nat} (hq : q ≠ p) :
    k'.proc q = k.proc q := by
  rcases sysMmap_eq_ok h with ⟨-, -, rfl⟩ | ⟨i, r, ok, vm, -, -, -, hfalse, htrue⟩
  · rfl
  · cases ok with
    | false =>
      obtain ⟨-, rfl⟩ := hfalse rfl
      exact proc_setProc_of_ne _ hq _
    | true =>
      obtain ⟨-, id, l, rfl, -⟩ := htrue rfl
      exact proc_setProc_of_ne _ hq _

/-! ## munmap -/

theorem findMmr_eq_some (h : findMmr k p addr length = some i) :
    i < maxMmr ∧ ((k.proc p).mmr i).valid = true ∧ addr = ((k.proc p).mmr i).addr ∧
      pgroundup length = sext ((k.proc p).mmr i).length := by
  have hmem := mem_of_find?_eq_some h
  have hv := List.find?_some h
  exact ⟨mem_range.1 hmem, by simpa using hv⟩

def Kernel.invalidate (k : Kernel) (p i : Nat) : Kernel :=
  k.setMmr p i { (k.proc p).mmr i with valid := false }

theorem munmap_eq_ok (h : munmap k p addr length = .ok (done, k')) :
    (findMmr k p addr length = none ∧ done = false ∧ k' = k) ∨
      ∃ i doFree k₁ vm, findMmr k p addr length = some i ∧ done = true ∧
        dropRegion (k.invalidate p i) p i = .ok (doFree, k₁) ∧
        unmapLoop doFree (pageCount ((k.proc p).mmr i).addr ((k.proc p).mmr i).stop)
          ((k.proc p).mmr i).addr (k.proc p).pagetable k.phys = .ok vm ∧
        k' = k₁.setVm p vm := by
  unfold munmap at h
  split at h
  · rename_i hnone
    cases h
    exact .inl ⟨hnone, rfl, rfl⟩
  · rename_i i hsome
    obtain ⟨⟨doFree, k₁⟩, hdrop, h⟩ := bind_eq_ok.1 h
    obtain ⟨vm, hun, h⟩ := bind_eq_ok.1 h
    cases h
    have hre := relinked_dropRegion hdrop
    have htable : (k₁.proc p).pagetable = (k.proc p).pagetable := by
      rw [(hre.procs p).fields]
      simp [Kernel.setMmr]
    rw [htable, hre.phys, (findMmr_eq_some hsome).2.2.1] at hun
    exact .inr ⟨i, doFree, k₁, vm, hsome, rfl, hdrop, hun, rfl⟩

/-! ## Page faults -/

/-- The fault at `va` is one that region `r` answers. -/
def Mmr.Serves (r : Mmr) (store : Bool) (va : Nat) : Prop :=
  r.addr ≤ va ∧ va < r.stop ∧ r.valid = true ∧ has r.prot (if store then pteW else pteR) = true

instance (r : Mmr) (store : Bool) (va : Nat) : Decidable (r.Serves store va) :=
  inferInstanceAs (Decidable (_ ∧ _))

def Mmr.perm (r : Mmr) : Nat := (r.prot ||| pteU) % 2 ^ 32

theorem faultRegion_eq_ok (h : faultRegion k p i store va = .ok k') :
    (¬ ((k.proc p).mmr i).Serves store va ∧ k' = k) ∨
      (((k.proc p).mmr i).Serves store va ∧ ∃ pa ph ok vm,
        (pa, ph) = (kalloc k.phys).getD (0, k.phys) ∧
        mappages (k.proc p).pagetable ph (pgrounddown va) pgsize pa ((k.proc p).mmr i).perm =
          .ok (ok, vm) ∧ k' = k.setVm p vm) := by
  unfold faultRegion at h
  dsimp only at h
  split at h
  · rename_i hin
    by_cases hprot : has ((k.proc p).mmr i).prot (if store then pteW else pteR) = true
    · rw [if_pos hprot] at h
      rcases hk : (kalloc k.phys).getD (0, k.phys) with ⟨pa, ph⟩
      rw [hk] at h
      obtain ⟨⟨ok, vm⟩, hmap, h⟩ := bind_eq_ok.1 h
      cases h
      exact .inr ⟨⟨hin.1, hin.2.1, hin.2.2, hprot⟩, pa, ph, ok, vm, rfl, hmap, rfl⟩
    · rw [if_neg hprot] at h
      cases h
      exact .inl ⟨fun hs => hprot hs.2.2.2, rfl⟩
  · rename_i hin
    cases h
    exact .inl ⟨fun hs => hin ⟨hs.1, hs.2.1, hs.2.2.1⟩, rfl⟩

theorem faultRegions_induction {I : Kernel → Prop}
    (hstep : ∀ i k k', i < n → I k → faultRegion k p i store va = .ok k' → I k') (h0 : I k)
    (h : faultRegions k p store va n = .ok k') : I k' := by
  induction n generalizing k' with
  | zero => cases h; exact h0
  | succ n ih =>
    obtain ⟨k₁, hfirst, h⟩ := bind_eq_ok.1 h
    have h₁ := ih (fun i k k' hi => hstep i k k' (by omega)) hfirst
    exact hstep n k₁ k' (by omega) h₁ h

/-! ## sbrk -/

theorem growproc_eq_ok (h : growproc k p n = .ok (done, k')) :
    (n = 0 ∧ k' = k.resize p ((k.proc p).sz % 2 ^ 32) ((k.proc p).pagetable, k.phys)) ∨
      (n ≠ 0 ∧ n < 2 ^ 31 ∧ ∃ r vm, uvmalloc (k.proc p).pagetable k.phys ((k.proc p).sz % 2 ^ 32)
          (((k.proc p).sz % 2 ^ 32 + n) % 2 ^ 32) = .ok (r, vm) ∧
        k' = if r % 2 ^ 32 = 0 then k.setVm p vm else k.resize p (r % 2 ^ 32) vm) ∨
      (2 ^ 31 ≤ n ∧ ∃ r vm, uvmdealloc (k.proc p).pagetable k.phys ((k.proc p).sz % 2 ^ 32)
          (((k.proc p).sz % 2 ^ 32 + n) % 2 ^ 32) = .ok (r, vm) ∧
        k' = k.resize p (r % 2 ^ 32) vm) := by
  unfold growproc at h
  dsimp only at h
  split at h
  · rename_i hn
    cases h
    exact .inl ⟨hn, rfl⟩
  · rename_i hn
    split at h
    · rename_i hlt
      obtain ⟨⟨r, vm⟩, halloc, h⟩ := bind_eq_ok.1 h
      refine .inr (.inl ⟨hn, hlt, r, vm, halloc, ?_⟩)
      split at h
      · rename_i hr
        cases h
        rw [if_pos hr]
      · rename_i hr
        cases h
        rw [if_neg hr]
        rfl
    · rename_i hge
      obtain ⟨⟨r, vm⟩, hdealloc, h⟩ := bind_eq_ok.1 h
      cases h
      exact .inr (.inr ⟨by omega, r, vm, hdealloc, rfl⟩)

theorem growproc_keeps (h : growproc k p n = .ok (done, k')) (q : Nat) :
    (k'.proc q).state = (k.proc q).state ∧ (k'.proc q).mmr = (k.proc q).mmr := by
  have hresize : ∀ sz vm, ((k.resize p sz vm).proc q).state = (k.proc q).state ∧
      ((k.resize p sz vm).proc q).mmr = (k.proc q).mmr := by
    by_cases hq : q = p
    · subst hq
      simp [Kernel.resize]
    · simp [Kernel.resize, proc_setProc_of_ne _ hq]
  have hset : ∀ vm, ((k.setVm p vm).proc q).state = (k.proc q).state ∧
      ((k.setVm p vm).proc q).mmr = (k.proc q).mmr := by
    by_cases hq : q = p
    · subst hq
      simp
    · simp [proc_setVm_of_ne _ hq]
  rcases growproc_eq_ok h with ⟨-, rfl⟩ | ⟨-, -, r, vm, -, rfl⟩ | ⟨-, r, vm, -, rfl⟩
  · exact hresize _ _
  · split
    · exact hset _
    · exact hresize _ _
  · exact hresize _ _

/-! ## exit and wait -/

/-- No address space has changed, nor have links, ids or the free list. -/
structure Kernel.Quiet (k k' : Kernel) : Prop where
  procs : ∀ q, (k.proc q).SameSpace (k'.proc q)
  mmr : ∀ q, (k'.proc q).mmr = (k.proc q).mmr
  freelist : k'.phys.freelist = k.phys.freelist
  mmrList : k'.mmrList = k.mmrList
  initproc : k'.initproc = k.initproc
  origins : k'.origins = k.origins

theorem Kernel.Quiet.refl (k : Kernel) : k.Quiet k :=
  ⟨fun _ => .refl _, fun _ => rfl, rfl, rfl, rfl, rfl⟩

theorem Kernel.quiet_phys (k : Kernel) (h : ph.freelist = k.phys.freelist) :
    k.Quiet { k with phys := ph } :=
  ⟨fun _ => .refl _, fun _ => rfl, h, rfl, rfl, rfl⟩

theorem exitFiles_eq_ok (h : exitFiles k p n = .ok k') :
    ∃ files, k' = { k.setProc p { k.proc p with ofile := files } with fileRef := k'.fileRef } := by
  induction n generalizing k' with
  | zero =>
    cases h
    exact ⟨(k.proc p).ofile, by simp [Kernel.setProc]⟩
  | succ n ih =>
    obtain ⟨k₁, hfirst, h⟩ := bind_eq_ok.1 h
    obtain ⟨files, hk₁⟩ := ih hfirst
    split at h
    · cases h
      exact ⟨files, hk₁⟩
    · obtain ⟨-, -, h⟩ := bind_eq_ok.1 h
      cases h
      refine ⟨update files n none, ?_⟩
      rw [hk₁]
      simp [Kernel.setProc]

theorem exit_eq_ok {status : Nat} (hlive : (k.proc p).state ≠ .unused)
    (h : exit k p status = .ok k') : k.Quiet k' ∧ p ≠ k.initproc ∧ (k'.proc p).state = .zombie ∧
      ∀ q, q ≠ p → (k'.proc q).state = (k.proc q).state := by
  unfold exit at h
  split at h
  · cases h
  · rename_i hinit
    obtain ⟨k₁, hfiles, h⟩ := bind_eq_ok.1 h
    obtain ⟨files, hk₁⟩ := exitFiles_eq_ok hfiles
    split at h
    · cases h
    · rename_i d hd
      cases h
      rw [hk₁]
      refine ⟨⟨fun q => ?_, fun q => ?_, rfl, rfl, rfl, rfl⟩, hinit, by simp, fun q hq => ?_⟩
      · by_cases hq : q = p
        · subst hq
          simp only [reparent, Kernel.setProc, update_self]
          split <;> exact ⟨by simpa using hlive, rfl, rfl, rfl, rfl, fun _ => rfl⟩
        · simp only [reparent, Kernel.setProc, update_of_ne hq]
          split <;> exact ⟨Iff.rfl, rfl, rfl, rfl, rfl, fun _ => rfl⟩
      · by_cases hq : q = p
        · subst hq
          simp only [reparent, Kernel.setProc, update_self]
          split <;> rfl
        · simp only [reparent, Kernel.setProc, update_of_ne hq]
          split <;> rfl
      · simp only [reparent, Kernel.setProc, update_of_ne hq]
        split <;> rfl

theorem wait_eq_ok (h : wait k p addr = .ok k') :
    ∃ ph, ph.freelist = k.phys.freelist ∧ (k' = { k with phys := ph } ∨
      ∃ c < nproc, (k.proc c).state = .zombie ∧ (k.proc c).parent = some p ∧
        freeproc { k with phys := ph } c = .ok k') := by
  unfold wait at h
  split at h
  · cases h
    exact ⟨k.phys, rfl, .inl rfl⟩
  · rename_i c hc
    have hmem := mem_range.1 (mem_of_find?_eq_some hc)
    have hchild := List.find?_some hc
    simp only [decide_eq_true_eq] at hchild
    split at h
    · exact ⟨k.phys, rfl, .inr ⟨c, hmem, hchild.2, hchild.1, h⟩⟩
    · obtain ⟨⟨ok, ph⟩, hcopy, h⟩ := bind_eq_ok.1 h
      refine ⟨ph, copyout_eq_ok hcopy, ?_⟩
      dsimp only at h
      split at h
      · exact .inr ⟨c, hmem, hchild.2, hchild.1, h⟩
      · cases h
        exact .inl rfl

theorem usertrapFault_eq_ok (h : usertrapFault k p store va = .ok k') :
    ∃ k₁, faultRegions k p store va maxMmr = .ok k₁ ∧
      (k' = k₁ ∨ exit k₁ p (2 ^ 32 - 1) = .ok k') := by
  obtain ⟨k₁, hfault, h⟩ := bind_eq_ok.1 h
  refine ⟨k₁, hfault, ?_⟩
  split at h
  · exact .inr h
  · cases h
    exact .inl rfl

end Xv6
