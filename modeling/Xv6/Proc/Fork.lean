/-
What `fork` does when it returns: the table of the child, the regions of both and their links.
-/
import Xv6.Proc.Spec

namespace Xv6

open Function Kernel List
open Run (bind_eq_ok)

variable {ok shared : Bool} {r : Int} {k k' : Kernel} {i n np p q : Nat} {mmr : Nat → Mmr}
  {pt : PageTable}

/-! ## The fields of the child -/

theorem forkFiles_eq_ok (h : forkFiles k p np n = .ok k') :
    ∃ files, k' = { k.setProc np { k.proc np with ofile := files } with fileRef := k'.fileRef } := by
  induction n generalizing k' with
  | zero =>
    cases h
    exact ⟨(k.proc np).ofile, by simp [Kernel.setProc]⟩
  | succ n ih =>
    obtain ⟨k₁, hfirst, h⟩ := bind_eq_ok.1 h
    obtain ⟨files, hk₁⟩ := ih hfirst
    split at h
    · cases h
      exact ⟨files, hk₁⟩
    · rename_i f hf
      obtain ⟨-, -, h⟩ := bind_eq_ok.1 h
      cases h
      refine ⟨update files n (some f), ?_⟩
      rw [hk₁]
      simp [Kernel.setProc]

theorem forkFields_eq_ok (hne : p ≠ np) (h : forkFields k p np = .ok k') :
    ∃ files dir mem, k' = { k.setProc np { k.proc np with
      sz := (k.proc p).sz, curMax := (k.proc p).curMax, ofile := files, cwd := dir,
      mmr := (k.proc p).mmr } with
        phys := { k.phys with mem := mem }, fileRef := k'.fileRef, inodeRef := k'.inodeRef } := by
  obtain ⟨k₁, htf, h⟩ := bind_eq_ok.1 h
  obtain ⟨k₂, hfiles, h⟩ := bind_eq_ok.1 h
  obtain ⟨k₃, hcwd, h⟩ := bind_eq_ok.1 h
  cases h
  unfold forkTrapframe at htf
  split at htf
  · cases htf
    obtain ⟨files, hk₂⟩ := forkFiles_eq_ok hfiles
    unfold forkCwd at hcwd
    split at hcwd
    · cases hcwd
    · rename_i d hd
      cases hcwd
      refine ⟨files, some d, k₂.phys.mem, ?_⟩
      rw [hk₂]
      simp [Kernel.setProc, update_of_ne hne]
  · cases htf

/-! ## The regions -/

def Mmr.lent (r : Mmr) (p np i : Nat) : Mmr :=
  if r.valid && !r.isPrivate then
    { r with family :=
      { r.family with
        next := some ⟨np, i⟩
        prev := if r.family.prev = some ⟨p, i⟩ then some ⟨np, i⟩ else r.family.prev } }
  else r

def Mmr.inherited (r : Mmr) (p np i : Nat) : Mmr :=
  if r.valid then
    if r.isPrivate then
      { r with family := { listid := -1, next := some ⟨np, i⟩, prev := some ⟨np, i⟩ } }
    else
      { r with family := { listid := r.family.listid, next := r.family.next, prev := some ⟨p, i⟩ } }
  else r

theorem Mmr.sameRegion_lent (r : Mmr) (p np i : Nat) : r.SameRegion (r.lent p np i) := by
  unfold lent SameRegion
  split <;> rfl

theorem Mmr.sameRegion_inherited (r : Mmr) (p np i : Nat) :
    r.SameRegion (r.inherited p np i) := by
  unfold inherited SameRegion
  split
  · split <;> rfl
  · rfl

/-- The usable pages of the first `n` regions of a table of regions that are private, or not. -/
def usablePages (pt : PageTable) (mmr : Nat → Mmr) (shared : Bool) (n : Nat) : List Nat :=
  (List.range n).flatMap fun i =>
    if (mmr i).valid ∧ (mmr i).isPrivate = !shared then pt.touched (mmr i).pages else []

theorem mem_usablePages {v : Nat} :
    v ∈ usablePages pt mmr shared n ↔ ∃ i < n, (mmr i).valid = true ∧
      (mmr i).isPrivate = !shared ∧ v ∈ (mmr i).pages ∧ ∃ w, pt.user v = some w := by
  simp only [usablePages, mem_flatMap, mem_range, mem_ite_nil_right,
    PageTable.mem_touched, and_assoc]

theorem usablePages_succ (pt : PageTable) (mmr : Nat → Mmr) (shared : Bool) (n : Nat) :
    usablePages pt mmr shared (n + 1) = usablePages pt mmr shared n ++
      if (mmr n).valid ∧ (mmr n).isPrivate = !shared then pt.touched (mmr n).pages else [] := by
  rw [usablePages, range_succ, flatMap_append, flatMap_singleton]
  rfl

theorem usablePages_unique {j v : Nat} (hn : (usablePages pt mmr shared n).Nodup) (hi : i < n)
    (hj : j < n) (hvi : (mmr i).valid = true) (hvj : (mmr j).valid = true)
    (hpi : (mmr i).isPrivate = !shared) (hpj : (mmr j).isPrivate = !shared)
    (hui : v ∈ (mmr i).pages) (huj : v ∈ (mmr j).pages) (huser : ∃ w, pt.user v = some w) :
    i = j := by
  induction n with
  | zero => exact absurd hi i.not_lt_zero
  | succ n ih =>
    rw [usablePages_succ] at hn
    obtain ⟨hfirst, -, hdisj⟩ := nodup_append.1 hn
    have hlast : ∀ {i}, i = n → (mmr i).valid = true → (mmr i).isPrivate = !shared →
        v ∈ (mmr i).pages → v ∈ (if (mmr n).valid ∧ (mmr n).isPrivate = !shared then
          pt.touched (mmr n).pages else []) := by
      rintro i rfl hv hp hu
      rw [if_pos ⟨hv, hp⟩]
      exact PageTable.mem_touched.2 ⟨hu, huser⟩
    rcases Nat.lt_succ_iff_lt_or_eq.1 hi with hi | hi
    · rcases Nat.lt_succ_iff_lt_or_eq.1 hj with hj | hj
      · exact ih hfirst hi hj
      · exact absurd rfl (hdisj v (mem_usablePages.2 ⟨i, hi, hvi, hpi, hui, huser⟩) v
          (hlast hj hvj hpj huj))
    · rcases Nat.lt_succ_iff_lt_or_eq.1 hj with hj | hj
      · exact absurd rfl (hdisj v (mem_usablePages.2 ⟨j, hj, hvj, hpj, huj, huser⟩) v
          (hlast hi hvi hpi hui))
      · rw [hi, hj]

theorem Kernel.proc_setNode_of_ne (k : Kernel) {n : NodePtr} (h : q ≠ n.proc) (v : MmrNode) :
    (k.setNode n v).proc q = k.proc q := proc_setProc_of_ne _ h _

theorem Kernel.proc_setNode_self (k : Kernel) (p i : Nat) (v : MmrNode) :
    (k.setNode ⟨p, i⟩ v).proc p = { k.proc p with
      mmr := update (k.proc p).mmr i { (k.proc p).mmr i with family := v } } :=
  proc_setProc_self ..

theorem joinFamily_eq (hne : p ≠ np) : joinFamily k p np i =
      (k.setNode ⟨np, i⟩ { listid := (k.node ⟨p, i⟩).listid
                           next := (k.node ⟨p, i⟩).next
                           prev := some ⟨p, i⟩ }).setNode ⟨p, i⟩
        { k.node ⟨p, i⟩ with
          next := some ⟨np, i⟩
          prev := if (k.node ⟨p, i⟩).prev = some ⟨p, i⟩ then some ⟨np, i⟩
            else (k.node ⟨p, i⟩).prev } := by
  unfold joinFamily
  simp only [Kernel.node, proc_setNode_of_ne _ (n := ⟨np, i⟩) hne,
    proc_setNode_self, update_self]
  split
  · rename_i hself
    simp [Kernel.setNode, Kernel.setMmr, Kernel.setProc, hself]
  · rename_i hself
    simp [hself]

theorem forkRegion_eq_ok (hne : p ≠ np) (hmmr : (k.proc np).mmr i = (k.proc p).mmr i)
    (h : forkRegion k p np i = .ok (true, k')) :
    ∃ vm, k' = ((k.setVm np vm).setMmr np i (((k.proc p).mmr i).inherited p np i)).setMmr p i
        (((k.proc p).mmr i).lent p np i) ∧
      (((k.proc p).mmr i).valid = false → vm = ((k.proc np).pagetable, k.phys)) ∧
      (((k.proc p).mmr i).valid = true →
        copyRegionLoop (!((k.proc p).mmr i).isPrivate) (k.proc p).pagetable
          (pageCount ((k.proc p).mmr i).addr ((k.proc p).mmr i).stop) ((k.proc p).mmr i).addr
          (k.proc np).pagetable k.phys = .ok (true, vm)) := by
  unfold forkRegion at h
  dsimp only at h
  split at h
  · rename_i hv
    obtain ⟨⟨ok, vm⟩, hcopy, h⟩ := bind_eq_ok.1 h
    cases ok with
    | false => cases h
    | true =>
      refine ⟨vm, ?_, fun hf => by simp [hv] at hf, fun _ => hcopy⟩
      simp only [Bool.not_true, Bool.false_eq_true, if_false] at h
      split at h
      · rename_i hp
        cases h
        simp [Mmr.inherited, Mmr.lent, Kernel.setNode, Kernel.setMmr, Kernel.setVm,
          Kernel.setProc, update_of_ne hne, hmmr, hv, hp]
      · rename_i hp
        obtain ⟨-, -, h⟩ := bind_eq_ok.1 h
        cases h
        rw [joinFamily_eq hne]
        simp [Mmr.inherited, Mmr.lent, Kernel.setNode, Kernel.setMmr, Kernel.setVm,
          Kernel.setProc, Kernel.node, update_of_ne hne, hmmr, hv, hp]
  · rename_i hv
    cases h
    refine ⟨((k.proc np).pagetable, k.phys), ?_, fun _ => rfl, fun ht => absurd ht hv⟩
    rw [Mmr.inherited, Mmr.lent, if_neg hv, if_neg (by simp [hv]), ← hmmr,
      setVm_eq_self, setMmr_eq_self, hmmr, setMmr_eq_self]

/-- The kernel after the child `np` of `p` got the first `n` regions, with its table and
physical memory as in `vm`. -/
def Kernel.shareRegions (k : Kernel) (p np n : Nat) (vm : PageTable × Phys) : Kernel :=
  { (k.setProc np { k.proc np with
      pagetable := vm.1
      mmr := fun i => if i < n then ((k.proc p).mmr i).inherited p np i
        else (k.proc np).mmr i }).setProc p { k.proc p with
      mmr := fun i => if i < n then ((k.proc p).mmr i).lent p np i else (k.proc p).mmr i } with
    phys := vm.2 }

theorem Kernel.shareRegions_parent (k : Kernel) (p np n : Nat) (vm : PageTable × Phys) :
    (k.shareRegions p np n vm).proc p = { k.proc p with
      mmr := fun i => if i < n then ((k.proc p).mmr i).lent p np i else (k.proc p).mmr i } :=
  update_self ..

theorem Kernel.shareRegions_child (k : Kernel) (hne : p ≠ np) (n : Nat) (vm : PageTable × Phys) :
    (k.shareRegions p np n vm).proc np = { k.proc np with
      pagetable := vm.1
      mmr := fun i => if i < n then ((k.proc p).mmr i).inherited p np i
        else (k.proc np).mmr i } := by
  have hne' : np ≠ p := fun h => hne h.symm
  rw [shareRegions, setProc, setProc]
  simp only [update_of_ne hne', update_self]

theorem Kernel.shareRegions_of_ne (k : Kernel) (hp : q ≠ p) (hnp : q ≠ np) (n : Nat)
    (vm : PageTable × Phys) : (k.shareRegions p np n vm).proc q = k.proc q := by
  rw [shareRegions, setProc, setProc]
  simp only [update_of_ne hp, update_of_ne hnp]

theorem Kernel.shareRegions_succ (k : Kernel) (hne : p ≠ np) (n : Nat) (vm vm' : PageTable × Phys) :
    (((k.shareRegions p np n vm).setVm np vm').setMmr np n
        (((k.proc p).mmr n).inherited p np n)).setMmr p n (((k.proc p).mmr n).lent p np n) =
      k.shareRegions p np (n + 1) vm' := by
  have hupd : ∀ (f g : Nat → Mmr), update (fun i => if i < n then f i else g i) n (f n) =
      fun i => if i < n + 1 then f i else g i := by
    intro f g
    funext i
    by_cases hi : i = n
    · rw [hi, update_self, if_pos n.lt_succ_self]
    · rw [update_of_ne hi]
      by_cases hlt : i < n
      · rw [if_pos hlt, if_pos (by omega)]
      · rw [if_neg hlt, if_neg (by omega)]
  simp only [setMmr, setVm, setProc, shareRegions_child k hne, shareRegions_parent,
    update_of_ne hne, update_self, hupd]
  simp only [shareRegions, setProc]
  congr 1
  funext q
  by_cases hq : q = p
  · rw [hq, update_self, update_self]
  · rw [update_of_ne hq, update_of_ne hq]
    by_cases hq' : q = np
    · rw [hq', update_self, update_self]
    · rw [update_of_ne hq', update_of_ne hq', update_of_ne hq',
        update_of_ne hq, update_of_ne hq']

theorem forkRegions_induction (hne : p ≠ np) (hmmr : (k.proc np).mmr = (k.proc p).mmr)
    (I : Nat → PageTable → Phys → Prop) (hinit : I 0 (k.proc np).pagetable k.phys)
    (hskip : ∀ i new ph, ((k.proc p).mmr i).valid = false → I i new ph → I (i + 1) new ph)
    (hcopy : ∀ i new ph new' ph', ((k.proc p).mmr i).valid = true →
      copyRegionLoop (!((k.proc p).mmr i).isPrivate) (k.proc p).pagetable
        (pageCount ((k.proc p).mmr i).addr ((k.proc p).mmr i).stop) ((k.proc p).mmr i).addr
        new ph = .ok (true, new', ph') → I i new ph → I (i + 1) new' ph')
    (h : forkRegions k p np n = .ok (true, k')) :
    ∃ vm, k' = k.shareRegions p np n vm ∧ I n vm.1 vm.2 := by
  induction n generalizing k' with
  | zero =>
    cases h
    refine ⟨((k.proc np).pagetable, k.phys), ?_, hinit⟩
    simp [Kernel.shareRegions, Kernel.setProc]
  | succ n ih =>
    obtain ⟨⟨ok, k₁⟩, hfirst, h⟩ := bind_eq_ok.1 h
    cases ok with
    | false => cases h
    | true =>
      obtain ⟨vm, rfl, hbefore⟩ := ih hfirst
      have hp : ((k.shareRegions p np n vm).proc p).mmr n = (k.proc p).mmr n := by
        rw [shareRegions_parent]
        exact if_neg (lt_irrefl n)
      have hnp : ((k.shareRegions p np n vm).proc np).mmr n = (k.proc p).mmr n := by
        rw [shareRegions_child k hne, ← hmmr]
        exact if_neg (lt_irrefl n)
      obtain ⟨vm', hk', hsame, hrun⟩ := forkRegion_eq_ok hne (hnp.trans hp.symm) h
      rw [hp] at hk' hsame hrun
      rw [shareRegions_succ k hne] at hk'
      simp only [shareRegions_child k hne, shareRegions_parent] at hrun hsame
      refine ⟨vm', hk', ?_⟩
      by_cases hv : ((k.proc p).mmr n).valid = true
      · exact hcopy n _ _ _ _ hv (hrun hv) hbefore
      · rw [hsame (by simpa using hv)]
        exact hskip n _ _ (by simpa using hv) hbefore

theorem forkRegions_eq_ok (hne : p ≠ np) (hmmr : (k.proc np).mmr = (k.proc p).mmr)
    (h : forkRegions k p np n = .ok (true, k')) : ∃ vm, k' = k.shareRegions p np n vm ∧
      ∀ new₀ ph₀ fresh lent, (∀ f ∈ ph₀.freelist, RamPage f) →
        (∀ i, ((k.proc p).mmr i).addr % pgsize = 0) →
        Filled new₀ ph₀ fresh (copyPerm (k.proc p).pagetable) lent
          (lentWord (k.proc p).pagetable) (k.proc np).pagetable k.phys →
        Filled new₀ ph₀ (fresh ++ usablePages (k.proc p).pagetable (k.proc p).mmr false n)
          (copyPerm (k.proc p).pagetable)
          (lent ++ usablePages (k.proc p).pagetable (k.proc p).mmr true n)
          (lentWord (k.proc p).pagetable) vm.1 vm.2 := by
  refine forkRegions_induction hne hmmr (fun n new ph => ∀ new₀ ph₀ fresh lent,
    (∀ f ∈ ph₀.freelist, RamPage f) → (∀ i, ((k.proc p).mmr i).addr % pgsize = 0) →
    Filled new₀ ph₀ fresh (copyPerm (k.proc p).pagetable) lent
      (lentWord (k.proc p).pagetable) (k.proc np).pagetable k.phys →
    Filled new₀ ph₀ (fresh ++ usablePages (k.proc p).pagetable (k.proc p).mmr false n)
      (copyPerm (k.proc p).pagetable)
      (lent ++ usablePages (k.proc p).pagetable (k.proc p).mmr true n)
      (lentWord (k.proc p).pagetable) new ph) ?_ ?_ ?_ h
  · intro new₀ ph₀ fresh lent _ _ hf
    simpa [usablePages] using hf
  · intro i new ph hv ih new₀ ph₀ fresh lent hram haddr hf
    rw [usablePages_succ, usablePages_succ, if_neg (by simp [hv]), if_neg (by simp [hv]),
      append_nil, append_nil]
    exact ih new₀ ph₀ fresh lent hram haddr hf
  · intro i new ph new' ph' hv hrun ih new₀ ph₀ fresh lent hram haddr hf
    have hstart : ((k.proc p).mmr i).addr = vpn ((k.proc p).mmr i).addr * pgsize :=
      (Nat.div_mul_cancel (Nat.dvd_of_mod_eq_zero (haddr i))).symm
    rw [hstart] at hrun
    have hafter := copyRegionLoop_eq_ok (ih new₀ ph₀ fresh lent hram haddr hf) hram hrun
    rw [usablePages_succ, usablePages_succ]
    cases hpr : ((k.proc p).mmr i).isPrivate with
    | false => simpa [hpr, hv, ← hstart, Mmr.pages] using hafter
    | true => simpa [hpr, hv, ← hstart, Mmr.pages] using hafter

/-! ## fork as a whole -/

theorem relinked_joinFamily (k : Kernel) (p np i : Nat) : k.Relinked (joinFamily k p np i) := by
  unfold joinFamily
  dsimp only
  split
  · exact ((k.relinked_setNode _ _).trans (relinked_setNode _ _ _)).trans
      (relinked_setNode _ _ _)
  · exact (k.relinked_setNode _ _).trans (relinked_setNode _ _ _)

theorem pruned_forkRegion (h : forkRegion k p np i = .ok (ok, k')) : k.Pruned np k' := by
  unfold forkRegion at h
  dsimp only at h
  split at h
  · obtain ⟨⟨ok', vm⟩, -, h⟩ := bind_eq_ok.1 h
    have hvm := k.pruned_setVm np vm
    split at h
    · cases h
      exact hvm
    · split at h
      · cases h
        exact hvm.trans ((relinked_setNode _ _ _).pruned np)
      · obtain ⟨-, -, h⟩ := bind_eq_ok.1 h
        cases h
        exact hvm.trans ((relinked_joinFamily _ _ _ _).pruned np)
  · cases h
    exact .refl np k

theorem pruned_forkRegions (h : forkRegions k p np n = .ok (ok, k')) : k.Pruned np k' := by
  induction n generalizing k' ok with
  | zero => cases h; exact .refl np k
  | succ n ih =>
    obtain ⟨⟨ok₁, k₁⟩, hfirst, h⟩ := bind_eq_ok.1 h
    have hbefore := ih hfirst
    dsimp only at h
    split at h
    · exact hbefore.trans (pruned_forkRegion h)
    · cases h
      exact hbefore

theorem apart_forkFields (hne : p ≠ np) (h : forkFields k p np = .ok k') : k.Apart np k' := by
  obtain ⟨files, dir, mem, hk'⟩ := forkFields_eq_ok hne h
  rw [hk']
  exact apart_setProc rfl rfl rfl

/-- The state after a `fork` that made the child `np`. -/
structure Forked (k k' : Kernel) (p np : Nat) : Prop where
  slot : freeSlot k = some np
  others : ∀ q, q ≠ p → q ≠ np → k'.proc q = k.proc q
  parent : k'.proc p = { k.proc p with
    mmr := fun i => if i < maxMmr then ((k.proc p).mmr i).lent p np i else (k.proc p).mmr i }
  state : (k'.proc np).state = .runnable
  sz : (k'.proc np).sz = (k.proc p).sz
  curMax : (k'.proc np).curMax = (k.proc p).curMax
  mmr : ∀ i, (k'.proc np).mmr i =
    if i < maxMmr then ((k.proc p).mmr i).inherited p np i else (k.proc p).mmr i
  mmrList : k'.mmrList = k.mmrList
  initproc : k'.initproc = k.initproc
  origins : k'.origins = k.origins
  heap : ∀ u < npages (k.proc p).sz, ∃ w, (k.proc p).pagetable.leaf u = some w ∧
    kernelReads (pte2pa w) = true
  table : ∃ tf ph pt₀ ph₀, kalloc k.phys = some (tf, ph) ∧ (k'.proc np).trapframe = some tf ∧
    procPagetable ph tf = .ok (pt₀, ph₀) ∧ pt₀.isNull = false ∧
    Filled pt₀ ph₀ (List.range' 0 (npages (k.proc p).sz) ++
        usablePages (k.proc p).pagetable (k.proc p).mmr false maxMmr)
      (copyPerm (k.proc p).pagetable) (usablePages (k.proc p).pagetable (k.proc p).mmr true maxMmr)
      (lentWord (k.proc p).pagetable) (k'.proc np).pagetable k'.phys

theorem forkInto_eq_ok (hne : p ≠ np) (h : forkInto k p np = .ok (r, k')) :
    (r = -1 ∧ k.Apart np k' ∧ ∃ x : Proc, x.Cleared (k'.proc np) ∧
        ((∀ i, ((k.proc np).mmr i).SameRegion (x.mmr i)) ∧ x.curMax = (k.proc np).curMax ∨
          (∀ i, ((k.proc p).mmr i).SameRegion (x.mmr i)) ∧ x.curMax = (k.proc p).curMax)) ∨
      ∃ vm k₁ k₂, uvmcopy (k.proc p).pagetable (k.proc np).pagetable k.phys 0 (k.proc p).sz =
          .ok (true, vm) ∧
        forkFields (k.setVm np vm) p np = .ok k₁ ∧
        forkRegions k₁ p np maxMmr = .ok (true, k₂) ∧ r = (k₂.proc np).pid ∧
        k' = k₂.setProc np { k₂.proc np with parent := some p, state := .runnable } := by
  obtain ⟨⟨ok, vm⟩, hcopy, h⟩ := bind_eq_ok.1 h
  have hvm := k.apart_setVm np vm
  cases ok with
  | false =>
    obtain ⟨k₂, hfree, h⟩ := bind_eq_ok.1 h
    cases h
    obtain ⟨hapart, hclear⟩ := freeproc_cleared hfree
    refine .inl ⟨rfl, hvm.trans hapart, _, hclear, .inl ?_⟩
    rw [proc_setVm_self]
    exact ⟨fun _ => rfl, rfl⟩
  | true =>
    obtain ⟨k₁, hfields, h⟩ := bind_eq_ok.1 h
    obtain ⟨⟨ok, k₂⟩, hregions, h⟩ := bind_eq_ok.1 h
    have hpruned := pruned_forkRegions hregions
    cases ok with
    | false =>
      obtain ⟨k₃, hfree, h⟩ := bind_eq_ok.1 h
      cases h
      obtain ⟨hapart, hclear⟩ := freeproc_cleared hfree
      refine .inl ⟨rfl, ((hvm.trans (apart_forkFields hne hfields)).trans
        hpruned.apart).trans hapart, _, hclear, .inr ?_⟩
      obtain ⟨files, dir, mem, hk₁⟩ := forkFields_eq_ok hne hfields
      have hchild : (k₁.proc np).mmr = (k.proc p).mmr ∧
          (k₁.proc np).curMax = (k.proc p).curMax := by
        rw [hk₁]
        simp [Kernel.setProc, Kernel.setVm, update_of_ne hne]
      have hself := hpruned.self.regions
      have hfield := hpruned.self.fields
      refine ⟨fun i => ?_, ?_⟩
      · rw [← hchild.1]
        exact hself i
      · rw [hfield]
        exact hchild.2
    | true =>
      cases h
      exact .inr ⟨vm, k₁, k₂, hcopy, hfields, hregions, rfl, rfl⟩

/-- How `fork` makes the child `np`: its slot is set up, and the heap, the fields and the regions
of `p` are copied, with the kernel as in `k₀`, `k₁` and `k₂` in between. -/
structure ForkStages (k k' : Kernel) (p np : Nat) (r : Int) (tf : Nat) (ph : Phys)
    (pt₀ : PageTable) (vm : PageTable × Phys) (k₀ k₁ k₂ : Kernel) : Prop where
  slot : freeSlot k = some np
  ne : p ≠ np
  kalloc : kalloc k.phys = some (tf, ph)
  table : procPagetable ph tf = .ok (pt₀, k₀.phys)
  null : pt₀.isNull = false
  setup : k₀ = { k.setProc np { k.proc np with
    pid := k.nextpid, state := .used, trapframe := some tf, pagetable := pt₀ } with
      phys := k₀.phys, nextpid := (allocpid k).2.nextpid }
  heap : uvmcopy (k₀.proc p).pagetable (k₀.proc np).pagetable k₀.phys 0 (k₀.proc p).sz =
    .ok (true, vm)
  fields : forkFields (k₀.setVm np vm) p np = .ok k₁
  regions : forkRegions k₁ p np maxMmr = .ok (true, k₂)
  pid : r = (k₂.proc np).pid
  last : k' = k₂.setProc np { k₂.proc np with parent := some p, state := .runnable }

namespace ForkStages

variable {k k' : Kernel} {p np : Nat} {r : Int} {tf : Nat} {ph : Phys} {pt₀ : PageTable}
  {vm : PageTable × Phys} {k₀ k₁ k₂ : Kernel} (h : ForkStages k k' p np r tf ph pt₀ vm k₀ k₁ k₂)

include h

theorem parent₀ : k₀.proc p = k.proc p := by
  rw [h.setup]
  exact update_of_ne h.ne ..

theorem child₀ : k₀.proc np = { k.proc np with
    pid := k.nextpid, state := .used, trapframe := some tf, pagetable := pt₀ } := by
  rw [h.setup]
  exact update_self ..

theorem others₁ (hq : q ≠ np) : k₁.proc q = k.proc q := by
  obtain ⟨files, dir, mem, hk₁⟩ := forkFields_eq_ok h.ne h.fields
  rw [hk₁, h.setup]
  simp [Kernel.setProc, Kernel.setVm, update_of_ne hq]

theorem child₁ : ∃ files dir, k₁.proc np = { k.proc np with
    pid := k.nextpid, state := .used, trapframe := some tf, sz := (k.proc p).sz
    curMax := (k.proc p).curMax, ofile := files, cwd := dir, mmr := (k.proc p).mmr
    pagetable := vm.1 } := by
  obtain ⟨files, dir, mem, hk₁⟩ := forkFields_eq_ok h.ne h.fields
  rw [hk₁, ← h.parent₀]
  simp [Kernel.setProc, Kernel.setVm, update_of_ne h.ne, h.child₀]

theorem freelist₁ : k₁.phys.freelist = vm.2.freelist := by
  obtain ⟨files, dir, mem, hk₁⟩ := forkFields_eq_ok h.ne h.fields
  rw [hk₁]
  rfl

theorem free_of_free₀ {f : Nat} (hf : f ∈ k₀.phys.freelist) : f ∈ k.phys.freelist := by
  have hcount := ((procPagetable_eq_ok h.table).2 h.null).1 f
  have hpos := count_pos_iff.2 hf
  rw [kalloc_eq_some h.kalloc]
  exact mem_cons_of_mem _ (count_pos_iff.1 (by omega))

theorem regions_mmr : (k₁.proc np).mmr = (k₁.proc p).mmr := by
  obtain ⟨files, dir, hchild⟩ := h.child₁
  rw [hchild, h.others₁ h.ne]

theorem forked (hram : ∀ f ∈ k.phys.freelist, RamPage f)
    (haddr : ∀ i, ((k.proc p).mmr i).addr % pgsize = 0) :
    r = k.nextpid ∧ Forked k k' p np := by
  obtain ⟨files, dir, hchild₁⟩ := h.child₁
  have hp₁ := h.others₁ h.ne
  obtain ⟨vm', hk₂, hfill⟩ := forkRegions_eq_ok h.ne h.regions_mmr h.regions
  have hr := h.pid
  rw [hk₂, shareRegions_child k₁ h.ne, hchild₁] at hr
  have hk' := h.last
  rw [hk₂] at hk'
  refine ⟨hr, ?_⟩
  have hrest : k'.mmrList = k.mmrList ∧ k'.initproc = k.initproc ∧ k'.origins = k.origins := by
    obtain ⟨_, _, mem, hk₁⟩ := forkFields_eq_ok h.ne h.fields
    rw [hk', hk₁, h.setup]
    exact ⟨rfl, rfl, rfl⟩
  have hram₀ : ∀ f ∈ k₀.phys.freelist, RamPage f := fun f hf => hram f (h.free_of_free₀ hf)
  have hheap := (uvmcopy_heap_eq_ok hram₀ h.heap).1 rfl
  rw [h.parent₀, h.child₀] at hheap
  have hchild' : k'.proc np = { k₁.proc np with
      pagetable := vm'.1, parent := some p, state := .runnable
      mmr := fun i => if i < maxMmr then ((k.proc p).mmr i).inherited p np i
        else (k.proc p).mmr i } := by
    rw [hk', shareRegions_child k₁ h.ne, hp₁, hchild₁]
    simp
  have hphys : k'.phys = vm'.2 := by
    rw [hk']
    rfl
  refine
    { slot := h.slot
      others := fun q hq hqn => ?_
      parent := ?_
      state := by rw [hchild']
      sz := by rw [hchild', hchild₁]
      curMax := by rw [hchild', hchild₁]
      mmr := fun i => by rw [hchild']
      mmrList := hrest.1
      initproc := hrest.2.1
      origins := hrest.2.2
      heap := hheap.2
      table := ⟨tf, ph, pt₀, k₀.phys, h.kalloc, by rw [hchild', hchild₁], h.table, h.null, ?_⟩ }
  · rw [hk', proc_setProc_of_ne _ hqn, shareRegions_of_ne _ hq hqn, h.others₁ hqn]
  · rw [hk', proc_setProc_of_ne _ h.ne, shareRegions_parent, hp₁]
  · have hstart := hheap.1.of_freelist h.freelist₁
    have hend := hfill pt₀ k₀.phys _ [] hram₀ (by rwa [hp₁]) (by rwa [hp₁, hchild₁])
    rw [hp₁, nil_append] at hend
    rw [hchild', hphys]
    exact hend

end ForkStages

theorem fork_eq_ok (hlive : (k.proc p).state ≠ .unused) (hram : ∀ f ∈ k.phys.freelist, RamPage f)
    (haddr : ∀ i, ((k.proc p).mmr i).addr % pgsize = 0) (h : fork k p = .ok (r, k')) :
    (r = -1 ∧ (k' = k ∨ ∃ c x, freeSlot k = some c ∧ k.Apart c k' ∧ Proc.Cleared x (k'.proc c) ∧
      ((∀ i, ((k.proc c).mmr i).SameRegion (x.mmr i)) ∧ x.curMax = (k.proc c).curMax ∨
        (∀ i, ((k.proc p).mmr i).SameRegion (x.mmr i)) ∧ x.curMax = (k.proc p).curMax))) ∨
      ∃ np, r = k.nextpid ∧ Forked k k' p np := by
  obtain ⟨⟨slot, k₀⟩, halloc, h⟩ := bind_eq_ok.1 h
  obtain ⟨hnone, hsome⟩ := allocproc_eq_ok halloc
  cases slot with
  | none =>
    cases h
    obtain ⟨c, ⟨-, hk⟩ | ⟨hslot, hclear⟩, hapart⟩ := hnone rfl
    · exact .inl ⟨rfl, .inl hk⟩
    · exact .inl ⟨rfl, .inr ⟨c, _, hslot, hapart, hclear, .inl ⟨fun _ => rfl, rfl⟩⟩⟩
  | some np =>
    obtain ⟨hslot, tf, ph, pt₀, hkalloc, hpt, hnull, hk₀⟩ := hsome np rfl
    have hne : p ≠ np := fun he => hlive (he ▸ (freeSlot_eq_some hslot).2)
    have hapart₀ : k.Apart np k₀ := by
      rw [hk₀]
      exact apart_setProc rfl rfl rfl
    have hproc₀ : k₀.proc p = k.proc p := by
      rw [hk₀]
      exact update_of_ne hne ..
    have hchild₀ : k₀.proc np = { k.proc np with
        pid := k.nextpid, state := .used, trapframe := some tf, pagetable := pt₀ } := by
      rw [hk₀]
      exact update_self ..
    rcases forkInto_eq_ok hne h with ⟨hr, hapart, x, hclear, hx⟩ |
      ⟨vm, k₁, k₂, hcopy, hfields, hregions, hr, hk'⟩
    · rw [hproc₀, hchild₀] at hx
      exact .inl ⟨hr, .inr ⟨np, x, hslot, hapart₀.trans hapart, hclear, hx⟩⟩
    · have hs : ForkStages k k' p np r tf ph pt₀ vm k₀ k₁ k₂ :=
        ⟨hslot, hne, hkalloc, hpt, hnull, hk₀, hcopy, hfields, hregions, hr, hk'⟩
      exact .inr ⟨np, hs.forked hram haddr⟩

end Xv6
