/-
What the functions of `proc.c` and `sysfile.c` do when they return: to the table of the process
they work on, to the processes they do not name, and to the free list.
-/
import Xv6.Proc.Machine
import Xv6.Vm.Free

namespace Xv6

open Function Kernel PageTable List Option
open Run (bind_eq_ok)

variable {doFree : Bool} {n v : Nat} {pt pt' : PageTable} {ph ph' : Phys} {a b : Proc}

/-! ## Fields after an update -/

namespace Kernel

variable (k : Kernel) (p q i j : Nat)

@[simp] theorem proc_setProc_self (x : Proc) : (k.setProc p x).proc p = x :=
  update_self ..

theorem proc_setProc_of_ne {p q : Nat} (h : q ≠ p) (x : Proc) :
    (k.setProc p x).proc q = k.proc q := update_of_ne h ..

@[simp] theorem phys_setProc (x : Proc) : (k.setProc p x).phys = k.phys := rfl
@[simp] theorem proc_setVm_self (r : PageTable × Phys) :
    (k.setVm p r).proc p = { k.proc p with pagetable := r.1 } := update_self ..

theorem proc_setVm_of_ne {p q : Nat} (h : q ≠ p) (r : PageTable × Phys) :
    (k.setVm p r).proc q = k.proc q := update_of_ne h ..

@[simp] theorem phys_setVm (r : PageTable × Phys) : (k.setVm p r).phys = r.2 := rfl
theorem setMmr_eq_self : k.setMmr p i ((k.proc p).mmr i) = k := by
  simp [setMmr, setProc]

theorem setVm_eq_self :
    k.setVm p ((k.proc p).pagetable, k.phys) = k := by
  simp [setVm, setProc]

theorem setVm_setVm (r r' : PageTable × Phys) : (k.setVm p r).setVm p r' = k.setVm p r' := by
  simp [setVm, setProc]

theorem setNode_eq_self (n : NodePtr) : k.setNode n (k.node n) = k := k.setMmr_eq_self n.proc n.idx

end Kernel

/-- The kernel after `p` got a new size, table and physical memory. -/
def Kernel.resize (k : Kernel) (p sz : Nat) (vm : PageTable × Phys) : Kernel :=
  { k.setProc p { k.proc p with pagetable := vm.1, sz := sz } with phys := vm.2 }

/-! ## Pages a process can use -/

/-- The pages for which `walkaddr` returns an address, with their entries. -/
def PageTable.user (pt : PageTable) (v : Nat) : Option Nat :=
  if v < maxvpn then (pt.leaf v).filter fun w => has w pteU && pte2pa w != 0 else none

namespace PageTable

theorem user_eq_some {w : Nat} : pt.user v = some w ↔
      v < maxvpn ∧ pt.leaf v = some w ∧ has w pteU = true ∧ pte2pa w ≠ 0 := by
  unfold user
  split
  · rename_i h
    simp [h]
  · rename_i h
    simp [h]

theorem user_congr (h : pt'.leaf v = pt.leaf v) : pt'.user v = pt.user v := by
  unfold user
  rw [h]

theorem entry_of_user {w : Nat} (h : pt.user v = some w) : pt.entry v = w :=
  (leaf_eq_some.1 (user_eq_some.1 h).2.1).1

def touched (pt : PageTable) (vs : List Nat) : List Nat := vs.filter fun v => (pt.user v).isSome

theorem mem_touched {vs : List Nat} : v ∈ pt.touched vs ↔ v ∈ vs ∧ ∃ w, pt.user v = some w := by
  simp [touched, isSome_iff_exists]

theorem touched_congr {vs : List Nat} (h : ∀ v ∈ vs, pt'.user v = pt.user v) :
    pt'.touched vs = pt.touched vs :=
  filter_congr fun v hv => by rw [h v hv]

end PageTable

theorem walkaddr_eq_ok {pa : Nat} (h : walkaddr pt (v * pgsize) = .ok pa) :
    (pa ≠ 0 → pt.user v = some (pt.entry v)) ∧ (pa = 0 → pt.user v = none) := by
  have hvpn := vpn_mul v
  have hlt : v * pgsize < maxva ↔ v < maxvpn := by
    rw [← maxvpn_mul]
    exact Nat.mul_lt_mul_right (by decide)
  unfold walkaddr at h
  rw [pte_eq, hvpn] at h
  by_cases hge : v * pgsize ≥ maxva
  · rw [if_pos hge] at h
    cases h
    refine ⟨fun h0 => absurd rfl h0, fun _ => ?_⟩
    rw [PageTable.user, if_neg (by omega)]
  have hv : v < maxvpn := hlt.1 (by omega)
  rw [if_neg hge] at h
  have hnone : has (pt.entry v) pteV = false → pt.user v = none := by
    intro hn
    rw [PageTable.user, if_pos hv, leaf_eq_none.2 hn, filter_none]
  split at h
  · cases h
  split at h
  · rename_i hr
    cases h
    refine ⟨fun h0 => absurd rfl h0, fun _ => hnone ?_⟩
    by_contra hv
    rw [Bool.not_eq_false] at hv
    have hp : has (pt.pte (v * pgsize)) pteV = true := by rwa [pte_eq, hvpn]
    simp [reaches_of_has hp] at hr
  split at h
  · rename_i hr
    cases h
    exact ⟨fun h0 => absurd rfl h0, fun _ => hnone (by simpa using hr)⟩
  rename_i hV
  have hleaf : pt.leaf v = some (pt.entry v) :=
    leaf_eq_some.2 ⟨rfl, by simpa using hV⟩
  split at h
  · rename_i hU
    cases h
    refine ⟨fun h0 => absurd rfl h0, fun _ => ?_⟩
    rw [PageTable.user, if_pos hv, hleaf, filter_some, if_neg (by simp_all)]
  · rename_i hU
    cases h
    refine ⟨fun h0 => user_eq_some.2 ⟨hv, hleaf, by simpa using hU, h0⟩, fun h0 => ?_⟩
    rw [PageTable.user, if_pos hv, hleaf, filter_some, if_neg (by simp [h0])]

theorem unmapLoop_eq_ok (h : unmapLoop doFree n (v * pgsize) pt ph = .ok (pt', ph')) :
    Acct pt ph pt' ph' [] (if doFree then pt.frames (pt.touched (List.range' v n)) else []) ∧
      (doFree = true → ∀ u ∈ pt.touched (List.range' v n), RamPage (pte2pa (pt.entry u))) ∧
      ∀ u < nvpn, pt'.leaf u =
        if u ∈ pt.touched (List.range' v n) then none else pt.leaf u := by
  induction n generalizing v pt ph with
  | zero =>
    cases h
    simpa [PageTable.touched, PageTable.frames] using Acct.refl _ _
  | succ n ih =>
    have hnext : v * pgsize + pgsize = (v + 1) * pgsize := by rw [Nat.succ_mul]
    obtain ⟨pa, hwalk, h⟩ := bind_eq_ok.1 h
    obtain ⟨hsome, hnone⟩ := walkaddr_eq_ok hwalk
    rw [List.range'_succ]
    by_cases h0 : pa ≠ 0
    · have huser := hsome h0
      have hv := (user_eq_some.1 huser).1
      rw [if_pos h0] at h
      obtain ⟨⟨pt₁, ph₁⟩, hun, h⟩ := bind_eq_ok.1 h
      have hroom : v * pgsize + 1 * pgsize < 2 ^ 64 := by
        have hlt := (Nat.mul_lt_mul_right (show 0 < pgsize by decide)).2 hv
        rw [maxvpn_mul] at hlt
        have hmax := maxva_room
        omega
      obtain ⟨hacct₁, hpage₁, hleaf₁⟩ := uvmunmap_eq_ok hroom hun
      rw [hnext] at h
      obtain ⟨hacct, hram, hleaf⟩ := ih h
      -- the pages after `v` are as they were
      have hafter : ∀ u ∈ List.range' (v + 1) n, pt₁.user u = pt.user u := by
        intro u hu
        rw [mem_range'] at hu
        by_cases hun : u < nvpn
        · exact user_congr (by rw [hleaf₁ u hun, if_neg (by omega)])
        · have hbig : ¬ u < maxvpn := fun h => hun (lt_nvpn h)
          rw [PageTable.user, PageTable.user, if_neg hbig, if_neg hbig]
      have htouched := touched_congr hafter
      have hframes : pt₁.frames (pt.touched (List.range' (v + 1) n)) =
          pt.frames (pt.touched (List.range' (v + 1) n)) := by
        apply frames_congr
        intro u hu
        obtain ⟨hmem, w, hw⟩ := mem_touched.1 hu
        rw [entry_of_user hw, entry_of_user ((hafter u hmem).trans hw)]
      have hcons : pt.touched (v :: List.range' (v + 1) n) =
          v :: pt.touched (List.range' (v + 1) n) := by
        rw [PageTable.touched, filter_cons_of_pos (by simp [huser]), PageTable.touched]
      rw [htouched] at hacct hram hleaf
      rw [hcons]
      refine ⟨?_, fun hd u hu => ?_, fun u hu => ?_⟩
      · refine (hacct₁.trans hacct).congr (fun f => rfl) (fun f => ?_)
        cases doFree with
        | false => rfl
        | true =>
          rw [hframes]
          simp [PageTable.frames]
      · rcases mem_cons.1 hu with rfl | hu
        · obtain ⟨-, w, hw, -, hr⟩ := hpage₁ u le_rfl (by omega)
          rw [(leaf_eq_some.1 hw).1]
          exact hr hd
        · obtain ⟨hmem, w, hw⟩ := mem_touched.1 hu
          have := hram hd u hu
          rwa [entry_of_user ((hafter u hmem).trans hw),
            ← entry_of_user hw] at this
      · rw [hleaf u hu, hleaf₁ u hu]
        by_cases huv : u = v
        · rw [if_pos (by simp [huv] : u ∈ v :: _)]
          split
          · rfl
          · rw [if_pos (by omega)]
        · rw [if_neg (by omega : ¬ (v ≤ u ∧ u < v + 1))]
          simp only [mem_cons, huv, false_or]
    · have huser := hnone (not_not.1 h0)
      rw [if_neg h0, hnext] at h
      have hcons : pt.touched (v :: List.range' (v + 1) n) =
          pt.touched (List.range' (v + 1) n) := by
        rw [PageTable.touched, filter_cons_of_neg (by simp [huser]), PageTable.touched]
      rw [hcons]
      exact ih h

/-- The loop of `fork` over a region, when it gets to its end: what the copy of one usable page
keeps, for the pages handed on so far, holds after it. -/
theorem copyRegionLoop_induction {shared : Bool} {old new new' : PageTable} (done : List Nat)
    (I : List Nat → PageTable → Phys → Prop)
    (hstep : ∀ u done new ph new' ph', old.user u = some (old.entry u) →
      copyPage shared old new ph (u * pgsize) = .ok (true, new', ph') → I done new ph →
      I (done ++ [u]) new' ph') (hinit : I done new ph)
    (h : copyRegionLoop shared old n (v * pgsize) new ph = .ok (true, new', ph')) :
    I (done ++ old.touched (List.range' v n)) new' ph' := by
  induction n generalizing v new ph done with
  | zero =>
    cases h
    simpa [PageTable.touched] using hinit
  | succ n ih =>
    have hnext : v * pgsize + pgsize = (v + 1) * pgsize := by rw [Nat.succ_mul]
    obtain ⟨pa, hwalk, h⟩ := bind_eq_ok.1 h
    obtain ⟨hsome, hnone⟩ := walkaddr_eq_ok hwalk
    rw [List.range'_succ]
    by_cases h0 : pa ≠ 0
    · have huser := hsome h0
      rw [if_pos h0] at h
      obtain ⟨⟨ok, new₁, ph₁⟩, hcopy, h⟩ := bind_eq_ok.1 h
      have hcons : old.touched (v :: List.range' (v + 1) n) =
          [v] ++ old.touched (List.range' (v + 1) n) := by
        rw [PageTable.touched, filter_cons_of_pos (by simp [huser])]
        rfl
      cases ok with
      | false => cases h
      | true =>
        rw [hnext] at h
        rw [hcons, ← append_assoc]
        exact ih _ (hstep v done new ph new₁ ph₁ huser hcopy hinit) h
    · have huser := hnone (not_not.1 h0)
      rw [if_neg h0, hnext] at h
      have hcons : old.touched (v :: List.range' (v + 1) n) =
          old.touched (List.range' (v + 1) n) := by
        rw [PageTable.touched, filter_cons_of_neg (by simp [huser]), PageTable.touched]
      rw [hcons]
      exact ih done hinit h

theorem copyRegionLoop_eq_ok {shared : Bool} {old new₀ new new' : PageTable} {ph₀ : Phys}
    {fresh lent : List Nat} (hf : Filled new₀ ph₀ fresh (copyPerm old) lent (lentWord old) new ph)
    (hram : ∀ f ∈ ph₀.freelist, RamPage f)
    (h : copyRegionLoop shared old n (v * pgsize) new ph = .ok (true, new', ph')) :
    Filled new₀ ph₀ (fresh ++ if shared then [] else old.touched (List.range' v n)) (copyPerm old)
      (lent ++ if shared then old.touched (List.range' v n) else []) (lentWord old) new' ph' := by
  cases shared with
  | false =>
    rw [if_neg (by decide), if_neg (by decide), append_nil]
    refine copyRegionLoop_induction fresh
      (fun done new ph => Filled new₀ ph₀ done (copyPerm old) lent (lentWord old) new ph)
      (fun u done new ph new' ph' _ hcopy hf => ?_) hf h
    exact uvmcopy_page_eq_ok hf hram hcopy
  | true =>
    rw [if_pos rfl, append_nil]
    refine copyRegionLoop_induction lent
      (fun done new ph => Filled new₀ ph₀ fresh (copyPerm old) done (lentWord old) new ph)
      (fun u done new ph new' ph' _ hcopy hf => ?_) hf h
    obtain ⟨hv, hacct, hold, hleaf⟩ := uvmcopyshared_page_eq_ok hcopy
    exact hf.stepLent hv hacct hold hleaf

theorem copyoutLoop_eq_ok {va : Nat} {src : List UInt8} {ok : Bool}
    (h : copyoutLoop pt n va src ph = .ok (ok, ph')) : ph'.freelist = ph.freelist := by
  induction n generalizing va src ph with
  | zero => cases h; rfl
  | succ n ih =>
    unfold copyoutLoop at h
    split at h
    · cases h; rfl
    · obtain ⟨pa, -, h⟩ := bind_eq_ok.1 h
      split at h
      · cases h; rfl
      · obtain ⟨-, -, h⟩ := bind_eq_ok.1 h
        exact (ih h).trans rfl

theorem copyout_eq_ok {va : Nat} {src : List UInt8} {ok : Bool}
    (h : copyout pt ph va src = .ok (ok, ph')) : ph'.freelist = ph.freelist :=
  copyoutLoop_eq_ok h

/-! ## Families -/

/-- The region is the same up to its links. -/
def Mmr.SameRegion (r r' : Mmr) : Prop := r' = { r with family := r'.family }

/-- The process is the same up to the links of its regions. -/
structure Proc.SameButLinks (a b : Proc) : Prop where
  fields : b = { a with mmr := b.mmr }
  regions : ∀ i, (a.mmr i).SameRegion (b.mmr i)

/-- Only links of regions and valid bits of `mmr_list` have changed. -/
structure Kernel.Relinked (k k' : Kernel) : Prop where
  procs : ∀ q, (k.proc q).SameButLinks (k'.proc q)
  phys : k'.phys = k.phys
  fileRef : k'.fileRef = k.fileRef
  inodeRef : k'.inodeRef = k.inodeRef
  nextpid : k'.nextpid = k.nextpid
  initproc : k'.initproc = k.initproc
  origins : k'.origins = k.origins

theorem Proc.SameButLinks.refl (a : Proc) : a.SameButLinks a := ⟨rfl, fun _ => rfl⟩

theorem Mmr.SameRegion.trans {a b c : Mmr} (h : a.SameRegion b) (h' : b.SameRegion c) :
    a.SameRegion c := by
  unfold SameRegion at *
  rw [h', h]

theorem Mmr.SameRegion.symm {a b : Mmr} (h : a.SameRegion b) : b.SameRegion a := by
  unfold SameRegion at *
  rw [h]

theorem Proc.SameButLinks.trans {c : Proc} (h : a.SameButLinks b) (h' : b.SameButLinks c) :
    a.SameButLinks c := by
  refine ⟨?_, fun i => (h.regions i).trans (h'.regions i)⟩
  rw [h'.fields, h.fields]

namespace Kernel

theorem Relinked.refl (k : Kernel) : k.Relinked k :=
  ⟨fun _ => .refl _, rfl, rfl, rfl, rfl, rfl, rfl⟩

theorem Relinked.trans {a b c : Kernel} (h : a.Relinked b) (h' : b.Relinked c) : a.Relinked c :=
  ⟨fun q => (h.procs q).trans (h'.procs q), h'.phys.trans h.phys, h'.fileRef.trans h.fileRef,
    h'.inodeRef.trans h.inodeRef, h'.nextpid.trans h.nextpid, h'.initproc.trans h.initproc,
    h'.origins.trans h.origins⟩

theorem relinked_setNode (k : Kernel) (n : NodePtr) (v : MmrNode) : k.Relinked (k.setNode n v) := by
  refine ⟨fun q => ?_, rfl, rfl, rfl, rfl, rfl, rfl⟩
  by_cases hq : q = n.proc
  · subst hq
    refine ⟨by rw [setNode, setMmr, proc_setProc_self], fun i => ?_⟩
    rw [setNode, setMmr, proc_setProc_self]
    by_cases hi : i = n.idx
    · rw [hi, Mmr.SameRegion]
      simp only [update_self]
    · simp only [update_of_ne hi]
      rfl
  · rw [setNode, setMmr, proc_setProc_of_ne _ hq]
    exact .refl _

theorem relinked_mmrList (k : Kernel) (l : Nat → Bool) : k.Relinked { k with mmrList := l } :=
  ⟨fun _ => .refl _, rfl, rfl, rfl, rfl, rfl, rfl⟩

end Kernel

theorem deallocMmrListid_eq_ok {k k' : Kernel} {id : Int} (h : deallocMmrListid k id = .ok k') :
    inMmrList id ∧ k' = { k with mmrList := update k.mmrList id.toNat false } := by
  unfold deallocMmrListid at h
  split at h
  · cases h
    exact ⟨by assumption, rfl⟩
  · cases h

theorem leaveFamily_eq_ok {k k' : Kernel} {p i : Nat} {alone : Bool}
    (h : leaveFamily k p i = .ok (alone, k')) :
    (alone = true ∧ (k.node ⟨p, i⟩).next = some ⟨p, i⟩ ∧
      k' = { k with mmrList := update k.mmrList (k.node ⟨p, i⟩).listid.toNat false }) ∨
    (alone = false ∧ (k.node ⟨p, i⟩).next ≠ some ⟨p, i⟩ ∧
      ∃ n m k₁, (k.node ⟨p, i⟩).next = some n ∧
        k₁ = k.setNode n { k.node n with prev := (k.node ⟨p, i⟩).prev } ∧
        (k₁.node ⟨p, i⟩).prev = some m ∧
        k' = k₁.setNode m { k₁.node m with next := (k₁.node ⟨p, i⟩).next }) := by
  unfold leaveFamily at h
  dsimp only at h
  by_cases hself : (k.node ⟨p, i⟩).next = some ⟨p, i⟩
  · rw [if_pos hself] at h
    obtain ⟨k₁, hde, h⟩ := bind_eq_ok.1 h
    cases h
    exact .inl ⟨rfl, hself, (deallocMmrListid_eq_ok hde).2⟩
  · rw [if_neg hself] at h
    split at h
    · cases h
    · rename_i n hn
      split at h
      · cases h
      · rename_i m hm
        cases h
        exact .inr ⟨rfl, hself, n, m, _, hn, rfl, hm, rfl⟩

theorem relinked_leaveFamily {k k' : Kernel} {p i : Nat} {alone : Bool}
    (h : leaveFamily k p i = .ok (alone, k')) : k.Relinked k' := by
  rcases leaveFamily_eq_ok h with ⟨-, -, rfl⟩ | ⟨-, -, n, m, k₁, -, rfl, -, rfl⟩
  · exact k.relinked_mmrList _
  · exact (k.relinked_setNode _ _).trans (relinked_setNode _ _ _)

theorem relinked_releaseRegion {k k' : Kernel} {p i : Nat}
    (h : releaseRegion k p i = .ok (doFree, k')) : k.Relinked k' := by
  unfold releaseRegion at h
  dsimp only at h
  split at h
  · cases h; exact .refl k
  · split at h
    · exact relinked_leaveFamily h
    · cases h

theorem relinked_dropRegion {k k' : Kernel} {p i : Nat} (h : dropRegion k p i = .ok (doFree, k')) :
    k.Relinked k' := by
  unfold dropRegion at h
  dsimp only at h
  split at h
  · cases h; exact .refl k
  · split at h
    · exact relinked_leaveFamily h
    · cases h

/-! ## What happens to the address spaces of the other processes -/

/-- The address space is the same, up to the links of its regions. -/
structure Proc.SameSpace (a b : Proc) : Prop where
  live : b.state = .unused ↔ a.state = .unused
  sz : b.sz = a.sz
  table : b.pagetable = a.pagetable
  trapframe : b.trapframe = a.trapframe
  curMax : b.curMax = a.curMax
  regions : ∀ i, (a.mmr i).SameRegion (b.mmr i)

theorem Proc.SameSpace.refl (a : Proc) : a.SameSpace a :=
  ⟨Iff.rfl, rfl, rfl, rfl, rfl, fun _ => rfl⟩

theorem Proc.SameSpace.trans {c : Proc} (h : a.SameSpace b) (h' : b.SameSpace c) : a.SameSpace c :=
  ⟨h'.live.trans h.live, h'.sz.trans h.sz, h'.table.trans h.table,
    h'.trapframe.trans h.trapframe, h'.curMax.trans h.curMax,
    fun i => (h.regions i).trans (h'.regions i)⟩

theorem Proc.SameButLinks.sameSpace (h : a.SameButLinks b) : a.SameSpace b := by
  rw [h.fields]
  exact ⟨Iff.rfl, rfl, rfl, rfl, rfl, h.regions⟩

/-- Only the address space of `c` has changed. -/
structure Kernel.Apart (c : Nat) (k k' : Kernel) : Prop where
  others : ∀ q, q ≠ c → (k.proc q).SameSpace (k'.proc q)
  initproc : k'.initproc = k.initproc
  origins : k'.origins = k.origins

namespace Kernel

theorem Apart.refl (c : Nat) (k : Kernel) : Apart c k k := ⟨fun _ _ => .refl _, rfl, rfl⟩

theorem Apart.trans {c : Nat} {k k' k'' : Kernel} (h : Apart c k k') (h' : Apart c k' k'') :
    Apart c k k'' :=
  ⟨fun q hq => (h.others q hq).trans (h'.others q hq), h'.initproc.trans h.initproc,
    h'.origins.trans h.origins⟩

theorem Relinked.apart {k k' : Kernel} (h : k.Relinked k') (c : Nat) : Apart c k k' :=
  ⟨fun q _ => (h.procs q).sameSpace, h.initproc, h.origins⟩

theorem apart_setProc {k k' : Kernel} {c : Nat} {x : Proc} (hp : k'.proc = (k.setProc c x).proc)
    (hi : k'.initproc = k.initproc) (ho : k'.origins = k.origins) : Apart c k k' := by
  refine ⟨fun q hq => ?_, hi, ho⟩
  rw [hp, proc_setProc_of_ne _ hq]
  exact .refl _

theorem apart_setVm (k : Kernel) (c : Nat) (vm : PageTable × Phys) : Apart c k (k.setVm c vm) :=
  apart_setProc rfl rfl rfl

end Kernel

/-! ## freeproc and allocproc -/

theorem freeTrapframe_eq_ok {k k' : Kernel} {p : Nat} (h : freeTrapframe k p = .ok k') :
    k' = { k.setProc p { k.proc p with trapframe := none } with phys := k'.phys } ∧
      ∀ f, k'.phys.freelist.count f =
        k.phys.freelist.count f + (k.proc p).trapframe.toList.count f := by
  unfold freeTrapframe at h
  split at h
  · rename_i htf
    cases h
    refine ⟨?_, fun f => by simp [htf]⟩
    have hself : { k.proc p with trapframe := none } = k.proc p := by rw [← htf]
    rw [hself, Kernel.setProc, update_eq_self]
  · rename_i tf htf
    obtain ⟨ph, hfree, h⟩ := bind_eq_ok.1 h
    cases h
    rw [(kfree_eq_ok hfree).2, htf]
    simp [count_cons]

/-- Besides links, valid bits and physical memory only the page table of `p` has changed. -/
structure Kernel.Pruned (p : Nat) (k k' : Kernel) : Prop where
  others : ∀ q, q ≠ p → (k.proc q).SameButLinks (k'.proc q)
  self : { k.proc p with pagetable := (k'.proc p).pagetable }.SameButLinks (k'.proc p)
  fileRef : k'.fileRef = k.fileRef
  inodeRef : k'.inodeRef = k.inodeRef
  nextpid : k'.nextpid = k.nextpid
  initproc : k'.initproc = k.initproc
  origins : k'.origins = k.origins

namespace Kernel

theorem Pruned.refl (p : Nat) (k : Kernel) : Pruned p k k :=
  ⟨fun _ _ => .refl _, .refl _, rfl, rfl, rfl, rfl, rfl⟩

theorem Pruned.trans {p : Nat} {k k' k'' : Kernel} (h : Pruned p k k') (h' : Pruned p k' k'') :
    Pruned p k k'' := by
  refine ⟨fun q hq => (h.others q hq).trans (h'.others q hq), ⟨?_, ?_⟩,
    h'.fileRef.trans h.fileRef, h'.inodeRef.trans h.inodeRef, h'.nextpid.trans h.nextpid,
    h'.initproc.trans h.initproc, h'.origins.trans h.origins⟩
  · rw [h'.self.fields, h.self.fields]
  · exact fun i => (h.self.regions i).trans (h'.self.regions i)

theorem Pruned.apart {p : Nat} {k k' : Kernel} (h : Pruned p k k') : Apart p k k' :=
  ⟨fun q hq => (h.others q hq).sameSpace, h.initproc, h.origins⟩

theorem Relinked.pruned {k k' : Kernel} (h : k.Relinked k') (p : Nat) : Pruned p k k' := by
  refine ⟨fun q _ => h.procs q, ⟨?_, (h.procs p).regions⟩, h.fileRef, h.inodeRef, h.nextpid,
    h.initproc, h.origins⟩
  rw [(h.procs p).fields]

theorem pruned_setVm (k : Kernel) (p : Nat) (vm : PageTable × Phys) :
    Pruned p k (k.setVm p vm) := by
  refine ⟨fun q hq => ?_, ?_, rfl, rfl, rfl, rfl, rfl⟩
  · rw [proc_setVm_of_ne _ hq]
    exact .refl _
  · rw [proc_setVm_self]
    exact .refl _

end Kernel

def Mmr.pages (r : Mmr) : List Nat := List.range' (vpn r.addr) (pageCount r.addr r.stop)

theorem Mmr.SameRegion.pages {r r' : Mmr} (h : r.SameRegion r') : r'.pages = r.pages := by
  rw [h]
  rfl

theorem freeRegion_eq_ok {k k' : Kernel} {p i : Nat} (h : freeRegion k p i = .ok k') :
    (((k.proc p).mmr i).valid = false ∧ k' = k) ∨
      (((k.proc p).mmr i).valid = true ∧ ∃ doFree k₁ vm, releaseRegion k p i = .ok (doFree, k₁) ∧
        unmapLoop doFree (pageCount ((k.proc p).mmr i).addr ((k.proc p).mmr i).stop)
          ((k.proc p).mmr i).addr (k.proc p).pagetable k.phys = .ok vm ∧ k' = k₁.setVm p vm) := by
  unfold freeRegion at h
  dsimp only at h
  split at h
  · rename_i hv
    obtain ⟨⟨doFree, k₁⟩, hrel, h⟩ := bind_eq_ok.1 h
    obtain ⟨vm, hun, h⟩ := bind_eq_ok.1 h
    cases h
    have hre := relinked_releaseRegion hrel
    have htable : (k₁.proc p).pagetable = (k.proc p).pagetable := by rw [(hre.procs p).fields]
    rw [htable, hre.phys] at hun
    exact .inr ⟨hv, doFree, k₁, vm, hrel, hun, rfl⟩
  · rename_i hv
    cases h
    exact .inl ⟨by simpa using hv, rfl⟩

theorem pruned_freeRegion {k k' : Kernel} {p i : Nat} (h : freeRegion k p i = .ok k') :
    k.Pruned p k' := by
  rcases freeRegion_eq_ok h with ⟨-, rfl⟩ | ⟨-, doFree, k₁, vm, hrel, -, rfl⟩
  · exact .refl p _
  · exact ((relinked_releaseRegion hrel).pruned p).trans (k₁.pruned_setVm p vm)

theorem pruned_freeRegions {k k' : Kernel} {p : Nat} (h : freeRegions k p n = .ok k') :
    k.Pruned p k' := by
  induction n generalizing k' with
  | zero => cases h; exact .refl p k
  | succ n ih =>
    obtain ⟨k₁, hfirst, h⟩ := bind_eq_ok.1 h
    exact (ih hfirst).trans (pruned_freeRegion h)

theorem freeproc_eq_ok {k k' : Kernel} {p : Nat} (h : freeproc k p = .ok k') :
    ∃ k₁ k₂ ph, freeTrapframe k p = .ok k₁ ∧ freeRegions k₁ p maxMmr = .ok k₂ ∧
      freeTable k₂ p = .ok ph ∧
      k' = { k₂.setProc p { k₂.proc p with
        pagetable := .absent, sz := 0, pid := 0, parent := none, killed := false, xstate := 0,
        state := .unused } with phys := ph } := by
  obtain ⟨k₁, htf, h⟩ := bind_eq_ok.1 h
  obtain ⟨k₂, hreg, h⟩ := bind_eq_ok.1 h
  obtain ⟨ph, htab, h⟩ := bind_eq_ok.1 h
  cases h
  exact ⟨k₁, k₂, ph, htf, hreg, htab, rfl⟩

/-- The slot `y` is what `freeproc` leaves of the process `x`: its regions are still there. -/
structure Proc.Cleared (x y : Proc) : Prop where
  state : y.state = .unused
  table : y.pagetable = .absent
  trapframe : y.trapframe = none
  sz : y.sz = 0
  curMax : y.curMax = x.curMax
  regions : ∀ i, (x.mmr i).SameRegion (y.mmr i)

theorem Proc.Cleared.of_eq {x x' y : Proc} (h : x.Cleared y) (hm : x'.mmr = x.mmr)
    (hc : x'.curMax = x.curMax) : x'.Cleared y :=
  { h with curMax := h.curMax.trans hc.symm, regions := fun i => by rw [hm]; exact h.regions i }

theorem freeproc_cleared {k k' : Kernel} {p : Nat} (h : freeproc k p = .ok k') :
    k.Apart p k' ∧ (k.proc p).Cleared (k'.proc p) := by
  obtain ⟨k₁, k₂, ph, htf, hreg, -, rfl⟩ := freeproc_eq_ok h
  obtain ⟨hk₁, -⟩ := freeTrapframe_eq_ok htf
  have h₁ : k.Apart p k₁ := by
    rw [hk₁]
    exact apart_setProc rfl rfl rfl
  have hp₁ : k₁.proc p = { k.proc p with trapframe := none } := by
    rw [hk₁]
    simp
  have h₂ := pruned_freeRegions hreg
  have hsame := h₂.self.regions
  have hfields := h₂.self.fields
  rw [hp₁] at hsame hfields
  refine ⟨(h₁.trans h₂.apart).trans (apart_setProc rfl rfl rfl), ?_⟩
  simp only [proc_setProc_self]
  exact ⟨rfl, rfl, by rw [hfields], rfl, by rw [hfields], hsame⟩

theorem freeSlot_eq_some {k : Kernel} {p : Nat} (h : freeSlot k = some p) :
    p < nproc ∧ (k.proc p).state = .unused := by
  have hmem := mem_of_find?_eq_some h
  have hst := List.find?_some h
  exact ⟨mem_range.1 hmem, by simpa using hst⟩

theorem allocproc_eq_ok {k k' : Kernel} {slot : Option Nat} (h : allocproc k = .ok (slot, k')) :
    (slot = none → ∃ c, (freeSlot k = none ∧ k' = k ∨ freeSlot k = some c ∧
      (k.proc c).Cleared (k'.proc c)) ∧ k.Apart c k') ∧
    ∀ np, slot = some np → freeSlot k = some np ∧ ∃ tf ph pt,
      kalloc k.phys = some (tf, ph) ∧ procPagetable ph tf = .ok (pt, k'.phys) ∧
      pt.isNull = false ∧
      k' = { k.setProc np { k.proc np with
        pid := k.nextpid, state := .used, trapframe := some tf, pagetable := pt } with
          phys := k'.phys, nextpid := (allocpid k).2.nextpid } := by
  unfold allocproc at h
  split at h
  · rename_i hslot
    cases h
    exact ⟨fun _ => ⟨0, .inl ⟨hslot, rfl⟩, .refl 0 k⟩, fun np hnp => nomatch hnp⟩
  · rename_i p hslot
    dsimp only [allocpid] at h
    split at h
    · rename_i hnone
      obtain ⟨k₁, hfree, h⟩ := bind_eq_ok.1 h
      cases h
      obtain ⟨hapart, hclear⟩ := freeproc_cleared hfree
      simp only [proc_setProc_self] at hclear
      refine ⟨fun _ => ⟨p, .inr ⟨hslot, hclear.of_eq rfl rfl⟩, .trans ?_ hapart⟩, fun np hnp => nomatch hnp⟩
      exact apart_setProc rfl rfl rfl
    · rename_i tf ph hsome
      obtain ⟨⟨pt, ph₁⟩, hpt, h⟩ := bind_eq_ok.1 h
      split at h
      · obtain ⟨k₁, hfree, h⟩ := bind_eq_ok.1 h
        cases h
        obtain ⟨hapart, hclear⟩ := freeproc_cleared hfree
        simp only [proc_setProc_self, proc_setVm_self] at hclear
        refine ⟨fun _ => ⟨p, .inr ⟨hslot, hclear.of_eq rfl rfl⟩, .trans ?_ hapart⟩, fun np hnp => nomatch hnp⟩
        refine .trans ?_ (apart_setVm _ p _)
        refine .trans ?_ (apart_setProc rfl rfl rfl)
        exact apart_setProc rfl rfl rfl
      · rename_i hnull
        cases h
        refine ⟨(nomatch ·), fun np hnp => ?_⟩
        cases hnp
        exact ⟨hslot, tf, ph, pt, hsome, hpt, by simpa using hnull,
          by simp [Kernel.setVm, Kernel.setProc, allocpid]⟩

end Xv6
