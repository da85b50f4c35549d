/-
Coherence of shared regions: the holders of a region that was made with MAP_SHARED see each
other's stores on a page as long as they map it to the same frame.  `fork` hands the frames that
are mapped on to the child; a page that is touched first after the fork gets a frame of its own
in every holder that touches it.
-/
import Xv6.Proc.Base

namespace Xv6

open Kernel PageTable
open Run (bind_eq_ok)

variable {done : Bool} {x : Kernel} {addr c i n u va : Nat} {vm : PageTable × Phys} {ph' : Phys}

variable {k k' : Kernel} {f p q v : Nat} {pt pt' : PageTable} {ph : Phys}

def PageTable.maps (pt : PageTable) (v f : Nat) : Prop :=
  ∃ w, pt.leaf v = some w ∧ has w pteU = true ∧ pte2pa w = f

theorem PageTable.maps_congr (h : pt'.leaf v = pt.leaf v) : pt'.maps v f ↔ pt.maps v f := by
  unfold maps
  rw [h]

namespace Kernel

/-- Entry `i` of process `p` is a region that was made with MAP_SHARED. -/
structure Shared (k : Kernel) (p i : Nat) : Prop where
  live : (k.proc p).state ≠ .unused
  valid : ((k.proc p).mmr i).valid = true
  shared : has ((k.proc p).mmr i).flags mapShared = true
  notPrivate : ((k.proc p).mmr i).isPrivate = false

/-- Two holders of a region, the result of one call of `mmap`, map a page of it to the same
frame. -/
def Coherent (k : Kernel) : Prop :=
  ∀ p q i j v f g, k.Shared p i → k.Shared q j →
    ((k.proc p).mmr i).origin = ((k.proc q).mmr j).origin → v ∈ ((k.proc p).mmr i).pages →
    (k.proc p).pagetable.maps v f → (k.proc q).pagetable.maps v g → f = g

/-- The access faults and some region answers it with a new frame. -/
def Faults (k : Kernel) (p : Nat) (store : Bool) (va : Nat) : Prop :=
  allowed (k.proc p).pagetable store va = false ∧
    ∃ i < maxMmr, ((k.proc p).mmr i).Serves store va

/-- What keeps the holders coherent: a page of a shared region is first touched while no other
holder has it, `sbrk` adds no page that lies in a shared region, and a process with a shared
region does not call `exec`. -/
def FirstTouch (k : Kernel) : Event → Prop
  | .access p store va => k.Faults p store (word va) →
      ∀ i, k.Shared p i → vpn (word va) ∈ ((k.proc p).mmr i).pages →
      ∀ q j f, q ≠ p → k.Shared q j →
        ((k.proc q).mmr j).origin = ((k.proc p).mmr i).origin →
        ¬ (k.proc q).pagetable.maps (vpn (word va)) f
  | .sbrk p n => ∀ i v, k.Shared p i → v ∈ ((k.proc p).mmr i).pages →
      npages ((k.proc p).sz % 2 ^ 32) ≤ v →
      npages (((k.proc p).sz % 2 ^ 32 + n % 2 ^ 32) % 2 ^ 32) ≤ v
  | .exec p _ _ => ∀ i, ¬ k.Shared p i
  | _ => True

/-- Regions of one origin are one region: the same entry in every holder, at the same place. -/
def SameOrigin (k : Kernel) : Prop :=
  ∀ p q i j, k.Shared p i → k.Shared q j →
    ((k.proc p).mmr i).origin = ((k.proc q).mmr j).origin →
    i = j ∧ ((k.proc p).mmr i).pages = ((k.proc q).mmr j).pages

/-- Every holder in `k'` stands for one in `k` with the same region that had mapped at least the
same pages of it. -/
def Simulated (k k' : Kernel) : Prop :=
  ∀ p i, k'.Shared p i → ∃ p₀, k.Shared p₀ i ∧
    ((k'.proc p).mmr i).SameRegion ((k.proc p₀).mmr i) ∧
    ∀ v ∈ ((k.proc p₀).mmr i).pages, ∀ f, (k'.proc p).pagetable.maps v f →
      (k.proc p₀).pagetable.maps v f

theorem SameOrigin.of_simulated (h : k.SameOrigin) (hs : k.Simulated k') : k'.SameOrigin := by
  intro p q i j hp hq ho
  obtain ⟨p₀, hp₀, hrp, -⟩ := hs p i hp
  obtain ⟨q₀, hq₀, hrq, -⟩ := hs q j hq
  have ho' : ((k.proc p₀).mmr i).origin = ((k.proc q₀).mmr j).origin := by
    rw [hrp, hrq]
    exact ho
  have heq := h p₀ q₀ i j hp₀ hq₀ ho'
  exact ⟨heq.1, by rw [← hrp.pages, ← hrq.pages, heq.2]⟩

theorem Coherent.of_simulated (h : k.Coherent) (ho : k.SameOrigin) (hs : k.Simulated k') :
    k'.Coherent := by
  intro p q i j v f g hp hq horigin hv hf hg
  obtain ⟨p₀, hp₀, hrp, hmp⟩ := hs p i hp
  obtain ⟨q₀, hq₀, hrq, hmq⟩ := hs q j hq
  have horigin' : ((k.proc p₀).mmr i).origin = ((k.proc q₀).mmr j).origin := by
    rw [hrp, hrq]
    exact horigin
  rw [← hrp.pages] at hv
  have hv' : v ∈ ((k.proc q₀).mmr j).pages := (ho p₀ q₀ i j hp₀ hq₀ horigin').2 ▸ hv
  exact h p₀ q₀ i j v f g hp₀ hq₀ horigin' hv (hmp v hv f hf) (hmq v hv' g hg)

end Kernel

/-! ## What the calls do to the holders -/

theorem Mmr.SameRegion.shared (h : ((k'.proc q).mmr i).SameRegion ((k.proc p).mmr i))
    (hlive : (k.proc p).state ≠ .unused) (hs : k'.Shared q i) : k.Shared p i := by
  have hv := hs.valid
  have hf := hs.shared
  have hp := hs.notPrivate
  rw [h.symm] at hv hf hp
  exact ⟨hlive, hv, hf, hp⟩

theorem Proc.SameSpace.shared (h : (k.proc q).SameSpace (k'.proc q)) (hs : k'.Shared q i) :
    ∃ p₀, k.Shared p₀ i ∧
      ((k'.proc q).mmr i).SameRegion ((k.proc p₀).mmr i) ∧
      ∀ v ∈ ((k.proc p₀).mmr i).pages, ∀ f, (k'.proc q).pagetable.maps v f →
        (k.proc p₀).pagetable.maps v f := by
  have hr := (h.regions i).symm
  refine ⟨q, hr.shared (fun hu => hs.live (h.live.2 hu)) hs, hr, fun v _ f hm => ?_⟩
  rwa [h.table] at hm

theorem Kernel.Apart.simulated (h : k.Apart c k') (hc : ∀ i, k'.Shared c i → ∃ p₀, k.Shared p₀ i ∧
      ((k'.proc c).mmr i).SameRegion ((k.proc p₀).mmr i) ∧
      ∀ v ∈ ((k.proc p₀).mmr i).pages, ∀ f, (k'.proc c).pagetable.maps v f →
        (k.proc p₀).pagetable.maps v f) : k.Simulated k' := by
  intro q i hs
  by_cases hq : q = c
  · subst hq
    exact hc i hs
  · exact (h.others q hq).shared hs

theorem Kernel.Quiet.simulated (h : k.Quiet k') : k.Simulated k' :=
  fun q _ hs => (h.procs q).shared hs

theorem Kernel.simulated_of_proc (h : k'.proc = k.proc) : k.Simulated k' := by
  intro q i hs
  refine Proc.SameSpace.shared ?_ hs
  rw [h]
  exact .refl _

theorem Kernel.Apart.simulated_of_unused (h : k.Apart c k') (hc : (k'.proc c).state = .unused) :
    k.Simulated k' :=
  h.simulated fun _ hs => absurd hc hs.live

theorem Forked.maps {np : Nat} (h : Forked k k' p np) (hb : k.Basic) (hs : k.Shared p i)
    (hv : v ∈ ((k.proc p).mmr i).pages) (hm : (k'.proc np).pagetable.maps v f) :
    (k.proc p).pagetable.maps v f := by
  obtain ⟨tf, ph, pt₀, ph₀, -, -, hpt, hroot, hfill⟩ := h.table
  obtain ⟨w, hleaf, huser, hpa⟩ := hm
  have hwf := (((hb.sound p).region i) hs.valid).1
  have htop := hwf.lt_trapframe hv
  have hvlt : v < nvpn := htop.trans trapframeVpn_lt
  -- a page of the region that the parent can use is handed on
  have hlend : ∀ e, (k.proc p).pagetable.user v = some e →
      v ∈ usablePages (k.proc p).pagetable (k.proc p).mmr true maxMmr := fun e he =>
    mem_usablePages.2 ⟨i, (hb.sound p).index i hs.valid, hs.valid, by simpa using hs.notPrivate, hv, e, he⟩
  have hlent : v ∈ usablePages (k.proc p).pagetable (k.proc p).mmr true maxMmr := by
    by_contra hnot
    by_cases hfresh : v ∈ List.range' 0 (npages (k.proc p).sz) ++
        usablePages (k.proc p).pagetable (k.proc p).mmr false maxMmr
    · rcases List.mem_append.1 hfresh with hheap | hpriv
      · obtain ⟨e, he, hreads⟩ := h.heap v (by rw [mem_range'] at hheap; omega)
        obtain ⟨g, hg, hnew⟩ := hfill.new v hfresh
        rw [hleaf] at hnew
        cases hnew
        refine hnot (hlend e (user_eq_some.2 ⟨?_, he, ?_, ?_⟩))
        · exact (hfill.unmapped v (.inl hfresh)).1
        · rw [copyPerm, has_user_leafWord _ (pteFlags_lt _), has_pteFlags _ (by decide),
            (leaf_eq_some.1 he).1] at huser
          exact huser
        · rintro h0
          rw [h0] at hreads
          exact absurd hreads (by decide)
      · obtain ⟨-, -, -, -, -, e, he⟩ := mem_usablePages.1 hpriv
        exact hnot (hlend e he)
    · rw [hfill.other v hvlt hfresh hnot] at hleaf
      have := ((procPagetable_eq_ok hpt).2 hroot).2 v hvlt
      rw [hleaf, if_neg (by rw [show trampolineVpn = trapframeVpn + 1 by decide]; omega),
        if_neg (by omega)] at this
      cases this
  have hshared := hfill.shared v hlent
  rw [hleaf] at hshared
  cases hshared
  obtain ⟨-, -, -, -, -, e, he⟩ := mem_usablePages.1 hlent
  obtain ⟨-, he', hu, -⟩ := user_eq_some.1 he
  refine ⟨e, he', hu, ?_⟩
  rw [← hpa, pte2pa_lentWord, (leaf_eq_some.1 he').1]

theorem simulated_fork {r : Int} (hb : k.Basic) (hlive : (k.proc p).state ≠ .unused)
    (hf : fork k p = .ok (r, k')) : k.Simulated k' := by
  rcases fork_eq_ok hlive hb.ram (hb.sound p).addr hf with
    ⟨-, rfl | ⟨c, x, -, hapart, hclear, -⟩⟩ | ⟨np, -, hforked⟩
  · exact (Kernel.Quiet.refl _).simulated
  · exact hapart.simulated_of_unused hclear.state
  · have hne : p ≠ np := fun he => hlive (he ▸ (freeSlot_eq_some hforked.slot).2)
    refine (hforked.apart hne).simulated fun i hs => ?_
    have hr := (hforked.sameRegions i).symm
    have hs₀ := hr.shared hlive hs
    exact ⟨p, hs₀, hr, fun v hv f hm => hforked.maps hb hs₀ hv hm⟩

theorem simulated_wait (hw : wait k p addr = .ok k') : k.Simulated k' := by
  obtain ⟨ph, hfree, rfl | ⟨c, -, -, -, hc⟩⟩ := wait_eq_ok hw
  · exact (k.quiet_phys hfree).simulated
  · obtain ⟨hapart, hclear⟩ := freeproc_cleared hc
    refine Kernel.Apart.simulated_of_unused (c := c) ?_ hclear.state
    exact ⟨hapart.others, hapart.initproc, hapart.origins⟩

theorem simulated_table (hapart : k.Apart p k') (hlive : (k.proc p).state ≠ .unused)
    (hr : ∀ i, ((k'.proc p).mmr i).SameRegion ((k.proc p).mmr i))
    (hm : ∀ i v f, k.Shared p i → v ∈ ((k.proc p).mmr i).pages →
      (k'.proc p).pagetable.maps v f → (k.proc p).pagetable.maps v f) : k.Simulated k' := by
  refine hapart.simulated fun i hs => ?_
  have hs₀ := (hr i).shared hlive hs
  exact ⟨p, hs₀, hr i, fun v hv f hmap => hm i v f hs₀ hv hmap⟩

theorem simulated_resize {sz : Nat} (hlive : (k.proc p).state ≠ .unused)
    (hm : ∀ i v f, k.Shared p i → v ∈ ((k.proc p).mmr i).pages → vm.1.maps v f →
      (k.proc p).pagetable.maps v f) : k.Simulated (k.resize p sz vm) := by
  refine simulated_table (p := p) (apart_setProc rfl rfl rfl) hlive (fun i => ?_) ?_
  · rw [Kernel.resize, proc_setProc_self]
    rfl
  · rw [Kernel.resize, proc_setProc_self]
    exact hm

theorem simulated_growproc (hb : k.Basic) (hlive : (k.proc p).state ≠ .unused)
    (hguard : ∀ i v, k.Shared p i → v ∈ ((k.proc p).mmr i).pages →
      npages ((k.proc p).sz % 2 ^ 32) ≤ v → npages (((k.proc p).sz % 2 ^ 32 + n) % 2 ^ 32) ≤ v)
    (hg : growproc k p n = .ok (done, k')) : k.Simulated k' := by
  have hmax : (k.proc p).sz % 2 ^ 32 ≤ maxva :=
    (Nat.mod_lt _ (by decide)).le.trans (by decide)
  have hpage : ∀ {i v}, k.Shared p i → v ∈ ((k.proc p).mmr i).pages → v < nvpn := fun hs hv =>
    (((hb.sound p).region _ hs.valid).1.lt_trapframe hv).trans trapframeVpn_lt
  rcases growproc_eq_ok hg with ⟨-, rfl⟩ | ⟨-, -, r, vm, halloc, hk'⟩ | ⟨-, r, vm, hdealloc, rfl⟩
  · exact simulated_resize hlive fun _ _ _ _ _ hm => hm
  · have hmaps : ∀ i v f, k.Shared p i → v ∈ ((k.proc p).mmr i).pages → vm.1.maps v f →
        (k.proc p).pagetable.maps v f := by
      intro i v f hs hv hm
      rcases uvmalloc_eq_ok hb.ram hmax halloc with ⟨-, -, hpt, -⟩ | ⟨-, -, hfill, -⟩ |
        ⟨-, -, -, hleaf⟩
      · exact hpt ▸ hm
      · refine (maps_congr (hfill.other v (hpage hs hv) ?_ (by simp))).1 hm
        rw [mem_range']
        have := hguard i v hs hv
        omega
      · exact (maps_congr (hleaf v (hpage hs hv))).1 hm
    rw [hk']
    split
    · refine simulated_table (k.apart_setVm p vm) hlive (fun i => ?_) ?_
      · rw [proc_setVm_self]
        rfl
      · rw [proc_setVm_self]
        exact hmaps
    · exact simulated_resize hlive hmaps
  · obtain ⟨-, -, -, hleaf⟩ := uvmdealloc_eq_ok hmax hdealloc
    refine simulated_resize hlive fun i v f hs hv hm => ?_
    have hv' := hleaf v (hpage hs hv)
    split at hv'
    · obtain ⟨w, hw, -⟩ := hm
      rw [hv'] at hw
      cases hw
    · exact (maps_congr hv').1 hm

theorem maps_of_unmapLoop {doFree : Bool}
    (h : unmapLoop doFree n (v * pgsize) pt ph = .ok (pt', ph')) (hu : u < nvpn)
    (hm : pt'.maps u f) : pt.maps u f := by
  have hleaf := (unmapLoop_eq_ok h).2.2 u hu
  split at hleaf
  · obtain ⟨w, hw, -⟩ := hm
    rw [hleaf] at hw
    cases hw
  · exact (maps_congr hleaf).1 hm

theorem simulated_munmap {length : Nat} (hb : k.Basic) (hlive : (k.proc p).state ≠ .unused)
    (hm : munmap k p addr length = .ok (done, k')) : k.Simulated k' := by
  rcases munmap_eq_ok hm with ⟨-, -, rfl⟩ | ⟨i, doFree, k₁, vm, -, -, hdrop, hun, rfl⟩
  · exact (Kernel.Quiet.refl _).simulated
  have hre := relinked_dropRegion hdrop
  have hstart : ((k.proc p).mmr i).addr = vpn ((k.proc p).mmr i).addr * pgsize :=
    (Nat.div_mul_cancel (Nat.dvd_of_mod_eq_zero ((hb.sound p).addr i))).symm
  rw [hstart] at hun
  have hapart : k.Apart p (k₁.setVm p vm) := (apart_setProc rfl rfl rfl).trans
    ((hre.apart p).trans (apart_setVm _ _ _))
  refine hapart.simulated fun j hs => ?_
  have hsame := (hre.procs p).regions j
  have hlive₁ : ((k₁.setVm p vm).proc p).mmr j = (k₁.proc p).mmr j := by
    rw [proc_setVm_self]
  by_cases hji : j = i
  · subst hji
    have hv := hs.valid
    rw [hlive₁, hsame] at hv
    simp [Kernel.invalidate, Kernel.setMmr] at hv
  · have hr : (((k₁.setVm p vm).proc p).mmr j).SameRegion ((k.proc p).mmr j) := by
      rw [hlive₁]
      have h₀ : ((k.invalidate p i).proc p).mmr j = (k.proc p).mmr j := by
        simp [Kernel.invalidate, Kernel.setMmr, Function.update_of_ne hji]
      rw [h₀] at hsame
      exact hsame.symm
    have hs₀ := hr.shared hlive hs
    refine ⟨p, hs₀, hr, fun v hv f hmap => ?_⟩
    rw [proc_setVm_self] at hmap
    refine maps_of_unmapLoop hun ?_ hmap
    exact (((hb.sound p).region j hs₀.valid).1.lt_trapframe hv).trans trapframeVpn_lt

/-! ## The two calls that map something new -/

theorem PageTable.maps_unique {g : Nat} (hf : pt.maps v f) (hg : pt.maps v g) : f = g := by
  obtain ⟨w, hw, -, hwf⟩ := hf
  obtain ⟨w', hw', -, hwg⟩ := hg
  rw [hw] at hw'
  cases hw'
  exact hwf.symm.trans hwg

/-- The regions of one origin and their pages. -/
structure Kernel.OneFrame (k : Kernel) : Prop where
  same : k.SameOrigin
  coherent : k.Coherent

theorem Kernel.OneFrame.of_simulated (h : k.OneFrame) (hs : k.Simulated k') : k'.OneFrame :=
  ⟨h.same.of_simulated hs, h.coherent.of_simulated h.same hs⟩

theorem oneFrame_mmap {length prot flags : Nat} {res : Option Nat} (hb : k.Basic) (h : k.OneFrame)
    (hlive : (k.proc p).state ≠ .unused) (hm : sysMmap k p length prot flags = .ok (res, k')) :
    k'.OneFrame := by
  rcases sysMmap_eq_ok hm with ⟨-, -, rfl⟩ | ⟨i, r, ok, vm, -, rfl, hmap, hfalse, htrue⟩
  · exact h
  obtain ⟨-, -, -, -, hentry, -⟩ := mapvpages_eq_ok (newMmr_addr k p i length prot flags) hmap
  obtain ⟨e, hmd, horigin⟩ : ∃ e, k.Mapped k' p i e vm ∧
      (e.valid = true → e.origin = k.origins) := by
    cases ok with
    | false =>
      obtain ⟨-, rfl⟩ := hfalse rfl
      exact ⟨_, k.mapped_mapFailed .., by simp⟩
    | true =>
      obtain ⟨-, id, l, rfl, -⟩ := htrue rfl
      exact ⟨_, k.mapped_mapRegion .., fun _ => rfl⟩
  -- a holder in `k'` is the new region or was one in `k`
  have hold : ∀ q j, k'.Shared q j → q = p ∧ j = i ∧
        ((k'.proc q).mmr j).origin = k.origins ∨
      k.Shared q j ∧ (k'.proc q).mmr j = (k.proc q).mmr j ∧
        ∀ v f, (k'.proc q).pagetable.maps v f ↔ (k.proc q).pagetable.maps v f := by
    intro q j hs
    by_cases hnew : q = p ∧ j = i
    · obtain ⟨rfl, rfl⟩ := hnew
      have hv := hs.valid
      rw [hmd.entry] at hv ⊢
      exact .inl ⟨rfl, rfl, horigin hv⟩
    · have hmmr := hmd.kept hnew
      by_cases hq : q = p
      · subst hq
        refine .inr ⟨Mmr.SameRegion.shared (by rw [hmmr]; rfl) hlive hs, hmmr, fun v f => ?_⟩
        rw [hmd.self]
        exact maps_congr (leaf_congr (hentry v))
      · have hproc := hmd.others q hq
        refine .inr ⟨?_, hmmr, fun v f => by rw [hproc]⟩
        exact Mmr.SameRegion.shared (by rw [hmmr]; rfl) (by rw [← hproc]; exact hs.live) hs
  have hless : ∀ q j, k.Shared q j → ((k.proc q).mmr j).origin < k.origins := fun q j hs =>
    ((hb.sound q).region j hs.valid).2
  refine ⟨fun q₁ q₂ j₁ j₂ h₁ h₂ ho => ?_, fun q₁ q₂ j₁ j₂ v f g h₁ h₂ ho hv hf hg => ?_⟩
  · rcases hold q₁ j₁ h₁ with ⟨rfl, rfl, ho₁⟩ | ⟨hs₁, hm₁, -⟩ <;>
      rcases hold q₂ j₂ h₂ with ⟨rfl, rfl, ho₂⟩ | ⟨hs₂, hm₂, -⟩
    · exact ⟨rfl, rfl⟩
    · rw [hm₂] at ho
      exact absurd (hless _ _ hs₂) (by omega)
    · rw [hm₁] at ho
      exact absurd (hless _ _ hs₁) (by omega)
    · rw [hm₁, hm₂] at ho ⊢
      exact h.same _ _ _ _ hs₁ hs₂ ho
  · rcases hold q₁ j₁ h₁ with ⟨rfl, rfl, ho₁⟩ | ⟨hs₁, hm₁, hp₁⟩ <;>
      rcases hold q₂ j₂ h₂ with ⟨rfl, rfl, ho₂⟩ | ⟨hs₂, hm₂, hp₂⟩
    · exact maps_unique hf hg
    · rw [hm₂] at ho
      exact absurd (hless _ _ hs₂) (by omega)
    · rw [hm₁] at ho
      exact absurd (hless _ _ hs₁) (by omega)
    · rw [hm₁, hm₂] at ho
      rw [hm₁] at hv
      exact h.coherent _ _ _ _ v f g hs₁ hs₂ ho hv ((hp₁ v f).1 hf) ((hp₂ v g).1 hg)

theorem Kernel.OneFrame.setVm (h : k.OneFrame) (hb : k.Basic) (hlive : (k.proc p).state ≠ .unused)
    (hleaf : ∀ u < nvpn, u ≠ v → vm.1.leaf u = (k.proc p).pagetable.leaf u)
    (hfirst : ∀ i, k.Shared p i → v ∈ ((k.proc p).mmr i).pages → ∀ q j f, q ≠ p → k.Shared q j →
      ((k.proc q).mmr j).origin = ((k.proc p).mmr i).origin → ¬ (k.proc q).pagetable.maps v f) :
    (k.setVm p vm).OneFrame := by
  have hmmr : ∀ q, ((k.setVm p vm).proc q).mmr = (k.proc q).mmr := by
    intro q
    by_cases hq : q = p
    · rw [hq, proc_setVm_self]
    · rw [proc_setVm_of_ne _ hq]
  have hshared : ∀ q j, (k.setVm p vm).Shared q j → k.Shared q j := by
    intro q j hs
    refine Mmr.SameRegion.shared (by rw [hmmr]; rfl) ?_ hs
    by_cases hq : q = p
    · rwa [hq]
    · rw [← proc_setVm_of_ne _ hq]
      exact hs.live
  have hmaps : ∀ q j u f, k.Shared q j → u ∈ ((k.proc q).mmr j).pages → (q = p → u ≠ v) →
      ((k.setVm p vm).proc q).pagetable.maps u f → (k.proc q).pagetable.maps u f := by
    intro q j u f hs hu hne hm
    by_cases hq : q = p
    · subst hq
      rw [proc_setVm_self] at hm
      have hlt := (((hb.sound q).region j hs.valid).1.lt_trapframe hu).trans trapframeVpn_lt
      exact (maps_congr (hleaf u hlt (hne rfl))).1 hm
    · rwa [proc_setVm_of_ne _ hq] at hm
  refine ⟨fun q₁ q₂ j₁ j₂ h₁ h₂ ho => ?_, fun q₁ q₂ j₁ j₂ u f g h₁ h₂ ho hu hf hg => ?_⟩
  · rw [hmmr, hmmr] at ho ⊢
    exact h.same _ _ _ _ (hshared _ _ h₁) (hshared _ _ h₂) ho
  · rw [hmmr, hmmr] at ho
    rw [hmmr] at hu
    have hs₁ := hshared _ _ h₁
    have hs₂ := hshared _ _ h₂
    have hu₂ : u ∈ ((k.proc q₂).mmr j₂).pages := (h.same _ _ _ _ hs₁ hs₂ ho).2 ▸ hu
    by_cases huv : u = v
    · subst huv
      by_cases hq₁ : q₁ = p
      · by_cases hq₂ : q₂ = p
        · rw [hq₁] at hf
          rw [hq₂] at hg
          exact maps_unique hf hg
        · subst hq₁
          exact absurd (hmaps q₂ j₂ u g hs₂ hu₂ (fun h => absurd h hq₂) hg)
            (hfirst j₁ hs₁ hu q₂ j₂ g hq₂ hs₂ ho.symm)
      · by_cases hq₂ : q₂ = p
        · subst hq₂
          exact absurd (hmaps q₁ j₁ u f hs₁ hu (fun h => absurd h hq₁) hf)
            (hfirst j₂ hs₂ hu₂ q₁ j₁ f hq₁ hs₁ ho)
        · exact h.coherent _ _ _ _ u f g hs₁ hs₂ ho hu
            (hmaps q₁ j₁ u f hs₁ hu (fun h => absurd h hq₁) hf)
            (hmaps q₂ j₂ u g hs₂ hu₂ (fun h => absurd h hq₂) hg)
    · exact h.coherent _ _ _ _ u f g hs₁ hs₂ ho hu (hmaps q₁ j₁ u f hs₁ hu (fun _ => huv) hf)
        (hmaps q₂ j₂ u g hs₂ hu₂ (fun _ => huv) hg)

theorem mappages_other {pa perm : Nat} {ok : Bool} (hva : va < maxva)
    (h : mappages pt ph (pgrounddown va) pgsize pa perm = .ok (ok, pt', ph')) (hu : u < nvpn)
    (hne : u ≠ vpn va) : pt'.leaf u = pt.leaf u := by
  have hroom : pgrounddown va + pgsize ≤ 2 ^ 64 := by
    have hle : pgrounddown va ≤ va := Nat.div_mul_le_self _ _
    have hmax := maxva_room
    omega
  have hvpn : vpn (pgrounddown va) = vpn va := Nat.mul_div_cancel _ (by decide)
  obtain ⟨-, -, -, htrue, hfalse⟩ := mappages_page (pgrounddown_mod va) hroom h
  apply leaf_congr
  cases ok with
  | false => exact (hfalse rfl).2 u
  | true => rw [(htrue rfl).2 u hu, hvpn, if_neg hne]

/-- The processes other than `p` are the same, and `p` up to its table. -/
def Kernel.OnlyTable (p : Nat) (k x : Kernel) : Prop :=
  (∀ q, q ≠ p → x.proc q = k.proc q) ∧
    x.proc p = { k.proc p with pagetable := (x.proc p).pagetable }

theorem Kernel.OnlyTable.refl (p : Nat) (k : Kernel) : OnlyTable p k k := ⟨fun _ _ => rfl, rfl⟩

theorem Kernel.OnlyTable.setVm (h : OnlyTable p k x) (vm : PageTable × Phys) :
    OnlyTable p k (x.setVm p vm) := by
  refine ⟨fun q hq => (proc_setVm_of_ne _ hq _).trans (h.1 q hq), ?_⟩
  rw [proc_setVm_self, h.2]

theorem Kernel.OnlyTable.shared {j : Nat} (h : OnlyTable p k x) (hs : x.Shared q j) :
    k.Shared q j ∧ (x.proc q).mmr = (k.proc q).mmr := by
  have hq : (x.proc q).mmr = (k.proc q).mmr ∧ (x.proc q).state = (k.proc q).state := by
    by_cases hq : q = p
    · subst hq
      rw [h.2]
      exact ⟨rfl, rfl⟩
    · rw [h.1 q hq]
      exact ⟨rfl, rfl⟩
  exact ⟨Mmr.SameRegion.shared (by rw [hq.1]; rfl) (hq.2 ▸ hs.live) hs, hq.1⟩

theorem oneFrame_access {store : Bool} (hb : k.Basic) (h : k.OneFrame)
    (hlive : (k.proc p).state ≠ .unused)
    (hmiss : allowed (k.proc p).pagetable store (word va) = false)
    (hguard : k.FirstTouch (.access p store va)) (ha : usertrapFault k p store (word va) = .ok k') :
    k'.OneFrame := by
  obtain ⟨k₁, hfault, hend⟩ := usertrapFault_eq_ok ha
  have h₁ : k₁.Basic ∧ k₁.OneFrame ∧ Kernel.OnlyTable p k k₁ := by
    refine faultRegions_induction
      (I := fun x => x.Basic ∧ x.OneFrame ∧ Kernel.OnlyTable p k x)
      (fun i x x' hi hx hf => ?_) ⟨hb, h, .refl p k⟩ hfault
    obtain ⟨hxb, hxf, hxo⟩ := hx
    have hlive' : (x.proc p).state ≠ .unused := by
      rw [hxo.2]
      exact hlive
    have hmmr : (x.proc p).mmr = (k.proc p).mmr := by rw [hxo.2]
    have hxb' := (basic_faultRegion hxb hlive' hf).1
    rcases faultRegion_eq_ok hf with ⟨-, rfl⟩ | ⟨hserve, pa, ph, ok, vm, -, hmap, rfl⟩
    · exact ⟨hxb, hxf, hxo⟩
    refine ⟨hxb', hxf.setVm hxb hlive' (v := vpn (word va)) ?_ ?_, hxo.setVm vm⟩
    · have hva := hserve.lt_maxva ((hxb.sound p).region i hserve.2.2.1).1
      exact fun u hu hne => mappages_other hva hmap hu hne
    · intro j hj hv q j' f hq hs ho
      rw [hmmr] at hserve hv ho
      obtain ⟨hj₀, -⟩ := hxo.shared hj
      obtain ⟨hs₀, hmmr'⟩ := hxo.shared hs
      rw [hmmr'] at ho
      rw [hxo.1 q hq]
      exact hguard ⟨hmiss, i, hi, hserve⟩ j hj₀ hv q j' f hq hs₀ ho
  rcases hend with rfl | hexit
  · exact h₁.2.1
  · have hlive₁ : (k₁.proc p).state ≠ .unused := by
      rw [h₁.2.2.2]
      exact hlive
    exact h₁.2.1.of_simulated (exit_eq_ok hlive₁ hexit).1.simulated

theorem oneFrame_step {e : Event} (hb : k.Basic) (h : k.OneFrame) (hg : k.FirstTouch e)
    (hs : k.step e = .ok k') : k'.OneFrame := by
  rcases step_eq_ok hs with rfl | ⟨hruns, hdoes⟩
  · exact h
  have hlive := hruns.live
  cases hdoes with
  | fork hf => exact h.of_simulated (simulated_fork hb hlive hf)
  | exit hx => exact h.of_simulated (exit_eq_ok hlive hx).1.simulated
  | wait hw => exact h.of_simulated (simulated_wait hw)
  | sbrk hgrow => exact h.of_simulated (simulated_growproc hb hlive hg hgrow)
  | mmap hm => exact oneFrame_mmap hb h hlive hm
  | munmap hm => exact h.of_simulated (simulated_munmap hb hlive hm)
  | hit _ => exact h
  | fault hmiss ha => exact oneFrame_access hb h hlive hmiss hg ha
  | exec he =>
    refine h.of_simulated ?_
    rcases exec_eq_ok hb.ram he with ⟨-, ph, -, rfl⟩ |
      ⟨-, tf, pt₀, ph₀, pt, ph, sz, ph', -, -, -, -, -, -, rfl⟩
    · exact simulated_of_proc rfl
    · exact simulated_resize hlive fun i _ _ hi => absurd hi (hg i)

theorem oneFrame_boot (h : Boots ph k) : k.OneFrame := by
  obtain ⟨tf, page, hbooted⟩ := h.booted
  have hnone : ∀ q j, ¬ k.Shared q j := by
    intro q j hs
    have hv := hs.valid
    by_cases hq : q = 0
    · rw [hq, hbooted.proc] at hv
      cases hv
    · rw [hbooted.others q hq] at hv
      cases hv
  exact ⟨fun q _ j _ hs => absurd hs (hnone q j), fun q _ j _ _ _ _ hs => absurd hs (hnone q j)⟩

/-- In a run in which every page of a shared region is first touched while no other holder has
it, the holders of a region map its pages to the same frames. -/
theorem shared_coherent {ph : Phys} {k k' : Kernel} {es : List Event} (hboot : Boots ph k)
    (hg : Run.Guarded Kernel.step Kernel.FirstTouch k es)
    (hrun : Run.exec Kernel.step k es = .ok k') : k'.Coherent := by
  have hinv : k'.Basic ∧ k'.OneFrame :=
    Run.inv_of_guarded (I := fun x => x.Basic ∧ x.OneFrame)
      (fun s e s' hs hge hstep => ⟨basic_step hs.1 hstep, oneFrame_step hs.1 hs.2 hge hstep⟩)
      ⟨basic_boot hboot, oneFrame_boot hboot⟩ hg hrun
  exact hinv.2.coherent

/-- Processes 0 and 1 both have the shared region 0 and map its page `v`; `same` says whether
to the same frame. -/
def Kernel.bothMap (v : Nat) (same : Bool) (k : Kernel) : Bool :=
  let w := (k.proc 0).pagetable.entry v
  let w' := (k.proc 1).pagetable.entry v
  let r := (k.proc 0).mmr 0
  let r' := (k.proc 1).mmr 0
  has w pteV && has w pteU && has w' pteV && has w' pteU && (pte2pa w == pte2pa w') == same &&
    ((k.proc 0).state != .unused && r.valid && has r.flags mapShared && !r.isPrivate) &&
    ((k.proc 1).state != .unused && r'.valid && has r'.flags mapShared && !r'.isPrivate) &&
    r.origin == r'.origin && decide (v ∈ r.pages)

theorem Kernel.of_bothMap {same : Bool} (h : k.bothMap v same = true) :
    ∃ f g, (k.proc 0).pagetable.maps v f ∧ (k.proc 1).pagetable.maps v g ∧
      (f = g ↔ same = true) ∧ k.Shared 0 0 ∧ k.Shared 1 0 ∧
      ((k.proc 0).mmr 0).origin = ((k.proc 1).mmr 0).origin ∧ v ∈ ((k.proc 0).mmr 0).pages := by
  simp only [bothMap, Bool.and_eq_true, decide_eq_true_eq, beq_iff_eq, bne_iff_ne,
    Bool.not_eq_true'] at h
  obtain ⟨⟨⟨⟨⟨⟨⟨⟨hv, hu⟩, hv'⟩, hu'⟩, hsame⟩, ⟨⟨hl, hr⟩, hs⟩, hp⟩, ⟨⟨hl', hr'⟩, hs'⟩, hp'⟩, ho⟩, hm⟩ := h
  refine ⟨_, _, ⟨_, leaf_eq_some.2 ⟨rfl, hv⟩, hu, rfl⟩,
    ⟨_, leaf_eq_some.2 ⟨rfl, hv'⟩, hu', rfl⟩, ?_, ⟨hl, hr, hs, hp⟩, ⟨hl', hr', hs', hp'⟩,
    ho, hm⟩
  rw [← hsame, beq_iff_eq]

/-- The page below the trapframe, where the first region of one page lies. -/
def firstPage : Nat := trapframe - pgsize

/-- Parent and child touch a page of a shared region after the fork: each gets its own frame. -/
theorem touchAfterFork_not_coherent :
    ∃ ph k k', Boots ph k ∧
      Run.exec Kernel.step k [.mmap 0 pgsize (pteR ||| pteW) mapShared, .fork 0,
        .access 0 true firstPage, .access 1 true firstPage] = .ok k' ∧ ¬ k'.Coherent := by
  have hends : bootRun.ends 32 [.mmap 0 pgsize (pteR ||| pteW) mapShared, .fork 0,
      .access 0 true firstPage, .access 1 true firstPage]
      (Kernel.bothMap (vpn firstPage) false) = true := by decide +kernel
  obtain ⟨k, k', hboot, hrun, hcheck⟩ := bootRun.of_ends (by decide) (by decide) hends
  obtain ⟨f, g, hf, hg, hne, hs, hs', ho, hm⟩ := of_bothMap hcheck
  refine ⟨_, k, k', hboot, hrun, fun hco => ?_⟩
  exact absurd (hne.1 (hco 0 1 0 0 _ f g hs hs' ho hm hf hg)) (by decide)

theorem boots_touchBeforeFork :
    ∃ k k', Boots (.ofPages 32) k ∧
      Run.exec Kernel.step k [.mmap 0 pgsize (pteR ||| pteW) mapShared,
        .access 0 true firstPage, .fork 0] = .ok k' ∧
      ∃ f, (k'.proc 0).pagetable.maps (vpn firstPage) f ∧
        (k'.proc 1).pagetable.maps (vpn firstPage) f := by
  have hends : bootRun.ends 32 [.mmap 0 pgsize (pteR ||| pteW) mapShared,
      .access 0 true firstPage, .fork 0] (Kernel.bothMap (vpn firstPage) true) = true := by
    decide +kernel
  obtain ⟨k, k', hboot, hrun, hcheck⟩ := bootRun.of_ends (by decide) (by decide) hends
  obtain ⟨f, g, hf, hg, hfg, -⟩ := of_bothMap hcheck
  exact ⟨k, k', hboot, hrun, f, hf, hfg.2 rfl ▸ hg⟩

/-- A page that is touched before the fork is shared. -/
theorem shared_coherent_touchBeforeFork :
    ∃ ph k k', Boots ph k ∧
      Run.Guarded Kernel.step Kernel.FirstTouch k [.mmap 0 pgsize (pteR ||| pteW) mapShared,
        .access 0 true firstPage, .fork 0] ∧
      Run.exec Kernel.step k [.mmap 0 pgsize (pteR ||| pteW) mapShared,
        .access 0 true firstPage, .fork 0] = .ok k' ∧ k'.Coherent ∧
      ∃ f, (k'.proc 0).pagetable.maps (vpn firstPage) f ∧
        (k'.proc 1).pagetable.maps (vpn firstPage) f := by
  obtain ⟨k, k', hboot, hrun, hmaps⟩ := boots_touchBeforeFork
  have hguard : Run.Guarded Kernel.step Kernel.FirstTouch k
      [.mmap 0 pgsize (pteR ||| pteW) mapShared, .access 0 true firstPage, .fork 0] := by
    refine ⟨trivial, fun s hs => ⟨?_, fun _ _ => ⟨trivial, fun _ _ => trivial⟩⟩⟩
    -- the parent is the only process
    intro _ i _ _ q j f hq hq'
    obtain ⟨tf, page, hbooted⟩ := hboot.booted
    have hproc : s.proc q = k.proc q := by
      rcases step_eq_ok hs with rfl | ⟨-, hdoes⟩
      · rfl
      · cases hdoes with
        | mmap hm => exact sysMmap_others hm hq
    have hlive := hq'.live
    rw [hproc, hbooted.others q hq] at hlive
    exact absurd rfl hlive
  exact ⟨_, k, k', hboot, hguard, hrun, shared_coherent hboot hguard hrun, hmaps⟩

end Xv6
