/-
A process gives a region up, by `munmap` or when it is freed, and keeps the isolation of the
others: the frames of a region are freed with it if it is private or has no other member.
-/
import Xv6.Mmr.Isolation

namespace Xv6

open Function Kernel PageTable List
open Run (bind_eq_ok)

variable {doFree : Bool} {s : Nat}

section

variable {H : Nat → Nat → Prop} {k k' : Kernel} {p q i u : Nat}

/-! ## A process gives a region up -/

/-- The node of region `i` of `s`, linked to itself. -/
def Kernel.relink (k : Kernel) (s i : Nat) : Kernel :=
  k.setNode ⟨s, i⟩ { k.node ⟨s, i⟩ with next := some ⟨s, i⟩, prev := some ⟨s, i⟩ }

theorem leaveFamily_single {alone : Bool} (hl : k.Link p p i)
    (h : leaveFamily k p i = .ok (alone, k')) :
    alone = true ∧ k' = { k with mmrList := k'.mmrList } := by
  rcases leaveFamily_eq_ok h with ⟨ha, -, rfl⟩ | ⟨-, hne, -⟩
  · exact ⟨ha, rfl⟩
  · exact absurd hl.1 hne

theorem leaveFamily_paired {alone : Bool} (hne : p ≠ s) (hl : k.Link p s i)
    (h : leaveFamily k p i = .ok (alone, k')) : alone = false ∧ k' = k.relink s i := by
  rcases leaveFamily_eq_ok h with ⟨-, hself, -⟩ | ⟨ha, -, n, m, k₁, hn, rfl, hm, rfl⟩
  · rw [hl.1] at hself
    simp only [Option.some.injEq, NodePtr.mk.injEq] at hself
    exact absurd hself.1.symm hne
  · refine ⟨ha, ?_⟩
    rw [hl.1, Option.some.injEq] at hn
    subst hn
    have hnode : ∀ v, (k.setNode ⟨s, i⟩ v).node ⟨p, i⟩ = k.node ⟨p, i⟩ := by
      intro v
      rw [Kernel.node, proc_setNode_of_ne k (n := ⟨s, i⟩) hne, Kernel.node]
    rw [hnode, hl.2, Option.some.injEq] at hm
    subst hm
    rw [hnode, hl.1, hl.2]
    simp [Kernel.relink, Kernel.setNode, Kernel.setMmr, Kernel.setProc, Kernel.node]

theorem Kernel.relink_setVm (hne : p ≠ s) (vm : PageTable × Phys) :
    (k.relink s i).setVm p vm = (k.setVm p vm).relink s i := by
  have hnode : (k.setVm p vm).node ⟨s, i⟩ = k.node ⟨s, i⟩ := by
    rw [Kernel.node, proc_setVm_of_ne _ hne.symm, Kernel.node]
  have hproc : (k.relink s i).proc p = k.proc p := proc_setNode_of_ne k hne _
  rw [Kernel.setVm, hproc]
  simp only [Kernel.relink, Kernel.setNode, Kernel.setMmr, hnode,
    proc_setVm_of_ne k hne.symm]
  simp only [Kernel.setVm, Kernel.setProc, update_comm hne]

theorem Kernel.relink_proc_of_ne (hne : q ≠ s) : (k.relink s i).proc q = k.proc q :=
  proc_setNode_of_ne k hne _

theorem Kernel.relink_mmr (s : Nat) (j : Nat) (hj : ¬ j = i) :
    ((k.relink s i).proc s).mmr j = (k.proc s).mmr j := by
  rw [Kernel.relink, proc_setNode_self]
  exact update_of_ne hj ..

theorem Kernel.sameButLinks_relink (s t : Nat) :
    (k.proc t).SameButLinks ((k.relink s i).proc t) := (relinked_setNode k _ _).procs t

theorem Kernel.detached_paired {r : Mmr} {k₀ : Kernel} (hp : k.Paired H p s i)
    (hothers : ∀ q, q ≠ p → k₀.proc q = k.proc q) (hsz : (k₀.proc p).sz = (k.proc p).sz)
    (htable : (k₀.proc p).pagetable = (k.proc p).pagetable)
    (htf : (k₀.proc p).trapframe = (k.proc p).trapframe)
    (hmmr : (k₀.proc p).mmr = update (k.proc p).mmr i r)
    (hfree : k₀.phys.freelist = k.phys.freelist) : k.Detached (k₀.relink s i) H p i := by
  have hfields : ∀ t, (k₀.proc t).SameButLinks ((k₀.relink s i).proc t) :=
    sameButLinks_relink s
  have hentry : ∀ t j, ¬ (t = p ∧ j = i) → (k₀.proc t).mmr j = (k.proc t).mmr j := by
    intro t j ht
    by_cases htp : t = p
    · subst htp
      rw [hmmr, update_of_ne fun hj => ht ⟨rfl, hj⟩]
    · rw [hothers t htp]
  have hnode : ∀ t j, ¬ (t = p ∧ j = i) → k₀.node ⟨t, j⟩ = k.node ⟨t, j⟩ := by
    intro t j ht
    rw [Kernel.node, hentry t j ht, Kernel.node]
  have hself : (k₀.relink s i).node ⟨s, i⟩ =
      { k₀.node ⟨s, i⟩ with next := some ⟨s, i⟩, prev := some ⟨s, i⟩ } := by
    rw [Kernel.node, Kernel.relink, proc_setNode_self]
    simp only [update_self]
  have hrest : ∀ t j, ¬ (t = s ∧ j = i) → (k₀.relink s i).node ⟨t, j⟩ = k₀.node ⟨t, j⟩ := by
    intro t j ht
    by_cases hts : t = s
    · subst hts
      rw [Kernel.node, relink_mmr t j fun hj => ht ⟨rfl, hj⟩, Kernel.node]
    · rw [Kernel.node, relink_proc_of_ne hts, Kernel.node]
  refine ⟨fun t => ?_, fun t => ?_, fun t => ?_, hfree, fun t j ht => ?_, fun t j ht => ?_,
    fun t ht => ?_, fun t j ht hpair => ?_⟩
  · rw [(hfields t).fields]
    exact same_of_others hothers (·.sz) hsz t
  · rw [(hfields t).fields]
    exact same_of_others hothers (·.pagetable) htable t
  · rw [(hfields t).fields]
    exact same_of_others hothers (·.trapframe) htf t
  · have := (hfields t).regions j
    rwa [hentry t j ht] at this
  · rw [← hnode t j ht]
    by_cases hts : t = s ∧ j = i
    · obtain ⟨rfl, rfl⟩ := hts
      rw [hself]
    · rw [hrest t j hts]
  · obtain rfl := hp.unique ht
    rw [Kernel.Link, hself]
    exact ⟨rfl, rfl⟩
  · rw [← hnode t j ht]
    exact hrest t j fun h => hpair ⟨h.1 ▸ hp, h.2⟩

/-- How `munmap` and `freeproc` give region `i` of `p` up. -/
inductive Released (k : Kernel) (p i : Nat) : Bool → Kernel → Prop where
  | own (h : ((k.proc p).mmr i).isPrivate = true) : Released k p i true k
  | left {doFree : Bool} {k' : Kernel} (hp : ((k.proc p).mmr i).isPrivate = false)
      (h : leaveFamily k p i = .ok (doFree, k')) : Released k p i doFree k'

theorem releaseRegion_released (h : releaseRegion k p i = .ok (doFree, k')) :
    Released k p i doFree k' := by
  unfold releaseRegion at h
  dsimp only at h
  split at h
  · rename_i hp
    cases h
    exact .own hp
  · rename_i hp
    split at h
    · exact .left (by simpa using hp) h
    · cases h

theorem dropRegion_released (h : dropRegion k p i = .ok (doFree, k')) :
    Released k p i doFree k' := by
  unfold dropRegion at h
  dsimp only at h
  split at h
  · rename_i hp
    cases h
    exact .own hp
  · rename_i hp
    split at h
    · exact .left (by simpa using hp) h
    · cases h

section

variable {vm : PageTable × Phys} (h : k.Iso H) (hram : k.phys.Ram) (hH : H p i)
  (hwf : ((k.proc p).mmr i).Wf)
  (hun : unmapLoop doFree (pageCount ((k.proc p).mmr i).addr ((k.proc p).mmr i).stop)
    ((k.proc p).mmr i).addr (k.proc p).pagetable k.phys = .ok vm)

include h hram hH hwf hun

theorem Kernel.Iso.unmapRegion
    (hfree : doFree = true → ((k.proc p).mmr i).isPrivate = true ∨ k.Link p p i) :
    (k.setVm p vm).Iso H ∧ ∀ u ∈ ((k.proc p).mmr i).pages, vm.1.user u = none := by
  have haddr : ((k.proc p).mmr i).addr = vpn ((k.proc p).mmr i).addr * pgsize :=
    (Nat.div_mul_cancel (Nat.dvd_of_mod_eq_zero hwf.addr)).symm
  rw [haddr] at hun
  obtain ⟨pt', ph'⟩ := vm
  obtain ⟨hacct, -, hleaf⟩ := unmapLoop_eq_ok hun
  rw [← haddr] at hacct hleaf
  change ∀ u < nvpn, pt'.leaf u = if u ∈ (k.proc p).pagetable.touched ((k.proc p).mmr i).pages
    then none else _ at hleaf
  constructor
  · have ha : Acct (k.proc p).pagetable k.phys ((k.setVm p (pt', ph')).proc p).pagetable
        (k.setVm p (pt', ph')).phys [] ((k.proc p).pagetable.frames
          (if doFree then (k.proc p).pagetable.touched ((k.proc p).mmr i).pages else [])) := by
      simp only [proc_setVm_self]
      cases doFree <;> exact hacct
    refine h.of_removed (p := p) hram (fun q hq => proc_setVm_of_ne _ hq _) (by simp)
      (by simp) (by simp) ha ?_ ?_ ?_ ?_
    · split
      · exact List.Nodup.filter _ nodup_range'
      · exact .nil
    · intro u hu
      split at hu
      · obtain ⟨hpage, w, hw⟩ := mem_touched.1 hu
        have hlt := hwf.lt_trapframe hpage
        have htop := trapframeVpn_lt
        have htramp : trampolineVpn = trapframeVpn + 1 := by decide
        exact ⟨_, by omega, by omega, by omega, w, (user_eq_some.1 hw).2.1, rfl⟩
      · cases hu
    · intro u hu q hs
      split at hu
      · obtain ⟨j, hpair, ho, -⟩ := hs
        have hpage := (mem_touched.1 hu).1
        obtain rfl := ho.only i hH hpage
        rcases hfree ‹_› with hpriv | hl
        · rw [hpair.notPrivate] at hpriv
          cases hpriv
        · exact hl.not_paired hpair
      · cases hu
    · intro u hu
      simp only [proc_setVm_self]
      rw [hleaf u hu]
      by_cases hmem : u ∈ (k.proc p).pagetable.touched ((k.proc p).mmr i).pages
      · rw [if_pos hmem]
        exact .inl rfl
      · rw [if_neg hmem]
        refine .inr ⟨fun hin => ?_, rfl⟩
        split at hin
        · exact hmem hin
        · cases hin
  · intro u hu
    have hlt := (hwf.lt_trapframe hu).trans trapframeVpn_lt
    have := hleaf u hlt
    by_cases hmem : u ∈ (k.proc p).pagetable.touched ((k.proc p).mmr i).pages
    · rw [if_pos hmem] at this
      exact user_eq_none_of_leaf this
    · rw [if_neg hmem] at this
      rw [user_congr this]
      by_contra hsome
      obtain ⟨w, hw⟩ := Option.ne_none_iff_exists'.1 hsome
      exact hmem (mem_touched.2 ⟨hu, w, hw⟩)

theorem Kernel.Iso.leave {r : Mmr} {k₁ : Kernel} (hr : r.family = ((k.proc p).mmr i).family)
    (hpriv : r.isPrivate = ((k.proc p).mmr i).isPrivate)
    (hrel : Released (k.setMmr p i r) p i doFree k₁) :
    (k₁.setVm p vm).Iso fun s j => H s j ∧ ¬ (s = p ∧ j = i) := by
  have hself : (k.setMmr p i r).proc p =
      { k.proc p with mmr := update (k.proc p).mmr i r } := proc_setProc_self _ _ _
  have hself_i : ((k.setMmr p i r).proc p).mmr i = r := by
    rw [hself]
    exact update_self ..
  have hlink : ∀ {s}, k.Link p s i → (k.setMmr p i r).Link p s i := by
    intro s hl
    rw [Kernel.Link, Kernel.node, hself_i, hr]
    exact hl
  -- entry `i` has changed and the pages are gone
  have hothers : ∀ q, q ≠ p → ((k.setMmr p i r).setVm p vm).proc q = (k.setVm p vm).proc q := by
    intro q hq
    rw [proc_setVm_of_ne _ hq, proc_setVm_of_ne _ hq]
    exact proc_setProc_of_ne _ hq _
  have hmmr : (((k.setMmr p i r).setVm p vm).proc p).mmr =
      update ((k.setVm p vm).proc p).mmr i r := by
    rw [proc_setVm_self, proc_setVm_self, hself]
  have hpages : ((k.setVm p vm).proc p).mmr i = (k.proc p).mmr i := by
    rw [proc_setVm_self]
  have hpaired : ∀ {s}, (k.setVm p vm).Paired H p s i ↔ k.Paired H p s i := by
    intro s
    have hsame : ∀ t, ((k.setVm p vm).proc t).mmr = (k.proc t).mmr := by
      intro t
      by_cases ht : t = p
      · subst ht
        rw [proc_setVm_self]
      · rw [proc_setVm_of_ne _ ht]
    exact ⟨fun hp => hp.transfer hp.left hp.right (by rw [hsame]) (by rw [hsame]),
      fun hp => hp.transfer hp.left hp.right (by rw [hsame]) (by rw [hsame])⟩
  have hfinish : ∀ {k₂ : Kernel}, (k.setVm p vm).Detached k₂ H p i →
      (doFree = true → ((k.proc p).mmr i).isPrivate = true ∨ k.Link p p i) →
      k₂.Iso fun s j => H s j ∧ ¬ (s = p ∧ j = i) := by
    intro k₂ hd hfree
    obtain ⟨hk₁, hnone⟩ := h.unmapRegion hram hH hwf hun hfree
    refine hk₁.detach hd fun _ u hu => ?_
    rw [hpages] at hu
    rw [proc_setVm_self]
    exact hnone u hu
  have hsingle : ∀ {k₂ : Kernel}, k₂.proc = ((k.setMmr p i r).setVm p vm).proc →
      k₂.phys.freelist = vm.2.freelist → (∀ s, ¬ k.Paired H p s i) →
      (k.setVm p vm).Detached k₂ H p i := by
    intro k₂ hk₂ hfree hno
    exact detached_single (fun q hq => by rw [hk₂]; exact hothers q hq)
      (by rw [hk₂]; simp [hself]) (by rw [hk₂]; simp) (by rw [hk₂]; simp [hself])
      (by rw [hk₂]; exact hmmr) hfree fun s hp => hno s (hpaired.1 hp)
  cases hrel with
  | own hp =>
    rw [hself_i, hpriv] at hp
    refine hfinish (hsingle rfl rfl fun s hpair => ?_) fun _ => .inl hp
    rw [hpair.notPrivate] at hp
    cases hp
  | left hp hleave =>
    rw [hself_i, hpriv] at hp
    rcases h.family p i hH hp with hl | ⟨s, hpair⟩
    · obtain ⟨-, hk₁⟩ := leaveFamily_single (hlink hl) hleave
      refine hfinish (hsingle ?_ rfl fun s hpair => hl.not_paired hpair) fun _ => .inr hl
      rw [hk₁]
      rfl
    · obtain ⟨rfl, rfl⟩ := leaveFamily_paired hpair.ne (hlink hpair.fore) hleave
      refine hfinish ?_ (by simp)
      rw [relink_setVm hpair.ne]
      exact detached_paired (hpaired.2 hpair) hothers (by simp [hself]) (by simp)
        (by simp [hself]) hmmr rfl

end

theorem Kernel.Relinked.held (h : k.Relinked k') (s j : Nat) : k'.Held s j ↔ k.Held s j := by
  rw [Kernel.Held, (h.procs s).regions j, (h.procs s).fields, Kernel.Held]

theorem Kernel.held_setVm (vm : PageTable × Phys) (s j : Nat) :
    (k.setVm p vm).Held s j ↔ k.Held s j := by
  by_cases hs : s = p
  · rw [Kernel.Held, hs, proc_setVm_self, Kernel.Held]
  · rw [Kernel.Held, proc_setVm_of_ne _ hs, Kernel.Held]

theorem iso_freeRegion (h : k.Iso H) (hram : k.phys.Ram)
    (hH : ((k.proc p).mmr i).valid = true ↔ H p i)
    (hwf : ((k.proc p).mmr i).valid = true → ((k.proc p).mmr i).Wf)
    (hf : freeRegion k p i = .ok k') : k'.Iso fun s j => H s j ∧ ¬ (s = p ∧ j = i) := by
  rcases freeRegion_eq_ok hf with ⟨hv, rfl⟩ | ⟨hv, doFree, k₁, vm, hrel, hun, rfl⟩
  · refine h.congr fun s j => ⟨And.left, fun hs => ⟨hs, ?_⟩⟩
    rintro ⟨rfl, rfl⟩
    rw [hH.2 hs] at hv
    cases hv
  · refine h.leave hram (hH.1 hv) (hwf hv) hun rfl rfl ?_
    rw [k.setMmr_eq_self p i]
    exact releaseRegion_released hrel

/-- What `munmap` of region `i` leaves with the processes. -/
theorem held_dropRegion {k₁ : Kernel} (hlive : (k.proc p).state ≠ .unused)
    (hdrop : dropRegion (k.invalidate p i) p i = .ok (doFree, k₁)) (vm : PageTable × Phys)
    (s j : Nat) : (k₁.setVm p vm).Held s j ↔ k.Held s j ∧ ¬ (s = p ∧ j = i) := by
  have hself : (k.invalidate p i).proc p = { k.proc p with
      mmr := update (k.proc p).mmr i { (k.proc p).mmr i with valid := false } } :=
    proc_setProc_self _ _ _
  have hothers : ∀ q, q ≠ p → (k.invalidate p i).proc q = k.proc q := fun q hq =>
    proc_setProc_of_ne _ hq _
  rw [held_setVm, (relinked_dropRegion hdrop).held,
    held_setEntry hothers hlive (by rw [hself]) (by rw [hself])]
  simp [and_comm]

theorem iso_munmap {addr length : Nat} {done : Bool} (h : k.Iso k.Held) (hb : k.Basic)
    (hlive : (k.proc p).state ≠ .unused) (hm : munmap k p addr length = .ok (done, k')) :
    k'.Iso k'.Held := by
  rcases munmap_eq_ok hm with ⟨-, -, rfl⟩ | ⟨i, doFree, k₁, vm, hfind, -, hdrop, hun, rfl⟩
  · exact h
  have hv := (findMmr_eq_some hfind).2.1
  exact (h.leave (r := { (k.proc p).mmr i with valid := false }) hb.ram ⟨hlive, hv⟩
    ((hb.sound p).region i hv).1 hun rfl rfl (dropRegion_released hdrop)).congr
    (held_dropRegion hlive hdrop vm)

theorem freeTrapframe_proc (hf : freeTrapframe k p = .ok k') :
    k'.proc p = { k.proc p with trapframe := none } ∧ ∀ q, q ≠ p → k'.proc q = k.proc q := by
  rw [(freeTrapframe_eq_ok hf).1]
  exact ⟨proc_setProc_self _ _ _, fun q hq => proc_setProc_of_ne _ hq _⟩

/-! ## freeproc -/

theorem iso_freeTrapframe (h : k.Iso H) (hram : k.phys.Ram) (hf : freeTrapframe k p = .ok k') :
    k'.Iso H := by
  obtain ⟨hself, hothers⟩ := freeTrapframe_proc hf
  have hu : Kernel.Frames.Update k k' p [] [] := by
    refine ⟨fun q hq => by rw [hothers q hq], fun q hq => by rw [hothers q hq], fun f => ?_, .nil,
      by simp, by simp, by simp, fun u f hl => .inr (.inl ⟨by simp, hl.congr (by rw [hself])⟩)⟩
    have := (freeTrapframe_eq_ok hf).2 f
    simp only [Proc.base, hself, Option.toList_none, nil_append, count_append]
    omega
  refine h.of_update hram hu (same_of_others hothers (·.mmr) (by rw [hself]))
    (fun s hs => by rw [hothers s hs]) fun q u f hl _ _ =>
      ⟨hl.congr (by rw [hself]), fun hs => ⟨?_, by rw [hself]⟩⟩
  rw [hself]
  exact hs.not_heap

theorem iso_freeRegions {n : Nat} (h : k.Iso H) (hram : k.phys.Ram)
    (hH : ∀ i, ((k.proc p).mmr i).valid = true ↔ H p i)
    (hwf : ∀ i, ((k.proc p).mmr i).valid = true → ((k.proc p).mmr i).Wf)
    (hf : freeRegions k p n = .ok k') : k'.Iso fun s j => H s j ∧ ¬ (s = p ∧ j < n) := by
  induction n generalizing k' with
  | zero =>
    cases hf
    exact h.congr (by simp)
  | succ n ih =>
    obtain ⟨k₁, h₁, hstep⟩ := bind_eq_ok.1 hf
    have hregion : ((k.proc p).mmr n).SameRegion ((k₁.proc p).mmr n) :=
      (pruned_freeRegions h₁).self.regions n
    have hvalid : ((k₁.proc p).mmr n).valid = ((k.proc p).mmr n).valid := by rw [hregion]
    refine (iso_freeRegion (ih h₁) (ram_freeRegions hram h₁) ?_ ?_ hstep).congr fun s j => ?_
    · rw [hvalid, hH]
      simp
    · rw [hvalid]
      exact fun hv => hregion.wf (hwf n hv)
    · rw [and_assoc, ← not_or, ← and_or_left, Nat.lt_succ_iff_lt_or_eq]

theorem freeTable_eq_ok {ph : Phys} (hsz : (k.proc p).sz ≤ maxva) (h : freeTable k p = .ok ph) :
    ∃ n ≤ npages (k.proc p).sz,
      (∀ f, ph.freelist.count f = k.phys.freelist.count f +
        ((k.proc p).pagetable.frames (List.range' 0 n)).count f +
        (k.proc p).pagetable.pages.count f) ∧
      ∀ u < n, u < trapframeVpn ∧ ∃ w, (k.proc p).pagetable.leaf u = some w := by
  unfold freeTable at h
  split at h
  · rename_i hnull
    cases h
    refine ⟨0, Nat.zero_le _, fun f => ?_, fun u hu => absurd hu u.not_lt_zero⟩
    cases hpt : (k.proc p).pagetable with
    | absent => simp [PageTable.frames, PageTable.pages, Radix.Table.pages]
    | dir frame sub =>
      rw [hpt] at hnull
      cases hnull
  · obtain ⟨hcount, hheap, -⟩ := procFreepagetable_eq_ok hsz h
    exact ⟨_, le_rfl, hcount, fun u hu => ⟨(hheap u hu).1, (hheap u hu).2.imp fun _ => And.left⟩⟩

theorem leaf_absent (u : Nat) : PageTable.leaf .absent u = none := by
  have hzero : has 0 pteV = false := by decide
  rw [leaf_eq_none]
  exact hzero

theorem held_freeproc (hb : k.Basic) (hf : freeproc k p = .ok k') (s j : Nat) :
    k'.Held s j ↔ k.Held s j ∧ ¬ (s = p ∧ j < maxMmr) := by
  obtain ⟨hapart, hclear⟩ := freeproc_cleared hf
  by_cases hs : s = p
  · subst hs
    simp only [Kernel.Held, hclear.state, ne_eq, not_true_eq_false, false_and, true_and,
      false_iff, not_and, not_not]
    exact fun hh => (hb.sound s).index j hh.2
  · have hsame := hapart.others s hs
    rw [Kernel.Held, hsame.regions j, ne_eq, hsame.live, Kernel.Held]
    simp [hs]

theorem iso_freeproc (h : k.Iso k.Held) (hb : k.Basic) (hlive : (k.proc p).state ≠ .unused)
    (hf : freeproc k p = .ok k') : k'.Iso k'.Held := by
  have hheld := held_freeproc hb hf
  obtain ⟨k₁, k₂, ph, htf, hreg, htab, rfl⟩ := freeproc_eq_ok hf
  obtain ⟨hself₁, -⟩ := freeTrapframe_proc htf
  have hram₁ := ram_freeTrapframe hb.ram htf
  have hpr := pruned_freeRegions hreg
  have hp := hb.sound p
  -- the trapframe and the regions
  have h₂ : k₂.Iso fun s j => k.Held s j ∧ ¬ (s = p ∧ j < maxMmr) := by
    refine iso_freeRegions (iso_freeTrapframe h hb.ram htf) hram₁ (fun i => ?_) (fun i hv => ?_) hreg
    · rw [hself₁]
      exact ⟨fun hv => ⟨hlive, hv⟩, And.right⟩
    · rw [hself₁] at hv ⊢
      exact (hp.region i hv).1
  have hfields := hpr.self.fields
  have hsz : (k₂.proc p).sz = (k.proc p).sz := by rw [hfields, hself₁]
  have htf₂ : (k₂.proc p).trapframe = none := by rw [hfields, hself₁]
  -- the heap and the pages of the table
  obtain ⟨n, hn, hcount, hheap⟩ := freeTable_eq_ok
    (hsz ▸ hp.sz.trans trapframe_le_maxva) htab
  generalize hk' : ({ k₂.setProc p { k₂.proc p with
    pagetable := .absent, sz := 0, pid := 0, parent := none, killed := false, xstate := 0,
    state := .unused } with phys := ph } : Kernel) = k'
  have hself : k'.proc p = { k₂.proc p with
      pagetable := .absent, sz := 0, pid := 0, parent := none, killed := false, xstate := 0,
      state := .unused } := by
    rw [← hk']
    exact proc_setProc_self _ _ _
  have hothers : ∀ q, q ≠ p → k'.proc q = k₂.proc q := by
    intro q hq
    rw [← hk']
    exact proc_setProc_of_ne _ hq _
  have hnone : ∀ u f, ¬ (k'.proc p).LeafAt u f := by
    rintro u f ⟨-, -, -, w, hw, -⟩
    rw [hself] at hw
    rw [leaf_absent] at hw
    cases hw
  have htramp : trampolineVpn = trapframeVpn + 1 := by decide
  have htop := trapframeVpn_lt
  have hmapped : ∀ u ∈ List.range' 0 n, ∃ f, (k₂.proc p).LeafAt u f := by
    intro u hu
    rw [mem_range'] at hu
    obtain ⟨hlt, w, hw⟩ := hheap u (by omega)
    exact ⟨_, by omega, by omega, by omega, w, hw, rfl⟩
  have hu : Kernel.Frames.Update k₂ k' p (List.range' 0 n) [] := by
    refine ⟨fun q hq => by rw [hothers q hq], fun q hq => by rw [hothers q hq], fun f => ?_,
      nodup_range', hmapped, fun u hu q u' f hq hl hl' => ?_, by simp,
      fun u f hl => absurd hl (hnone u f)⟩
    · have := hcount f
      rw [← hk']
      simp only [Proc.base, proc_setProc_self, htf₂, Option.toList_none, nil_append,
        PageTable.frames, map_nil, count_nil, PageTable.pages, Radix.Table.pages]
      simp only [PageTable.frames, PageTable.pages] at this
      omega
    · obtain ⟨rfl, hs⟩ := h₂.frames.shared p q u u' f (fun he => hq he.symm) hl hl'
      rw [mem_range'] at hu
      have := hs.not_heap
      omega
  exact (h₂.of_update (ram_freeRegions hram₁ hreg) hu
    (same_of_others hothers (·.mmr) (by rw [hself])) (fun s hs => by rw [hothers s hs])
    fun q u f hl => absurd hl (hnone u f)).congr (hk' ▸ hheld)

end

end Xv6
