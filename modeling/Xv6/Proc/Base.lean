/-
What holds in every state the kernel can reach, whatever the processes do: free pages are pages
of RAM, regions lie on page boundaries below the trapframe, and every process in use has its
trampoline and trapframe mapped, out of reach of the user.
-/
import Xv6.Proc.Ram

namespace Xv6

open Function Kernel PageTable List
open Run (bind_eq_ok)

variable {es : List Event} {r : Mmr} {addr c m np perm : Nat}

variable {done store : Bool} {k k' : Kernel} {flags i length n p prot sz u v va : Nat}
  {vm : PageTable × Phys} {ph ph' : Phys} {x y : Proc}

/-! ## Regions -/

/-- The extent of a region: whole pages, below the trapframe. -/
structure Mmr.Wf (r : Mmr) : Prop where
  addr : r.addr % pgsize = 0
  len : r.length % pgsize = 0
  pos : 0 < r.length
  small : r.length < 2 ^ 31
  below : r.addr + r.length ≤ trapframe

namespace Mmr

theorem SameRegion.wf {r' : Mmr} (h : r.SameRegion r') (hw : r.Wf) : r'.Wf := by
  rw [h]
  exact ⟨hw.addr, hw.len, hw.pos, hw.small, hw.below⟩

variable {r : Mmr}

theorem Wf.stop (h : r.Wf) : r.stop = r.addr + r.length := by
  have hmax : trapframe < 2 ^ 64 := by decide
  have := h.below
  rw [Mmr.stop, sext_of_lt h.small, word_of_lt (by omega)]

theorem Wf.mem_pages (h : r.Wf) :
    v ∈ r.pages ↔ r.addr ≤ v * pgsize ∧ v * pgsize < r.addr + r.length := by
  have ha := h.addr
  have hp := h.pos
  rw [pages, mem_range', h.stop, pageCount, if_pos (by omega)]
  unfold vpn pgsize at *
  omega

theorem Wf.lt_trapframe (h : r.Wf) (hv : v ∈ r.pages) : v < trapframeVpn := by
  have hlt := ((h.mem_pages).1 hv).2
  have hb := h.below
  exact Nat.lt_of_mul_lt_mul_right (lt_of_lt_of_le hlt hb)

theorem Wf.vpn_mem (h : r.Wf) (h1 : r.addr ≤ va) (h2 : va < r.stop) : vpn va ∈ r.pages := by
  have ha := h.addr
  rw [h.stop] at h2
  rw [h.mem_pages]
  unfold vpn pgsize at *
  omega

end Mmr

/-! ## Processes -/

/-- The trampoline and the trapframe page are mapped, not for the user. -/
structure PageTable.Fixed (pt : PageTable) (tf : Option Nat) : Prop where
  root : pt.isNull = false
  trampoline : pt.leaf trampolineVpn = some (leafWord trampolineCode (pteR ||| pteX))
  trapframe : ∃ f, tf = some f ∧ pt.leaf trapframeVpn = some (leafWord f (pteR ||| pteW))

/-- The regions of a process, valid ones with their origin below `n`, and the end of the space
that `mmap` takes from. -/
structure Proc.Placed (x : Proc) (n : Nat) : Prop where
  addr : ∀ i, (x.mmr i).addr % pgsize = 0
  index : ∀ i, (x.mmr i).valid = true → i < maxMmr
  region : ∀ i, (x.mmr i).valid = true → (x.mmr i).Wf ∧ (x.mmr i).origin < n
  curMax : x.curMax % pgsize = 0 ∧ x.curMax ≤ Xv6.trapframe

structure Proc.Sound (x : Proc) (n : Nat) : Prop extends x.Placed n where
  sz : x.sz ≤ Xv6.trapframe
  unused : x.state = .unused → x.pagetable = .absent ∧ x.trapframe = none ∧ x.sz = 0
  fixed : x.state ≠ .unused → x.pagetable.Fixed x.trapframe

structure Kernel.Basic (k : Kernel) : Prop where
  ram : k.phys.Ram
  sound : ∀ p, (k.proc p).Sound k.origins

theorem Proc.Placed.mono (h : x.Placed n) (hnm : n ≤ m) : x.Placed m :=
  { h with region := fun i hi => ⟨(h.region i hi).1, (h.region i hi).2.trans_le hnm⟩ }

theorem Proc.Sound.mono (h : x.Sound n) (hnm : n ≤ m) : x.Sound m :=
  { h with toPlaced := h.toPlaced.mono hnm }

theorem Proc.Placed.of_sameRegions (h : x.Placed n) (hr : ∀ i, (x.mmr i).SameRegion (y.mmr i))
    (hc : y.curMax = x.curMax) : y.Placed n := by
  refine ⟨fun i => ?_, fun i hi => ?_, fun i hi => ?_, hc ▸ h.curMax⟩
  · rw [hr i]
    exact h.addr i
  · rw [hr i] at hi
    exact h.index i hi
  · have hv : (x.mmr i).valid = true := by
      rw [hr i] at hi
      exact hi
    refine ⟨(hr i).wf (h.region i hv).1, ?_⟩
    rw [hr i]
    exact (h.region i hv).2

theorem Proc.Sound.of_sameSpace (h : x.Sound n) (hs : x.SameSpace y) : y.Sound n := by
  refine ⟨h.toPlaced.of_sameRegions hs.regions hs.curMax, ?_, fun hu => ?_, fun hu => ?_⟩
  · rw [hs.sz]
    exact h.sz
  · rw [hs.table, hs.trapframe, hs.sz]
    exact h.unused (hs.live.1 hu)
  · rw [hs.table, hs.trapframe]
    exact h.fixed (fun he => hu (hs.live.2 he))

theorem Kernel.Basic.of_apart (h : k.Basic) (hap : k.Apart c k') (hram : k'.phys.Ram)
    (hc : (k'.proc c).Sound k.origins) : k'.Basic := by
  refine ⟨hram, fun p => ?_⟩
  rw [hap.origins]
  by_cases hp : p = c
  · rw [hp]
    exact hc
  · exact (h.sound p).of_sameSpace (hap.others p hp)

theorem Kernel.Basic.of_quiet (h : k.Basic) (hq : k.Quiet k') : k'.Basic := by
  refine ⟨h.ram.of_freelist hq.freelist, fun p => ?_⟩
  rw [hq.origins]
  exact (h.sound p).of_sameSpace (hq.procs p)

/-! ## Page tables keep what is fixed -/

theorem trampolineVpn_lt : trampolineVpn < nvpn := by decide
theorem trapframeVpn_lt : trapframeVpn < nvpn := by decide

theorem leafWord_not_user (f : Nat) (hp : has (sext perm) pteU = false) :
    has (leafWord f perm) pteU = false := by
  rw [leafWord, has_or, has_or, has_pa2pte _ (by decide), hp]
  decide

namespace PageTable.Fixed

variable {pt pt' : PageTable} {tf : Option Nat}

theorem of_leaf (h : pt.Fixed tf) (hroot : pt'.isNull = false)
    (hleaf : ∀ u, u = trampolineVpn ∨ u = trapframeVpn → pt'.leaf u = pt.leaf u) :
    pt'.Fixed tf := by
  obtain ⟨f, htf, hf⟩ := h.trapframe
  exact ⟨hroot, (hleaf _ (.inl rfl)).trans h.trampoline, f, htf, (hleaf _ (.inr rfl)).trans hf⟩

theorem mapped (h : pt.Fixed tf) (hu : u = trampolineVpn ∨ u = trapframeVpn) :
    pt.leaf u ≠ none := by
  rcases hu with rfl | rfl
  · rw [h.trampoline]
    simp
  · obtain ⟨f, -, hf⟩ := h.trapframe
    rw [hf]
    simp

theorem user_eq_none (h : pt.Fixed tf) (hu : u = trampolineVpn ∨ u = trapframeVpn) :
    pt.user u = none := by
  rw [Option.eq_none_iff_forall_ne_some]
  intro w hw
  obtain ⟨-, hleaf, huser, -⟩ := user_eq_some.1 hw
  rcases hu with rfl | rfl
  · rw [h.trampoline] at hleaf
    cases hleaf
    cases huser
  · obtain ⟨f, -, hf⟩ := h.trapframe
    rw [hf] at hleaf
    cases hleaf
    rw [leafWord_not_user _ (by decide)] at huser
    cases huser

theorem of_procPagetable {f : Nat} (h : procPagetable ph f = .ok (pt, ph'))
    (hroot : pt.isNull = false) : pt.Fixed (some f) := by
  have hleaf := ((procPagetable_eq_ok h).2 hroot).2
  refine ⟨hroot, ?_, f, rfl, ?_⟩
  · rw [hleaf _ trampolineVpn_lt, if_pos rfl]
  · rw [hleaf _ trapframeVpn_lt, if_neg (by decide), if_pos rfl]

theorem of_filled {fresh lent : List Nat} {perm word : Nat → Nat} (h : pt.Fixed tf)
    (hf : Filled pt ph fresh perm lent word pt' ph') : pt'.Fixed tf := by
  refine h.of_leaf (hf.acct.null.trans h.root) fun u hu => ?_
  refine hf.other u ?_ (fun hmem => ?_) (fun hmem => ?_)
  · rcases hu with rfl | rfl <;> decide
  · exact h.mapped hu (hf.unmapped u (.inl hmem)).2
  · exact h.mapped hu (hf.unmapped u (.inr hmem)).2

theorem of_unmapLoop {doFree : Bool} (h : pt.Fixed tf)
    (hu : unmapLoop doFree n (v * pgsize) pt ph = .ok (pt', ph')) : pt'.Fixed tf := by
  obtain ⟨hacct, -, hleaf⟩ := unmapLoop_eq_ok hu
  refine h.of_leaf (hacct.null.trans h.root) fun u hu => ?_
  rw [hleaf u (by rcases hu with rfl | rfl <;> decide), if_neg]
  intro hmem
  obtain ⟨-, w, hw⟩ := mem_touched.1 hmem
  rw [h.user_eq_none hu] at hw
  cases hw

theorem of_mappages {pa : Nat} {ok : Bool} (h : pt.Fixed tf) (hv : v * pgsize + pgsize ≤ 2 ^ 64)
    (hm : mappages pt ph (v * pgsize) pgsize pa perm = .ok (ok, pt', ph')) : pt'.Fixed tf := by
  obtain ⟨-, -, hacct, -, hfalse⟩ := mappages_page (Nat.mul_mod_left _ _) hv hm
  refine h.of_leaf (hacct.null.trans h.root) fun u hu => ?_
  cases ok with
  | false => exact leaf_congr ((hfalse rfl).2 u)
  | true =>
    obtain ⟨-, -, hnone, hleaf⟩ := mappages_leaf hv hm
    rw [hleaf u (by rcases hu with rfl | rfl <;> decide), if_neg]
    intro huv
    exact h.mapped hu (huv ▸ hnone)

theorem npages_le (h : pt.Fixed tf) (hn : ∀ u < npages sz, pt.leaf u = none) :
    npages sz ≤ trapframeVpn := by
  by_contra hlt
  exact h.mapped (.inr rfl) (hn trapframeVpn (by omega))

end PageTable.Fixed

theorem sz_le_of_npages (h : npages sz ≤ trapframeVpn) : sz ≤ trapframe := by
  exact (le_npages_mul sz).trans (Nat.mul_le_mul_right _ h)

theorem npages_le_of_sz (h : sz ≤ trapframe) : npages sz ≤ trapframeVpn := by
  have := npages_mono h
  rwa [trapframe_eq] at this

theorem trapframe_le_maxva : trapframe ≤ maxva := by decide

/-! ## The calls -/

theorem mapvCount_eq {start len : Nat} (hs : start % pgsize = 0) (hstart : start < maxva)
    (hl : len % pgsize = 0) (hlt : len < 2 ^ 32) (hpos : sext len ≠ 0)
    (hroom : start + mapvCount start (sext len) * pgsize < maxva) :
    0 < len ∧ len < 2 ^ 31 ∧ mapvCount start (sext len) + 1 = len / pgsize := by
  unfold mapvCount pagesTo wsub pgrounddown word maxva pgsize at *
  have h0 : len ≠ 0 := by
    rintro rfl
    exact hpos (by decide)
  by_cases hsmall : len < 2 ^ 31
  · rw [sext_of_lt hsmall] at hroom ⊢
    omega
  · exfalso
    have hsext : sext len = len + (2 ^ 64 - 2 ^ 32) := by
      unfold sext
      rw [Nat.mod_eq_of_lt hlt, if_neg hsmall]
    omega

theorem newMmr_addr (k : Kernel) (p i length prot flags : Nat) :
    (newMmr k p i length prot flags).addr % pgsize = 0 := pgrounddown_mod _

theorem newMmr_length (hc : (k.proc p).curMax % pgsize = 0) (i length prot flags : Nat) :
    (newMmr k p i length prot flags).length % pgsize = 0 ∧
      (newMmr k p i length prot flags).length < 2 ^ 32 := by
  unfold newMmr
  dsimp only
  generalize hs : pgrounddown (wsub (k.proc p).curMax length) = start
  have hstart : start % pgsize = 0 := hs ▸ pgrounddown_mod _
  unfold wsub word pgsize at *
  omega

section

variable (hs : (k.proc p).Placed k.origins) (hf : (k.proc p).pagetable.Fixed (k.proc p).trapframe)
  (h : mapvpages (k.proc p).pagetable k.phys (newMmr k p i length prot flags).addr (sext (newMmr k p i length prot flags).length) = .ok (true, vm))

include hs hf h

theorem newMmr_wf : (newMmr k p i length prot flags).Wf := by
  have haddr := newMmr_addr k p i length prot flags
  obtain ⟨hlen, hlt32⟩ := newMmr_length hs.curMax.1 i length prot flags
  obtain ⟨hsize, hva, -, -, -, hok⟩ := mapvpages_eq_ok haddr h
  obtain ⟨hroom, hnone⟩ := hok rfl
  obtain ⟨hpos, hsmall, hcount⟩ := mapvCount_eq haddr hva hlen hlt32 hsize hroom
  refine ⟨haddr, hlen, hpos, hsmall, ?_⟩
  generalize newMmr k p i length prot flags = r at *
  -- the pages are not mapped, so the two at the top are not among them
  have hfree : ∀ u, u = trampolineVpn ∨ u = trapframeVpn →
      ¬ (vpn r.addr ≤ u ∧ u < vpn r.addr + r.length / pgsize) := by
    intro u hu ⟨h1, h2⟩
    have := hnone (u - vpn r.addr) (by omega)
    rw [show vpn r.addr + (u - vpn r.addr) = u by omega] at this
    exact hf.mapped hu this
  have h1 := hfree _ (.inl rfl)
  have h2 := hfree _ (.inr rfl)
  have htop : trampolineVpn = trapframeVpn + 1 := by decide
  have hmax : maxva = (trapframeVpn + 2) * pgsize := by decide
  rw [trapframe_eq]
  unfold vpn pgsize at *
  omega

theorem newMmr_page (hu : u ∈ (newMmr k p i length prot flags).pages) :
    ∃ j ≤ mapvCount (newMmr k p i length prot flags).addr
      (sext (newMmr k p i length prot flags).length),
      vpn (newMmr k p i length prot flags).addr + j = u := by
  have haddr := newMmr_addr k p i length prot flags
  obtain ⟨hlen, hlt32⟩ := newMmr_length hs.curMax.1 i length prot flags
  have hwf := newMmr_wf hs hf h
  obtain ⟨hsize, hva, -, -, -, hok⟩ := mapvpages_eq_ok haddr h
  obtain ⟨-, -, hcount⟩ := mapvCount_eq haddr hva hlen hlt32 hsize (hok rfl).1
  obtain ⟨h1, h2⟩ := hwf.mem_pages.1 hu
  generalize newMmr k p i length prot flags = r at *
  refine ⟨u - vpn r.addr, ?_, ?_⟩ <;> unfold vpn pgsize at * <;> omega

theorem newMmr_unmapped (hu : u ∈ (newMmr k p i length prot flags).pages) :
    (k.proc p).pagetable.leaf u = none := by
  obtain ⟨j, hj, rfl⟩ := newMmr_page hs hf h hu
  obtain ⟨-, -, -, -, -, hok⟩ := mapvpages_eq_ok (newMmr_addr k p i length prot flags) h
  exact (hok rfl).2 j hj

end

theorem Proc.Placed.setMmr (h : x.Placed n) (hi : i < maxMmr) (ha : r.addr % pgsize = 0)
    (hr : r.valid = true → r.Wf ∧ r.origin < n) :
    Proc.Placed { x with mmr := update x.mmr i r } n := by
  refine ⟨fun j => ?_, fun j hj => ?_, fun j hj => ?_, h.curMax⟩
  · by_cases hji : j = i
    · rw [hji]
      simpa using ha
    · simpa [update_of_ne hji] using h.addr j
  · by_cases hji : j = i
    · rw [hji]
      exact hi
    · simp only [update_of_ne hji] at hj
      exact h.index j hj
  · by_cases hji : j = i
    · rw [hji] at hj ⊢
      simp only [update_self] at hj ⊢
      exact hr hj
    · simp only [update_of_ne hji] at hj ⊢
      exact h.region j hj

section

variable (h : k.Basic) (hlive : (k.proc p).state ≠ .unused)

include h hlive

theorem basic_mmap {res : Option Nat} (hm : sysMmap k p length prot flags = .ok (res, k')) :
    k'.Basic := by
  rcases sysMmap_eq_ok hm with ⟨-, -, rfl⟩ | ⟨i, r, ok, vm, hfree, rfl, hmap, hfalse, htrue⟩
  · exact h
  have hp := (h.sound p).mono k.origins.le_succ
  have hi := (freeMmr_eq_some hfree).1
  have hfix := hp.fixed hlive
  have haddr := newMmr_addr k p i length prot flags
  obtain ⟨-, -, hnull, hacct, hentry, -⟩ := mapvpages_eq_ok haddr hmap
  have hfix' : vm.1.Fixed (k.proc p).trapframe :=
    hfix.of_leaf (hacct.null.trans hnull) fun u _ => leaf_congr (hentry u)
  have hram := h.ram.mapvpages hmap
  have hrest : ∀ {e}, k.Mapped k' p i e vm → (k'.proc p).Sound (k.origins + 1) → k'.Basic := by
    intro e hmd hsound
    refine ⟨hmd.phys ▸ hram, fun q => ?_⟩
    rw [hmd.origins]
    by_cases hq : q = p
    · exact hq ▸ hsound
    · rw [hmd.others q hq]
      exact (h.sound q).mono k.origins.le_succ
  cases ok with
  | false =>
    obtain ⟨-, rfl⟩ := hfalse rfl
    refine hrest (k.mapped_mapFailed ..) ?_
    rw [Kernel.mapFailed, proc_setProc_self]
    have hplaced := hp.toPlaced.setMmr hi
      (r := { newMmr k p i length prot flags with valid := false }) haddr (by simp)
    exact ⟨⟨hplaced.addr, hplaced.index, hplaced.region, hplaced.curMax⟩, hp.sz, fun hu => absurd hu hlive,
      fun _ => hfix'⟩
  | true =>
    obtain ⟨-, id, l, rfl, -⟩ := htrue rfl
    have hwf := newMmr_wf (h.sound p).toPlaced hfix hmap
    refine hrest (k.mapped_mapRegion ..) ?_
    rw [Kernel.mapRegion, proc_setProc_self]
    have hplaced := hp.toPlaced.setMmr hi
      (r := { newMmr k p i length prot flags with
        family := { (newMmr k p i length prot flags).family with listid := id } })
      haddr (fun _ => ⟨⟨hwf.addr, hwf.len, hwf.pos, hwf.small, hwf.below⟩, k.origins.lt_succ_self⟩)
    refine ⟨⟨hplaced.addr, hplaced.index, hplaced.region, haddr, ?_⟩, hp.sz, fun hu => absurd hu hlive,
      fun _ => hfix'⟩
    exact (Nat.le_add_right _ _).trans hwf.below

theorem basic_munmap (hm : munmap k p addr length = .ok (done, k')) : k'.Basic := by
  rcases munmap_eq_ok hm with ⟨-, -, rfl⟩ | ⟨i, doFree, k₁, vm, hfind, -, hdrop, hun, rfl⟩
  · exact h
  have hp := h.sound p
  have hre := relinked_dropRegion hdrop
  have hinv : (k.invalidate p i).proc p = { k.proc p with
      mmr := update (k.proc p).mmr i { (k.proc p).mmr i with valid := false } } :=
    proc_setProc_self ..
  have hfields := (hre.procs p).fields
  rw [hinv] at hfields
  have hstart : ((k.proc p).mmr i).addr = vpn ((k.proc p).mmr i).addr * pgsize :=
    (Nat.div_mul_cancel (Nat.dvd_of_mod_eq_zero (hp.addr i))).symm
  refine h.of_apart (c := p) ?_ (h.ram.unmapLoop hun) ?_
  · exact (apart_setProc rfl rfl rfl).trans
      ((hre.apart p).trans (apart_setVm _ _ _))
  · rw [proc_setVm_self]
    have hplaced := (hp.toPlaced.setMmr (findMmr_eq_some hfind).1
      (r := { (k.proc p).mmr i with valid := false }) (hp.addr i) (by simp))
    rw [← hinv] at hplaced
    have hplaced' := hplaced.of_sameRegions (hre.procs p).regions
      (by rw [(hre.procs p).fields])
    refine ⟨⟨hplaced'.addr, hplaced'.index, hplaced'.region, hplaced'.curMax⟩, ?_, fun hu => ?_, fun _ => ?_⟩
    · rw [hfields]
      exact hp.sz
    · rw [hfields] at hu
      exact absurd hu hlive
    · rw [hfields]
      rw [hstart] at hun
      exact (hp.fixed hlive).of_unmapLoop hun

theorem basic_setVm (hram : vm.2.Ram) (hfix : vm.1.Fixed (k.proc p).trapframe) :
    (k.setVm p vm).Basic := by
  refine h.of_apart (apart_setVm k p vm) hram ?_
  have hp := h.sound p
  rw [proc_setVm_self]
  exact ⟨⟨hp.addr, hp.index, hp.region, hp.curMax⟩, hp.sz, fun hu => absurd hu hlive, fun _ => hfix⟩

theorem basic_resize (hram : vm.2.Ram) (hfix : vm.1.Fixed (k.proc p).trapframe)
    (hsz : sz ≤ trapframe) : (k.resize p sz vm).Basic := by
  refine h.of_apart (c := p) (apart_setProc rfl rfl rfl) hram ?_
  have hp := h.sound p
  rw [Kernel.resize, proc_setProc_self]
  exact ⟨⟨hp.addr, hp.index, hp.region, hp.curMax⟩, hsz, fun hu => absurd hu hlive, fun _ => hfix⟩

theorem basic_growproc (hg : growproc k p n = .ok (done, k')) : k'.Basic := by
  have hp := h.sound p
  have hfix := hp.fixed hlive
  have hle : ∀ x : Nat, x % 2 ^ 32 ≤ trapframe := fun x =>
    (Nat.mod_lt x (by decide)).le.trans (by decide)
  have hmax := (hle (k.proc p).sz).trans trapframe_le_maxva
  rcases growproc_eq_ok hg with ⟨-, rfl⟩ | ⟨-, -, r, vm, halloc, hk'⟩ | ⟨-, r, vm, hdealloc, rfl⟩
  · exact basic_resize h hlive h.ram hfix (hle _)
  · have hfix' : vm.1.Fixed (k.proc p).trapframe := by
      rcases uvmalloc_eq_ok h.ram hmax halloc with ⟨-, -, hpt, -⟩ | ⟨-, -, hfill, -⟩ |
        ⟨-, -, hacct, hleaf⟩
      · exact hpt ▸ hfix
      · exact hfix.of_filled hfill
      · refine hfix.of_leaf (hacct.null.trans hfix.root) fun u hu => hleaf u ?_
        rcases hu with rfl | rfl <;> decide
    have hram := h.ram.uvmalloc halloc
    rw [hk']
    split
    · exact basic_setVm h hlive hram hfix'
    · exact basic_resize h hlive hram hfix' (hle _)
  · obtain ⟨-, hacct, -, hleaf⟩ := uvmdealloc_eq_ok hmax hdealloc
    refine basic_resize h hlive (h.ram.uvmdealloc hdealloc) ?_ (hle _)
    refine hfix.of_leaf (hacct.null.trans hfix.root) fun u hu => ?_
    have hnp := npages_le_of_sz (hle (k.proc p).sz)
    have htop : trampolineVpn = trapframeVpn + 1 := by decide
    rw [hleaf u (by rcases hu with rfl | rfl <;> decide), if_neg (by omega)]

end

theorem Mmr.Serves.lt_maxva (hs : r.Serves store va) (hw : r.Wf) : va < maxva := by
  have h1 := hs.2.1
  rw [hw.stop] at h1
  have h2 := hw.below
  have h3 := trapframe_le_maxva
  omega

section

variable (h : k.Basic) (hlive : (k.proc p).state ≠ .unused)

include h hlive

theorem basic_faultRegion (hf : faultRegion k p i store va = .ok k') :
    k'.Basic ∧ (k'.proc p).state = (k.proc p).state := by
  rcases faultRegion_eq_ok hf with ⟨-, rfl⟩ | ⟨hserve, pa, ph, ok, vm, hk, hmap, rfl⟩
  · exact ⟨h, rfl⟩
  have hram : ph.Ram := by
    cases hal : kalloc k.phys with
    | none =>
      rw [hal] at hk
      cases hk
      exact h.ram
    | some r =>
      rw [hal] at hk
      cases hk
      exact h.ram.kalloc hal
  have hva := hserve.lt_maxva ((h.sound p).region i hserve.2.2.1).1
  have hroom : va / pgsize * pgsize + pgsize ≤ 2 ^ 64 := by
    have hle := Nat.div_mul_le_self va pgsize
    have hmax := maxva_room
    omega
  refine ⟨basic_setVm h hlive (hram.mappages hmap) ?_, ?_⟩
  · exact ((h.sound p).fixed hlive).of_mappages hroom hmap
  · rw [proc_setVm_self]

theorem basic_faultRegions (hf : faultRegions k p store va maxMmr = .ok k') :
    k'.Basic ∧ (k'.proc p).state = (k.proc p).state := by
  refine faultRegions_induction (I := fun x => x.Basic ∧ (x.proc p).state = (k.proc p).state)
    (fun i x x' _ hx hf => ?_) ⟨h, rfl⟩ hf
  have hstep := basic_faultRegion hx.1 (hx.2 ▸ hlive) hf
  exact ⟨hstep.1, hstep.2.trans hx.2⟩

theorem basic_access (ha : usertrapFault k p store va = .ok k') : k'.Basic := by
  obtain ⟨k₁, hfault, hend⟩ := usertrapFault_eq_ok ha
  have h₁ := basic_faultRegions h hlive hfault
  rcases hend with rfl | hexit
  · exact h₁.1
  · exact h₁.1.of_quiet (exit_eq_ok (h₁.2 ▸ hlive) hexit).1

end

theorem Proc.Cleared.sound (h : x.Cleared y) (hx : x.Placed n) : y.Sound n := by
  refine ⟨hx.of_sameRegions h.regions h.curMax, ?_, fun _ => ⟨h.table, h.trapframe, h.sz⟩,
    fun hu => absurd h.state hu⟩
  rw [h.sz]
  exact Nat.zero_le _

theorem basic_freeproc (h : k.Basic) (hf : freeproc k c = .ok k') : k'.Basic := by
  obtain ⟨hapart, hclear⟩ := freeproc_cleared hf
  exact h.of_apart hapart (ram_freeproc h.ram hf) (hclear.sound (h.sound c).toPlaced)

theorem basic_wait (h : k.Basic) (hw : wait k p addr = .ok k') : k'.Basic := by
  obtain ⟨ph, hfree, hend⟩ := wait_eq_ok hw
  have h₁ := h.of_quiet (k.quiet_phys hfree)
  rcases hend with rfl | ⟨c, -, -, -, hc⟩
  · exact h₁
  · exact basic_freeproc h₁ hc

theorem Forked.apart (h : Forked k k' p np) (hne : p ≠ np) : k.Apart np k' := by
  refine ⟨fun q hq => ?_, h.initproc, h.origins⟩
  by_cases hqp : q = p
  · subst hqp
    rw [h.parent]
    refine ⟨Iff.rfl, rfl, rfl, rfl, rfl, fun i => ?_⟩
    dsimp only
    split
    · exact Mmr.sameRegion_lent _ _ _ _
    · rfl
  · rw [h.others q hqp hq]
    exact .refl _

theorem Forked.sameRegions (h : Forked k k' p np) (i : Nat) :
    ((k.proc p).mmr i).SameRegion ((k'.proc np).mmr i) := by
  rw [h.mmr i]
  split
  · exact Mmr.sameRegion_inherited _ _ _ _
  · rfl

theorem basic_fork {r : Int} (h : k.Basic) (hlive : (k.proc p).state ≠ .unused)
    (hf : fork k p = .ok (r, k')) : k'.Basic := by
  have hram := ram_fork hlive h.ram hf
  rcases fork_eq_ok hlive h.ram (h.sound p).addr hf with ⟨-, rfl | ⟨c, x, -, hapart, hclear, hx⟩⟩ |
    ⟨np, -, hforked⟩
  · exact h
  · refine h.of_apart hapart hram (hclear.sound ?_)
    rcases hx with ⟨hregions, hmax⟩ | ⟨hregions, hmax⟩
    · exact (h.sound c).toPlaced.of_sameRegions hregions hmax
    · exact (h.sound p).toPlaced.of_sameRegions hregions hmax
  · have hne : p ≠ np := fun he => hlive (he ▸ (freeSlot_eq_some hforked.slot).2)
    obtain ⟨tf, ph, pt₀, ph₀, -, htf, hpt, hroot, hfill⟩ := hforked.table
    have hfix := (PageTable.Fixed.of_procPagetable hpt hroot).of_filled hfill
    refine h.of_apart (hforked.apart hne) hram ?_
    refine ⟨(h.sound p).toPlaced.of_sameRegions hforked.sameRegions hforked.curMax, ?_,
      fun hu => ?_, fun _ => ?_⟩
    · rw [hforked.sz]
      exact (h.sound p).sz
    · rw [hforked.state] at hu
      cases hu
    · rw [htf]
      exact hfix

theorem basic_exec {file : Option (List UInt8)} {argv : List (List UInt8)} (h : k.Basic)
    (hlive : (k.proc p).state ≠ .unused) (he : exec k p file argv = .ok (done, k')) : k'.Basic := by
  rcases exec_eq_ok h.ram he with ⟨-, ph, hcount, rfl⟩ |
    ⟨-, tf, pt₀, ph₀, pt, ph, sz, ph', htf, hpt, hroot, himage, -, hfree, rfl⟩
  · exact ⟨h.ram.of_count fun f => (hcount f).le, h.sound⟩
  · have hfix₀ := PageTable.Fixed.of_procPagetable hpt hroot
    have hram : ph.Ram := fun f hf =>
      (h.ram.procPagetable hpt) f (himage.filled.mem_of_mem hf)
    refine basic_resize h hlive (hram.procFreepagetable hfree) ?_ ?_
    · rw [htf]
      exact hfix₀.of_filled himage.filled
    · refine sz_le_of_npages (hfix₀.npages_le fun u hu => ?_)
      refine (himage.filled.unmapped u (.inl ?_)).2
      rw [mem_range']
      omega

theorem basic_step {e : Event} (h : k.Basic) (hs : k.step e = .ok k') : k'.Basic := by
  rcases step_eq_ok hs with rfl | ⟨hruns, hdoes⟩
  · exact h
  have hlive := hruns.live
  cases hdoes with
  | fork hf => exact basic_fork h hlive hf
  | exit hx => exact h.of_quiet (exit_eq_ok hlive hx).1
  | wait hw => exact basic_wait h hw
  | sbrk hg => exact basic_growproc h hlive hg
  | mmap hm => exact basic_mmap h hlive hm
  | munmap hm => exact basic_munmap h hlive hm
  | hit _ => exact h
  | fault _ ha => exact basic_access h hlive ha
  | exec he => exact basic_exec h hlive he

/-! ## The first state -/

/-- The state after `userinit`: one process with one page, and every other slot as the kernel
was loaded. -/
structure Booted (ph : Phys) (k : Kernel) (tf page : Nat) : Prop where
  proc : k.proc 0 = { Proc.zero with
    state := .runnable, pid := 1, trapframe := some tf, pagetable := (k.proc 0).pagetable
    curMax := trapframe, sz := pgsize, cwd := some rootino }
  others : ∀ q, q ≠ 0 → k.proc q = Proc.zero
  initproc : k.initproc = 0
  origins : k.origins = 0
  mmrList : k.mmrList = fun _ => false
  ramTf : RamPage tf
  ramPage : RamPage page
  root : (k.proc 0).pagetable.isNull = false
  leaf : ∀ u < nvpn, (k.proc 0).pagetable.leaf u =
    if u = trampolineVpn then some (leafWord trampolineCode (pteR ||| pteX))
    else if u = trapframeVpn then some (leafWord tf (pteR ||| pteW))
    else if u = 0 then some (leafWord page heapPerm) else none
  count : ∀ f, ph.freelist.count f =
    k.phys.freelist.count f + [tf, page].count f + (k.proc 0).pagetable.pages.count f

theorem freeSlot_start (ph : Phys) : freeSlot (Kernel.start ph) = some 0 := rfl

theorem Boots.booted (h : Boots ph k) : ∃ tf page, Booted ph k tf page := by
  obtain ⟨⟨slot, k₀⟩, halloc, hstart⟩ := bind_eq_ok.1 h.start
  obtain ⟨-, hsome⟩ := allocproc_eq_ok halloc
  cases slot with
  | none => cases hstart
  | some p =>
    obtain ⟨hslot, tf, ph₁, pt₀, hkalloc, hpt, hroot, hk₀⟩ := hsome p rfl
    cases (freeSlot_start ph).symm.trans hslot
    obtain ⟨⟨pt, ph'⟩, hinit, hstart⟩ := bind_eq_ok.1 hstart
    have hfree₁ := kalloc_eq_some hkalloc
    have hphys : (Kernel.start ph).phys = ph := rfl
    rw [hphys] at hfree₁
    obtain ⟨hcount₀, hleaf₀⟩ := (procPagetable_eq_ok hpt).2 hroot
    have hlen₀ := (procPagetable_room hpt).1 hroot
    have hlen := congrArg List.length hfree₁
    rw [length_cons] at hlen
    have hroom := h.room
    have hproc₀ : (k₀.proc 0).pagetable = pt₀ := by
      rw [hk₀]
      simp
    rw [hproc₀] at hinit
    unfold uvminit at hinit
    rw [if_neg (by decide)] at hinit
    split at hinit
    · rename_i hnone
      rw [kalloc_eq_none] at hnone
      rw [hnone] at hlen₀
      simp only [length_nil] at hlen₀
      omega
    · rename_i page ph₂ hpage
      have hfree₂ := kalloc_eq_some hpage
      dsimp only at hfree₂
      have hlen₂ := congrArg List.length hfree₂
      rw [length_cons] at hlen₂
      obtain ⟨⟨ok, pt₁, ph₃⟩, hmap, hinit⟩ := bind_eq_ok.1 hinit
      cases hinit
      have hok := (mappages_two (by decide) (by decide) (by dsimp only; omega) hmap).1
      subst hok
      rw [show (0 : Nat) = 0 * pgsize by decide] at hmap
      obtain ⟨-, hacct, -, hleaf⟩ := mappages_leaf (by decide) hmap
      have hchild : k₀.proc 0 = { Proc.zero with
          pid := 1, state := .used, trapframe := some tf, pagetable := pt₀ } := by
        rw [hk₀]
        simp [Kernel.start]
      have hother : ∀ q, q ≠ 0 → k₀.proc q = Proc.zero := by
        intro q hq
        rw [hk₀]
        exact proc_setProc_of_ne _ hq _
      have hrest : k₀.origins = 0 ∧ k₀.mmrList = fun _ => false := by
        rw [hk₀]
        exact ⟨rfl, rfl⟩
      have hk := (Except.ok.inj hstart).symm
      have hmax : maxva - 2 * pgsize = trapframe := by decide
      have hproc : k.proc 0 = { k₀.proc 0 with
          pagetable := pt, curMax := trapframe, sz := pgsize, cwd := some rootino
          state := .runnable } := by
        rw [hk, hmax]
        simp [Kernel.setVm]
      have hfree : k.phys.freelist = ph₃.freelist := by
        rw [hk]
        rfl
      have hperm : pteW ||| pteR ||| pteX ||| pteU = heapPerm := by decide
      refine ⟨tf, page, ⟨?_, fun q hq => ?_, by rw [hk]; rfl, ?_, ?_, ?_, ?_, ?_, fun u hu => ?_,
        fun f => ?_⟩⟩
      · rw [hproc, hchild]
      · rw [hk]
        simpa [Kernel.setVm, Kernel.setProc, update_of_ne hq] using hother q hq
      · rw [hk]
        exact hrest.1
      · rw [hk]
        exact hrest.2
      · exact h.ram tf (by rw [hfree₁]; exact mem_cons_self ..)
      · refine h.ram page ?_
        rw [hfree₁]
        have := hcount₀ page
        rw [hfree₂, count_cons_self] at this
        exact mem_cons_of_mem _ (count_pos_iff.1 (by omega))
      · rw [hproc]
        exact hacct.null.trans hroot
      · rw [hproc]
        rw [hleaf u hu, hleaf₀ u hu, hperm]
        by_cases h0 : u = 0
        · rw [if_pos h0, h0, if_neg (by decide), if_neg (by decide), if_pos rfl]
        · rw [if_neg h0, if_neg h0]
      · have h1 := hcount₀ f
        have h2 := hacct.cons f
        simp only [count_nil] at h2
        rw [hproc, hfree, hfree₁, count_cons, h1, hfree₂]
        simp only [count_cons, count_nil]
        omega

theorem Boots.ram_of_count {tf page : Nat} (h : Boots ph k) (hb : Booted ph k tf page) :
    k.phys.Ram := by
  have hram : ph.Ram := h.ram
  exact hram.of_count fun f => by have := hb.count f; omega

theorem basic_boot (h : Boots ph k) : k.Basic := by
  obtain ⟨tf, page, hb⟩ := h.booted
  have hzero : Proc.zero.Sound 0 :=
    ⟨⟨fun _ => rfl, nofun, nofun, rfl, Nat.zero_le _⟩, Nat.zero_le _,
      fun _ => ⟨rfl, rfl, rfl⟩, fun hu => absurd rfl hu⟩
  refine ⟨h.ram_of_count hb, fun p => ?_⟩
  rw [hb.origins]
  by_cases hp : p = 0
  · subst hp
    have htable : (k.proc 0).pagetable.Fixed (some tf) :=
      ⟨hb.root, by rw [hb.leaf _ trampolineVpn_lt, if_pos rfl], tf, rfl,
        by rw [hb.leaf _ trapframeVpn_lt, if_neg (by decide), if_pos rfl]⟩
    rw [hb.proc]
    have halign : trapframe % pgsize = 0 := by decide
    have hsz : pgsize ≤ trapframe := by decide
    exact ⟨⟨fun _ => rfl, nofun, nofun, halign, le_rfl⟩, hsz, nofun,
      fun _ => htable⟩
  · rw [hb.others p hp]
    exact hzero

/-! ## Concrete runs -/

/-- A machine with `n` free pages above the kernel. -/
def Phys.ofPages (n : Nat) : Phys :=
  { freelist := (List.range n).map fun i => kernelEnd + i * pgsize, mem := fun _ => 0 }

def bootRun (n : Nat) (es : List Event) : Except Panic Kernel := do
  let k ← userinit (Kernel.start (.ofPages n))
  Run.exec Kernel.step k es

def bootRun.ends (n : Nat) (es : List Event) (check : Kernel → Bool) : Bool :=
  match bootRun n es with
  | .ok k => check k
  | .error _ => false

theorem boots_ofPages (h7 : 7 ≤ n) (hn : kernelEnd + n * pgsize ≤ phystop)
    (h : userinit (Kernel.start (.ofPages n)) = .ok k) : Boots (.ofPages n) k := by
  refine ⟨?_, fun f hf => ?_, by simpa [Phys.ofPages] using h7, h⟩
  · refine nodup_range.map fun a b hab => ?_
    have hpos : 0 < pgsize := by decide
    exact Nat.eq_of_mul_eq_mul_right hpos (Nat.add_left_cancel hab)
  · simp only [Phys.ofPages, mem_map, mem_range] at hf
    obtain ⟨i, hi, rfl⟩ := hf
    have hend : kernelEnd % pgsize = 0 := by decide
    refine ⟨?_, Nat.le_add_right _ _, ?_⟩
    · rw [Nat.add_mul_mod_self_right, hend]
    · have := (Nat.mul_lt_mul_right (show 0 < pgsize by decide)).2 hi
      omega

theorem bootRun.of_ends {check : Kernel → Bool} (h7 : 7 ≤ n)
    (hn : kernelEnd + n * pgsize ≤ phystop) (h : bootRun.ends n es check = true) :
    ∃ k k', Boots (.ofPages n) k ∧ Run.exec Kernel.step k es = .ok k' ∧ check k' = true := by
  unfold ends at h
  split at h
  · rename_i k' hrun
    obtain ⟨k, hboot, hexec⟩ := bind_eq_ok.1 hrun
    exact ⟨k, k', boots_ofPages h7 hn hboot, hexec, h⟩
  · cases h

def bootRun.passes (n : Nat) (g : Kernel → Event → Bool) (es : List Event) : Bool :=
  match userinit (Kernel.start (.ofPages n)) with
  | .ok k => Run.allSteps Kernel.step g k es
  | .error _ => false

theorem Boots.guarded {G : Kernel → Event → Prop} {g : Kernel → Event → Bool}
    (h : Boots (.ofPages n) k) (hg : ∀ s e, s.Basic → g s e = true → G s e)
    (hp : bootRun.passes n g es = true) : Run.Guarded Kernel.step G k es := by
  unfold bootRun.passes at hp
  rw [h.start] at hp
  exact Run.guarded_of_allSteps (I := Kernel.Basic) (fun _ _ _ hs => basic_step hs) hg
    (basic_boot h) hp

end Xv6
