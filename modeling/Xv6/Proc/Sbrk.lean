/-
`sbrk`: the size of a process and the pages of its heap stay in step.  The process has its heap
and nothing else below the trapframe, and no other process maps a frame of it.
-/
import Xv6.Vm.Contents
import Xv6.Vm.Total
import Xv6.Mmr.Isolated

namespace Xv6

open Kernel PageTable List Option
open Run (bind_eq_ok ok_bind)

variable {k k' : Kernel} {mem n newsz oldsz p sz x : Nat} {pt pt' : PageTable} {ph ph' : Phys}

/-! ## The bytes of memory -/

theorem mem_of_kfree {pa : Nat} (h : kfree ph pa = .ok ph') : ph'.mem = memsetPage ph.mem pa 1 := by
  unfold kfree at h
  split at h
  · cases h
  · cases h
    rfl

theorem uvmunmapLoop_mem {a : Nat} (h : uvmunmapLoop true n a pt ph = .ok (pt', ph'))
    (hx : ∀ u, vpn a ≤ u → u < vpn a + n → ¬ InFrame (pte2pa (pt.entry u)) x) :
    ph'.mem x = ph.mem x := by
  induction n generalizing a pt ph with
  | zero =>
    cases h
    rfl
  | succ n ih =>
    have hpages := (uvmunmapLoop_eq_ok h).2.1
    obtain ⟨hlt, hvalid, -, ph₁, hfree, h⟩ := uvmunmapLoop_succ h
    have hset : ∀ u, vpn a + 1 ≤ u → u < vpn a + 1 + n →
        (pt.setPte a 0).entry u = pt.entry u := fun u h1 h2 => by
      rw [entry_setPte 0 (reaches_of_has hvalid) hlt
        (lt_nvpn (hpages u (by omega) (by omega)).1), if_neg (by omega)]
    rw [ih h fun u h1 h2 => ?_, mem_of_kfree hfree]
    · exact memsetPage_of_not (hx (vpn a) le_rfl (by omega))
    · rw [vpn_add_page] at h1 h2
      rw [hset u h1 h2]
      exact hx u (by omega) (by omega)

theorem uvmdealloc_mem (hold : oldsz ≤ maxva)
    (h : uvmdealloc pt ph oldsz newsz = .ok (sz, pt', ph'))
    (hx : ∀ u, npages newsz ≤ u → u < npages oldsz → ¬ InFrame (pte2pa (pt.entry u)) x) :
    ph'.mem x = ph.mem x := by
  obtain ⟨-, ⟨-, -, rfl⟩ | ⟨hlt, hroom, hun⟩⟩ := uvmdealloc_cases hold h
  · rfl
  · have hend : npages newsz + (npages oldsz - npages newsz) = npages oldsz := by omega
    rw [uvmunmap, if_neg (by rw [Nat.mul_mod_left]; decide),
      pageCount_pages (by rwa [← Nat.add_mul, hend])] at hun
    refine uvmunmapLoop_mem hun fun u h1 h2 => ?_
    rw [vpn_mul] at h1 h2
    exact hx u h1 (by omega)

/-- Frames were taken from the free list for the pages `fresh` and filled with zeros, and
nothing was written but into frames that were free. -/
structure Zeroed (ph₀ : Phys) (fresh : List Nat) (pt : PageTable) (ph : Phys) : Prop where
  written : Written ph₀ ph
  page : ∀ u ∈ fresh, u < maxvpn ∧ has (pt.entry u) pteV = true ∧
    pte2pa (pt.entry u) ∈ ph₀.freelist ∧ pte2pa (pt.entry u) ∉ ph.freelist ∧
    ∀ off < pgsize, ph.mem (pte2pa (pt.entry u) + off) = 0

namespace Zeroed

variable {ph₀ ph ph₁ ph' : Phys} {fresh : List Nat} {pt pt' : PageTable} {v n : Nat}
  (hram : ∀ f ∈ ph₀.freelist, RamPage f)

include hram

theorem keep (h : Zeroed ph₀ fresh pt ph) (hw : Written ph ph')
    (hentry : ∀ u ∈ fresh, pt'.entry u = pt.entry u) : Zeroed ph₀ fresh pt' ph' := by
  have hal : ∀ g ∈ ph.freelist, g % pgsize = 0 := fun g hg => (hram g (h.written.sub g hg)).1
  refine ⟨h.written.trans hw, fun u hu => ?_⟩
  obtain ⟨hlt, hv, hin, hnot, hzero⟩ := h.page u hu
  rw [hentry u hu]
  refine ⟨hlt, hv, hin, fun hf => hnot (hw.sub _ hf), fun off hoff => ?_⟩
  rw [hw.bytes hal (pte2pa_mod _) hnot (inFrame_add hoff)]
  exact hzero off hoff

theorem take (h : Zeroed ph₀ fresh pt ph) (halloc : kalloc ph = some (mem, ph₁)) :
    Zeroed ph₀ fresh pt { ph₁ with mem := memsetPage ph₁.mem mem 0 } := by
  refine h.keep hram ?_ fun _ _ => rfl
  have hw := Written.of_kalloc halloc
  refine ⟨hw.sub, hw.nodup, fun a ha => ?_⟩
  have hmem : ¬ InFrame mem a := ha mem (by rw [kalloc_eq_some halloc]; exact mem_cons_self)
  exact (memsetPage_of_not hmem).trans (hw.mem a ha)

theorem fill (h : Zeroed ph₀ fresh pt ph) (hnodup : ph₀.freelist.Nodup) {perm : Nat}
    (halloc : kalloc ph = some (mem, ph₁)) (hroom : v * pgsize + pgsize ≤ 2 ^ 64)
    (hperm : perm < 1024)
    (hmap : mappages pt { ph₁ with mem := memsetPage ph₁.mem mem 0 } (v * pgsize) pgsize mem perm =
      .ok (true, pt', ph')) : Zeroed ph₀ (fresh ++ [v]) pt' ph' := by
  have hmod : v * pgsize % pgsize = 0 := Nat.mul_mod_left _ _
  obtain ⟨hv, -, hold, hentry⟩ := mappages_entry hroom hmap
  have hcons := kalloc_eq_some halloc
  have hin : mem ∈ ph₀.freelist := h.written.sub mem (by rw [hcons]; exact mem_cons_self)
  have hnotmem : mem ∉ ph₁.freelist := by
    have := h.written.nodup hnodup
    rw [hcons] at this
    exact (nodup_cons.1 this).1
  have htaken := h.take hram halloc
  have hw := Written.of_mappages hmod hroom hmap
  have hafter : Zeroed ph₀ fresh pt' ph' := htaken.keep hram hw fun u hu => by
    obtain ⟨hlt, hvalid, -⟩ := h.page u hu
    rw [hentry u (lt_nvpn hlt), if_neg]
    rintro rfl
    rw [hold] at hvalid
    cases hvalid
  refine ⟨hafter.written, fun u hu => ?_⟩
  rcases mem_append.1 hu with hu | hu
  · exact hafter.page u hu
  · obtain rfl := mem_singleton.1 hu
    have hword := hentry u (lt_nvpn hv)
    rw [if_pos rfl] at hword
    rw [hword, pte2pa_leafWord (hram mem hin) hperm]
    refine ⟨hv, has_leafWord _ _, hin, fun hf => hnotmem (hw.sub _ hf), fun off hoff => ?_⟩
    have hal : ∀ g ∈ ph₁.freelist, g % pgsize = 0 := fun g hg =>
      (hram g (htaken.written.sub g hg)).1
    rw [hw.bytes hal (hram mem hin).1 hnotmem (inFrame_add hoff)]
    exact if_pos (inFrame_add hoff)

end Zeroed

theorem undo_mem {ph₀ : Phys} {v : Nat} (hle : v + n ≤ maxvpn)
    (hd : uvmdealloc pt ph ((v + n) * pgsize) (v * pgsize) = .ok (sz, pt', ph'))
    (hfree : ∀ u ∈ List.range' v n, pte2pa (pt.entry u) ∈ ph₀.freelist)
    (hx : ∀ f ∈ ph₀.freelist, ¬ InFrame f x) : ph'.mem x = ph.mem x := by
  refine uvmdealloc_mem (mul_le_maxva hle) hd fun u h1 h2 => ?_
  rw [npages_mul] at h1 h2
  exact hx _ (hfree u (mem_range'.2 ⟨h1, h2⟩))

theorem uvmallocLoop_mem {ph₀ : Phys} {v m : Nat} (hram : ∀ f ∈ ph₀.freelist, RamPage f)
    (hnodup : ph₀.freelist.Nodup) (hz : Zeroed ph₀ (List.range' v n) pt ph) (hle : v + n ≤ maxvpn)
    (h : uvmallocLoop (v * pgsize) newsz m ((v + n) * pgsize) pt ph = .ok (sz, pt', ph')) :
    sz = newsz ∧ Zeroed ph₀ (List.range' v (n + m)) pt' ph' ∨
      sz = 0 ∧ ∀ x, (∀ f ∈ ph₀.freelist, ¬ InFrame f x) → ph'.mem x = ph₀.mem x := by
  induction m generalizing n pt ph with
  | zero =>
    cases h
    exact .inl ⟨rfl, hz⟩
  | succ m ih =>
    have hroom : (v + n) * pgsize + pgsize ≤ 2 ^ 64 := by
      have hmul := mul_le_maxva hle
      have hmax := maxva_room
      omega
    have hmod : (v + n) * pgsize % pgsize = 0 := Nat.mul_mod_left _ _
    rcases uvmallocLoop_succ h with ⟨mem, ph₁, pt₂, ph₂, halloc, hmap, h⟩ |
      ⟨rfl, pt₁, ph₁, r, hde, ⟨rfl, rfl⟩ | ⟨mem, ph₂, ph₃, halloc, hmap, hkfree⟩⟩
    · have hstep := hz.fill hram hnodup halloc hroom (by decide) hmap
      rw [← List.range'_1_concat] at hstep
      rw [add_page] at h
      have := ih hstep (mappages_entry hroom hmap).1 h
      rwa [Nat.add_right_comm] at this
    · refine .inr ⟨rfl, fun x hx => ?_⟩
      rw [undo_mem hle hde (fun u hu => (hz.page u hu).2.2.1) hx]
      exact hz.written.mem x hx
    · have hmem : mem ∈ ph₀.freelist := hz.written.sub mem
        (by rw [kalloc_eq_some halloc]; exact mem_cons_self)
      have hz₂ := (hz.take hram halloc).keep hram (Written.of_mappages hmod hroom hmap)
        fun u _ => ((mappages_page hmod hroom hmap).2.2.2.2 rfl).2 u
      refine .inr ⟨rfl, fun x hx => ?_⟩
      rw [undo_mem hle hde (fun u hu => (hz₂.page u hu).2.2.1) hx, mem_of_kfree hkfree,
        memsetPage_of_not (hx mem hmem)]
      exact hz₂.written.mem x hx

theorem uvmalloc_mem (hram : ∀ f ∈ ph.freelist, RamPage f) (hnodup : ph.freelist.Nodup)
    (hold : oldsz ≤ maxva) (h : uvmalloc pt ph oldsz newsz = .ok (sz, pt', ph')) :
    newsz < oldsz ∧ sz = oldsz ∧ pt' = pt ∧ ph' = ph ∨
      sz = newsz ∧
        Zeroed ph (List.range' (npages oldsz) (npages newsz - npages oldsz)) pt' ph' ∨
      sz = 0 ∧ ∀ x, (∀ f ∈ ph.freelist, ¬ InFrame f x) → ph'.mem x = ph.mem x := by
  rw [uvmalloc_eq hold] at h
  split at h
  · cases h
    exact .inl ⟨‹_›, rfl, rfl, rfl⟩
  have := uvmallocLoop_mem (n := 0) hram hnodup ⟨.refl ph, fun u hu => by simp at hu⟩
    (npages_le hold) h
  rw [Nat.zero_add] at this
  exact .inr this

/-! ## The process -/

/-- The heap of `p` is all that is mapped below its trapframe, and its frames are its own. -/
structure Kernel.InStep (k : Kernel) (p : Nat) : Prop where
  basic : k.Basic
  live : (k.proc p).state ≠ .unused
  frames : k.Frames fun q q' _ => q ≠ p ∧ q' ≠ p
  exact : ∀ u < trapframeVpn,
    (k.proc p).pagetable.leaf u ≠ none ↔ u < npages (k.proc p).sz
  flags : ∀ u w, u < npages (k.proc p).sz → (k.proc p).pagetable.leaf u = some w →
    pteFlags w ≠ pteV

theorem Proc.leafAt_of_lt {x : Proc} {u w : Nat} (hu : u < trapframeVpn)
    (hw : x.pagetable.leaf u = some w) : x.LeafAt u (pte2pa w) := by
  have h1 := trapframeVpn_lt
  have h2 : trampolineVpn = trapframeVpn + 1 := by decide
  exact ⟨by omega, by omega, by omega, w, hw, rfl⟩

namespace Kernel.InStep

variable {k : Kernel} {p u v w w' q : Nat} (h : k.InStep p)

include h

theorem npages_le : npages (k.proc p).sz ≤ trapframeVpn := npages_le_of_sz (h.basic.sound p).sz

theorem heap (hu : u < npages (k.proc p).sz) :
    ∃ w, (k.proc p).pagetable.leaf u = some w ∧ (k.proc p).LeafAt u (pte2pa w) := by
  have hlt := hu.trans_le h.npages_le
  obtain ⟨w, hw⟩ := ne_none_iff_exists'.1 ((h.exact u hlt).2 hu)
  exact ⟨w, hw, Proc.leafAt_of_lt hlt hw⟩

theorem room : npages (k.proc p).sz + k.phys.freelist.length ≤ phystop / pgsize := by
  have hmap : ∀ u ∈ List.range (npages (k.proc p).sz), ∃ f, (k.proc p).LeafAt u f := fun u hu => by
    obtain ⟨w, -, hl⟩ := h.heap (mem_range.1 hu)
    exact ⟨_, hl⟩
  have hnd := Kernel.Frames.nodup_frames h.frames nodup_range hmap
  have hleaf : ∀ f ∈ (k.proc p).pagetable.frames (List.range (npages (k.proc p).sz)),
      RamPage f ∧ f ∉ k.phys.freelist := fun f hf => by
    obtain ⟨u, hu, rfl⟩ := mem_map.1 hf
    obtain ⟨f, hl⟩ := hmap u hu
    obtain ⟨hram, hfree, -⟩ := h.frames.leaf p u f hl
    rw [hl.frame]
    exact ⟨hram, hfree⟩
  have hle := ram_length_le (nodup_append.2 ⟨hnd, h.frames.free, fun f hf g hg he =>
    (hleaf f hf).2 (he ▸ hg)⟩) fun f hf => (mem_append.1 hf).elim (fun hf => (hleaf f hf).1)
      (h.basic.ram f)
  simpa [PageTable.frames] using hle

theorem sz_lt : (k.proc p).sz < 2 ^ 32 := by
  have := h.room
  unfold npages phystop kernbase pgsize at this
  omega

theorem alone (hu : u < trapframeVpn) (hw : (k.proc p).pagetable.leaf u = some w)
    (hv : v < nvpn) (hw' : (k.proc q).pagetable.leaf v = some w') (he : pte2pa w' = pte2pa w) :
    q = p ∧ v = u := by
  have hl := Proc.leafAt_of_lt hu hw
  obtain ⟨hram, -, hbase⟩ := h.frames.leaf p u _ hl
  have hfix : (k.proc q).pagetable.Fixed (k.proc q).trapframe := by
    refine (h.basic.sound q).fixed fun hun => ?_
    rw [((h.basic.sound q).unused hun).1] at hw'
    cases (leaf_absent v).symm.trans hw'
  by_cases ht : v = trampolineVpn
  · rw [ht, hfix.trampoline] at hw'
    cases hw'
    rw [← he] at hram
    exact absurd hram (by decide)
  by_cases htf : v = trapframeVpn
  · obtain ⟨f, hf, hleaf⟩ := hfix.trapframe
    rw [htf, hleaf] at hw'
    cases hw'
    have hmem : f ∈ (k.proc q).base := mem_append_left _ (by rw [hf]; exact mem_singleton_self f)
    rw [pte2pa_leafWord (h.frames.ram q f hmem) (by decide)] at he
    exact absurd hmem (he ▸ hbase q)
  · have hl' : (k.proc q).LeafAt v (pte2pa w) := ⟨hv, ht, htf, w', hw', he⟩
    by_cases hq : q = p
    · subst hq
      exact ⟨rfl, h.frames.inj q v u _ hl' hl⟩
    · exact absurd rfl (h.frames.shared q p v u _ hq hl' hl).2.2

end Kernel.InStep

/-- What `growproc` can do to an address space of size `sz`. -/
inductive Resized (pt : PageTable) (ph : Phys) (sz : Nat) : Bool → Nat → PageTable × Phys → Prop
  | same : Resized pt ph sz true sz (pt, ph)
  | grown {sz' : Nat} {vm : PageTable × Phys} (hle : sz ≤ sz')
      (hfill : Filled pt ph (List.range' (npages sz) (npages sz' - npages sz))
        (fun _ => heapPerm) [] (fun _ => 0) vm.1 vm.2)
      (hzero : Zeroed ph (List.range' (npages sz) (npages sz' - npages sz)) vm.1 vm.2) :
      Resized pt ph sz true sz' vm
  | failed {vm : PageTable × Phys} (hacct : Acct pt ph vm.1 vm.2 [] [])
      (hleaf : ∀ u < nvpn, vm.1.leaf u = pt.leaf u)
      (hmem : ∀ x, (∀ f ∈ ph.freelist, ¬ InFrame f x) → vm.2.mem x = ph.mem x) :
      Resized pt ph sz false sz vm
  | shrunk {sz' : Nat} {vm : PageTable × Phys} (hle : sz' ≤ sz)
      (h : uvmdealloc pt ph sz sz' = .ok (sz', vm)) : Resized pt ph sz true sz' vm

theorem growproc_resized (h : k.InStep p) (hn : n < 2 ^ 32) :
    ∃ done sz' vm, growproc k p n = .ok (done, k.resize p sz' vm) ∧
      Resized (k.proc p).pagetable k.phys (k.proc p).sz done sz' vm := by
  have hsz : (k.proc p).sz % 2 ^ 32 = (k.proc p).sz := Nat.mod_eq_of_lt h.sz_lt
  have hmax : (k.proc p).sz ≤ maxva := (h.basic.sound p).sz.trans trapframe_le_maxva
  have hnull := ((h.basic.sound p).fixed h.live).root
  unfold growproc
  dsimp only
  rw [hsz]
  by_cases hn0 : n = 0
  · rw [if_pos hn0]
    exact ⟨true, _, _, rfl, .same⟩
  rw [if_neg hn0]
  by_cases hpos : n < 2 ^ 31
  · rw [if_pos hpos]
    have hroom := h.room
    obtain ⟨⟨r, vm⟩, halloc⟩ := uvmalloc_ok (((k.proc p).sz + n) % 2 ^ 32) h.basic.ram hnull
      (by decide : trapframeVpn ≤ maxvpn) hmax (fun u h1 h2 => by
        by_contra hne
        have := (h.exact u h2).1 hne
        omega) (hroom.trans ram_le_trapframeVpn)
    rw [halloc, ok_bind]
    rcases uvmalloc_eq_ok h.basic.ram hmax halloc with ⟨hlt, hr, hpt, hph⟩ | ⟨hle, hr, hfill, -⟩ |
      ⟨hle, hr, hacct, hleaf⟩
    · rw [if_neg (by omega), hr, hsz, hpt, hph]
      exact ⟨true, _, _, rfl, .same⟩
    · rw [if_neg (by omega), hr, Nat.mod_mod]
      refine ⟨true, _, vm, rfl, .grown hle hfill ?_⟩
      rcases uvmalloc_mem h.basic.ram h.frames.free hmax halloc with ⟨hlt, -⟩ | ⟨-, hz⟩ | ⟨hr', -⟩
      · omega
      · exact hz
      · omega
    · rw [if_pos (by omega)]
      refine ⟨false, _, vm, rfl, .failed hacct hleaf ?_⟩
      rcases uvmalloc_mem h.basic.ram h.frames.free hmax halloc with ⟨hlt, -⟩ | ⟨hr', -⟩ | ⟨-, hm⟩
      · omega
      · omega
      · exact hm
  · rw [if_neg hpos]
    obtain ⟨⟨r, vm⟩, hdealloc⟩ : ∃ r, uvmdealloc (k.proc p).pagetable k.phys (k.proc p).sz
        (((k.proc p).sz + n) % 2 ^ 32) = .ok r := uvmdealloc_ok k.phys hnull hmax fun u _ h2 => by
      obtain ⟨w, hw, hl⟩ := h.heap h2
      exact ⟨w, hw, h.flags u w h2 hw, fun _ => (h.frames.leaf p u _ hl).1⟩
    rw [hdealloc]
    have hr := (uvmdealloc_cases hmax hdealloc).1
    by_cases hge : (k.proc p).sz ≤ ((k.proc p).sz + n) % 2 ^ 32
    · rw [uvmdealloc, if_pos hge] at hdealloc
      cases hdealloc
      refine ⟨true, _, _, rfl, ?_⟩
      rw [hsz]
      exact .same
    · obtain rfl : r = ((k.proc p).sz + n) % 2 ^ 32 := by omega
      refine ⟨true, _, vm, rfl, ?_⟩
      rw [Nat.mod_mod]
      exact .shrunk (by omega) hdealloc

section

variable {k k' : Kernel} {p sz' : Nat} {done : Bool} {vm : PageTable × Phys} (h : k.InStep p)

include h

theorem Kernel.InStep.frames_of_update {us fresh : List Nat}
    (hu : Kernel.Frames.Update k k' p us fresh)
    (hkeep : ∀ u f, (k'.proc p).LeafAt u f → u ∉ fresh → (k.proc p).LeafAt u f) :
    k'.Frames fun q q' _ => q ≠ p ∧ q' ≠ p := by
  refine h.frames.update h.basic.ram hu (fun q u f hq hl hl₀ => ?_) fun _ _ _ _ _ _ _ _ _ hr => hr
  by_cases hfresh : u ∈ fresh
  · have htaken := hu.taken u hfresh
    rw [hl.frame] at htaken
    exact absurd htaken (h.frames.leaf q u f hl₀).2.1
  · exact absurd rfl (h.frames.shared q p u u f hq hl₀ (hkeep u f hl hfresh)).2.2

theorem Kernel.InStep.frames_resize
    (hr : Resized (k.proc p).pagetable k.phys (k.proc p).sz done sz' vm) :
    (k.resize p sz' vm).Frames fun q q' _ => q ≠ p ∧ q' ≠ p := by
  have hother : ∀ q, q ≠ p → ((k.resize p sz' vm).proc q).pagetable = (k.proc q).pagetable :=
    fun q hq => congrArg Proc.pagetable (proc_setProc_of_ne k hq _)
  have htf : ∀ q, ((k.resize p sz' vm).proc q).trapframe = (k.proc q).trapframe := fun q => by
    by_cases hq : q = p
    · rw [hq, Kernel.resize, proc_setProc_self]
    · exact congrArg Proc.trapframe (proc_setProc_of_ne k hq _)
  have htable : ((k.resize p sz' vm).proc p).pagetable = vm.1 := by
    rw [Kernel.resize, proc_setProc_self]
  have hfilled : ∀ {fresh perm}, Filled (k.proc p).pagetable k.phys fresh perm [] (fun _ => 0)
      vm.1 vm.2 → (k.resize p sz' vm).Frames fun q q' _ => q ≠ p ∧ q' ≠ p := fun hfill => by
    refine h.frames_of_update (.of_filled hother htf (by rw [htable]; exact hfill))
      fun u f hl hnot => ?_
    obtain ⟨hlt, h1, h2, w, hw, hwf⟩ := hl
    rw [htable, hfill.other u hlt hnot (by simp)] at hw
    exact ⟨hlt, h1, h2, w, hw, hwf⟩
  cases hr with
  | same => exact hfilled (.nil _ _ (fun _ => 0) _)
  | grown _ hfill _ => exact hfilled hfill
  | failed hacct hleaf _ => exact hfilled ((Filled.nil _ _ (fun _ => 0) _).keep hacct hleaf)
  | shrunk hle hd =>
    obtain ⟨-, hacct, -, hleaf⟩ := uvmdealloc_eq_ok
      ((h.basic.sound p).sz.trans trapframe_le_maxva) hd
    have hkeep : ∀ u w, u < nvpn → ((k.resize p sz' vm).proc p).pagetable.leaf u = some w →
        u ∉ List.range' (npages sz') (npages (k.proc p).sz - npages sz') ∧
          (k.proc p).pagetable.leaf u = some w := fun u w hu hw => by
      rw [htable, hleaf u hu] at hw
      split at hw
      · cases hw
      · rename_i hnot
        rw [mem_range']
        exact ⟨by omega, hw⟩
    refine h.frames_of_update (.of_removed hother htf (by rw [htable]; exact hacct)
      nodup_range' (fun u hu => ?_) (fun u hu q u' f hq hl hl' => ?_) hkeep)
      fun u f hl _ => ?_
    · rw [mem_range'] at hu
      obtain ⟨w, -, hl⟩ := h.heap (show u < npages (k.proc p).sz by omega)
      exact ⟨_, hl⟩
    · exact absurd rfl (h.frames.shared q p u' u f hq hl' hl).2.2
    · obtain ⟨hlt, h1, h2, w, hw, hwf⟩ := hl
      exact ⟨hlt, h1, h2, w, (hkeep u w hlt hw).2, hwf⟩

structure Outcome (pt : PageTable) (ph : Phys) (sz : Nat) (done : Bool) (sz' : Nat)
    (vm : PageTable × Phys) : Prop where
  exact : ∀ u < trapframeVpn, vm.1.leaf u ≠ none ↔ u < npages sz'
  fresh : ∀ u w, u < trapframeVpn → pt.leaf u = none → vm.1.leaf u = some w →
    pte2pa w ∈ ph.freelist ∧ pteFlags w ≠ pteV ∧ ∀ off < pgsize, vm.2.mem (pte2pa w + off) = 0
  kept : ∀ u w, u < trapframeVpn → pt.leaf u = some w → vm.1.leaf u ≠ none →
    vm.1.leaf u = some w ∧ ∀ off < pgsize, vm.2.mem (pte2pa w + off) = ph.mem (pte2pa w + off)
  failed : done = false → sz' = sz ∧ ∀ u < nvpn, vm.1.leaf u = pt.leaf u

theorem Kernel.InStep.not_free {u w : Nat} (hu : u < trapframeVpn)
    (hw : (k.proc p).pagetable.leaf u = some w) (hx : InFrame (pte2pa w) x) :
    ∀ f ∈ k.phys.freelist, ¬ InFrame f x := fun f hf hin =>
  (h.frames.leaf p u _ (Proc.leafAt_of_lt hu hw)).2.1
    (hin.unique hx (h.basic.ram f hf).1 (pte2pa_mod w) ▸ hf)

theorem Kernel.InStep.outcome
    (hr : Resized (k.proc p).pagetable k.phys (k.proc p).sz done sz' vm) :
    Outcome (k.proc p).pagetable k.phys (k.proc p).sz done sz' vm := by
  have hlt := trapframeVpn_lt
  have hkeep : ∀ {u w}, u < trapframeVpn → (k.proc p).pagetable.leaf u = some w →
      (∀ x, (∀ f ∈ k.phys.freelist, ¬ InFrame f x) → vm.2.mem x = k.phys.mem x) →
      ∀ off < pgsize, vm.2.mem (pte2pa w + off) = k.phys.mem (pte2pa w + off) :=
    fun hu hw hm off hoff => hm _ (h.not_free hu hw (inFrame_add hoff))
  cases hr with
  | same =>
    refine ⟨h.exact, fun u w _ hn hw => ?_, fun u w hu hw _ => ⟨hw, fun _ _ => rfl⟩, nofun⟩
    rw [hn] at hw
    cases hw
  | failed hacct hleaf hmem =>
    refine ⟨fun u hu => ?_, fun u w hu hn hw => ?_, fun u w hu hw _ => ⟨?_, hkeep hu hw hmem⟩,
      fun _ => ⟨rfl, hleaf⟩⟩
    · rw [hleaf u (by omega)]
      exact h.exact u hu
    · rw [hleaf u (by omega), hn] at hw
      cases hw
    · rw [hleaf u (by omega), hw]
  | grown hle hfill hzero =>
    have hin : ∀ u, u ∈ List.range' (npages (k.proc p).sz) (npages sz' - npages (k.proc p).sz) ↔
        npages (k.proc p).sz ≤ u ∧ u < npages sz' := fun u => by
      rw [mem_range']
      omega
    have hold : ∀ u w, u < trapframeVpn → (k.proc p).pagetable.leaf u = some w →
        vm.1.leaf u = some w := fun u w hu hw => by
      have := (h.exact u hu).1 (by rw [hw]; exact some_ne_none w)
      rw [hfill.other u (by omega) (fun hc => by have := (hin u).1 hc; omega) (by simp), hw]
    refine ⟨fun u hu => ?_, fun u w hu hn hw => ?_, fun u w hu hw _ =>
      ⟨hold u w hu hw, hkeep hu hw hzero.written.mem⟩, nofun⟩
    · by_cases hnew : npages (k.proc p).sz ≤ u ∧ u < npages sz'
      · obtain ⟨f, -, hl⟩ := hfill.new u ((hin u).2 hnew)
        rw [hl]
        exact iff_of_true (some_ne_none _) hnew.2
      · rw [hfill.other u (by omega) (fun hc => hnew ((hin u).1 hc)) (by simp), h.exact u hu]
        have := npages_mono hle
        omega
    · have hnew : u ∈ List.range' (npages (k.proc p).sz) (npages sz' - npages (k.proc p).sz) := by
        by_contra hc
        rw [hfill.other u (by omega) hc (by simp), hn] at hw
        cases hw
      obtain ⟨f, hf, hl⟩ := hfill.new u hnew
      obtain ⟨-, -, hfree, -, hz⟩ := hzero.page u hnew
      rw [(leaf_eq_some.1 hw).1] at hfree hz
      obtain rfl : leafWord f heapPerm = w := Option.some.inj (hl.symm.trans hw)
      exact ⟨hfree, by rw [pteFlags_leafWord _ (by decide)]; decide, hz⟩
  | shrunk hle hd =>
    have hmax := (h.basic.sound p).sz.trans trapframe_le_maxva
    obtain ⟨-, -, -, hleaf⟩ := uvmdealloc_eq_ok hmax hd
    have hmono := npages_mono hle
    refine ⟨fun u hu => ?_, fun u w hu hn hw => ?_, fun u w hu hw hne => ⟨?_, fun off hoff => ?_⟩,
      nofun⟩
    · rw [hleaf u (by omega)]
      split
      · exact iff_of_false (fun hc => hc rfl) (by omega)
      · rw [h.exact u hu]
        omega
    · rw [hleaf u (by omega), hn, ite_self] at hw
      cases hw
    · rw [hleaf u (by omega)] at hne ⊢
      split
      · rename_i hc
        rw [if_pos hc] at hne
        exact absurd rfl hne
      · exact hw
    · refine uvmdealloc_mem hmax hd fun v h1 h2 hin => ?_
      obtain ⟨w', hw', hl'⟩ := h.heap h2
      rw [(leaf_eq_some.1 hw').1] at hin
      have he := hin.unique (inFrame_add hoff) (pte2pa_mod _) (pte2pa_mod _)
      have huv := h.frames.inj p v u _ hl' (he ▸ Proc.leafAt_of_lt hu hw)
      rw [hleaf u (by omega), if_pos (by omega)] at hne
      exact hne rfl

theorem Kernel.InStep.growproc (hn : n < 2 ^ 32) :
    ∃ done sz' vm, Xv6.growproc k p n = .ok (done, k.resize p sz' vm) ∧
      Outcome (k.proc p).pagetable k.phys (k.proc p).sz done sz' vm ∧
      (k.resize p sz' vm).InStep p := by
  obtain ⟨done, sz', vm, hg, hr⟩ := growproc_resized h hn
  have hout := h.outcome hr
  have hp : (k.resize p sz' vm).proc p = { k.proc p with pagetable := vm.1, sz := sz' } :=
    proc_setProc_self ..
  have hb := basic_growproc h.basic h.live hg
  refine ⟨done, sz', vm, hg, hout, hb, ?_, h.frames_resize hr, ?_, ?_⟩
  · rw [hp]
    exact h.live
  · rw [hp]
    exact hout.exact
  · rw [hp]
    intro u w hu hw
    have hlt : u < trapframeVpn := by
      have := npages_le_of_sz (hb.sound p).sz
      rw [hp] at this
      exact hu.trans_le this
    cases hold : (k.proc p).pagetable.leaf u with
    | none => exact (hout.fresh u w hlt hold hw).2.1
    | some w₀ =>
      have hkept := (hout.kept u w₀ hlt hold (by rw [hw]; exact some_ne_none w)).1
      obtain rfl : w₀ = w := Option.some.inj (hkept.symm.trans hw)
      exact h.flags u w₀ ((h.exact u hlt).1 (by rw [hold]; exact some_ne_none _)) hold

end

/-! ## Sequences of calls -/

/-- A call of `growproc` by `p`, or anything else that leaves `p` alone: other processes take
frames from the free list and give frames back to it, but not those of `p`. -/
inductive SbrkStep (p : Nat) : Kernel → Kernel → Prop
  | call {k k' : Kernel} {n : Nat} {done : Bool} (hn : n < 2 ^ 32)
      (h : growproc k p n = .ok (done, k')) : SbrkStep p k k'
  | other {k k' : Kernel} (hp : k'.proc p = k.proc p) (hb : k'.Basic)
      (hf : k'.Frames fun q q' _ => q ≠ p ∧ q' ≠ p) : SbrkStep p k k'

theorem Kernel.InStep.step (h : k.InStep p) (hs : SbrkStep p k k') : k'.InStep p := by
  cases hs with
  | call hn hg =>
    obtain ⟨done, sz', vm, hg', -, hnext⟩ := h.growproc hn
    rw [hg] at hg'
    cases hg'
    exact hnext
  | other hp hb hf =>
    refine ⟨hb, ?_, hf, ?_, ?_⟩ <;> rw [hp]
    · exact h.live
    · exact h.exact
    · exact h.flags

theorem Kernel.InStep.run (h : k.InStep p) (hrun : Relation.ReflTransGen (SbrkStep p) k k') :
    k'.InStep p := by
  induction hrun with
  | refl => exact h
  | tail _ hs ih => exact ih.step hs

/-- The pages mapped below the trapframe are those in `[0, PGROUNDUP(p->sz))`. -/
def Kernel.HeapMapped (k : Kernel) (p : Nat) : Prop :=
  ∀ u < trapframeVpn, (k.proc p).pagetable.leaf u ≠ none ↔ u * pgsize < pgroundup (k.proc p).sz

theorem Kernel.InStep.heapMapped (h : k.InStep p) : k.HeapMapped p := by
  intro u hu
  have hlt := h.sz_lt
  rw [h.exact u hu, pgroundup_eq (by unfold pgsize; omega)]
  exact (Nat.mul_lt_mul_right (by decide)).symm

structure SbrkCall (k k' : Kernel) (p : Nat) (done : Bool) : Prop where
  mapped : k'.HeapMapped p
  zero : ∀ u w, u < trapframeVpn → (k.proc p).pagetable.leaf u = none →
    (k'.proc p).pagetable.leaf u = some w → ∀ off < pgsize, k'.phys.mem (pte2pa w + off) = 0
  alone : ∀ u w, u < trapframeVpn → (k.proc p).pagetable.leaf u = none →
    (k'.proc p).pagetable.leaf u = some w → ∀ q v w', v < nvpn →
      (k'.proc q).pagetable.leaf v = some w' → pte2pa w' = pte2pa w → q = p ∧ v = u
  kept : ∀ u w, u < trapframeVpn → (k.proc p).pagetable.leaf u = some w →
    (k'.proc p).pagetable.leaf u ≠ none → (k'.proc p).pagetable.leaf u = some w ∧
      ∀ off < pgsize, k'.phys.mem (pte2pa w + off) = k.phys.mem (pte2pa w + off)
  failed : done = false → (k'.proc p).sz = (k.proc p).sz ∧
    ∀ u < nvpn, (k'.proc p).pagetable.leaf u = (k.proc p).pagetable.leaf u

/-- In every state that calls of `growproc` lead to, the pages of the heap are those below the
size, and the next call returns and keeps it so. -/
theorem sbrk_in_step {k₀ k : Kernel} {p n : Nat} (h₀ : k₀.InStep p)
    (hrun : Relation.ReflTransGen (SbrkStep p) k₀ k) (hn : n < 2 ^ 32) :
    k.HeapMapped p ∧ ∃ done k', growproc k p n = .ok (done, k') ∧ SbrkCall k k' p done := by
  have h := h₀.run hrun
  obtain ⟨done, sz', vm, hg, hout, hnext⟩ := h.growproc hn
  have hp : (k.resize p sz' vm).proc p = { k.proc p with pagetable := vm.1, sz := sz' } :=
    proc_setProc_self ..
  refine ⟨h.heapMapped, done, _, hg, hnext.heapMapped, ?_, ?_, ?_, ?_⟩
  · rw [hp]
    exact fun u w hu hn hw => (hout.fresh u w hu hn hw).2.2
  · exact fun u w hu _ hw q v w' hv hw' he => hnext.alone hu hw hv hw' he
  · rw [hp]
    exact hout.kept
  · rw [hp]
    exact hout.failed

theorem inStep_boot (h : Boots ph k) : k.InStep 0 := by
  obtain ⟨tf, page, hb⟩ := h.booted
  have hzero : ∀ q u f, q ≠ 0 → ¬ (k.proc q).LeafAt u f := fun q u f hq hl => by
    obtain ⟨-, -, -, w, hw, -⟩ := hl
    rw [hb.others q hq] at hw
    cases (leaf_absent u).symm.trans hw
  have hsz : (k.proc 0).sz = pgsize := by rw [hb.proc]
  have hlt := trapframeVpn_lt
  have htramp : trampolineVpn = trapframeVpn + 1 := by decide
  have hpos : 0 < trapframeVpn := by decide
  have hleaf : ∀ u < trapframeVpn, (k.proc 0).pagetable.leaf u =
      if u = 0 then some (leafWord page heapPerm) else none := fun u hu => by
    rw [hb.leaf u (by omega), if_neg (by omega), if_neg (by omega)]
  refine ⟨basic_boot h, by rw [hb.proc]; exact nofun, ?_, fun u hu => ?_, fun u w hu hw => ?_⟩
  · refine (iso_boot h).frames.weaken fun p q u f hne hp hq _ => ⟨fun he => ?_, fun he => ?_⟩
    · exact hzero q u f (fun hq0 => hne (he.trans hq0.symm)) hq
    · exact hzero p u f (fun hp0 => hne (hp0.trans he.symm)) hp
  · rw [hleaf u hu, hsz, show npages pgsize = 1 by decide]
    by_cases h0 : u = 0
    · simp [h0]
    · simp [h0]
  · rw [hsz, show npages pgsize = 1 by decide] at hu
    rw [hleaf u (by omega), if_pos (by omega)] at hw
    cases hw
    rw [pteFlags_leafWord _ (by decide)]
    decide

/-- `sbrk(-1)` of the first process: its page stays. -/
theorem sbrk_in_step_boot : ∃ k k', Boots (.ofPages 9) k ∧ k.InStep 0 ∧ k.HeapMapped 0 ∧
    growproc k 0 (2 ^ 32 - 1) = .ok (true, k') ∧ (k'.proc 0).sz = 4095 ∧ SbrkCall k k' 0 true := by
  have hends : bootRun.ends 9 [] (fun k => (growproc k 0 (2 ^ 32 - 1)).toOption.any fun x =>
      x.1 && (x.2.proc 0).sz == 4095) = true := by decide +kernel
  obtain ⟨k, _, hboot, hrun, hcheck⟩ := bootRun.of_ends (by decide) (by decide) hends
  cases hrun
  obtain ⟨hmapped, done, k', hg, hcall⟩ :=
    sbrk_in_step (inStep_boot hboot) .refl (show 2 ^ 32 - 1 < 2 ^ 32 by decide)
  rw [hg] at hcheck
  simp only [Except.toOption, Option.any_some, Bool.and_eq_true, beq_iff_eq] at hcheck
  obtain ⟨rfl, hsz⟩ := hcheck
  exact ⟨k, k', hboot, inStep_boot hboot, hmapped, hg, hsz, hcall⟩

/-- The page that `sbrk(PGSIZE)` gives to process `p` is one that process `q` maps at `v`. -/
def Kernel.grabs (p q v : Nat) (k : Kernel) : Bool :=
  (List.range maxMmr).all (fun i => !((k.proc p).mmr i).valid) &&
    match growproc k p pgsize with
    | .ok (true, k') => match (k'.proc p).pagetable.leaf 1, (k'.proc q).pagetable.leaf v with
      | some w, some w' => (k.proc p).pagetable.leaf 1 == none && pte2pa w' == pte2pa w
      | _, _ => false
    | _ => false

/-- A page of a shared region is freed by the `munmap` of one holder while a child still maps it,
and goes to the heap of the process, which has no region any more. -/
theorem sbrk_takes_mapped_frame : ∃ ph k₀ k k', Boots ph k₀ ∧ Run.exec Kernel.step k₀
      [.mmap 0 pgsize (pteR ||| pteW) mapShared, .access 0 true (trapframe - pgsize), .fork 0,
        .fork 0, .exit 1 0, .wait 0 0, .munmap 0 (trapframe - pgsize) pgsize] = .ok k ∧
    (∀ i < maxMmr, ((k.proc 0).mmr i).valid = false) ∧ growproc k 0 pgsize = .ok (true, k') ∧
    ¬ SbrkCall k k' 0 true := by
  have hends : bootRun.ends 40 [.mmap 0 pgsize (pteR ||| pteW) mapShared,
      .access 0 true (trapframe - pgsize), .fork 0, .fork 0, .exit 1 0, .wait 0 0,
      .munmap 0 (trapframe - pgsize) pgsize] (Kernel.grabs 0 2 (trapframeVpn - 1)) = true := by
    decide +kernel
  obtain ⟨k₀, k, hboot, hrun, hcheck⟩ := bootRun.of_ends (by decide) (by decide) hends
  simp only [Kernel.grabs, Bool.and_eq_true, List.all_eq_true, mem_range, Bool.not_eq_true']
    at hcheck
  obtain ⟨hnone, hcheck⟩ := hcheck
  split at hcheck
  · rename_i k' hg
    split at hcheck
    · rename_i w w' hw hw'
      simp only [Bool.and_eq_true, beq_iff_eq] at hcheck
      refine ⟨_, k₀, k, k', hboot, hrun, hnone, hg, fun h => ?_⟩
      cases (h.alone 1 w (by decide) hcheck.1 hw 2 _ w' (by decide) hw' hcheck.2).1
    · cases hcheck
  · cases hcheck

/-! ## The size that a call asks for -/

theorem uvmallocLoop_size {a r : Nat} {vm : PageTable × Phys}
    (h : uvmallocLoop oldsz newsz n a pt ph = .ok (r, vm)) : r = newsz ∨ r = 0 := by
  induction n generalizing a pt ph with
  | zero =>
    cases h
    exact .inl rfl
  | succ n ih =>
    rcases uvmallocLoop_succ h with ⟨_, _, _, _, -, -, h⟩ | ⟨hr, -⟩
    · exact ih h
    · exact .inr hr

theorem growproc_sz (h : growproc k p n = .ok (true, k')) :
    (k'.proc p).sz = if n = 0 then (k.proc p).sz % 2 ^ 32
      else if n < 2 ^ 31 then max ((k.proc p).sz % 2 ^ 32) (((k.proc p).sz % 2 ^ 32 + n) % 2 ^ 32)
      else min ((k.proc p).sz % 2 ^ 32) (((k.proc p).sz % 2 ^ 32 + n) % 2 ^ 32) := by
  unfold growproc at h
  dsimp only at h
  split at h
  · rename_i hn
    cases h
    rw [if_pos hn, proc_setProc_self]
  rename_i hn
  rw [if_neg hn]
  split at h
  · rename_i hpos
    rw [if_pos hpos]
    obtain ⟨⟨r, vm⟩, halloc, h⟩ := bind_eq_ok.1 h
    split at h
    · cases h
    cases h
    rw [proc_setProc_self]
    unfold uvmalloc at halloc
    split at halloc
    · cases halloc
      dsimp only
      omega
    · have := uvmallocLoop_size halloc
      dsimp only
      omega
  · rename_i hneg
    rw [if_neg hneg]
    obtain ⟨⟨r, vm⟩, hdealloc, h⟩ := bind_eq_ok.1 h
    cases h
    rw [proc_setProc_self]
    unfold uvmdealloc at hdealloc
    split at hdealloc
    · cases hdealloc
      dsimp only
      omega
    · split at hdealloc
      · obtain ⟨_, -, hdealloc⟩ := bind_eq_ok.1 hdealloc
        cases hdealloc
        dsimp only
        omega
      · cases hdealloc
        dsimp only
        omega

/-- `sbrk(n)` that succeeds changes the size by `n`. -/
def Kernel.SbrkExact (k : Kernel) (p : Nat) (n : Int) : Prop :=
  ∀ k', growproc k p (n % 2 ^ 32).toNat = .ok (true, k') →
    ((k'.proc p).sz : Int) = (k.proc p).sz + n

def Kernel.SizeFits (k : Kernel) (p : Nat) (n : Int) : Prop :=
  (k.proc p).sz < 2 ^ 32 ∧ 0 ≤ (k.proc p).sz + n ∧ (k.proc p).sz + n < 2 ^ 32

/-- A call that asks for a size that does not fit succeeds: it takes the branches of `uvmalloc` and
`uvmdealloc` that do nothing. -/
theorem growproc_of_not_fits {n : Int} (hn : -2 ^ 31 ≤ n ∧ n < 2 ^ 31)
    (hlt : (k.proc p).sz < 2 ^ 32) (hno : ¬ k.SizeFits p n) :
    ∃ k', growproc k p (n % 2 ^ 32).toNat = .ok (true, k') := by
  unfold Kernel.SizeFits at hno
  unfold growproc
  dsimp only
  split
  · exact ⟨_, rfl⟩
  split
  · rw [uvmalloc, if_pos (by omega), ok_bind]
    rw [if_neg (by omega)]
    exact ⟨_, rfl⟩
  · rw [uvmdealloc, if_pos (by omega)]
    exact ⟨_, rfl⟩

/-- `sbrk` changes the size as it is asked to exactly when the new size fits. -/
theorem sbrkExact_iff (k : Kernel) (p : Nat) {n : Int} (hn : -2 ^ 31 ≤ n ∧ n < 2 ^ 31) :
    (∀ k', growproc k p (n % 2 ^ 32).toNat = .ok (true, k') →
      (((k'.proc p).sz : Int) = (k.proc p).sz + n ↔ k.SizeFits p n)) ∧
    ((k.proc p).sz < 2 ^ 32 → (k.SbrkExact p n ↔ k.SizeFits p n)) := by
  have hsz : ∀ k', growproc k p (n % 2 ^ 32).toNat = .ok (true, k') →
      (((k'.proc p).sz : Int) = (k.proc p).sz + n ↔ k.SizeFits p n) := by
    intro k' h
    rw [growproc_sz h, Kernel.SizeFits]
    split
    · omega
    · split <;> omega
  refine ⟨hsz, fun hlt => ⟨fun h => ?_, fun h k' hg => (hsz k' hg).2 h⟩⟩
  by_contra hno
  obtain ⟨k', hg⟩ := growproc_of_not_fits hn hlt hno
  exact hno ((hsz k' hg).1 (h k' hg))

theorem exists_boots_page : ∃ k, Boots (.ofPages 9) k ∧ (k.proc 0).sz = pgsize := by
  have hends : bootRun.ends 9 [] (fun _ => true) = true := by decide +kernel
  obtain ⟨k, k', hboot, -, -⟩ := bootRun.of_ends (by decide) (by decide) hends
  obtain ⟨tf, page, hb⟩ := hboot.booted
  exact ⟨k, hboot, by rw [hb.proc]⟩

/-- `sbrk(-2 * PGSIZE)` of a process of one page. -/
theorem not_sbrkExact_shrink : ∃ k, Boots (.ofPages 9) k ∧ ¬ k.SbrkExact 0 (-8192) := by
  obtain ⟨k, hboot, hsz⟩ := exists_boots_page
  refine ⟨k, hboot, fun h => ?_⟩
  obtain ⟨k', hg⟩ := growproc_of_not_fits (k := k) (p := 0) (n := -8192) (by decide)
    (by rw [hsz]; decide) (by rw [Kernel.SizeFits, hsz]; decide)
  have hnew := h k' hg
  rw [hsz] at hnew
  change ((k'.proc 0).sz : Int) = -4096 at hnew
  omega

theorem sbrkExact_iff_grow : ∃ k, Boots (.ofPages 9) k ∧ k.SbrkExact 0 4096 := by
  obtain ⟨k, hboot, hsz⟩ := exists_boots_page
  refine ⟨k, hboot, ((sbrkExact_iff k 0 (n := 4096) (by decide)).2 (by rw [hsz]; decide)).2 ?_⟩
  rw [Kernel.SizeFits, hsz]
  decide

end Xv6
