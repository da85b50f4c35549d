/-
The frames of any number of address spaces.  The calls are those of `growproc`, `exec` and
`fork`: each space keeps the size that its owner passes to the next call, a copy goes into a space
without a heap, and a trapframe page is the caller's own.  Every frame has one place, whichever of
the allocations fail.
-/
import Xv6.Vm.CopyFail

namespace Xv6

open Run List

variable {f i : Nat} {ph ph' : Phys} {a b : Space}

/-- A page table with the size of its heap, and the trapframe page if `proc_pagetable` made it. -/
structure Space where
  pt : PageTable
  sz : Nat
  tf : Option Nat

namespace Space

def leaves (a : Space) : List Nat := a.pt.frames (List.range' 0 (npages a.sz))

/-- The frames that the space owns: the pages of the table and the leaves of the heap. -/
def frames (a : Space) : List Nat := a.pt.pages ++ a.leaves

def fixed (a : Space) (u : Nat) : Option Nat := a.tf.bind fun f => fixedLeaf f u

/-- The heap is mapped page by page, and nothing else but what `proc_pagetable` mapped. -/
structure Ok (a : Space) : Prop where
  present : a.pt.isNull = false
  small : a.sz ≤ maxva
  heap : ∀ u < npages a.sz, HeapPage a.pt u
  rest : ∀ u < nvpn, npages a.sz ≤ u → a.pt.leaf u = a.fixed u
  apart : ∀ u < npages a.sz, a.fixed u = none
  tf : ∀ f, a.tf = some f → RamPage f

theorem Ok.leaf_none (h : a.Ok) {u : Nat} (hge : npages a.sz ≤ u) (hlt : u < trapframeVpn) :
    a.pt.leaf u = none := by
  have hvpn : trapframeVpn < nvpn := by decide
  rw [h.rest u (by omega) hge, fixed]
  cases a.tf with
  | none => rfl
  | some f => exact fixedLeaf_heap hlt

end Space

/-- Physical memory, the pages that callers hold, and the address spaces. -/
structure Spaces where
  phys : Phys
  held : List Nat
  spaces : List Space

namespace Spaces

/-- The calls; a space is named by its position. -/
inductive Call where
  | kalloc
  | kfree (f : Nat)
  | uvmcreate
  | procPagetable (tf : Nat)
  | uvmalloc (i newsz : Nat)
  | uvmdealloc (i newsz : Nat)
  | uvmcopy (i j : Nat)
  | uvmfree (i : Nat)
  | procFreepagetable (i : Nat)

def onSpace (s : Spaces) (i : Nat) (call : Space → Except Panic Spaces) : Except Panic Spaces :=
  match s.spaces[i]? with
  | none => .ok s
  | some a => call a

def put (s : Spaces) (i : Nat) (a : Space) (ph : Phys) : Spaces :=
  { s with phys := ph, spaces := s.spaces.set i a }

/-- A call, and what its caller keeps of the result.  A call that no caller makes (on a space
that is not there, a copy onto a heap, a free of the wrong kind) does nothing. -/
def step (s : Spaces) : Call → Except Panic Spaces
  | .kalloc =>
    match Xv6.kalloc s.phys with
    | none => .ok s
    | some (f, ph) => .ok { s with phys := ph, held := f :: s.held }
  | .kfree f =>
    if f ∈ s.held then do
      let ph ← Xv6.kfree s.phys f
      return { s with phys := ph, held := s.held.erase f }
    else .ok s
  | .uvmcreate =>
    match Xv6.uvmcreate s.phys with
    | none => .ok s
    | some (pt, ph) => .ok { s with phys := ph, spaces := s.spaces ++ [⟨pt, 0, none⟩] }
  | .procPagetable tf =>
    if tf ∈ s.held then do
      let (pt, ph) ← Xv6.procPagetable s.phys tf
      if pt.isNull then return { s with phys := ph }
      else return { s with phys := ph, spaces := s.spaces ++ [⟨pt, 0, some tf⟩] }
    else .ok s
  | .uvmalloc i newsz => s.onSpace i fun a => do
      let (sz, pt, ph) ← Xv6.uvmalloc a.pt s.phys a.sz newsz
      -- the size stays on error
      return s.put i { a with pt, sz := if sz = 0 then a.sz else sz } ph
  | .uvmdealloc i newsz => s.onSpace i fun a => do
      let (sz, pt, ph) ← Xv6.uvmdealloc a.pt s.phys a.sz newsz
      return s.put i { a with pt, sz } ph
  | .uvmcopy i j => s.onSpace i fun a => s.onSpace j fun b =>
    if i ≠ j ∧ b.sz = 0 then do
      let (ok, pt, ph) ← Xv6.uvmcopy a.pt b.pt s.phys 0 a.sz
      return s.put j { b with pt, sz := if ok then a.sz else 0 } ph
    else .ok s
  | .uvmfree i => s.onSpace i fun a =>
    if a.tf = none then do
      let ph ← Xv6.uvmfree a.pt s.phys a.sz
      return { s with phys := ph, spaces := s.spaces.eraseIdx i }
    else .ok s
  | .procFreepagetable i => s.onSpace i fun a =>
    if a.tf ≠ none then do
      let ph ← Xv6.procFreepagetable a.pt s.phys a.sz
      return { s with phys := ph, spaces := s.spaces.eraseIdx i }
    else .ok s

/-- The places of frames, one after the other: the free list, the pages that callers hold, and
the pages of the tables and the leaves, space by space. -/
def placed (s : Spaces) : List Nat :=
  s.phys.freelist ++ s.held ++ s.spaces.flatMap Space.frames

def boot (ph : Phys) : Spaces := { phys := ph, held := [], spaces := [] }

/-- Every frame has its one place, and the spaces are mapped as their sizes say. -/
structure Inv (frames : List Nat) (s : Spaces) : Prop where
  placed : s.placed.Perm frames
  ok : ∀ a ∈ s.spaces, a.Ok

theorem count_placed (s : Spaces) (f : Nat) : s.placed.count f =
    s.phys.freelist.count f + s.held.count f + (s.spaces.flatMap Space.frames).count f := by
  rw [Spaces.placed, count_append, count_append]

theorem Inv.of_count {frames : List Nat} {s s' : Spaces} (h : Inv frames s)
    (hcount : ∀ f, s'.placed.count f = s.placed.count f) (hok : ∀ a ∈ s'.spaces, a.Ok) :
    Inv frames s' :=
  ⟨(perm_iff_count.2 hcount).trans h.placed, hok⟩

section

variable {frames : List Nat} {s : Spaces} (hnd : frames.Nodup)
  (hram : ∀ f ∈ frames, RamPage f) (h : Inv frames s)

include hram h

theorem Inv.ram (hf : f ∈ s.placed) : RamPage f := hram f (h.placed.mem_iff.1 hf)

theorem Inv.ram_free : ∀ f ∈ s.phys.freelist, RamPage f := fun f hf =>
  h.ram hram (by simp [Spaces.placed, hf])

theorem Inv.ram_held : ∀ f ∈ s.held, RamPage f := fun f hf =>
  h.ram hram (by simp [Spaces.placed, hf])

theorem Inv.ram_pages (ha : a ∈ s.spaces) : ∀ f ∈ a.pt.pages, RamPage f := by
  intro f hf
  refine h.ram hram (mem_append_right _ (mem_flatMap.2 ⟨a, ha, ?_⟩))
  exact mem_append_left _ hf

include hnd

theorem Inv.length_placed : s.placed.length ≤ trapframeVpn := by
  rw [h.placed.length_eq]
  exact (ram_length_le hnd hram).trans ram_le_trapframeVpn

theorem Inv.room (ha : a ∈ s.spaces) : npages a.sz + s.phys.freelist.length ≤ trapframeVpn := by
  refine le_trans ?_ (h.length_placed hnd hram)
  have hsub : a.frames.Sublist (s.spaces.flatMap Space.frames) :=
    sublist_flatten_of_mem (mem_map_of_mem ha)
  have hlen := hsub.length_le
  simp only [Space.frames, Space.leaves, PageTable.frames, length_append, length_map,
    length_range'] at hlen
  simp only [Spaces.placed, length_append]
  omega

end

/-! ## Calls on one space -/

theorem frames_of_leaf {pt pt' : PageTable} {vs : List Nat}
    (h : ∀ u ∈ vs, pt'.leaf u = pt.leaf u ∧ HeapPage pt u) : pt'.frames vs = pt.frames vs := by
  refine frames_congr fun u hu => ?_
  obtain ⟨heq, f, -, hl⟩ := h u hu
  rw [(PageTable.leaf_eq_some.1 hl).1, (PageTable.leaf_eq_some.1 (heq.trans hl)).1]

theorem frames_split (pt : PageTable) {m n : Nat} (h : m ≤ n) :
    pt.frames (List.range' 0 n) = pt.frames (List.range' 0 m) ++ pt.frames (List.range' m (n - m)) := by
  have hsplit : List.range' 0 n = List.range' 0 m ++ List.range' m (n - m) := by
    have := List.range'_append_1 (s := 0) (m := m) (n := n - m)
    rw [Nat.zero_add] at this
    rw [this, Nat.add_sub_cancel' h]
  rw [hsplit, PageTable.frames, map_append]
  rfl

theorem size_le {sz : Nat} (h : npages sz ≤ maxvpn) : sz ≤ maxva := by
  have hmul := mul_le_maxva h
  have hsz : sz ≤ npages sz * pgsize := by
    unfold npages pgsize
    omega
  omega

/-- A call has turned the space `a` into `b`: every frame it took or gave back is accounted for. -/
def Balanced (a : Space) (ph : Phys) (b : Space) (ph' : Phys) : Prop :=
  ∀ f, ph'.freelist.count f + b.frames.count f = ph.freelist.count f + a.frames.count f

section

variable {a : Space} {ph ph' : Phys} {pt : PageTable} {sz newsz : Nat}

theorem grown {perm word : Nat → Nat} (ha : a.Ok) (hsz : npages a.sz ≤ npages newsz)
    (hmax : newsz ≤ maxva)
    (hfill : Filled a.pt ph (List.range' (npages a.sz) (npages newsz - npages a.sz)) perm [] word
      pt ph') (hnew : ∀ u, npages a.sz ≤ u → u < npages newsz → HeapPage pt u) :
    Space.Ok { a with pt, sz := newsz } ∧ Balanced a ph { a with pt, sz := newsz } ph' := by
  have hvpn := npages_le hmax
  have hle : maxvpn ≤ nvpn := by decide
  have hsame : ∀ u < npages a.sz, pt.leaf u = a.pt.leaf u ∧ HeapPage a.pt u := fun u hu =>
    ⟨hfill.other u (by omega) (by rw [mem_range']; omega) (by simp), ha.heap u hu⟩
  refine ⟨⟨hfill.acct.null.trans ha.present, hmax, fun u hu => ?_, fun u hu hge => ?_,
    fun u hu => ?_, ha.tf⟩, fun f => ?_⟩
  · by_cases hold : u < npages a.sz
    · obtain ⟨heq, f, hf, hl⟩ := hsame u hold
      exact ⟨f, hf, heq.trans hl⟩
    · exact hnew u (by omega) hu
  · dsimp only at hge
    rw [hfill.other u hu (by rw [mem_range']; omega) (by simp)]
    exact ha.rest u hu (by omega)
  · -- a page that was free to be mapped is not one of the fixed ones
    by_cases hold : u < npages a.sz
    · exact ha.apart u hold
    · have hnone := (hfill.unmapped u (.inl (mem_range'.2 (by dsimp only at hu; omega)))).2
      exact (ha.rest u (by dsimp only at hu; omega) (by omega)).symm.trans hnone
  · have hc := hfill.acct.cons f
    have hframes : pt.frames (List.range' 0 (npages a.sz)) =
        a.pt.frames (List.range' 0 (npages a.sz)) :=
      frames_of_leaf fun u hu => hsame u (by have := (mem_range'.1 hu).2; omega)
    simp only [Space.frames, Space.leaves, count_append, frames_split pt hsz, hframes,
      count_nil] at hc ⊢
    omega

theorem same_leaves (ha : a.Ok) (hacct : Acct a.pt ph pt ph' [] [])
    (hleaf : ∀ u < nvpn, pt.leaf u = a.pt.leaf u) :
    Space.Ok { a with pt } ∧ Balanced a ph { a with pt } ph' := by
  have hfill := (Filled.nil a.pt ph (fun _ => 0) fun _ => 0).keep hacct hleaf
  exact grown ha le_rfl ha.small (by rwa [Nat.sub_self]) fun u h1 h2 => by omega

theorem uvmalloc_balanced (ha : a.Ok) (hram : ∀ f ∈ ph.freelist, RamPage f)
    (h : Xv6.uvmalloc a.pt ph a.sz newsz = .ok (sz, pt, ph')) :
    Space.Ok { a with pt, sz := if sz = 0 then a.sz else sz } ∧
      Balanced a ph { a with pt, sz := if sz = 0 then a.sz else sz } ph' := by
  rcases uvmalloc_eq_ok hram ha.small h with
    ⟨-, rfl, rfl, rfl⟩ | ⟨hge, rfl, hfill, hmax⟩ | ⟨-, rfl, hacct, hleaf⟩
  · rw [ite_self]
    exact ⟨ha, fun f => rfl⟩
  · have hsize : (if sz = 0 then a.sz else sz) = sz := by
      split <;> omega
    rw [hsize]
    refine grown ha (npages_mono hge) ?_ hfill fun u h1 h2 =>
      hfill.new u (mem_range'.2 ⟨h1, by omega⟩)
    by_cases hlt : npages a.sz < npages sz
    · exact hmax hlt
    · exact size_le (le_trans (by omega) (npages_le ha.small))
  · rw [if_pos rfl]
    exact same_leaves ha hacct hleaf

theorem uvmdealloc_balanced (ha : a.Ok)
    (h : Xv6.uvmdealloc a.pt ph a.sz newsz = .ok (sz, pt, ph')) :
    Space.Ok { a with pt, sz } ∧ Balanced a ph { a with pt, sz } ph' := by
  obtain ⟨hmin, hacct, -, hleaf⟩ := uvmdealloc_eq_ok ha.small h
  have hvpn := npages_le ha.small
  have hle : maxvpn ≤ nvpn := by decide
  have hcut : npages sz ≤ npages a.sz := npages_mono (by omega)
  have hsz : npages sz = min (npages a.sz) (npages newsz) := by
    rcases Nat.le_total a.sz newsz with hc | hc
    · have := npages_mono hc
      rw [hmin, Nat.min_eq_left hc, Nat.min_eq_left this]
    · have := npages_mono hc
      rw [hmin, Nat.min_eq_right hc, Nat.min_eq_right this]
  have hsame : ∀ u < npages sz, pt.leaf u = a.pt.leaf u ∧ HeapPage a.pt u := fun u hu =>
    ⟨by rw [hleaf u (by omega), if_neg (by omega)], ha.heap u (by omega)⟩
  refine ⟨⟨hacct.null.trans ha.present, ?_, fun u hu => ?_, fun u hu hge => ?_, fun u hu => ?_,
    ha.tf⟩, fun f => ?_⟩
  · have := ha.small
    dsimp only
    omega
  · obtain ⟨heq, f, hf, hl⟩ := hsame u hu
    exact ⟨f, hf, heq.trans hl⟩
  · dsimp only at hge
    rw [hleaf u hu]
    by_cases hmid : u < npages a.sz
    · rw [if_pos (by omega)]
      exact (ha.apart u hmid).symm
    · rw [if_neg (by omega)]
      exact ha.rest u hu (by omega)
  · exact ha.apart u (by dsimp only at hu; omega)
  · have hc := hacct.cons f
    have hframes : pt.frames (List.range' 0 (npages sz)) =
        a.pt.frames (List.range' 0 (npages sz)) :=
      frames_of_leaf fun u hu => hsame u (by have := (mem_range'.1 hu).2; omega)
    have hdiff : a.pt.frames (List.range' (npages newsz) (npages a.sz - npages newsz)) =
        a.pt.frames (List.range' (npages sz) (npages a.sz - npages sz)) := by
      rcases Nat.le_total (npages a.sz) (npages newsz) with hc | hc
      · rw [Nat.sub_eq_zero_of_le hc, hsz, Nat.min_eq_left hc, Nat.sub_self]
        rfl
      · rw [hsz, Nat.min_eq_right hc]
    rw [hdiff] at hc
    simp only [Space.frames, Space.leaves, count_append, frames_split a.pt hcut, hframes,
      count_nil] at hc ⊢
    omega

theorem uvmcopy_balanced {ok : Bool} (ha : a.Ok) (hb : b.Ok) (hempty : b.sz = 0)
    (hram : ∀ f ∈ ph.freelist, RamPage f)
    (h : Xv6.uvmcopy a.pt b.pt ph 0 a.sz = .ok (ok, pt, ph')) :
    Space.Ok { b with pt, sz := if ok then a.sz else 0 } ∧
      Balanced b ph { b with pt, sz := if ok then a.sz else 0 } ph' := by
  obtain ⟨hgood, hbad⟩ := uvmcopy_heap_eq_ok hram h
  cases ok with
  | true =>
    obtain ⟨hfill, -⟩ := hgood rfl
    have hzero : npages b.sz = 0 := by rw [hempty]; decide
    refine grown hb (by omega) ha.small (by rwa [hzero]) fun u _ hu =>
      hfill.heapPage ha.heap hu
  | false =>
    obtain ⟨hacct, hleaf⟩ := hbad rfl
    have hkeep := same_leaves hb hacct hleaf
    rwa [hempty] at hkeep

end

/-! ## Every call -/

section

variable {frames : List Nat} {s : Spaces}

theorem Inv.put (h : Inv frames s) (hi : s.spaces[i]? = some a) (hb : b.Ok)
    (hbal : Balanced a s.phys b ph') : Inv frames (s.put i b ph') := by
  refine h.of_count (fun f => ?_) fun c hc => ?_
  · have h1 := Listing.count_flatMap_set hi b Space.frames f
    have h2 := hbal f
    rw [count_placed, count_placed, Spaces.put]
    dsimp only
    omega
  · rcases mem_or_eq_of_mem_set hc with hc | rfl
    · exact h.ok c hc
    · exact hb

theorem Inv.push (h : Inv frames s) (hb : b.Ok)
    (hcount : ∀ f, s.phys.freelist.count f = ph'.freelist.count f + b.frames.count f) :
    Inv frames { s with phys := ph', spaces := s.spaces ++ [b] } := by
  refine h.of_count (fun f => ?_) fun c hc => ?_
  · have := hcount f
    rw [count_placed, count_placed]
    simp only [flatMap_append, flatMap_singleton, count_append]
    omega
  · rcases mem_append.1 hc with hc | hc
    · exact h.ok c hc
    · rwa [mem_singleton.1 hc]

theorem Inv.drop (h : Inv frames s) (hi : s.spaces[i]? = some a)
    (hcount : ∀ f, ph'.freelist.count f = s.phys.freelist.count f + a.frames.count f) :
    Inv frames { s with phys := ph', spaces := s.spaces.eraseIdx i } := by
  refine h.of_count (fun f => ?_) fun c hc => h.ok c (mem_of_mem_eraseIdx hc)
  have h1 := Listing.count_flatMap_eraseIdx hi Space.frames f
  have h2 := hcount f
  rw [count_placed, count_placed]
  dsimp only
  omega

theorem count_frames_zero (pt : PageTable) (tf : Option Nat) (f : Nat) :
    (Space.frames ⟨pt, 0, tf⟩).count f = pt.pages.count f := by
  simp [Space.frames, Space.leaves, PageTable.frames, npages, pgsize]

theorem count_uvmfree (hsmall : a.sz ≤ maxva) (h : Xv6.uvmfree a.pt ph a.sz = .ok ph') (f : Nat) :
    ph'.freelist.count f = ph.freelist.count f + a.frames.count f := by
  rw [(uvmfree_eq_ok hsmall h).1 f, Space.frames, count_append, Space.leaves]
  omega

theorem count_procFreepagetable (hsmall : a.sz ≤ maxva)
    (h : Xv6.procFreepagetable a.pt ph a.sz = .ok ph') (f : Nat) :
    ph'.freelist.count f = ph.freelist.count f + a.frames.count f := by
  rw [(procFreepagetable_eq_ok hsmall h).1 f, Space.frames, count_append, Space.leaves]
  omega

theorem onSpace_ok (h : Inv frames s) {call : Space → Except Panic Spaces}
    (hcall : ∀ a, s.spaces[i]? = some a → ∃ s', call a = .ok s' ∧ Inv frames s') :
    ∃ s', s.onSpace i call = .ok s' ∧ Inv frames s' := by
  unfold onSpace
  cases hi : s.spaces[i]? with
  | none => exact ⟨s, rfl, h⟩
  | some a => exact hcall a hi

theorem uvmcreate_step (h : Inv frames s) :
    ∃ s', s.step .uvmcreate = .ok s' ∧ Inv frames s' := by
  unfold step
  cases hcreate : Xv6.uvmcreate s.phys with
  | none => exact ⟨s, rfl, h⟩
  | some q =>
    obtain ⟨hn, hleaf, hcount⟩ := uvmcreate_eq_some hcreate
    refine ⟨_, rfl, h.push ?_ fun f => ?_⟩
    · refine ⟨hn, Nat.zero_le _, fun u hu => ?_, fun u _ _ => hleaf u, fun u hu => rfl,
        fun f hf => (nomatch hf)⟩
      exact absurd hu (by simp [npages, pgsize])
    · rw [count_frames_zero]
      exact hcount f

variable (hnd : frames.Nodup) (hram : ∀ f ∈ frames, RamPage f)

include hram

theorem kfree_held (h : Inv frames s) (hf : f ∈ s.held) :
    ∃ s', s.step (.kfree f) = .ok s' ∧ Inv frames s' := by
  obtain ⟨ph', hfree, hlist⟩ : ∃ ph', Xv6.kfree s.phys f = .ok ph' ∧
      ph'.freelist = f :: s.phys.freelist := ⟨_, kfree_of_ram (h.ram_held hram f hf), rfl⟩
  refine ⟨{ s with phys := ph', held := s.held.erase f }, ?_, h.of_count (fun g => ?_) h.ok⟩
  · rw [step, if_pos hf]
    exact bind_eq_ok.2 ⟨_, hfree, rfl⟩
  · have hpos := count_pos_iff.2 hf
    rw [count_placed, count_placed]
    dsimp only
    rw [hlist, count_cons, count_erase]
    by_cases hg : f = g
    · subst hg
      simp only [beq_self_eq_true, if_true]
      omega
    · rw [if_neg (by simpa using hg)]
      omega

theorem procPagetable_step (h : Inv frames s) {tf : Nat} (htf : tf ∈ s.held) :
    ∃ s', s.step (.procPagetable tf) = .ok s' ∧ Inv frames s' := by
  obtain ⟨⟨pt, ph'⟩, hcall⟩ := procPagetable_ok (h.ram_free hram) tf
  obtain ⟨hnull, hmade⟩ := procPagetable_eq_ok hcall
  rw [step, if_pos htf]
  cases hn : pt.isNull with
  | true =>
    refine ⟨{ s with phys := ph' }, bind_eq_ok.2 ⟨_, hcall, by dsimp only; rw [if_pos hn]; rfl⟩,
      h.of_count (fun f => ?_) h.ok⟩
    rw [count_placed, count_placed, (hnull hn).2 f]
  | false =>
    obtain ⟨hcount, hleaf⟩ := hmade hn
    refine ⟨_, bind_eq_ok.2 ⟨_, hcall, by dsimp only; rw [hn]; rfl⟩, h.push ?_ fun f => ?_⟩
    · refine ⟨hn, Nat.zero_le _, fun u hu => ?_, fun u hu _ => hleaf u hu, fun u hu => ?_, ?_⟩
      · exact absurd hu (by simp [npages, pgsize])
      · exact absurd hu (by simp [npages, pgsize])
      · rintro f ⟨⟩
        exact h.ram_held hram _ htf
    · rw [count_frames_zero]
      exact hcount f

theorem uvmfree_total (h : Inv frames s) (ha : a ∈ s.spaces) (htf : a.tf = none) :
    ∃ ph', Xv6.uvmfree a.pt s.phys a.sz = .ok ph' := by
  have hok := h.ok a ha
  refine uvmfree_ok hok.present hok.small hok.heap (fun u hu hge => ?_) (h.ram_free hram)
    (h.ram_pages hram ha)
  rw [hok.rest u hu hge, Space.fixed, htf]
  rfl

include hnd

theorem procFreepagetable_total (h : Inv frames s) (ha : a ∈ s.spaces) (htf : a.tf ≠ none) :
    ∃ ph', Xv6.procFreepagetable a.pt s.phys a.sz = .ok ph' := by
  have hok := h.ok a ha
  obtain ⟨tf, htf⟩ := Option.ne_none_iff_exists'.1 htf
  refine procFreepagetable_ok hok.present (by have := h.room hnd hram ha; omega) hok.small
    hok.heap (hok.tf tf htf) (fun u hu hge => ?_) (h.ram_free hram) (h.ram_pages hram ha)
  rw [hok.rest u hu hge, Space.fixed, htf]
  rfl

theorem step_ok (h : Inv frames s) (c : Call) : ∃ s', s.step c = .ok s' ∧ Inv frames s' := by
  cases c with
  | kalloc =>
    unfold step
    cases halloc : Xv6.kalloc s.phys with
    | none => exact ⟨s, rfl, h⟩
    | some q =>
      refine ⟨_, rfl, h.of_count (fun g => ?_) h.ok⟩
      rw [count_placed, count_placed, kalloc_eq_some halloc]
      dsimp only
      rw [count_cons, count_cons]
      omega
  | kfree f =>
    by_cases hf : f ∈ s.held
    · exact kfree_held hram h hf
    · exact ⟨s, by rw [step, if_neg hf], h⟩
  | uvmcreate => exact uvmcreate_step h
  | procPagetable tf =>
    by_cases hf : tf ∈ s.held
    · exact procPagetable_step hram h hf
    · exact ⟨s, by rw [step, if_neg hf], h⟩
  | uvmalloc i newsz =>
    refine onSpace_ok h fun a hi => ?_
    have ha := mem_of_getElem? hi
    have hok := h.ok a ha
    obtain ⟨⟨sz, pt, ph'⟩, hcall⟩ := uvmalloc_ok newsz (h.ram_free hram) hok.present
      (show trapframeVpn ≤ maxvpn by decide) hok.small (fun u => hok.leaf_none)
      (h.room hnd hram ha)
    obtain ⟨hb, hbal⟩ := uvmalloc_balanced hok (h.ram_free hram) hcall
    exact ⟨_, bind_eq_ok.2 ⟨_, hcall, rfl⟩, h.put hi hb hbal⟩
  | uvmdealloc i newsz =>
    refine onSpace_ok h fun a hi => ?_
    have hok := h.ok a (mem_of_getElem? hi)
    obtain ⟨⟨sz, pt, ph'⟩, hcall⟩ := uvmdealloc_ok s.phys hok.present hok.small
      fun u (_ : npages newsz ≤ u) hu => (hok.heap u hu).unmappable
    obtain ⟨hb, hbal⟩ := uvmdealloc_balanced hok hcall
    exact ⟨_, bind_eq_ok.2 ⟨_, hcall, rfl⟩, h.put hi hb hbal⟩
  | uvmcopy i j =>
    refine onSpace_ok h fun a hi => onSpace_ok h fun b hj => ?_
    by_cases hc : i ≠ j ∧ b.sz = 0
    · have hoka := h.ok a (mem_of_getElem? hi)
      have hokb := h.ok b (mem_of_getElem? hj)
      have hroom := h.room hnd hram (mem_of_getElem? hi)
      have hzero : npages b.sz = 0 := by rw [hc.2]; decide
      obtain ⟨⟨ok, pt, ph'⟩, hcall⟩ := uvmcopy_ok (h.ram_free hram) hoka.present hokb.present
        (npages_le hoka.small) hoka.heap fun u hu => hokb.leaf_none (by omega) (by omega)
      obtain ⟨hb, hbal⟩ := uvmcopy_balanced hoka hokb hc.2 (h.ram_free hram) hcall
      rw [if_pos hc]
      exact ⟨_, bind_eq_ok.2 ⟨_, hcall, rfl⟩, h.put hj hb hbal⟩
    · exact ⟨s, by rw [if_neg hc], h⟩
  | uvmfree i =>
    refine onSpace_ok h fun a hi => ?_
    have ha := mem_of_getElem? hi
    by_cases htf : a.tf = none
    · obtain ⟨ph', hcall⟩ := uvmfree_total hram h ha htf
      rw [if_pos htf]
      exact ⟨_, bind_eq_ok.2 ⟨_, hcall, rfl⟩, h.drop hi (count_uvmfree (h.ok a ha).small hcall)⟩
    · exact ⟨s, by rw [if_neg htf], h⟩
  | procFreepagetable i =>
    refine onSpace_ok h fun a hi => ?_
    have ha := mem_of_getElem? hi
    by_cases htf : a.tf ≠ none
    · obtain ⟨ph', hcall⟩ := procFreepagetable_total hnd hram h ha htf
      rw [if_pos htf]
      exact ⟨_, bind_eq_ok.2 ⟨_, hcall, rfl⟩,
        h.drop hi (count_procFreepagetable (h.ok a ha).small hcall)⟩
    · exact ⟨s, by rw [if_neg htf], h⟩

end

/-- Whatever calls are made and wherever frames run out, every frame that was free at the start
is in one place: on the free list, held by a caller, a page of one table or a leaf of one.  No
call panics, and freeing a space puts all its frames on the free list. -/
theorem frames_conserved {ph : Phys} (hnd : ph.freelist.Nodup)
    (hram : ∀ f ∈ ph.freelist, RamPage f) (cs : List Call) :
    ∃ s, Run.exec step (boot ph) cs = .ok s ∧ s.placed.Perm ph.freelist ∧ s.placed.Nodup ∧
      ∀ a ∈ s.spaces,
        (a.tf = none → ∃ ph', Xv6.uvmfree a.pt s.phys a.sz = .ok ph' ∧
          ph'.freelist.Perm (s.phys.freelist ++ a.frames)) ∧
        (a.tf ≠ none → ∃ ph', Xv6.procFreepagetable a.pt s.phys a.sz = .ok ph' ∧
          ph'.freelist.Perm (s.phys.freelist ++ a.frames)) := by
  have h0 : Inv ph.freelist (boot ph) :=
    ⟨by simp [Spaces.placed, boot], fun a ha => (nomatch ha)⟩
  obtain ⟨s, hs, h⟩ := Run.exec_ok (I := Inv ph.freelist) (fun s c h => step_ok hnd hram h c) h0 cs
  refine ⟨s, hs, h.placed, h.placed.nodup_iff.2 hnd, fun a ha => ⟨fun htf => ?_, fun htf => ?_⟩⟩
  · obtain ⟨ph', hcall⟩ := uvmfree_total hram h ha htf
    refine ⟨ph', hcall, perm_iff_count.2 fun f => ?_⟩
    rw [count_uvmfree (h.ok a ha).small hcall, count_append]
  · obtain ⟨ph', hcall⟩ := procFreepagetable_total hnd hram h ha htf
    refine ⟨ph', hcall, perm_iff_count.2 fun f => ?_⟩
    rw [count_procFreepagetable (h.ok a ha).small hcall, count_append]

def fourteenFrames : Phys := ⟨(List.range' 0 14).map fun i => kernelEnd + i * pgsize, fun _ => 0⟩

/-- A process grows by two pages, and the copy of its heap for a child runs out of frames. -/
def failedCopy : List Call :=
  [.kalloc, .procPagetable kernelEnd, .uvmalloc 0 (2 * pgsize), .kalloc,
    .procPagetable (kernelEnd + 8 * pgsize), .uvmcopy 0 1, .procFreepagetable 1]

theorem frames_conserved_failedCopy : ∃ s, Run.exec step (boot fourteenFrames) failedCopy = .ok s ∧
    s.placed.Perm fourteenFrames.freelist ∧ s.phys.freelist.length = 5 ∧ s.spaces.length = 1 := by
  obtain ⟨s, hs, hperm, -⟩ :=
    frames_conserved (show fourteenFrames.freelist.Nodup by decide) (by decide) failedCopy
  have hends : Run.ends step (boot fourteenFrames) failedCopy
      (fun s => s.phys.freelist.length == 5 && s.spaces.length == 1) = true := by decide +kernel
  obtain ⟨s', hs', hcheck⟩ := Run.of_ends hends
  cases hs.symm.trans hs'
  simp only [Bool.and_eq_true, beq_iff_eq] at hcheck
  exact ⟨s, hs, hperm, hcheck⟩

end Spaces

end Xv6
