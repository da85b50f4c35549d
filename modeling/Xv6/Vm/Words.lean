/-
Page tables as `walk` and `mappages` of `kernel/vm.c` find them in memory: pages of 512 words,
linked by the frame numbers in their entries.  A table whose pages are all distinct is read
as a tree, and the functions on words do to it what those of `Vm.Basic` do to the tree.
-/
import Xv6.Vm.Total

namespace Xv6

open Function PageTable List
open Run (bind_eq_ok ok_bind)

variable {next : List Nat} {f l p page v va : Nat} {pt : PageTable} {m m' : Ram}

variable {c g i root : Nat} {ph : Phys}

/-- Physical memory as words of 64 bits by address, and the pages on `kmem.freelist`. -/
structure Ram where
  freelist : List Nat
  word : Nat → Nat

namespace Ram

/-- `memset(pa, c, PGSIZE)`, where `w` is the word of eight bytes `c`. -/
def memset (m : Ram) (pa w : Nat) : Ram :=
  { m with word := fun a => if pa ≤ a ∧ a < pa + pgsize then w else m.word a }

/-- `*a = w` -/
def store (m : Ram) (a w : Nat) : Ram := { m with word := update m.word a w }

def kalloc (m : Ram) : Option (Nat × Ram) :=
  match m.freelist with
  | [] => none
  | r :: next => some (r, Ram.memset { m with freelist := next } r 0x0505050505050505)

def px (level va : Nat) : Nat := va >>> (12 + 9 * level) &&& 0x1ff

/-- `&pagetable[PX(level, va)]` -/
def slot (pagetable level va : Nat) : Nat := pagetable + 8 * px level va

/-- The loop of `walk` from the given level down; the result is a pointer, 0 the null one. -/
def walkFrom (alloc : Bool) (va : Nat) : Nat → Nat → Ram → Nat × Ram
  | 0, pagetable, m => (slot pagetable 0 va, m)
  | level + 1, pagetable, m =>
    let pte := slot pagetable (level + 1) va
    if has (m.word pte) pteV then walkFrom alloc va level (pte2pa (m.word pte)) m
    else if !alloc then (0, m)
    else
      match m.kalloc with
      | none => (0, m)
      | some (page, m) =>
        walkFrom alloc va level page ((m.memset page 0).store pte (pa2pte page ||| pteV))

def walk (m : Ram) (pagetable va : Nat) (alloc : Bool) : Except Panic (Nat × Ram) :=
  if va ≥ maxva then .error .walk else .ok (walkFrom alloc va 2 pagetable m)

def walkaddr (m : Ram) (pagetable va : Nat) : Except Panic Nat :=
  if va ≥ maxva then .ok 0
  else do
    let (pte, m) ← m.walk pagetable va false
    if pte = 0 then return 0
    else if !has (m.word pte) pteV then return 0
    else if !has (m.word pte) pteU then return 0
    else return pte2pa (m.word pte)

/-- The loop of `mappages`, with `n` pages to do after the one at `a`. -/
def mapLoop (pagetable perm : Nat) :
    Nat → Nat → Nat → Ram → Except Panic (Bool × Ram)
  | n, a, pa, m => do
      let (pte, m) ← m.walk pagetable a true
      if pte = 0 then return (false, m)
      else
        require (!has (m.word pte) pteV) .mappagesRemap
        let m := m.store pte (pa2pte pa ||| sext perm ||| pteV)
        match n with
        | 0 => return (true, m)
        | n + 1 => mapLoop pagetable perm n (Xv6.word (a + pgsize)) (Xv6.word (pa + pgsize)) m

def mappages (m : Ram) (pagetable va size pa perm : Nat) : Except Panic (Bool × Ram) :=
  if size = 0 then .error .mappagesSize
  else
    let a := pgrounddown va
    let last := pgrounddown (Xv6.word (va + size - 1))
    mapLoop pagetable perm (pagesTo a last) a pa m

/-! ## The tree in memory -/

/-- The pages of a table of level `l` at `f`, as the valid entries link them. -/
def tables (m : Ram) : Nat → Nat → List Nat
  | 0, f => [f]
  | l + 1, f =>
    (List.range 512).flatMap (fun i =>
      if has (m.word (f + 8 * i)) pteV then m.tables l (pte2pa (m.word (f + 8 * i))) else []) ++ [f]

/-- The tree that a table of level `l` at `f` stands for. -/
def load (m : Ram) : (l : Nat) → Nat → Radix.Table Nat l
  | 0, f => .page f fun i => if i < 512 then m.word (f + 8 * i) else 0
  | l + 1, f => .dir f fun i =>
    if i < 512 ∧ has (m.word (f + 8 * i)) pteV then m.load l (pte2pa (m.word (f + 8 * i)))
    else .absent

/-- The tables below a page of level `l + 1`, by entry. -/
def below (m : Ram) (l f i : Nat) : Radix.Table Nat l :=
  if i < 512 ∧ has (m.word (f + 8 * i)) pteV then m.load l (pte2pa (m.word (f + 8 * i)))
  else .absent

/-- No page of the table at `root` is shared or reached twice, the pages are in memory, and the
allocator has none of them and each of its own once. -/
structure WellFormed (m : Ram) (root : Nat) : Prop where
  nodup : (m.tables 2 root ++ m.freelist).Nodup
  ram : ∀ f ∈ m.tables 2 root ++ m.freelist, RamPage f

theorem px_eq (l va : Nat) : px l va = Radix.Table.digit 512 l (vpn va) := by
  unfold px Radix.Table.digit vpn pgsize
  rw [show (0x1ff : Nat) = 2 ^ 9 - 1 by decide, Nat.and_two_pow_sub_one_eq_mod,
    Nat.shiftRight_eq_div_pow, Nat.pow_add, Nat.pow_mul, Nat.div_div_eq_div_mul]

theorem px_lt (l va : Nat) : px l va < 512 := by
  rw [px_eq]
  exact Nat.mod_lt _ (by decide)

theorem pages_load (m : Ram) (l f : Nat) : (m.load l f).pages 512 = m.tables l f := by
  induction l generalizing f with
  | zero => rfl
  | succ l ih =>
    simp only [load, Radix.Table.pages]
    refine congrArg (· ++ [f]) (flatMap_congr fun i hi => ?_)
    rw [mem_range] at hi
    by_cases h : has (m.word (f + 8 * i)) pteV = true
    · rw [if_pos ⟨hi, h⟩, if_pos h, ih]
    · rw [if_neg (fun hc => h hc.2), if_neg h, Radix.Table.pages]

def Same (m m' : Ram) (f : Nat) : Prop := ∀ i < 512, m'.word (f + 8 * i) = m.word (f + 8 * i)

def Links (m : Ram) (f i c : Nat) : Prop :=
  i < 512 ∧ has (m.word (f + 8 * i)) pteV = true ∧ pte2pa (m.word (f + 8 * i)) = c

theorem root_mem_tables (m : Ram) (l f : Nat) : f ∈ m.tables l f := by
  cases l <;> simp [tables]

theorem mem_tables_of_links (h : m.Links f i c) (hg : g ∈ m.tables l c) :
    g ∈ m.tables (l + 1) f := by
  obtain ⟨hi, hv, rfl⟩ := h
  refine mem_append_left _ (mem_flatMap.2 ⟨i, mem_range.2 hi, ?_⟩)
  rwa [if_pos hv]

theorem load_congr (h : ∀ g ∈ m.tables l f, m.Same m' g) : m'.load l f = m.load l f := by
  induction l generalizing f with
  | zero =>
    simp only [load]
    congr 1
    funext i
    by_cases hi : i < 512
    · rw [if_pos hi, if_pos hi, h f (root_mem_tables m 0 f) i hi]
    · rw [if_neg hi, if_neg hi]
  | succ l ih =>
    simp only [load]
    congr 1
    funext i
    by_cases hi : i < 512
    · rw [h f (root_mem_tables m _ f) i hi]
      by_cases hv : has (m.word (f + 8 * i)) pteV = true
      · rw [if_pos ⟨hi, hv⟩, if_pos ⟨hi, hv⟩]
        exact ih fun g hg => h g (mem_tables_of_links ⟨hi, hv, rfl⟩ hg)
      · rw [if_neg (fun hc => hv hc.2), if_neg (fun hc => hv hc.2)]
    · rw [if_neg (fun hc => hi hc.1), if_neg (fun hc => hi hc.1)]

theorem tables_disjoint (h : (m.tables (l + 1) f).Nodup) (hi : m.Links f i c) :
    (m.tables l c).Nodup ∧ f ∉ m.tables l c ∧
      ∀ j c', m.Links f j c' → j ≠ i → ∀ g ∈ m.tables l c', g ∉ m.tables l c := by
  rw [tables, nodup_append] at h
  obtain ⟨hkids, -, hroot⟩ := h
  rw [nodup_flatMap] at hkids
  obtain ⟨hnd, hpair⟩ := hkids
  obtain ⟨hi, hv, rfl⟩ := hi
  have hn := hnd i (mem_range.2 hi)
  rw [if_pos hv] at hn
  refine ⟨hn, fun hf => ?_, fun j c' hj hne g hg hg' => ?_⟩
  · refine hroot f (mem_flatMap.2 ⟨i, mem_range.2 hi, ?_⟩) f (by simp) rfl
    rwa [if_pos hv]
  · obtain ⟨hj, hv', rfl⟩ := hj
    have : Std.Symm (onFun List.Disjoint fun i =>
        if has (m.word (f + 8 * i)) pteV then m.tables l (pte2pa (m.word (f + 8 * i))) else []) :=
      ⟨fun _ _ hd => hd.symm⟩
    have hdis := hpair.forall (mem_range.2 hj) (mem_range.2 hi) hne
    rw [onFun_apply, if_pos hv, if_pos hv'] at hdis
    exact hdis hg hg'

theorem Same.trans {m'' : Ram} (h : m.Same m' f) (h' : m'.Same m'' f) :
    m.Same m'' f := fun i hi => (h' i hi).trans (h i hi)

theorem Links.congr (h : m.Links f i c) (hs : m.Same m' f) : m'.Links f i c := by
  obtain ⟨hi, hv, hc⟩ := h
  rw [← hs i hi] at hv hc
  exact ⟨hi, hv, hc⟩

theorem same_memset (m : Ram) (w : Nat) (hf : f % pgsize = 0) (hg : g % pgsize = 0) (hne : g ≠ f) :
    m.Same (m.memset f w) g := by
  intro i hi
  refine if_neg ?_
  unfold pgsize at *
  omega

theorem same_store (m : Ram) (w : Nat) (hf : f % pgsize = 0) (hg : g % pgsize = 0) (hi : i < 512)
    (hne : g ≠ f) : m.Same (m.store (f + 8 * i) w) g := by
  intro j hj
  refine update_of_ne ?_ _ _
  unfold pgsize at *
  omega

theorem word_memset (m : Ram) (f w : Nat) (hi : i < 512) : (m.memset f w).word (f + 8 * i) = w := by
  refine if_pos ?_
  unfold pgsize
  omega

theorem load_zero (h : ∀ i < 512, m.word (g + 8 * i) = 0) (l : Nat) :
    m.load l g = Radix.Table.empty g l := by
  cases l with
  | zero =>
    simp only [load]
    congr 1
    funext i
    by_cases hi : i < 512
    · rw [if_pos hi, h i hi]
    · rw [if_neg hi]
  | succ l =>
    simp only [load]
    congr 1
    funext i
    refine if_neg fun hc => ?_
    rw [h i hc.1] at hc
    exact Bool.false_ne_true hc.2

theorem tables_zero (h : ∀ i < 512, m.word (g + 8 * i) = 0) (l : Nat) : m.tables l g = [g] := by
  rw [← pages_load, load_zero h, Radix.Table.pages_empty]

theorem below_of_links (h : m.Links f i c) : m.below l f i = m.load l c := by
  obtain ⟨hi, hv, hc⟩ := h
  rw [below, if_pos ⟨hi, hv⟩, hc]

theorem load_update (hlink : m'.Links f i c)
    (hsame : ∀ j < 512, j ≠ i → m'.word (f + 8 * j) = m.word (f + 8 * j))
    (hkids : ∀ j c', m.Links f j c' → j ≠ i → ∀ g ∈ m.tables l c', m.Same m' g) :
    m'.load (l + 1) f = .dir f (update (m.below l f) i (m'.load l c)) := by
  obtain ⟨hi, hv, hc⟩ := hlink
  rw [load]
  congr 1
  funext j
  by_cases hj : j = i
  · rw [hj, update_self, if_pos ⟨hi, hv⟩, hc]
  · rw [update_of_ne hj, below]
    by_cases hlt : j < 512
    · rw [hsame j hlt hj]
      by_cases hvj : has (m.word (f + 8 * j)) pteV = true
      · rw [if_pos ⟨hlt, hvj⟩, if_pos ⟨hlt, hvj⟩]
        exact load_congr (hkids j _ ⟨hlt, hvj, rfl⟩ hj)
      · rw [if_neg (fun h => hvj h.2), if_neg (fun h => hvj h.2)]
    · rw [if_neg (fun h => hlt h.1), if_neg (fun h => hlt h.1)]

/-! ## walk -/

theorem kalloc_of_nil (h : m.freelist = []) : m.kalloc = none := by
  rw [kalloc, h]

theorem kalloc_of_cons {r : Nat} (h : m.freelist = r :: next) :
    m.kalloc = some (r, Ram.memset { m with freelist := next } r 0x0505050505050505) := by
  rw [kalloc, h]

/-- The memory after `walk` has put a new page into the entry at `slot`. -/
def link (m : Ram) (next : List Nat) (page slot : Nat) : Ram :=
  ((Ram.memset { m with freelist := next } page 0x0505050505050505).memset page 0).store slot
    (pa2pte page ||| pteV)

theorem has_link (page : Nat) : has (pa2pte page ||| pteV) pteV = true := by
  rw [has_or, show has pteV pteV = true by decide, Bool.or_true]

theorem pte2pa_link (h : RamPage page) : pte2pa (pa2pte page ||| pteV) = page :=
  pte2pa_pa2pte_or h.1 h.lt (by decide)

theorem link_words (m : Ram) (next : List Nat) (hp : page % pgsize = 0) (hf : f % pgsize = 0)
    (hi : i < 512) (hne : page ≠ f) :
    (∀ j < 512, (m.link next page (f + 8 * i)).word (page + 8 * j) = 0) ∧
      (∀ j < 512, (m.link next page (f + 8 * i)).word (f + 8 * j) =
        if j = i then pa2pte page ||| pteV else m.word (f + 8 * j)) ∧
      ∀ q, q % pgsize = 0 → q ≠ page → q ≠ f → m.Same (m.link next page (f + 8 * i)) q := by
  have hsame : ∀ q, q % pgsize = 0 → q ≠ page → m.Same ((Ram.memset { m with freelist := next }
      page 0x0505050505050505).memset page 0) q := fun q hq hqp =>
    (same_memset { m with freelist := next } _ hp hq hqp).trans (same_memset _ _ hp hq hqp)
  refine ⟨fun j hj => ?_, fun j hj => ?_, fun q hq hqp hqf => ?_⟩
  · exact (same_store _ _ hf hp hi hne j hj).trans (word_memset _ _ _ hj)
  · by_cases hji : j = i
    · rw [if_pos hji, hji]
      exact update_self _ _ _
    · rw [if_neg hji]
      exact (update_of_ne (by omega) _ _).trans (hsame f hf hne.symm j hj)
  · exact (hsame q hq hqp).trans (same_store _ _ hf hq hi hqf)

theorem ensure_load (m : Ram) (l f : Nat) (ph : Phys) :
    (m.load l f).ensure Xv6.kalloc ph = some (m.load l f, ph) := by
  cases l <;> rfl

theorem grow_load (t : Radix.Table Nat l) (ph₁ : Phys)
    (h : (m.below l f (px (l + 1) va)).ensure Xv6.kalloc ph = some (t, ph₁)) :
    (m.load (l + 1) f).grow 512 Xv6.kalloc (vpn va) ph =
      ((t.grow 512 Xv6.kalloc (vpn va) ph₁).1,
        .dir f (update (m.below l f) (px (l + 1) va)
          (t.grow 512 Xv6.kalloc (vpn va) ph₁).2.1),
        (t.grow 512 Xv6.kalloc (vpn va) ph₁).2.2) := by
  rw [px_eq] at h ⊢
  change (Radix.Table.dir f (m.below l f)).grow 512 Xv6.kalloc (vpn va) ph = _
  rw [Radix.Table.grow]
  rw [h]

theorem grow_load_none (h : (m.below l f (px (l + 1) va)).ensure Xv6.kalloc ph = none) :
    (m.load (l + 1) f).grow 512 Xv6.kalloc (vpn va) ph = (false, m.load (l + 1) f, ph) := by
  rw [px_eq] at h
  change (Radix.Table.dir f (m.below l f)).grow 512 Xv6.kalloc (vpn va) ph =
    (false, .dir f (m.below l f), ph)
  rw [Radix.Table.grow]
  rw [h]

theorem ensure_absent (l : Nat) (ph : Phys) :
    (Radix.Table.absent : Radix.Table Nat l).ensure Xv6.kalloc ph =
      (Xv6.kalloc ph).map fun r => (Radix.Table.empty r.1 l, r.2) := by
  cases l <;> rfl

/-- What `walk` with allocation does to the table of level `l` at `f`: the tree in memory grows
as the tree does, only the pages of the table and those of the allocator are written, and the
pointer is found again. -/
structure Grows (va l f : Nat) (m : Ram) (p : Nat) (m' : Ram) : Prop where
  tree : ∀ ph : Phys, ph.freelist = m.freelist → ∃ ph' : Phys,
    (m.load l f).grow 512 Xv6.kalloc (vpn va) ph = (p != 0, m'.load l f, ph') ∧
      ph'.freelist = m'.freelist
  frame : ∀ g, g % pgsize = 0 → g ∉ m.tables l f ++ m.freelist → m.Same m' g
  found : p ≠ 0 → walkFrom false va l f m' = (p, m')

section Grows

variable {va l f p : Nat} {m m' : Ram} (hnd : (m.tables (l + 1) f ++ m.freelist).Nodup)
  (hram : ∀ g ∈ m.tables (l + 1) f ++ m.freelist, RamPage g)

include hnd hram

theorem Grows.of_below (hlink : m.Links f (px (l + 1) va) c) (h : Grows va l c m p m') :
    Grows va (l + 1) f m p m' := by
  obtain ⟨hnt, -, hdis⟩ := nodup_append.1 hnd
  have hroot := root_mem_tables m (l + 1) f
  obtain ⟨-, hfc, hothers⟩ := tables_disjoint hnt hlink
  have hfsame : m.Same m' f := h.frame f (hram f (mem_append_left _ hroot)).1 fun hf =>
    (mem_append.1 hf).elim hfc fun hf => hdis f hroot f hf rfl
  have hload := load_update (hlink.congr hfsame) (fun j hj _ => hfsame j hj)
    (fun j c' hj hne g hg => h.frame g
      (hram g (mem_append_left _ (mem_tables_of_links hj hg))).1 fun hg' =>
        (mem_append.1 hg').elim (hothers j c' hj hne g hg)
          fun hg' => hdis g (mem_tables_of_links hj hg) g hg' rfl)
  refine ⟨fun ph hph => ?_, fun g hg hg' => h.frame g hg fun hc => hg' ?_, fun hp => ?_⟩
  · obtain ⟨ph', hgrow, hph'⟩ := h.tree ph hph
    refine ⟨ph', ?_, hph'⟩
    rw [grow_load _ ph (by rw [below_of_links hlink, ensure_load]), hgrow, hload]
  · exact (mem_append.1 hc).elim
      (fun hg => mem_append_left _ (mem_tables_of_links hlink hg))
      (fun hg => mem_append_right _ hg)
  · rw [walkFrom, slot, if_pos (hlink.congr hfsame).2.1, (hlink.congr hfsame).2.2]
    exact h.found hp

theorem Grows.of_new (hv : has (m.word (slot f (l + 1) va)) pteV ≠ true)
    (hfree : m.freelist = g :: next) (h : Grows va l g (m.link next g (slot f (l + 1) va)) p m') :
    Grows va (l + 1) f m p m' := by
  obtain ⟨hnt, -, hdis⟩ := nodup_append.1 hnd
  have hroot := root_mem_tables m (l + 1) f
  have hi := px_lt (l + 1) va
  have hfram := hram f (mem_append_left _ hroot)
  have hgfree : g ∈ m.freelist := by simp [hfree]
  have hgram := hram g (mem_append_right _ hgfree)
  have hgf : g ≠ f := fun he => hdis f hroot g hgfree he.symm
  obtain ⟨hzero, hslot, hother⟩ := m.link_words next hgram.1 hfram.1 hi hgf
  obtain ⟨m₁, hm₁⟩ : ∃ m₁, m.link next g (f + 8 * px (l + 1) va) = m₁ := ⟨_, rfl⟩
  have hnext : m₁.freelist = next := by rw [← hm₁]; rfl
  rw [slot, hm₁] at h
  rw [hm₁] at hzero hslot hother
  have hlist : m₁.tables l g ++ m₁.freelist = m.freelist := by
    rw [tables_zero hzero, hnext, hfree]
    rfl
  have hframe := h.frame
  rw [hlist] at hframe
  have hfsame : m₁.Same m' f := hframe f hfram.1 fun hf => hdis f hroot f hf rfl
  have hlink : m₁.Links f (px (l + 1) va) g := by
    rw [Links, hslot _ hi, if_pos rfl]
    exact ⟨hi, has_link g, pte2pa_link hgram⟩
  have hkept : ∀ q ∉ m.freelist, q % pgsize = 0 → q ≠ f → m.Same m' q := fun q hq hq0 hqf =>
    (hother q hq0 (fun he => hq (he ▸ hgfree)) hqf).trans (hframe q hq0 hq)
  have hload := load_update (l := l) (hlink.congr hfsame)
    (fun j hj hne => by rw [hfsame j hj, hslot j hj, if_neg hne])
    (fun j c' hj _ q hq => hkept q (fun hq' => hdis q (mem_tables_of_links hj hq) q hq' rfl)
      (hram q (mem_append_left _ (mem_tables_of_links hj hq))).1
      fun he => (tables_disjoint hnt hj).2.1 (he ▸ hq))
  refine ⟨fun ph hph => ?_, fun q hq hq' => ?_, fun hp => ?_⟩
  · have halloc : Xv6.kalloc ph = some (g, ⟨next, memsetPage ph.mem g 5⟩) := by
      rw [Xv6.kalloc, hph, hfree]
    have habs : m.below l f (px (l + 1) va) = .absent := if_neg fun hc => hv hc.2
    obtain ⟨ph', hgrow, hph'⟩ := h.tree ⟨next, memsetPage ph.mem g 5⟩ hnext.symm
    refine ⟨ph', ?_, hph'⟩
    rw [grow_load (Radix.Table.empty g l) ⟨next, memsetPage ph.mem g 5⟩
      (by rw [habs, ensure_absent, halloc]; rfl), ← load_zero hzero, hgrow, hload]
  · rw [mem_append, not_or] at hq'
    refine hkept q hq'.2 hq fun he => hq'.1 ?_
    rw [he]
    exact hroot
  · rw [walkFrom, slot, if_pos (hlink.congr hfsame).2.1, (hlink.congr hfsame).2.2]
    exact h.found hp

end Grows

theorem slot_ne_zero (h : RamPage g) : slot g l va ≠ 0 := by
  have : kernelEnd ≤ g := h.2.1
  have : 0 < kernelEnd := by decide
  unfold slot
  omega

theorem walkFrom_grows (hnd : (m.tables l f ++ m.freelist).Nodup)
    (hram : ∀ g ∈ m.tables l f ++ m.freelist, RamPage g) :
    Grows va l f m (walkFrom true va l f m).1 (walkFrom true va l f m).2 := by
  induction l generalizing f m with
  | zero =>
    have hpos : slot f 0 va ≠ 0 :=
      slot_ne_zero (hram f (mem_append_left _ (root_mem_tables m 0 f)))
    refine ⟨fun ph hph => ⟨ph, ?_, hph⟩, fun g _ _ i _ => rfl, fun _ => rfl⟩
    rw [walkFrom, load, Radix.Table.grow, bne_iff_ne.2 hpos]
  | succ l ih =>
    rw [walkFrom]
    obtain ⟨hnt, hnf, hdis⟩ := nodup_append.1 hnd
    by_cases hv : has (m.word (slot f (l + 1) va)) pteV = true
    · rw [if_pos hv]
      have hlink : m.Links f (px (l + 1) va) _ := ⟨px_lt (l + 1) va, hv, rfl⟩
      refine Grows.of_below hnd hram hlink (ih ?_ fun g hg => hram g ?_)
      · exact nodup_append.2 ⟨(tables_disjoint hnt hlink).1, hnf, fun a ha =>
          hdis a (mem_tables_of_links hlink ha)⟩
      · exact (mem_append.1 hg).elim
          (fun hg => mem_append_left _ (mem_tables_of_links hlink hg))
          (fun hg => mem_append_right _ hg)
    · rw [if_neg hv]
      cases hfree : m.freelist with
      | nil =>
        rw [kalloc_of_nil hfree]
        have habs : m.below l f (px (l + 1) va) = .absent := if_neg fun hc => hv hc.2
        refine ⟨fun ph hph => ⟨ph, grow_load_none ?_, hph⟩, fun _ _ _ i _ => rfl,
          fun hp => absurd rfl hp⟩
        rw [habs, ensure_absent, kalloc_eq_none.2 (hph.trans hfree)]
        rfl
      | cons g next =>
        rw [kalloc_of_cons hfree]
        refine Grows.of_new hnd hram hv hfree ?_
        have hroot := root_mem_tables m (l + 1) f
        have hgfree : g ∈ m.freelist := by simp [hfree]
        obtain ⟨hzero, -⟩ := m.link_words next (hram g (mem_append_right _ hgfree)).1
          (hram f (mem_append_left _ hroot)).1 (px_lt (l + 1) va)
          fun he => hdis f hroot g hgfree he.symm
        have hlist : (m.link next g (slot f (l + 1) va)).tables l g ++ next = m.freelist := by
          rw [slot, tables_zero hzero, hfree]
          rfl
        refine ih ?_ fun q hq => hram q (mem_append_right _ ?_)
        · exact (congrArg List.Nodup hlist).mpr hnf
        · exact hlist ▸ hq

theorem walkFrom_false (va : Nat) (hram : ∀ g ∈ m.tables l f, RamPage g) :
    ∃ p, walkFrom false va l f m = (p, m) ∧
      (m.load l f).reaches 512 0 (vpn va) = (p != 0) ∧
      (p ≠ 0 → ∃ g ∈ m.tables l f, p = slot g 0 va ∧
        m.word p = (m.load l f).get 512 (vpn va)) := by
  induction l generalizing f with
  | zero =>
    have hpos : slot f 0 va ≠ 0 := slot_ne_zero (hram f (root_mem_tables m 0 f))
    refine ⟨slot f 0 va, rfl, (bne_iff_ne.2 hpos).symm, fun _ =>
      ⟨f, root_mem_tables m 0 f, rfl, ?_⟩⟩
    rw [load, Radix.Table.get, ← px_eq, if_pos (px_lt 0 va), slot]
  | succ l ih =>
    rw [walkFrom]
    have hreach : (m.load (l + 1) f).reaches 512 0 (vpn va) =
        (m.below l f (px (l + 1) va)).reaches 512 0 (vpn va) := by
      rw [px_eq]
      exact Bool.false_or _
    by_cases hv : has (m.word (slot f (l + 1) va)) pteV = true
    · rw [if_pos hv]
      have hlink : m.Links f (px (l + 1) va) _ := ⟨px_lt (l + 1) va, hv, rfl⟩
      obtain ⟨p, hp, hr, hword⟩ := ih fun g hg => hram g (mem_tables_of_links hlink hg)
      refine ⟨p, hp, by rw [hreach, below_of_links hlink]; exact hr, fun hne => ?_⟩
      obtain ⟨g, hg, hpg, hw⟩ := hword hne
      refine ⟨g, mem_tables_of_links hlink hg, hpg, hw.trans ?_⟩
      change _ = (m.below l f (Radix.Table.digit 512 (l + 1) (vpn va))).get 512 (vpn va)
      rw [← px_eq, below_of_links hlink]
    · have habs : m.below l f (px (l + 1) va) = .absent := if_neg fun hc => hv hc.2
      rw [if_neg hv]
      refine ⟨0, rfl, ?_, fun hne => absurd rfl hne⟩
      rw [hreach, habs]
      rfl

theorem load_store (w : Nat) (hnd : (m.tables l f).Nodup) (hram : ∀ g ∈ m.tables l f, RamPage g)
    (h : walkFrom false va l f m = (p, m)) (hp : p ≠ 0) :
    (m.store p w).load l f = (m.load l f).set 512 (vpn va) w ∧
      ∀ g, g % pgsize = 0 → g ∉ m.tables l f → m.Same (m.store p w) g := by
  induction l generalizing f with
  | zero =>
    obtain rfl : slot f 0 va = p := (Prod.mk.inj h).1
    refine ⟨?_, fun g hg hgf => same_store m w (hram f (root_mem_tables m 0 f)).1 hg (px_lt 0 va)
      fun he => hgf (he ▸ root_mem_tables m 0 g)⟩
    rw [load]
    congr 1
    funext i
    rw [← px_eq]
    by_cases hi : i = px 0 va
    · rw [hi, update_self, if_pos (px_lt 0 va)]
      exact update_self _ _ _
    · rw [update_of_ne hi]
      refine if_congr Iff.rfl (update_of_ne ?_ _ _) rfl
      unfold slot
      omega
  | succ l ih =>
    rw [walkFrom] at h
    by_cases hv : has (m.word (slot f (l + 1) va)) pteV = true
    · rw [if_pos hv] at h
      have hlink : m.Links f (px (l + 1) va) _ := ⟨px_lt (l + 1) va, hv, rfl⟩
      obtain ⟨hcnd, hfc, hothers⟩ := tables_disjoint hnd hlink
      have hroot := root_mem_tables m (l + 1) f
      obtain ⟨hset, hsame⟩ := ih hcnd (fun g hg => hram g (mem_tables_of_links hlink hg)) h
      have hfsame := hsame f (hram f hroot).1 hfc
      refine ⟨?_, fun g hg hgt => hsame g hg fun hc => hgt (mem_tables_of_links hlink hc)⟩
      rw [load_update (hlink.congr hfsame) (fun j hj _ => hfsame j hj)
        (fun j c' hj hne g hg => hsame g (hram g (mem_tables_of_links hj hg)).1
          (hothers j c' hj hne g hg)), hset, ← below_of_links hlink, px_eq]
      rfl
    · rw [if_neg hv] at h
      exact absurd (Prod.mk.inj h).1.symm hp

theorem WellFormed.of_perm (h : m.WellFormed root)
    (hp : (m'.tables 2 root ++ m'.freelist).Perm (m.tables 2 root ++ m.freelist)) :
    m'.WellFormed root :=
  ⟨hp.nodup_iff.2 h.nodup, fun f hf => h.ram f (hp.mem_iff.1 hf)⟩

theorem WellFormed.tables_nodup (h : m.WellFormed root) :
    (m.tables 2 root).Nodup := (nodup_append.1 h.nodup).1

theorem WellFormed.tables_ram (h : m.WellFormed root) :
    ∀ f ∈ m.tables 2 root, RamPage f := fun f hf => h.ram f (mem_append_left _ hf)

theorem isNull_load (m : Ram) (root : Nat) : PageTable.isNull (m.load 2 root) = false := rfl

theorem walk_true_refines (hwf : m.WellFormed root) (hph : ph.freelist = m.freelist)
    (h : m.walk root va true = .ok (p, m')) :
    ∃ ph', Xv6.walk (m.load 2 root) ph va true = .ok (p != 0, m'.load 2 root, ph') ∧
      ph'.freelist = m'.freelist ∧ m'.WellFormed root ∧
      (p ≠ 0 → walkFrom false va 2 root m' = (p, m')) := by
  unfold walk at h
  split at h
  · cases h
  rename_i hva
  have hgrows : Grows va 2 root m (walkFrom true va 2 root m).1 (walkFrom true va 2 root m).2 :=
    walkFrom_grows hwf.nodup hwf.ram
  rw [Except.ok.inj h] at hgrows
  obtain ⟨ph', hgrow, hph'⟩ := hgrows.tree ph hph
  have hwalk : Xv6.walk (m.load 2 root) ph va true = .ok (p != 0, m'.load 2 root, ph') := by
    rw [Xv6.walk, if_neg hva, isNull_load, if_neg Bool.false_ne_true, if_pos rfl, hgrow]
  refine ⟨ph', hwalk, hph', hwf.of_perm (perm_iff_count.2 fun f => ?_), hgrows.found⟩
  have hcount := (walk_true_eq_ok hwalk).2.2.1.cons f
  simp only [PageTable.pages, pages_load, hph, hph'] at hcount
  simp only [count_append]
  omega

theorem store_refines (w : Nat) (hwf : m.WellFormed root)
    (h : walkFrom false va 2 root m = (p, m)) (hp : p ≠ 0) :
    (m.store p w).load 2 root = PageTable.setPte (m.load 2 root) va w ∧
      (m.store p w).WellFormed root := by
  have hload := (load_store w hwf.tables_nodup hwf.tables_ram h hp).1
  refine ⟨hload, hwf.of_perm ?_⟩
  rw [← pages_load, hload, Radix.Table.pages_set, pages_load]
  exact List.Perm.refl _

/-- The function on words does what the one on trees does. -/
def Refines (root : Nat) (raw : Except Panic (Bool × Ram))
    (tree : Except Panic (Bool × PageTable × Phys)) : Prop :=
  match raw with
  | .error e => tree = .error e
  | .ok (ok, m') => ∃ ph' : Phys, tree = .ok (ok, m'.load 2 root, ph') ∧
      ph'.freelist = m'.freelist ∧ m'.WellFormed root

theorem round_refines {a w : Nat} (hwf : m.WellFormed root) (hph : ph.freelist = m.freelist)
    (rest : Ram → Except Panic (Bool × Ram))
    (rest' : PageTable → Phys → Except Panic (Bool × PageTable × Phys))
    (hrest : ∀ (m' : Ram) (ph' : Phys), m'.WellFormed root → ph'.freelist = m'.freelist →
      Refines root (rest m') (rest' (m'.load 2 root) ph')) : Refines root
      (do
        let (pte, m) ← m.walk root a true
        if pte = 0 then return (false, m)
        else
          require (!has (m.word pte) pteV) .mappagesRemap
          rest (m.store pte w))
      (do
        let (found, pt, ph) ← Xv6.walk (m.load 2 root) ph a true
        if found then
          require (!has (pt.pte a) pteV) .mappagesRemap
          rest' (pt.setPte a w) ph
        else return (false, pt, ph)) := by
  cases hwalk : m.walk root a true with
  | error e =>
    have htree : Xv6.walk (m.load 2 root) ph a true = .error e := by
      unfold walk at hwalk
      split at hwalk
      · rename_i hva
        cases hwalk
        rw [Xv6.walk, if_pos hva]
      · cases hwalk
    rw [htree]
    exact rfl
  | ok r =>
    obtain ⟨p, m'⟩ := r
    obtain ⟨ph', htree, hph', hwf', hfound⟩ := walk_true_refines hwf hph hwalk
    rw [htree, ok_bind, ok_bind]
    by_cases hp : p = 0
    · subst hp
      exact ⟨ph', rfl, hph', hwf'⟩
    · have hfind := hfound hp
      obtain ⟨q, hq, -, hword⟩ := walkFrom_false a hwf'.tables_ram
      obtain rfl : q = p := (Prod.mk.inj (hq.symm.trans hfind)).1
      obtain ⟨-, -, -, hval⟩ := hword hp
      dsimp only
      rw [if_neg hp, if_pos (bne_iff_ne.2 hp), hval]
      change Refines root (require (!has (PageTable.pte (m'.load 2 root) a) pteV) _ >>= _) _
      obtain ⟨hstore, hwf''⟩ := store_refines w hwf' hfind hp
      cases has (PageTable.pte (m'.load 2 root) a) pteV with
      | true => exact rfl
      | false =>
        have := hrest (m'.store q w) ph' hwf'' hph'
        rwa [hstore] at this

theorem mapLoop_refines (ph : Phys) (perm n a pa off : Nat) (hwf : m.WellFormed root)
    (hph : ph.freelist = m.freelist) : Refines root (mapLoop root perm n a (Xv6.word (pa + off)) m)
      (Xv6.mapLoop (fun off a pt => pt.setPte a (leafWord (pa + off) perm)) n off a
        (m.load 2 root) ph) := by
  induction n generalizing m a off ph with
  | zero =>
    exact round_refines hwf hph (fun m => .ok (true, m)) (fun pt ph => .ok (true, pt, ph))
      fun m' ph' hwf' hph' => ⟨ph', rfl, hph', hwf'⟩
  | succ n ih =>
    rw [mapLoop]
    have hnext : Xv6.word (Xv6.word (pa + off) + pgsize) = Xv6.word (pa + (off + pgsize)) := by
      unfold Xv6.word
      omega
    rw [hnext]
    exact round_refines hwf hph
      (fun m => mapLoop root perm n (Xv6.word (a + pgsize)) (Xv6.word (pa + (off + pgsize))) m)
      (fun pt ph => Xv6.mapLoop (fun off a pt => pt.setPte a (leafWord (pa + off) perm)) n
        (off + pgsize) (Xv6.word (a + pgsize)) pt ph)
      fun m' ph' hwf' hph' => ih ph' _ _ hwf' hph'

end Ram

/-! ## mappages -/

theorem mapLoop_round (store : Nat → Nat → PageTable → PageTable) (n off : Nat) (ph : Phys)
    (hnull : pt.isNull = false) (hv : v < maxvpn) (hun : has (pt.entry v) pteV = false) :
    ∃ pt₁ ph₁, (∀ u, pt₁.entry u = pt.entry u) ∧ pt₁.isNull = false ∧
      (mapLoop store n off (v * pgsize) pt ph = .ok (false, pt₁, ph₁) ∨
        pt₁.reaches (v * pgsize) = true ∧ mapLoop store n off (v * pgsize) pt ph =
          match n with
          | 0 => .ok (true, store off (v * pgsize) pt₁, ph₁)
          | n + 1 => mapLoop store n (off + pgsize) (word (v * pgsize + pgsize))
              (store off (v * pgsize) pt₁) ph₁) := by
  obtain ⟨⟨found, pt₁, ph₁⟩, hwalk⟩ := walk_ok ph true hnull hv
  obtain ⟨-, -, hacct, hentry, -, hfound, -⟩ := walk_true_eq_ok hwalk
  refine ⟨pt₁, ph₁, hentry, hacct.null.trans hnull, ?_⟩
  rw [mapLoop, hwalk]
  cases found with
  | false => exact .inl rfl
  | true =>
    refine .inr ⟨(hfound rfl).1, ?_⟩
    rw [ok_bind]
    dsimp only
    rw [pte_eq, vpn_mul, hentry, hun]
    cases n <;> rfl

theorem mapLoop_pages {n : Nat} (pa perm off : Nat) (ph : Phys) (hnull : pt.isNull = false)
    (hroom : v + n < maxvpn) (hun : ∀ u, v ≤ u → u ≤ v + n → has (pt.entry u) pteV = false) :
    ∃ ok k pt' ph', mapLoop (fun off a pt => pt.setPte a (leafWord (pa + off) perm)) n off
        (v * pgsize) pt ph = .ok (ok, pt', ph') ∧ k ≤ n + 1 ∧ (ok = true ↔ k = n + 1) ∧
      ∀ u < nvpn, pt'.entry u =
        if v ≤ u ∧ u < v + k then leafWord (pa + (off + (u - v) * pgsize)) perm
        else pt.entry u := by
  induction n generalizing v off pt ph with
  | zero =>
    have hv : v < maxvpn := by omega
    obtain ⟨pt₁, ph₁, hentry, -, hloop | ⟨hreach, hloop⟩⟩ := mapLoop_round
      (fun off a pt => pt.setPte a (leafWord (pa + off) perm)) 0 off ph hnull hv
      (hun v le_rfl (by omega))
    · refine ⟨false, 0, pt₁, ph₁, hloop, by omega, by simp, fun u _ => ?_⟩
      rw [if_neg (by omega), hentry]
    · refine ⟨true, 1, _, _, hloop, by omega, by simp, fun u hu => ?_⟩
      rw [entry_setPte _ hreach (mul_lt_maxva hv) hu, vpn_mul, hentry]
      by_cases huv : u = v
      · rw [if_pos huv, if_pos (by omega), huv, Nat.sub_self, Nat.zero_mul, Nat.add_zero]
      · rw [if_neg huv, if_neg (by omega)]
  | succ n ih =>
    have hv : v < maxvpn := by omega
    obtain ⟨pt₁, ph₁, hentry, hnull₁, hloop | ⟨hreach, hloop⟩⟩ := mapLoop_round
      (fun off a pt => pt.setPte a (leafWord (pa + off) perm)) (n + 1) off ph hnull hv
      (hun v le_rfl (by omega))
    · refine ⟨false, 0, pt₁, ph₁, hloop, by omega, by simp, fun u _ => ?_⟩
      rw [if_neg (by omega), hentry]
    · have hset : ∀ u < nvpn, (pt₁.setPte (v * pgsize) (leafWord (pa + off) perm)).entry u =
          if u = v then leafWord (pa + off) perm else pt.entry u := fun u hu => by
        rw [entry_setPte _ hreach (mul_lt_maxva hv) hu, vpn_mul, hentry]
      obtain ⟨ok, k, pt', ph', hrest, hk, hok, hpages⟩ := ih (v := v + 1) (off + pgsize) ph₁
        ((isNull_setPte _ _ _).trans hnull₁) (by omega)
        (fun u h1 h2 => by
          rw [hset u (lt_nvpn (by omega)), if_neg (by omega)]
          exact hun u (by omega) (by omega))
      have hnext : word (v * pgsize + pgsize) = (v + 1) * pgsize := by
        rw [Nat.succ_mul, word_of_lt]
        have := mul_room (by omega : v + 1 < maxvpn)
        unfold pgsize at this ⊢
        omega
      refine ⟨ok, k + 1, pt', ph', ?_, by omega, hok.trans (by omega), fun u hu => ?_⟩
      · rw [hloop]
        rw [hnext]
        exact hrest
      · rw [hpages u hu, hset u hu]
        by_cases huv : u = v
        · rw [if_neg (by omega), if_pos huv, if_pos (by omega), huv, Nat.sub_self, Nat.zero_mul,
            Nat.add_zero]
        · rw [if_neg huv]
          by_cases hin : v + 1 ≤ u ∧ u < v + 1 + k
          · have hoff : off + pgsize + (u - (v + 1)) * pgsize = off + (u - v) * pgsize := by
              rw [show u - v = u - (v + 1) + 1 by omega, Nat.succ_mul]
              omega
            rw [if_pos hin, if_pos (by omega), hoff]
          · rw [if_neg hin, if_neg (by omega)]

namespace Ram

/-- The valid entry that `walk` finds for `va`. -/
def translation (m : Ram) (pagetable va : Nat) : Option Nat :=
  match m.walk pagetable va false with
  | .ok (pte, m) => if pte ≠ 0 ∧ has (m.word pte) pteV then some (m.word pte) else none
  | .error _ => none

def userAddr : Option Nat → Nat
  | some w => if has w pteU then pte2pa w else 0
  | none => 0

theorem translation_eq (hwf : m.WellFormed root) (hva : va < maxva) :
    m.translation root va = PageTable.leaf (m.load 2 root) (vpn va) := by
  obtain ⟨p, hp, hreach, hword⟩ := walkFrom_false va hwf.tables_ram
  rw [translation, walk, if_neg (by omega), hp]
  dsimp only
  by_cases h0 : p = 0
  · rw [if_neg (fun hc => hc.1 h0)]
    symm
    rw [leaf_eq_none, PageTable.entry, Radix.Table.get_eq_zero 512, has_zero]
    rw [hreach, h0]
    rfl
  · obtain ⟨g, hg, -, hw⟩ := hword h0
    rw [hw]
    exact if_congr (and_iff_right h0) rfl rfl

theorem walkaddr_eq (hwf : m.WellFormed root) (hva : va < maxva) :
    m.walkaddr root va = .ok (userAddr (m.translation root va)) := by
  obtain ⟨p, hp, -, -⟩ := walkFrom_false va hwf.tables_ram
  rw [walkaddr, if_neg (by omega), translation, walk, if_neg (by omega), hp, ok_bind]
  dsimp only
  by_cases h0 : p = 0
  · rw [if_pos h0, if_neg (fun hc => hc.1 h0)]
    rfl
  · rw [if_neg h0]
    cases hv : has (m.word p) pteV with
    | false =>
      rw [if_pos (by decide), if_neg (fun hc => Bool.false_ne_true hc.2)]
      rfl
    | true =>
      have hc : (if p ≠ 0 ∧ true = true then some (m.word p) else none) = some (m.word p) :=
        if_pos ⟨h0, rfl⟩
      rw [hc]
      simp only [userAddr]
      cases has (m.word p) pteU <;> rfl

/-- The first `k` pages from that of `va` on are mapped to the frames from `pa` on, and every
other address is translated as before. -/
structure Mapped (m m' : Ram) (root va pa perm k : Nat) : Prop where
  entry : ∀ i < k, ∀ a, vpn a = vpn va + i → ∃ w, m'.translation root a = some w ∧
    pte2pa w = Xv6.word (pa + i * pgsize) ∧ pteFlags w = perm ||| pteV
  addr : ∀ i < k, ∀ a, vpn a = vpn va + i →
    m'.walkaddr root a = .ok (if has perm pteU then Xv6.word (pa + i * pgsize) else 0)
  other : ∀ a < maxva, ¬(vpn va ≤ vpn a ∧ vpn a < vpn va + k) →
    m'.translation root a = m.translation root a ∧ m'.walkaddr root a = m.walkaddr root a

theorem pte2pa_leafWord_word {pa perm : Nat} (hpa : pa % pgsize = 0) (hp : perm < 1024) :
    pte2pa (leafWord pa perm) = Xv6.word pa := by
  rw [leafWord, sext_of_lt (by omega), Nat.or_assoc]
  refine pte2pa_pa2pte_or ?_ (word_lt pa) (perm_or_lt hp)
  unfold Xv6.word pgsize at *
  omega

theorem mapped_of_entries {pa perm k : Nat} (hwf : m.WellFormed root) (hwf' : m'.WellFormed root)
    (hpa : pa % pgsize = 0) (hperm : perm < 1024) (hroom : vpn va + k ≤ maxvpn)
    (h : ∀ u < nvpn, PageTable.entry (m'.load 2 root) u =
      if vpn va ≤ u ∧ u < vpn va + k then leafWord (pa + (u - vpn va) * pgsize) perm
      else PageTable.entry (m.load 2 root) u) : Mapped m m' root va pa perm k := by
  have hin : ∀ i < k, ∀ a, vpn a = vpn va + i → a < maxva ∧
      m'.translation root a = some (leafWord (pa + i * pgsize) perm) := fun i hi a ha => by
    have hlt : a < maxva := by
      rw [← maxvpn_mul]
      unfold vpn at ha hroom
      exact Nat.lt_mul_of_div_lt (by omega) (by decide)
    refine ⟨hlt, ?_⟩
    rw [translation_eq hwf' hlt, leaf_eq_some, h _ (lt_nvpn (vpn_lt hlt)),
      if_pos (by omega), show vpn a - vpn va = i by omega]
    exact ⟨rfl, has_leafWord _ _⟩
  have halign : ∀ i, (pa + i * pgsize) % pgsize = 0 := fun i => by
    rw [Nat.add_mul_mod_self_right]
    exact hpa
  refine ⟨fun i hi a ha => ⟨_, (hin i hi a ha).2, ?_, pteFlags_leafWord _ hperm⟩,
    fun i hi a ha => ?_, fun a ha hout => ?_⟩
  · exact pte2pa_leafWord_word (halign i) hperm
  · rw [walkaddr_eq hwf' (hin i hi a ha).1, (hin i hi a ha).2, userAddr, has_user_leafWord _ hperm,
      pte2pa_leafWord_word (halign i) hperm]
  · have heq : m'.translation root a = m.translation root a := by
      rw [translation_eq hwf' ha, translation_eq hwf ha]
      exact leaf_congr (by rw [h _ (lt_nvpn (vpn_lt ha)), if_neg hout])
    exact ⟨heq, by rw [walkaddr_eq hwf' ha, walkaddr_eq hwf ha, heq]⟩

def pagesOf (va size : Nat) : Nat := vpn (va + size - 1) - vpn va + 1

theorem pagesTo_range {size : Nat} (hsize : 0 < size) (h : va + size ≤ 2 ^ 64) :
    pagesTo (pgrounddown va) (pgrounddown (Xv6.word (va + size - 1))) =
      vpn (va + size - 1) - vpn va := by
  rw [word_of_lt (by omega)]
  have hle : pgrounddown va ≤ pgrounddown (va + size - 1) :=
    Nat.mul_le_mul_right _ (Nat.div_le_div_right (by omega))
  have hlt : pgrounddown (va + size - 1) < 2 ^ 64 := by
    unfold pgrounddown pgsize
    omega
  rw [pagesTo, wsub_of_le hle hlt, pgrounddown, pgrounddown, ← Nat.sub_mul,
    Nat.mul_div_cancel _ (by decide)]
  rfl

/-- `mappages` on a range that is not mapped returns.  It has mapped the pages of the range up to
the one for which it got no page-table page, all of them if it returns 0. -/
theorem mappages_exact {m : Ram} {root va size pa perm : Nat} (hwf : m.WellFormed root)
    (hsize : 0 < size) (hva : va + size ≤ maxva)
    (hun : ∀ a, pgrounddown va ≤ a → a < va + size → m.translation root a = none)
    (hpa : pa % pgsize = 0) (hlt : pa < 2 ^ 64) (hperm : perm < 1024) :
    ∃ ok m' k, m.mappages root va size pa perm = .ok (ok, m') ∧ k ≤ pagesOf va size ∧
      (ok = true ↔ k = pagesOf va size) ∧ Mapped m m' root va pa perm k ∧ m'.WellFormed root := by
  have hmax : maxva ≤ 2 ^ 64 := by decide
  have hlast : vpn (va + size - 1) < maxvpn := vpn_lt (by omega)
  have hle : vpn va ≤ vpn (va + size - 1) := Nat.div_le_div_right (by omega)
  have hfree : ∀ u, vpn va ≤ u → u ≤ vpn va + (vpn (va + size - 1) - vpn va) →
      has (PageTable.entry (m.load 2 root) u) pteV = false := fun u h1 h2 => by
    have hlow : pgrounddown va ≤ u * pgsize := Nat.mul_le_mul_right _ h1
    have hhigh : u * pgsize < va + size := by
      have : u * pgsize ≤ va + size - 1 := (Nat.le_div_iff_mul_le (by decide)).1 (by
        unfold vpn at h2 hle
        omega)
      omega
    have := hun _ hlow hhigh
    rwa [translation_eq hwf (by omega), vpn_mul, leaf_eq_none] at this
  obtain ⟨ok, k, pt', ph', htree, hk, hok, hpages⟩ := mapLoop_pages pa perm 0
    ⟨m.freelist, fun _ => 0⟩ (m.isNull_load root) (by omega) hfree
  have href := mapLoop_refines ⟨m.freelist, fun _ => 0⟩ perm
    (vpn (va + size - 1) - vpn va) (vpn va * pgsize) pa 0 hwf rfl
  rw [htree, Nat.add_zero, word_of_lt hlt] at href
  have hcode : m.mappages root va size pa perm = mapLoop root perm
      (vpn (va + size - 1) - vpn va) (vpn va * pgsize) pa m := by
    rw [mappages, if_neg (by omega)]
    dsimp only
    rw [pagesTo_range hsize (by omega)]
    rfl
  rw [hcode]
  cases hraw : mapLoop root perm (vpn (va + size - 1) - vpn va) (vpn va * pgsize) pa m with
  | error e =>
    rw [hraw] at href
    cases href
  | ok r =>
    obtain ⟨ok', m'⟩ := r
    rw [hraw] at href
    obtain ⟨ph'', heq, -, hwf'⟩ := href
    cases heq
    refine ⟨ok, m', k, rfl, hk, hok, mapped_of_entries hwf hwf' hpa hperm ?_ ?_, hwf'⟩
    · omega
    · simpa only [Nat.zero_add] using hpages

/-- A table with only its root page, and two free frames. -/
def blank : Ram := ⟨[kernelEnd + pgsize, kernelEnd + 2 * pgsize], fun _ => 0⟩

theorem wellFormed_blank : blank.WellFormed kernelEnd := by
  have htables : blank.tables 2 kernelEnd = [kernelEnd] := tables_zero (fun _ _ => rfl) 2
  constructor <;> rw [htables] <;> decide

theorem translation_blank (a : Nat) : blank.translation kernelEnd a = none := by
  by_cases ha : a < maxva
  · rw [translation_eq wellFormed_blank ha, leaf_eq_none, PageTable.entry,
      load_zero (fun _ _ => rfl) 2, Radix.Table.get_empty, has_zero]
  · rw [translation, walk, if_pos (by omega)]

/-- The two frames are enough for the two pages that the range touches. -/
theorem mappages_exact_blank : ∃ m',
    blank.mappages kernelEnd (pgsize + 1) pgsize phystop (pteR ||| pteU) = .ok (true, m') ∧
      Mapped blank m' kernelEnd (pgsize + 1) phystop (pteR ||| pteU) 2 ∧
      m'.WellFormed kernelEnd := by
  obtain ⟨ok, m', k, hrun, -, hok, hmapped, hwf⟩ := mappages_exact wellFormed_blank
    (show 0 < pgsize by decide) (show pgsize + 1 + pgsize ≤ maxva by decide)
    (fun a _ _ => translation_blank a) (show phystop % pgsize = 0 by decide) (by decide)
    (show pteR ||| pteU < 1024 by decide)
  have htrue : (blank.mappages kernelEnd (pgsize + 1) pgsize phystop (pteR ||| pteU)).map Prod.fst =
      .ok true := by decide +kernel
  rw [hrun] at htrue
  obtain rfl : ok = true := Except.ok.inj htrue
  obtain rfl : k = 2 := hok.1 rfl
  exact ⟨m', hrun, hmapped, hwf⟩

end Ram
end Xv6
