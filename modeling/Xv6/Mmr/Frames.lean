/-
Who uses which frame: the free list, the pages of page tables and the trapframes, and the pages
that the tables map.  A frame has one use, except that two tables may map it where a relation
`R` between processes and page numbers allows it.
-/
import Xv6.Proc.Base

namespace Xv6

open List

variable {us : List Nat} {f u : Nat} {x : Proc}

/-- The frames that the kernel uses for a process: its trapframe and the pages of its table. -/
def Proc.base (x : Proc) : List Nat := x.trapframe.toList ++ x.pagetable.pages

/-- Page `u` of the process is mapped to frame `f`; the trampoline and the trapframe do not
count. -/
def Proc.LeafAt (x : Proc) (u f : Nat) : Prop :=
  u < nvpn ∧ u ≠ trampolineVpn ∧ u ≠ trapframeVpn ∧ ∃ w, x.pagetable.leaf u = some w ∧ pte2pa w = f

structure Kernel.Frames (k : Kernel) (R : Nat → Nat → Nat → Prop) : Prop where
  free : k.phys.freelist.Nodup
  base : ∀ p, (k.proc p).base.Nodup ∧ ∀ f ∈ (k.proc p).base, f ∉ k.phys.freelist
  ram : ∀ p, ∀ f ∈ (k.proc p).base, RamPage f
  apart : ∀ p q, p ≠ q → ∀ f ∈ (k.proc p).base, f ∉ (k.proc q).base
  leaf : ∀ p u f, (k.proc p).LeafAt u f →
    RamPage f ∧ f ∉ k.phys.freelist ∧ ∀ q, f ∉ (k.proc q).base
  inj : ∀ p u u' f, (k.proc p).LeafAt u f → (k.proc p).LeafAt u' f → u = u'
  shared : ∀ p q u u' f, p ≠ q → (k.proc p).LeafAt u f → (k.proc q).LeafAt u' f →
    u = u' ∧ R p q u

theorem Proc.LeafAt.congr {y : Proc} (h : y.pagetable = x.pagetable) (hl : y.LeafAt u f) :
    x.LeafAt u f := by
  unfold LeafAt at *
  rwa [h] at hl

theorem Proc.LeafAt.frame (h : x.LeafAt u f) : pte2pa (x.pagetable.entry u) = f := by
  obtain ⟨-, -, -, w, hw, hf⟩ := h
  rw [(PageTable.leaf_eq_some.1 hw).1, hf]

namespace Kernel.Frames

variable {k k' : Kernel} {R R' : Nat → Nat → Nat → Prop} {p : Nat}

theorem weaken (h : k.Frames R) (hR : ∀ p q u f, p ≠ q → (k.proc p).LeafAt u f →
    (k.proc q).LeafAt u f → R p q u → R' p q u) : k.Frames R' := by
  refine { h with shared := fun p q u u' f hne hp hq => ?_ }
  obtain ⟨rfl, hr⟩ := h.shared p q u u' f hne hp hq
  exact ⟨rfl, hR p q u f hne hp hq hr⟩

theorem congr (h : k.Frames R) (htable : ∀ q, (k'.proc q).pagetable = (k.proc q).pagetable)
    (htf : ∀ q, (k'.proc q).trapframe = (k.proc q).trapframe)
    (hfree : k'.phys.freelist = k.phys.freelist) : k'.Frames R := by
  have hbase : ∀ q, (k'.proc q).base = (k.proc q).base := by
    intro q
    rw [Proc.base, htable, htf, Proc.base]
  refine ⟨by rw [hfree]; exact h.free, fun q => ?_, fun q => ?_, fun q q' hne => ?_,
    fun q u f hl => ?_,
    fun q u u' f hl hl' => h.inj q u u' f (hl.congr (htable q)) (hl'.congr (htable q)),
    fun q q' u u' f hne hl hl' =>
      h.shared q q' u u' f hne (hl.congr (htable q)) (hl'.congr (htable q'))⟩
  · rw [hbase, hfree]
    exact h.base q
  · rw [hbase]
    exact h.ram q
  · rw [hbase, hbase]
    exact h.apart q q' hne
  · rw [hfree]
    obtain ⟨hram, hfree', hb⟩ := h.leaf q u f (hl.congr (htable q))
    exact ⟨hram, hfree', fun q' => by rw [hbase]; exact hb q'⟩

/-- A change to one process.  Its pages `us` gave their frames to the free list, its pages
`fresh` got frames from there, and its other pages are as before or lent by another process. -/
structure Update (k k' : Kernel) (p : Nat) (us fresh : List Nat) : Prop where
  table : ∀ q, q ≠ p → (k'.proc q).pagetable = (k.proc q).pagetable
  trapframe : ∀ q, q ≠ p → (k'.proc q).trapframe = (k.proc q).trapframe
  count : ∀ f, k'.phys.freelist.count f + (k'.proc p).base.count f +
      ((k'.proc p).pagetable.frames fresh).count f ≤
    k.phys.freelist.count f + (k.proc p).base.count f +
      ((k.proc p).pagetable.frames us).count f
  nodup : us.Nodup
  mapped : ∀ u ∈ us, ∃ f, (k.proc p).LeafAt u f
  unshared : ∀ u ∈ us, ∀ q u' f, q ≠ p → (k.proc p).LeafAt u f → ¬ (k.proc q).LeafAt u' f
  taken : ∀ u ∈ fresh, pte2pa ((k'.proc p).pagetable.entry u) ∈ k.phys.freelist
  leaf : ∀ u f, (k'.proc p).LeafAt u f → u ∈ fresh ∨ (u ∉ us ∧ (k.proc p).LeafAt u f) ∨
    ((∃ s ≠ p, (k.proc s).LeafAt u f) ∧ ∀ u' f', ¬ (k.proc p).LeafAt u' f')

theorem count_frames_pos (pt : PageTable) (hu : u ∈ us) :
    0 < (pt.frames us).count (pte2pa (pt.entry u)) :=
  count_pos_iff.2 (mem_map_of_mem hu)

theorem two_le_count_frames {pt : PageTable} {v : Nat} (hu : u ∈ us) (hv : v ∈ us) (hne : u ≠ v)
    (hf : pte2pa (pt.entry u) = pte2pa (pt.entry v)) :
    2 ≤ (pt.frames us).count (pte2pa (pt.entry u)) := by
  induction us with
  | nil => cases hu
  | cons w us ih =>
    rw [PageTable.frames, map_cons, count_cons]
    rcases mem_cons.1 hu with rfl | hu'
    · rcases mem_cons.1 hv with rfl | hv'
      · exact absurd rfl hne
      · have := count_frames_pos pt hv'
        rw [← hf, PageTable.frames] at this
        simp only [beq_self_eq_true, if_true]
        omega
    · rcases mem_cons.1 hv with rfl | hv'
      · have := count_frames_pos pt hu'
        rw [PageTable.frames] at this
        simp only [hf, beq_self_eq_true, if_true] at this ⊢
        omega
      · exact (ih hu' hv').trans (Nat.le_add_right _ _)

theorem count_le_one {xs : List Nat} (h : xs.Nodup) (f : Nat) : xs.count f ≤ 1 :=
  nodup_iff_count_le_one.1 h f

theorem nodup_frames (h : k.Frames R) (hn : us.Nodup) (hm : ∀ u ∈ us, ∃ f, (k.proc p).LeafAt u f) :
    ((k.proc p).pagetable.frames us).Nodup := by
  refine hn.map_on fun u hu v hv huv => ?_
  obtain ⟨f, hf⟩ := hm u hu
  obtain ⟨g, hg⟩ := hm v hv
  have hfg : f = g := hf.frame.symm.trans (huv.trans hg.frame)
  exact h.inj p u v f hf (hfg ▸ hg)

section

variable {us fresh : List Nat}

theorem Update.total (h : k.Frames R) (hu : Update k k' p us fresh) (f : Nat) :
    k.phys.freelist.count f + (k.proc p).base.count f +
      ((k.proc p).pagetable.frames us).count f ≤ 1 := by
  have hfree := count_le_one h.free f
  have hbase := count_le_one (h.base p).1 f
  have hframes := count_le_one (nodup_frames h hu.nodup hu.mapped) f
  by_cases hmem : f ∈ (k.proc p).pagetable.frames us
  · obtain ⟨u, huu, rfl⟩ := mem_map.1 hmem
    obtain ⟨g, hg⟩ := hu.mapped u huu
    have hgf := hg.frame
    obtain ⟨-, hnot, hnotb⟩ := h.leaf p u g hg
    rw [count_eq_zero.2 (hgf ▸ hnot), count_eq_zero.2 (hgf ▸ hnotb p)]
    omega
  · rw [count_eq_zero.2 hmem]
    by_cases hb : f ∈ (k.proc p).base
    · rw [count_eq_zero.2 ((h.base p).2 f hb)]
      omega
    · rw [count_eq_zero.2 hb]
      omega

theorem Update.source (hu : Update k k' p us fresh)
    (hf : f ∈ k'.phys.freelist ∨ f ∈ (k'.proc p).base) : f ∈ k.phys.freelist ∨ f ∈ (k.proc p).base ∨
      ∃ u ∈ us, (k.proc p).LeafAt u f := by
  have hpos : 0 < k'.phys.freelist.count f + (k'.proc p).base.count f := by
    rcases hf with hf | hf
    · have := count_pos_iff.2 hf
      omega
    · have := count_pos_iff.2 hf
      omega
  have hcount := hu.count f
  by_cases h1 : f ∈ k.phys.freelist
  · exact .inl h1
  by_cases h2 : f ∈ (k.proc p).base
  · exact .inr (.inl h2)
  rw [count_eq_zero.2 h1, count_eq_zero.2 h2] at hcount
  have hmem : f ∈ (k.proc p).pagetable.frames us := count_pos_iff.1 (by omega)
  obtain ⟨u, huu, rfl⟩ := mem_map.1 hmem
  obtain ⟨g, hg⟩ := hu.mapped u huu
  exact .inr (.inr ⟨u, huu, hg.frame ▸ hg⟩)

theorem Update.kept (h : k.Frames R) (hu : Update k k' p us fresh) {q : Nat}
    (hl : (k.proc q).LeafAt u f) (hk : q = p → u ∉ us) :
    f ∉ k'.phys.freelist ∧ f ∉ (k'.proc p).base := by
  obtain ⟨-, hfree, hbase⟩ := h.leaf q u f hl
  have hnot : ¬ (f ∈ k'.phys.freelist ∨ f ∈ (k'.proc p).base) := by
    intro hf
    rcases hu.source hf with hf | hf | ⟨v, hv, hlv⟩
    · exact hfree hf
    · exact hbase p hf
    · by_cases hq : q = p
      · subst hq
        exact hk rfl (h.inj q u v f hl hlv ▸ hv)
      · exact hu.unshared v hv q u f hq hlv hl
  exact ⟨fun hf => hnot (.inl hf), fun hf => hnot (.inr hf)⟩

theorem page_unique (h : k.Frames R) {q q' u' : Nat} (hl : (k.proc q).LeafAt u f)
    (hl' : (k.proc q').LeafAt u' f) : u = u' := by
  by_cases hq : q = q'
  · subst hq
    exact h.inj q u u' f hl hl'
  · exact (h.shared q q' u u' f hq hl hl').1

theorem update (h : k.Frames R) (hram : k.phys.Ram) (hu : Update k k' p us fresh)
    (hself : ∀ q u f, q ≠ p → (k'.proc p).LeafAt u f → (k.proc q).LeafAt u f →
      R' p q u ∧ R' q p u)
    (hR : ∀ q q' u f, q ≠ p → q' ≠ p → q ≠ q' → (k.proc q).LeafAt u f → (k.proc q').LeafAt u f →
      R q q' u → R' q q' u) : k'.Frames R' := by
  have htotal := hu.total h
  have hsum : ∀ f, k'.phys.freelist.count f + (k'.proc p).base.count f +
      ((k'.proc p).pagetable.frames fresh).count f ≤ 1 := fun f => (hu.count f).trans (htotal f)
  have hother : ∀ {q u f}, q ≠ p → (k'.proc q).LeafAt u f → (k.proc q).LeafAt u f :=
    fun hq hl => hl.congr (hu.table _ hq)
  have hbase : ∀ {q}, q ≠ p → (k'.proc q).base = (k.proc q).base := by
    intro q hq
    rw [Proc.base, hu.table q hq, hu.trapframe q hq, Proc.base]
  -- what is free or in use for `p` now was not in use for another process
  have hapart : ∀ {q f}, q ≠ p → f ∈ k'.phys.freelist ∨ f ∈ (k'.proc p).base →
      f ∉ (k.proc q).base := by
    intro q f hq hf hb
    rcases hu.source hf with hf | hf | ⟨v, -, hlv⟩
    · exact (h.base q).2 f hb hf
    · exact h.apart q p hq f hb hf
    · exact (h.leaf p v f hlv).2.2 q hb
  have hfresh : ∀ {u f}, u ∈ fresh → (k'.proc p).LeafAt u f → f ∈ k.phys.freelist ∧
      0 < ((k'.proc p).pagetable.frames fresh).count f := by
    intro u f huf hl
    have := hl.frame
    exact ⟨this ▸ hu.taken u huf, this ▸ count_frames_pos _ huf⟩
  -- every page of `p` is fresh or was mapped, by `p` or by another process
  have hcase : ∀ {u f}, (k'.proc p).LeafAt u f → u ∈ fresh ∨
      ∃ s, (k.proc s).LeafAt u f ∧ (s = p → u ∉ us) := by
    intro u f hl
    rcases hu.leaf u f hl with huf | ⟨hus, hl₀⟩ | ⟨⟨s, hs, hl₀⟩, -⟩
    · exact .inl huf
    · exact .inr ⟨p, hl₀, fun _ => hus⟩
    · exact .inr ⟨s, hl₀, fun h => absurd h hs⟩
  refine ⟨?_, fun q => ?_, fun q f hf => ?_, fun q q' hne f hf hf' => ?_, fun q u f hl => ?_,
    fun q u u' f hl hl' => ?_, fun q q' u u' f hne hl hl' => ?_⟩
  · refine nodup_iff_count_le_one.2 fun f => ?_
    have := hsum f
    omega
  · by_cases hq : q = p
    · subst hq
      refine ⟨nodup_iff_count_le_one.2 fun f => ?_, fun f hf hfree => ?_⟩
      · have := hsum f
        omega
      · have := hsum f
        have h1 := count_pos_iff.2 hf
        have h2 := count_pos_iff.2 hfree
        omega
    · rw [hbase hq]
      exact ⟨(h.base q).1, fun f hf hfree => hapart hq (.inl hfree) hf⟩
  · by_cases hq : q = p
    · subst hq
      rcases hu.source (.inr hf) with hf | hf | ⟨v, -, hlv⟩
      · exact hram f hf
      · exact h.ram q f hf
      · exact (h.leaf q v f hlv).1
    · rw [hbase hq] at hf
      exact h.ram q f hf
  · by_cases hq : q = p
    · subst hq
      rw [hbase (fun he => hne he.symm)] at hf'
      exact hapart (fun he => hne he.symm) (.inr hf) hf'
    · rw [hbase hq] at hf
      by_cases hq' : q' = p
      · subst hq'
        exact hapart hq (.inr hf') hf
      · rw [hbase hq'] at hf'
        exact h.apart q q' hne f hf hf'
  · by_cases hq : q = p
    · subst hq
      rcases hcase hl with huf | ⟨s, hs, hkeep⟩
      · obtain ⟨hfree, hpos⟩ := hfresh huf hl
        have := hsum f
        refine ⟨hram f hfree, fun hf => ?_, fun q' hb => ?_⟩
        · have := count_pos_iff.2 hf
          omega
        · by_cases hq' : q' = q
          · subst hq'
            have := count_pos_iff.2 hb
            omega
          · rw [hbase hq'] at hb
            exact (h.base q').2 f hb hfree
      · obtain ⟨hrf, -, hb⟩ := h.leaf s u f hs
        obtain ⟨h1, h2⟩ := hu.kept h hs hkeep
        refine ⟨hrf, h1, fun q' => ?_⟩
        by_cases hq' : q' = q
        · rw [hq']
          exact h2
        · rw [hbase hq']
          exact hb q'
    · have hl₀ := hother hq hl
      obtain ⟨hrf, -, hb⟩ := h.leaf q u f hl₀
      obtain ⟨h1, h2⟩ := hu.kept h hl₀ (fun he => absurd he hq)
      refine ⟨hrf, h1, fun q' => ?_⟩
      by_cases hq' : q' = p
      · rw [hq']
        exact h2
      · rw [hbase hq']
        exact hb q'
  · by_cases hq : q = p
    · subst hq
      rcases hcase hl with huf | ⟨s, hs, -⟩
      · rcases hcase hl' with huf' | ⟨s', hs', -⟩
        · by_contra hne
          have hfr := hl.frame
          have h2 := two_le_count_frames huf huf' hne (hfr.trans hl'.frame.symm)
          rw [hfr] at h2
          have := hsum f
          omega
        · exact absurd (hfresh huf hl).1 (h.leaf s' u' f hs').2.1
      · rcases hcase hl' with huf' | ⟨s', hs', -⟩
        · exact absurd (hfresh huf' hl').1 (h.leaf s u f hs).2.1
        · exact h.page_unique hs hs'
    · exact h.inj q u u' f (hother hq hl) (hother hq hl')
  · have hpage : ∀ {q u u'}, q ≠ p → (k'.proc p).LeafAt u f → (k'.proc q).LeafAt u' f →
        u = u' ∧ R' p q u ∧ R' q p u := by
      intro q u u' hq hl hl'
      have hl₀ := hother hq hl'
      rcases hcase hl with huf | ⟨s, hs, -⟩
      · exact absurd (hfresh huf hl).1 (h.leaf q u' f hl₀).2.1
      · obtain rfl := h.page_unique hs hl₀
        exact ⟨rfl, hself q u f hq hl hl₀⟩
    by_cases hq : q = p
    · subst hq
      obtain ⟨he, hr, -⟩ := hpage (fun he => hne he.symm) hl hl'
      exact ⟨he, hr⟩
    · by_cases hq' : q' = p
      · subst hq'
        obtain ⟨he, -, hr⟩ := hpage hq hl' hl
        exact ⟨he.symm, he ▸ hr⟩
      · have hl₀ := hother hq hl
        have hl₀' := hother hq' hl'
        obtain ⟨rfl, hr⟩ := h.shared q q' u u' f hne hl₀ hl₀'
        exact ⟨rfl, hR q q' u f hq hq' hne hl₀ hl₀' hr⟩

section

variable (htable : ∀ q, q ≠ p → (k'.proc q).pagetable = (k.proc q).pagetable)
  (htf : ∀ q, (k'.proc q).trapframe = (k.proc q).trapframe)

include htable htf

theorem Update.of_filled {perm word : Nat → Nat}
    (hf : Filled (k.proc p).pagetable k.phys fresh perm [] word (k'.proc p).pagetable k'.phys) :
    Update k k' p [] fresh := by
  have hcons := hf.acct.cons
  have hmono := hf.acct.mono
  refine ⟨htable, fun q _ => htf q, fun f => ?_, .nil, by simp, by simp, fun u hu => ?_,
    fun u f hl => ?_⟩
  · have := hcons f
    simp only [Proc.base, htf p, count_append, PageTable.frames, map_nil] at this ⊢
    omega
  · have h1 := hcons (pte2pa ((k'.proc p).pagetable.entry u))
    have h2 := hmono (pte2pa ((k'.proc p).pagetable.entry u))
    have h3 := count_frames_pos (k'.proc p).pagetable hu
    rw [count_nil] at h1
    exact count_pos_iff.1 (by omega)
  · by_cases hu : u ∈ fresh
    · exact .inl hu
    · obtain ⟨hlt, h1, h2, w, hw, hwf⟩ := hl
      rw [hf.other u hlt hu (by simp)] at hw
      exact .inr (.inl ⟨by simp, hlt, h1, h2, w, hw, hwf⟩)

theorem Update.of_removed (ha : Acct (k.proc p).pagetable k.phys (k'.proc p).pagetable k'.phys []
      ((k.proc p).pagetable.frames us)) (hn : us.Nodup) (hm : ∀ u ∈ us, ∃ f, (k.proc p).LeafAt u f)
    (hun : ∀ u ∈ us, ∀ q u' f, q ≠ p → (k.proc p).LeafAt u f → ¬ (k.proc q).LeafAt u' f)
    (hleaf : ∀ u w, u < nvpn → (k'.proc p).pagetable.leaf u = some w →
      u ∉ us ∧ (k.proc p).pagetable.leaf u = some w) : Update k k' p us [] := by
  refine ⟨htable, fun q _ => htf q, fun f => ?_, hn, hm, hun, by simp, fun u f hl => ?_⟩
  · have := ha.cons f
    simp only [Proc.base, htf p, count_append, PageTable.frames, map_nil] at this ⊢
    omega
  · obtain ⟨hlt, h1, h2, w, hw, hwf⟩ := hl
    obtain ⟨hus, hold⟩ := hleaf u w hlt hw
    exact .inr (.inl ⟨hus, hlt, h1, h2, w, hold, hwf⟩)

end

end

end Kernel.Frames

end Xv6
