/-
The family of a shared region: the nodes of its holders form one circular list, and a holder
that is linked to itself is the last one.
-/
import Mathlib.Data.List.Rotate
import Xv6.Mmr.Isolated

namespace Xv6

open List

namespace Kernel

/-- `next` leads through the list, from its last node back to the first, and `prev` the other
way round. -/
def Ring (k : Kernel) (l : List NodePtr) : Prop :=
  l.Nodup ∧ ∀ a b, (a, b) ∈ l.zip (l.rotate 1) →
    (k.node a).next = some b ∧ (k.node b).prev = some a

/-- Region `i` of `p` and region `j` of `q` come from one call of `mmap` and are both held. -/
def SameFamily (k : Kernel) (p i q j : Nat) : Prop :=
  k.Shared q j ∧ ((k.proc q).mmr j).origin = ((k.proc p).mmr i).origin

/-- The holders of every shared region are linked in one ring; one that is linked to itself is
the only holder, and then no other process maps a frame of the region. -/
structure Families (k : Kernel) : Prop where
  ring : ∀ p i, k.Shared p i → ∃ l, k.Ring (⟨p, i⟩ :: l) ∧
    ∀ q j, ⟨q, j⟩ ∈ (⟨p, i⟩ :: l : List NodePtr) ↔ k.SameFamily p i q j
  last : ∀ p i, k.Shared p i →
    ((k.node ⟨p, i⟩).next = some ⟨p, i⟩ ↔ ∀ q j, k.SameFamily p i q j → q = p)
  alone : ∀ p i v f, k.Shared p i → (k.node ⟨p, i⟩).next = some ⟨p, i⟩ → v < nvpn →
    v ∈ ((k.proc p).mmr i).pages → (k.proc p).pagetable.maps v f →
    ∀ q u w, q ≠ p → u < nvpn → (k.proc q).pagetable.leaf u = some w → pte2pa w ≠ f
  once : k.phys.freelist.Nodup ∧ ∀ p v f, (k.proc p).state ≠ .unused → v < nvpn →
    (k.proc p).pagetable.maps v f → f ∉ k.phys.freelist

variable {k : Kernel} {p q i j : Nat}

theorem Shared.held (h : k.Shared p i) : k.Held p i := ⟨h.live, h.valid⟩

theorem Ring.prev_next {l : List NodePtr} (h : k.Ring l) {n : NodePtr} (hn : n ∈ l) :
    ∃ a, (k.node n).prev = some a ∧ (k.node a).next = some n := by
  obtain ⟨m, hm, hget⟩ := mem_iff_getElem.1 ((mem_rotate (n := 1)).2 hn)
  have hm' : m < l.length := by simpa using hm
  have hmem : (l[m], n) ∈ l.zip (l.rotate 1) := by
    rw [mem_iff_getElem]
    exact ⟨m, by simpa using hm', by simp [hget]⟩
  obtain ⟨hnext, hprev⟩ := h.2 _ _ hmem
  exact ⟨l[m], hprev, hnext⟩

theorem ring_single (h : k.Link p p i) : k.Ring [⟨p, i⟩] := by
  refine ⟨nodup_singleton _, fun a b hab => ?_⟩
  simp only [rotate_singleton, zip_cons_cons, zip_nil_left, mem_singleton] at hab
  obtain ⟨rfl, rfl⟩ := hab
  exact h

theorem ring_pair {H : Nat → Nat → Prop} (h : k.Paired H p q i) : k.Ring [⟨p, i⟩, ⟨q, i⟩] := by
  refine ⟨by simp [h.ne], fun a b hab => ?_⟩
  have hrotate : [(⟨p, i⟩ : NodePtr), ⟨q, i⟩].rotate 1 = [⟨q, i⟩, ⟨p, i⟩] := rfl
  simp only [hrotate, zip_cons_cons, zip_nil_left, mem_cons,
    not_mem_nil, or_false] at hab
  rcases hab with ⟨rfl, rfl⟩ | ⟨rfl, rfl⟩
  · exact ⟨h.fore.1, h.back.2⟩
  · exact ⟨h.back.1, h.fore.2⟩

theorem Iso.sameFamily_iff (h : k.Iso k.Held) (hs : k.Shared p i) :
    k.SameFamily p i q j ↔ j = i ∧ (q = p ∨ k.Paired k.Held p q i) := by
  constructor
  · rintro ⟨hq, ho⟩
    obtain ⟨rfl, heq | hpair⟩ := h.one p q i j hs.held hq.held hs.notPrivate ho.symm
    · exact ⟨rfl, .inl heq.symm⟩
    · exact ⟨rfl, .inr hpair⟩
  · rintro ⟨rfl, rfl | hpair⟩
    · exact ⟨hs, rfl⟩
    · exact ⟨h.shared hpair.right hpair.symm.notPrivate, by rw [hpair.same]⟩

theorem Iso.families (h : k.Iso k.Held) (hb : k.Basic) : k.Families := by
  refine ⟨fun p i hs => ?_, fun p i hs => ⟨fun hnext q j hq => ?_, fun honly => ?_⟩, ?_,
    h.frames.free, fun p v f hlive hv hmap => (h.isolated hb p v f hlive hv hmap).2.1⟩
  · rcases h.family p i hs.held hs.notPrivate with hl | ⟨s, hpair⟩
    · refine ⟨[], ring_single hl, fun q j => ?_⟩
      rw [h.sameFamily_iff hs, mem_singleton, NodePtr.mk.injEq, and_comm]
      refine and_congr_right fun _ => ⟨.inl, fun hq => hq.resolve_right fun hpair => ?_⟩
      exact hl.not_paired hpair
    · refine ⟨[⟨s, i⟩], ring_pair hpair, fun q j => ?_⟩
      rw [h.sameFamily_iff hs, mem_pair, NodePtr.mk.injEq, NodePtr.mk.injEq, ← or_and_right,
        and_comm]
      refine and_congr_right fun _ => or_congr_right ⟨fun hq => hq ▸ hpair, fun hq => ?_⟩
      exact (hpair.unique hq).symm
  · obtain ⟨rfl, heq | hpair⟩ := (h.sameFamily_iff hs).1 hq
    · exact heq
    · have hfore := hpair.fore.1
      rw [hnext, Option.some.injEq, NodePtr.mk.injEq] at hfore
      exact absurd hfore.1 hpair.ne
  · rcases h.family p i hs.held hs.notPrivate with hl | ⟨s, hpair⟩
    · exact hl.1
    · exact absurd (honly s i ((h.sameFamily_iff hs).2 ⟨rfl, .inr hpair⟩)) hpair.ne.symm
  · rintro p i v f hs hnext hv hpage hmap q u w hq hu hw rfl
    have hl := leafAt_of_maps hb hs.live hv hmap
    obtain ⟨hram, -, hbase⟩ := h.frames.leaf p v _ hl
    obtain ⟨rfl, i', hpair, hown, -⟩ := h.frames.shared p q v u _ (fun he => hq he.symm) hl
      (h.leafAt_of_leaf hb hu hw hram (hbase q))
    obtain rfl := hown.only i hs.held hpage
    have hfore := hpair.fore.1
    rw [hnext, Option.some.injEq, NodePtr.mk.injEq] at hfore
    exact hpair.ne hfore.1

end Kernel

/-- In a run in which calls and faults are in order, the family lists are rings of the current
holders. -/
theorem families_of_orderly {ph : Phys} {k k' : Kernel} {es : List Event} (hboot : Boots ph k)
    (hg : Run.Guarded Kernel.step Kernel.Orderly k es)
    (hrun : Run.exec Kernel.step k es = .ok k') : k'.Families := by
  obtain ⟨hb, hiso⟩ := inv_of_orderly hboot hg hrun
  exact hiso.families hb

/-- The first process and its first child hold region 0, and the child's `prev` leads to the
parent; `closed` says whether the parent's `next` leads back to the child. -/
def Kernel.childLinked (closed : Bool) (k : Kernel) : Bool :=
  let r := (k.proc 1).mmr 0
  (k.proc 1).state != .unused && r.valid && has r.flags mapShared && !r.isPrivate &&
    (k.node ⟨1, 0⟩).prev == some ⟨0, 0⟩ &&
    ((k.node ⟨0, 0⟩).next == some ⟨1, 0⟩) == closed

theorem Kernel.of_childLinked {closed : Bool} {k : Kernel} (h : k.childLinked closed = true) :
    k.Shared 1 0 ∧ (k.node ⟨1, 0⟩).prev = some ⟨0, 0⟩ ∧
      ((k.node ⟨0, 0⟩).next = some ⟨1, 0⟩ ↔ closed = true) := by
  simp only [childLinked, Bool.and_eq_true, beq_iff_eq, bne_iff_ne, Bool.not_eq_true'] at h
  obtain ⟨⟨⟨⟨⟨hl, hv⟩, hs⟩, hp⟩, hprev⟩, hclosed⟩ := h
  refine ⟨⟨hl, hv, hs, hp⟩, hprev, ?_⟩
  rw [← hclosed, beq_iff_eq]

/-- A second fork puts the new child between the parent and the first one, but leaves the first
child's `prev` on the parent. -/
theorem secondFork_not_families :
    ∃ ph k k', Boots ph k ∧
      Run.exec Kernel.step k [.mmap 0 pgsize (pteR ||| pteW) mapShared, .fork 0, .fork 0] =
        .ok k' ∧ ¬ k'.Families := by
  have hends : bootRun.ends 32 [.mmap 0 pgsize (pteR ||| pteW) mapShared, .fork 0, .fork 0]
      (Kernel.childLinked false) = true := by decide +kernel
  obtain ⟨k, k', hboot, hrun, hcheck⟩ := bootRun.of_ends (by decide) (by decide) hends
  obtain ⟨hs, hprev, hopen⟩ := Kernel.of_childLinked hcheck
  refine ⟨_, k, k', hboot, hrun, fun hfam => ?_⟩
  obtain ⟨l, hring, -⟩ := hfam.ring 1 0 hs
  obtain ⟨a, ha, hback⟩ := hring.prev_next mem_cons_self
  rw [hprev, Option.some.injEq] at ha
  subst ha
  exact absurd (hopen.1 hback) (by decide)

/-- After one fork parent and child are a ring of two. -/
theorem families_of_orderly_fork :
    ∃ ph k k', Boots ph k ∧
      Run.Guarded Kernel.step Kernel.Orderly k
        [.mmap 0 pgsize (pteR ||| pteW) mapShared, .fork 0] ∧
      Run.exec Kernel.step k [.mmap 0 pgsize (pteR ||| pteW) mapShared, .fork 0] = .ok k' ∧
      k'.Families ∧ k'.Shared 1 0 ∧ (k'.node ⟨0, 0⟩).next = some ⟨1, 0⟩ := by
  have hends : bootRun.ends 32 [.mmap 0 pgsize (pteR ||| pteW) mapShared, .fork 0]
      (Kernel.childLinked true) = true := by decide +kernel
  obtain ⟨k, k', hboot, hrun, hcheck⟩ := bootRun.of_ends (by decide) (by decide) hends
  obtain ⟨hs, -, hclosed⟩ := Kernel.of_childLinked hcheck
  have hpass : bootRun.passes 32 Kernel.isOrderly
      [.mmap 0 pgsize (pteR ||| pteW) mapShared, .fork 0] = true := by decide +kernel
  have hguard := hboot.guarded (fun _ _ hx => Kernel.orderly_of_isOrderly hx) hpass
  exact ⟨_, k, k', hboot, hguard, hrun, families_of_orderly hboot hguard hrun, hs, hclosed.2 rfl⟩

end Xv6
