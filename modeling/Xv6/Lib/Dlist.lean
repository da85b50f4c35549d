/-
Circular doubly linked lists with a sentinel: a map to the next element and one to the element
before, and the assignments that take an element out of the list or put one behind the sentinel.
-/
import Mathlib.Data.List.Nodup

namespace Dlist

open Function List

structure Links (α : Type) where
  next : α → α
  prev : α → α

namespace Links

variable {α : Type} [DecidableEq α] (k : Links α)

/-- `b->next->prev = b->prev; b->prev->next = b->next` -/
def unlink (b : α) : Links α :=
  let k := { k with prev := update k.prev (k.next b) (k.prev b) }
  { k with next := update k.next (k.prev b) (k.next b) }

/-- `b->next = head->next; b->prev = head; head->next->prev = b; head->next = b` -/
def linkFront (head b : α) : Links α :=
  let k := { k with next := update k.next b (k.next head) }
  let k := { k with prev := update k.prev b head }
  let k := { k with prev := update k.prev (k.next head) b }
  { k with next := update k.next head b }

theorem unlink_eq {b : α} (h : b ≠ k.next b) : k.unlink b =
    ⟨update k.next (k.prev b) (k.next b), update k.prev (k.next b) (k.prev b)⟩ := by
  rw [unlink]
  dsimp only
  rw [update_of_ne h]

theorem linkFront_eq {head b : α} (h : b ≠ head) : k.linkFront head b =
    ⟨update (update k.next b (k.next head)) head b,
      update (update k.prev b head) (k.next head) b⟩ := by
  rw [linkFront]
  dsimp only
  rw [update_of_ne h.symm]

end Links

variable {α : Type} {k k' : Links α} {a b head x z : α} {l l₁ l₂ : List α}

/-- The links lead from `a` through the list to `z`, and back. -/
def Seg (k : Links α) : α → List α → α → Prop
  | a, [], z => k.next a = z ∧ k.prev z = a
  | a, x :: l, z => k.next a = x ∧ k.prev x = a ∧ Seg k x l z

theorem Seg.congr (h : Seg k a l z) (hnext : ∀ x ∈ a :: l, k'.next x = k.next x)
    (hprev : ∀ x ∈ l ++ [z], k'.prev x = k.prev x) : Seg k' a l z := by
  induction l generalizing a with
  | nil =>
    exact ⟨(hnext a (mem_cons_self ..)).trans h.1, (hprev z (mem_cons_self ..)).trans h.2⟩
  | cons x l ih =>
    obtain ⟨h1, h2, h⟩ := h
    refine ⟨(hnext a (mem_cons_self ..)).trans h1, (hprev x (mem_cons_self ..)).trans h2,
      ih h (fun y hy => ?_) fun y hy => ?_⟩
    · exact hnext y (mem_cons_of_mem _ hy)
    · exact hprev y (mem_cons_of_mem _ hy)

theorem seg_append : Seg k a (l₁ ++ b :: l₂) z ↔ Seg k a l₁ b ∧ Seg k b l₂ z := by
  induction l₁ generalizing a with
  | nil => exact and_assoc.symm
  | cons x l₁ ih =>
    rw [cons_append, Seg, Seg, ih]
    simp only [and_assoc]

theorem Seg.next_mem (h : Seg k a l z) : k.next a ∈ l ++ [z] := by
  cases l with
  | nil => exact mem_singleton.2 h.1
  | cons x l => exact h.1 ▸ mem_cons_self ..

theorem Seg.prev_mem (h : Seg k a l z) : k.prev z ∈ a :: l := by
  induction l generalizing a with
  | nil => exact mem_singleton.2 h.2
  | cons x l ih => exact mem_cons_of_mem _ (ih h.2.2)

/-- The same list backwards. -/
theorem Seg.reverse (h : Seg k a l z) : Seg ⟨k.prev, k.next⟩ z l.reverse a := by
  induction l generalizing a with
  | nil => exact ⟨h.2, h.1⟩
  | cons x l ih =>
    rw [reverse_cons]
    exact seg_append.2 ⟨ih h.2.2, h.2.1, h.1⟩

variable [DecidableEq α]

theorem Seg.unlink (h₁ : Seg k a l₁ b) (h₂ : Seg k b l₂ z) (hnd : (l₁ ++ b :: l₂).Nodup)
    (ha : a ∉ l₁ ++ b :: l₂) (hz : z ∉ l₁ ++ b :: l₂) : Seg (k.unlink b) a (l₁ ++ l₂) z := by
  have hb : k.next b ∈ l₂ ++ [z] := h₂.next_mem
  have hself : b ≠ k.next b := by
    intro he
    rw [← he] at hb
    rcases mem_append.1 hb with hb | hb
    · exact (nodup_cons.1 (nodup_append.1 hnd).2.1).1 hb
    · exact hz (mem_append_right _ (mem_singleton.1 hb ▸ mem_cons_self ..))
  rw [k.unlink_eq hself]
  induction l₁ generalizing a with
  | nil =>
    obtain ⟨-, hba⟩ := h₁
    rw [hba]
    -- `a` and the element behind `b` are made to lead to each other
    cases l₂ with
    | nil =>
      obtain ⟨rfl, -⟩ := h₂
      exact ⟨update_self .., update_self ..⟩
    | cons y l =>
      obtain ⟨rfl, -, h⟩ := h₂
      refine ⟨update_self .., update_self .., h.congr (fun x hx => ?_) fun x hx => ?_⟩
      · exact update_of_ne (by rintro rfl; simp_all) ..
      · exact update_of_ne (by rintro rfl; simp_all) ..
  | cons x l₁ ih =>
    obtain ⟨h1, h2, h⟩ := h₁
    obtain ⟨hx, hnd⟩ := nodup_cons.1 hnd
    have hmem := h.prev_mem
    refine ⟨(update_of_ne ?_ ..).trans h1, (update_of_ne ?_ ..).trans h2, ih h hnd hx fun hm => ?_⟩
    · rintro rfl
      simp_all
    · rintro rfl
      simp_all
    · exact hz (mem_cons_of_mem _ hm)

/-- The links lead from the sentinel through the list and back to it. -/
structure Circular (k : Links α) (head : α) (l : List α) : Prop where
  nodup : (head :: l).Nodup
  seg : Seg k head l head

theorem Circular.unlink (h : Circular k head (l₁ ++ b :: l₂)) :
    Circular (k.unlink b) head (l₁ ++ l₂) := by
  obtain ⟨hhead, hl⟩ := nodup_cons.1 h.nodup
  obtain ⟨h₁, h₂⟩ := seg_append.1 h.seg
  refine ⟨nodup_cons.2 ⟨fun hm => hhead (perm_middle.mem_iff.2 (mem_cons_of_mem _ hm)), ?_⟩,
    h₁.unlink h₂ hl hhead hhead⟩
  exact (nodup_cons.1 (perm_middle.nodup_iff.1 hl)).2

theorem Circular.linkFront (h : Circular k head l) (hb : b ∉ head :: l) :
    Circular (k.linkFront head b) head (b :: l) := by
  obtain ⟨hhead, hl⟩ := nodup_cons.1 h.nodup
  obtain ⟨hbh, hbl⟩ := not_or.1 (mem_cons.not.1 hb)
  have hmem := h.seg.next_mem
  have hne : b ≠ k.next head := by
    intro he
    simp_all
  have hseg := h.seg
  rw [k.linkFront_eq hbh]
  refine ⟨?_, update_self .., (update_of_ne hne ..).trans (update_self ..), ?_⟩
  · exact nodup_cons.2 ⟨not_mem_cons_of_ne_of_not_mem (Ne.symm hbh) hhead, nodup_cons.2 ⟨hbl, hl⟩⟩
  cases l with
  | nil =>
    obtain ⟨hh, -⟩ := hseg
    rw [hh]
    exact ⟨(update_of_ne hbh ..).trans (update_self ..), update_self ..⟩
  | cons y l =>
    obtain ⟨rfl, -, hseg⟩ := hseg
    refine ⟨(update_of_ne hbh ..).trans (update_self ..), update_self ..,
      hseg.congr (fun x hx => ?_) fun x hx => ?_⟩
    · dsimp only
      rw [update_of_ne (by rintro rfl; simp_all), update_of_ne (by rintro rfl; simp_all)]
    · dsimp only
      rw [update_of_ne (by rintro rfl; simp_all), update_of_ne (by rintro rfl; simp_all)]

theorem Circular.foldl_linkFront {bs : List α} (h : Circular k head l) (hbs : bs.Nodup)
    (hnew : ∀ b ∈ bs, b ∉ head :: l) :
    Circular (bs.foldl (fun k b => k.linkFront head b) k) head (bs.reverse ++ l) := by
  induction bs generalizing k l with
  | nil => exact h
  | cons b bs ih =>
    obtain ⟨hb, hbs⟩ := nodup_cons.1 hbs
    rw [reverse_cons, append_assoc]
    refine ih (h.linkFront (hnew b (mem_cons_self ..))) hbs fun x hx hm => ?_
    exact hnew x (mem_cons_of_mem _ hx) (by simp_all)

end Dlist
