/-
Singly linked lists: a map that leads from each element to the next one.
-/
import Mathlib.Data.List.Nodup

namespace Slist

open Function List

variable {α : Type} {next next' : α → Option α} {p : α} {l : List α}

/-- `next` leads through the list, and to nothing at its end. -/
def Linked (next : α → Option α) : List α → Prop
  | [] => True
  | p :: l => next p = l.head? ∧ Linked next l

theorem Linked.congr (h : Linked next l) (he : ∀ x ∈ l, next' x = next x) : Linked next' l := by
  induction l with
  | nil => trivial
  | cons p l ih =>
    refine ⟨(he p (mem_cons_self ..)).trans h.1, ih h.2 fun x hx => ?_⟩
    exact he x (mem_cons_of_mem _ hx)

/-- The element `n` links behind `o`. -/
def follow (next : α → Option α) (o : Option α) : Nat → Option α
  | 0 => o
  | n + 1 => (follow next o n).bind next

theorem Linked.getElem? (h : Linked next l) {n : Nat} (hn : n < l.length) :
    next l[n] = l[n + 1]? := by
  induction l generalizing n with
  | nil => cases hn
  | cons p l ih =>
    cases n with
    | zero => rw [getElem_cons_zero, h.1, List.head?_eq_getElem?, List.getElem?_cons_succ]
    | succ n => exact ih h.2 (Nat.lt_of_succ_lt_succ hn)

/-- The links lead from the head of the list to all its elements, in order. -/
theorem Linked.follow_eq (h : Linked next l) (n : Nat) : follow next l.head? n = l[n]? := by
  induction n with
  | zero => exact List.head?_eq_getElem?
  | succ n ih =>
    rw [follow, ih]
    by_cases hn : n < l.length
    · rw [List.getElem?_eq_getElem hn, Option.bind_some, h.getElem? hn]
    · rw [List.getElem?_eq_none (by omega), List.getElem?_eq_none (by omega), Option.bind_none]

theorem Linked.exists_follow_iff (h : Linked next l) :
    (∃ n, follow next l.head? n = some p) ↔ p ∈ l := by
  rw [mem_iff_getElem?]
  simp only [h.follow_eq]

variable [DecidableEq α]

theorem Linked.push (h : Linked next l) (hp : p ∉ l) :
    Linked (update next p l.head?) (p :: l) := by
  refine ⟨update_self .., h.congr fun x hx => update_of_ne ?_ ..⟩
  rintro rfl
  exact hp hx

theorem Linked.pop (h : Linked next (p :: l)) (hp : p ∉ l) (o : Option α) :
    Linked (update next p o) l := by
  refine h.2.congr fun x hx => update_of_ne ?_ ..
  rintro rfl
  exact hp hx

theorem Linked.append {t : α} (h : Linked next l) (hl : l.Nodup) (hp : p ∉ l)
    (hlast : l.getLast? = some t) (hnext : next p = none) :
    Linked (update next t (some p)) (l ++ [p]) := by
  induction l with
  | nil => cases hlast
  | cons a l ih =>
    obtain ⟨ha, hl⟩ := nodup_cons.1 hl
    have hpa : p ≠ a := fun he => hp (he ▸ mem_cons_self ..)
    cases l with
    | nil =>
      cases hlast
      exact ⟨update_self .., (update_of_ne hpa ..).trans hnext, trivial⟩
    | cons b l =>
      have hta : a ≠ t := by
        rintro rfl
        exact ha (mem_of_getLast? hlast)
      refine ⟨(update_of_ne hta ..).trans h.1, ih h.2 hl (fun hm => hp ?_) hlast⟩
      exact mem_cons_of_mem _ hm

end Slist
