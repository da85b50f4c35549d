/-
Lists that have the elements of a set, each once, and what a change of one entry does to counts.
-/
import Mathlib.Data.List.Nodup
import Mathlib.Data.List.Perm.Subperm
import Mathlib.Data.List.Range

namespace Listing

open Function List

variable {α : Type}

/-- The list has the elements of the set, each once. -/
structure Of (l : List α) (P : α → Prop) : Prop where
  nodup : l.Nodup
  mem : ∀ x, x ∈ l ↔ P x

theorem nodup_append_singleton {l : List α} {x : α} (hl : l.Nodup) (hx : x ∉ l) :
    (l ++ [x]).Nodup := by
  rw [← concat_eq_append]
  exact List.Nodup.concat hx hl

namespace Of

variable {l : List α} {P Q : α → Prop} {a : α}

theorem congr (h : Of l P) (hPQ : ∀ x, Q x ↔ P x) : Of l Q :=
  ⟨h.nodup, fun x => (h.mem x).trans (hPQ x).symm⟩

theorem push (h : Of l P) (ha : ¬ P a) (hQ : ∀ x, Q x ↔ P x ∨ x = a) : Of (l ++ [a]) Q := by
  refine ⟨nodup_append_singleton h.nodup fun hm => ha ((h.mem a).1 hm), fun x => ?_⟩
  rw [mem_append, mem_singleton, h.mem, hQ]

theorem pop (h : Of (a :: l) P) (hQ : ∀ x, Q x ↔ P x ∧ x ≠ a) : Of l Q := by
  obtain ⟨ha, hl⟩ := nodup_cons.1 h.nodup
  refine ⟨hl, fun x => ?_⟩
  rw [hQ, ← h.mem, mem_cons]
  exact ⟨fun hx => ⟨.inr hx, fun he => ha (he ▸ hx)⟩, fun hx => hx.1.resolve_left hx.2⟩

theorem eraseIdx [DecidableEq α] {k : Nat} (h : Of l P) (hk : l[k]? = some a)
    (hQ : ∀ x, Q x ↔ P x ∧ x ≠ a) : Of (l.eraseIdx k) Q := by
  obtain ⟨hlt, rfl⟩ := List.getElem?_eq_some_iff.1 hk
  refine ⟨h.nodup.sublist (eraseIdx_sublist ..), fun x => ?_⟩
  rw [← List.Nodup.erase_getElem h.nodup, List.Nodup.mem_erase_iff h.nodup, h.mem, hQ, and_comm]

end Of

theorem Of.moveFront [DecidableEq α] {l : List α} {P : α → Prop} {a : α} (h : Of l P) (ha : P a) :
    Of (a :: l.erase a) P := by
  refine ⟨nodup_cons.2 ⟨h.nodup.not_mem_erase, h.nodup.erase a⟩, fun x => ?_⟩
  rw [mem_cons, h.nodup.mem_erase_iff, h.mem]
  constructor
  · rintro (rfl | ⟨-, hx⟩)
    · exact ha
    · exact hx
  · intro hx
    by_cases hxa : x = a
    · exact .inl hxa
    · exact .inr ⟨hxa, hx⟩

theorem countP_range_update {f : Nat → α} {n p : Nat} (hp : p < n) (v : α) (P : α → Bool) :
    (List.range n).countP (fun q => P (update f p v q)) + (if P (f p) then 1 else 0) =
      (List.range n).countP (fun q => P (f q)) + if P v then 1 else 0 := by
  have hsame : ∀ m ≤ p, (List.range m).countP (fun q => P (update f p v q)) =
      (List.range m).countP fun q => P (f q) := by
    intro m hm
    refine countP_congr fun q hq => ?_
    rw [update_of_ne (by have := mem_range.1 hq; omega)]
  induction n with
  | zero => omega
  | succ n ih =>
    simp only [range_succ, countP_append, countP_singleton]
    by_cases hpn : p = n
    · subst hpn
      rw [hsame p le_rfl, update_self]
      omega
    · have := ih (by omega)
      rw [update_of_ne (Ne.symm hpn)]
      omega

theorem Of.length_lt {l : List Nat} {P : Nat → Prop} {a n : Nat} (h : Of l P)
    (hP : ∀ x, P x → x < n) (ha : ¬ P a) (hn : a < n) : l.length < n := by
  have hnd := (h.push (Q := fun x => P x ∨ x = a) ha fun _ => Iff.rfl).nodup
  have hsub : l ++ [a] ⊆ List.range n := by
    intro x hx
    rw [mem_range]
    rcases mem_append.1 hx with hx | hx
    · exact hP x ((h.mem x).1 hx)
    · rw [mem_singleton.1 hx]
      exact hn
  have hle := (List.Nodup.subperm hnd hsub).length_le
  rw [length_append, length_range] at hle
  exact hle

theorem count_flatMap_set {β : Type} [DecidableEq β] {l : List α} {i : Nat} {a : α}
    (h : l[i]? = some a) (b : α) (g : α → List β) (x : β) :
    ((l.set i b).flatMap g).count x + (g a).count x = (l.flatMap g).count x + (g b).count x := by
  induction l generalizing i with
  | nil => cases h
  | cons c l ih =>
    cases i with
    | zero =>
      cases h
      simp only [set_cons_zero, flatMap_cons, count_append]
      omega
    | succ i =>
      have := ih (i := i) h
      simp only [set_cons_succ, flatMap_cons, count_append]
      omega

theorem count_flatMap_eraseIdx {β : Type} [DecidableEq β] {l : List α} {i : Nat} {a : α}
    (h : l[i]? = some a) (g : α → List β) (x : β) :
    ((l.eraseIdx i).flatMap g).count x + (g a).count x = (l.flatMap g).count x := by
  induction l generalizing i with
  | nil => cases h
  | cons c l ih =>
    cases i with
    | zero =>
      cases h
      simp only [eraseIdx_cons_zero, flatMap_cons, count_append]
      omega
    | succ i =>
      have := ih (i := i) h
      simp only [eraseIdx_cons_succ, flatMap_cons, count_append]
      omega

theorem length_le_of_lt {l : List Nat} {n : Nat} (hnd : l.Nodup) (hlt : ∀ x ∈ l, x < n) :
    l.length ≤ n := by
  have hsub : l ⊆ List.range n := fun x hx => mem_range.2 (hlt x hx)
  simpa using (List.Nodup.subperm hnd hsub).length_le

theorem getElem?_splice {f l : List α} {o : Nat} (h : o ≤ f.length) (k : Nat) :
    (f.take o ++ l ++ f.drop (o + l.length))[k]? =
      if o ≤ k ∧ k < o + l.length then l[k - o]? else f[k]? := by
  have ho : (f.take o).length = o := length_take_of_le h
  rcases Nat.lt_or_ge k o with hk | hk
  · rw [append_assoc, List.getElem?_append_left (by omega), List.getElem?_take_of_lt hk,
      if_neg (by omega)]
  · rcases Nat.lt_or_ge k (o + l.length) with hlt | hge
    · rw [List.getElem?_append_left (by simp only [length_append]; omega),
        List.getElem?_append_right (by omega), ho, if_pos ⟨hk, hlt⟩]
    · rw [List.getElem?_append_right (by simp only [length_append]; omega),
        List.getElem?_drop, if_neg (by omega)]
      congr 1
      simp only [length_append]
      omega

end Listing
