/-
Reference counting: how many places of a finite domain refer to a thing, and how the number
changes with one place.
-/
import Mathlib.Algebra.BigOperators.Group.Finset.Piecewise

namespace Tally

open Finset

variable {ι α : Type} [DecidableEq α] {D : Finset ι} {g g' : ι → Option α} {i : ι}

def tally (D : Finset ι) (g : ι → Option α) (a : α) : Nat := (D.filter fun x => g x = some a).card

/-- What one place with the value `v` adds to the tally of `a`. -/
def one (v : Option α) (a : α) : Nat := if v = some a then 1 else 0

@[simp] theorem one_none (a : α) : one none a = 0 := rfl

@[simp] theorem one_some_self (a : α) : one (some a) a = 1 := if_pos rfl

theorem one_some_of_ne {a b : α} (h : b ≠ a) : one (some b) a = 0 :=
  if_neg fun he => h (Option.some.inj he)

theorem tally_congr (h : ∀ x ∈ D, g' x = g x) (a : α) : tally D g' a = tally D g a := by
  unfold tally
  congr 1
  refine filter_congr fun x hx => ?_
  rw [h x hx]

theorem tally_change [DecidableEq ι] (hi : i ∈ D) (h : ∀ x, x ≠ i → g' x = g x) (a : α) :
    tally D g' a + one (g i) a = tally D g a + one (g' i) a := by
  have hrest : ∑ x ∈ D.erase i, one (g' x) a = ∑ x ∈ D.erase i, one (g x) a :=
    sum_congr rfl fun x hx => by rw [h x (ne_of_mem_erase hx)]
  have hsum : ∀ f : ι → Option α, tally D f a = ∑ x ∈ D, one (f x) a := fun f =>
    card_filter _ _
  rw [hsum, hsum, ← add_sum_erase D _ hi, ← add_sum_erase D (fun x => one (g x) a) hi]
  omega

theorem tally_pos {a : α} : 0 < tally D g a ↔ ∃ x ∈ D, g x = some a := by
  unfold tally
  rw [card_pos]
  constructor
  · rintro ⟨x, hx⟩
    obtain ⟨hd, hg⟩ := mem_filter.1 hx
    exact ⟨x, hd, hg⟩
  · rintro ⟨x, hd, hg⟩
    exact ⟨x, mem_filter.2 ⟨hd, hg⟩⟩

theorem tally_eq_zero {a : α} : tally D g a = 0 ↔ ∀ x ∈ D, g x ≠ some a := by
  rw [← not_iff_not, ← ne_eq, ← Nat.pos_iff_ne_zero, tally_pos]
  push Not
  rfl

/-! ## Domains

They are irreducible, so that nothing computes the sets of a table of a given size. -/

@[irreducible] def below (n : Nat) : Finset Nat := Finset.range n

theorem mem_below {n i : Nat} : i ∈ below n ↔ i < n := by rw [below, mem_range]

/-- The places of a table with `n` rows of `m` entries. -/
@[irreducible] def grid (n m : Nat) : Finset (Nat × Nat) := Finset.range n ×ˢ Finset.range m

theorem mem_grid {n m i j : Nat} : (i, j) ∈ grid n m ↔ i < n ∧ j < m := by
  rw [grid, mem_product, mem_range, mem_range]

end Tally
