/-
Lists of writes to an addressed store.

`applyWrites ws d` performs the writes of `ws` on `d` in order.  The facts a redo
log rests on are here: a cell holds the last value written to it, so performing
a prefix of the writes first makes no difference.
-/
import Mathlib.Data.List.Basic

namespace Writes

open Function List

variable {ι α : Type} [DecidableEq ι]

def applyWrites (ws : List (ι × α)) (d : ι → α) : ι → α :=
  ws.foldl (fun d w => update d w.1 w.2) d

@[simp] theorem applyWrites_nil (d : ι → α) : applyWrites [] d = d := rfl

@[simp] theorem applyWrites_cons (w : ι × α) (ws : List (ι × α)) (d : ι → α) :
    applyWrites (w :: ws) d = applyWrites ws (update d w.1 w.2) := rfl

theorem applyWrites_append (ws vs : List (ι × α)) (d : ι → α) :
    applyWrites (ws ++ vs) d = applyWrites vs (applyWrites ws d) :=
  foldl_append

theorem applyWrites_snoc (ws : List (ι × α)) (w : ι × α) (d : ι → α) :
    applyWrites (ws ++ [w]) d = update (applyWrites ws d) w.1 w.2 :=
  applyWrites_append ws [w] d

theorem applyWrites_of_notMem {ws : List (ι × α)} {x : ι} (h : x ∉ ws.map Prod.fst)
    (d : ι → α) : applyWrites ws d x = d x := by
  induction ws generalizing d with
  | nil => rfl
  | cons w ws ih =>
    simp only [map_cons, mem_cons, not_or] at h
    rw [applyWrites_cons, ih h.2, update_of_ne h.1]

/-- What a written cell held before does not matter. -/
theorem applyWrites_congr {ws : List (ι × α)} {d d' : ι → α} {x : ι}
    (h : x ∉ ws.map Prod.fst → d x = d' x) : applyWrites ws d x = applyWrites ws d' x := by
  induction ws generalizing d d' with
  | nil => exact h not_mem_nil
  | cons w ws ih =>
    rw [applyWrites_cons, applyWrites_cons]
    apply ih
    intro hx
    by_cases hw : x = w.1
    · subst hw
      rw [update_self, update_self]
    · rw [update_of_ne hw, update_of_ne hw]
      apply h
      simp only [map_cons, mem_cons, not_or]
      exact ⟨hw, hx⟩

/-- Redoing all writes after a prefix of them was done already. -/
theorem applyWrites_take (ws : List (ι × α)) (i : Nat) (d : ι → α) :
    applyWrites ws (applyWrites (ws.take i) d) = applyWrites ws d := by
  funext x
  apply applyWrites_congr
  intro hx
  apply applyWrites_of_notMem
  intro hmem
  obtain ⟨w, hw, rfl⟩ := mem_map.mp hmem
  exact hx (mem_map.mpr ⟨w, mem_of_mem_take hw, rfl⟩)

/-- Writing each key of `ks` with the value `v` gives it, in whatever order. -/
theorem applyWrites_keys (ks : List ι) (v : ι → α) (d : ι → α) (x : ι) :
    applyWrites (ks.map fun k => (k, v k)) d x = if x ∈ ks then v x else d x := by
  induction ks generalizing d with
  | nil => simp
  | cons k ks ih =>
    rw [map_cons, applyWrites_cons, ih]
    by_cases hx : x ∈ ks
    · simp [hx]
    · by_cases hk : x = k
      · subst hk
        simp [hx]
      · simp [hk]

end Writes
