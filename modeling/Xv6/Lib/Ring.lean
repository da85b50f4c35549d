/-
Rings of `m` cells that are addressed by counters which only grow: cell `r % m` is the one for
counter `r`.
-/
import Mathlib.Data.List.Basic
import Mathlib.Data.Nat.ModEq

namespace Ring

open Function List

variable {α : Type} {m : Nat} {data : Nat → α} {r n : Nat}

def window (m : Nat) (data : Nat → α) (r n : Nat) : List α :=
  (List.range n).map fun k => data ((r + k) % m)

theorem window_congr {r' : Nat} (h : r % m = r' % m) :
    window m data r n = window m data r' n := by
  refine map_congr_left fun k _ => ?_
  rw [Nat.add_mod r, h, ← Nat.add_mod]

theorem window_eq {l : List α} (h : ∀ k x, l[k]? = some x → data ((r + k) % m) = x) :
    window m data r l.length = l := by
  refine ext_getElem (by simp [window]) fun k _ hk => ?_
  simp only [window, getElem_map, getElem_range]
  exact h k _ (List.getElem?_eq_getElem hk)

theorem cell_ne {k : Nat} (hk : k < n) (hn : n < m) : (r + k) % m ≠ (r + n) % m := by
  intro h
  have hmod : k ≡ n [MOD m] := Nat.ModEq.add_left_cancel' r h
  exact hk.ne (hmod.eq_of_lt_of_lt (hk.trans hn) hn)

theorem window_succ :
    window m data r (n + 1) = window m data r n ++ [data ((r + n) % m)] := by
  unfold window
  rw [range_succ, map_append, map_singleton]

theorem window_update (hn : n < m) (x : α) :
    window m (update data ((r + n) % m) x) r n = window m data r n := by
  refine map_congr_left fun k hk => ?_
  exact update_of_ne (cell_ne (mem_range.1 hk) hn) ..

/-- An element that is stored behind the others, in a ring that is not full. -/
theorem window_push (hn : n < m) (x : α) :
    window m (update data ((r + n) % m) x) r (n + 1) = window m data r n ++ [x] := by
  rw [window_succ, window_update hn, update_self]

/-- The first element, and those behind it. -/
theorem window_pop : window m data r (n + 1) = data (r % m) :: window m data (r + 1) n := by
  unfold window
  rw [range_succ_eq_map, map_cons, map_map]
  congr 1
  refine map_congr_left fun k _ => ?_
  rw [comp_apply, Nat.add_succ, Nat.succ_add]

/-! ## Counters of 16 bits -/

section

variable {r w : UInt16}

/-- The elements from counter `r` up to `w`. -/
def queue (m : Nat) (data : Nat → α) (r w : UInt16) : List α :=
  window m data r.toNat (w - r).toNat

theorem queue_length : (queue m data r w).length = (w - r).toNat := by
  simp [queue, window]

theorem queue_self : queue m data r r = [] := by
  simp [queue, window]

theorem cell_eq (hm : m ∣ 65536) : (r.toNat + (w - r).toNat) % m = w.toNat % m := by
  have hw : w.toNat = (r.toNat + (w - r).toNat) % 65536 := by
    rw [UInt16.toNat_sub]
    have := r.toNat_lt
    have := w.toNat_lt
    omega
  rw [hw, Nat.mod_mod_of_dvd _ hm]

theorem toNat_sub_succ (h : r ≠ w) : (w - r).toNat = (w - (r + 1)).toNat + 1 := by
  have hne : r.toNat ≠ w.toNat := fun he => h (UInt16.toNat_inj.1 he)
  rw [UInt16.toNat_sub, UInt16.toNat_sub, UInt16.toNat_add]
  have := r.toNat_lt
  have := w.toNat_lt
  simp only [UInt16.toNat_one]
  omega

theorem queue_pop (hm : m ∣ 65536) (h : r ≠ w) :
    queue m data r w = data (r.toNat % m) :: queue m data (r + 1) w := by
  unfold queue
  rw [toNat_sub_succ h, window_pop]
  congr 1
  refine window_congr ?_
  rw [UInt16.toNat_add, UInt16.toNat_one, Nat.mod_mod_of_dvd _ hm]

theorem toNat_succ_sub (h : (w - r).toNat < 65535) : (w + 1 - r).toNat = (w - r).toNat + 1 := by
  rw [UInt16.toNat_sub] at h ⊢
  rw [UInt16.toNat_add, UInt16.toNat_one, UInt16.toNat_sub]
  omega

variable (hm : m ∣ 65536) (hn : (queue m data r w).length < m)

include hm hn

theorem queue_update (x : α) :
    queue m (update data (w.toNat % m) x) r w = queue m data r w := by
  rw [queue_length] at hn
  unfold queue
  rw [← cell_eq hm, window_update hn]

theorem queue_succ (hlt : m < 65536) :
    queue m data r (w + 1) = queue m data r w ++ [data (w.toNat % m)] := by
  rw [queue_length] at hn
  unfold queue
  rw [toNat_succ_sub (by omega), window_succ, cell_eq hm]

theorem queue_push (hlt : m < 65536) (x : α) :
    queue m (update data (w.toNat % m) x) r (w + 1) = queue m data r w ++ [x] := by
  have hupd := queue_update hm hn x
  rw [queue_succ hm (by rwa [hupd]) hlt, hupd, update_self]

end

end Ring
