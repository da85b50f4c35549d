/-
Radix tables: trees of pages of `b` entries, in which a key is looked up one base-`b` digit
a level.  The pages live in numbered frames and are taken from an allocator when a lookup has
to create them.  Nothing here depends on what the values are.
-/
import Mathlib.Data.List.Flatten
import Mathlib.Data.Finset.Card
import Mathlib.Tactic.Ring

namespace Radix

open Function List

variable {k k' l : Nat}

/-- A table whose root page has level `l`.  Pages of level 0 hold the values, the pages above
hold tables of the level below; `absent` is a table that has no page yet. -/
inductive Table (α : Type) : Nat → Type where
  | absent {l : Nat} : Table α l
  | page (frame : Nat) (entry : Nat → α) : Table α 0
  | dir {l : Nat} (frame : Nat) (child : Nat → Table α l) : Table α (l + 1)

namespace Table

variable {α : Type} (b : Nat)

/-- The digit of the key that a page of level `l` is indexed with. -/
def digit (l k : Nat) : Nat := k / b ^ l % b

/-- The value stored under `k`; 0 where a page on the path is absent. -/
def get [Zero α] : {l : Nat} → Table α l → Nat → α
  | _, absent, _ => 0
  | _, page _ e, k => e (digit b 0 k)
  | l + 1, dir _ c, k => (c (digit b (l + 1) k)).get k

/-- Store `w` under `k`, provided the pages on the path exist. -/
def set : {l : Nat} → Table α l → Nat → α → Table α l
  | _, absent, _, _ => absent
  | _, page f e, k, w => page f (update e (digit b 0 k) w)
  | l + 1, dir f c, k, w =>
    dir f (update c (digit b (l + 1) k) ((c (digit b (l + 1) k)).set k w))

/-- The page of level `j` on the path of `k` exists. -/
def reaches : {l : Nat} → Table α l → Nat → Nat → Bool
  | _, absent, _, _ => false
  | _, page _ _, j, _ => j == 0
  | l + 1, dir _ c, j, k => j == l + 1 || (c (digit b (l + 1) k)).reaches j k

/-- The frames of the pages, children before their parent. -/
def pages : {l : Nat} → Table α l → List Nat
  | _, absent => []
  | _, page f _ => [f]
  | _ + 1, dir f c => (List.range b).flatMap (fun i => (c i).pages) ++ [f]

def empty [Zero α] (frame : Nat) : (l : Nat) → Table α l
  | 0 => page frame (fun _ => 0)
  | _ + 1 => dir frame (fun _ => absent)

variable {σ : Type} (alloc : σ → Option (Nat × σ))

/-- The table itself, or a new empty page in its place if it is absent. -/
def ensure [Zero α] : {l : Nat} → Table α l → σ → Option (Table α l × σ)
  | l, absent, s => (alloc s).map fun r => (empty r.1 l, r.2)
  | _, page f e, s => some (page f e, s)
  | _ + 1, dir f c, s => some (dir f c, s)

/-- Create the absent pages on the path of `k`, from the top; the pages made before the
allocator ran out stay. -/
def grow [Zero α] : {l : Nat} → Table α l → Nat → σ → Bool × Table α l × σ
  | l + 1, dir f c, k, s =>
    let i := digit b (l + 1) k
    match (c i).ensure alloc s with
    | none => (false, dir f c, s)
    | some (t, s') =>
      let r := grow t k s'
      (r.1, dir f (update c i r.2.1), r.2.2)
  | 0, page f e, _, s => (true, page f e, s)
  | _, absent, _, s => (false, absent, s)

/-- The number of pages that are absent on the path of `k`. -/
def missing : {l : Nat} → Table α l → Nat → Nat
  | l, absent, _ => l + 1
  | _, page _ _, _ => 0
  | l + 1, dir _ c, k => (c (digit b (l + 1) k)).missing k

/-- The paths of `k` and `k'` in a table of level `l` share the page of level `j`. -/
def meet (k k' : Nat) : Nat → Nat → Bool
  | 0, j => j == 0
  | l + 1, j => j == l + 1 || (digit b (l + 1) k == digit b (l + 1) k' && meet k k' l j)

/-- The allocator hands out the frames of the list, in order. -/
def Takes : σ → List Nat → σ → Prop
  | s, [], s' => s = s'
  | s, f :: fs, s' => ∃ s₁, alloc s = some (f, s₁) ∧ Takes s₁ fs s'

/-! ## Reading and storing -/

theorem digit_eq_of_mod_eq (h : k % b ^ (l + 1) = k' % b ^ (l + 1)) :
    digit b l k = digit b l k' := by
  rw [Nat.mod_pow_succ, Nat.mod_pow_succ] at h
  rcases Nat.eq_zero_or_pos (b ^ l) with h0 | hpos
  · simp [digit, h0]
  · have hk := Nat.mod_lt k hpos
    have hk' := Nat.mod_lt k' hpos
    have hdiv := congrArg (· / b ^ l) h
    simpa [digit, Nat.add_mul_div_left, hpos] using hdiv

theorem mod_ne_of_digit_eq (hd : digit b (l + 1) k = digit b (l + 1) k')
    (h : k % b ^ (l + 2) ≠ k' % b ^ (l + 2)) : k % b ^ (l + 1) ≠ k' % b ^ (l + 1) := by
  intro heq
  apply h
  simp only [digit] at hd
  rw [Nat.mod_pow_succ (k := l + 1), Nat.mod_pow_succ (k := l + 1), heq, hd]

theorem get_eq_zero [Zero α] {t : Table α l} (h : t.reaches b 0 k = false) : t.get b k = 0 := by
  induction t with
  | absent => rfl
  | page f e => simp [reaches] at h
  | dir f c ih => exact ih _ (by simpa [reaches] using h)

theorem get_congr [Zero α] (t : Table α l) (h : k % b ^ (l + 1) = k' % b ^ (l + 1)) :
    t.get b k = t.get b k' := by
  induction t with
  | absent => rfl
  | page f e => rw [get, get, digit_eq_of_mod_eq b h]
  | @dir l f c ih =>
    rw [get, digit_eq_of_mod_eq b h]
    apply ih
    have hdvd : b ^ (l + 1) ∣ b ^ (l + 2) := Nat.pow_dvd_pow b (by omega)
    rw [← Nat.mod_mod_of_dvd k hdvd, ← Nat.mod_mod_of_dvd k' hdvd, h]

theorem get_set_self [Zero α] {t : Table α l} (w : α) (h : t.reaches b 0 k = true) :
    (t.set b k w).get b k = w := by
  induction t with
  | absent => simp [reaches] at h
  | page f e => simp [set, get]
  | dir f c ih =>
    simp only [set, get, update_self]
    exact ih _ (by simpa [reaches] using h)

theorem get_set_of_ne [Zero α] (t : Table α l) (w : α) (h : k % b ^ (l + 1) ≠ k' % b ^ (l + 1)) :
    (t.set b k w).get b k' = t.get b k' := by
  induction t with
  | absent => rfl
  | page f e =>
    have hne : digit b 0 k' ≠ digit b 0 k := by
      simpa [digit] using fun hd => h (by simpa using hd.symm)
    simp only [set, get, update_of_ne hne]
  | @dir l f c ih =>
    simp only [set, get]
    by_cases hd : digit b (l + 1) k' = digit b (l + 1) k
    · rw [hd, update_self]
      exact ih _ (mod_ne_of_digit_eq b hd.symm h)
    · rw [update_of_ne hd]

@[simp] theorem reaches_set (t : Table α l) (k : Nat) (w : α) (j k' : Nat) :
    (t.set b k w).reaches b j k' = t.reaches b j k' := by
  induction t with
  | absent => rfl
  | page f e => rfl
  | @dir l f c ih =>
    simp only [set, reaches]
    by_cases hd : digit b (l + 1) k' = digit b (l + 1) k
    · rw [hd, update_self, ih]
    · rw [update_of_ne hd]

@[simp] theorem pages_set (t : Table α l) (k : Nat) (w : α) :
    (t.set b k w).pages b = t.pages b := by
  induction t with
  | absent => rfl
  | page f e => rfl
  | @dir l f c ih =>
    simp only [set, pages]
    congr 1
    apply flatMap_congr
    intro i _
    by_cases hd : i = digit b (l + 1) k
    · rw [hd, update_self, ih]
    · rw [update_of_ne hd]

/-! ## Creating the pages of a path -/

theorem flatMap_perm_of_update {n i : Nat} (hi : i < n) {f g : Nat → List Nat} {new : List Nat}
    (hne : ∀ j, j ≠ i → g j = f j) (heq : (g i).Perm (new ++ f i)) :
    ((List.range n).flatMap g).Perm (new ++ (List.range n).flatMap f) := by
  induction n with
  | zero => omega
  | succ n ih =>
    rw [range_succ, flatMap_append, flatMap_append, flatMap_singleton,
      flatMap_singleton]
    rcases Nat.lt_or_eq_of_le (Nat.le_of_lt_succ hi) with hlt | rfl
    · rw [hne n (by omega), ← append_assoc]
      exact (ih hlt).append_right _
    · have hcongr : (List.range i).flatMap g = (List.range i).flatMap f := by
        apply flatMap_congr
        intro j hj
        exact hne j (by have := mem_range.1 hj; omega)
      rw [hcongr]
      calc ((List.range i).flatMap f ++ g i).Perm
            ((List.range i).flatMap f ++ (new ++ f i)) := heq.append_left _
        _ |>.Perm (new ++ ((List.range i).flatMap f ++ f i)) := by
            rw [← append_assoc, ← append_assoc]
            exact perm_append_comm.append_right _

variable {alloc}

theorem Takes.append {s s₁ s₂ : σ} {fs gs : List Nat} (h : Takes alloc s fs s₁)
    (h' : Takes alloc s₁ gs s₂) : Takes alloc s (fs ++ gs) s₂ := by
  induction fs generalizing s with
  | nil => cases h; exact h'
  | cons f fs ih =>
    obtain ⟨u, hu, hrest⟩ := h
    exact ⟨u, hu, ih hrest⟩

theorem get_empty [Zero α] (f l k : Nat) : (empty f l : Table α l).get b k = 0 := by
  cases l <;> rfl

theorem pages_empty [Zero α] (f l : Nat) : (empty f l : Table α l).pages b = [f] := by
  cases l <;> simp [empty, pages]

theorem reaches_empty [Zero α] (f l j k : Nat) :
    (empty f l : Table α l).reaches b j k = (j == l) := by
  cases l <;> simp [empty, reaches]

/-- The table has its root page. -/
def Present {l : Nat} (t : Table α l) : Prop := ∀ k, t.reaches b l k = true

theorem present_empty [Zero α] (f l : Nat) : (empty f l : Table α l).Present b := by
  intro k
  rw [reaches_empty, beq_self_eq_true]

theorem missing_le (t : Table α l) (k : Nat) : t.missing b k ≤ l + 1 := by
  induction t with
  | absent => exact le_rfl
  | page f e => exact Nat.zero_le _
  | dir f c ih => exact (ih _).trans (Nat.le_succ _)

theorem missing_eq_zero {t : Table α l} : t.missing b k = 0 ↔ t.reaches b 0 k = true := by
  induction t with
  | absent => simp [missing, reaches]
  | page f e => simp [missing, reaches]
  | dir f c ih =>
    rw [missing, reaches, ih]
    simp

theorem missing_congr (t : Table α l) (h : k / b = k' / b) : t.missing b k = t.missing b k' := by
  have hdigit : ∀ l, digit b (l + 1) k = digit b (l + 1) k' := by
    intro l
    rw [digit, digit, pow_succ', ← Nat.div_div_eq_div_mul, ← Nat.div_div_eq_div_mul, h]
  induction t with
  | absent => rfl
  | page f e => rfl
  | dir f c ih =>
    rw [missing, hdigit]
    exact ih _

theorem missing_empty [Zero α] (f l k : Nat) : (empty f l : Table α l).missing b k = l := by
  cases l <;> rfl

/-- What `ensure` returns has a root page and holds what the table held. -/
theorem ensure_spec [Zero α] {t t' : Table α l} {s s' : σ} (h : t.ensure alloc s = some (t', s')) :
    t'.Present b ∧ (∀ k, t'.get b k = t.get b k) ∧
      (∀ j k, t'.reaches b j k = (j == l || t.reaches b j k)) ∧
      ∃ new, Takes alloc s new s' ∧ (t'.pages b).Perm (new ++ t.pages b) ∧
        ∀ k, t.missing b k = new.length + t'.missing b k := by
  cases t with
  | absent =>
    simp only [ensure, Option.map_eq_some_iff] at h
    obtain ⟨⟨f, s₁⟩, halloc, heq⟩ := h
    cases heq
    refine ⟨present_empty b f l, fun k => get_empty b f l k, fun j k => ?_, [f],
      ⟨s₁, halloc, rfl⟩, ?_, fun k => ?_⟩
    · rw [reaches_empty, reaches, Bool.or_false]
    · rw [pages_empty]
      exact List.Perm.refl _
    · rw [missing_empty, missing, length_singleton, Nat.add_comm]
  | page f e =>
    cases h
    refine ⟨fun k => rfl, fun k => rfl, fun j k => ?_, [], rfl, List.Perm.refl _, fun k => rfl⟩
    simp [reaches]
  | dir f c =>
    cases h
    refine ⟨fun k => ?_, fun k => rfl, fun j k => ?_, [], rfl, List.Perm.refl _, fun k => ?_⟩
    · simp [reaches]
    · simp [reaches]
    · simp

theorem ensure_eq_none [Zero α] {t : Table α l} {s : σ} (h : t.ensure alloc s = none) :
    alloc s = none ∧ t = absent := by
  cases t with
  | absent => exact ⟨by simpa [ensure] using h, rfl⟩
  | page f e => simp [ensure] at h
  | dir f c => simp [ensure] at h

theorem meet_level (k k' l : Nat) : meet b k k' l l = true := by
  cases l <;> simp [meet]

/-- Creating a path changes no value, keeps every page and adds the frames it takes; it
succeeds exactly when the allocator can give as many frames as pages are missing. -/
theorem grow_spec [Zero α] (hb : 0 < b) {t : Table α l} (hp : t.Present b) (k : Nat) (s : σ)
    {r : Bool × Table α l × σ} (hr : t.grow b alloc k s = r) :
    r.2.1.Present b ∧ (∀ k', r.2.1.get b k' = t.get b k') ∧
      (∀ j k', t.reaches b j k' = true → r.2.1.reaches b j k' = true) ∧
      (r.1 = true → ∀ j k', r.2.1.reaches b j k' = (t.reaches b j k' || meet b k k' l j)) ∧
      ∃ new, Takes alloc s new r.2.2 ∧ (r.2.1.pages b).Perm (new ++ t.pages b) ∧
        (r.1 = true → new.length = t.missing b k) ∧
        (r.1 = false → alloc r.2.2 = none ∧ new.length < t.missing b k ∧
          0 < r.2.1.missing b k) := by
  subst hr
  induction l generalizing s with
  | zero =>
    cases t with
    | absent => simpa [reaches] using hp 0
    | page f e =>
      refine ⟨hp, fun _ => rfl, fun _ _ h => h, fun _ j k' => ?_, [], rfl, List.Perm.refl _,
        fun _ => rfl, fun h => ?_⟩
      · simp [grow, reaches, meet]
      · simp [grow] at h
  | succ l ih =>
    cases t with
    | absent => simpa [reaches] using hp 0
    | dir f c =>
      have hi : digit b (l + 1) k < b := Nat.mod_lt _ hb
      cases hens : (c (digit b (l + 1) k)).ensure alloc s with
      | none =>
        -- the allocator is empty at the first absent page
        obtain ⟨halloc, habs⟩ := ensure_eq_none hens
        have hgrow : (dir f c).grow b alloc k s = (false, dir f c, s) := by
          simp only [grow, hens]
        rw [hgrow]
        refine ⟨hp, fun _ => rfl, fun _ _ h => h, fun h => by simp at h, [], rfl,
          List.Perm.refl _, fun h => by simp at h, fun _ => ⟨halloc, ?_⟩⟩
        rw [missing, habs, missing, length_nil]
        exact ⟨Nat.succ_pos l, Nat.succ_pos l⟩
      | some q =>
        obtain ⟨t', s'⟩ := q
        obtain ⟨hp', hget, hreach, new₁, htake₁, hperm₁, hmiss⟩ := ensure_spec b hens
        obtain ⟨-, hget₂, hmono, hsucc, new₂, htake₂, hperm₂, hlen, hfail⟩ := ih hp' s'
        simp only [grow, hens]
        refine ⟨fun k' => by simp [reaches], fun k' => ?_, fun j k' h => ?_,
          fun hok j k' => ?_, new₁ ++ new₂, htake₁.append htake₂, ?_, fun hok => ?_,
          fun hno => ?_⟩
        · by_cases hd : digit b (l + 1) k' = digit b (l + 1) k
          · simp only [get, hd, update_self, hget₂, hget]
          · simp only [get, update_of_ne hd]
        · simp only [reaches, Bool.or_eq_true] at h ⊢
          refine h.imp_right fun h => ?_
          by_cases hd : digit b (l + 1) k' = digit b (l + 1) k
          · rw [hd] at h ⊢
            rw [update_self]
            exact hmono j k' (by rw [hreach, h, Bool.or_true])
          · rwa [update_of_ne hd]
        · by_cases hd : digit b (l + 1) k' = digit b (l + 1) k
          · simp only [reaches, meet, hd, update_self, hsucc hok, hreach]
            by_cases hjl : j = l
            · simp [hjl, meet_level]
            · simp only [beq_eq_false_iff_ne.2 hjl]
              cases (j == l + 1) <;> simp
          · have hd' : (digit b (l + 1) k == digit b (l + 1) k') = false :=
              beq_eq_false_iff_ne.2 (Ne.symm hd)
            simp only [reaches, meet, update_of_ne hd, hd']
            cases (j == l + 1) <;> simp
        · simp only [pages, ← append_assoc]
          refine (flatMap_perm_of_update hi (fun j hj => ?_) ?_).append_right _
          · rw [update_of_ne hj]
          · rw [update_self]
            refine (hperm₂.trans (hperm₁.append_left _)).trans ?_
            rw [← append_assoc]
            exact perm_append_comm.append_right _
        · rw [missing, hmiss, length_append, hlen hok]
        · obtain ⟨halloc, hlt, hpos⟩ := hfail hno
          refine ⟨halloc, ?_, by rwa [missing, update_self]⟩
          rw [missing, hmiss, length_append]
          omega

/-- Without a frame for the first absent page nothing happens. -/
theorem grow_of_none [Zero α] {t : Table α l} {s : σ} (hnone : alloc s = none)
    (hmiss : 0 < t.missing b k) : t.grow b alloc k s = (false, t, s) := by
  induction t with
  | @absent l => cases l <;> rfl
  | page f e => exact absurd hmiss (Nat.lt_irrefl 0)
  | @dir l f c ih =>
    have hself : update c (digit b (l + 1) k) (c (digit b (l + 1) k)) = c :=
      update_eq_self _ _
    have hchild := ih (digit b (l + 1) k) hmiss
    generalize hi : c (digit b (l + 1) k) = t at hself hchild
    cases t with
    | absent => simp only [grow, hi, ensure, hnone, Option.map_none]
    | page f' e => exact absurd hmiss (by rw [missing, hi]; exact Nat.lt_irrefl 0)
    | dir f' c' => simp only [grow, hi, ensure, hchild, hself]

/-! ## The pages that several paths need -/

/-- The table with the pages on the path of `k`, made by an allocator that never runs out. -/
def grown [Zero α] {l : Nat} (t : Table α l) (k : Nat) : Table α l :=
  (t.grow b (fun _ : Unit => some (0, ())) k ()).2.1

/-- The number of pages that the paths of the keys lack, each counted once. -/
def needs [Zero α] {l : Nat} : Table α l → List Nat → Nat
  | _, [] => 0
  | t, k :: ks => t.missing b k + needs (t.grown b k) ks

/-- Two tables have pages in the same places. -/
def SameShape {l : Nat} (t t' : Table α l) : Prop :=
  ∀ j k, t'.reaches b j k = t.reaches b j k

theorem missing_eq_count (t : Table α l) (k : Nat) :
    t.missing b k = (List.range (l + 1)).countP fun j => !t.reaches b j k := by
  induction t with
  | absent => simp [missing, reaches]
  | page f e => simp [missing, reaches]
  | @dir l f c ih =>
    rw [missing, ih, range_succ (n := l + 1), countP_append]
    have hlast : [l + 1].countP (fun j => !(dir f c).reaches b j k) = 0 := by simp [reaches]
    rw [hlast]
    refine countP_congr fun j hj => ?_
    have hne : (j == l + 1) = false := beq_eq_false_iff_ne.2 (by have := mem_range.1 hj; omega)
    simp [reaches, hne]

theorem SameShape.missing {t t' : Table α l} (h : SameShape b t t') (k : Nat) :
    t'.missing b k = t.missing b k := by
  rw [missing_eq_count, missing_eq_count]
  simp only [h _ k]

theorem SameShape.present {t t' : Table α l} (h : SameShape b t t') (hp : t.Present b) :
    t'.Present b := fun k => (h l k).trans (hp k)

theorem SameShape.set (t : Table α l) (k : Nat) (w : α) :
    SameShape b t (t.set b k w) := fun j k' => reaches_set b t k w j k'

theorem reaches_grow [Zero α] (hb : 0 < b) {t t' : Table α l} (hp : t.Present b) {s s' : σ}
    (h : t.grow b alloc k s = (true, t', s')) (j k' : Nat) :
    t'.reaches b j k' = (t.reaches b j k' || meet b k k' l j) :=
  (grow_spec b hb hp k s h).2.2.2.1 rfl j k'

theorem reaches_grown [Zero α] (hb : 0 < b) {t : Table α l} (hp : t.Present b) (k j k' : Nat) :
    (t.grown b k).reaches b j k' = (t.reaches b j k' || meet b k k' l j) := by
  obtain ⟨-, -, -, hreach, new, -, -, -, hfail⟩ :=
    grow_spec b hb hp k () (rfl : t.grow b (fun _ : Unit => some (0, ())) k () = _)
  refine hreach ?_ j k'
  cases hr : (t.grow b (fun _ : Unit => some (0, ())) k ()).1 with
  | true => rfl
  | false => cases (hfail hr).1

theorem present_grown [Zero α] (hb : 0 < b) {t : Table α l} (hp : t.Present b) (k : Nat) :
    (t.grown b k).Present b := fun k' => by
  rw [reaches_grown b hb hp, hp k', Bool.true_or]

theorem needs_congr [Zero α] (hb : 0 < b) {t t' : Table α l} (hp : t.Present b)
    (h : SameShape b t t') (ks : List Nat) : needs b t' ks = needs b t ks := by
  induction ks generalizing t t' with
  | nil => rfl
  | cons k ks ih =>
    rw [needs, h.missing]
    congr 1
    refine ih (present_grown b hb hp k) fun j k' => ?_
    rw [reaches_grown b hb (h.present b hp), reaches_grown b hb hp, h j k']

theorem needs_cons [Zero α] (hb : 0 < b) {t t' : Table α l} (hp : t.Present b) {s s' : σ}
    (h : t.grow b alloc k s = (true, t', s')) (ks : List Nat) :
    needs b t (k :: ks) = t.missing b k + needs b t' ks := by
  have hshape : SameShape b t' (t.grown b k) := fun j k' => by
    rw [reaches_grown b hb hp, reaches_grow b hb hp h]
  rw [needs, needs_congr b hb (grow_spec b hb hp k s h).1 hshape]

end Table
end Radix
