/-
Path lookup: `namex` of `kernel/fs.c` over the table of in-memory inodes, with the references it
takes and the locks it holds on the way.
-/
import Xv6.Fs.Alloc
import Xv6.Fs.Path

namespace Xv6.Fs

open Run List

open Itable

/-- `namex` once no element is left; `name` is the caller's buffer. -/
def namexEnd (parent : Bool) (t : Itable) (i : Nat) (name : List UInt8) :
    Except Stuck (Option Nat × List UInt8 × Itable) :=
  if parent then do
    let t ← t.iput i
    return (none, name, t)
  else return (some i, name, t)

/-- The loop of `namex`; a path has fewer elements than bytes. -/
def namexLoop (parent : Bool) : Nat → Itable → Nat → List UInt8 → List UInt8 →
    Except Stuck (Option Nat × List UInt8 × Itable)
  | 0, t, i, _, name => namexEnd parent t i name
  | k + 1, t, i, path, name =>
    match skipelem path with
    | none => namexEnd parent t i name
    | some (name, path) => do
        let t ← t.ilock i
        if (t.inode i).dinode.type ≠ tDir then do
          let t ← t.iunlockput i
          return (none, name, t)
        else if parent ∧ path.headD 0 = 0 then do
          let t ← t.iunlock i
          return (some i, name, t)
        else do
          let (next, t) ← t.dirlookup i name
          let t ← t.iunlockput i
          match next with
          | none => return (none, name, t)
          | some (j, _) => namexLoop parent k t j path name

/-- `namex`; `cwd` is the entry of the process's current directory. -/
def namex (parent : Bool) (t : Itable) (cwd : Nat) (path : List UInt8) :
    Except Stuck (Option Nat × List UInt8 × Itable) := do
  let (i, t) ← (if path.headD 0 = 47 then t.iget rootino else pure (cwd, t.idup cwd))
  namexLoop parent path.length t i path []

def namei (t : Itable) (cwd : Nat) (path : List UInt8) : Except Stuck (Option Nat × Itable) := do
  let (ip, _, t) ← namex false t cwd path
  return (ip, t)

def nameiparent (t : Itable) (cwd : Nat) (path : List UInt8) :
    Except Stuck (Option Nat × List UInt8 × Itable) := namex true t cwd path

/-! ## namei through nameiparent -/

variable {t t₀ t' : Itable} {i k inum cwd : Nat} {path rest name nm : List UInt8} {parent : Bool}

theorem namexLoop_none (h : skipelem path = none) :
    namexLoop parent k t i path nm = namexEnd parent t i nm := by
  cases k with
  | zero => rfl
  | succ k => rw [namexLoop, h]

/-- `dirlookup` in the directory that `nameiparent` has returned. -/
def lookupLast : Option Nat × List UInt8 × Itable → Except Stuck (Option Nat × List UInt8 × Itable)
  | (none, name, t) => return (none, name, t)
  | (some dp, name, t) => do
      let t ← t.ilock dp
      let (r, t) ← t.dirlookup dp name
      let t ← t.iunlockput dp
      return (r.map Prod.fst, name, t)

namespace Itable

@[simp] theorem inode_set_self (t : Itable) (i : Nat) (ip : Inode) : (t.set i ip).inode i = ip :=
  Function.update_self ..

theorem inode_set_ne (t : Itable) {j : Nat} (h : j ≠ i) (ip : Inode) :
    (t.set i ip).inode j = t.inode j := Function.update_of_ne h ..

@[simp] theorem set_set (t : Itable) (i : Nat) (ip ip' : Inode) :
    (t.set i ip).set i ip' = t.set i ip' := by
  simp [set]

theorem ilock_eq_ok (h : t.ilock i = .ok t') : ∃ ip, t' = t.set i ip ∧ ip.locked = true ∧
    ip.valid = true ∧ 1 ≤ ip.ref ∧ ip.ref = (t.inode i).ref ∧ ip.inum = (t.inode i).inum := by
  unfold ilock at h
  dsimp only at h
  split at h
  · cases h
  split at h
  · cases h
  split at h
  · rename_i hv
    cases h
    exact ⟨_, rfl, rfl, hv, by dsimp only; omega, rfl, rfl⟩
  · split at h
    · cases h
    · cases h
      exact ⟨_, rfl, rfl, rfl, by dsimp only; omega, rfl, rfl⟩

theorem ilock_iunlock (h : t.ilock i = .ok t') :
    ∃ t₂, t'.iunlock i = .ok t₂ ∧ t₂.ilock i = .ok t' := by
  obtain ⟨ip, rfl, hl, hv, href, -⟩ := ilock_eq_ok h
  refine ⟨_, by rw [iunlock, inode_set_self, if_neg (by simp [hl]; omega)], ?_⟩
  rw [ilock, set_set, inode_set_self]
  dsimp only
  rw [if_neg (by omega), if_neg (by simp), if_pos hv, set_set, ← hl]

end Itable

theorem namexLoop_eq (hk : path.length ≤ k) (hpath : skipelem path ≠ none) :
    namexLoop false k t i path nm = namexLoop true k t i path nm >>= lookupLast := by
  induction k generalizing t i path nm with
  | zero =>
    obtain rfl := eq_nil_of_length_eq_zero (Nat.le_zero.1 hk)
    exact absurd rfl hpath
  | succ k ih =>
    obtain ⟨⟨name, rest⟩, hs⟩ := Option.ne_none_iff_exists'.1 hpath
    obtain ⟨hlen, hlast⟩ := skipelem_rest hs
    rw [namexLoop, namexLoop, hs]
    dsimp only
    cases hl : t.ilock i with
    | error e => rfl
    | ok t₁ =>
      rw [ok_bind, ok_bind]
      by_cases hdir : (t₁.inode i).dinode.type ≠ tDir
      · rw [if_pos hdir, if_pos hdir]
        cases t₁.iunlockput i <;> rfl
      rw [if_neg hdir, if_neg hdir, if_neg (by simp)]
      by_cases hrest : rest.headD 0 = 0
      · -- the last element: `nameiparent` gives up the lock, `lookupLast` takes it again
        obtain ⟨t₂, hun, hlock⟩ := Itable.ilock_iunlock hl
        rw [if_pos ⟨rfl, hrest⟩, hun]
        show _ = t₂.ilock i >>= _
        rw [hlock, ok_bind]
        cases t₁.dirlookup i name with
        | error e => rfl
        | ok x =>
          obtain ⟨next, t₃⟩ := x
          rw [ok_bind, ok_bind]
          dsimp only
          cases t₃.iunlockput i with
          | error e => rfl
          | ok t₄ =>
            cases next with
            | none => rfl
            | some j => exact namexLoop_none (hlast.2 hrest)
      · rw [if_neg fun h => hrest h.2]
        cases t₁.dirlookup i name with
        | error e => rfl
        | ok x =>
          obtain ⟨next, t₃⟩ := x
          rw [ok_bind, ok_bind]
          cases t₃.iunlockput i with
          | error e => rfl
          | ok t₄ =>
            cases next with
            | none => rfl
            | some j => exact ih (by omega) fun h => hrest (hlast.1 h)

/-! ## References and locks -/

/-- The call does not sleep for good, and what it returns is as `P` says. -/
def Ends {α : Type} (P : α → Prop) : Except Stuck α → Prop
  | .ok a => P a
  | .error e => e ≠ .asleep

theorem Ends.bind {α β : Type} {P : α → Prop} {Q : β → Prop} {x : Except Stuck α}
    {f : α → Except Stuck β} (hx : Ends P x) (hf : ∀ a, P a → Ends Q (f a)) :
    Ends Q (x >>= f) := by
  cases x with
  | error e => exact hx
  | ok a => exact hf a hx

theorem Ends.imp {α : Type} {P Q : α → Prop} {x : Except Stuck α} (hx : Ends P x)
    (h : ∀ a, P a → Q a) : Ends Q x := by
  cases x with
  | error e => exact hx
  | ok a => exact h a hx

theorem ends_unlocked {α : Type} (x : Except Panic α) : Ends (fun _ => True) (unlocked x) := by
  cases x with
  | error e => exact nofun
  | ok a => trivial

/-- From `t₀` to `t` the entries in `l` have each been lent once more, and the lock of entry `h`
is the only one that is held.  An entry in use keeps its inode. -/
structure Lent (t₀ t : Itable) (l : List Nat) (h : Option Nat) : Prop where
  ref : ∀ j, (t.inode j).ref = (t₀.inode j).ref + l.count j
  inum : ∀ j, 0 < (t₀.inode j).ref → (t.inode j).inum = (t₀.inode j).inum
  locked : ∀ j, (t.inode j).locked = decide (h = some j)

namespace Lent

variable {l l' : List Nat} {h h' : Option Nat}

theorem set (hl : Lent t₀ t l h) {ip : Inode} (href : ip.ref = (t₀.inode i).ref + l'.count i)
    (hinum : 0 < (t₀.inode i).ref → ip.inum = (t₀.inode i).inum)
    (hlocked : ip.locked = decide (h' = some i))
    (hne : ∀ j, j ≠ i → l'.count j = l.count j ∧ (h' = some j ↔ h = some j)) :
    Lent t₀ (t.set i ip) l' h' := by
  refine ⟨fun j => ?_, fun j hj => ?_, fun j => ?_⟩ <;> by_cases hji : j = i
  · rw [hji, t.inode_set_self, href]
  · rw [t.inode_set_ne hji, hl.ref, (hne j hji).1]
  · rw [hji, t.inode_set_self]
    exact hinum (hji ▸ hj)
  · rw [t.inode_set_ne hji, hl.inum j hj]
  · rw [hji, t.inode_set_self, hlocked]
  · rw [t.inode_set_ne hji, hl.locked, decide_eq_decide]
    exact (hne j hji).2.symm

theorem lend (hl : Lent t₀ t l h) (i : Nat) : Lent t₀ (t.idup i) (i :: l) h := by
  refine hl.set ?_ (hl.inum i) (hl.locked i) fun j hj => ⟨count_cons_of_ne hj.symm, Iff.rfl⟩
  rw [count_cons_self, ← Nat.add_assoc, ← hl.ref]

theorem iget (hl : Lent t₀ t l h) (inum : Nat) :
    Ends (fun x => Lent t₀ x.2 (x.1 :: l) h) (t.iget inum) := by
  unfold Itable.iget
  split
  · exact hl.lend _
  · split
    · rename_i i hfree
      have h0 : (t.inode i).ref = 0 := by simpa using List.find?_some hfree
      have := hl.ref i
      refine hl.set ?_ (fun hi => by omega) (hl.locked i) fun j hj =>
        ⟨count_cons_of_ne hj.symm, Iff.rfl⟩
      rw [count_cons_self]
      dsimp only
      omega
    · exact nofun

theorem ilock (hl : Lent t₀ t l none) (i : Nat) :
    Ends (fun t' => Lent t₀ t' l (some i)) (t.ilock i) := by
  have hset : ∀ ip, ip.ref = (t.inode i).ref → ip.inum = (t.inode i).inum → ip.locked = true →
      Lent t₀ (t.set i ip) l (some i) := fun ip href hinum hip =>
    hl.set (href.trans (hl.ref i)) (fun hi => hinum.trans (hl.inum i hi)) (by simp [hip])
      fun j hj => ⟨rfl, by simp [hj.symm]⟩
  unfold Itable.ilock
  dsimp only
  generalize t.disk.dinode (t.inode i).inum = di
  split
  · exact nofun
  rw [if_neg (by simp [hl.locked])]
  by_cases hv : (t.inode i).valid = true
  · rw [if_pos hv]
    exact hset _ rfl rfl rfl
  rw [if_neg hv]
  split
  · exact nofun
  · exact hset _ rfl rfl rfl

theorem iunlock (hl : Lent t₀ t l (some i)) :
    Ends (fun t' => Lent t₀ t' l none) (t.iunlock i) := by
  unfold Itable.iunlock
  dsimp only
  split
  · exact nofun
  · refine hl.set (hl.ref i) (hl.inum i) rfl fun j hj => ⟨rfl, ?_⟩
    simp [hj.symm]

theorem iput (hl : Lent t₀ t (i :: l) none) : Ends (fun t' => Lent t₀ t' l none) (t.iput i) := by
  refine Ends.bind (P := fun t' => Lent t₀ t' (i :: l) none) ?_ fun t' ht => ?_
  · split
    · unfold Itable.free
      rw [if_neg (by simp [hl.locked])]
      refine (ends_unlocked _).bind fun x _ => (ends_unlocked _).bind fun d _ => ?_
      have hset : Lent t₀ (t.set i { t.inode i with
          dinode := { x.1 with type := 0 }, valid := false }) (i :: l) none :=
        hl.set (hl.ref i) (hl.inum i) (hl.locked i) fun _ _ => ⟨rfl, Iff.rfl⟩
      exact ⟨hset.ref, hset.inum, hset.locked⟩
    · exact hl
  · refine ht.set ?_ (ht.inum i) (ht.locked i) fun j hj =>
      ⟨(count_cons_of_ne hj.symm).symm, Iff.rfl⟩
    have := ht.ref i
    rw [count_cons_self] at this
    dsimp only
    omega

theorem iunlockput (hl : Lent t₀ t (i :: l) (some i)) :
    Ends (fun t' => Lent t₀ t' l none) (t.iunlockput i) :=
  hl.iunlock.bind fun _ ht => ht.iput

theorem dirlookup (hl : Lent t₀ t l h) (name : List UInt8) :
    Ends (fun x => Lent t₀ x.2 ((x.1.map Prod.fst).toList ++ l) h) (t.dirlookup i name) := by
  refine (ends_unlocked _).bind fun ⟨r, dp, d⟩ _ => ?_
  have hset : Lent t₀ (t.set i { t.inode i with dinode := dp }) l h :=
    hl.set (hl.ref i) (hl.inum i) (hl.locked i) fun _ _ => ⟨rfl, Iff.rfl⟩
  have hdisk : Lent t₀ (t.update i dp d) l h :=
    ⟨hset.ref, hset.inum, hset.locked⟩
  cases r with
  | none => exact hdisk
  | some x => exact (hdisk.iget x.1).bind fun _ hx => hx

theorem swap {a b : Nat} (hl : Lent t₀ t (a :: b :: l) h) : Lent t₀ t (b :: a :: l) h :=
  ⟨fun j => by rw [hl.ref, (List.Perm.swap b a l).count_eq], hl.inum, hl.locked⟩

end Lent

theorem namexEnd_lent (hl : Lent t₀ t [i] none) :
    Ends (fun x => Lent t₀ x.2.2 x.1.toList none) (namexEnd parent t i nm) := by
  unfold namexEnd
  split
  · exact hl.iput.bind fun _ ht => ht
  · exact hl

theorem namexLoop_lent (hl : Lent t₀ t [i] none) :
    Ends (fun x => Lent t₀ x.2.2 x.1.toList none) (namexLoop parent k t i path nm) := by
  induction k generalizing t i path nm with
  | zero => exact namexEnd_lent hl
  | succ k ih =>
    rw [namexLoop]
    split
    · exact namexEnd_lent hl
    refine (hl.ilock i).bind fun t ht => ?_
    split
    · exact ht.iunlockput.bind fun _ ht => ht
    split
    · exact ht.iunlock.bind fun _ ht => ht
    · refine (ht.dirlookup _).bind fun ⟨next, t⟩ ht => ?_
      cases next with
      | none => exact ht.iunlockput.bind fun _ ht => ht
      | some j => exact ht.swap.iunlockput.bind fun _ ht => ih ht

theorem start_lent (hq : ∀ i, (t.inode i).locked = false) :
    Ends (fun x => Lent t x.2 [x.1] none)
      (if path.headD 0 = 47 then t.iget rootino else pure (cwd, t.idup cwd)) := by
  have hl : Lent t t [] none := ⟨fun _ => rfl, fun _ _ => rfl, fun j => by simp [hq j]⟩
  split
  · exact hl.iget rootino
  · exact hl.lend cwd

/-- `namei` does what `nameiparent` and then `dirlookup` in the directory it returns do, also
where one of them does not return.  Whatever the outcome, the inode that is returned has one
reference more, all the others have those they had, and no inode is locked. -/
theorem namei_eq_nameiparent (hq : ∀ i, (t.inode i).locked = false) (cwd : Nat)
    (path : List UInt8) :
    (skipelem path ≠ none → namei t cwd path =
      nameiparent t cwd path >>= lookupLast >>= fun x => pure (x.1, x.2.2)) ∧
    (skipelem path = none → Ends (fun x => x.1 = none) (nameiparent t cwd path)) ∧
    ∀ parent, Ends (fun x =>
      (∀ i, (x.2.2.inode i).ref = (t.inode i).ref + if x.1 = some i then 1 else 0) ∧
      (∀ i, 0 < (t.inode i).ref → (x.2.2.inode i).inum = (t.inode i).inum) ∧
      ∀ i, (x.2.2.inode i).locked = false) (namex parent t cwd path) := by
  have hstart : Ends _ (if path.headD 0 = 47 then t.iget rootino else pure (cwd, t.idup cwd)) :=
    start_lent hq
  refine ⟨fun hpath => ?_, fun hpath => ?_, fun parent => ?_⟩
  · rw [namei, nameiparent, namex, namex]
    cases (if path.headD 0 = 47 then t.iget rootino else pure (cwd, t.idup cwd)) with
    | error e => rfl
    | ok x =>
      rw [ok_bind, ok_bind]
      dsimp only
      rw [namexLoop_eq le_rfl hpath]
  · refine hstart.bind fun x hl => ?_
    dsimp only
    rw [namexLoop_none hpath]
    exact hl.iput.bind fun _ _ => rfl
  · refine hstart.bind fun x hl => ?_
    refine (namexLoop_lent hl).imp fun r hr => ⟨fun i => ?_, hr.inum, fun i => ?_⟩
    · rw [hr.ref]
      cases r.1 with
      | none => simp
      | some j => simp [count_singleton]
    · simpa using hr.locked i

/-- A table without references, and a disk whose root directory has one entry, `a`. -/
def rootTable : Itable where
  inode := fun _ => ⟨0, 0, false, false, Dinode.zero⟩
  disk := ((Disk.begun.setUsed 46 true).setBlock 46
    (Bytes.store Bytes.zeroes 0 (Dirent.encode ⟨2, strncpy dirsiz [97]⟩))).setDinode rootino
      (Dinode.setAddr { Dinode.zero with type := tDir, nlink := 1, size := direntSize } 0 46)

/-- `/a` is found, with a reference to its inode; `/b` is not, and no reference is left. -/
theorem namei_eq_nameiparent_root : (∀ i, (rootTable.inode i).locked = false) ∧
    (∃ name t', namex false rootTable 0 [47, 97] = .ok (some 1, name, t') ∧
      (t'.inode 1).inum = 2 ∧ ∀ i, (t'.inode i).ref = if some 1 = some i then 1 else 0) ∧
    ∃ name t', namex false rootTable 0 [47, 98] = .ok (none, name, t') ∧
      ∀ i, (t'.inode i).ref = 0 := by
  have hq : ∀ i, (rootTable.inode i).locked = false := fun _ => rfl
  have h := fun path => (namei_eq_nameiparent hq 0 path).2.2 false
  have hfound : (match namex false rootTable 0 [47, 97] with
      | .ok (some 1, _, t') => decide ((t'.inode 1).inum = 2)
      | _ => false) = true := by decide +kernel
  have hnone : (match namex false rootTable 0 [47, 98] with
      | .ok (none, _) => true
      | _ => false) = true := by decide +kernel
  refine ⟨hq, ?_, ?_⟩
  · have hrun := h [47, 97]
    generalize namex false rootTable 0 [47, 97] = out at hrun hfound
    match out, hfound with
    | .ok (some 1, name, t'), hi =>
      exact ⟨name, t', rfl, of_decide_eq_true hi, fun i => (hrun.1 i).trans (Nat.zero_add _)⟩
  · have hrun := h [47, 98]
    generalize namex false rootTable 0 [47, 98] = out at hrun hnone
    match out, hnone with
    | .ok (none, name, t'), _ => exact ⟨name, t', rfl, hrun.1⟩

end Xv6.Fs
