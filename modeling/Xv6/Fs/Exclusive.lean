/-
Which inode uses which block.  The places at which an inode can name a block are numbered:
its direct addresses, its indirect block, then the entries of the indirect block.  A volume is
exclusive if the blocks in use are those named at some place, and each at one place only.
-/
import Xv6.Fs.Volume

namespace Xv6.Fs

open Bytes

theorem Dinode.setAddr_self (ip : Dinode) (j b : Nat) : (ip.setAddr j b).addrs j = b :=
  Function.update_self ..

theorem Dinode.setAddr_ne (ip : Dinode) {k j : Nat} (b : Nat) (h : k ≠ j) :
    (ip.setAddr j b).addrs k = ip.addrs k :=
  Function.update_of_ne h ..

namespace Volume

variable {v v' : Volume} {i j b : Nat}

/-- The block an inode with these fields names at place `j`, 0 if there is none. -/
def placeOf (v : Volume) (ip : Dinode) (j : Nat) : Nat :=
  if j ≤ ndirect then ip.addrs j
  else if j ≤ maxfile ∧ ip.addrs ndirect ≠ 0 then
    u32At (v.block (ip.addrs ndirect)) (4 * (j - (ndirect + 1)))
  else 0

/-- Only allocated inodes, those with a type, name blocks. -/
def place (v : Volume) (i j : Nat) : Nat :=
  if (v.inode i).type = 0 then 0 else v.placeOf (v.inode i) j

/-- The place of the `bn`th block of a file. -/
def slot (bn : Nat) : Nat := if bn < ndirect then bn else bn + 1

/-- The `bn`th block of file `i`, 0 if there is none. -/
def fileBlock (v : Volume) (i bn : Nat) : Nat := v.place i (slot bn)

structure Exclusive (v : Volume) : Prop where
  pos : 0 < v.lo
  data : ∀ i j, v.place i j ≠ 0 → v.Data (v.place i j)
  inj : ∀ i j i' j', v.place i j ≠ 0 → v.place i j = v.place i' j' → i = i' ∧ j = j'
  used : ∀ b, v.Data b → (v.used b = true ↔ ∃ i j, v.place i j = b)

theorem Exclusive.ne_zero (h : v.Exclusive) (hb : v.Data b) : b ≠ 0 := by
  have := h.pos
  have := hb.1
  omega

theorem Exclusive.place_ne (h : v.Exclusive) (hb : v.Data b) (hu : v.used b = false) (i j : Nat) :
    v.place i j ≠ b := fun e => by
  rw [(h.used b hb).2 ⟨i, j, e⟩] at hu
  cases hu

theorem slot_inj {bn bn' : Nat} (h : slot bn = slot bn') : bn = bn' := by
  unfold slot at h
  split at h <;> split at h <;> omega

theorem slot_of_lt {bn : Nat} (h : bn < ndirect) : slot bn = bn := if_pos h

theorem slot_of_ge {bn : Nat} (h : ¬bn < ndirect) : slot bn = ndirect + 1 + (bn - ndirect) := by
  rw [slot, if_neg h]
  omega

theorem slot_ne (bn : Nat) : slot bn ≠ ndirect := by
  unfold slot
  split <;> omega

/-! ## Places and the accessors -/

theorem placeOf_le (ip : Dinode) (hj : j ≤ ndirect) : v.placeOf ip j = ip.addrs j := if_pos hj

theorem place_of_type (h : (v.inode i).type ≠ 0) (j : Nat) :
    v.place i j = v.placeOf (v.inode i) j := if_neg h

theorem place_of_free (h : (v.inode i).type = 0) (j : Nat) : v.place i j = 0 := if_pos h

theorem placeOf_congr {ip : Dinode} (h : v'.block (ip.addrs ndirect) = v.block (ip.addrs ndirect))
    (j : Nat) : v'.placeOf ip j = v.placeOf ip j := by
  simp only [placeOf, h]

theorem place_congr (hi : v'.inode i = v.inode i)
    (hb : v.place i ndirect ≠ 0 → v'.block (v.place i ndirect) = v.block (v.place i ndirect))
    (j : Nat) : v'.place i j = v.place i j := by
  by_cases ht : (v.inode i).type = 0
  · rw [place_of_free ht, place_of_free (hi ▸ ht)]
  · have hn : v.place i ndirect = (v.inode i).addrs ndirect := by
      rw [place_of_type ht, placeOf_le _ le_rfl]
    rw [place_of_type ht, place_of_type (hi ▸ ht), hi]
    by_cases h0 : (v.inode i).addrs ndirect = 0
    · simp only [placeOf, h0, ne_eq, not_true_eq_false, and_false, if_false]
    · exact placeOf_congr (by rw [← hn]; exact hb (by rwa [hn])) j

theorem place_setInode_ne {ip : Dinode} {i' : Nat} (h : i' ≠ i) (j : Nat) :
    (v.setInode i ip).place i' j = v.place i' j :=
  place_congr (inode_setInode_ne v ip h) (fun _ => rfl) j

theorem place_setInode_self {ip : Dinode} (h : ip.type ≠ 0) (j : Nat) :
    (v.setInode i ip).place i j = v.placeOf ip j := by
  rw [place_of_type (by rwa [inode_setInode_self]), inode_setInode_self]
  rfl

/-! ## A place that gets a block -/

/-- Place `j` of inode `i` was empty and now names `b`, a block that was not in use. -/
structure Assigned (v v' : Volume) (i j b : Nat) : Prop where
  lo : v'.lo = v.lo
  hi : v'.hi = v.hi
  data : v.Data b
  unused : v.used b = false
  self : v'.place i j = b
  ne : ∀ i' j', i' ≠ i ∨ j' ≠ j → v'.place i' j' = v.place i' j'
  used : ∀ b', v'.used b' = true ↔ b' = b ∨ v.used b' = true
  empty : v.place i j = 0

theorem Exclusive.assigned (h : v.Exclusive) (ha : Assigned v v' i j b) : v'.Exclusive := by
  have hdata : ∀ b', v'.Data b' ↔ v.Data b' := fun b' => by rw [Data, Data, ha.lo, ha.hi]
  have hne := h.place_ne ha.data ha.unused
  have hcase : ∀ i' j', (i' = i ∧ j' = j ∧ v'.place i' j' = b) ∨
      ((i' ≠ i ∨ j' ≠ j) ∧ v'.place i' j' = v.place i' j') := fun i' j' => by
    by_cases hij : i' = i ∧ j' = j
    · exact .inl ⟨hij.1, hij.2, by rw [hij.1, hij.2, ha.self]⟩
    · have hor : i' ≠ i ∨ j' ≠ j := by
        by_cases hi : i' = i
        · exact .inr fun hj => hij ⟨hi, hj⟩
        · exact .inl hi
      exact .inr ⟨hor, ha.ne i' j' hor⟩
  refine ⟨ha.lo ▸ h.pos, fun i' j' hp => ?_, fun i₁ j₁ i₂ j₂ hp he => ?_, fun b' hb' => ?_⟩
  · rw [hdata]
    obtain ⟨-, -, e⟩ | ⟨-, e⟩ := hcase i' j'
    · rw [e]; exact ha.data
    · rw [e] at hp ⊢; exact h.data i' j' hp
  · obtain ⟨rfl, rfl, e₁⟩ | ⟨-, e₁⟩ := hcase i₁ j₁ <;> obtain ⟨rfl, rfl, e₂⟩ | ⟨-, e₂⟩ := hcase i₂ j₂
    · exact ⟨rfl, rfl⟩
    · exact absurd (e₂.symm.trans (he.symm.trans e₁)) (hne i₂ j₂)
    · exact absurd (e₁.symm.trans (he.trans e₂)) (hne i₁ j₁)
    · rw [e₁, e₂] at he
      exact h.inj i₁ j₁ i₂ j₂ (e₁ ▸ hp) he
  · rw [ha.used, h.used b' ((hdata b').1 hb')]
    constructor
    · rintro (rfl | ⟨i', j', e⟩)
      · exact ⟨i, j, ha.self⟩
      · refine ⟨i', j', (ha.ne i' j' ?_).trans e⟩
        by_contra hcon
        obtain ⟨rfl, rfl⟩ := not_or.1 hcon |>.imp not_not.1 not_not.1
        exact h.ne_zero ((hdata b').1 hb') (e.symm.trans ha.empty)
    · rintro ⟨i', j', e⟩
      obtain ⟨-, -, e'⟩ | ⟨-, e'⟩ := hcase i' j'
      · exact .inl (e.symm.trans e')
      · exact .inr ⟨i', j', e'.symm.trans e⟩

/-- Inode `i` has got further blocks; every file keeps the blocks it had and what is in them. -/
structure Extends (v v' : Volume) (i : Nat) : Prop where
  lo : v'.lo = v.lo
  hi : v'.hi = v.hi
  grows : ∀ i' j, v.place i' j ≠ 0 → v'.place i' j = v.place i' j
  inodes : ∀ i', i' ≠ i → v'.inode i' = v.inode i'
  others : ∀ i', i' ≠ i → ∀ j, v'.place i' j = v.place i' j
  fields : v'.inode i = { v.inode i with addrs := (v'.inode i).addrs }
  contents : ∀ i' j, j ≠ ndirect → v.place i' j ≠ 0 →
    v'.block (v.place i' j) = v.block (v.place i' j)

theorem Extends.refl (v : Volume) (i : Nat) : Extends v v i :=
  ⟨rfl, rfl, fun _ _ _ => rfl, fun _ _ => rfl, fun _ _ _ => rfl, rfl, fun _ _ _ _ => rfl⟩

theorem Extends.trans {v₁ v₂ v₃ : Volume} (h : Extends v₁ v₂ i) (h' : Extends v₂ v₃ i) :
    Extends v₁ v₃ i where
  lo := h'.lo.trans h.lo
  hi := h'.hi.trans h.hi
  grows i' j hp := by
    have e := h.grows i' j hp
    rw [← e]
    exact h'.grows i' j (e ▸ hp)
  inodes i' hi := (h'.inodes i' hi).trans (h.inodes i' hi)
  others i' hi j := (h'.others i' hi j).trans (h.others i' hi j)
  fields := by rw [h'.fields, h.fields]
  contents i' j hj hp := by
    have e := h.grows i' j hp
    have := h'.contents i' j hj (e ▸ hp)
    rw [e] at this
    exact this.trans (h.contents i' j hj hp)

/-- The volume after `balloc` has handed out `b`. -/
def alloc (v : Volume) (b : Nat) : Volume := (v.setUsed b true).setBlock b zeroes

theorem alloc_used (v : Volume) (b b' : Nat) :
    (v.alloc b).used b' = true ↔ b' = b ∨ v.used b' = true := by
  rw [alloc, used_setBlock]
  by_cases h : b' = b
  · simp [h]
  · rw [used_setUsed_ne v true h]
    simp [h]

theorem alloc_block_ne (v : Volume) {b b' : Nat} (h : b' ≠ b) :
    (v.alloc b).block b' = v.block b' := by
  rw [alloc, block_setBlock_ne _ _ h, block_setUsed]

theorem Exclusive.alloc_block (h : v.Exclusive) (hb : v.Data b) (hu : v.used b = false)
    (i j : Nat) : (v.alloc b).block (v.place i j) = v.block (v.place i j) :=
  alloc_block_ne v (h.place_ne hb hu i j)

theorem Exclusive.alloc_place (h : v.Exclusive) (hb : v.Data b) (hu : v.used b = false)
    (i j : Nat) : (v.alloc b).place i j = v.place i j := by
  have hi : (v.alloc b).inode i = v.inode i := rfl
  exact place_congr hi (fun _ => h.alloc_block hb hu i ndirect) j

theorem place_setAddr (hj : j ≤ ndirect) {ip : Dinode} (hz : j = ndirect → v.block b = zeroes)
    (h0 : ip.addrs j = 0) (j' : Nat) :
    v.placeOf (ip.setAddr j b) j' = if j' = j then b else v.placeOf ip j' := by
  have hself := ip.setAddr_self j b
  have hne := fun k => ip.setAddr_ne (k := k) (j := j) b
  split
  · rename_i e
    rw [e, placeOf_le _ hj, hself]
  · rename_i hj'
    by_cases hle : j' ≤ ndirect
    · rw [placeOf_le _ hle, placeOf_le _ hle, hne j' hj']
    · by_cases hn : j = ndirect
      · rw [placeOf, placeOf, if_neg hle, if_neg hle, ← hn, hself, hz hn, h0]
        simp
      · rw [placeOf, placeOf, if_neg hle, if_neg hle, hne ndirect (Ne.symm hn)]

theorem Exclusive.assign_addr (h : v.Exclusive) (hb : v.Data b) (hu : v.used b = false)
    (ht : (v.inode i).type ≠ 0) (hj : j ≤ ndirect) (h0 : (v.inode i).addrs j = 0) :
    Assigned v ((v.alloc b).setInode i ((v.inode i).setAddr j b)) i j b ∧
      Extends v ((v.alloc b).setInode i ((v.inode i).setAddr j b)) i := by
  have ht' : ((v.inode i).setAddr j b).type ≠ 0 := ht
  have hz : (v.alloc b).block b = zeroes := block_setBlock_self ..
  have hi : (v.alloc b).inode i = v.inode i := rfl
  have hself : ∀ j', ((v.alloc b).setInode i ((v.inode i).setAddr j b)).place i j' =
      if j' = j then b else v.place i j' := fun j' => by
    rw [place_setInode_self ht', place_setAddr hj (fun _ => hz) h0, ← h.alloc_place hb hu,
      place_of_type (by rwa [hi]), hi]
  have hothers : ∀ i', i' ≠ i → ∀ j', ((v.alloc b).setInode i ((v.inode i).setAddr j b)).place i' j'
      = v.place i' j' := fun i' hi' j' => by
    rw [place_setInode_ne hi', h.alloc_place hb hu]
  have hempty : v.place i j = 0 := by rw [place_of_type ht, placeOf_le _ hj, h0]
  have hne : ∀ i' j', i' ≠ i ∨ j' ≠ j → ((v.alloc b).setInode i
      ((v.inode i).setAddr j b)).place i' j' = v.place i' j' := fun i' j' hor => by
    by_cases hi' : i' = i
    · rw [hi', hself, if_neg (hor.resolve_left (not_not.2 hi'))]
    · exact hothers i' hi' j'
  refine ⟨⟨rfl, rfl, hb, hu, by rw [hself, if_pos rfl], hne, alloc_used v b, hempty⟩,
    rfl, rfl, fun i' j' hp => hne i' j' ?_, fun i' hi' => ?_, hothers, ?_, fun i' j' _ _ => ?_⟩
  · by_contra hcon
    obtain ⟨rfl, rfl⟩ := not_or.1 hcon |>.imp not_not.1 not_not.1
    exact hp hempty
  · rw [inode_setInode_ne _ _ hi']
    rfl
  · rw [inode_setInode_self]
    rfl
  · exact h.alloc_block hb hu i' j'

theorem Exclusive.assign_entry (h : v.Exclusive) (hb : v.Data b) (hu : v.used b = false)
    (hb32 : b < 2 ^ 32) (ht : (v.inode i).type ≠ 0) {ind k : Nat}
    (hind : (v.inode i).addrs ndirect = ind) (hind0 : ind ≠ 0) (hk : k < nindirect)
    (h0 : u32At (v.block ind) (4 * k) = 0) :
    Assigned v ((v.alloc b).setBlock ind (setU32 ((v.alloc b).block ind) (4 * k) b))
        i (ndirect + 1 + k) b ∧
      Extends v ((v.alloc b).setBlock ind (setU32 ((v.alloc b).block ind) (4 * k) b)) i := by
  have hn : v.place i ndirect = ind := by rw [place_of_type ht, placeOf_le _ le_rfl, hind]
  have hblk : (v.alloc b).block ind = v.block ind := hn ▸ h.alloc_block hb hu i ndirect
  rw [hblk]
  have hplace : ∀ j', ndirect < j' → j' ≤ maxfile → v.place i j' =
      u32At (v.block ind) (4 * (j' - (ndirect + 1))) := fun j' hj hj' => by
    rw [place_of_type ht, placeOf, if_neg (by omega), hind, if_pos ⟨hj', hind0⟩]
  have hind' : ∀ i' j', i' ≠ i ∨ j' ≠ ndirect → v.place i' j' ≠ ind := fun i' j' hor e => by
    have := h.inj i ndirect i' j' (by rwa [hn]) (by rw [hn, e])
    obtain ⟨rfl, rfl⟩ := this
    exact hor.elim (fun h => h rfl) fun h => h rfl
  let w := (v.alloc b).setBlock ind (setU32 (v.block ind) (4 * k) b)
  have hwi : ∀ i', w.inode i' = v.inode i' := fun _ => rfl
  have hwb : ∀ i' j', i' ≠ i ∨ j' ≠ ndirect → w.block (v.place i' j') = v.block (v.place i' j') :=
    fun i' j' hor => by
      rw [block_setBlock_ne _ _ (hind' i' j' hor), h.alloc_block hb hu]
  have hothers : ∀ i', i' ≠ i → ∀ j', w.place i' j' = v.place i' j' := fun i' hi' j' =>
    place_congr (hwi i') (fun _ => hwb i' ndirect (.inl hi')) j'
  have hword : ∀ k' < nindirect, u32At (setU32 (v.block ind) (4 * k) b) (4 * k') =
      if k' = k then b else u32At (v.block ind) (4 * k') := fun k' hk' => by
    have hbs : nindirect * 4 = bsize := rfl
    split
    · rename_i e
      rw [e, u32At_setU32_self _ (by omega) hb32]
    · rw [u32At_setU32_ne _ (by omega) (by omega) (by omega)]
  have hself : ∀ j', w.place i j' = if j' = ndirect + 1 + k then b else v.place i j' := by
    intro j'
    have hmax : maxfile = ndirect + nindirect := rfl
    have hwt : w.place i j' = w.placeOf (v.inode i) j' :=
      place_of_type (v := w) ht j'
    by_cases hle : j' ≤ ndirect
    · rw [hwt, placeOf_le _ hle, if_neg (by omega), place_of_type ht, placeOf_le _ hle]
    · by_cases hm : j' ≤ maxfile
      · rw [hwt, placeOf, if_neg hle, hind, if_pos ⟨hm, hind0⟩, block_setBlock_self,
          hword _ (by omega), hplace j' (by omega) hm]
        exact ite_congr (propext (by omega)) (fun _ => rfl) fun _ => rfl
      · rw [hwt, placeOf, if_neg hle, if_neg fun hc => hm hc.1, if_neg (by omega),
          place_of_type ht, placeOf, if_neg hle, if_neg fun hc => hm hc.1]
  have hempty : v.place i (ndirect + 1 + k) = 0 := by
    rw [hplace _ (by omega) (by unfold maxfile; omega), Nat.add_sub_cancel_left, h0]
  have hne : ∀ i' j', i' ≠ i ∨ j' ≠ ndirect + 1 + k → w.place i' j' = v.place i' j' :=
    fun i' j' hor => by
      by_cases hi' : i' = i
      · rw [hi', hself, if_neg (hor.resolve_left (not_not.2 hi'))]
      · exact hothers i' hi' j'
  refine ⟨⟨rfl, rfl, hb, hu, by rw [hself, if_pos rfl], hne, alloc_used v b, hempty⟩,
    rfl, rfl, fun i' j' hp => hne i' j' ?_, fun i' _ => hwi i', hothers, rfl,
    fun i' j' hj' _ => hwb i' j' (.inr hj')⟩
  by_contra hcon
  obtain ⟨rfl, rfl⟩ := not_or.1 hcon |>.imp not_not.1 not_not.1
  exact hp hempty

theorem Exclusive.congr (h : v.Exclusive) (hlo : v'.lo = v.lo) (hhi : v'.hi = v.hi)
    (hplace : ∀ i j, v'.place i j = v.place i j) (hused : ∀ b, v'.used b = v.used b) :
    v'.Exclusive := by
  refine ⟨hlo ▸ h.pos, fun i j hp => ?_, fun i j i' j' hp he => ?_, fun b hb => ?_⟩
  · rw [hplace] at hp ⊢
    rw [Data, hlo, hhi]
    exact h.data i j hp
  · rw [hplace] at hp
    rw [hplace, hplace] at he
    exact h.inj i j i' j' hp he
  · rw [hused, h.used b (by rwa [Data, hlo, hhi] at hb)]
    simp only [hplace]

end Volume
end Xv6.Fs
