/-
A volume: inodes, data blocks and the record of which blocks are in use, without the bytes
they are kept in.  The contents of a disk stand for a volume, and the accessors of the disk
are those of its volume as long as the areas of the image do not overlap.
-/
import Xv6.Fs.Basic

namespace Xv6.Fs

open Bytes Function

variable {b b' i : Nat}

/-- The data blocks are those from `lo` up to `hi`. -/
structure Volume where
  lo : Nat
  hi : Nat
  inode : Nat → Dinode
  used : Nat → Bool
  block : Nat → Block

namespace Volume

def Data (v : Volume) (b : Nat) : Prop := v.lo ≤ b ∧ b < v.hi

def setInode (v : Volume) (i : Nat) (ip : Dinode) : Volume :=
  { v with inode := update v.inode i ip }

def setUsed (v : Volume) (b : Nat) (u : Bool) : Volume :=
  { v with used := update v.used b u }

def setBlock (v : Volume) (b : Nat) (blk : Block) : Volume :=
  { v with block := update v.block b blk }

section

variable (v : Volume)

include v

@[simp] theorem inode_setInode_self (i : Nat) (ip : Dinode) :
    (v.setInode i ip).inode i = ip := update_self ..

theorem inode_setInode_ne {i' : Nat} (ip : Dinode) (h : i' ≠ i) :
    (v.setInode i ip).inode i' = v.inode i' := update_of_ne h ..

@[simp] theorem block_setBlock_self (b : Nat) (blk : Block) :
    (v.setBlock b blk).block b = blk := update_self ..

theorem block_setBlock_ne (blk : Block) (h : b' ≠ b) :
    (v.setBlock b blk).block b' = v.block b' := update_of_ne h ..

@[simp] theorem used_setUsed_self (b : Nat) (u : Bool) :
    (v.setUsed b u).used b = u := update_self ..

theorem used_setUsed_ne (u : Bool) (h : b' ≠ b) :
    (v.setUsed b u).used b' = v.used b' := update_of_ne h ..

@[simp] theorem block_setUsed (b : Nat) (u : Bool) : (v.setUsed b u).block = v.block := rfl

@[simp] theorem used_setBlock (b : Nat) (blk : Block) : (v.setBlock b blk).used = v.used := rfl

@[simp] theorem block_setInode (i : Nat) (ip : Dinode) : (v.setInode i ip).block = v.block := rfl

@[simp] theorem setInode_setInode (i : Nat) (ip ip' : Dinode) :
    (v.setInode i ip).setInode i ip' = v.setInode i ip' := by
  simp [setInode]

theorem setInode_eq_self (i : Nat) : v.setInode i (v.inode i) = v := by
  simp [setInode]

end

end Volume

/-! ## The volume of a disk -/

/-- The areas of the image lie one after the other, and the free map marks the blocks before
the data blocks as used. -/
structure Disk.Wf (d : Disk) : Prop where
  inodes : ∀ i, i < d.sb.ninodes → d.sb.iblock i < d.sb.bmapstart
  bits : ∀ b, b < d.sb.size → d.sb.bblock b < d.sb.datastart
  pos : 0 < d.sb.datastart
  size : d.sb.size ≤ 2 ^ 32
  reserved : ∀ b, b < d.sb.datastart → d.used b = true

/-- What is outside the data area counts as used, what is outside the inode table as free. -/
def Disk.volume (d : Disk) : Volume where
  lo := d.sb.datastart
  hi := d.sb.size
  inode := fun i => if i < d.sb.ninodes then d.dinode i else .zero
  used := fun b => if d.sb.datastart ≤ b ∧ b < d.sb.size then d.used b else true
  block := fun b => if d.sb.datastart ≤ b ∧ b < d.sb.size then d.blocks b else zeroes

namespace Disk

variable {d : Disk}

theorem volume_used (d : Disk) (hb : d.volume.Data b) : d.volume.used b = d.used b :=
  if_pos hb

theorem volume_block (d : Disk) (hb : d.volume.Data b) : d.volume.block b = d.blocks b :=
  if_pos hb

/-! ### Storing into one area leaves the others alone -/

theorem used_setBlock (blk : Block) (h : d.sb.bblock b' ≠ b) :
    (d.setBlock b blk).used b' = d.used b' := by
  have e : (d.setBlock b blk).blocks (d.sb.bblock b') = d.blocks (d.sb.bblock b') :=
    update_of_ne h ..
  exact congrArg (fun x => (byteAt x (b' % bpb / 8)).toNat.testBit (b' % bpb % 8)) e

theorem dinode_setBlock (blk : Block) (h : d.sb.iblock i ≠ b) :
    (d.setBlock b blk).dinode i = d.dinode i := by
  have e : (d.setBlock b blk).blocks (d.sb.iblock i) = d.blocks (d.sb.iblock i) :=
    update_of_ne h ..
  exact congrArg (fun x => Dinode.decode (load x (dinodeSize * (i % ipb)) dinodeSize)) e

theorem used_setUsed (d : Disk) (b b' : Nat) (v : Bool) :
    (d.setUsed b v).used b' = if b' = b then v else d.used b' := by
  have hbit : b % bpb % 8 < 8 := Nat.mod_lt _ (by decide)
  have hbyte : ∀ c, c % bpb / 8 < bsize := fun c => by
    simp only [bpb, bsize] at *
    omega
  by_cases hblk : d.sb.bblock b' = d.sb.bblock b
  · have e : (d.setUsed b v).blocks (d.sb.bblock b') = setByte (d.blocks (d.sb.bblock b))
        (b % bpb / 8) (if v then byteAt (d.blocks (d.sb.bblock b)) (b % bpb / 8) |||
          UInt8.ofNat (2 ^ (b % bpb % 8)) else byteAt (d.blocks (d.sb.bblock b)) (b % bpb / 8) &&&
          ~~~UInt8.ofNat (2 ^ (b % bpb % 8))) := by
      rw [hblk]
      exact update_self ..
    have hu : (d.setUsed b v).used b' = (byteAt ((d.setUsed b v).blocks (d.sb.bblock b'))
        (b' % bpb / 8)).toNat.testBit (b' % bpb % 8) := rfl
    rw [hu, e]
    have hdiv : b' / bpb = b / bpb := by
      simp only [Superblock.bblock] at hblk
      omega
    have hb := Nat.div_add_mod b bpb
    have hb' := Nat.div_add_mod b' bpb
    rw [hdiv] at hb'
    by_cases hby : b' % bpb / 8 = b % bpb / 8
    · have heq : (b' % bpb % 8 = b % bpb % 8) ↔ b' = b := by
        constructor
        · intro h
          omega
        · rintro rfl
          rfl
      rw [hby, byteAt_setByte_self]
      cases v with
      | true =>
        rw [if_pos rfl, testBit_byte_or _ hbit]
        by_cases h : b' = b
        · simp [h]
        · rw [used, hblk, hby]
          simp [heq, h]
      | false =>
        rw [if_neg (by decide), testBit_byte_and_not _ hbit]
        by_cases h : b' = b
        · simp [h]
        · rw [used, hblk, hby]
          simp [heq, h]
    · have hne : b' ≠ b := fun h => hby (by rw [h])
      rw [byteAt_setByte_ne _ _ (hbyte b) (hbyte b') hby, if_neg hne, used, hblk]
  · have hne : b' ≠ b := fun h => hblk (by rw [h])
    rw [if_neg hne]
    exact used_setBlock _ hblk

theorem dinode_setDinode (d : Disk) (i i' : Nat) {ip : Dinode} (hip : ip.Fits) :
    (d.setDinode i ip).dinode i' = if i' = i then ip else d.dinode i' := by
  have hoff : ∀ c, dinodeSize * (c % ipb) + dinodeSize ≤ bsize := fun c => by
    simp only [ipb, dinodeSize, bsize] at *
    omega
  have hlen := ip.length_encode
  by_cases hblk : d.sb.iblock i' = d.sb.iblock i
  · have e : (d.setDinode i ip).blocks (d.sb.iblock i') =
        store (d.blocks (d.sb.iblock i)) (dinodeSize * (i % ipb)) ip.encode := by
      rw [hblk]
      exact update_self ..
    have hd : (d.setDinode i ip).dinode i' = .decode (load ((d.setDinode i ip).blocks
        (d.sb.iblock i')) (dinodeSize * (i' % ipb)) dinodeSize) := rfl
    rw [hd, e]
    by_cases h : i' = i
    · have hall := load_store (d.blocks (d.sb.iblock i)) (o := dinodeSize * (i % ipb)) (k := 0)
        (n := dinodeSize) (l := ip.encode) (by rw [hlen]; exact hoff i) (by rw [hlen]; omega)
      rw [Nat.add_zero, List.drop_zero, List.take_of_length_le hlen.le] at hall
      rw [if_pos h, h, hall, Dinode.decode_encode hip]
    · have hmod : i' % ipb ≠ i % ipb := fun hm => by
        simp only [Superblock.iblock] at hblk
        have hb := Nat.div_add_mod i ipb
        have hb' := Nat.div_add_mod i' ipb
        rw [show i' / ipb = i / ipb by omega] at hb'
        omega
      have hne := load_store_ne (d.blocks (d.sb.iblock i)) (l := ip.encode)
        (o := dinodeSize * (i % ipb)) (hoff i') (by
          rw [hlen]
          simp only [dinodeSize]
          omega)
      rw [if_neg h, hne, dinode, hblk]
  · have hne : i' ≠ i := fun h => hblk (by rw [h])
    rw [if_neg hne]
    exact dinode_setBlock _ hblk

/-! ### The accessors on the volume -/

section

variable (hw : d.Wf)

include hw

theorem Wf.iblock_lt (hi : i < d.sb.ninodes) : d.sb.iblock i < d.sb.datastart := by
  have h := hw.inodes i hi
  have hs : 0 < d.sb.size := by
    have := hw.pos
    simp only [Superblock.datastart] at this
    omega
  have := hw.bits 0 hs
  simp only [Superblock.bblock, Nat.zero_div] at this
  omega

theorem Wf.iblock_ne_bblock (hi : i < d.sb.ninodes) (b : Nat) : d.sb.iblock i ≠ d.sb.bblock b := by
  have h := hw.inodes i hi
  have hle : d.sb.bmapstart ≤ d.sb.bblock b := Nat.le_add_left ..
  omega

theorem volume_setBlock (hb : d.volume.Data b) (blk : Block) :
    (d.setBlock b blk).volume = d.volume.setBlock b blk := by
  have hlo : d.sb.datastart ≤ b := hb.1
  have hinode : (d.setBlock b blk).volume.inode = d.volume.inode := by
    refine funext fun i => ite_congr rfl (fun hi => ?_) fun _ => rfl
    have := hw.iblock_lt hi
    exact dinode_setBlock _ (by omega)
  have hused : (d.setBlock b blk).volume.used = d.volume.used := by
    refine funext fun b' => ite_congr rfl (fun hb' => ?_) fun _ => rfl
    have := hw.bits b' hb'.2
    exact used_setBlock _ (by omega)
  have hblock : (d.setBlock b blk).volume.block = (d.volume.setBlock b blk).block := by
    funext b'
    by_cases h : b' = b
    · subst h
      rw [Volume.block_setBlock_self]
      exact (if_pos hb).trans (update_self ..)
    · rw [Volume.block_setBlock_ne _ _ h]
      exact ite_congr rfl (fun _ => update_of_ne h ..) fun _ => rfl
  exact congr (congr (congrArg (Volume.mk d.sb.datastart d.sb.size) hinode) hused) hblock

theorem volume_setUsed (hb : d.volume.Data b) (u : Bool) :
    (d.setUsed b u).volume = d.volume.setUsed b u := by
  have hbb := hw.bits b hb.2
  have hinode : (d.setUsed b u).volume.inode = d.volume.inode := by
    refine funext fun i => ite_congr rfl (fun hi => ?_) fun _ => rfl
    exact dinode_setBlock _ (hw.iblock_ne_bblock hi b)
  have hused : (d.setUsed b u).volume.used = (d.volume.setUsed b u).used := by
    funext b'
    by_cases h : b' = b
    · subst h
      rw [Volume.used_setUsed_self]
      refine (if_pos hb).trans ?_
      rw [used_setUsed, if_pos rfl]
    · rw [Volume.used_setUsed_ne _ _ h]
      refine ite_congr rfl (fun _ => ?_) fun _ => rfl
      rw [used_setUsed, if_neg h]
  have hblock : (d.setUsed b u).volume.block = d.volume.block := by
    refine funext fun b' => ite_congr rfl (fun hb' => ?_) fun _ => rfl
    exact update_of_ne (by have h : d.sb.datastart ≤ b' := hb'.1; omega) ..
  exact congr (congr (congrArg (Volume.mk d.sb.datastart d.sb.size) hinode) hused) hblock

theorem volume_setDinode (hi : i < d.sb.ninodes) {ip : Dinode} (hip : ip.Fits) :
    (d.setDinode i ip).volume = d.volume.setInode i ip := by
  have hib := hw.iblock_lt hi
  have hinode : (d.setDinode i ip).volume.inode = (d.volume.setInode i ip).inode := by
    funext i'
    by_cases h : i' = i
    · subst h
      rw [Volume.inode_setInode_self]
      refine (if_pos hi).trans ?_
      rw [dinode_setDinode d _ _ hip, if_pos rfl]
    · rw [Volume.inode_setInode_ne _ _ h]
      refine ite_congr rfl (fun _ => ?_) fun _ => rfl
      rw [dinode_setDinode d _ _ hip, if_neg h]
  have hused : (d.setDinode i ip).volume.used = d.volume.used := by
    refine funext fun b' => ite_congr rfl (fun _ => ?_) fun _ => rfl
    exact used_setBlock _ (hw.iblock_ne_bblock hi b').symm
  have hblock : (d.setDinode i ip).volume.block = d.volume.block := by
    refine funext fun b' => ite_congr rfl (fun hb' => ?_) fun _ => rfl
    exact update_of_ne (by have h : d.sb.datastart ≤ b' := hb'.1; omega) ..
  exact congr (congr (congrArg (Volume.mk d.sb.datastart d.sb.size) hinode) hused) hblock

theorem Wf.setBlock (hb : d.volume.Data b) (blk : Block) : (d.setBlock b blk).Wf := by
  refine ⟨hw.inodes, hw.bits, hw.pos, hw.size, fun b' hb' => ?_⟩
  have hlo : d.sb.datastart ≤ b := hb.1
  have hlt : b' < d.sb.datastart := hb'
  have hsize : d.sb.datastart ≤ d.sb.size := Nat.sub_le _ _
  have := hw.bits b' (by omega)
  rw [used_setBlock _ (by omega)]
  exact hw.reserved b' hb'

theorem Wf.setUsed (hb : d.volume.Data b) (u : Bool) : (d.setUsed b u).Wf := by
  refine ⟨hw.inodes, hw.bits, hw.pos, hw.size, fun b' hb' => ?_⟩
  have hlo : d.sb.datastart ≤ b := hb.1
  have hlt : b' < d.sb.datastart := hb'
  rw [used_setUsed, if_neg (by omega)]
  exact hw.reserved b' hb'

theorem Wf.setDinode (hi : i < d.sb.ninodes) (ip : Dinode) : (d.setDinode i ip).Wf := by
  refine ⟨hw.inodes, hw.bits, hw.pos, hw.size, fun b' hb' => ?_⟩
  exact (used_setBlock _ (hw.iblock_ne_bblock hi b').symm).trans (hw.reserved b' hb')

end

end Disk

end Xv6.Fs
