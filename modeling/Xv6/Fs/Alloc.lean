/-
What `balloc` and `bmap` do to the volume: blocks are handed out so that each stays with one
inode.
-/
import Xv6.Fs.Exclusive
import Xv6.Lib.Run

namespace Xv6.Fs

open Bytes Run Volume

variable {bn ind j k m n : Nat} {e : Panic}

variable {d d' : Disk} {inum : Nat} {ip ip' : Dinode} {b : Nat}

/-- The volume as the holder of the lock of inode `inum` sees it, with the copy of the inode in
memory in the place of the one on the disk. -/
def Disk.view (d : Disk) (inum : Nat) (ip : Dinode) : Volume := d.volume.setInode inum ip

structure Good (d : Disk) (inum : Nat) (ip : Dinode) : Prop where
  wf : d.Wf
  fits : ip.Fits
  type : ip.type ≠ 0
  excl : (d.view inum ip).Exclusive

/-- The inode has got further blocks, and nothing else has changed. -/
structure Grown (d d' : Disk) (inum : Nat) (ip ip' : Dinode) : Prop where
  good : Good d' inum ip'
  sb : d'.sb = d.sb
  ext : Volume.Extends (d.view inum ip) (d'.view inum ip') inum

theorem Disk.Wf.setLog (h : d.Wf) (l : Log.State) (w : Finset Nat) :
    { d with log := l, wrote := w }.Wf :=
  ⟨h.inodes, h.bits, h.pos, h.size, h.reserved⟩

theorem Good.setLog (h : Good d inum ip) (l : Log.State) (w : Finset Nat) :
    Good { d with log := l, wrote := w } inum ip :=
  ⟨h.wf.setLog l w, h.fits, h.type, h.excl⟩

theorem Grown.refl (h : Good d inum ip) : Grown d d inum ip ip := ⟨h, rfl, .refl ..⟩

theorem Grown.trans {d₁ d₂ d₃ : Disk} {ip₁ ip₂ ip₃ : Dinode} (h : Grown d₁ d₂ inum ip₁ ip₂)
    (h' : Grown d₂ d₃ inum ip₂ ip₃) : Grown d₁ d₃ inum ip₁ ip₃ :=
  ⟨h'.good, h'.sb.trans h.sb, h.ext.trans h'.ext⟩

theorem Grown.fields (h : Grown d d' inum ip ip') : ip' = { ip with addrs := ip'.addrs } := by
  have := h.ext.fields
  simp only [Disk.view, inode_setInode_self] at this
  exact this

/-- Block `b` has been given to `log_write`. -/
def Disk.record (d : Disk) (b : Nat) : Disk :=
  { d with log := { d.log with lh := d.log.lh.record b }, wrote := insert b d.wrote }

theorem logWrite_eq_ok : logWrite d b = .ok d' ↔ d.log.Takes [b] ∧ d' = d.record b := by
  constructor
  · intro h
    obtain ⟨l, hl, hret⟩ := bind_eq_ok.1 h
    cases hret
    obtain ⟨ht, rfl⟩ := Log.logWrite_eq_ok.1 hl
    exact ⟨ht, rfl⟩
  · rintro ⟨ht, rfl⟩
    exact bind_eq_ok.2 ⟨_, Log.logWrite_eq_ok.2 ⟨ht, rfl⟩, rfl⟩

@[simp] theorem view_inode (d : Disk) (inum : Nat) (ip : Dinode) :
    (d.view inum ip).inode inum = ip := inode_setInode_self ..

theorem Disk.view_block (d : Disk) (inum : Nat) (ip : Dinode) :
    (d.view inum ip).block = d.volume.block := rfl

theorem Good.place_le (h : Good d inum ip) (hj : j ≤ ndirect) :
    (d.view inum ip).place inum j = ip.addrs j := by
  rw [place_of_type (by rw [view_inode]; exact h.type), view_inode,
    placeOf_le _ hj]

theorem Good.data_addr (h : Good d inum ip) (hj : j ≤ ndirect) (h0 : ip.addrs j ≠ 0) :
    d.volume.Data (ip.addrs j) := by
  have := h.excl.data inum j (by rwa [h.place_le hj])
  rwa [h.place_le hj] at this

theorem Good.place_gt (h : Good d inum ip) (hk : k < nindirect) (h0 : ip.addrs ndirect ≠ 0) :
    (d.view inum ip).place inum (ndirect + 1 + k) =
      u32At (d.blocks (ip.addrs ndirect)) (4 * k) := by
  rw [place_of_type (by rw [view_inode]; exact h.type), view_inode, Volume.placeOf,
    if_neg (by omega), if_pos ⟨by unfold maxfile; omega, h0⟩, Nat.add_sub_cancel_left,
    Disk.view_block, d.volume_block (h.data_addr le_rfl h0)]

/-! ## balloc -/

def Disk.Free (d : Disk) (b : Nat) : Prop := d.volume.Data b ∧ d.volume.used b = false

/-- The first free block that is not in `l`. -/
def Disk.Next (d : Disk) (l : List Nat) (b : Nat) : Prop :=
  d.Free b ∧ b ∉ l ∧ ∀ b', d.Free b' → b' ∉ l → b ≤ b'

def Disk.alloc (d : Disk) (b : Nat) : Disk :=
  (((d.setUsed b true).record (d.sb.bblock b)).setBlock b zeroes).record b

theorem Disk.free_iff (hw : d.Wf) : d.Free b ↔ b < d.sb.size ∧ d.used b = false := by
  constructor
  · rintro ⟨hdata, hused⟩
    exact ⟨hdata.2, d.volume_used hdata ▸ hused⟩
  · rintro ⟨hlt, hused⟩
    have hlo : d.sb.datastart ≤ b := by
      by_contra hlt
      rw [hw.reserved b (by omega)] at hused
      cases hused
    exact ⟨⟨hlo, hlt⟩, by rw [d.volume_used ⟨hlo, hlt⟩, hused]⟩

theorem balloc_eq_ok (hw : d.Wf) : balloc d = .ok (b, d') ↔
    d.Next [] b ∧ d.log.Takes [d.sb.bblock b, b] ∧ d' = d.alloc b := by
  have hnext : ∀ x, (List.range d.sb.size).find? (fun b => !d.used b) = some x ↔ d.Next [] x := by
    intro x
    simp only [List.find?_range_eq_some, Disk.Next, Disk.free_iff hw, List.mem_range,
      List.not_mem_nil, not_false_eq_true, true_and, true_implies, Bool.not_eq_true',
      Bool.not_not]
    constructor
    · rintro ⟨hused, hlt, hmin⟩
      refine ⟨⟨hlt, hused⟩, fun y hy => ?_⟩
      by_contra hlt
      rw [hmin y (by omega)] at hy
      cases hy.2
    · rintro ⟨⟨hlt, hused⟩, hmin⟩
      refine ⟨hused, hlt, fun y hy => ?_⟩
      by_contra hne
      have := hmin y ⟨by omega, by simpa using hne⟩
      omega
  unfold balloc
  constructor
  · intro h
    split at h
    · cases h
    · rename_i x hfind
      obtain ⟨d₁, h₁, h⟩ := bind_eq_ok.1 h
      obtain ⟨d₂, h₂, hret⟩ := bind_eq_ok.1 h
      cases hret
      obtain ⟨ht₁, rfl⟩ := logWrite_eq_ok.1 h₁
      obtain ⟨ht₂, rfl⟩ := logWrite_eq_ok.1 h₂
      exact ⟨(hnext b).1 hfind, ⟨ht₁.1, ht₂⟩, rfl⟩
  · rintro ⟨hb, ht, rfl⟩
    rw [(hnext b).2 hb]
    exact bind_eq_ok.2 ⟨_, logWrite_eq_ok.2 ⟨⟨ht.1, trivial⟩, rfl⟩,
      bind_eq_ok.2 ⟨_, logWrite_eq_ok.2 ⟨ht.2, rfl⟩, rfl⟩⟩

theorem balloc_spec (hw : d.Wf) (h : balloc d = .ok (b, d')) :
    d.Free b ∧ d'.volume = d.volume.alloc b ∧ d'.Wf ∧ d'.sb = d.sb := by
  obtain ⟨⟨hfree, -, -⟩, -, rfl⟩ := (balloc_eq_ok hw).1 h
  have hdata := hfree.1
  have hdata' : (d.setUsed b true).volume.Data b := ⟨hdata.1, hdata.2⟩
  have hw₁ := hw.setUsed hdata true
  have hvol : ((d.setUsed b true).setBlock b zeroes).volume = d.volume.alloc b := by
    rw [Disk.volume_setBlock hw₁ hdata', Disk.volume_setUsed hw hdata]
    rfl
  exact ⟨hfree, hvol, (hw₁.setBlock hdata' zeroes).setLog _ _, rfl⟩

/-! ## bmap -/

theorem Dinode.Fits.setAddr (h : ip.Fits) (hj : j ≤ ndirect) (hb : b < 2 ^ 32) :
    (ip.setAddr j b).Fits := by
  refine ⟨h.type, h.major, h.minor, h.nlink, h.size, fun k => ?_, fun k hk => ?_⟩
  · by_cases hkj : k = j
    · rw [hkj, ip.setAddr_self]
      exact hb
    · rw [ip.setAddr_ne b hkj]
      exact h.addrs k
  · rw [ip.setAddr_ne b (by omega)]
    exact h.rest k hk

/-- Inode `inum` has got block `b`, zeroed, at place `j`, which was empty. -/
structure Placed (d d' : Disk) (inum : Nat) (ip ip' : Dinode) (j b : Nat) : Prop
    extends Grown d d' inum ip ip' where
  assigned : Volume.Assigned (d.view inum ip) (d'.view inum ip') inum j b
  zero : (d'.view inum ip').block b = zeroes
  ne_zero : b ≠ 0

section

variable (hg : Good d inum ip)

include hg

theorem bmapAddr_placed (hj : j ≤ ndirect) (h0 : ip.addrs j = 0) (hb : balloc d = .ok (b, d')) :
    Placed d d' inum ip (ip.setAddr j b) j b := by
  obtain ⟨⟨hdata, hfree⟩, hvol, hw, hsb⟩ := balloc_spec hg.wf hb
  have h32 : b < 2 ^ 32 := lt_of_lt_of_le hdata.2 hg.wf.size
  obtain ⟨hass, hext⟩ := hg.excl.assign_addr (i := inum) (j := j) hdata hfree
    (by rw [view_inode]; exact hg.type) hj (by rw [view_inode]; exact h0)
  have hview : d'.view inum (ip.setAddr j b) = ((d.view inum ip).alloc b).setInode inum
      (((d.view inum ip).inode inum).setAddr j b) := by
    rw [Disk.view, hvol, Disk.view]
    simp [Volume.alloc, Volume.setInode, Volume.setBlock, Volume.setUsed]
  have hzero : (d'.view inum (ip.setAddr j b)).block b = zeroes := by
    rw [Disk.view_block, hvol]
    exact block_setBlock_self ..
  rw [← hview] at hass hext
  exact ⟨⟨⟨hw, hg.fits.setAddr hj h32, hg.type, hg.excl.assigned hass⟩, hsb, hext⟩, hass,
    hzero, hg.excl.ne_zero hdata⟩

theorem bmapAddr_spec (hj : j ≤ ndirect) (h : bmapAddr d ip j = .ok (b, ip', d')) :
    Grown d d' inum ip ip' ∧ ip'.addrs j = b ∧ b ≠ 0 := by
  unfold bmapAddr at h
  split at h
  · rename_i h0
    obtain ⟨⟨b₀, d₀⟩, hb, hret⟩ := bind_eq_ok.1 h
    cases hret
    have hp := bmapAddr_placed hg hj h0 hb
    exact ⟨hp.toGrown, ip.setAddr_self j b, hp.ne_zero⟩
  · rename_i h0
    cases h
    exact ⟨.refl hg, rfl, h0⟩

theorem bmapEntry_placed {d₀ : Disk} (hind : ip.addrs ndirect = ind) (hind0 : ind ≠ 0)
    (hk : k < nindirect) (h0 : u32At (d.blocks ind) (4 * k) = 0) (hb : balloc d = .ok (b, d₀)) :
    Placed d ((d₀.setBlock ind (setU32 (d₀.blocks ind) (4 * k) b)).record ind) inum ip ip
      (ndirect + 1 + k) b := by
  have hdataInd : d.volume.Data ind := hind ▸ hg.data_addr le_rfl (hind ▸ hind0)
  obtain ⟨⟨hdata, hfree⟩, hvol, hw, hsb⟩ := balloc_spec hg.wf hb
  have h32 : b < 2 ^ 32 := lt_of_lt_of_le hdata.2 hg.wf.size
  have hdataInd' : d₀.volume.Data ind := by rw [hvol]; exact hdataInd
  obtain ⟨hass, hext⟩ := hg.excl.assign_entry (i := inum) (k := k) hdata hfree h32
    (by rw [view_inode]; exact hg.type) (by rw [view_inode]; exact hind) hind0 hk
    (by rw [Disk.view_block, d.volume_block hdataInd]; exact h0)
  have hview : (d₀.setBlock ind (setU32 (d₀.blocks ind) (4 * k) b)).view inum ip =
      ((d.view inum ip).alloc b).setBlock ind
        (setU32 (((d.view inum ip).alloc b).block ind) (4 * k) b) := by
    have hblk : ((d.view inum ip).alloc b).block ind = d₀.blocks ind := by
      rw [← d₀.volume_block hdataInd', hvol]
      rfl
    rw [Disk.view, Disk.volume_setBlock hw hdataInd', hvol, hblk]
    rfl
  have hne : b ≠ ind := fun he =>
    hg.excl.place_ne hdata hfree inum ndirect (by rw [hg.place_le le_rfl, hind, he])
  have hzero : ((d₀.setBlock ind (setU32 (d₀.blocks ind) (4 * k) b)).view inum ip).block b =
      zeroes := by
    rw [hview, block_setBlock_ne _ _ hne]
    exact block_setBlock_self ..
  rw [← hview] at hass hext
  exact ⟨⟨⟨(hw.setBlock hdataInd' _).setLog _ _, hg.fits, hg.type, hg.excl.assigned hass⟩, hsb, hext⟩,
    hass, hzero, hg.excl.ne_zero hdata⟩

theorem bmapEntry_spec (hind : ip.addrs ndirect = ind) (hind0 : ind ≠ 0) (hk : k < nindirect)
    (h : bmapEntry d ind k = .ok (b, d')) :
    Grown d d' inum ip ip ∧ (d'.view inum ip).place inum (ndirect + 1 + k) = b ∧ b ≠ 0 := by
  unfold bmapEntry at h
  split at h
  · rename_i h0
    obtain ⟨⟨b₀, d₀⟩, hb, hrest⟩ := bind_eq_ok.1 h
    obtain ⟨d₁, hlog, hret⟩ := bind_eq_ok.1 hrest
    cases hret
    obtain ⟨-, rfl⟩ := logWrite_eq_ok.1 hlog
    have hp := bmapEntry_placed hg hind hind0 hk h0 hb
    exact ⟨hp.toGrown, hp.assigned.self, hp.ne_zero⟩
  · rename_i h0
    cases h
    refine ⟨.refl hg, ?_, h0⟩
    rw [hg.place_gt hk (hind ▸ hind0), hind]

theorem bmap_spec (h : bmap d ip bn = .ok (b, ip', d')) :
    Grown d d' inum ip ip' ∧ (d'.view inum ip').fileBlock inum bn = b ∧ b ≠ 0 := by
  unfold bmap at h
  split at h
  · rename_i hbn
    obtain ⟨hgrown, haddr, hb⟩ := bmapAddr_spec hg (by omega) h
    refine ⟨hgrown, ?_, hb⟩
    rw [Volume.fileBlock, slot_of_lt hbn, hgrown.good.place_le (by omega), haddr]
  · split at h
    · rename_i hbn hlt
      obtain ⟨⟨ind, ip₁, d₁⟩, h₁, hrest⟩ := bind_eq_ok.1 h
      obtain ⟨⟨b₂, d₂⟩, h₂, hret⟩ := bind_eq_ok.1 hrest
      cases hret
      obtain ⟨hgrown₁, hind, hind0⟩ := bmapAddr_spec hg le_rfl h₁
      obtain ⟨hgrown₂, hplace, hb⟩ := bmapEntry_spec hgrown₁.good hind hind0 hlt h₂
      refine ⟨hgrown₁.trans hgrown₂, ?_, hb⟩
      rw [Volume.fileBlock, slot_of_ge hbn, hplace]
    · cases h

theorem bmap_data (h : bmap d ip bn = .ok (b, ip', d')) : d'.volume.Data b := by
  obtain ⟨hgrown, hfile, hb0⟩ := bmap_spec hg h
  have hp : (d'.view inum ip').fileBlock inum bn ≠ 0 := by rwa [hfile]
  exact hfile ▸ hgrown.good.excl.data inum _ hp

theorem bmap_of_fileBlock (h : (d.view inum ip).fileBlock inum bn ≠ 0) :
    bmap d ip bn = .ok ((d.view inum ip).fileBlock inum bn, ip, d) := by
  have htype : ((d.view inum ip).inode inum).type ≠ 0 := by rw [view_inode]; exact hg.type
  unfold bmap
  by_cases hbn : bn < ndirect
  · rw [Volume.fileBlock, slot_of_lt hbn, hg.place_le (by omega)] at h ⊢
    rw [if_pos hbn, bmapAddr, if_neg h]
    rfl
  · have hlt : bn - ndirect < nindirect := by
      by_contra hge
      refine h ?_
      rw [Volume.fileBlock, slot_of_ge hbn, place_of_type htype, Volume.placeOf,
        if_neg (by omega), if_neg fun hc => by have := hc.1; unfold maxfile at this; omega]
    have hind : ip.addrs ndirect ≠ 0 := fun h0 => h (by
      rw [Volume.fileBlock, slot_of_ge hbn, place_of_type htype, view_inode,
        Volume.placeOf, if_neg (by omega), if_neg fun hc => hc.2 h0])
    rw [Volume.fileBlock, slot_of_ge hbn, hg.place_gt hlt hind] at h ⊢
    rw [if_neg hbn, if_pos hlt, bmapAddr, if_neg hind]
    simp only [pure, Except.pure, bind, Except.bind, bmapEntry, if_neg h]

end

/-! ## What a call costs in log space -/

/-- A call on `d` gives at most `n` blocks to `log_write`.  If it panics then because the log has
no room for `n` blocks, outside a transaction, or as `E` says. -/
def Spends {α : Type} (d : Disk) (n : Nat) (E : Panic → Prop) (disk : α → Disk) :
    Except Panic α → Prop
  | .ok a => (disk a).log.size = d.log.size ∧ (disk a).log.outstanding = d.log.outstanding ∧
      (disk a).log.lh.n ≤ d.log.lh.n + n
  | .error e => E e ∨ (e = .logWriteOutsideOfTrans ∧ d.log.outstanding < 1) ∨
      (e = .tooBigATransaction ∧ ¬d.log.Spare n)

namespace Spends

variable {α β : Type} {E F : Panic → Prop} {f : α → Disk} {g : β → Disk}

theorem ret (n : Nat) {a : α} (h : (f a).log = d.log) : Spends d n E f (.ok a) := by
  refine ⟨by rw [h], by rw [h], ?_⟩
  rw [h]
  exact Nat.le_add_right ..

theorem bind {x : Except Panic α} {y : α → Except Panic β} (hx : Spends d m E f x)
    (hy : ∀ a, x = .ok a → Spends (f a) n E g (y a)) : Spends d (m + n) E g (x >>= y) := by
  cases x with
  | error e =>
    obtain h | h | ⟨rfl, h⟩ := hx
    · exact .inl h
    · exact .inr (.inl h)
    · exact .inr (.inr ⟨rfl, fun hs => h (hs.mono (Nat.le_add_right ..))⟩)
  | ok a =>
    obtain ⟨hsize, hout, hn⟩ := hx
    have ha := hy a rfl
    rw [ok_bind]
    cases hya : y a with
    | error e =>
      rw [hya] at ha
      obtain h | h | ⟨rfl, h⟩ := ha
      · exact .inl h
      · exact .inr (.inl (hout ▸ h))
      · refine .inr (.inr ⟨rfl, fun hs => h ⟨?_, ?_⟩⟩)
        · have := hs.1
          omega
        · have := hs.2
          rw [hsize]
          omega
    | ok b =>
      rw [hya] at ha
      exact ⟨ha.1.trans hsize, ha.2.1.trans hout, ha.2.2.trans (by omega)⟩

theorem mono {x : Except Panic α} (h : Spends d m E f x) (hn : m ≤ n) (hE : ∀ e, E e → F e) :
    Spends d n F f x := by
  cases x with
  | error e =>
    exact h.imp (hE e) (Or.imp_right (And.imp_right fun hm hs => hm (hs.mono hn)))
  | ok a => exact ⟨h.1, h.2.1, h.2.2.trans (by omega)⟩

end Spends

def Full (e : Panic) : Prop := e = .ballocOutOfBlocks

theorem logWrite_spends {E : Panic → Prop} (hlog : d'.log = d.log) (b : Nat) :
    Spends d 1 E id (logWrite d' b) := by
  have hrec := d.log.lh.n_record_le b
  obtain ⟨he, h⟩ | ⟨he, h⟩ | ⟨he, -⟩ := Log.logWrite_cases (l := d.log) (b := b) rfl <;>
    rw [logWrite, hlog, he]
  · exact .inr (.inr ⟨rfl, fun hs => by have := hs.1; have := hs.2; omega⟩)
  · exact .inr (.inl ⟨rfl, h⟩)
  · exact ⟨rfl, rfl, hrec⟩

theorem balloc_spends (d : Disk) : Spends d 2 Full Prod.snd (balloc d) := by
  unfold balloc
  split
  · exact .inl rfl
  · exact (logWrite_spends rfl _).bind (n := 1) fun d₁ _ =>
      (logWrite_spends rfl _).bind (n := 0) fun d₂ _ => .ret 0 rfl

theorem bmapAddr_spends (d : Disk) (ip : Dinode) (j : Nat) :
    Spends d 2 Full (·.2.2) (bmapAddr d ip j) := by
  unfold bmapAddr
  split
  · exact (balloc_spends d).bind (n := 0) fun _ _ => .ret 0 rfl
  · exact .ret 2 rfl

theorem bmapEntry_spends (d : Disk) (ind k : Nat) : Spends d 3 Full Prod.snd (bmapEntry d ind k) := by
  unfold bmapEntry
  split
  · refine (balloc_spends d).bind (n := 1) fun x _ => ?_
    obtain ⟨b, d₁⟩ := x
    exact (logWrite_spends rfl _).bind (n := 0) fun _ _ => .ret 0 rfl
  · exact .ret 3 rfl

theorem bmap_spends (d : Disk) (ip : Dinode) (bn : Nat) :
    Spends d 5 (fun e => Full e ∨ (e = .bmapOutOfRange ∧ maxfile ≤ bn)) (·.2.2)
      (bmap d ip bn) := by
  unfold bmap
  split
  · exact (bmapAddr_spends d ip bn).mono (by omega) fun _ => .inl
  · split
    · refine Spends.mono (E := Full) ?_ le_rfl fun _ => .inl
      exact (bmapAddr_spends d ip ndirect).bind (n := 3) fun x _ =>
        (bmapEntry_spends x.2.2 x.1 _).bind (n := 0) fun _ _ => .ret 0 rfl
    · exact .inl (.inr ⟨rfl, by unfold maxfile; omega⟩)

/-! ## When bmap has a block -/

/-- What `bmap` needs to give block `bn` of an inode: the block is there, or as many blocks are
free as are missing.  `bs` are the blocks it then gives to `log_write`. -/
def Needs (d : Disk) (ip : Dinode) (bn : Nat) (bs : List Nat) : Prop :=
  if bn < ndirect then
    ip.addrs bn ≠ 0 ∧ bs = [] ∨
      ip.addrs bn = 0 ∧ ∃ b, d.Next [] b ∧ bs = [d.sb.bblock b, b]
  else if bn < maxfile then
    if ip.addrs ndirect = 0 then ∃ i b, d.Next [] i ∧ d.Next [i] b ∧
      bs = [d.sb.bblock i, i, d.sb.bblock b, b, i]
    else
      u32At (d.blocks (ip.addrs ndirect)) (4 * (bn - ndirect)) ≠ 0 ∧ bs = [] ∨
        u32At (d.blocks (ip.addrs ndirect)) (4 * (bn - ndirect)) = 0 ∧
          ∃ b, d.Next [] b ∧ bs = [d.sb.bblock b, b, ip.addrs ndirect]
  else False

theorem Needs.length_le {bs : List Nat} (h : Needs d ip bn bs) : bs.length ≤ 5 := by
  unfold Needs at h
  split at h
  · obtain ⟨-, rfl⟩ | ⟨-, b, -, rfl⟩ := h <;> simp
  · split at h
    · split at h
      · obtain ⟨i, b, -, -, rfl⟩ := h
        simp
      · obtain ⟨-, rfl⟩ | ⟨-, b, -, rfl⟩ := h <;> simp
    · exact h.elim

/-- There are the blocks, and the log has room for the calls of `log_write`. -/
def Mappable (d : Disk) (ip : Dinode) (bn : Nat) : Prop :=
  ∃ bs, Needs d ip bn bs ∧ d.log.Takes bs

theorem balloc_free (hw : d.Wf) (h : balloc d = .ok (b, d')) (b' : Nat) :
    d'.Free b' ↔ b' ≠ b ∧ d.Free b' := by
  obtain ⟨-, hvol, -⟩ := balloc_spec hw h
  have hused := d.volume.alloc_used b b'
  rw [← hvol] at hused
  have hdata : d'.volume.Data b' ↔ d.volume.Data b' := by rw [hvol]; rfl
  rw [Disk.Free, Disk.Free, hdata, ← Bool.not_eq_true, hused, ← Bool.not_eq_true, not_or]
  exact ⟨fun h => ⟨h.2.1, h.1, h.2.2⟩, fun h => ⟨h.2.1, h.1, h.2.2⟩⟩

theorem balloc_next (hw : d.Wf) (h : balloc d = .ok (b, d')) (l : List Nat) (b' : Nat) :
    d'.Next l b' ↔ d.Next (b :: l) b' := by
  simp only [Disk.Next, balloc_free hw h, List.mem_cons, not_or]
  tauto

theorem balloc_zero (hw : d.Wf) (h : balloc d = .ok (b, d')) : d'.blocks b = zeroes := by
  obtain ⟨-, -, rfl⟩ := (balloc_eq_ok hw).1 h
  exact Function.update_self ..

theorem bmapEntry_ok_iff (hw : d.Wf) (ind k : Nat) : (∃ r, bmapEntry d ind k = .ok r) ↔
    u32At (d.blocks ind) (4 * k) ≠ 0 ∨ u32At (d.blocks ind) (4 * k) = 0 ∧
      ∃ b, d.Next [] b ∧ d.log.Takes [d.sb.bblock b, b, ind] := by
  unfold bmapEntry
  by_cases h0 : u32At (d.blocks ind) (4 * k) = 0
  · rw [if_pos h0]
    refine ⟨fun ⟨r, h⟩ => .inr ⟨h0, ?_⟩, fun h => ?_⟩
    · obtain ⟨⟨b, d₁⟩, hb, h⟩ := bind_eq_ok.1 h
      obtain ⟨d₂, hlog, -⟩ := bind_eq_ok.1 h
      obtain ⟨hnext, ht, rfl⟩ := (balloc_eq_ok hw).1 hb
      exact ⟨b, hnext, ht.1, ht.2.1, (logWrite_eq_ok.1 hlog).1⟩
    · obtain ⟨-, b, hnext, h₁, h₂, h₃⟩ := h.resolve_left (not_not_intro h0)
      exact ⟨_, bind_eq_ok.2 ⟨_, (balloc_eq_ok hw).2 ⟨hnext, ⟨h₁, h₂, trivial⟩, rfl⟩,
        bind_eq_ok.2 ⟨_, logWrite_eq_ok.2 ⟨h₃, rfl⟩, rfl⟩⟩⟩
  · rw [if_neg h0]
    exact ⟨fun _ => .inl h0, fun _ => ⟨_, rfl⟩⟩

theorem bmap_ok_iff (hw : d.Wf) (bn : Nat) :
    (∃ r, bmap d ip bn = .ok r) ↔ Mappable d ip bn := by
  unfold bmap Mappable Needs
  by_cases hdir : bn < ndirect
  · simp only [if_pos hdir, bmapAddr]
    by_cases h0 : ip.addrs bn = 0
    · simp only [h0, ne_eq, not_true_eq_false, false_and, true_and, false_or]
      constructor
      · rintro ⟨r, h⟩
        obtain ⟨⟨b, d₁⟩, hb, -⟩ := bind_eq_ok.1 h
        obtain ⟨hnext, ht, -⟩ := (balloc_eq_ok hw).1 hb
        exact ⟨_, ⟨b, hnext, rfl⟩, ht⟩
      · rintro ⟨bs, ⟨b, hnext, rfl⟩, ht⟩
        exact ⟨_, bind_eq_ok.2 ⟨_, (balloc_eq_ok hw).2 ⟨hnext, ht, rfl⟩, rfl⟩⟩
    · rw [if_neg h0]
      exact ⟨fun _ => ⟨[], .inl ⟨h0, rfl⟩, trivial⟩, fun _ => ⟨_, rfl⟩⟩
  simp only [if_neg hdir]
  by_cases hind : bn - ndirect < nindirect
  · rw [if_pos hind]
    simp only [if_pos (show bn < maxfile by unfold maxfile; omega), bmapAddr]
    by_cases h0 : ip.addrs ndirect = 0
    · -- the indirect block is new and has no entry
      simp only [if_pos h0]
      constructor
      · rintro ⟨r, h⟩
        obtain ⟨⟨i, ip₁, d₁⟩, h₁, h⟩ := bind_eq_ok.1 h
        obtain ⟨⟨i, d₁⟩, hi, hret⟩ := bind_eq_ok.1 h₁
        cases hret
        obtain ⟨r', h', -⟩ := bind_eq_ok.1 h
        have hzero := balloc_zero hw hi
        obtain ⟨-, -, hw₁, -⟩ := balloc_spec hw hi
        obtain hne | ⟨-, b, hnext, ht⟩ := (bmapEntry_ok_iff hw₁ i _).1 ⟨r', h'⟩
        · rw [hzero] at hne
          exact absurd rfl hne
        · obtain ⟨hnext', ht', rfl⟩ := (balloc_eq_ok hw).1 hi
          exact ⟨_, ⟨i, b, hnext', (balloc_next hw hi [] b).1 hnext, rfl⟩, ht'.1, ht'.2.1, ht⟩
      · rintro ⟨bs, ⟨i, b, hnext, hnext', rfl⟩, h₁, h₂, ht⟩
        have hi := (balloc_eq_ok hw).2 ⟨hnext, ⟨h₁, h₂, trivial⟩, rfl⟩
        obtain ⟨-, -, hw₁, -⟩ := balloc_spec hw hi
        obtain ⟨r, hr⟩ := (bmapEntry_ok_iff hw₁ i (bn - ndirect)).2
          (.inr ⟨by rw [balloc_zero hw hi]; rfl, b, (balloc_next hw hi [] b).2 hnext', ht⟩)
        exact ⟨_, bind_eq_ok.2 ⟨_, bind_eq_ok.2 ⟨_, hi, rfl⟩, bind_eq_ok.2 ⟨r, hr, rfl⟩⟩⟩
    · simp only [if_neg h0]
      have hentry := bmapEntry_ok_iff hw (ip.addrs ndirect) (bn - ndirect)
      constructor
      · rintro ⟨r, h⟩
        obtain ⟨x, hx, h⟩ := bind_eq_ok.1 h
        cases hx
        obtain ⟨r', h', -⟩ := bind_eq_ok.1 h
        obtain hne | ⟨hz, b, hnext, ht⟩ := hentry.1 ⟨r', h'⟩
        · exact ⟨[], .inl ⟨hne, rfl⟩, trivial⟩
        · exact ⟨_, .inr ⟨hz, b, hnext, rfl⟩, ht⟩
      · rintro ⟨bs, hbs, ht⟩
        obtain ⟨r, hr⟩ : ∃ r, bmapEntry d (ip.addrs ndirect) (bn - ndirect) = .ok r := by
          rcases hbs with ⟨hne, -⟩ | ⟨hz, b, hnext, rfl⟩
          · exact hentry.2 (.inl hne)
          · exact hentry.2 (.inr ⟨hz, b, hnext, ht⟩)
        exact ⟨_, bind_eq_ok.2 ⟨_, rfl, bind_eq_ok.2 ⟨r, hr, rfl⟩⟩⟩
  · rw [if_neg hind]
    simp only [if_neg (show ¬bn < maxfile by unfold maxfile; omega), false_and, exists_false,
      iff_false, not_exists]
    exact fun _ h => by cases h

/-! ## An image without files -/

/-- An image with the areas as mkfs lays them out, in which no inode and no data block is in
use. -/
def Disk.blank : Disk where
  sb := ⟨fsmagic, 1000, 954, 200, nlog, 2, 32, 45⟩
  log := ⟨2, nlog, 0, false, ⟨0, fun _ => 0⟩⟩
  blocks := fun b =>
    if b = 45 then fun j => if j.val < 5 then 255 else if j.val = 5 then 63 else 0 else zeroes
  wrote := ∅

/-- The image with one system call in a transaction. -/
def Disk.begun : Disk := { Disk.blank with log := { Disk.blank.log with outstanding := 1 } }

theorem Disk.blank_used {b : Nat} (hb : b < 1000) : Disk.blank.used b = decide (b < 46) := by
  have hall : ∀ x < 1000, Disk.blank.used x = decide (x < 46) := by decide +kernel
  exact hall b hb

theorem Disk.blank_wf : Disk.blank.Wf := by
  refine ⟨fun i hi => ?_, fun b hb => ?_, by decide, by decide, fun b hb => ?_⟩
  · have hi' : i < 200 := hi
    change i / 16 + 32 < 45
    omega
  · have hb' : b < 1000 := hb
    change b / 8192 + 45 < 46
    omega
  · have hb' : b < 46 := hb
    rw [Disk.blank_used (by omega), decide_eq_true hb']

theorem good_blank {inum : Nat} {ip : Dinode} (hfits : ip.Fits) (htype : ip.type ≠ 0)
    (haddrs : ∀ j, ip.addrs j = 0) : Good Disk.blank inum ip := by
  have hfree : ∀ i, (Disk.blank.volume.inode i).type = 0 := by
    intro i
    unfold Disk.volume
    dsimp only
    split
    · rename_i hi
      have hall : ∀ x < 200, (Disk.blank.dinode x).type = 0 := by decide +kernel
      exact hall i hi
    · rfl
  have hplace : ∀ i j, (Disk.blank.view inum ip).place i j = 0 := by
    intro i j
    by_cases hi : i = inum
    · rw [hi, Disk.view, place_setInode_self htype]
      unfold Volume.placeOf
      simp [haddrs]
    · refine place_of_free ?_ j
      rw [Disk.view, inode_setInode_ne _ _ hi]
      exact hfree i
  refine ⟨Disk.blank_wf, hfits, htype, (show 0 < Disk.blank.sb.datastart by decide), fun i j h =>
    absurd (hplace i j) h, fun i j _ _ h => absurd (hplace i j) h, fun b hb => ?_⟩
  have hlo : 46 ≤ b := hb.1
  have hhi : b < 1000 := hb.2
  have hused : (Disk.blank.view inum ip).used b = false := by
    refine (Disk.volume_used Disk.blank hb).trans ?_
    rw [Disk.blank_used hhi]
    exact decide_eq_false (by omega)
  simp only [hused, hplace, Bool.false_eq_true, false_iff]
  omega

end Xv6.Fs
