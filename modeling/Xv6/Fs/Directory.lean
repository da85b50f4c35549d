/-
Directories as finite maps from names to inode numbers: what dirlookup and dirlink of
kernel/fs.c do to the map, and what the zeroing of an entry in sys_unlink does to it.
-/
import Xv6.Fs.Filewrite
import Xv6.Fs.Namex

namespace Xv6.Fs

open Bytes List

variable {de : Dirent} {A B X : List Dirent}

variable {d d' : Disk} {dnum i k off : Nat} {dp dp' : Dinode} {name name' : List UInt8}

/-! ## Names -/

theorem takeWhile_take_succ (n : Nat) (p : List UInt8) : (p.take (n + 1)).takeWhile (· ≠ 0) =
    if p.headD 0 = 0 then [] else p.headD 0 :: (p.tail.take n).takeWhile (· ≠ 0) := by
  cases p with
  | nil => rfl
  | cons a p => by_cases ha : a = 0 <;> simp [ha]

theorem strncmp_eq_zero_iff (n : Nat) (p q : List UInt8) : strncmp n p q = 0 ↔
    (p.take n).takeWhile (· ≠ 0) = (q.take n).takeWhile (· ≠ 0) := by
  induction n generalizing p q with
  | zero => simp [strncmp]
  | succ n ih =>
    have hsub : ((p.headD 0).toNat : Int) - (q.headD 0).toNat = 0 ↔ p.headD 0 = q.headD 0 := by
      rw [← UInt8.toNat_inj]
      omega
    rw [strncmp, takeWhile_take_succ, takeWhile_take_succ]
    by_cases hpq : p.headD 0 = q.headD 0
    · by_cases hq : q.headD 0 = 0
      · rw [if_neg fun h => h.1 (hpq.trans hq), hsub, if_pos (hpq.trans hq), if_pos hq]
        exact iff_of_true hpq rfl
      · rw [if_pos ⟨hpq ▸ hq, hpq⟩, ih, if_neg (hpq ▸ hq), if_neg hq, hpq]
        simp
    · rw [if_neg fun h => hpq h.2]
      by_cases hp : p.headD 0 = 0 <;> by_cases hq : q.headD 0 = 0 <;> simp_all

theorem namecmp_eq_zero_iff {s t : List UInt8} : namecmp s t = 0 ↔ nameOf s = nameOf t :=
  strncmp_eq_zero_iff dirsiz s t

theorem length_nameOf_le (s : List UInt8) : (nameOf s).length ≤ dirsiz :=
  ((List.takeWhile_prefix _).length_le).trans (length_take_le _ _)

theorem length_strncpy (s : List UInt8) : (strncpy dirsiz s).length = dirsiz := by
  have := length_nameOf_le s
  rw [strncpy, length_append, length_replicate]
  exact Nat.add_sub_cancel' this

theorem nameOf_strncpy (s : List UInt8) : nameOf (strncpy dirsiz s) = nameOf s := by
  have hall : ∀ b ∈ nameOf s, (decide (b ≠ 0)) = true := fun b hb =>
    all_eq_true.1 all_takeWhile b hb
  rw [nameOf, take_of_length_le (length_strncpy s).le]
  refine (takeWhile_append_of_pos hall).trans ?_
  simp

/-! ## Entries -/

def direntsIn : Nat → List UInt8 → List Dirent
  | 0, _ => []
  | k + 1, f => .decode (f.take direntSize) :: direntsIn k (f.drop direntSize)

theorem length_direntsIn (k : Nat) (f : List UInt8) : (direntsIn k f).length = k := by
  induction k generalizing f with
  | zero => rfl
  | succ k ih => rw [direntsIn, length_cons, ih]

theorem direntsIn_splice {f b : List UInt8} (hb : b.length = direntSize)
    (hf : f.length = direntSize * k) (hi : i ≤ k) :
    direntsIn (max k (i + 1))
        (f.take (direntSize * i) ++ b ++ f.drop (direntSize * i + direntSize)) =
      (direntsIn k f).take i ++ .decode b :: (direntsIn k f).drop (i + 1) := by
  induction i generalizing f k with
  | zero =>
    cases k with
    | zero => simp [direntsIn, ← hb]
    | succ k =>
      simp [direntsIn, ← hb]
  | succ i ih =>
    obtain ⟨k, rfl⟩ : ∃ m, k = m + 1 := ⟨k - 1, by omega⟩
    have hs : direntSize * (i + 1) = direntSize + direntSize * i := by ring
    have hlen : (f.take direntSize).length = direntSize := by
      rw [length_take, hf]
      exact Nat.min_eq_left (by rw [Nat.mul_succ]; omega)
    have := ih (f := f.drop direntSize) (by rw [length_drop, hf, Nat.mul_succ]; omega)
      (Nat.le_of_succ_le_succ hi)
    rw [Nat.succ_max_succ, direntsIn, hs, take_add,
      append_assoc (f.take direntSize), append_assoc (f.take direntSize),
      take_left' hlen, drop_left' hlen]
    rw [drop_drop] at this
    rw [Nat.add_assoc, this]
    rfl

def dirents (d : Disk) (dnum : Nat) (dp : Dinode) : List Dirent :=
  direntsIn (entries dp) (fileOf d dnum dp)

/-- The first entry that meets a condition and its offset, if the first of all is at `off`. -/
def firstFrom (found : Dirent → Bool) : Nat → List Dirent → Option (Dirent × Nat)
  | _, [] => none
  | off, de :: es => if found de then some (de, off) else firstFrom found (off + direntSize) es

theorem firstFrom_fst (found : Dirent → Bool) (off : Nat) (es : List Dirent) :
    (firstFrom found off es).map Prod.fst = es.find? found := by
  induction es generalizing off with
  | nil => rfl
  | cons de es ih =>
    rw [firstFrom]
    by_cases h : found de = true <;> simp [h, ih]

theorem firstFrom_eq_none {found : Dirent → Bool} {es : List Dirent} :
    firstFrom found off es = none ↔ ∀ de ∈ es, ¬found de = true := by
  rw [← Option.map_eq_none_iff (f := Prod.fst), firstFrom_fst, List.find?_eq_none]

theorem firstFrom_eq_some {found : Dirent → Bool} {es : List Dirent} {o : Nat}
    (h : firstFrom found off es = some (de, o)) : ∃ A B, es = A ++ de :: B ∧ found de = true ∧
      o = off + direntSize * A.length ∧ ∀ e ∈ A, ¬found e = true := by
  induction es generalizing off with
  | nil => cases h
  | cons e es ih =>
    rw [firstFrom] at h
    by_cases he : found e = true
    · rw [if_pos he] at h
      cases h
      exact ⟨[], es, rfl, he, rfl, by simp⟩
    · rw [if_neg he] at h
      obtain ⟨A, B, rfl, hde, ho, hA⟩ := ih h
      refine ⟨e :: A, B, rfl, hde, ?_, by simpa [he] using hA⟩
      rw [ho, length_cons]
      ring

/-- The entry that `dirlookup` looks for. -/
def holds (name : List UInt8) (de : Dirent) : Bool := de.inum ≠ 0 ∧ namecmp name de.name = 0

/-! ## Reading -/

/-- A directory that a call works on: it is a whole number of entries, without holes. -/
structure Directory (d : Disk) (dnum : Nat) (dp : Dinode) : Prop where
  good : Good d dnum dp
  lt : dnum < d.sb.ninodes
  dir : dp.type = tDir
  whole : dp.size = direntSize * entries dp
  solid : Solid d dnum dp

namespace Directory

variable (hd : Directory d dnum dp)
include hd

theorem bmap_eq (h : off < dp.size) :
    bmap d dp (off / bsize) = .ok ((d.view dnum dp).fileBlock dnum (off / bsize), dp, d) :=
  bmap_of_fileBlock hd.good (hd.solid _ ((Nat.div_mul_le_self off bsize).trans_lt h))

theorem size_le : dp.size ≤ maxfile * bsize := by
  refine not_lt.1 fun h => ?_
  have := bmap_of_fileBlock hd.good (hd.solid maxfile h)
  cases this

theorem offset (h : i ≤ entries dp) : direntSize * i ≤ dp.size ∧
    (direntSize * i + direntSize) % 2 ^ 32 = direntSize * i + direntSize ∧
    min direntSize (bsize - direntSize * i % bsize) = direntSize := by
  have hsize := hd.whole
  have hmax := hd.size_le
  have hs : direntSize = 16 := rfl
  have hbs : bsize = 1024 := rfl
  have hmf : maxfile * bsize = 274432 := rfl
  rw [hs] at hsize ⊢
  rw [hbs]
  omega

theorem readDirent_eq (why : Panic) (h : i < entries dp) :
    readDirent d dp why (direntSize * i) =
      .ok (.decode (((fileOf d dnum dp).drop (direntSize * i)).take direntSize), dp, d) := by
  obtain ⟨hle, hmod, hmin⟩ := hd.offset h.le
  have hend : direntSize * i + direntSize ≤ dp.size := (hd.offset h).1
  have hs : direntSize = 16 := rfl
  have hone : ∃ l r, readi d dp kernelDst (direntSize * i) direntSize = .ok (r, l, dp, d) := by
    rw [readi, if_neg (by omega)]
    dsimp only
    rw [if_neg (by omega)]
    generalize direntSize * i = o at *
    have hb : bmap d dp ((o + 0) / bsize) = _ := hd.bmap_eq (by omega)
    have hm : min (direntSize - 0) (bsize - (o + 0) % bsize) = direntSize := hmin
    rw [show readLoop kernelDst o direntSize direntSize = readLoop kernelDst o direntSize 16
      from rfl, readLoop, if_pos (by omega), hb, Run.ok_bind]
    dsimp only
    rw [hm]
    exact ⟨_, _, rfl⟩
  obtain ⟨l, r, hl⟩ := hone
  obtain ⟨hbytes, hr, -⟩ := fileOf_readi hd.good (by omega) (by decide) (fun _ _ => rfl) hl
  rw [if_pos (by omega)] at hbytes
  have hlen : l.length = direntSize := by
    rw [hbytes, length_take, length_drop, length_fileOf]
    omega
  rw [readDirent, hl, Run.ok_bind]
  dsimp only
  rw [if_pos (by rw [hr, hlen]), hbytes]
  rfl

theorem scan_eq (why : Panic) (found : Dirent → Bool) (h : i + k = entries dp) :
    scan why found k d dp (direntSize * i) = .ok (firstFrom found (direntSize * i)
      (direntsIn k ((fileOf d dnum dp).drop (direntSize * i))), dp, d) := by
  induction k generalizing i with
  | zero => rfl
  | succ k ih =>
    have hlt : direntSize * i < dp.size :=
      lt_of_lt_of_le (by rw [Nat.mul_succ]; exact Nat.lt_add_of_pos_right (by decide))
        (hd.offset (i := i + 1) (by omega)).1
    rw [scan, if_pos hlt, hd.readDirent_eq why (by omega), Run.ok_bind, direntsIn, firstFrom,
      drop_drop]
    dsimp only
    by_cases hf :
        found (.decode (((fileOf d dnum dp).drop (direntSize * i)).take direntSize)) = true
    · rw [if_pos hf, if_pos hf]
      rfl
    · rw [if_neg hf, if_neg hf]
      exact ih (i := i + 1) (by omega)

theorem dirfind_eq (name : List UInt8) : dirfind d dp name =
    .ok ((firstFrom (holds name) 0 (dirents d dnum dp)).map fun x => (x.1.inum, x.2), dp, d) := by
  have hscan := hd.scan_eq .dirlookupRead (holds name) (i := 0) (k := entries dp) (Nat.zero_add _)
  rw [dirfind, if_neg (not_not.2 hd.dir)]
  exact congrArg (· >>= _) hscan

theorem writei_entry {b : List UInt8} (hb : b.length = direntSize) (hi : i ≤ entries dp)
    (hroom : direntSize * i + direntSize ≤ maxfile * bsize) (htrans : 1 ≤ d.log.outstanding)
    (hspare : d.log.Spare 7) (hneeds : ∃ bs, Needs d dp (direntSize * i / bsize) bs) :
    ∃ dp' d', writei d dnum dp (kernelSrc b) (direntSize * i) direntSize =
        .ok ((direntSize : Nat), dp', d') ∧ Directory d' dnum dp' ∧
      dirents d' dnum dp' = (dirents d dnum dp).take i ++ .decode b ::
        (dirents d dnum dp).drop (i + 1) ∧
      dp'.size = max dp.size (direntSize * i + direntSize) := by
  obtain ⟨hle, hmod, hmin⟩ := hd.offset hi
  obtain ⟨bs, hbs⟩ := hneeds
  have hlen := hbs.length_le
  obtain ⟨⟨a, ip, e⟩, hbm⟩ := (bmap_ok_iff hd.good.wf _).2
    ⟨bs, hbs, (hspare.mono (by omega)).takes htrans⟩
  -- `bmap` has logged at most five blocks, so there is room for the entry and for the inode
  have hlog : ∀ x, e.log.Takes [a, x] := fun x => by
    have hspends := bmap_spends d dp (direntSize * i / bsize)
    rw [hbm] at hspends
    obtain ⟨hsize, hout, hn⟩ := hspends
    have hspare' : e.log.Spare 2 := by
      obtain ⟨h₁, h₂⟩ := hspare
      refine ⟨?_, ?_⟩
      · dsimp only at hn
        omega
      · dsimp only at hn hsize
        rw [hsize]
        omega
    exact Log.State.Spare.takes (show e.log.Spare [a, x].length from hspare') (hout ▸ htrans)
  have hwrite : ∀ l, logWrite (e.setBlock a l) a = .ok ((e.setBlock a l).record a) := fun l =>
    logWrite_eq_ok.2 ⟨⟨(hlog 0).1, trivial⟩, rfl⟩
  have hupdate : ∀ l q, iupdate ((e.setBlock a l).record a) dnum q =
      .ok ((((e.setBlock a l).record a).setDinode dnum q).record (e.sb.iblock dnum)) :=
    fun l q => logWrite_eq_ok.2 ⟨(hlog _).2, rfl⟩
  have hs : direntSize = 16 := rfl
  have hfetch : (fetch (kernelSrc b) 0 direntSize).length = direntSize := by
    refine le_antisymm (length_fetch_le _ _ _) (not_lt.1 fun h => ?_)
    cases fetch_stops _ h
  have hone : ∃ dp' d', writei d dnum dp (kernelSrc b) (direntSize * i) direntSize =
      .ok ((direntSize : Nat), dp', d') := by
    rw [writei, if_neg (by omega), if_neg (by omega)]
    generalize direntSize * i = o at *
    have hb' : bmap d dp ((o + 0) / bsize) = .ok (a, ip, e) := hbm
    have hm : min (direntSize - 0) (bsize - (o + 0) % bsize) = direntSize := hmin
    rw [show writeLoop (kernelSrc b) o direntSize direntSize =
      writeLoop (kernelSrc b) o direntSize 16 from rfl, writeLoop, if_pos (by omega), hb',
      Run.ok_bind]
    dsimp only
    rw [hm, hfetch, if_neg (lt_irrefl _), hwrite, Run.ok_bind, writeLoop, if_neg (by omega)]
    simp only [pure_bind, hupdate, Run.ok_bind]
    exact ⟨_, _, rfl⟩
  obtain ⟨dp', d', hw⟩ := hone
  have ha : Accepts dp (direntSize * i) direntSize := ⟨hle, hroom⟩
  have hbytes : bytesOf (kernelSrc b) direntSize = b := by
    rw [← hb]
    exact ext_getElem (by simp [bytesOf]) fun k h h' => by
      simp [bytesOf, kernelSrc, List.getElem?_eq_getElem h']
  have hall : ∀ k, k < direntSize → kernelSrc b k ≠ none := fun _ _ => Option.some_ne_none _
  have hfile := fileOf_writei hd.good hd.lt hall ha hw
  rw [hbytes] at hfile
  obtain ⟨hna, -⟩ | ⟨-, tot, w, htot, -, -, -, hfields, hgood, -⟩ := writei_spec hd.good hd.lt hw
  · exact absurd ha hna
  obtain ⟨-, hsb, hsolid⟩ := writei_solid hd.good hd.lt hd.solid hw
  obtain rfl : direntSize = tot := by exact_mod_cast htot
  have hsize : dp'.size = max dp.size (direntSize * i + direntSize) := by rw [hfields]
  have hwhole := hd.whole
  have hentries : entries dp' = max (entries dp) (i + 1) := by
    rw [entries, hsize, hwhole, hs]
    omega
  refine ⟨dp', d', hw, ⟨hgood, hsb ▸ hd.lt, by rw [hfields]; exact hd.dir, ?_, hsolid⟩, ?_, hsize⟩
  · rw [hsize, hwhole, hs]
    omega
  · rw [dirents, hentries, hfile, direntsIn_splice hb (by rw [length_fileOf, hwhole]) hi]
    rfl

theorem needs (h : off < dp.size) : ∃ bs, Needs d dp (off / bsize) bs := by
  obtain ⟨bs, hbs, -⟩ := (bmap_ok_iff hd.good.wf _).1 ⟨_, hd.bmap_eq h⟩
  exact ⟨bs, hbs⟩

end Directory

/-! ## The map -/

/-- No two entries in use have the same name. -/
def Distinct (es : List Dirent) : Prop :=
  es.Pairwise fun e e' => e.inum ≠ 0 → e'.inum ≠ 0 → namecmp e.name e'.name ≠ 0

theorem holds_eq_true : holds name de = true ↔ de.inum ≠ 0 ∧ nameOf name = nameOf de.name := by
  rw [holds, decide_eq_true_eq, namecmp_eq_zero_iff]

theorem holds_congr (h : namecmp name' name = 0) : holds name' = holds name :=
  funext fun de => Bool.eq_iff_iff.2 (by
    rw [holds_eq_true, holds_eq_true, namecmp_eq_zero_iff.1 h])

theorem find?_replaced (hde : ¬holds name de = true) (hX : ∀ e ∈ X, ¬holds name e = true) :
    (A ++ de :: B).find? (holds name) = (A ++ X ++ B).find? (holds name) := by
  rw [List.find?_append, List.find?_append, List.find?_append, List.find?_cons_of_neg hde,
    List.find?_eq_none.2 hX, Option.or_none]

theorem Distinct.replaced (h : Distinct (A ++ X ++ B))
    (hde : de.inum ≠ 0 → ∀ e ∈ A ++ B, ¬holds de.name e = true) : Distinct (A ++ de :: B) := by
  have hsymm : ∀ x y : Dirent, (x.inum ≠ 0 → y.inum ≠ 0 → namecmp x.name y.name ≠ 0) →
      y.inum ≠ 0 → x.inum ≠ 0 → namecmp y.name x.name ≠ 0 := fun x y hxy hy hx heq =>
    hxy hx hy (namecmp_eq_zero_iff.2 (namecmp_eq_zero_iff.1 heq).symm)
  have hsub : (A ++ B).Sublist (A ++ X ++ B) :=
    List.Sublist.append (sublist_append_left A X) (List.Sublist.refl B)
  refine (pairwise_middle (hsymm _ _)).2 (pairwise_cons.2 ⟨fun e he h0 h1 heq => ?_,
    h.sublist hsub⟩)
  exact hde h0 e he (holds_eq_true.2 ⟨h1, namecmp_eq_zero_iff.1 heq⟩)

/-- A slot that is free, or the blocks for one more behind the last. -/
def Room (d : Disk) (dnum : Nat) (dp : Dinode) : Prop :=
  (∃ e ∈ dirents d dnum dp, e.inum = 0) ∨
    dp.size < maxfile * bsize ∧ ∃ bs, Needs d dp (dp.size / bsize) bs

/-- `dirlink` fills the first free slot, and the directory grows only if there is none. -/
theorem Directory.dirAppend_spec (hd : Directory d dnum dp) (htrans : 1 ≤ d.log.outstanding)
    (hspare : d.log.Spare 7) (hroom : Room d dnum dp) (name : List UInt8) {inum : Nat} (h16 : inum < 2 ^ 16) :
    ∃ dp' d' A X B, dirAppend d dnum dp name inum = .ok (dp', d') ∧ Directory d' dnum dp' ∧
      dirents d dnum dp = A ++ X ++ B ∧ (∀ e ∈ X, e.inum = 0) ∧
      dirents d' dnum dp' = A ++ ⟨inum, strncpy dirsiz name⟩ :: B ∧
      ((∃ e ∈ dirents d dnum dp, e.inum = 0) → dp'.size = dp.size) ∧
      ((∀ e ∈ dirents d dnum dp, e.inum ≠ 0) → dp'.size = dp.size + direntSize) := by
  have hlen := length_direntsIn (entries dp) (fileOf d dnum dp)
  have hwhole := hd.whole
  have hs : direntSize = 16 := rfl
  have hlen' : (Dirent.encode ⟨inum % 2 ^ 16, strncpy dirsiz name⟩).length = direntSize :=
    Dirent.length_encode (length_strncpy name)
  have hput := fun i hi hmax hmap => hd.writei_entry (i := i) hlen' hi hmax htrans hspare hmap
  rw [Dirent.decode_encode (Nat.mod_lt _ (by decide)) (length_strncpy name),
    Nat.mod_eq_of_lt h16] at hput
  have hscan := hd.scan_eq .dirlinkRead (fun de => de.inum = 0) (i := 0) (k := entries dp)
    (Nat.zero_add _)
  rw [Nat.mul_zero, drop_zero, ← dirents] at hscan
  rw [← dirents] at hlen
  rw [dirAppend, hscan, Run.ok_bind, Nat.mod_eq_of_lt h16]
  cases hfirst : firstFrom (fun de => de.inum = 0) 0 (dirents d dnum dp) with
  | some x =>
    obtain ⟨x, o⟩ := x
    obtain ⟨A, B, hes, hx, rfl, -⟩ := firstFrom_eq_some hfirst
    rw [hes, length_append, length_cons] at hlen
    have hmax := hd.size_le
    have hlt : direntSize * A.length + direntSize ≤ dp.size := by
      rw [hwhole, hs]
      omega
    obtain ⟨dp', d', hw, hd', hes', hsize⟩ := hput A.length (by omega) (by omega)
      (hd.needs (by omega))
    refine ⟨dp', d', A, [x], B, ?_, hd', by simpa using hes, by simpa using hx, ?_, fun _ => ?_,
      fun hall => absurd (by simpa using hx) (hall x (by simp [hes]))⟩
    · dsimp only
      rw [Nat.zero_add, hw]
      rfl
    · rw [hes', hes]
      simp
    · rw [hsize]
      omega
  | none =>
    have hall : ∀ e ∈ dirents d dnum dp, e.inum ≠ 0 := fun e he => by
      simpa using firstFrom_eq_none.1 hfirst e he
    obtain ⟨e, he, h0⟩ | ⟨hmax, hmap⟩ := hroom
    · exact absurd h0 (hall e he)
    have hbs : maxfile * bsize = 274432 := rfl
    obtain ⟨dp', d', hw, hd', hes', hsize⟩ := hput (entries dp) le_rfl
      (by rw [hwhole, hs] at hmax; rw [hs]; omega) (hwhole ▸ hmap)
    refine ⟨dp', d', dirents d dnum dp, [], [], ?_, hd', by simp, by simp, ?_, fun ⟨e, he, h0⟩ =>
      absurd h0 (hall e he), fun _ => ?_⟩
    · dsimp only
      rw [hw]
      rfl
    · rw [hes', take_of_length_le hlen.le, drop_of_length_le (by omega)]
    · rw [hsize]
      omega

/-! ## The map in the inode table -/

namespace Itable

variable {t t' : Itable}

/-- The locked inode `i` is a directory, and its entries. -/
def IsDir (t : Itable) (i : Nat) : Prop :=
  Directory t.disk (t.inode i).inum (t.inode i).dinode

def dirents (t : Itable) (i : Nat) : List Dirent :=
  Fs.dirents t.disk (t.inode i).inum (t.inode i).dinode

def HasSlot (t : Itable) : Prop := ∃ j, j < ninode ∧ (t.inode j).ref = 0

/-- The disk, the references and the entries in use are the same. -/
def Same (t t' : Itable) : Prop :=
  t'.disk = t.disk ∧ ∀ j, (t'.inode j).ref = (t.inode j).ref ∧
    (0 < (t.inode j).ref → t'.inode j = t.inode j)

/-- What `dirlookup` gives for the name: the number of the inode, or nothing. -/
def Yields (t : Itable) (i : Nat) (name : List UInt8) : Option Nat → Prop
  | none => t.dirlookup i name = .ok (none, t)
  | some inum => ∃ j off t', t.dirlookup i name = .ok (some (j, off), t') ∧
      (t'.inode j).inum = inum

/-- `dirlookup` gives `val` for the name, and for every other name what it gave before. -/
def Remaps (name : List UInt8) (val : Option Nat) (i : Nat) (t t' : Itable) : Prop :=
  ∀ name', ∃ v, t.Yields i name' v ∧
    t'.Yields i name' (if namecmp name' name = 0 then val else v)

theorem update_self (t : Itable) (i : Nat) : t.update i (t.inode i).dinode t.disk = t := by
  have : Function.update t.inode i (t.inode i) = t.inode := Function.update_eq_self ..
  unfold update set
  rw [this]

theorem HasSlot.update (h : t.HasSlot) (i : Nat) (dp : Dinode) (d : Disk) :
    (t.update i dp d).HasSlot := by
  obtain ⟨j, hj, href⟩ := h
  refine ⟨j, hj, ?_⟩
  by_cases he : j = i
  · rw [he] at href ⊢
    exact (congrArg Inode.ref (inode_set_self t i _)).trans href
  · exact (congrArg Inode.ref (inode_set_ne t he _)).trans href

/-- `iget` finds an entry while one is free, and an `iput` right after it undoes it: the inode is
in use by somebody else, or its contents are not there yet. -/
theorem HasSlot.iget_iput (h : t.HasSlot) (inum : Nat) :
    ∃ j t', t.iget inum = .ok (j, t') ∧ (t'.inode j).inum = inum ∧
      ∃ t'', t'.iput j = .ok t'' ∧ Same t t'' := by
  unfold iget
  cases hfind : (List.range ninode).find?
      fun i => 0 < (t.inode i).ref ∧ (t.inode i).inum = inum with
  | some j =>
    have hj : 0 < (t.inode j).ref ∧ (t.inode j).inum = inum := by
      simpa using List.find?_some hfind
    refine ⟨j, _, rfl, by rw [inode_set_self]; exact hj.2, t.set j (t.inode j), ?_, rfl,
      fun k => ?_⟩
    · have href : ¬(t.inode j).ref + 1 = 1 := by omega
      simp only [iput, inode_set_self, href, false_and, if_false, pure_bind, set_set,
        Nat.add_sub_cancel]
      rfl
    · by_cases hk : k = j
      · rw [hk, inode_set_self]
        exact ⟨rfl, fun _ => rfl⟩
      · rw [inode_set_ne t hk]
        exact ⟨rfl, fun _ => rfl⟩
  | none =>
    dsimp only
    cases hfree : (List.range ninode).find? fun i => (t.inode i).ref = 0 with
    | none =>
      obtain ⟨j, hj, href⟩ := h
      exact absurd href (by simpa using List.find?_eq_none.1 hfree j (mem_range.2 hj))
    | some j =>
      have hj : (t.inode j).ref = 0 := by simpa using List.find?_some hfree
      refine ⟨j, _, rfl, by rw [inode_set_self],
        t.set j { t.inode j with inum := inum, ref := 0, valid := false }, ?_, rfl, fun k => ?_⟩
      · simp only [iput, inode_set_self, Bool.false_eq_true, false_and, and_false, if_false,
          pure_bind, set_set, Nat.sub_self]
        rfl
      · by_cases hk : k = j
        · rw [hk, inode_set_self]
          exact ⟨hj.symm, fun h0 => by omega⟩
        · rw [inode_set_ne t hk]
          exact ⟨rfl, fun _ => rfl⟩

theorem IsDir.dirlookup_eq (hd : t.IsDir i) (name : List UInt8) :
    t.dirlookup i name = match firstFrom (holds name) 0 (t.dirents i) with
      | none => .ok (none, t)
      | some x => do
          let (j, t) ← t.iget x.1.inum
          return (some (j, x.2), t) := by
  rw [dirlookup, hd.dirfind_eq name, dirents]
  cases firstFrom (holds name) 0 (Fs.dirents t.disk (t.inode i).inum (t.inode i).dinode) with
  | none => exact congrArg (fun t => Except.ok (none, t)) (t.update_self i)
  | some x =>
    show (t.update i (t.inode i).dinode t.disk).iget x.1.inum >>= _ = _
    rw [update_self]

theorem IsDir.yields (hd : t.IsDir i) (hslot : t.HasSlot) (name : List UInt8) :
    t.Yields i name (((t.dirents i).find? (holds name)).map Dirent.inum) := by
  rw [← firstFrom_fst _ 0]
  have heq := hd.dirlookup_eq name
  cases hf : firstFrom (holds name) 0 (t.dirents i) with
  | none =>
    rw [hf] at heq
    exact heq
  | some x =>
    rw [hf] at heq
    obtain ⟨j, t', hget, hinum, -⟩ := hslot.iget_iput x.1.inum
    exact ⟨j, x.2, t', by rw [heq]; exact Run.bind_eq_ok.2 ⟨_, hget, rfl⟩, hinum⟩

theorem IsDir.remaps (hd : t.IsDir i) (hd' : t'.IsDir i) (hslot : t.HasSlot) (hslot' : t'.HasSlot)
    (name : List UInt8) (hes : t.dirents i = A ++ X ++ B) (hes' : t'.dirents i = A ++ de :: B)
    (hX : ∀ e ∈ X, e.inum ≠ 0 → nameOf e.name = nameOf name)
    (hde : de.inum ≠ 0 → nameOf de.name = nameOf name) :
    Remaps name (((A ++ de :: B).find? (holds name)).map Dirent.inum) i t t' := by
  intro name'
  refine ⟨_, hd.yields hslot name', ?_⟩
  have hy := hd'.yields hslot' name'
  rw [hes'] at hy
  rw [hes]
  by_cases hn : namecmp name' name = 0
  · rwa [if_pos hn, ← holds_congr hn]
  · rw [if_neg hn]
    rwa [find?_replaced (X := X)] at hy
    · exact fun h => hn (namecmp_eq_zero_iff.2
        ((holds_eq_true.1 h).2.trans (hde (holds_eq_true.1 h).1)))
    · exact fun e he h => hn (namecmp_eq_zero_iff.2
        ((holds_eq_true.1 h).2.trans (hX e he (holds_eq_true.1 h).1)))

theorem isDir_update {dp : Dinode} {d : Disk} : (t.update i dp d).IsDir i ↔
    Directory d (t.inode i).inum dp := by
  unfold IsDir update
  dsimp only
  rw [inode_set_self]

theorem dirents_update {dp : Dinode} {d : Disk} : (t.update i dp d).dirents i =
    Fs.dirents d (t.inode i).inum dp := by
  unfold dirents update
  dsimp only
  rw [inode_set_self]

section

variable (hd : t.IsDir i) (hdist : Distinct (t.dirents i)) (hslot : t.HasSlot)
  (htrans : 1 ≤ t.disk.log.outstanding) (hspare : t.disk.log.Spare 7)

include hd hdist hslot htrans hspare

/-- Zeroing the entry at the offset that `dirlookup` reports takes its name out of the map. -/
theorem IsDir.unlink {name : List UInt8} {j off : Nat} {t₁ : Itable}
    (h : t.dirlookup i name = .ok (some (j, off), t₁)) : ∃ dp' d',
      writei t.disk (t.inode i).inum (t.inode i).dinode (kernelSrc (List.replicate direntSize 0))
        off direntSize = .ok ((direntSize : Nat), dp', d') ∧ (t.update i dp' d').IsDir i ∧
      Distinct ((t.update i dp' d').dirents i) ∧ Remaps name none i t (t.update i dp' d') := by
  rw [hd.dirlookup_eq name] at h
  cases hf : firstFrom (holds name) 0 (t.dirents i) with
  | none =>
    rw [hf] at h
    cases h
  | some x =>
    obtain ⟨e, o⟩ := x
    rw [hf] at h
    obtain ⟨⟨j', t'⟩, -, hret⟩ := Run.bind_eq_ok.1 h
    cases hret
    obtain ⟨A, B, hes, he, rfl, hA⟩ := firstFrom_eq_some hf
    have hlen : (t.dirents i).length = entries (t.inode i).dinode := length_direntsIn ..
    rw [hes, length_append, length_cons] at hlen
    have hlt : direntSize * A.length + direntSize ≤ (t.inode i).dinode.size :=
      (Directory.offset hd (i := A.length + 1) (by omega)).1
    have hmax := Directory.size_le hd
    obtain ⟨dp', d', hw, hd', hes', -⟩ := Directory.writei_entry hd (i := A.length)
      (length_replicate (n := direntSize) (a := 0)) (by omega) (by omega) htrans hspare
      (Directory.needs hd (lt_of_lt_of_le (Nat.lt_add_of_pos_right (by decide)) hlt))
    have hzero : (Dirent.decode (List.replicate direntSize 0)).inum = 0 := by decide
    have hes₀ : t.dirents i = A ++ [e] ++ B := by simpa using hes
    replace hes' : (t.update i dp' d').dirents i =
        A ++ .decode (List.replicate direntSize 0) :: B := by
      rw [dirents_update, hes', ← dirents, hes]
      simp
    refine ⟨dp', d', by rw [Nat.zero_add]; exact hw, isDir_update.2 hd', ?_, ?_⟩
    · rw [hes']
      exact Distinct.replaced (hes₀ ▸ hdist) fun h => absurd hzero h
    · have hgone : (A ++ .decode (List.replicate direntSize 0) :: B).find? (holds name) = none := by
        refine List.find?_eq_none.2 fun e' he' h => ?_
        obtain hin | rfl | hin : e' ∈ A ∨ e' = _ ∨ e' ∈ B := by simpa using he'
        · exact hA e' hin h
        · exact (holds_eq_true.1 h).1 hzero
        · rw [hes, Distinct, pairwise_append, pairwise_cons] at hdist
          exact hdist.2.1.1 e' hin (holds_eq_true.1 he).1 (holds_eq_true.1 h).1
            (namecmp_eq_zero_iff.2 ((holds_eq_true.1 he).2.symm.trans (holds_eq_true.1 h).2))
      have := hd.remaps (isDir_update.2 hd') hslot (hslot.update i dp' d') name hes₀ hes'
        (by simpa using fun _ => (holds_eq_true.1 he).2.symm) fun h => absurd hzero h
      rwa [hgone] at this

/-- A directory is a finite map.  `dirlink` adds a name that is not there, and zeroing the entry
at the offset that `dirlookup` reports takes one away. -/
theorem dirlink_map (hroom : Room t.disk (t.inode i).inum (t.inode i).dinode) (name : List UInt8)
    (inum : Nat) (hpos : 0 < inum) (h16 : inum < 2 ^ 16) :
    (∃ r t', t.dirlink i name inum = .ok (r, t') ∧
      ((∃ e ∈ t.dirents i, e.inum ≠ 0 ∧ namecmp name e.name = 0) → r = -1 ∧ Same t t') ∧
      ((∀ e ∈ t.dirents i, e.inum ≠ 0 → namecmp name e.name ≠ 0) →
        r = 0 ∧ (∃ dp' d', t' = t.update i dp' d') ∧ t'.IsDir i ∧ Distinct (t'.dirents i) ∧
        Remaps name (some inum) i t t' ∧
        ((∃ e ∈ t.dirents i, e.inum = 0) →
          (t'.inode i).dinode.size = (t.inode i).dinode.size) ∧
        ((∀ e ∈ t.dirents i, e.inum ≠ 0) →
          (t'.inode i).dinode.size = (t.inode i).dinode.size + direntSize))) ∧
    ∀ j off t₁, t.dirlookup i name = .ok (some (j, off), t₁) → ∃ dp' d',
      writei t.disk (t.inode i).inum (t.inode i).dinode (kernelSrc (List.replicate direntSize 0))
        off direntSize = .ok ((direntSize : Nat), dp', d') ∧ (t.update i dp' d').IsDir i ∧
      Distinct ((t.update i dp' d').dirents i) ∧ Remaps name none i t (t.update i dp' d') := by
  refine ⟨?_, fun j off t₁ h => hd.unlink hdist hslot htrans hspare h⟩
  have hfirst := hd.dirlookup_eq name
  cases hf : firstFrom (holds name) 0 (t.dirents i) with
  | some x =>
    rw [hf] at hfirst
    obtain ⟨A, B, hes, hx, -⟩ := firstFrom_eq_some hf
    have hx' : x.1.inum ≠ 0 ∧ namecmp name x.1.name = 0 := of_decide_eq_true hx
    obtain ⟨j, t', hget, -, t'', hput, hsame⟩ := hslot.iget_iput x.1.inum
    refine ⟨-1, t'', ?_, fun _ => ⟨rfl, hsame⟩, fun hno =>
      absurd hx'.2 (hno x.1 (by simp [hes]) hx'.1)⟩
    rw [dirlink, hfirst.trans (Run.bind_eq_ok.2 ⟨_, hget, rfl⟩), Run.ok_bind]
    exact Run.bind_eq_ok.2 ⟨_, hput, rfl⟩
  | none =>
    rw [hf] at hfirst
    have hno := firstFrom_eq_none.1 hf
    obtain ⟨dp', d', A, X, B, hrun, hd', hes, hX, hes', hsize⟩ :=
      Directory.dirAppend_spec hd htrans hspare hroom name h16
    have hAB : ∀ e ∈ A ++ B, ¬holds name e = true := fun e he => hno e (by
      rw [dirents, hes]
      simp only [mem_append] at he ⊢
      tauto)
    rw [← dirents_update (t := t)] at hes'
    have hsize' : ((t.update i dp' d').inode i).dinode.size = dp'.size :=
      congrArg (fun x => x.dinode.size) (inode_set_self t i _)
    refine ⟨0, t.update i dp' d', ?_, fun ⟨e, he, h⟩ => absurd (decide_eq_true h) (hno e he), fun _ =>
      ⟨rfl, ⟨dp', d', rfl⟩, isDir_update.2 hd', ?_, ?_, by rw [hsize']; exact hsize⟩⟩
    · rw [dirlink, hfirst, Run.ok_bind]
      exact Run.bind_eq_ok.2 ⟨(dp', d'), by rw [hrun]; rfl, rfl⟩
    · rw [hes']
      refine Distinct.replaced (X := X) (by rw [← hes]; exact hdist) fun _ e he h => hAB e he ?_
      rw [holds_eq_true, nameOf_strncpy] at h
      exact holds_eq_true.2 h
    · have hnew : holds name ⟨inum, strncpy dirsiz name⟩ = true :=
        holds_eq_true.2 ⟨hpos.ne', (nameOf_strncpy name).symm⟩
      have := hd.remaps (isDir_update.2 hd') hslot (hslot.update i dp' d') name hes hes'
        (fun e he h => absurd (hX e he) h) fun _ => nameOf_strncpy name
      rwa [List.find?_append, List.find?_eq_none.2 fun e he => hAB e
        (mem_append_left B he), List.find?_cons_of_pos hnew] at this

end

end Itable

/-! ## A directory with a hole -/

def emptyDir (size : Nat) : Dinode := { Dinode.zero with type := tDir, nlink := 1, size := size }

theorem good_emptyDir {size : Nat} (h : size < 2 ^ 32) : Good Disk.begun 1 (emptyDir size) :=
  (good_blank ⟨rfl, rfl, rfl, rfl, h, fun _ => Nat.two_pow_pos 32, fun _ _ => rfl⟩
    (show tDir ≠ 0 by decide) fun _ => rfl).setLog _ _

/-- A table in which inode 1 is locked, with these contents, and no other is in use. -/
def lockedTable (d : Disk) (dp : Dinode) : Itable where
  inode := fun i => if i = 0 then ⟨1, 1, true, true, dp⟩ else ⟨0, 0, false, false, Dinode.zero⟩
  disk := d

def holeDir : Disk × Dinode :=
  match writei Disk.begun 1 (emptyDir bsize)
    (kernelSrc (Dirent.encode ⟨2, strncpy dirsiz [97]⟩)) bsize direntSize with
  | .ok (_, ip, d) => (d, ip)
  | .error _ => (Disk.begun, emptyDir 0)

theorem good_holeDir : Good holeDir.1 1 holeDir.2 := by
  unfold holeDir
  cases h : writei Disk.begun 1 (emptyDir bsize)
    (kernelSrc (Dirent.encode ⟨2, strncpy dirsiz [97]⟩)) bsize direntSize with
  | error e => exact good_emptyDir (by decide)
  | ok out =>
    obtain ⟨hna, -⟩ | ⟨-, tot, w, -, -, -, -, -, hg, -⟩ :=
      writei_spec (good_emptyDir (by decide)) (by decide) h
    · exact absurd ⟨by decide, by decide⟩ hna
    · exact hg

/-- `dirlink` of a name that is there gets the missing block allocated on the way to it. -/
theorem dirlink_fills_hole : ¬∀ (t : Itable) (i : Nat) (name : List UInt8) (inum : Nat),
    Good t.disk (t.inode i).inum (t.inode i).dinode → (t.inode i).inum < t.disk.sb.ninodes →
    (t.inode i).dinode.type = tDir →
    (t.inode i).dinode.size = direntSize * entries (t.inode i).dinode →
    Distinct (t.dirents i) → Room t.disk (t.inode i).inum (t.inode i).dinode → t.HasSlot →
    1 ≤ t.disk.log.outstanding → t.disk.log.Spare 7 → 0 < inum → inum < 2 ^ 16 →
    (∃ e ∈ t.dirents i, e.inum ≠ 0 ∧ namecmp name e.name = 0) →
    ∃ t', t.dirlink i name inum = .ok (-1, t') ∧
      (t'.inode i).dinode.addrs = (t.inode i).dinode.addrs := by
  intro h
  have hfacts : holeDir.2.type = tDir ∧ holeDir.2.size = direntSize * entries holeDir.2 ∧
      1 < holeDir.1.sb.ninodes ∧ 1 ≤ holeDir.1.log.outstanding ∧
      (holeDir.1.log.lh.n + 7 ≤ logsize ∧ (holeDir.1.log.lh.n : Int) + (7 : Nat) ≤
        holeDir.1.log.size - 1) ∧ holeDir.2.addrs 0 = 0 := by
    decide +kernel
  have hdir : (dirents holeDir.1 1 holeDir.2).Pairwise (fun e e' => e.inum ≠ 0 → e'.inum ≠ 0 →
      namecmp e.name e'.name ≠ 0) ∧ (∃ e ∈ dirents holeDir.1 1 holeDir.2, e.inum = 0) ∧
      ∃ e ∈ dirents holeDir.1 1 holeDir.2, e.inum ≠ 0 ∧ namecmp [97] e.name = 0 := by
    decide +kernel
  have hrun : (match (lockedTable holeDir.1 holeDir.2).dirlink 0 [97] 3 with
      | .ok (_, t') => decide ((t'.inode 0).dinode.addrs 0 ≠ 0)
      | .error _ => false) = true := by decide +kernel
  obtain ⟨htype, hwhole, hlt, hout, hspare, hhole⟩ := hfacts
  have hgood := good_holeDir
  generalize holeDir.1 = d at *
  generalize holeDir.2 = dp at *
  obtain ⟨t', ht, haddrs⟩ := h (lockedTable d dp) 0 [97] 3 hgood hlt htype hwhole hdir.1
    (.inl hdir.2.1) ⟨1, by decide, rfl⟩ hout hspare (by decide) (by decide) hdir.2.2
  rw [ht] at hrun
  exact of_decide_eq_true hrun ((congrFun haddrs 0).trans hhole)

theorem dirlink_map_empty : ∃ r t', (lockedTable Disk.begun (emptyDir 0)).dirlink 0 [97] 2 =
    .ok (r, t') ∧ r = 0 ∧ Itable.Remaps [97] (some 2) 0 (lockedTable Disk.begun (emptyDir 0)) t' := by
  have hd : Directory Disk.begun 1 (emptyDir 0) :=
    ⟨good_emptyDir (by decide), by decide, rfl, rfl, fun _ h => absurd h (Nat.not_lt_zero _)⟩
  have hroom : Room Disk.begun 1 (emptyDir 0) := by
    have : (bmap Disk.begun (emptyDir 0) 0).isOk = true := by decide +kernel
    cases hb : bmap Disk.begun (emptyDir 0) 0 with
    | ok x =>
      obtain ⟨bs, hbs, -⟩ := (bmap_ok_iff hd.good.wf 0).1 ⟨x, hb⟩
      exact .inr ⟨by decide, bs, hbs⟩
    | error e =>
      rw [hb] at this
      cases this
  have hdist : Distinct (dirents Disk.begun 1 (emptyDir 0)) := List.Pairwise.nil
  obtain ⟨⟨r, t', hrun, -, hnew⟩, -⟩ := Itable.dirlink_map
    (t := lockedTable Disk.begun (emptyDir 0)) (i := 0) hd hdist ⟨1, by decide, rfl⟩ (by decide)
    ⟨by decide, by decide⟩ hroom [97] 2 (by decide) (by decide)
  obtain ⟨hr, -, -, -, hmap, -⟩ := hnew fun e he => absurd he not_mem_nil
  exact ⟨r, t', hrun, hr, hmap⟩

end Xv6.Fs
