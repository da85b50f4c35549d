/-
The on-disk format of `kernel/fs.h`: the structures as the bytes a little-endian machine lays
them out in, shared by the kernel and by mkfs.
-/
import Xv6.Lib.Codec
import Xv6.Log.Disk

namespace Xv6.Fs

open Bytes List

abbrev Block := Log.Block

/-! ## Constants -/

def rootino : Nat := 1
def fsmagic : Nat := 0x10203040
def ndirect : Nat := 12
def nindirect : Nat := bsize / 4
def maxfile : Nat := ndirect + nindirect
def dirsiz : Nat := 14

def dinodeSize : Nat := 64

def direntSize : Nat := 16

def ipb : Nat := bsize / dinodeSize
def bpb : Nat := bsize * 8

def tDir : Int := 1
def tFile : Int := 2

/-- The conversion of an integer to a `short`. -/
def short (x : Int) : Int := (x + 2 ^ 15) % 2 ^ 16 - 2 ^ 15

/-! ## struct superblock -/

structure Superblock where
  magic : Nat
  size : Nat
  nblocks : Nat
  ninodes : Nat
  nlog : Nat
  logstart : Nat
  inodestart : Nat
  bmapstart : Nat
  deriving DecidableEq

/-- `IBLOCK(i, sb)`, the block that holds inode `i` -/
def Superblock.iblock (sb : Superblock) (i : Nat) : Nat := i / ipb + sb.inodestart

/-- `BBLOCK(b, sb)`, the block of the free map that holds the bit of block `b` -/
def Superblock.bblock (sb : Superblock) (b : Nat) : Nat := b / bpb + sb.bmapstart

/-- The first of the `nblocks` data blocks, which are the last ones of the image. -/
def Superblock.datastart (sb : Superblock) : Nat := sb.size - sb.nblocks

/-! ## struct dinode -/

/-- `struct dinode`; also the fields of `struct inode` that are copied from it. -/
structure Dinode where
  type : Int
  major : Int
  minor : Int
  nlink : Int
  size : Nat
  addrs : Nat → Nat

/-- The values a dinode can hold: three shorts, a short, a `uint` and `NDIRECT+1` of them. -/
structure Dinode.Fits (ip : Dinode) : Prop where
  type : short ip.type = ip.type
  major : short ip.major = ip.major
  minor : short ip.minor = ip.minor
  nlink : short ip.nlink = ip.nlink
  size : ip.size < 2 ^ 32
  addrs : ∀ j, ip.addrs j < 2 ^ 32
  rest : ∀ j, ndirect < j → ip.addrs j = 0

def Dinode.zero : Dinode := ⟨0, 0, 0, 0, 0, fun _ => 0⟩

def shortLe (x : Int) : List UInt8 := toLe 2 (x % 2 ^ 16).toNat

def Dinode.encode (ip : Dinode) : List UInt8 :=
  shortLe ip.type ++ (shortLe ip.major ++ (shortLe ip.minor ++ (shortLe ip.nlink ++
    (toLe 4 ip.size ++ (List.range (ndirect + 1)).flatMap fun j => toLe 4 (ip.addrs j)))))

def Dinode.decode (l : List UInt8) : Dinode where
  type := short (wordAt l 0 2)
  major := short (wordAt l 2 2)
  minor := short (wordAt l 4 2)
  nlink := short (wordAt l 6 2)
  size := wordAt l 8 4
  addrs := fun j => if j ≤ ndirect then wordAt l (12 + 4 * j) 4 else 0

@[simp] theorem length_shortLe (x : Int) : (shortLe x).length = 2 := length_toLe 2 _

theorem Dinode.length_encode (ip : Dinode) : ip.encode.length = dinodeSize := by
  rfl

theorem short_word_shortLe (xs ys : List UInt8) {k : Nat} (hk : k = xs.length) (x : Int) :
    short (wordAt (xs ++ (shortLe x ++ ys)) k 2) = short x := by
  rw [shortLe, wordAt_toLe xs ys hk (by omega)]
  unfold short
  omega

theorem Dinode.decode_encode {ip : Dinode} (h : ip.Fits) : Dinode.decode ip.encode = ip := by
  have haddrs : ∀ j, (Dinode.decode ip.encode).addrs j = ip.addrs j := by
    intro j
    simp only [Dinode.decode]
    split
    · rename_i hj
      have e : ip.encode = (shortLe ip.type ++ shortLe ip.major ++ shortLe ip.minor ++
          shortLe ip.nlink ++ toLe 4 ip.size) ++
          (List.range (ndirect + 1)).flatMap fun j => toLe 4 (ip.addrs j) := by
        simp only [Dinode.encode, append_assoc]
      have hlen : (shortLe ip.type ++ shortLe ip.major ++ shortLe ip.minor ++
          shortLe ip.nlink ++ toLe 4 ip.size).length = 12 := by simp
      rw [e, ← hlen, wordAt_append_right, wordAt,
        take_drop_flatMap (w := 4) _ _ (fun j _ => length_toLe 4 _) (by simpa using by omega),
        getElem_range, ofLe_toLe]
      exact Nat.mod_eq_of_lt (h.addrs j)
    · exact (h.rest j (by omega)).symm
  have e0 : short (wordAt ip.encode 0 2) = ip.type := by
    have := short_word_shortLe [] (shortLe ip.major ++ (shortLe ip.minor ++ (shortLe ip.nlink ++
      (toLe 4 ip.size ++ (List.range (ndirect + 1)).flatMap fun j => toLe 4 (ip.addrs j)))))
      rfl ip.type
    exact this.trans h.type
  have e1 : short (wordAt ip.encode 2 2) = ip.major := by
    have := short_word_shortLe (shortLe ip.type) (shortLe ip.minor ++ (shortLe ip.nlink ++
      (toLe 4 ip.size ++ (List.range (ndirect + 1)).flatMap fun j => toLe 4 (ip.addrs j))))
      (length_shortLe _).symm ip.major
    exact this.trans h.major
  have e2 : short (wordAt ip.encode 4 2) = ip.minor := by
    have := short_word_shortLe (shortLe ip.type ++ shortLe ip.major) (shortLe ip.nlink ++
      (toLe 4 ip.size ++ (List.range (ndirect + 1)).flatMap fun j => toLe 4 (ip.addrs j)))
      (k := 4) (by simp) ip.minor
    exact this.trans h.minor
  have e3 : short (wordAt ip.encode 6 2) = ip.nlink := by
    have := short_word_shortLe (shortLe ip.type ++ (shortLe ip.major ++ shortLe ip.minor))
      (toLe 4 ip.size ++ (List.range (ndirect + 1)).flatMap fun j => toLe 4 (ip.addrs j))
      (k := 6) (by simp) ip.nlink
    exact this.trans h.nlink
  have e4 : wordAt ip.encode 8 4 = ip.size := by
    have := wordAt_toLe (shortLe ip.type ++ (shortLe ip.major ++ (shortLe ip.minor ++
      shortLe ip.nlink))) ((List.range (ndirect + 1)).flatMap fun j => toLe 4 (ip.addrs j))
      (k := 8) (w := 4) (by simp) h.size
    exact this
  have ha : (Dinode.decode ip.encode).addrs = ip.addrs := funext haddrs
  obtain ⟨t, ma, mi, nl, sz, ad⟩ := ip
  simp only [Dinode.decode, Dinode.mk.injEq] at e0 e1 e2 e3 e4 ha ⊢
  exact ⟨e0, e1, e2, e3, e4, ha⟩

/-! ## struct dirent -/

/-- `struct dirent`; the name is `DIRSIZ` bytes, padded with zeros when it is shorter. -/
structure Dirent where
  inum : Nat
  name : List UInt8
  deriving DecidableEq

def Dirent.encode (de : Dirent) : List UInt8 := toLe 2 de.inum ++ de.name

def Dirent.decode (l : List UInt8) : Dirent := ⟨wordAt l 0 2, (l.drop 2).take dirsiz⟩

theorem Dirent.length_encode {de : Dirent} (h : de.name.length = dirsiz) :
    de.encode.length = direntSize := by
  rw [Dirent.encode, length_append, h]
  rfl

theorem Dirent.decode_encode {de : Dirent} (hi : de.inum < 2 ^ 16)
    (hn : de.name.length = dirsiz) : Dirent.decode de.encode = de := by
  have e0 : wordAt de.encode 0 2 = de.inum := wordAt_toLe [] de.name rfl (by omega)
  have e1 : (de.encode.drop 2).take dirsiz = de.name := by
    rw [Dirent.encode, drop_left' (length_toLe 2 _), take_of_length_le hn.le]
  rw [Dirent.decode, e0, e1]

end Xv6.Fs
