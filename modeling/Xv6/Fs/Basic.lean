/-
Blocks, inodes and directories of `kernel/fs.c` on the contents of the disk as the buffer
cache shows them.  An inode that a function works on is locked by its caller; the model hands
its fields in and returns them.
-/
import Mathlib.Data.Finset.Insert
import Xv6.Fs.Layout

namespace Xv6.Fs

open Bytes

/-- What the functions of `fs.c` work on: the superblock in memory, the log and the blocks.
`wrote` is history: the blocks that have been given to `log_write` since `begin_op`. -/
structure Disk where
  sb : Superblock
  log : Log.State
  blocks : Nat → Block
  wrote : Finset Nat

namespace Disk

def setBlock (d : Disk) (b : Nat) (blk : Block) : Disk :=
  { d with blocks := Function.update d.blocks b blk }

/-- The dinode of inode `i`, at `(struct dinode*)bp->data + i%IPB`. -/
def dinode (d : Disk) (i : Nat) : Dinode :=
  .decode (load (d.blocks (d.sb.iblock i)) (dinodeSize * (i % ipb)) dinodeSize)

def setDinode (d : Disk) (i : Nat) (ip : Dinode) : Disk :=
  d.setBlock (d.sb.iblock i)
    (store (d.blocks (d.sb.iblock i)) (dinodeSize * (i % ipb)) ip.encode)

/-- The bit of block `b` in the free map. -/
def used (d : Disk) (b : Nat) : Bool :=
  (byteAt (d.blocks (d.sb.bblock b)) (b % bpb / 8)).toNat.testBit (b % bpb % 8)

def setUsed (d : Disk) (b : Nat) (v : Bool) : Disk :=
  let blk := d.blocks (d.sb.bblock b)
  let byte := byteAt blk (b % bpb / 8)
  let m := UInt8.ofNat (2 ^ (b % bpb % 8))
  d.setBlock (d.sb.bblock b)
    (setByte blk (b % bpb / 8) (if v then byte ||| m else byte &&& ~~~m))

end Disk

/-- `log_write`; the block goes into the log with its contents of the commit. -/
def logWrite (d : Disk) (b : Nat) : Except Panic Disk := do
  let l ← Log.logWrite d.log b
  return { d with log := l, wrote := insert b d.wrote }

/-! ## Blocks -/

def bzero (d : Disk) (b : Nat) : Except Panic Disk := logWrite (d.setBlock b zeroes) b

/-- `balloc`: the first block whose bit is clear. -/
def balloc (d : Disk) : Except Panic (Nat × Disk) :=
  match (List.range d.sb.size).find? fun b => !d.used b with
  | none => .error .ballocOutOfBlocks
  | some b => do
      let d ← logWrite (d.setUsed b true) (d.sb.bblock b)
      let d ← bzero d b
      return (b, d)

def bfree (d : Disk) (b : Nat) : Except Panic Disk :=
  if d.used b then logWrite (d.setUsed b false) (d.sb.bblock b)
  else .error .freeingFreeBlock

/-! ## Inodes -/

def iupdate (d : Disk) (inum : Nat) (ip : Dinode) : Except Panic Disk :=
  logWrite (d.setDinode inum ip) (d.sb.iblock inum)

def Dinode.setAddr (ip : Dinode) (j b : Nat) : Dinode :=
  { ip with addrs := Function.update ip.addrs j b }

/-- The part of `bmap` that deals with `addrs[j]`: allocate the block if there is none. -/
def bmapAddr (d : Disk) (ip : Dinode) (j : Nat) : Except Panic (Nat × Dinode × Disk) :=
  if ip.addrs j = 0 then do
    let (b, d) ← balloc d
    return (b, ip.setAddr j b, d)
  else return (ip.addrs j, ip, d)

/-- The part of `bmap` that deals with entry `k` of the indirect block `ind`. -/
def bmapEntry (d : Disk) (ind k : Nat) : Except Panic (Nat × Disk) :=
  if u32At (d.blocks ind) (4 * k) = 0 then do
    let (b, d) ← balloc d
    let d ← logWrite (d.setBlock ind (setU32 (d.blocks ind) (4 * k) b)) ind
    return (b, d)
  else return (u32At (d.blocks ind) (4 * k), d)

def bmap (d : Disk) (ip : Dinode) (bn : Nat) : Except Panic (Nat × Dinode × Disk) :=
  if bn < ndirect then bmapAddr d ip bn
  else if bn - ndirect < nindirect then do
    let (ind, ip, d) ← bmapAddr d ip ndirect
    let (b, d) ← bmapEntry d ind (bn - ndirect)
    return (b, ip, d)
  else .error .bmapOutOfRange

/-- The first loop of `itrunc`, over the addresses below `n`. -/
def freeDirect (d : Disk) (ip : Dinode) : Nat → Except Panic (Dinode × Disk)
  | 0 => .ok (ip, d)
  | n + 1 => do
      let (ip, d) ← freeDirect d ip n
      if ip.addrs n ≠ 0 then do
        let d ← bfree d (ip.addrs n)
        return (ip.setAddr n 0, d)
      else return (ip, d)

/-- The second loop of `itrunc`, over the entries below `n` of the indirect block `a`. -/
def freeEntries (d : Disk) (a : Block) : Nat → Except Panic Disk
  | 0 => .ok d
  | n + 1 => do
      let d ← freeEntries d a n
      if u32At a (4 * n) ≠ 0 then bfree d (u32At a (4 * n)) else return d

def freeIndirect (d : Disk) (ip : Dinode) : Except Panic (Dinode × Disk) :=
  if ip.addrs ndirect ≠ 0 then do
    let d ← freeEntries d (d.blocks (ip.addrs ndirect)) nindirect
    let d ← bfree d (ip.addrs ndirect)
    return (ip.setAddr ndirect 0, d)
  else return (ip, d)

def itrunc (d : Disk) (inum : Nat) (ip : Dinode) : Except Panic (Dinode × Disk) := do
  let (ip, d) ← freeDirect d ip ndirect
  let (ip, d) ← freeIndirect d ip
  let ip := { ip with size := 0 }
  let d ← iupdate d inum ip
  return (ip, d)

/-! ## Inode content -/

/-- The bytes `either_copyin` gets from the source from byte `k` on, at most `m`: it stops at
the first page it cannot read, with what it has copied before in the buffer. -/
def fetch (src : Nat → Option UInt8) : Nat → Nat → List UInt8
  | _, 0 => []
  | k, m + 1 =>
    match src k with
    | none => []
    | some b => b :: fetch src (k + 1) m

/-- The bytes `either_copyout` gets to the destination, which can take byte `k` if `dst k`. -/
def deliver (dst : Nat → Bool) : Nat → List UInt8 → List UInt8
  | _, [] => []
  | k, b :: bs => if dst k then b :: deliver dst (k + 1) bs else []

/-- The loop of `readi`; the result is the return value and the bytes delivered.  Each round
reads at least one byte, so `n` rounds are enough. -/
def readLoop (dst : Nat → Bool) (off n : Nat) :
    Nat → Disk → Dinode → Nat → List UInt8 → Except Panic (Int × List UInt8 × Dinode × Disk)
  | 0, d, ip, tot, acc => .ok (tot, acc, ip, d)
  | k + 1, d, ip, tot, acc =>
    if tot < n then do
      let (b, ip, d) ← bmap d ip ((off + tot) / bsize)
      let m := min (n - tot) (bsize - (off + tot) % bsize)
      let got := deliver dst tot (load (d.blocks b) ((off + tot) % bsize) m)
      if got.length < m then return (-1, acc ++ got, ip, d)
      else readLoop dst off n k d ip (tot + m) (acc ++ got)
    else return (tot, acc, ip, d)

def readi (d : Disk) (ip : Dinode) (dst : Nat → Bool) (off n : Nat) :
    Except Panic (Int × List UInt8 × Dinode × Disk) :=
  if off > ip.size ∨ (off + n) % 2 ^ 32 < off then return (0, [], ip, d)
  else
    let n := if off + n > ip.size then ip.size - off else n
    readLoop dst off n n d ip 0 []

/-- The loop of `writei`.  A block whose copy fails midway keeps the bytes that were copied. -/
def writeLoop (src : Nat → Option UInt8) (off n : Nat) :
    Nat → Disk → Dinode → Nat → Except Panic (Nat × Dinode × Disk)
  | 0, d, ip, tot => .ok (tot, ip, d)
  | k + 1, d, ip, tot =>
    if tot < n then do
      let (b, ip, d) ← bmap d ip ((off + tot) / bsize)
      let m := min (n - tot) (bsize - (off + tot) % bsize)
      let got := fetch src tot m
      let d := d.setBlock b (store (d.blocks b) ((off + tot) % bsize) got)
      if got.length < m then return (tot, ip, d)
      else do
        let d ← logWrite d b
        writeLoop src off n k d ip (tot + m)
    else return (tot, ip, d)

def writei (d : Disk) (inum : Nat) (ip : Dinode) (src : Nat → Option UInt8) (off n : Nat) :
    Except Panic (Int × Dinode × Disk) :=
  if off > ip.size ∨ (off + n) % 2 ^ 32 < off then return (-1, ip, d)
  else if off + n > maxfile * bsize then return (-1, ip, d)
  else do
    let (tot, ip, d) ← writeLoop src off n n d ip 0
    let ip := if off + tot > ip.size then { ip with size := off + tot } else ip
    let d ← iupdate d inum ip
    return (tot, ip, d)

/-! ## Directories -/

/-- `strncmp` of `kernel/string.c`; what is read past the end of a string is its zero. -/
def strncmp : Nat → List UInt8 → List UInt8 → Int
  | 0, _, _ => 0
  | n + 1, p, q =>
    if p.headD 0 ≠ 0 ∧ p.headD 0 = q.headD 0 then strncmp n p.tail q.tail
    else (p.headD 0).toNat - (q.headD 0).toNat

/-- `strncpy(t, s, n)`: the string, padded with zeros to `n` bytes. -/
def strncpy (n : Nat) (s : List UInt8) : List UInt8 :=
  let t := (s.take n).takeWhile (· ≠ 0)
  t ++ List.replicate (n - t.length) 0

def namecmp (s t : List UInt8) : Int := strncmp dirsiz s t

def kernelDst : Nat → Bool := fun _ => true

def kernelSrc (l : List UInt8) : Nat → Option UInt8 := fun k => some (l.getD k 0)

/-- `readi(dp, 0, &de, off, sizeof(de))`, with the panic when it comes back short. -/
def readDirent (d : Disk) (dp : Dinode) (why : Panic) (off : Nat) :
    Except Panic (Dirent × Dinode × Disk) := do
  let (r, bytes, dp, d) ← readi d dp kernelDst off direntSize
  if r = direntSize then return (.decode bytes, dp, d) else throw why

/-- The loop of `dirlookup`, `dirlink` and `isdirempty` over the entries from `off` on: the
first entry that meets the condition, and its offset. -/
def scan (why : Panic) (found : Dirent → Bool) :
    Nat → Disk → Dinode → Nat → Except Panic (Option (Dirent × Nat) × Dinode × Disk)
  | 0, d, dp, _ => .ok (none, dp, d)
  | k + 1, d, dp, off =>
    if off < dp.size then do
      let (de, dp, d) ← readDirent d dp why off
      if found de then return (some (de, off), dp, d)
      else scan why found k d dp (off + direntSize)
    else return (none, dp, d)

def entries (dp : Dinode) : Nat := (dp.size + direntSize - 1) / direntSize

/-- `dirlookup` up to its call of `iget`: the inode number and the offset of the entry. -/
def dirfind (d : Disk) (dp : Dinode) (name : List UInt8) :
    Except Panic (Option (Nat × Nat) × Dinode × Disk) :=
  if dp.type ≠ tDir then .error .dirlookupNotDir
  else do
    let (r, dp, d) ← scan .dirlookupRead (fun de => de.inum ≠ 0 ∧ namecmp name de.name = 0)
      (entries dp) d dp 0
    return (r.map fun x => (x.1.inum, x.2), dp, d)

/-- `dirlink` after it has found that the name is not there. -/
def dirAppend (d : Disk) (dnum : Nat) (dp : Dinode) (name : List UInt8) (inum : Nat) :
    Except Panic (Dinode × Disk) := do
  let (r, dp, d) ← scan .dirlinkRead (fun de => de.inum = 0) (entries dp) d dp 0
  let off := match r with
    | some (_, off) => off
    | none => direntSize * entries dp
  let de : Dirent := ⟨inum % 2 ^ 16, strncpy dirsiz name⟩
  let (r, dp, d) ← writei d dnum dp (kernelSrc de.encode) off direntSize
  if r = direntSize then return (dp, d) else throw .dirlink

/-! ## The inode table -/

structure Inode where
  inum : Nat
  ref : Nat
  valid : Bool
  locked : Bool
  dinode : Dinode

structure Itable where
  inode : Nat → Inode
  disk : Disk

/-- How a call ends that does not return.  One process runs, so a lock that is not free when it is
wanted never will be. -/
inductive Stuck where
  | panic (why : Panic)
  | asleep

def unlocked {α : Type} (x : Except Panic α) : Except Stuck α := x.mapError .panic

namespace Itable

def set (t : Itable) (i : Nat) (ip : Inode) : Itable :=
  { t with inode := Function.update t.inode i ip }

/-- The table after a change of the contents of the locked inode `i`. -/
def update (t : Itable) (i : Nat) (ip : Dinode) (d : Disk) : Itable :=
  { t.set i { t.inode i with dinode := ip } with disk := d }

/-- `iget`: the entry that has the inode, or the first free one. -/
def iget (t : Itable) (inum : Nat) : Except Stuck (Nat × Itable) :=
  match (List.range ninode).find? fun i => 0 < (t.inode i).ref ∧ (t.inode i).inum = inum with
  | some i => .ok (i, t.set i { t.inode i with ref := (t.inode i).ref + 1 })
  | none =>
    match (List.range ninode).find? fun i => (t.inode i).ref = 0 with
    | some i => .ok (i, t.set i { t.inode i with inum := inum, ref := 1, valid := false })
    | none => .error (.panic .igetNoInodes)

def idup (t : Itable) (i : Nat) : Itable :=
  t.set i { t.inode i with ref := (t.inode i).ref + 1 }

def ilock (t : Itable) (i : Nat) : Except Stuck Itable :=
  let ip := t.inode i
  if ip.ref < 1 then .error (.panic .ilock)
  else if ip.locked then .error .asleep
  else if ip.valid then .ok (t.set i { ip with locked := true })
  else if (t.disk.dinode ip.inum).type = 0 then .error (.panic .ilockNoType)
  else .ok (t.set i { ip with locked := true, valid := true, dinode := t.disk.dinode ip.inum })

def iunlock (t : Itable) (i : Nat) : Except Stuck Itable :=
  let ip := t.inode i
  if ip.locked = false ∨ ip.ref < 1 then .error (.panic .iunlock)
  else .ok (t.set i { ip with locked := false })

/-- The part of `iput` that truncates and frees an inode without links. -/
def free (t : Itable) (i : Nat) : Except Stuck Itable :=
  let ip := t.inode i
  if ip.locked then .error .asleep
  else do
    let (di, d) ← unlocked (itrunc t.disk ip.inum ip.dinode)
    let d ← unlocked (iupdate d ip.inum { di with type := 0 })
    return { t.set i { ip with dinode := { di with type := 0 }, valid := false } with disk := d }

def iput (t : Itable) (i : Nat) : Except Stuck Itable := do
  let ip := t.inode i
  let t ← (if ip.ref = 1 ∧ ip.valid ∧ ip.dinode.nlink = 0 then t.free i else pure t)
  return t.set i { t.inode i with ref := (t.inode i).ref - 1 }

def iunlockput (t : Itable) (i : Nat) : Except Stuck Itable := do
  let t ← t.iunlock i
  t.iput i

/-- `dirlookup` in the locked inode `i`: the entry of the inode and the offset `*poff`. -/
def dirlookup (t : Itable) (i : Nat) (name : List UInt8) :
    Except Stuck (Option (Nat × Nat) × Itable) := do
  let (r, dp, d) ← unlocked (dirfind t.disk (t.inode i).dinode name)
  let t := t.update i dp d
  match r with
  | none => return (none, t)
  | some (inum, off) => do
      let (j, t) ← t.iget inum
      return (some (j, off), t)

def dirlink (t : Itable) (i : Nat) (name : List UInt8) (inum : Nat) :
    Except Stuck (Int × Itable) := do
  let (r, t) ← t.dirlookup i name
  match r with
  | some (j, _) => do
      let t ← t.iput j
      return (-1, t)
  | none => do
      let (dp, d) ← unlocked (dirAppend t.disk (t.inode i).inum (t.inode i).dinode name inum)
      return (0, t.update i dp d)

end Itable

end Xv6.Fs
