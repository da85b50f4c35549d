/-
Compile-time constants of the kernel and of mkfs, under the names of
`kernel/param.h`, `kernel/fs.h`, `kernel/riscv.h` and `kernel/memlayout.h`, and
the panics the modelled functions can raise.
-/
import Mathlib.Algebra.Group.Int.Defs
import Mathlib.Algebra.Group.Nat.Defs

namespace Xv6

/-! ## kernel/param.h -/

def nproc : Nat := 64
def nofile : Nat := 16
def maxarg : Nat := 32
def maxopblocks : Nat := 10
def logsize : Nat := maxopblocks * 3
def nbuf : Nat := maxopblocks * 3
def ninode : Nat := 50
def nfile : Nat := 100
def rootdev : Nat := 1

/-- `NQUEUE`, the number of ready queues; the priorities are their indices. -/
def nqueue : Nat := 3
def high : Nat := 0
def medium : Nat := 1
def low : Nat := 2

def tsticksHigh : Nat := 1
def tsticksMedium : Nat := 50
def tsticksLow : Nat := 200

/-- `MAX_MMR`, the number of mapped regions of a process (`kernel/proc.h`). -/
def maxMmr : Nat := 10

/-! ## kernel/stat.h: flags of mmap -/

def mapShared : Nat := 1
def mapPrivate : Nat := 2

/-! ## kernel/riscv.h and kernel/memlayout.h -/

def pgsize : Nat := 4096

/-- one beyond the highest virtual address, one bit less than Sv39 allows -/
def maxva : Nat := 2 ^ 38

/-- `TRAMPOLINE`, the highest page of every address space -/
def trampoline : Nat := maxva - pgsize

/-- `TRAPFRAME`, the page below the trampoline -/
def trapframe : Nat := trampoline - pgsize

def kernbase : Nat := 0x80000000
def phystop : Nat := kernbase + 128 * 1024 * 1024

/-- `etext`, the end of the kernel's code, from `kernel/kernel.sym` -/
def etext : Nat := 0x80009000

/-- `end`, the first address after the kernel, from `kernel/kernel.sym` -/
def kernelEnd : Nat := 0x80038000

/-- the page that holds trampoline.S, from `kernel/kernel.sym` -/
def trampolineCode : Nat := 0x80008000

def uart0 : Nat := 0x10000000
def virtio0 : Nat := 0x10001000
def plic : Nat := 0x0c000000

/-! ## kernel/fs.h and mkfs/mkfs.c -/

def bsize : Nat := 1024

/-- The number of log blocks mkfs writes to the superblock. -/
def nlog : Nat := logsize

/-- mkfs places the log right after the boot block and the superblock. -/
def logstart : Nat := 2

/-- A call of `panic` by a modelled function, one constructor for each message. -/
inductive Panic where
  /-- log.c, "too big a transaction" -/
  | tooBigATransaction
  /-- log.c, "log_write outside of trans" -/
  | logWriteOutsideOfTrans
  /-- log.c, "log.committing" -/
  | logCommitting
  /-- bio.c, "bget: no buffers" -/
  | bgetNoBuffers
  /-- bio.c, "bwrite" -/
  | bwrite
  /-- bio.c, "brelse" -/
  | brelse
  /-- fs.c, "balloc: out of blocks" -/
  | ballocOutOfBlocks
  /-- fs.c, "freeing free block" -/
  | freeingFreeBlock
  /-- fs.c, "iget: no inodes" -/
  | igetNoInodes
  /-- fs.c, "ilock" -/
  | ilock
  /-- fs.c, "ilock: no type" -/
  | ilockNoType
  /-- fs.c, "iunlock" -/
  | iunlock
  /-- fs.c, "bmap: out of range" -/
  | bmapOutOfRange
  /-- fs.c, "dirlookup not DIR" -/
  | dirlookupNotDir
  /-- fs.c, "dirlookup read" -/
  | dirlookupRead
  /-- fs.c, "dirlink read" -/
  | dirlinkRead
  /-- fs.c, "dirlink" -/
  | dirlink
  /-- kalloc.c, "kfree" -/
  | kfree
  /-- vm.c, "walk" -/
  | walk
  /-- vm.c, "mappages: size" -/
  | mappagesSize
  /-- vm.c, "mappages: remap" -/
  | mappagesRemap
  /-- vm.c, "uvmunmap: not aligned" -/
  | uvmunmapNotAligned
  /-- vm.c, "uvmunmap: walk" -/
  | uvmunmapWalk
  /-- vm.c, "uvmunmap: not mapped" -/
  | uvmunmapNotMapped
  /-- vm.c, "uvmunmap: not a leaf" -/
  | uvmunmapNotALeaf
  /-- vm.c, "inituvm: more than a page" -/
  | inituvmMoreThanAPage
  /-- vm.c, "freewalk: leaf" -/
  | freewalkLeaf
  /-- vm.c, "uvmcopy: pte should exist" -/
  | uvmcopyPteShouldExist
  /-- vm.c, "uvmcopy: page not present" -/
  | uvmcopyPageNotPresent
  /-- vm.c, "uvmclear" -/
  | uvmclear
  /-- exec.c, "loadseg: address should exist" -/
  | loadsegAddressShouldExist
  /-- proc.c, "init exiting" -/
  | initExiting
  /-- proc.c, "enqueue_at_tail" -/
  | enqueueAtTail
  /-- proc.c, "enqueue_at_head" -/
  | enqueueAtHead
  /-- proc.c, "dequeue" -/
  | dequeue
  /-- proc.c, "zombie exit" -/
  | zombieExit
  /-- file.c, "filedup" -/
  | filedup
  /-- file.c, "fileclose" -/
  | fileclose
  /-- virtio_disk.c, "free_desc 1" -/
  | freeDesc1
  /-- virtio_disk.c, "free_desc 2" -/
  | freeDesc2
  /-- virtio_disk.c, "virtio_disk_intr status" -/
  | virtioDiskIntrStatus
  /-- trap.c, "kerneltrap": the kernel itself faults on an address it has not mapped -/
  | kerneltrap
  /-- an access outside the array or page it was meant for; the code goes on with whatever
  memory it hit, the model stops -/
  | outOfBounds
  deriving DecidableEq, Repr

end Xv6
