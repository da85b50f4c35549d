/-
Commit and recovery of `kernel/log.c` on a disk that can lose power.

A machine is the disk, the buffer cache, the in-memory log and the number of
block writes the disk still completes before the power fails.  `bwrite` is the
only place where the disk changes; when no write is left it stops the program
and only the disk survives.  The cache holds the contents of a block until it is
evicted; the pins of `bpin` appear as the rule that a block named by the log
header is not evicted.
-/
import Xv6.Lib.Block
import Xv6.Lib.Crash
import Xv6.Log.Basic

namespace Xv6.Log

open Bytes Crash Function

instance : NeZero bsize := ⟨by decide⟩

abbrev Block := Bytes.Block bsize

abbrev Disk := Nat → Block

structure Machine where
  disk : Disk
  cache : Nat → Option Block
  log : State
  /-- Block writes left before the power fails. -/
  fuel : Nat

abbrev M (α : Type) := CrashM Machine Disk α

/-- The contents of a block as the next `bread` returns them. -/
def Machine.view (m : Machine) (b : Nat) : Block := (m.cache b).getD (m.disk b)

def bread (b : Nat) : M Block := fun m =>
  .ok (m.view b, { m with cache := update m.cache b (some (m.view b)) })

/-- Store `d` in the buffer of block `b` and call `bwrite` on it. -/
def bwrite (b : Nat) (d : Block) : M Unit := fun m =>
  match m.fuel with
  | 0 => .error m.disk
  | k + 1 =>
    .ok ((), { m with
      disk := update m.disk b d
      cache := update m.cache b (some d)
      fuel := k })

def getLog : M State := fun m => .ok (m.log, m)

def setHeader (lh : LogHeader) : M Unit := fun m =>
  .ok ((), { m with log := { m.log with lh := lh } })

/-- The header block with `n` and the first `n` block numbers of `lh` stored in
it; the bytes of later entries stay. -/
def encodeHeader (lh : LogHeader) (b : Block) : Block :=
  (List.range lh.n).foldl (fun b i => setU32 b (4 * (i + 1)) (lh.block i)) (setU32 b 0 lh.n)

/-- The header stored in a block.  A negative count, which runs none of the
loops over the entries, is read as 0. -/
def decodeHeader (b : Block) : LogHeader :=
  { n := if u32At b 0 < 2 ^ 31 then u32At b 0 else 0
    block := fun i => u32At b (4 * (i + 1)) }

def writeLog : M Unit := do
  let l ← getLog
  loop (fun tail => do
    let _ ← bread (l.start + tail + 1)
    let src ← bread (l.lh.block tail)
    bwrite (l.start + tail + 1) src) l.lh.n

def writeHead : M Unit := do
  let l ← getLog
  let buf ← bread l.start
  bwrite l.start (encodeHeader l.lh buf)

def readHead : M Unit := do
  let l ← getLog
  let buf ← bread l.start
  setHeader (decodeHeader buf)

def installTrans : M Unit := do
  let l ← getLog
  loop (fun tail => do
    let lbuf ← bread (l.start + tail + 1)
    let _ ← bread (l.lh.block tail)
    bwrite (l.lh.block tail) lbuf) l.lh.n

def clearHeader : M Unit := do
  let l ← getLog
  setHeader { l.lh with n := 0 }

def commit : M Unit := do
  let l ← getLog
  if l.lh.n > 0 then do
    writeLog
    writeHead
    installTrans
    clearHeader
    writeHead
  else pure ()

def recoverFromLog : M Unit := do
  readHead
  installTrans
  clearHeader
  writeHead

/-- The machine at the call of `initlog`: nothing cached, the log header zero. -/
def bootMachine (start size : Nat) (d : Disk) (fuel : Nat) : Machine :=
  { disk := d, cache := fun _ => none, fuel := fuel
    log := { start := start, size := size, outstanding := 0, committing := false
             lh := { n := 0, block := fun _ => 0 } } }

/-- Boot on the surviving disk with power for `fuel` block writes. -/
def initlog (start size : Nat) (d : Disk) (fuel : Nat) : Except Disk Machine :=
  (recoverFromLog (bootMachine start size d fuel)).map Prod.snd

/-- A file-system operation changes one block: `bread`, store `d` in the buffer,
`log_write`. -/
def logBlock (m : Machine) (b : Nat) (d : Block) : Except Panic Machine :=
  (logWrite m.log b).map fun l =>
    { m with log := l, cache := update m.cache b (some d) }

def logBlocks : Machine → List (Nat × Block) → Except Panic Machine
  | m, [] => .ok m
  | m, w :: ws =>
    match logBlock m w.1 w.2 with
    | .error p => .error p
    | .ok m' => logBlocks m' ws

/-! ## The encoded header -/

theorem u32At_foldl_setU32 (f : Nat → Nat) (b : Block) {n i : Nat} (hn : n ≤ 254)
    (hf : ∀ j, j < n → f j < 2 ^ 32) :
    (u32At ((List.range n).foldl (fun b i => setU32 b (4 * (i + 1)) (f i)) b) 0 = u32At b 0) ∧
    (i < n → u32At ((List.range n).foldl (fun b i => setU32 b (4 * (i + 1)) (f i)) b)
      (4 * (i + 1)) = f i) := by
  have hb : bsize = 1024 := rfl
  induction n with
  | zero => exact ⟨rfl, fun h => absurd h (Nat.not_lt_zero i)⟩
  | succ n ih =>
    obtain ⟨ih0, ihi⟩ := ih (by omega) (fun j hj => hf j (by omega))
    rw [List.range_succ, List.foldl_append, List.foldl_cons, List.foldl_nil]
    constructor
    · rw [u32At_setU32_ne _ (by omega) (by omega) (by omega), ih0]
    · intro hi
      rcases Nat.lt_or_ge i n with hlt | hge
      · rw [u32At_setU32_ne _ (by omega) (by omega) (by omega), ihi hlt]
      · have : i = n := by omega
        subst this
        exact u32At_setU32_self _ (by omega) (hf i (by omega))

theorem decode_encodeHeader {lh : LogHeader} (b : Block) (hn : lh.n ≤ logsize)
    (hb : ∀ i, i < lh.n → lh.block i < 2 ^ 32) :
    (decodeHeader (encodeHeader lh b)).n = lh.n ∧
    ∀ i, i < lh.n → (decodeHeader (encodeHeader lh b)).block i = lh.block i := by
  have hlog : logsize = 30 := rfl
  have hbs : bsize = 1024 := rfl
  constructor
  · have h0 := (u32At_foldl_setU32 (i := 0) lh.block (setU32 b 0 lh.n) (n := lh.n)
      (by omega) hb).1
    have hn0 : u32At (setU32 b 0 lh.n) 0 = lh.n := u32At_setU32_self b (by omega) (by omega)
    show (if u32At (encodeHeader lh b) 0 < 2 ^ 31 then u32At (encodeHeader lh b) 0 else 0) = lh.n
    rw [encodeHeader, h0, hn0, if_pos (by omega)]
  · intro i hi
    exact (u32At_foldl_setU32 lh.block (setU32 b 0 lh.n) (by omega) hb).2 hi

end Xv6.Log
