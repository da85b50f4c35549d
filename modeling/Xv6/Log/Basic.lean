/-
The in-memory log of `kernel/log.c`: the reservation of log space by `begin_op`
and `end_op`, and the recording of modified blocks by `log_write`.  Each
function is the critical section it runs under `log.lock`.
-/
import Mathlib.Data.List.Basic
import Xv6.Param

namespace Xv6.Log

open Function List

variable {lh : LogHeader} {b : Nat}

/-- `struct logheader`.  Only the first `n` entries of `block` are in use. -/
structure LogHeader where
  n : Nat
  block : Nat → Nat

/-- `struct log` without its lock and its device number. -/
structure State where
  start : Nat
  size : Nat
  outstanding : Int
  committing : Bool
  lh : LogHeader

/-- The critical section of `begin_op`.  `none` is the case in which the caller
sleeps and tries again later. -/
def beginOp (l : State) : Option State :=
  if l.committing then none
  else if (l.lh.n : Int) + (l.outstanding + 1) * maxopblocks > logsize then none
  else some { l with outstanding := l.outstanding + 1 }

/-- The first critical section of `end_op`.  The last operation to leave sets
`committing` and goes on to call `commit`. -/
def endOp (l : State) : Except Panic State :=
  if l.committing then .error .logCommitting
  else if l.outstanding - 1 = 0 then
    .ok { l with outstanding := l.outstanding - 1, committing := true }
  else .ok { l with outstanding := l.outstanding - 1 }

/-- What `commit` and the second critical section of `end_op` leave behind: an
empty header and room for new operations. -/
def endCommit (l : State) : State :=
  { l with lh := { l.lh with n := 0 }, committing := false }

/-- Where the search loop of `log_write` stops: at the entry that already names
`b` (absorption), or at `n`. -/
def LogHeader.find (lh : LogHeader) (b : Nat) : Nat :=
  (List.range lh.n).findIdx (fun i => lh.block i == b)

/-- The header after the store `log.lh.block[i] = b` and the increment of `n`
when `i` is a new entry. -/
def LogHeader.record (lh : LogHeader) (b : Nat) : LogHeader :=
  let i := lh.find b
  { n := if i = lh.n then lh.n + 1 else lh.n
    block := update lh.block i b }

def logWrite (l : State) (b : Nat) : Except Panic State :=
  if l.lh.n ≥ logsize ∨ (l.lh.n : Int) ≥ l.size - 1 then .error .tooBigATransaction
  else if l.outstanding < 1 then .error .logWriteOutsideOfTrans
  else .ok { l with lh := l.lh.record b }

def LogHeader.blocks (lh : LogHeader) : List Nat := (List.range lh.n).map lh.block

namespace LogHeader

@[simp] theorem length_blocks (lh : LogHeader) : lh.blocks.length = lh.n := by
  simp [blocks]

theorem find_le (lh : LogHeader) (b : Nat) : lh.find b ≤ lh.n := by
  have h : (List.range lh.n).findIdx (fun i => lh.block i == b) ≤ (List.range lh.n).length :=
    findIdx_le_length
  simpa [find] using h

theorem block_find (h : lh.find b < lh.n) : lh.block (lh.find b) = b := by
  have hlt : (List.range lh.n).findIdx (fun i => lh.block i == b) < (List.range lh.n).length := by
    simpa [find] using h
  have hget := findIdx_getElem (w := hlt)
  simpa [find] using hget

theorem find_eq_n_iff (lh : LogHeader) (b : Nat) : lh.find b = lh.n ↔ b ∉ lh.blocks := by
  constructor
  · intro h hb
    obtain ⟨i, hi, hib⟩ := mem_map.mp hb
    have hall : ∀ x ∈ List.range lh.n, (fun i => lh.block i == b) x = false := by
      apply findIdx_eq_length.mp
      simpa [find] using h
    have := hall i hi
    simp [hib] at this
  · intro hb
    rcases Nat.lt_or_ge (lh.find b) lh.n with hlt | hge
    · exact absurd (mem_map.mpr
        ⟨lh.find b, mem_range.mpr hlt, block_find hlt⟩) hb
    · exact Nat.le_antisymm (find_le lh b) hge

theorem record_of_mem (h : b ∈ lh.blocks) : lh.record b = lh := by
  have hne : lh.find b ≠ lh.n := fun e => (find_eq_n_iff lh b).mp e h
  have hlt : lh.find b < lh.n := Nat.lt_of_le_of_ne (find_le lh b) hne
  have hblock : update lh.block (lh.find b) b = lh.block := by
    conv_rhs => rw [← update_eq_self (lh.find b) lh.block]
    rw [block_find hlt]
  simp only [record, if_neg hne, hblock]

theorem blocks_record_of_notMem (h : b ∉ lh.blocks) :
    (lh.record b).n = lh.n + 1 ∧ (lh.record b).blocks = lh.blocks ++ [b] := by
  have hfind : lh.find b = lh.n := (find_eq_n_iff lh b).mpr h
  have hn : (lh.record b).n = lh.n + 1 := by simp only [record, hfind, if_true]
  refine ⟨hn, ?_⟩
  unfold blocks
  rw [hn, range_succ, map_append]
  congr 1
  · apply map_congr_left
    intro i hi
    have hne : i ≠ lh.n := Nat.ne_of_lt (mem_range.mp hi)
    simp only [record, hfind, update_of_ne hne]
  · simp only [map_cons, map_nil, record, hfind, update_self]

theorem nodup_record (h : lh.blocks.Nodup) (b : Nat) : (lh.record b).blocks.Nodup := by
  by_cases hb : b ∈ lh.blocks
  · rwa [record_of_mem hb]
  · rw [(blocks_record_of_notMem hb).2, nodup_append]
    refine ⟨h, by simp, ?_⟩
    rintro x hx y hy rfl
    exact hb (mem_singleton.mp hy ▸ hx)

theorem mem_blocks_record (lh : LogHeader) (b x : Nat) :
    x ∈ (lh.record b).blocks ↔ x ∈ lh.blocks ∨ x = b := by
  by_cases hb : b ∈ lh.blocks
  · rw [record_of_mem hb]
    constructor
    · exact Or.inl
    · rintro (h | rfl)
      · exact h
      · exact hb
  · rw [(blocks_record_of_notMem hb).2, mem_append, mem_singleton]

end LogHeader

theorem logWrite_cases {l : State} {r : Except Panic State} (h : logWrite l b = r) :
    (r = .error .tooBigATransaction ∧ (l.lh.n ≥ logsize ∨ (l.lh.n : Int) ≥ l.size - 1)) ∨
    (r = .error .logWriteOutsideOfTrans ∧ l.outstanding < 1) ∨
    (r = .ok { l with lh := l.lh.record b } ∧ l.lh.n < logsize ∧
      (l.lh.n : Int) < l.size - 1 ∧ 1 ≤ l.outstanding) := by
  subst h
  unfold logWrite
  by_cases hbig : l.lh.n ≥ logsize ∨ (l.lh.n : Int) ≥ l.size - 1
  · exact Or.inl ⟨if_pos hbig, hbig⟩
  · rw [if_neg hbig]
    by_cases hout : l.outstanding < 1
    · exact Or.inr (Or.inl ⟨if_pos hout, hout⟩)
    · exact Or.inr (Or.inr ⟨if_neg hout, by omega, by omega, by omega⟩)

/-! ## Room in the log -/

/-- Calls of `log_write` for these blocks, one after the other, do not panic. -/
def State.Takes (l : State) : List Nat → Prop
  | [] => True
  | b :: bs => (l.lh.n < logsize ∧ (l.lh.n : Int) < l.size - 1 ∧ 1 ≤ l.outstanding) ∧
      State.Takes { l with lh := l.lh.record b } bs

/-- There is room for `n` blocks more. -/
def State.Spare (l : State) (n : Nat) : Prop :=
  l.lh.n + n ≤ logsize ∧ (l.lh.n : Int) + n ≤ l.size - 1

theorem LogHeader.n_record_le (lh : LogHeader) (b : Nat) : (lh.record b).n ≤ lh.n + 1 := by
  unfold record
  dsimp only
  split <;> omega

theorem logWrite_eq_ok {l l' : State} :
    logWrite l b = .ok l' ↔ l.Takes [b] ∧ l' = { l with lh := l.lh.record b } := by
  obtain ⟨he, h⟩ | ⟨he, h⟩ | ⟨he, hn, hsize, hout⟩ := logWrite_cases (l := l) (b := b) rfl
  · rw [he]
    exact ⟨nofun, fun ht => by have := ht.1.1; omega⟩
  · rw [he]
    exact ⟨nofun, fun ht => by have := ht.1.1; omega⟩
  · rw [he, Except.ok.injEq]
    exact ⟨fun h => ⟨⟨⟨hn, hsize, hout⟩, trivial⟩, h.symm⟩, fun h => h.2.symm⟩

theorem State.Spare.mono {l : State} {m n : Nat} (h : l.Spare n) (hm : m ≤ n) : l.Spare m :=
  ⟨by have := h.1; omega, by have := h.2; omega⟩

theorem State.Spare.takes {l : State} {bs : List Nat} (h : l.Spare bs.length)
    (hout : 1 ≤ l.outstanding) : l.Takes bs := by
  induction bs generalizing l with
  | nil => trivial
  | cons b bs ih =>
    have hrec := l.lh.n_record_le b
    obtain ⟨hn, hsize⟩ := h
    rw [length_cons] at hn hsize
    refine ⟨⟨by omega, by omega, hout⟩, ih ⟨?_, ?_⟩ hout⟩
    · dsimp only
      omega
    · dsimp only
      omega

end Xv6.Log
