/-
Processes that write through one `struct file`: `filewrite` of `kernel/file.c` on a regular
file.  Each process makes its calls one after the other; a schedule says which process takes
the next step.
-/
import Mathlib.Algebra.BigOperators.Group.Finset.Piecewise
import Mathlib.Algebra.Order.BigOperators.Group.Finset
import Xv6.Fs.Content

namespace Xv6.Fs
namespace Shared

open Function Finset

variable {rest : List (List UInt8)} {data : List UInt8}

/-- `max` in `filewrite`: the bytes one transaction can write. -/
def chunkMax : Nat := (maxopblocks - 1 - 1 - 2) / 2 * bsize

/-- Where a process is in the loop of `filewrite`; `r` is the result of its `writei`. -/
inductive Pc where
  | loop
  | begun
  | locked
  | wrote (r : Int)
  | advanced (r : Int)
  | unlocked (r : Int)
  deriving DecidableEq

/-- The buffers of the calls a process has still to finish, the first being the one it is in,
of which `i` bytes are written. -/
structure Writer where
  calls : List (List UInt8)
  i : Nat
  pc : Pc

/-- The inode and its lock, the offset of the file, the disk and the writers. -/
structure State where
  disk : Disk
  inum : Nat
  ip : Dinode
  lock : Option Nat
  off : Nat
  writers : Nat → Writer

def State.set (s : State) (p : Nat) (w : Writer) : State :=
  { s with writers := update s.writers p w }

def chunkLen (data : List UInt8) (i : Nat) : Nat :=
  if data.length - i > chunkMax then chunkMax else data.length - i

def step (s : State) (p : Nat) : Except Panic State :=
  let w := s.writers p
  match w.calls with
  | [] => .ok s
  | data :: rest =>
    match w.pc with
    | .loop =>
      if w.i < data.length then
        -- begin_op: the process sleeps while the log commits or has no room
        match Log.beginOp s.disk.log with
        | none => .ok s
        | some l => .ok ({ s with disk := { s.disk with log := l } }.set p { w with pc := .begun })
      else .ok (s.set p ⟨rest, 0, .loop⟩)
    | .begun =>
      -- ilock: the process sleeps while another one holds the lock
      if s.lock = none then .ok ({ s with lock := some p }.set p { w with pc := .locked })
      else .ok s
    | .locked => do
        let (r, ip, d) ← writei s.disk s.inum s.ip (fun k => data[w.i + k]?) s.off
          (chunkLen data w.i)
        return { s with disk := d, ip := ip }.set p { w with pc := .wrote r }
    | .wrote r =>
      let off := if r > 0 then (s.off + r.toNat) % 2 ^ 32 else s.off
      .ok ({ s with off := off }.set p { w with pc := .advanced r })
    | .advanced r => .ok ({ s with lock := none }.set p { w with pc := .unlocked r })
    | .unlocked r => do
      -- end_op, then the check of what writei returned; no writer is in a transaction while the
      -- log commits, so the commit is one step with the rest
      let l ← Log.endOp s.disk.log
      let l := if l.committing then Log.endCommit l else l
      let s := { s with disk := { s.disk with log := l } }
      if r ≠ chunkLen data w.i then return s.set p ⟨rest, 0, .loop⟩
      else return s.set p { w with i := w.i + r.toNat, pc := .loop }

def chunks (data : List UInt8) : List (List UInt8) :=
  if data = [] then [] else data.take chunkMax :: chunks (data.drop chunkMax)
  termination_by data.length
  decreasing_by
    have : 0 < data.length := List.length_pos_iff.2 ‹_›
    have : 0 < chunkMax := by decide
    simp only [List.length_drop]
    omega

/-- The chunks a writer has still to write, without the one that is written already while it
is on its way back to the loop. -/
def Writer.left (w : Writer) : List (List UInt8) :=
  match w.calls with
  | [] => []
  | data :: rest =>
    let i := match w.pc with
      | .loop | .begun | .locked => w.i
      | .wrote _ | .advanced _ | .unlocked _ => w.i + chunkLen data w.i
    chunks (data.drop i) ++ rest.flatMap chunks

def Writer.start (calls : List (List UInt8)) : Writer := ⟨calls, 0, .loop⟩

theorem chunks_nil : chunks [] = [] := by rw [chunks, if_pos rfl]

theorem chunks_drop {i : Nat} (h : i < data.length) :
    chunks (data.drop i) = (data.drop i).take (chunkLen data i) ::
      chunks (data.drop (i + chunkLen data i)) := by
  have hne : data.drop i ≠ [] := fun e => by
    have := congrArg List.length e
    simp only [List.length_drop, List.length_nil] at this
    omega
  rw [chunks, if_neg hne, List.drop_drop]
  unfold chunkLen
  split
  · rfl
  · have hlen : (data.drop i).length ≤ data.length - i := by simp
    rw [List.take_of_length_le (by omega), List.take_of_length_le hlen,
      List.drop_of_length_le (show data.length ≤ i + chunkMax by omega),
      List.drop_of_length_le (show data.length ≤ i + (data.length - i) by omega)]

theorem flatten_chunks (data : List UInt8) : (chunks data).flatten = data := by
  induction hn : data.length using Nat.strong_induction_on generalizing data with
  | _ n ih =>
    rw [chunks]
    split
    · rename_i h
      rw [h]
      rfl
    · rename_i h
      have hpos : 0 < data.length := List.length_pos_iff.2 h
      have hmax : 0 < chunkMax := by decide
      rw [List.flatten_cons, ih _ (by simp only [List.length_drop]; omega) _ rfl,
        List.take_append_drop]

theorem chunkLen_pos {i : Nat} (h : i < data.length) : 0 < chunkLen data i := by
  have : 0 < chunkMax := by decide
  unfold chunkLen
  split <;> omega

theorem chunkLen_le (data : List UInt8) (i : Nat) :
    chunkLen data i ≤ chunkMax ∧ chunkLen data i ≤ data.length - i := by
  unfold chunkLen
  split <;> omega

/-! ## The invariant -/

/-- Chunks with their writers, in the order in which they were written. -/
abbrev History := List (Nat × List UInt8)

def History.bytes (h : History) : List UInt8 := (h.map (·.2)).flatten

def History.of (h : History) (p : Nat) : List (List UInt8) :=
  (h.filter fun c => c.1 = p).map (·.2)

/-- What the place of a writer in the loop says about its chunk and about the lock. -/
def Writer.Ok (w : Writer) (lock : Option Nat) (p : Nat) : Prop :=
  match w.calls with
  | [] => w.pc = .loop ∧ lock ≠ some p
  | data :: _ =>
    match w.pc with
    | .loop => lock ≠ some p
    | .begun => w.i < data.length ∧ lock ≠ some p
    | .locked => w.i < data.length ∧ lock = some p
    | .wrote r | .advanced r => w.i < data.length ∧ r = chunkLen data w.i ∧ lock = some p
    | .unlocked r => w.i < data.length ∧ r = chunkLen data w.i ∧ lock ≠ some p

theorem Writer.Ok.congr {w : Writer} {lock lock' : Option Nat} {p : Nat}
    (h : lock' = some p ↔ lock = some p) (hok : w.Ok lock p) : w.Ok lock' p := by
  unfold Writer.Ok at hok ⊢
  simp only [ne_eq, h]
  exact hok

/-- What the holder of the lock has written and not yet added to the offset. -/
def State.pending (s : State) : Nat :=
  match s.lock with
  | none => 0
  | some p =>
    match (s.writers p).pc with
    | .wrote r => r.toNat
    | _ => 0

def State.view (s : State) : Volume := s.disk.view s.inum s.ip

/-- Of `n` writers with the calls `prog`, who found the file at offset `off₀`, the chunks of
`hist` are in the file from there on. -/
structure Inv (n : Nat) (prog : Nat → List (List UInt8)) (off₀ : Nat) (s : State)
    (hist : History) : Prop where
  good : Good s.disk s.inum s.ip
  inode : s.inum < s.disk.sb.ninodes
  size : off₀ + hist.bytes.length ≤ s.ip.size
  covered : ∀ k, k < hist.bytes.length → s.view.fileBlock s.inum ((off₀ + k) / bsize) ≠ 0
  content : s.view.fileBytes s.inum off₀ hist.bytes.length = hist.bytes
  small : ∀ c ∈ hist, 0 < c.2.length ∧ c.2.length ≤ chunkMax
  order : ∀ p, hist.of p ++ (s.writers p).left = (prog p).flatMap chunks
  ok : ∀ p, (s.writers p).Ok s.lock p
  idle : ∀ p, n ≤ p → (s.writers p).calls = []
  off : s.off + s.pending = off₀ + hist.bytes.length

section
variable {n : Nat} {prog : Nat → List (List UInt8)} {off₀ : Nat} {s : State} {hist : History}
  {p : Nat} {w : Writer}

@[simp] theorem State.set_self (s : State) (p : Nat) (w : Writer) : (s.set p w).writers p = w :=
  update_self ..

theorem State.set_ne (s : State) {p q : Nat} (w : Writer) (h : q ≠ p) :
    (s.set p w).writers q = s.writers q := update_of_ne h ..

theorem Inv.move (hI : Inv n prog off₀ s hist) (hp : p < n) (lock : Option Nat) (l : Log.State)
    (hlock : ∀ q, q ≠ p → (lock = some q ↔ s.lock = some q)) (hleft : w.left = (s.writers p).left)
    (hok : w.Ok lock p)
    (hpend : ({ s with lock := lock }.set p w).pending = s.pending) :
    Inv n prog off₀ ({ s with lock := lock, disk := { s.disk with log := l } }.set p w) hist := by
  have hw : ∀ q, q ≠ p → ({ s with lock := lock, disk := { s.disk with log := l }
      }.set p w).writers q = s.writers q := fun q hq => State.set_ne _ w hq
  refine ⟨hI.good.setLog l _, hI.inode, hI.size, hI.covered, hI.content, hI.small,
    fun q => ?_, fun q => ?_, fun q hq => ?_, ?_⟩
  · by_cases hq : q = p
    · rw [hq, State.set_self, hleft]
      exact hI.order p
    · rw [hw q hq]
      exact hI.order q
  · by_cases hq : q = p
    · rw [hq, State.set_self]
      exact hok
    · rw [hw q hq]
      exact (hI.ok q).congr (hlock q hq)
  · rw [hw q (by omega)]
    exact hI.idle q hq
  · have := hI.off
    rw [← hpend] at this
    exact this

/-! ### What is left to write fits in the file -/

theorem History.of_cons (c : Nat × List UInt8) (h : History) (p : Nat) :
    History.of (c :: h) p = if c.1 = p then c.2 :: h.of p else h.of p := by
  unfold History.of
  by_cases hc : c.1 = p
  · simp [hc]
  · simp [hc]

theorem History.of_append (h : History) (p q : Nat) (l : List UInt8) :
    History.of (h ++ [(q, l)]) p = if q = p then h.of p ++ [l] else h.of p := by
  unfold History.of
  by_cases hq : q = p
  · simp [hq]
  · simp [hq]

theorem History.bytes_append (h : History) (p : Nat) (l : List UInt8) :
    History.bytes (h ++ [(p, l)]) = h.bytes ++ l := by
  simp [History.bytes]

theorem History.length_bytes (h : History) (hn : ∀ c ∈ h, c.1 < n) :
    h.bytes.length = ∑ p ∈ Finset.range n, (h.of p).flatten.length := by
  induction h with
  | nil => simp [History.bytes, History.of]
  | cons c h ih =>
    have hc := hn c List.mem_cons_self
    have hterm : ∀ p, (History.of (c :: h) p).flatten.length =
        (if c.1 = p then c.2.length else 0) + (History.of h p).flatten.length := fun p => by
      rw [History.of_cons]
      split <;> simp
    have hb : History.bytes (c :: h) = c.2 ++ History.bytes h := rfl
    simp only [hterm, sum_add_distrib]
    rw [hb, List.length_append, ih fun c' hc' => hn c' (List.mem_cons_of_mem _ hc'),
      sum_ite_eq, if_pos (mem_range.2 hc)]

def total (n : Nat) (prog : Nat → List (List UInt8)) : Nat :=
  ∑ p ∈ Finset.range n, (prog p).flatten.length

theorem flatten_flatMap_chunks (l : List (List UInt8)) : (l.flatMap chunks).flatten = l.flatten := by
  induction l with
  | nil => rfl
  | cons a l ih =>
    rw [List.flatMap_cons, List.flatten_append, flatten_chunks, ih, List.flatten_cons]

theorem Inv.writer_lt (hI : Inv n prog off₀ s hist) (hprog : ∀ q, n ≤ q → prog q = [])
    {c : Nat × List UInt8} (hc : c ∈ hist) : c.1 < n := by
  by_contra hge
  have horder := hI.order c.1
  rw [hprog c.1 (by omega)] at horder
  have hnil : hist.of c.1 = [] := (List.append_eq_nil_iff.1 horder).1
  have hmem : c.2 ∈ hist.of c.1 :=
    List.mem_map.2 ⟨c, List.mem_filter.2 ⟨hc, by simp⟩, rfl⟩
  rw [hnil] at hmem
  exact (nomatch hmem)

theorem Inv.length_le (hI : Inv n prog off₀ s hist) (hprog : ∀ q, n ≤ q → prog q = [])
    (hp : p < n) :
    hist.bytes.length + (s.writers p).left.flatten.length ≤ total n prog := by
  have hsplit : ∀ q, (prog q).flatten.length =
      (hist.of q).flatten.length + (s.writers q).left.flatten.length := fun q => by
    rw [← flatten_flatMap_chunks, ← hI.order q, List.flatten_append, List.length_append]
  have hsingle := single_le_sum
    (f := fun q => (s.writers q).left.flatten.length) (fun q _ => Nat.zero_le _)
    (mem_range.2 hp)
  rw [total, hist.length_bytes fun c hc => hI.writer_lt hprog hc]
  simp only [hsplit, sum_add_distrib]
  omega

/-! ### The steps -/

theorem Inv.off_eq (hI : Inv n prog off₀ s hist) (h : s.pending = 0) :
    s.off = off₀ + hist.bytes.length := by
  have := hI.off
  omega

theorem left_cons (hcalls : w.calls = data :: rest) (hi : w.i < data.length)
    (hpc : w.pc = .loop ∨ w.pc = .begun ∨ w.pc = .locked) :
    w.left = (data.drop w.i).take (chunkLen data w.i) ::
      (chunks (data.drop (w.i + chunkLen data w.i)) ++ rest.flatMap chunks) := by
  rw [Writer.left, hcalls]
  rcases hpc with h | h | h <;> simp only [h] <;> rw [chunks_drop hi, List.cons_append]

section

variable (hI : Inv n prog off₀ s hist) (hprog : ∀ q, n ≤ q → prog q = [])
  (hroom : off₀ + total n prog ≤ maxfile * bsize) (hp : p < n)
  (hcalls : (s.writers p).calls = data :: rest)

include hI hprog hroom hp hcalls

/-- The step that writes: the chunk goes to the end of what is written. -/
theorem Inv.write (hpc : (s.writers p).pc = .locked) {r : Int} {ip : Dinode} {d : Disk}
    (h : writei s.disk s.inum s.ip (fun k => data[(s.writers p).i + k]?) s.off
      (chunkLen data (s.writers p).i) = .ok (r, ip, d)) :
    Inv n prog off₀ ({ s with disk := d, ip := ip }.set p { s.writers p with pc := .wrote r })
      (hist ++ [(p, (data.drop (s.writers p).i).take (chunkLen data (s.writers p).i))]) := by
  obtain ⟨hi, hlock⟩ : (s.writers p).i < data.length ∧ s.lock = some p := by
    have := hI.ok p
    simpa only [Writer.Ok, hcalls, hpc] using this
  have hpend : s.pending = 0 := by simp only [State.pending, hlock, hpc]
  have hoff := hI.off_eq hpend
  have hleft := left_cons hcalls hi (.inr (.inr hpc))
  obtain ⟨hmax, hlen⟩ := chunkLen_le data (s.writers p).i
  have hpos := chunkLen_pos hi
  generalize hn1 : chunkLen data (s.writers p).i = n1 at *
  generalize hc : (data.drop (s.writers p).i).take n1 = xs at *
  have hclen : xs.length = n1 := by rw [← hc]; simp only [List.length_take, List.length_drop]; omega
  have hcget : ∀ k, k < xs.length → data[(s.writers p).i + k]? = xs[k]? := fun k hk => by
    rw [← hc, List.getElem?_take_of_lt (by omega), List.getElem?_drop]
  have hfits := hI.length_le hprog hp
  rw [hleft, List.flatten_cons, List.length_append] at hfits
  have hsize := hI.size
  obtain ⟨hno, -⟩ | ⟨-, tot, k, hr, hread, hle, hall, hfields, hgood, hinode, hsb, hwrote,
      -⟩ := writei_spec hI.good hI.inode h
  · exact absurd ⟨by omega, by omega⟩ hno
  -- every byte of the chunk can be read, so all of it is written
  have hk : k = n1 := by
    by_contra hne
    have hnone := hread.stops (by have := hread.le; omega)
    have := hread.le
    rw [List.getElem?_eq_none_iff] at hnone
    omega
  subst hk
  have htot := hall rfl
  rw [htot] at hr hfields
  have hview : d.view s.inum ip = d.volume := by
    rw [← hinode]
    exact d.volume.setInode_eq_self _
  rw [← hview] at hwrote
  have hspan : ∀ o, off₀ ≤ o → o < off₀ + hist.bytes.length →
      span (fun k => data[(s.writers p).i + k]?) s.off k o = none := fun o _ ho => by
    rw [span, if_neg (by omega)]
  have hbytes := History.bytes_append hist p xs
  have hset : ∀ q, q ≠ p → ({ s with disk := d, ip := ip }.set p
      { s.writers p with pc := .wrote r }).writers q = s.writers q := fun q hq =>
    State.set_ne _ _ hq
  have hcover : ∀ j, j < hist.bytes.length + k →
      (d.view s.inum ip).fileBlock s.inum ((off₀ + j) / bsize) ≠ 0 := fun j hj => by
    by_cases hjl : j < hist.bytes.length
    · have hb := hI.covered j hjl
      rw [Volume.fileBlock, hwrote.grows _ _ hb]
      exact hb
    · have hidx : j - hist.bytes.length < xs.length := by omega
      refine (hwrote.put (off₀ + j) (xs[j - hist.bytes.length]) ?_).1
      rw [span, if_pos (by omega), show off₀ + j - s.off = j - hist.bytes.length by omega,
        hcget _ hidx, List.getElem?_eq_getElem hidx]
  refine ⟨hgood, by rw [State.set]; simpa only [hsb] using hI.inode, ?_, ?_, ?_, ?_, fun q => ?_,
    fun q => ?_, fun q hq => ?_, ?_⟩
  · rw [hbytes, List.length_append]
    have : ip.size = max s.ip.size (s.off + k) := by rw [hfields]
    simp only [State.set]
    omega
  · intro j hj
    rw [hbytes, List.length_append, hclen] at hj
    exact hcover j hj
  · rw [hbytes, List.length_append, Volume.fileBytes_add]
    congr 1
    · refine Eq.trans ?_ hI.content
      exact hwrote.fileBytes_kept fun j hj => ⟨hspan _ (by omega) (by omega), hI.covered j hj⟩
    · refine hwrote.fileBytes_put fun j hj => ?_
      rw [span, if_pos (by omega), show off₀ + hist.bytes.length + j - s.off = j by omega]
      exact hcget j hj
  · intro c' hc'
    rcases List.mem_append.1 hc' with hc' | hc'
    · exact hI.small c' hc'
    · rw [List.mem_singleton.1 hc']
      exact ⟨by simp only; omega, by simp only; omega⟩
  · rw [History.of_append]
    by_cases hq : q = p
    · have horder := hI.order p
      rw [hleft] at horder
      rw [if_pos hq.symm, hq, State.set_self, List.append_assoc, ← horder]
      simp only [Writer.left, hcalls, hn1, List.singleton_append]
    · rw [if_neg (Ne.symm hq), hset q hq]
      exact hI.order q
  · by_cases hq : q = p
    · rw [hq, State.set_self]
      simp only [Writer.Ok, hcalls, hn1]
      exact ⟨hi, hr, hlock⟩
    · rw [hset q hq]
      exact hI.ok q
  · rw [hset q (by omega)]
    exact hI.idle q hq
  · have hp' : ({ s with disk := d, ip := ip }.set p { s.writers p with pc := .wrote r }).pending =
        r.toNat := by
      simp only [State.pending, State.set, hlock, update_self]
    rw [hp', hbytes, List.length_append]
    simp only [State.set]
    omega

theorem Inv.advance {r : Int} (hpc : (s.writers p).pc = .wrote r) : Inv n prog off₀
      ({ s with off := if r > 0 then (s.off + r.toNat) % 2 ^ 32 else s.off }.set p
        { s.writers p with pc := .advanced r }) hist := by
  obtain ⟨hi, hr, hlock⟩ : (s.writers p).i < data.length ∧ r = chunkLen data (s.writers p).i ∧
      s.lock = some p := by
    have := hI.ok p
    simpa only [Writer.Ok, hcalls, hpc] using this
  have hpos := chunkLen_pos hi
  have hpend : s.pending = r.toNat := by simp only [State.pending, hlock, hpc]
  have hfits := hI.length_le hprog hp
  have hmax : maxfile * bsize < 2 ^ 32 := by decide
  have hoff := hI.off
  have hnew : (if r > 0 then (s.off + r.toNat) % 2 ^ 32 else s.off) =
      off₀ + hist.bytes.length := by
    rw [if_pos (by omega)]
    omega
  have hset : ∀ q, q ≠ p → ({ s with off := off₀ + hist.bytes.length }.set p
      { s.writers p with pc := .advanced r }).writers q = s.writers q := fun q hq =>
    State.set_ne _ _ hq
  rw [hnew]
  refine ⟨hI.good, hI.inode, hI.size, hI.covered, hI.content, hI.small, fun q => ?_, fun q => ?_,
    fun q hq => ?_, ?_⟩
  · by_cases hq : q = p
    · have := hI.order p
      simp only [Writer.left, hpc] at this
      rw [hq, State.set_self]
      simpa only [Writer.left] using this
    · rw [hset q hq]
      exact hI.order q
  · by_cases hq : q = p
    · rw [hq, State.set_self]
      simp only [hcalls]
      exact ⟨hi, hr, hlock⟩
    · rw [hset q hq]
      exact hI.ok q
  · rw [hset q (by omega)]
    exact hI.idle q hq
  · have hzero : ({ s with off := off₀ + hist.bytes.length }.set p
        { s.writers p with pc := .advanced r }).pending = 0 := by
      simp only [State.pending, State.set, hlock, update_self]
    rw [hzero]
    rfl

end

theorem State.pending_set (s : State) (lock : Option Nat) (w : Writer) (h : lock = s.lock)
    (hp : s.lock ≠ some p) : ({ s with lock := lock }.set p w).pending = s.pending := by
  subst h
  unfold State.pending
  simp only [State.set]
  split
  · rfl
  · rename_i q hq
    rw [update_of_ne]
    rintro rfl
    exact hp hq

theorem Writer.ok_next {lock : Option Nat} (rest : List (List UInt8)) (h : lock ≠ some p) :
    Writer.Ok ⟨rest, 0, .loop⟩ lock p := by
  cases rest with
  | nil => exact ⟨rfl, h⟩
  | cons _ _ => exact h

theorem Inv.step (hI : Inv n prog off₀ s hist) (hprog : ∀ q, n ≤ q → prog q = [])
    (hroom : off₀ + total n prog ≤ maxfile * bsize) {s' : State} (h : step s p = .ok s') :
    ∃ hist', Inv n prog off₀ s' hist' := by
  unfold Shared.step at h
  cases hw : s.writers p with
  | mk calls i pc =>
  rw [hw] at h
  cases calls with
  | nil =>
    cases h
    exact ⟨hist, hI⟩
  | cons data rest =>
    have hp : p < n := by
      by_contra hge
      have := hI.idle p (by omega)
      rw [hw] at this
      cases this
    have hcalls : (s.writers p).calls = data :: rest := by rw [hw]
    have hok := hI.ok p
    rw [hw] at hok
    cases pc with
    | loop =>
      have hlock : s.lock ≠ some p := hok
      dsimp only at h
      split at h
      · rename_i hi
        split at h
        · cases h
          exact ⟨hist, hI⟩
        · cases h
          refine ⟨hist, hI.move hp s.lock _ (fun _ _ => Iff.rfl) ?_ ⟨hi, hlock⟩
            (s.pending_set _ _ rfl hlock)⟩
          rw [hw]
          rfl
      · rename_i hi
        cases h
        refine ⟨hist, hI.move hp s.lock s.disk.log (fun _ _ => Iff.rfl) ?_
          (Writer.ok_next rest hlock) (s.pending_set _ _ rfl hlock)⟩
        have hdone : data.drop i = [] := List.drop_of_length_le (by omega)
        rw [hw]
        cases rest <;> simp [Writer.left, hdone, chunks_nil]
    | begun =>
      obtain ⟨hi, hlock⟩ := hok
      dsimp only at h
      split at h
      · rename_i hfree
        cases h
        refine ⟨hist, hI.move hp (some p) s.disk.log (fun q hq => ?_) ?_ ⟨hi, rfl⟩ ?_⟩
        · rw [hfree, Option.some.injEq]
          exact ⟨fun he => absurd he.symm hq, nofun⟩
        · rw [hw]
          rfl
        · simp only [State.pending, State.set, hfree, update_self]
      · cases h
        exact ⟨hist, hI⟩
    | locked =>
      obtain ⟨⟨r, ip, d⟩, hwrite, h⟩ := Run.bind_eq_ok.1 h
      cases h
      have hafter := hI.write hprog hroom hp hcalls (by rw [hw]) (by rw [hw]; exact hwrite)
      rw [hw] at hafter
      exact ⟨_, hafter⟩
    | wrote r =>
      cases h
      have hafter := hI.advance hprog hroom hp hcalls (by rw [hw])
      rw [hw] at hafter
      exact ⟨hist, hafter⟩
    | advanced r =>
      obtain ⟨hi, hr, hlock⟩ := hok
      cases h
      refine ⟨hist, hI.move hp none s.disk.log (fun q hq => ?_) ?_ ⟨hi, hr, nofun⟩ ?_⟩
      · rw [hlock, Option.some.injEq]
        exact ⟨nofun, fun he => absurd he.symm hq⟩
      · rw [hw]
        rfl
      · simp only [State.pending, State.set, hlock, hw]
    | unlocked r =>
      obtain ⟨hi, hr, hlock⟩ := hok
      obtain ⟨l, -, h⟩ := Run.bind_eq_ok.1 h
      dsimp only at h
      rw [if_neg (by rw [hr]; simp)] at h
      cases h
      refine ⟨hist, hI.move hp s.lock _ (fun _ _ => Iff.rfl) ?_ hlock
        (s.pending_set _ _ rfl hlock)⟩
      rw [hw]
      simp only [Writer.left, hr, Int.toNat_natCast]

end

/-! ## Whole runs -/

/-- `n` processes are about to make the calls `prog`, with room for all their bytes. -/
structure Start (n : Nat) (prog : Nat → List (List UInt8)) (s : State) : Prop where
  good : Good s.disk s.inum s.ip
  inode : s.inum < s.disk.sb.ninodes
  free : s.lock = none
  writers : ∀ p, s.writers p = .start (prog p)
  idle : ∀ p, n ≤ p → prog p = []
  room : s.off + total n prog ≤ maxfile * bsize

/-- From `off₀` on the file holds the chunks of `hist`, of each writer in its order. -/
structure Interleaved (n : Nat) (prog : Nat → List (List UInt8)) (off₀ : Nat) (s : State)
    (hist : History) : Prop where
  small : ∀ c ∈ hist, 0 < c.2.length ∧ c.2.length ≤ chunkMax
  order : ∀ p, hist.of p ++ (s.writers p).left = (prog p).flatMap chunks
  content : s.view.fileBytes s.inum off₀ hist.bytes.length = hist.bytes
  off : s.lock = none → s.off = off₀ + hist.bytes.length
  done : (∀ p, (s.writers p).calls = []) →
    s.off = off₀ + total n prog ∧ ∀ p, hist.of p = (prog p).flatMap chunks

section
variable {n : Nat} {prog : Nat → List (List UInt8)} {off₀ : Nat} {s : State} {hist : History}

theorem Start.inv (h : Start n prog s) (hoff : s.off ≤ s.ip.size) : Inv n prog s.off s [] := by
  refine ⟨h.good, h.inode, hoff, fun k hk => absurd hk k.not_lt_zero, rfl, fun c hc => (nomatch hc),
    fun p => ?_, fun p => ?_, fun p hp => ?_, ?_⟩
  · rw [h.writers p]
    cases hcalls : prog p with
    | nil => rfl
    | cons data rest => simp [History.of, Writer.left, Writer.start]
  · rw [h.writers p]
    exact Writer.ok_next (prog p) (by rw [h.free]; exact nofun)
  · rw [h.writers p, h.idle p hp]
    rfl
  · rw [State.pending, h.free]
    rfl

theorem Inv.free (h : Inv n prog off₀ s hist) (hdone : ∀ p, (s.writers p).calls = []) :
    s.lock = none := by
  cases hl : s.lock with
  | none => rfl
  | some p =>
    have hok := h.ok p
    simp only [Writer.Ok, hdone p] at hok
    exact absurd hl hok.2

theorem Inv.interleaved (h : Inv n prog off₀ s hist) (hprog : ∀ q, n ≤ q → prog q = []) :
    Interleaved n prog off₀ s hist := by
  have hoff : s.lock = none → s.off = off₀ + hist.bytes.length := fun hl =>
    h.off_eq (by rw [State.pending, hl])
  refine ⟨h.small, h.order, h.content, hoff, fun hdone => ?_⟩
  have hall : ∀ p, hist.of p = (prog p).flatMap chunks := fun p => by
    have horder := h.order p
    rwa [Writer.left, hdone p, List.append_nil] at horder
  refine ⟨?_, hall⟩
  rw [hoff (h.free hdone), hist.length_bytes fun c hc => h.writer_lt hprog hc, total]
  simp only [hall, flatten_flatMap_chunks]

/-- Writers that start inside the file leave it, in any interleaving of their calls, with their
chunks one after the other, those of each writer in its order. -/
theorem interleaved_of_start (h : Start n prog s) (hoff : s.off ≤ s.ip.size) {es : List Nat}
    {s' : State} (hrun : Run.exec step s es = .ok s') :
    ∃ hist, Interleaved n prog s.off s' hist := by
  have hstart : ∃ hist, Inv n prog s.off s hist := ⟨[], h.inv hoff⟩
  have hstep : ∀ x p x', (∃ hist, Inv n prog s.off x hist) → step x p = .ok x' →
      ∃ hist, Inv n prog s.off x' hist := fun x p x' ⟨_, hI⟩ hs => hI.step h.idle h.room hs
  obtain ⟨hist, hI⟩ := Run.inv_of_exec hstep hstart hrun
  exact ⟨hist, hI.interleaved h.idle⟩

end

/-! ## An offset behind the end of the file -/

def emptyInode : Dinode := { Dinode.zero with type := tFile, nlink := 1 }

theorem fits_emptyInode : emptyInode.Fits :=
  ⟨by decide, by decide, by decide, by decide, by decide,
    fun _ => (by decide : (0 : Nat) < 2 ^ 32), fun _ _ => rfl⟩

/-- An empty file on an image with no other, at offset `off`; the first process writes `data`. -/
def emptyFile (off : Nat) (data : List UInt8) : State where
  disk := .blank
  inum := 2
  ip := emptyInode
  lock := none
  off := off
  writers := fun p => .start (if p = 0 then [data] else [])

theorem start_emptyFile {off : Nat} (h : off + data.length ≤ maxfile * bsize) :
    Start 1 (fun p => if p = 0 then [data] else []) (emptyFile off data) := by
  have htype : emptyInode.type ≠ 0 := by decide
  have hinode : 2 < Disk.blank.sb.ninodes := by decide
  refine ⟨good_blank fits_emptyInode htype fun _ => rfl, hinode, rfl, fun _ => rfl, fun p hp => ?_,
    ?_⟩
  · exact if_neg (by omega)
  · simpa [total, emptyFile] using h

theorem step_others {s s' : State} {p q : Nat} (h : step s p = .ok s') (hq : q ≠ p) :
    s'.writers q = s.writers q := by
  unfold step at h
  dsimp only at h
  split at h
  · cases h
    rfl
  · split at h
    · split at h
      · split at h <;> cases h
        · rfl
        · exact State.set_ne _ _ hq
      · cases h
        exact State.set_ne _ _ hq
    · split at h <;> cases h
      · exact State.set_ne _ _ hq
      · rfl
    · obtain ⟨_, -, h⟩ := Run.bind_eq_ok.1 h
      cases h
      exact State.set_ne _ _ hq
    · cases h
      exact State.set_ne _ _ hq
    · cases h
      exact State.set_ne _ _ hq
    · obtain ⟨_, -, h⟩ := Run.bind_eq_ok.1 h
      split at h <;> cases h <;> exact State.set_ne _ _ hq

/-- After another process has truncated the file the offset can be behind its end: then nothing
is written and the offset stays. -/
theorem not_interleaved_behindEnd :
    Start 1 (fun p => if p = 0 then [[7]] else []) (emptyFile 1 [7]) ∧
    ∃ s', Run.exec step (emptyFile 1 [7]) [0, 0, 0, 0, 0, 0] = .ok s' ∧
      (∀ p, (s'.writers p).calls = []) ∧
      ∀ hist, ¬ Interleaved 1 (fun p => if p = 0 then [[7]] else []) 1 s' hist := by
  have hends : Run.ends step (emptyFile 1 [7]) [0, 0, 0, 0, 0, 0]
      (fun s' => s'.off == 1 && (s'.writers 0).calls.isEmpty) = true := by decide +kernel
  obtain ⟨s', hrun, hcheck⟩ := Run.of_ends hends
  simp only [Bool.and_eq_true, beq_iff_eq, List.isEmpty_iff] at hcheck
  have hothers : ∀ p, p ≠ 0 → (s'.writers p).calls = [] := by
    refine Run.inv_of_exec (I := fun x => ∀ p, p ≠ 0 → (x.writers p).calls = []) ?_ ?_ hrun
    · intro x e x' hx hs p hp
      by_cases he : p = e
      · have hnil := hx p hp
        rw [step, ← he, hnil] at hs
        cases hs
        exact hnil
      · rw [step_others hs he]
        exact hx p hp
    · exact fun p hp => if_neg hp
  have hidle : ∀ p, (s'.writers p).calls = [] := by
    intro p
    by_cases hp : p = 0
    · rw [hp]
      exact hcheck.2
    · exact hothers p hp
  refine ⟨start_emptyFile (by decide), s', hrun, hidle, fun hist h => ?_⟩
  have hoff := (h.done hidle).1
  rw [hcheck.1] at hoff
  simp [total] at hoff

theorem interleaved_of_start_atEnd :
    ∃ s', Run.exec step (emptyFile 0 [7]) [0, 0, 0, 0, 0, 0] = .ok s' ∧ s'.off = 1 ∧
      ∃ hist, Interleaved 1 (fun p => if p = 0 then [[7]] else []) 0 s' hist := by
  have hends : Run.ends step (emptyFile 0 [7]) [0, 0, 0, 0, 0, 0] (fun s' => s'.off == 1) =
      true := by decide +kernel
  obtain ⟨s', hrun, hcheck⟩ := Run.of_ends hends
  exact ⟨s', hrun, beq_iff_eq.1 hcheck,
    interleaved_of_start (start_emptyFile (by decide)) (Nat.le_refl 0) hrun⟩

end Shared
end Xv6.Fs
