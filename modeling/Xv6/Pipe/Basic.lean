/-
`kernel/pipe.c`: a ring of bytes with a lock, and processes that write, read and close.

A location of a process is a point of the code at which it has just got the lock or at which a
loop tests its condition.  A process calls `pipewrite` and `piperead` through an open file and
keeps the file open until the call returns, and `fileclose` calls `pipeclose` for the last
reference: so an end is closed once, when no call is in progress on it.
-/
import Xv6.Lib.Monitor
import Xv6.Lib.Ring
import Xv6.Param

namespace Xv6

def pipesize : Nat := 512

namespace Pipe

/-- One of the two files of a pipe: whether it has a reference, and the calls in progress. -/
structure End where
  isOpen : Bool
  calls : Nat
  deriving DecidableEq, Repr

end Pipe

/-- `struct pipe` without its lock.  `accepted` and `consumed` record every byte that has been
stored into and taken from `data`, in order. -/
structure Pipe where
  data : Nat → UInt8
  nread : UInt32
  nwrite : UInt32
  readopen : Bool
  writeopen : Bool
  freed : Bool
  readEnd : Pipe.End
  writeEnd : Pipe.End
  accepted : List UInt8
  consumed : List UInt8

namespace Pipe

inductive Chan where
  | nread
  | nwrite
  deriving DecidableEq, Repr

/-- Where a process is.  `stored` says whether `pipewrite` has stored a byte since it last woke
the readers. -/
inductive Loc where
  | idle (ret : Int)
  | write (n : Int) (i : Nat) (stored : Bool)
  | writeFull (n : Int) (i : Nat)
  | writeDone (i : Nat)
  | read (n : Int)
  | copy (n : Int) (i : Nat)
  | readDone (i : Nat)
  | close (writable : Bool)
  | closeDone

inductive Input where
  | write (n : Int)
  | read (n : Int)
  | close (writable : Bool)
  | copyin (ch : Option UInt8)
  | copyout (done : Bool)

abbrev Act := Monitor.Act Pipe Loc Chan
abbrev State := Monitor.State Pipe Loc Chan
abbrev Event := Monitor.Event Input

variable (pi : Pipe)

/-- `pi->nwrite == pi->nread + PIPESIZE`, in 32 bits. -/
def isFull : Bool := pi.nwrite == pi.nread + UInt32.ofNat pipesize

def isEmpty : Bool := pi.nread == pi.nwrite

/-- `pi->data[pi->nwrite++ % PIPESIZE] = ch`. -/
def store (ch : UInt8) : Pipe :=
  { pi with
    data := Function.update pi.data (pi.nwrite.toNat % pipesize) ch
    nwrite := pi.nwrite + 1
    accepted := pi.accepted ++ [ch] }

/-- `ch = pi->data[pi->nread++ % PIPESIZE]`. -/
def take : Pipe :=
  { pi with
    nread := pi.nread + 1
    consumed := pi.consumed ++ [pi.data (pi.nread.toNat % pipesize)] }

def writeReturns : Pipe := { pi with writeEnd := { pi.writeEnd with calls := pi.writeEnd.calls - 1 } }

def readReturns : Pipe := { pi with readEnd := { pi.readEnd with calls := pi.readEnd.calls - 1 } }

def pipewrite (killed : Bool) (n : Int) (i : Nat) (inp : Input) : Act :=
  if i < n then
    if pi.readopen = false ∨ killed = true then .release pi.writeReturns (.idle (-1))
    else if pi.isFull then .wakeup .nread pi (.writeFull n i)
    else
      match inp with
      | .copyin (some ch) => .goto (pi.store ch) (.write n (i + 1) true)
      | _ => .wakeup .nread pi (.writeDone i)
  else .wakeup .nread pi (.writeDone i)

def piperead (killed : Bool) (n : Int) : Act :=
  if pi.isEmpty ∧ pi.writeopen = true then
    if killed then .release pi.readReturns (.idle (-1)) else .sleep .nread pi (.read n)
  else .goto pi (.copy n 0)

/-- The second loop of `piperead`.  A byte whose `copyout` fails has been taken but is not
counted. -/
def pipereadCopy (n : Int) (i : Nat) (inp : Input) : Act :=
  if i < n then
    if pi.isEmpty then .wakeup .nwrite pi (.readDone i)
    else
      match inp with
      | .copyout true => .goto pi.take (.copy n (i + 1))
      | _ => .wakeup .nwrite pi.take (.readDone i)
  else .wakeup .nwrite pi (.readDone i)

def pipeclose (writable : Bool) : Act :=
  if writable then .wakeup .nread { pi with writeopen := false } .closeDone
  else .wakeup .nwrite { pi with readopen := false } .closeDone

def inside (killed : Bool) (ℓ : Loc) (inp : Input) : Act :=
  match ℓ with
  | .write n i _ => pi.pipewrite killed n i inp
  | .writeFull n i => .sleep .nwrite pi (.write n i false)
  | .writeDone i => .release pi.writeReturns (.idle i)
  | .read n => pi.piperead killed n
  | .copy n i => pi.pipereadCopy n i inp
  | .readDone i => .release pi.readReturns (.idle i)
  | .close writable => pi.pipeclose writable
  | .closeDone => .release { pi with freed := !pi.readopen && !pi.writeopen } (.idle 0)
  | .idle ret => .release pi (.idle ret)

/-- A process below `NPROC` begins a call on an end that is open. -/
def outside (t : Nat) (ℓ : Loc) (inp : Input) : Monitor.Move Pipe Loc :=
  match ℓ, inp with
  | .idle _, .write n =>
    if t < nproc ∧ pi.writeEnd.isOpen = true then
      .acquire { pi with writeEnd := { pi.writeEnd with calls := pi.writeEnd.calls + 1 } }
        (.write n 0 false)
    else .stay
  | .idle _, .read n =>
    if t < nproc ∧ pi.readEnd.isOpen = true then
      .acquire { pi with readEnd := { pi.readEnd with calls := pi.readEnd.calls + 1 } } (.read n)
    else .stay
  | .idle _, .close true =>
    if t < nproc ∧ pi.writeEnd.isOpen = true ∧ pi.writeEnd.calls = 0 then
      .acquire { pi with writeEnd := ⟨false, 0⟩ } (.close true)
    else .stay
  | .idle _, .close false =>
    if t < nproc ∧ pi.readEnd.isOpen = true ∧ pi.readEnd.calls = 0 then
      .acquire { pi with readEnd := ⟨false, 0⟩ } (.close false)
    else .stay
  | _, _ => .stay

def client : Monitor.Client Pipe Loc Chan Input Empty where
  inside _ killed ℓ pi inp := .ok (pi.inside killed ℓ inp)
  outside t _ ℓ pi inp := .ok (pi.outside t ℓ inp)
  env pi _ := pi

def step : State → Event → Except Empty State := Monitor.step client nproc

/-- The pipe that `pipealloc` makes of a page with any contents. -/
def pipealloc (data : Nat → UInt8) : Pipe :=
  { data := data, nread := 0, nwrite := 0, readopen := true, writeopen := true, freed := false,
    readEnd := ⟨true, 0⟩, writeEnd := ⟨true, 0⟩, accepted := [], consumed := [] }

/-- A new pipe that no process is at work on. -/
structure Start (s : State) : Prop where
  data : ∃ data, s.data = pipealloc data
  holder : s.holder = none
  ctl : ∀ t, ∃ ret, s.ctl t = .out (.idle ret)

/-! ## The ring -/

def unread : List UInt8 := Ring.window pipesize pi.data pi.nread.toNat (pi.nwrite - pi.nread).toNat

/-- The pipe holds the bytes that have been accepted and not consumed, in order. -/
structure Sound : Prop where
  bound : (pi.nwrite - pi.nread).toNat ≤ pipesize
  bytes : pi.accepted = pi.consumed ++ pi.unread

variable {pi}

theorem isFull_iff : pi.isFull = true ↔ (pi.nwrite - pi.nread).toNat = pipesize := by
  have h1 := pi.nread.toNat_lt
  have h2 := pi.nwrite.toNat_lt
  rw [isFull, beq_iff_eq, ← UInt32.toNat_inj, UInt32.toNat_add, UInt32.toNat_sub, pipesize]
  have : (UInt32.ofNat 512).toNat = 512 := rfl
  omega

theorem isEmpty_iff : pi.isEmpty = true ↔ (pi.nwrite - pi.nread).toNat = 0 := by
  have h1 := pi.nread.toNat_lt
  have h2 := pi.nwrite.toNat_lt
  rw [isEmpty, beq_iff_eq, ← UInt32.toNat_inj, UInt32.toNat_sub]
  omega

theorem mod_pipesize (x : Nat) : x % 2 ^ 32 % pipesize = x % pipesize :=
  Nat.mod_mod_of_dvd x (by decide)

/-- The cell for the next byte is the one behind the unread bytes, also when a counter wraps. -/
theorem nwrite_cell : pi.nwrite.toNat % pipesize =
    (pi.nread.toNat + (pi.nwrite - pi.nread).toNat) % pipesize := by
  have h1 := pi.nread.toNat_lt
  have h2 := pi.nwrite.toNat_lt
  have h : pi.nwrite.toNat = (pi.nread.toNat + (pi.nwrite - pi.nread).toNat) % 2 ^ 32 := by
    rw [UInt32.toNat_sub]
    omega
  rw [h, mod_pipesize]

theorem Sound.store (h : pi.Sound) (hfull : pi.isFull = false) (ch : UInt8) :
    (pi.store ch).Sound := by
  have hne : (pi.nwrite - pi.nread).toNat ≠ pipesize := fun he => by
    rw [isFull_iff.2 he] at hfull
    cases hfull
  have hlt : (pi.nwrite - pi.nread).toNat < pipesize := lt_of_le_of_ne h.bound hne
  have hcount : (pi.nwrite + 1 - pi.nread).toNat = (pi.nwrite - pi.nread).toNat + 1 := by
    have hone : (1 : UInt32).toNat = 1 := rfl
    rw [UInt32.toNat_sub, pipesize] at hlt
    rw [UInt32.toNat_sub, UInt32.toNat_add, UInt32.toNat_sub]
    omega
  refine ⟨?_, ?_⟩
  · simp only [Pipe.store, hcount]
    exact hlt
  · simp only [Pipe.store, unread, hcount]
    rw [nwrite_cell, Ring.window_push hlt, ← List.append_assoc, h.bytes, unread]

theorem unread_eq_cons (hempty : pi.isEmpty = false) :
    pi.unread = pi.data (pi.nread.toNat % pipesize) :: pi.take.unread := by
  have hne : (pi.nwrite - pi.nread).toNat ≠ 0 := fun he => by
    rw [isEmpty_iff.2 he] at hempty
    cases hempty
  have hone : (1 : UInt32).toNat = 1 := rfl
  obtain ⟨m, hm⟩ := Nat.exists_eq_succ_of_ne_zero hne
  have hcount : (pi.nwrite - (pi.nread + 1)).toNat = m := by
    have h1 := pi.nread.toNat_lt
    rw [UInt32.toNat_sub] at hm
    rw [UInt32.toNat_sub, UInt32.toNat_add]
    omega
  rw [unread, hm, Ring.window_pop]
  simp only [unread, Pipe.take, hcount]
  congr 1
  refine Ring.window_congr ?_
  rw [UInt32.toNat_add, hone, mod_pipesize]

theorem length_unread : pi.unread.length = (pi.nwrite - pi.nread).toNat := by
  simp [unread, Ring.window]

theorem Sound.take (h : pi.Sound) (hempty : pi.isEmpty = false) : pi.take.Sound := by
  have hpop := unread_eq_cons hempty
  refine ⟨?_, ?_⟩
  · have hbound := h.bound
    rw [← length_unread, hpop, List.length_cons, length_unread] at hbound
    omega
  · show pi.accepted = pi.consumed ++ [pi.data (pi.nread.toNat % pipesize)] ++ pi.take.unread
    rw [h.bytes, hpop, List.append_assoc, List.singleton_append]

theorem Sound.pipewrite (h : pi.Sound) (killed : Bool) (n : Int) (i : Nat) (inp : Input) :
    (pi.pipewrite killed n i inp).data.Sound := by
  unfold Pipe.pipewrite
  split
  · split
    · exact ⟨h.bound, h.bytes⟩
    · split
      · exact h
      · rename_i hfull
        split
        · exact h.store (by simpa using hfull) _
        · exact h
  · exact h

theorem Sound.pipereadCopy (h : pi.Sound) (n : Int) (i : Nat) (inp : Input) :
    (pi.pipereadCopy n i inp).data.Sound := by
  unfold Pipe.pipereadCopy
  split
  · split
    · exact h
    · rename_i hempty
      have htake := h.take (by simpa using hempty)
      split
      · exact htake
      · exact htake
  · exact h

theorem Sound.inside (h : pi.Sound) (killed : Bool) (ℓ : Loc) (inp : Input) :
    (pi.inside killed ℓ inp).data.Sound := by
  cases ℓ with
  | write n i => exact h.pipewrite killed n i inp
  | copy n i => exact h.pipereadCopy n i inp
  | read n =>
    simp only [Pipe.inside, Pipe.piperead]
    split
    · split <;> exact ⟨h.bound, h.bytes⟩
    · exact h
  | close w => cases w <;> exact ⟨h.bound, h.bytes⟩
  | idle | writeFull | writeDone | readDone | closeDone => exact ⟨h.bound, h.bytes⟩

theorem Sound.outside (h : pi.Sound) (t : Nat) (ℓ : Loc) (inp : Input) :
    ((pi.outside t ℓ inp).data pi).Sound := by
  unfold Pipe.outside
  split
  · split <;> exact ⟨h.bound, h.bytes⟩
  · split <;> exact ⟨h.bound, h.bytes⟩
  · split <;> exact ⟨h.bound, h.bytes⟩
  · split <;> exact ⟨h.bound, h.bytes⟩
  · exact h

theorem sound_step {s s' : State} {e : Event} (h : s.data.Sound) (hs : step s e = .ok s') :
    s'.data.Sound :=
  (Monitor.step_eq_ok hs).data (A := Sound)
    (fun ha hd => by cases ha; exact hd.inside _ _ _)
    (fun hm hd => by cases hm; exact hd.outside _ _ _) id h

theorem sound_pipealloc (data : Nat → UInt8) : (pipealloc data).Sound :=
  ⟨by simp [pipealloc], by simp [pipealloc, unread, Ring.window]⟩

/-- Whatever processes write, read, close and kill, the unread bytes of a pipe are those that
have been accepted and not consumed, in order, and at most `PIPESIZE`. -/
theorem ring_sound {s s' : State} {es : List Event} (hs : Start s)
    (hrun : Run.exec step s es = .ok s') :
    (s'.data.nwrite - s'.data.nread).toNat ≤ pipesize ∧
      s'.data.accepted = s'.data.consumed ++ s'.data.unread := by
  obtain ⟨data, hdata⟩ := hs.data
  have hsound : s'.data.Sound :=
    Run.inv_of_exec (I := fun s => s.data.Sound) (fun _ _ _ => sound_step)
      (hdata ▸ sound_pipealloc data) hrun
  exact ⟨hsound.bound, hsound.bytes⟩

def fresh : State :=
  { data := pipealloc fun _ => 0, holder := none, ctl := fun _ => .out (.idle 0)
    killed := fun _ => false }

theorem start_fresh : Start fresh := ⟨⟨_, rfl⟩, rfl, fun _ => ⟨_, rfl⟩⟩

def twoBytes : List Event :=
  .run 0 (.write 2) :: .run 0 (.write 2) :: .run 0 (.copyin (some 7)) ::
    .run 0 (.copyin (some 8)) :: List.replicate 67 (.run 0 (.copyin none)) ++
  .run 1 (.read 1) :: List.replicate 3 (.run 1 (.copyout true))

theorem ring_sound_twoBytes :
    ∃ s', Start fresh ∧ Run.exec step fresh twoBytes = .ok s' ∧
      (s'.data.nwrite - s'.data.nread).toNat ≤ pipesize ∧
      s'.data.accepted = s'.data.consumed ++ s'.data.unread ∧
      s'.data.accepted = [7, 8] ∧ s'.data.consumed = [7] := by
  have hends : Run.ends step fresh twoBytes
      (fun s => decide (s.data.accepted = [7, 8] ∧ s.data.consumed = [7])) = true := by
    decide +kernel
  obtain ⟨s', hrun, hcheck⟩ := Run.of_ends hends
  obtain ⟨hbound, hbytes⟩ := ring_sound start_fresh hrun
  exact ⟨s', start_fresh, hrun, hbound, hbytes, of_decide_eq_true hcheck⟩

/-! ## What a read delivers -/

/-- `piperead` once it has stopped waiting, which holds the lock to its end: what it returns, the
bytes it delivers and the pipe it leaves.  The destination can take byte `i` if `dst i`. -/
def readLoop (dst : Nat → Bool) (n : Int) : Nat → Pipe → Nat → Nat × List UInt8 × Pipe
  | 0, pi, i => (i, [], pi)
  | k + 1, pi, i =>
    match pi.pipereadCopy n i (.copyout (dst i)) with
    | .goto pi' (.copy _ i') =>
      let (r, got, pi'') := readLoop dst n k pi' i'
      (r, pi.data (pi.nread.toNat % pipesize) :: got, pi'')
    | act => (i, [], act.data)

variable {n : Int} {k i : Nat}

theorem pipereadCopy_take (hi : (i : Int) < n) (hempty : pi.isEmpty = false) (done : Bool) :
    pi.pipereadCopy n i (.copyout done) = if done then .goto pi.take (.copy n (i + 1))
      else .wakeup .nwrite pi.take (.readDone i) := by
  unfold pipereadCopy
  rw [if_pos hi, hempty]
  cases done <;> rfl

/-- The rounds from byte `i` on deliver `j` bytes.  If a byte cannot be delivered, it is gone. -/
theorem readLoop_spec (dst : Nat → Bool) (pi : Pipe) (hk : (n - i).toNat ≤ k) : ∃ j ≤ pi.unread.length,
    (readLoop dst n k pi i).1 = i + j ∧ (readLoop dst n k pi i).2.1 = pi.unread.take j ∧
      ((∀ x, x < (n - i).toNat → x < pi.unread.length → dst (i + x) = true) ∧
          (readLoop dst n k pi i).2.2.unread = pi.unread.drop j ∨
        (∃ x, x < (n - i).toNat ∧ x < pi.unread.length ∧ dst (i + x) = false) ∧
          j < pi.unread.length ∧
          (readLoop dst n k pi i).2.2.unread = pi.unread.drop (j + 1)) := by
  induction k generalizing pi i with
  | zero => exact ⟨0, Nat.zero_le _, rfl, rfl, .inl ⟨fun x hx => by omega, rfl⟩⟩
  | succ k ih =>
    by_cases hi : (i : Int) < n
    · cases hempty : pi.isEmpty with
      | true =>
        have hnil : pi.unread.length = 0 := length_unread.trans (isEmpty_iff.1 hempty)
        unfold readLoop pipereadCopy
        rw [if_pos hi, hempty]
        exact ⟨0, Nat.zero_le _, rfl, rfl, .inl ⟨fun x _ hx => by omega, rfl⟩⟩
      | false =>
        rw [readLoop, pipereadCopy_take hi hempty, unread_eq_cons hempty]
        cases hdst : dst i with
        | false =>
          exact ⟨0, Nat.zero_le _, rfl, rfl, .inr ⟨⟨0, by omega, Nat.succ_pos _, hdst⟩,
            Nat.succ_pos _, rfl⟩⟩
        | true =>
          obtain ⟨j, hj, hret, hgot, hrest⟩ := ih pi.take (i := i + 1) (by omega)
          refine ⟨j + 1, Nat.succ_le_succ hj, hret.trans (by omega), congrArg (_ :: ·) hgot, ?_⟩
          have hadd : ∀ x, i + (x + 1) = i + 1 + x := fun x => by omega
          rcases hrest with ⟨hall, hrest⟩ | ⟨⟨x, hx, hlt, hbad⟩, hj', hrest⟩
          · refine .inl ⟨fun x hx hlt => ?_, hrest⟩
            cases x with
            | zero => exact hdst
            | succ x =>
              rw [hadd]
              exact hall x (by omega) (Nat.lt_of_succ_lt_succ hlt)
          · refine .inr ⟨⟨x + 1, by omega, Nat.succ_lt_succ hlt, ?_⟩, Nat.succ_lt_succ hj', hrest⟩
            rwa [hadd]
    · unfold readLoop pipereadCopy
      rw [if_neg hi]
      exact ⟨0, Nat.zero_le _, rfl, rfl, .inl ⟨fun x hx => by omega, rfl⟩⟩

/-- `piperead` delivers the first bytes, as many as it returns, and the others stay. -/
def ReadKeeps (dst : Nat → Bool) (n : Int) (pi : Pipe) : Prop :=
  let (r, got, pi') := readLoop dst n n.toNat pi 0
  got.length = r ∧ got = pi.unread.take r ∧ pi'.unread = pi.unread.drop r

/-- A read keeps the bytes it does not deliver exactly when the destination can take all those
it asks for and the pipe has. -/
theorem readKeeps_iff (pi : Pipe) (dst : Nat → Bool) (n : Int) :
    ReadKeeps dst n pi ↔ ∀ x, x < n.toNat → x < pi.unread.length → dst x = true := by
  obtain ⟨j, hj, hret, hgot, hrest⟩ := readLoop_spec dst pi (n := n) (i := 0) (k := n.toNat)
    (by omega)
  unfold ReadKeeps
  dsimp only
  rw [show (n - (0 : Nat)).toNat = n.toNat by omega] at hrest
  simp only [Nat.zero_add] at hret hrest
  rw [hret, hgot, List.length_take, Nat.min_eq_left hj]
  rcases hrest with ⟨hall, hrest⟩ | ⟨⟨x, hx, hlt, hbad⟩, hj', hrest⟩
  · exact ⟨fun _ => hall, fun _ => ⟨rfl, rfl, hrest⟩⟩
  · refine ⟨fun h => ?_, fun h => ?_⟩
    · have hlen := congrArg List.length (hrest.symm.trans h.2.2)
      rw [List.length_drop, List.length_drop] at hlen
      omega
    · rw [h x hx hlt] at hbad
      cases hbad

/-- A read of one byte to an address that is not mapped: it returns 0, and the byte is gone. -/
theorem not_readKeeps_unmapped : ((pipealloc fun _ => 0).store 7).unread = [7] ∧
    ¬ ReadKeeps (fun _ => false) 1 ((pipealloc fun _ => 0).store 7) := by
  refine ⟨by decide, fun h => ?_⟩
  have hgone : (readLoop (fun _ => false) 1 1 ((pipealloc fun _ => 0).store 7) 0).2.2.unread = [] :=
    by decide
  cases hgone.symm.trans h.2.2

end Pipe

end Xv6
