/-
The numbers of processes: how `kernel/proc.c` hands them out, and what `procinfo` shows of the
process table to the user.
-/
import Mathlib.Data.List.TakeWhile
import Xv6.Lib.Codec
import Xv6.Proc.Basic
import Xv6.Vm.View

namespace Xv6.Pid

open Function List Run

/-! ## allocpid -/

/-- The pids of the slots that are not UNUSED, and `nextpid`, an `int`. -/
structure Table where
  pid : Nat → Option Int
  nextpid : Int

def boot : Table := ⟨fun _ => none, 1⟩

namespace Table

def allocpid (t : Table) : Int × Table :=
  (t.nextpid, { t with nextpid := Int.bmod (t.nextpid + 1) (2 ^ 32) })

/-- The slot that `allocproc` takes, if there is one. -/
def slot (t : Table) : Option Nat := (range nproc).find? fun i => (t.pid i).isNone

/-- `allocproc`, up to the allocation of memory -/
def allocproc (t : Table) : Table :=
  match t.slot with
  | none => t
  | some i => { t.allocpid.2 with pid := update t.pid i (some t.allocpid.1) }

def freeproc (t : Table) (i : Nat) : Table := { t with pid := update t.pid i none }

end Table

/-- A process is allocated for `userinit` or `fork`, and freed by a `fork` that fails or a `wait`
that finds it dead. -/
inductive Event where
  | alloc
  | free (i : Nat)

def step (t : Table) : Event → Except Unit Table
  | .alloc => .ok t.allocproc
  | .free i => if (t.pid i).isSome then .ok (t.freeproc i) else .error ()

/-- Processes have positive pids, no two the same. -/
structure Table.Distinct (t : Table) : Prop where
  pos : ∀ i p, t.pid i = some p → 0 < p
  inj : ∀ i j p, t.pid i = some p → t.pid j = some p → i = j

/-- `allocpid` is called only while `nextpid` is positive. -/
def Positive (t : Table) (e : Event) : Prop :=
  match e with
  | .alloc => t.slot ≠ none → 0 < t.nextpid
  | .free _ => True

/-- Until `nextpid` has wrapped, it is above all pids. -/
structure Inv (t : Table) : Prop extends t.Distinct where
  lt : 0 < t.nextpid → ∀ i p, t.pid i = some p → p < t.nextpid
  bound : t.nextpid < 2 ^ 31

variable {t t' : Table} {e : Event} {i : Nat}

theorem allocproc_of_slot (h : t.slot = some i) : t.allocproc =
    ⟨update t.pid i (some t.nextpid), Int.bmod (t.nextpid + 1) (2 ^ 32)⟩ := by
  unfold Table.allocproc
  rw [h]
  rfl

theorem Inv.allocproc (h : Inv t) (hi : t.slot = some i) (hpos : 0 < t.nextpid) :
    Inv t.allocproc := by
  rw [allocproc_of_slot hi]
  have hlt := h.lt hpos
  have hcases : ∀ j p, update t.pid i (some t.nextpid) j = some p →
      j = i ∧ p = t.nextpid ∨ j ≠ i ∧ t.pid j = some p := by
    intro j p hp
    by_cases hj : j = i
    · rw [hj, update_self] at hp
      exact .inl ⟨hj, (Option.some.inj hp).symm⟩
    · rw [update_of_ne hj] at hp
      exact .inr ⟨hj, hp⟩
  have hnext : Int.bmod (t.nextpid + 1) (2 ^ 32) < 2 ^ 31 := Int.bmod_lt (by decide)
  refine ⟨⟨fun j p hp => ?_, fun j j' p hp hp' => ?_⟩, fun hnpos j p hp => ?_, hnext⟩
  · rcases hcases j p hp with ⟨-, rfl⟩ | ⟨-, hp⟩
    · exact hpos
    · exact h.pos j p hp
  · rcases hcases j p hp with ⟨hj, rfl⟩ | ⟨-, hold⟩
    · rcases hcases j' _ hp' with ⟨hj', -⟩ | ⟨-, hold'⟩
      · rw [hj, hj']
      · exact absurd (hlt j' _ hold') (Int.lt_irrefl _)
    · rcases hcases j' _ hp' with ⟨-, rfl⟩ | ⟨-, hold'⟩
      · exact absurd (hlt j _ hold) (Int.lt_irrefl _)
      · exact h.inj j j' p hold hold'
  · -- the counter has not wrapped
    dsimp only at hnpos ⊢
    have hsucc : Int.bmod (t.nextpid + 1) (2 ^ 32) = t.nextpid + 1 := by
      rcases Int.lt_or_eq_of_le (Int.add_one_le_of_lt h.bound) with hlt | heq
      · exact Int.bmod_eq_of_le (by omega) (by omega)
      · rw [heq] at hnpos
        exact absurd hnpos (by decide)
    rw [hsucc]
    rcases hcases j p hp with ⟨-, rfl⟩ | ⟨-, hp⟩
    · omega
    · have := hlt j p hp
      omega

theorem Inv.freeproc (h : Inv t) (i : Nat) : Inv (t.freeproc i) := by
  have hkept : ∀ j p, update t.pid i none j = some p → t.pid j = some p := by
    intro j p hp
    by_cases hj : j = i
    · rw [hj, update_self] at hp
      cases hp
    · rwa [update_of_ne hj] at hp
  exact ⟨⟨fun j p hp => h.pos j p (hkept j p hp),
    fun j j' p hp hp' => h.inj j j' p (hkept j p hp) (hkept j' p hp')⟩,
    fun hpos j p hp => h.lt hpos j p (hkept j p hp), h.bound⟩

theorem Inv.step (h : Inv t) (hg : Positive t e) (hs : step t e = .ok t') : Inv t' := by
  cases e with
  | alloc =>
    cases hs
    cases hi : t.slot with
    | none =>
      unfold Table.allocproc
      rwa [hi]
    | some i => exact h.allocproc hi (hg (by rw [hi]; exact nofun))
  | free i =>
    rw [Pid.step] at hs
    split at hs
    · cases hs
      exact h.freeproc i
    · cases hs

theorem inv_boot : Inv boot := ⟨⟨nofun, nofun⟩, nofun, by decide⟩

/-- The pids are distinct for as long as `nextpid` is positive when one is taken, and no longer. -/
theorem distinct_iff (es : List Event) :
    (∀ n t, Run.exec step boot (es.take n) = .ok t → t.Distinct) ↔ Guarded step Positive boot es := by
  constructor
  · generalize boot = t
    induction es generalizing t with
    | nil => exact fun _ => trivial
    | cons e es ih =>
      intro h
      refine ⟨?_, fun t' hs => ih t' fun n t'' hn => h (n + 1) t'' ?_⟩
      · cases e with
        | free i => trivial
        | alloc =>
          intro hslot
          obtain ⟨i, hi⟩ := Option.ne_none_iff_exists'.1 hslot
          refine (h 1 t.allocproc rfl).pos i t.nextpid ?_
          rw [allocproc_of_slot hi]
          exact update_self ..
      · rw [take_succ_cons, Run.exec, hs]
        exact hn
  · intro hg n t hn
    exact (inv_of_guarded (fun _ _ _ h => h.step) inv_boot (hg.take n) hn).toDistinct

/-- The table with the first process alone. -/
def alone (n : Int) : Table := ⟨update (fun _ => none) 0 (some 1), n⟩

theorem exec_cycle (n : Int) (es : List Event) : Run.exec step (alone n) (.alloc :: .free 1 :: es)
    = Run.exec step (alone (Int.bmod (n + 1) (2 ^ 32))) es := by
  have hslot : (alone n).slot = some 1 := rfl
  have hpid : update (update (alone n).pid 1 (some n)) 1 none = (alone n).pid := by
    rw [update_idem]
    exact update_eq_self 1 (alone n).pid
  rw [Run.exec, step]
  dsimp only
  rw [allocproc_of_slot hslot, Run.exec, step, if_pos (by simp)]
  exact congrArg (fun pid => Run.exec step ⟨pid, Int.bmod (n + 1) (2 ^ 32)⟩ es) hpid

theorem exec_cycles (k : Nat) {n : Int} (h0 : 0 ≤ n) (hk : n + k < 2 ^ 31) (es : List Event) :
    Run.exec step (alone n) ((replicate k [.alloc, .free 1]).flatten ++ es)
      = Run.exec step (alone (n + k)) es := by
  induction k generalizing n with
  | zero => rw [replicate_zero, flatten_nil, nil_append, Int.natCast_zero, Int.add_zero]
  | succ k ih =>
    rw [replicate_succ, flatten_cons, append_assoc, cons_append, cons_append, nil_append,
      exec_cycle, Int.bmod_eq_of_le (by omega) (by omega), ih (by omega) (by omega)]
    congr 2
    push_cast
    omega

/-- After `2 ^ 31 - 2` calls of `fork` that fail, the next process gets a negative pid. -/
theorem pid_wraps : ∃ es t, Run.exec step boot es = .ok t ∧ ¬ t.Distinct := by
  have hrun : Run.exec step boot (.alloc :: ((replicate (2 ^ 31 - 3) [.alloc, .free 1]).flatten ++
      [.alloc, .free 1, .alloc])) = .ok (alone (-2 ^ 31)).allocproc := by
    rw [Run.exec, step]
    dsimp only
    rw [show boot.allocproc = alone 2 from rfl, exec_cycles _ (by decide) (by decide), exec_cycle]
    rfl
  refine ⟨_, _, hrun, fun h => ?_⟩
  exact absurd (h.pos 1 (-2 ^ 31) rfl) (by decide)

/-! ## procinfo -/

/-- The fields of `struct proc` that are shown, as words. -/
structure Slot where
  state : ProcState
  pid : Nat
  sz : Nat
  cputime : Nat
  parent : Option Nat
  name : Nat → UInt8

/-- `enum procstate` as an `int` -/
def stateCode : ProcState → Nat
  | .unused => 0
  | .used => 1
  | .sleeping => 2
  | .runnable => 3
  | .running => 4
  | .zombie => 5

/-- The bytes of the local `struct pstat` after an assignment to the field at offset `o`. -/
def assign (o : Nat) (bytes : List UInt8) (l : Nat → UInt8) (i : Nat) : UInt8 :=
  if o ≤ i ∧ i < o + bytes.length then bytes.getD (i - o) 0 else l i

/-- The assignments to the local for process `p`; `l` is what it held before. -/
def fill (proc : Nat → Slot) (p : Nat) (l : Nat → UInt8) : Nat → UInt8 :=
  let ppid := match (proc p).parent with
    | none => 0
    | some q => (proc q).pid
  assign 20 ((range 16).map (proc p).name) (assign 16 (Bytes.toLe 4 ppid)
    (assign 40 (Bytes.toLe 8 (proc p).cputime) (assign 8 (Bytes.toLe 8 (proc p).sz)
      (assign 4 (Bytes.toLe 4 (stateCode (proc p).state))
        (assign 0 (Bytes.toLe 4 (proc p).pid) l)))))

/-- The bytes of a record for address `a` that `copyout` stores, by offset. -/
def offsets (pt : PageTable) (a : Nat) : List Nat :=
  (range 56).takeWhile fun o => reach true pt (word (a + o))

/-- `procinfo` from the slots `ps` on: what it returns, and the bytes that it copies out. -/
def procinfo (pt : PageTable) (proc : Nat → Slot) :
    List Nat → Nat → (Nat → UInt8) → Nat → Int × List (Nat × UInt8)
  | [], nprocs, _, _ => (nprocs, [])
  | p :: ps, nprocs, l, a =>
    if (proc p).state = .unused then procinfo pt proc ps nprocs l a
    else
      let l := fill proc p l
      let copied := (offsets pt a).map fun o => (word (a + o), l o)
      if (offsets pt a).length < 56 then (-1, copied)
      else
        let r := procinfo pt proc ps (nprocs + 1) l (word (a + 56))
        (r.1, copied ++ r.2)

/-- The padding before `cputime`, and `arrivaltime`: no assignment is to these bytes. -/
def Unset (o : Nat) : Prop := 36 ≤ o ∧ o < 40 ∨ 48 ≤ o ∧ o < 56

variable {pt : PageTable} {proc : Nat → Slot} {ps : List Nat} {a n o p : Nat} {l l' : Nat → UInt8}

theorem putBytes_eq (src : List UInt8) (mem : Nat → UInt8) : putBytes pt (word a) src mem
    = ((range src.length).takeWhile fun o => reach true pt (word (a + o))).foldl
      (fun mem o => update mem (physOf pt (word (a + o))) (src.getD o 0)) mem := by
  induction src generalizing a mem with
  | nil => rfl
  | cons b src ih =>
    rw [putBytes, length_cons, range_succ_eq_map]
    by_cases h : reach true pt (word a) = true
    · rw [if_pos h, takeWhile_cons_of_pos (by exact h), foldl_cons, takeWhile_map, foldl_map,
        word_add_word, ih]
      simp only [Nat.add_right_comm a 1, Nat.add_assoc a _ 1]
      rfl
    · rw [if_neg h, takeWhile_cons_of_neg (by exact h)]
      rfl

theorem lt_of_mem_offsets (h : o ∈ offsets pt a) : o < 56 :=
  mem_range.1 (( takeWhile_prefix _).subset h)

theorem mem_offsets (h : 56 ≤ (offsets pt a).length) (ho : o < 56) : o ∈ offsets pt a := by
  have hall : offsets pt a = range 56 :=
    ( takeWhile_prefix _).eq_of_length_le (by rwa [length_range])
  rwa [hall, mem_range]

theorem copyout_offsets (ph : Phys) (h : ¬Trapped pt a 56) :
    copyout pt ph (word a) ((range 56).map l) = .ok (decide ((offsets pt a).length = 56),
      Phys.mk ph.freelist ((offsets pt a).foldl
        (fun mem o => update mem (physOf pt (word (a + o))) (l o)) ph.mem)) := by
  have hcases := copyout_cases pt ph a ((range 56).map l)
  rw [length_map, length_range] at hcases
  rcases hcases with ⟨ht, -⟩ | ⟨-, he⟩
  · exact absurd ht h
  · have hall : (∀ i < 56, reach true pt (word (a + i)) = true) ↔ (offsets pt a).length = 56 := by
      constructor
      · intro hr
        unfold offsets
        rw [takeWhile_eq_self_iff.2 fun i hi => hr i (mem_range.1 hi), length_range]
      · intro hlen i hi
        exact mem_takeWhile_imp (p := fun o => reach true pt (word (a + o)))
          (mem_offsets hlen.ge hi)
    rw [he, putBytes_eq, length_map, length_range, decide_eq_decide.2 hall]
    congr 3
    refine foldl_ext _ _ _ fun mem o ho => ?_
    rw [getD_eq_getElem?_getD, getElem?_map, getElem?_range (lt_of_mem_offsets ho)]
    rfl

theorem fill_unset (h : Unset o) : fill proc p l o = l o := by
  unfold Unset at h
  unfold fill assign
  simp only [Bytes.length_toLe, length_map, length_range]
  repeat rw [if_neg (by omega)]

theorem fill_congr (ho : o < 56) (h : ¬Unset o) : fill proc p l o = fill proc p l' o := by
  unfold Unset at h
  unfold fill assign
  simp only [Bytes.length_toLe, length_map, length_range]
  split_ifs
  all_goals first | rfl | omega

theorem procinfo_eq_iff : (procinfo pt proc ps n l a).2 = (procinfo pt proc ps n l' a).2 ↔
    ((∃ p ∈ ps, (proc p).state ≠ .unused) → ∀ o ∈ offsets pt a, Unset o → l o = l' o) := by
  induction ps generalizing n l l' a with
  | nil => exact iff_of_true rfl fun ⟨p, hp, _⟩ => nomatch hp
  | cons p ps ih =>
    unfold procinfo
    by_cases hp : (proc p).state = .unused
    · rw [if_pos hp, if_pos hp, ih]
      simp [hp]
    · rw [if_neg hp, if_neg hp]
      have hfirst : ((offsets pt a).map fun o => (word (a + o), fill proc p l o))
          = ((offsets pt a).map fun o => (word (a + o), fill proc p l' o)) ↔
          ∀ o ∈ offsets pt a, Unset o → l o = l' o := by
        rw [map_inj_left]
        refine forall₂_congr fun o ho => ?_
        rw [Prod.mk.injEq, and_iff_right rfl]
        by_cases hu : Unset o
        · rw [fill_unset hu, fill_unset hu, imp_iff_right hu]
        · exact iff_of_true (fill_congr (lt_of_mem_offsets ho) hu) fun h => absurd h hu
      have hex : ∃ q ∈ p :: ps, (proc q).state ≠ .unused := ⟨p, mem_cons_self .., hp⟩
      rw [imp_iff_right hex, ← hfirst]
      split
      · rfl
      · next hlen =>
        refine ⟨fun h => append_inj_left h (by rw [length_map, length_map]), fun h => ?_⟩
        dsimp only
        rw [h]
        refine congrArg _ (ih.2 fun _ o ho hu => ?_)
        rw [fill_unset hu, fill_unset hu]
        exact hfirst.1 h o (mem_offsets (Nat.le_of_not_lt hlen) (lt_of_mem_offsets ho)) hu

/-- Two runs with the same process table copy the same bytes exactly when the bytes of the local
that no assignment sets are the same in both, as far as these are copied. -/
theorem procinfo_reveals_iff (pt : PageTable) (proc : Nat → Slot) (a : Nat) (l l' : Nat → UInt8) :
    (procinfo pt proc (range nproc) 0 l a).2 = (procinfo pt proc (range nproc) 0 l' a).2 ↔
      ((∃ p ∈ range nproc, (proc p).state ≠ .unused) →
        ∀ o ∈ offsets pt a, Unset o → l o = l' o) :=
  procinfo_eq_iff

/-- One process, which runs. -/
def running (p : Nat) : Slot :=
  ⟨if p = 0 then .running else .unused, 1, 4096, 0, none, fun _ => 0⟩

theorem procinfo_reveals_stack :
    (procinfo (onePage 0x80103000) running (range nproc) 0 (fun _ => 0) 0).2 ≠
      (procinfo (onePage 0x80103000) running (range nproc) 0 (fun _ => 1) 0).2 := by
  decide +kernel

end Xv6.Pid
