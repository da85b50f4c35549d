/-
The slots of the process table, with the scheduling fields, `kill` and the descriptors: what each
call does to the fields of a slot that the next process in it could find.
-/
import Xv6.Proc.Base

namespace Xv6

open Function Kernel
open Run (bind_eq_ok map_eq_ok)

variable {done : Bool} {n : Nat} {a b : Proc}

/-! ## The machine -/

structure SchedFields where
  cputime : Nat
  tsticks : UInt32
  priority : Nat
  timeslice : UInt32
  yielded : Bool
  next : Option Nat
  chan : Option Nat
  deriving DecidableEq, Repr

def SchedFields.zero : SchedFields :=
  { cputime := 0, tsticks := 0, priority := 0, timeslice := 0, yielded := false, next := none
    chan := none }

def SchedFields.allocproc (x : SchedFields) : SchedFields :=
  { x with cputime := 0, priority := high, timeslice := .ofNat tsticksHigh, tsticks := .ofNat tsticksHigh
           yielded := false, next := none }

/-- The slot that `kill` finds: the first one with this pid, whatever its state. -/
def killSlot (k : Kernel) (pid : Int) : Option Nat :=
  (List.range nproc).find? fun q => (k.proc q).pid = pid

/-- `kill`; whether it returned 0. -/
def kill (k : Kernel) (pid : Int) : Bool × Kernel :=
  match killSlot k pid with
  | none => (false, k)
  | some q => (true, k.setProc q { k.proc q with
      killed := true
      state := if (k.proc q).state = .sleeping then .runnable else (k.proc q).state })

structure Machine where
  kernel : Kernel
  sched : Nat → SchedFields

/-- What can happen: a call that changes address spaces, a `kill`, a descriptor that is filled by
`open`, `dup` or `pipe` or emptied by `close`, and a change of the scheduling fields of a process
by the clock, the queues, `sleep` or `wakeup`. -/
inductive Act where
  | call (e : Event)
  | kill (p n : Nat)
  | setFd (p fd f : Nat)
  | clearFd (p fd : Nat)
  | schedule (q : Nat) (x : SchedFields)

namespace Machine

/-- `userinit` calls `allocproc` too. -/
def start (k : Kernel) : Machine :=
  { kernel := k
    sched := update (fun _ => .zero) k.initproc (SchedFields.zero.allocproc) }

def takes (k : Kernel) (e : Event) (q : Nat) : Bool :=
  match e with
  | .fork p => decide (k.runs p) && freeSlot k == some q
  | _ => false

/-- The scheduling fields after a call that leads to `k'`: `allocproc` sets those of the slot it
takes, and `freeproc` clears `chan`. -/
def schedAfter (m : Machine) (e : Event) (k' : Kernel) (q : Nat) : SchedFields :=
  let x := if takes m.kernel e q then (m.sched q).allocproc else m.sched q
  if (k'.proc q).state = .unused ∧ (takes m.kernel e q ∨ (m.kernel.proc q).state ≠ .unused) then
    { x with chan := none }
  else x

def intArg (n : Nat) : Int := ((n : Int) + 2 ^ 31) % 2 ^ 32 - 2 ^ 31

def step (m : Machine) : Act → Except Panic Machine
  | .call e => do
      let k ← m.kernel.step e
      return { kernel := k, sched := m.schedAfter e k }
  | .kill p n =>
    if m.kernel.runs p then .ok { m with kernel := (Xv6.kill m.kernel (intArg n)).2 } else .ok m
  | .setFd p fd f =>
    let x := m.kernel.proc p
    if m.kernel.runs p ∧ fd < nofile ∧ x.ofile fd = none then
      .ok { m with kernel :=
        { m.kernel.setProc p { x with ofile := update x.ofile fd (some f) } with
          fileRef := update m.kernel.fileRef f (m.kernel.fileRef f + 1) } }
    else .ok m
  | .clearFd p fd =>
    let x := m.kernel.proc p
    match x.ofile fd with
    | some f =>
      if m.kernel.runs p then
        .ok { m with kernel :=
          { m.kernel.setProc p { x with ofile := update x.ofile fd none } with
            fileRef := update m.kernel.fileRef f (m.kernel.fileRef f - 1) } }
      else .ok m
    | none => .ok m
  | .schedule q x =>
    if (m.kernel.proc q).state = .unused then .ok m
    else .ok { m with sched := update m.sched q x }

end Machine

/-! ## What a call does to a slot -/

/-- Nothing has changed that the next process in the slot could find. -/
structure Proc.SameSlot (a b : Proc) : Prop where
  state : b.state = a.state
  killed : b.killed = a.killed
  xstate : b.xstate = a.xstate
  ofile : b.ofile = a.ofile
  valid : ∀ i, (b.mmr i).valid = (a.mmr i).valid

/-- What `freeproc` leaves of a process: its descriptors and its regions stay as they are. -/
structure Proc.Freed (a b : Proc) : Prop where
  state : b.state = .unused
  killed : b.killed = false
  xstate : b.xstate = 0
  ofile : b.ofile = a.ofile
  valid : ∀ i, (b.mmr i).valid = (a.mmr i).valid

theorem Mmr.SameRegion.valid {r r' : Mmr} (h : r.SameRegion r') : r'.valid = r.valid := by
  rw [h]

namespace Proc

theorem SameSlot.refl (a : Proc) : a.SameSlot a := ⟨rfl, rfl, rfl, rfl, fun _ => rfl⟩

theorem SameSlot.of_eq (h : b = a) : a.SameSlot b := h ▸ .refl a

theorem SameSlot.trans {c : Proc} (h : a.SameSlot b) (h' : b.SameSlot c) : a.SameSlot c :=
  ⟨h'.state.trans h.state, h'.killed.trans h.killed, h'.xstate.trans h.xstate,
    h'.ofile.trans h.ofile, fun i => (h'.valid i).trans (h.valid i)⟩

theorem SameButLinks.sameSlot (h : a.SameButLinks b) : a.SameSlot b := by
  refine ⟨?_, ?_, ?_, ?_, fun i => (h.regions i).valid⟩ <;> rw [h.fields]

end Proc

section

variable {k k' : Kernel} {p np : Nat}

theorem freeproc_slots (h : freeproc k p = .ok k') :
    (∀ q, q ≠ p → (k.proc q).SameSlot (k'.proc q)) ∧ (k.proc p).Freed (k'.proc p) := by
  obtain ⟨k₁, k₂, ph, htf, hreg, -, rfl⟩ := freeproc_eq_ok h
  obtain ⟨hk₁, -⟩ := freeTrapframe_eq_ok htf
  have hp₁ : k₁.proc p = { k.proc p with trapframe := none } := by
    rw [hk₁]
    simp
  have h₂ := pruned_freeRegions hreg
  have hfields := h₂.self.fields
  have hregions := h₂.self.regions
  rw [hp₁] at hfields hregions
  refine ⟨fun q hq => ?_, ?_⟩
  · have hq₁ : k₁.proc q = k.proc q := by
      rw [hk₁]
      exact proc_setProc_of_ne _ hq _
    simp only [proc_setProc_of_ne _ hq]
    rw [← hq₁]
    exact (h₂.others q hq).sameSlot
  · simp only [proc_setProc_self]
    exact ⟨rfl, rfl, rfl, by rw [hfields], fun i => (hregions i).valid⟩

theorem allocproc_none (hslot : freeSlot k = some np) (h : allocproc k = .ok (none, k')) :
    ∃ k₁, freeproc k₁ np = .ok k' ∧ (∀ q, q ≠ np → k₁.proc q = k.proc q) ∧
      (k₁.proc np).ofile = (k.proc np).ofile ∧ (k₁.proc np).mmr = (k.proc np).mmr := by
  unfold allocproc at h
  rw [hslot] at h
  dsimp only [allocpid] at h
  split at h
  · obtain ⟨k₂, hfree, h⟩ := bind_eq_ok.1 h
    cases h
    exact ⟨_, hfree, fun q hq => proc_setProc_of_ne _ hq _, by simp, by simp⟩
  · obtain ⟨vm, -, h⟩ := bind_eq_ok.1 h
    split at h
    · obtain ⟨k₂, hfree, h⟩ := bind_eq_ok.1 h
      cases h
      refine ⟨_, hfree, fun q hq => ?_, by simp, by simp⟩
      rw [proc_setVm_of_ne _ hq]
      simp only [proc_setProc_of_ne _ hq]
    · cases h

/-- The descriptors of a child in a slot that held `old`. -/
def inheritFiles (parent old : Nat → Option Nat) (n i : Nat) : Option Nat :=
  if i < n then (parent i).or (old i) else old i

theorem inheritFiles_zero (parent old : Nat → Option Nat) : inheritFiles parent old 0 = old := by
  funext i
  rw [inheritFiles, if_neg i.not_lt_zero]

theorem inheritFiles_succ_none {parent : Nat → Option Nat} (old : Nat → Option Nat)
    (h : parent n = none) : inheritFiles parent old (n + 1) = inheritFiles parent old n := by
  funext i
  unfold inheritFiles
  by_cases hi : i = n
  · rw [hi, if_pos n.lt_succ_self, if_neg (lt_irrefl n), h]
    rfl
  · simp only [show i < n + 1 ↔ i < n by omega]

theorem inheritFiles_succ_some {parent : Nat → Option Nat} (old : Nat → Option Nat) {f : Nat}
    (h : parent n = some f) : inheritFiles parent old (n + 1) =
      update (inheritFiles parent old n) n (some f) := by
  funext i
  unfold inheritFiles
  by_cases hi : i = n
  · rw [hi, update_self, if_pos n.lt_succ_self, h]
    rfl
  · rw [update_of_ne hi]
    simp only [show i < n + 1 ↔ i < n by omega]

theorem forkFiles_ofile (hne : p ≠ np) (h : forkFiles k p np n = .ok k') :
    k' = { k.setProc np { k.proc np with
      ofile := inheritFiles (k.proc p).ofile (k.proc np).ofile n } with fileRef := k'.fileRef } := by
  induction n generalizing k' with
  | zero =>
    cases h
    rw [inheritFiles_zero, Kernel.setProc, update_eq_self]
  | succ n ih =>
    obtain ⟨k₁, hfirst, h⟩ := bind_eq_ok.1 h
    have hk₁ := ih hfirst
    have hp : k₁.proc p = k.proc p := by
      rw [hk₁]
      exact proc_setProc_of_ne _ hne _
    rw [hp] at h
    split at h
    · rename_i hnone
      cases h
      rw [inheritFiles_succ_none _ hnone]
      exact hk₁
    · rename_i f hf
      obtain ⟨-, -, h⟩ := bind_eq_ok.1 h
      cases h
      rw [inheritFiles_succ_some _ hf, hk₁]
      simp [Kernel.setProc]

theorem forkFields_child (hne : p ≠ np) (h : forkFields k p np = .ok k') :
    (k'.proc np).killed = (k.proc np).killed ∧ (k'.proc np).xstate = (k.proc np).xstate ∧
      (k'.proc np).ofile = inheritFiles (k.proc p).ofile (k.proc np).ofile nofile := by
  obtain ⟨k₁, htf, h⟩ := bind_eq_ok.1 h
  obtain ⟨k₂, hfiles, h⟩ := bind_eq_ok.1 h
  obtain ⟨k₃, hcwd, h⟩ := bind_eq_ok.1 h
  cases h
  unfold forkTrapframe at htf
  split at htf
  · cases htf
    have hk₂ := forkFiles_ofile hne hfiles
    unfold forkCwd at hcwd
    split at hcwd
    · cases hcwd
    · cases hcwd
      rw [hk₂]
      simp [Kernel.setProc, update_of_ne hne]
  · cases htf

/-- The `fork` fails in the loop over the regions, when the child has its descriptors. -/
def forkFailsLate (k : Kernel) (p : Nat) : Bool :=
  let run : Except Panic Bool := do
    let (slot, k) ← allocproc k
    match slot with
    | none => return false
    | some np =>
      let (ok, vm) ← uvmcopy (k.proc p).pagetable (k.proc np).pagetable k.phys 0 (k.proc p).sz
      if ok then
        let k ← forkFields (k.setVm np vm) p np
        let (ok, _) ← forkRegions k p np maxMmr
        return !ok
      else return false
  match run with
  | .ok late => late
  | .error _ => false

/-- What a `fork` that finds the slot `np` does to it, unless it fails late. -/
inductive ForkSlots (k k' : Kernel) (p np : Nat) : Prop where
  | failed (freed : (k.proc np).Freed (k'.proc np))
  | made (forked : Forked k k' p np) (killed : (k'.proc np).killed = (k.proc np).killed)
      (xstate : (k'.proc np).xstate = (k.proc np).xstate)
      (ofile : (k'.proc np).ofile = inheritFiles (k.proc p).ofile (k.proc np).ofile nofile)

theorem Proc.Freed.of_before {c : Proc} (h : b.Freed c) (hofile : b.ofile = a.ofile)
    (hmmr : b.mmr = a.mmr) : a.Freed c :=
  { h with ofile := h.ofile.trans hofile, valid := fun i => by rw [h.valid, hmmr] }

theorem Forked.sameSlot (h : Forked k k' p np) {q : Nat} (hq : q ≠ np) :
    (k.proc q).SameSlot (k'.proc q) := by
  by_cases hp : q = p
  · rw [hp, h.parent]
    refine ⟨rfl, rfl, rfl, rfl, fun i => ?_⟩
    dsimp only
    split
    · exact (Mmr.sameRegion_lent _ _ _ _).valid
    · rfl
  · exact .of_eq (h.others q hp hq)

theorem fork_slots {r : Int} (hb : k.Basic) (hlive : (k.proc p).state ≠ .unused)
    (hslot : freeSlot k = some np)
    (hlate : forkFailsLate k p = false ∨ (k'.proc np).state ≠ .unused)
    (h : fork k p = .ok (r, k')) :
    (∀ q, q ≠ np → (k.proc q).SameSlot (k'.proc q)) ∧ ForkSlots k k' p np := by
  have hne : p ≠ np := fun he => hlive (he ▸ (freeSlot_eq_some hslot).2)
  obtain ⟨⟨slot, k₀⟩, halloc, h⟩ := bind_eq_ok.1 h
  cases slot with
  | none =>
    cases h
    obtain ⟨k₁, hfree, hothers, hofile, hmmr⟩ := allocproc_none hslot halloc
    obtain ⟨hsame, hfreed⟩ := freeproc_slots hfree
    refine ⟨fun q hq => ?_, .failed (hfreed.of_before hofile hmmr)⟩
    rw [← hothers q hq]
    exact hsame q hq
  | some np' =>
    obtain ⟨hslot', tf, ph, pt₀, hkalloc, hpt, hnull, hk₀⟩ := (allocproc_eq_ok halloc).2 np' rfl
    cases hslot.symm.trans hslot'
    have hchild₀ : k₀.proc np = { k.proc np with
        pid := k.nextpid, state := .used, trapframe := some tf, pagetable := pt₀ } := by
      rw [hk₀]
      exact update_self ..
    have hothers₀ : ∀ q, q ≠ np → k₀.proc q = k.proc q := fun q hq => by
      rw [hk₀]
      exact update_of_ne hq ..
    obtain ⟨⟨ok, vm⟩, hcopy, h⟩ := bind_eq_ok.1 h
    cases ok with
    | false =>
      obtain ⟨k₂, hfree, h⟩ := bind_eq_ok.1 h
      cases h
      obtain ⟨hsame, hfreed⟩ := freeproc_slots hfree
      refine ⟨fun q hq => ?_, .failed (hfreed.of_before ?_ ?_)⟩
      · have hsame := hsame q hq
        rw [proc_setVm_of_ne _ hq, hothers₀ q hq] at hsame
        exact hsame
      · rw [proc_setVm_self, hchild₀]
      · rw [proc_setVm_self, hchild₀]
    | true =>
      obtain ⟨k₁, hfields, h⟩ := bind_eq_ok.1 h
      obtain ⟨⟨ok, k₂⟩, hregions, h⟩ := bind_eq_ok.1 h
      cases ok with
      | false =>
        obtain ⟨k₃, hfree, h⟩ := bind_eq_ok.1 h
        cases h
        have htrue : forkFailsLate k p = true := by
          simp only [forkFailsLate, halloc, hcopy, hfields, hregions, bind, Except.bind]
          rfl
        rcases hlate with hlate | hmade
        · cases hlate.symm.trans htrue
        · exact absurd (freeproc_slots hfree).2.state hmade
      | true =>
        cases h
        have hstages : ForkStages k _ p np _ tf ph pt₀ vm k₀ k₁ k₂ :=
          ⟨hslot, hne, hkalloc, hpt, hnull, hk₀, hcopy, hfields, hregions, rfl, rfl⟩
        obtain ⟨-, hforked⟩ := hstages.forked hb.ram (hb.sound p).addr
        obtain ⟨hkilled, hxstate, hofile⟩ := forkFields_child hne hfields
        have hself := (pruned_forkRegions hregions).self.fields
        rw [proc_setVm_self, hchild₀] at hkilled hxstate hofile
        rw [proc_setVm_of_ne _ hne, hothers₀ p hne] at hofile
        refine ⟨fun q hq => hforked.sameSlot hq, .made hforked ?_ ?_ ?_⟩
        · rw [proc_setProc_self, hself]
          exact hkilled
        · rw [proc_setProc_self, hself]
          exact hxstate
        · rw [proc_setProc_self, hself]
          exact hofile

theorem exitFiles_ofile (h : exitFiles k p n = .ok k') : k' = { k.setProc p { k.proc p with
      ofile := fun i => if i < n then none else (k.proc p).ofile i } with
        fileRef := k'.fileRef } := by
  induction n generalizing k' with
  | zero =>
    cases h
    simp [Kernel.setProc]
  | succ n ih =>
    obtain ⟨k₁, hfirst, h⟩ := bind_eq_ok.1 h
    have hk₁ := ih hfirst
    have hlast : (k₁.proc p).ofile n = (k.proc p).ofile n := by
      rw [hk₁]
      simp
    rw [hlast] at h
    split at h
    · rename_i hnone
      cases h
      have hfun : (fun i => if i < n + 1 then none else (k.proc p).ofile i) =
          fun i => if i < n then none else (k.proc p).ofile i := by
        funext i
        by_cases hi : i = n
        · rw [hi, if_pos n.lt_succ_self, if_neg (lt_irrefl n), hnone]
        · simp only [show i < n + 1 ↔ i < n by omega]
      rw [hfun]
      exact hk₁
    · obtain ⟨-, -, h⟩ := bind_eq_ok.1 h
      cases h
      have hfun : (fun i => if i < n + 1 then none else (k.proc p).ofile i) =
          update (fun i => if i < n then none else (k.proc p).ofile i) n none := by
        funext i
        by_cases hi : i = n
        · rw [hi, if_pos n.lt_succ_self, update_self]
        · rw [update_of_ne hi]
          simp only [show i < n + 1 ↔ i < n by omega]
      rw [hfun, hk₁]
      simp [Kernel.setProc]

theorem exit_slots {status : Nat} (h : exit k p status = .ok k') :
    (∀ q, q ≠ p → (k.proc q).SameSlot (k'.proc q)) ∧ (k'.proc p).state = .zombie ∧
      ∀ i, (k'.proc p).ofile i = if i < nofile then none else (k.proc p).ofile i := by
  unfold exit at h
  split at h
  · cases h
  · obtain ⟨k₁, hfiles, h⟩ := bind_eq_ok.1 h
    have hk₁ := exitFiles_ofile hfiles
    split at h
    · cases h
    · cases h
      refine ⟨fun q hq => ?_, by simp, fun i => ?_⟩
      · have hq₁ : k₁.proc q = k.proc q := by
          rw [hk₁]
          exact proc_setProc_of_ne _ hq _
        simp only [reparent, Kernel.setProc, update_of_ne hq, hq₁]
        split <;> exact ⟨rfl, rfl, rfl, rfl, fun _ => rfl⟩
      · have hp₁ : (k₁.proc p).ofile = fun i => if i < nofile then none else (k.proc p).ofile i := by
          rw [hk₁]
          simp
        simp only [reparent, Kernel.setProc, update_self]
        split <;> simp only [hp₁]

/-- A step that is about `p` only and leaves its state and its descriptors alone. -/
structure Kernel.OwnStep (k k' : Kernel) (p : Nat) : Prop where
  others : ∀ q, q ≠ p → (k.proc q).SameSlot (k'.proc q)
  state : (k'.proc p).state = (k.proc p).state
  ofile : (k'.proc p).ofile = (k.proc p).ofile

theorem Kernel.OwnStep.refl (k : Kernel) (p : Nat) : k.OwnStep k p := ⟨fun _ _ => .refl _, rfl, rfl⟩

theorem Kernel.OwnStep.trans {k₁ k₂ k₃ : Kernel} (h : k₁.OwnStep k₂ p) (h' : k₂.OwnStep k₃ p) :
    k₁.OwnStep k₃ p :=
  ⟨fun q hq => (h.others q hq).trans (h'.others q hq), h'.state.trans h.state,
    h'.ofile.trans h.ofile⟩

theorem Kernel.OwnStep.of_setProc {x : Proc} (hp : k'.proc = (k.setProc p x).proc)
    (hstate : x.state = (k.proc p).state) (hofile : x.ofile = (k.proc p).ofile) :
    k.OwnStep k' p := by
  refine ⟨fun q hq => .of_eq ?_, ?_, ?_⟩
  · rw [hp, proc_setProc_of_ne _ hq]
  · rw [hp, proc_setProc_self, hstate]
  · rw [hp, proc_setProc_self, hofile]

theorem sbrk_slots (h : growproc k p n = .ok (done, k')) : k.OwnStep k' p := by
  rcases growproc_eq_ok h with ⟨-, rfl⟩ | ⟨-, -, r, vm, -, rfl⟩ | ⟨-, r, vm, -, rfl⟩
  · exact .of_setProc rfl rfl rfl
  · split <;> exact .of_setProc rfl rfl rfl
  · exact .of_setProc rfl rfl rfl

theorem mmap_slots {length prot flags : Nat} {res : Option Nat}
    (h : sysMmap k p length prot flags = .ok (res, k')) : k.OwnStep k' p := by
  rcases sysMmap_eq_ok h with ⟨-, -, rfl⟩ | ⟨i, r, ok, vm, -, -, -, hfalse, htrue⟩
  · exact .refl _ p
  · cases ok with
    | false =>
      obtain ⟨-, rfl⟩ := hfalse rfl
      exact .of_setProc rfl rfl rfl
    | true =>
      obtain ⟨-, id, l, rfl, -⟩ := htrue rfl
      exact .of_setProc rfl rfl rfl

theorem munmap_slots {addr length : Nat} (h : munmap k p addr length = .ok (done, k')) :
    k.OwnStep k' p := by
  rcases munmap_eq_ok h with ⟨-, -, rfl⟩ | ⟨i, doFree, k₁, vm, -, -, hdrop, -, rfl⟩
  · exact .refl _ p
  · have hinv : k.OwnStep (k.invalidate p i) p := .of_setProc rfl rfl rfl
    have hsame := fun q => ((relinked_dropRegion hdrop).procs q).sameSlot
    have hdropped : (k.invalidate p i).OwnStep k₁ p :=
      ⟨fun q _ => hsame q, (hsame p).state, (hsame p).ofile⟩
    exact (hinv.trans hdropped).trans (.of_setProc rfl rfl rfl)

theorem faultRegions_slots {va : Nat} {store : Bool} (h : faultRegions k p store va n = .ok k') :
    k.OwnStep k' p := by
  refine faultRegions_induction (I := fun x => k.OwnStep x p) (fun i k₁ k₂ _ hk hstep => ?_)
    (.refl k p) h
  rcases faultRegion_eq_ok hstep with ⟨-, rfl⟩ | ⟨-, pa, ph, ok, vm, -, -, rfl⟩
  · exact hk
  · exact hk.trans (.of_setProc rfl rfl rfl)

theorem exec_slots {file : Option (List UInt8)} {argv : List (List UInt8)} (hb : k.Basic)
    (h : exec k p file argv = .ok (done, k')) : k.OwnStep k' p := by
  rcases exec_eq_ok hb.ram h with ⟨-, ph, -, rfl⟩ |
    ⟨-, tf, pt₀, ph₀, pt, ph, sz, ph', -, -, -, -, -, -, rfl⟩
  · exact ⟨fun _ _ => .refl _, rfl, rfl⟩
  · exact .of_setProc rfl rfl rfl

end

end Xv6
