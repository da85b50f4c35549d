/-
Slots over whole histories: when nothing of an earlier process is left in a slot, `fork` makes its
child from the parent alone, and an `allocproc` that fails touches nothing of others.
-/
import Xv6.Proc.Slot
import Xv6.Vm.Total

namespace Xv6

open Function Kernel Machine Bool
open Run (bind_eq_ok)

variable {k k' : Kernel} {m m' : Machine} {n np p : Nat} {x : Proc}

/-! ## Slots that keep nothing -/

/-- Nothing of an earlier process is left in the slot. -/
structure Proc.Fresh (x : Proc) : Prop where
  killed : x.killed = false
  xstate : x.xstate = 0
  ofile : ∀ i, x.ofile i = none
  valid : ∀ i, (x.mmr i).valid = false

structure Proc.Neat (x : Proc) : Prop where
  fresh : x.state = .unused → x.Fresh
  closed : x.state = .zombie → ∀ i, x.ofile i = none
  width : ∀ i, nofile ≤ i → x.ofile i = none

theorem Proc.Neat.of_sameSlot {a b : Proc} (h : a.Neat) (hs : a.SameSlot b) : b.Neat := by
  refine ⟨fun hu => ?_, fun hz => ?_, fun i hi => ?_⟩
  · have hf := h.fresh (hs.state ▸ hu)
    exact ⟨hs.killed.trans hf.killed, hs.xstate.trans hf.xstate, fun i => by rw [hs.ofile, hf.ofile],
      fun i => by rw [hs.valid, hf.valid]⟩
  · rw [hs.ofile]
    exact h.closed (hs.state ▸ hz)
  · rw [hs.ofile]
    exact h.width i hi

theorem Proc.Freed.neat {a b : Proc} (h : a.Freed b) (hofile : ∀ i, a.ofile i = none)
    (hvalid : ∀ i, (a.mmr i).valid = false) : b.Neat := by
  have hfiles : ∀ i, b.ofile i = none := fun i => by rw [h.ofile, hofile]
  exact ⟨fun _ => ⟨h.killed, h.xstate, hfiles, fun i => by rw [h.valid, hvalid]⟩, fun _ => hfiles,
    fun i _ => hfiles i⟩

theorem Proc.neat_of_runnable (hs : x.state = .runnable) (hw : ∀ i, nofile ≤ i → x.ofile i = none) :
    x.Neat :=
  ⟨fun hu => (nomatch hs.symm.trans hu), fun hz => (nomatch hs.symm.trans hz), hw⟩

section

variable {k k' : Kernel} {p np : Nat}

theorem Kernel.OwnStep.neat (h : k.OwnStep k' p) (hk : ∀ q, (k.proc q).Neat)
    (hruns : (k.proc p).state = .runnable) (q : Nat) : (k'.proc q).Neat := by
  by_cases hq : q = p
  · rw [hq]
    exact Proc.neat_of_runnable (h.state.trans hruns) fun i hi => by
      rw [h.ofile]
      exact (hk p).width i hi
  · exact (hk q).of_sameSlot (h.others q hq)

theorem neat_exit {status : Nat} (hk : ∀ q, (k.proc q).Neat) (h : exit k p status = .ok k')
    (q : Nat) : (k'.proc q).Neat := by
  obtain ⟨hothers, hstate, hofile⟩ := exit_slots h
  by_cases hq : q = p
  · rw [hq]
    have hnone : ∀ i, (k'.proc p).ofile i = none := fun i => by
      rw [hofile]
      split
      · rfl
      · exact (hk p).width i (by omega)
    exact ⟨fun hu => (nomatch hstate.symm.trans hu), fun _ => hnone, fun i _ => hnone i⟩
  · exact (hk q).of_sameSlot (hothers q hq)

theorem neat_access {va : Nat} {store : Bool} (hk : ∀ q, (k.proc q).Neat)
    (hruns : (k.proc p).state = .runnable) (h : usertrapFault k p store va = .ok k') (q : Nat) :
    (k'.proc q).Neat := by
  obtain ⟨k₁, hfault, hend⟩ := usertrapFault_eq_ok h
  have h₁ := (faultRegions_slots hfault).neat hk hruns
  rcases hend with rfl | hexit
  · exact h₁ q
  · exact neat_exit h₁ hexit q

theorem neat_fork {r : Int} (hb : k.Basic) (hk : ∀ q, (k.proc q).Neat)
    (hruns : (k.proc p).state = .runnable) (hlate : forkFailsLate k p = false)
    (h : fork k p = .ok (r, k')) (q : Nat) : (k'.proc q).Neat := by
  have hlive : (k.proc p).state ≠ .unused := by rw [hruns]; decide
  cases hslot : freeSlot k with
  | none =>
    have hk' : k' = k := by
      unfold fork allocproc at h
      rw [hslot] at h
      cases h
      rfl
    rw [hk']
    exact hk q
  | some np =>
    have hfresh := (hk np).fresh (freeSlot_eq_some hslot).2
    obtain ⟨hothers, hnp⟩ := fork_slots hb hlive hslot (.inl hlate) h
    by_cases hq : q = np
    · rw [hq]
      cases hnp with
      | failed hfreed => exact hfreed.neat hfresh.ofile hfresh.valid
      | made hforked _ _ hofile =>
        refine Proc.neat_of_runnable hforked.state fun i hi => ?_
        rw [hofile, inheritFiles, if_neg (by omega)]
        exact (hk np).width i hi
    · exact (hk q).of_sameSlot (hothers q hq)

/-- The child that `wait` would free. -/
def zombieChild (k : Kernel) (p : Nat) : Option Nat :=
  (List.range nproc).find? fun c => (k.proc c).parent = some p ∧ (k.proc c).state = .zombie

theorem neat_wait {addr : Nat} (hb : k.Basic) (hk : ∀ q, (k.proc q).Neat)
    (hclean : ∀ c, zombieChild k p = some c → ∀ i < maxMmr, ((k.proc c).mmr i).valid = false)
    (h : wait k p addr = .ok k') (q : Nat) : (k'.proc q).Neat := by
  have hfreed : ∀ c ph, zombieChild k p = some c → freeproc { k with phys := ph } c = .ok k' →
      (k'.proc q).Neat := by
    intro c ph hc hfree
    obtain ⟨hothers, hf⟩ := freeproc_slots hfree
    have hzombie := List.find?_some hc
    simp only [decide_eq_true_eq] at hzombie
    by_cases hq : q = c
    · rw [hq]
      refine hf.neat ((hk c).closed hzombie.2) fun i => ?_
      by_contra hv
      have hv : ((k.proc c).mmr i).valid = true := by simpa using hv
      have hi := (hb.sound c).index i hv
      rw [hclean c hc i hi] at hv
      cases hv
    · exact (hk q).of_sameSlot (hothers q hq)
  unfold wait at h
  split at h
  · cases h
    exact hk q
  · rename_i c hc
    split at h
    · exact hfreed c k.phys hc h
    · obtain ⟨⟨ok, ph⟩, hcopy, h⟩ := bind_eq_ok.1 h
      dsimp only at h
      split at h
      · exact hfreed c ph hc h
      · cases h
        exact hk q

end

namespace Machine

/-- What an act must not do: `kill` a slot that is not in use, fail in a `fork` after the child
got its descriptors, or free a child that still has regions. -/
def tidy (m : Machine) : Act → Bool
  | .call (.fork p) => !forkFailsLate m.kernel p
  | .call (.wait p _) =>
    match zombieChild m.kernel p with
    | some c => (List.range maxMmr).all fun i => !((m.kernel.proc c).mmr i).valid
    | none => true
  | .kill _ n =>
    match killSlot m.kernel (intArg n) with
    | some q => decide ((m.kernel.proc q).state ≠ .unused)
    | none => true
  | _ => true

def Tidy (m : Machine) (a : Act) : Prop := m.tidy a = true

structure Neat (m : Machine) : Prop where
  basic : m.kernel.Basic
  slots : ∀ q, (m.kernel.proc q).Neat
  chan : ∀ q, (m.kernel.proc q).state = .unused → (m.sched q).chan = none

theorem schedAfter_chan (h : m.Neat) (e : Event) {q : Nat} (hq : (k'.proc q).state = .unused) :
    (m.schedAfter e k' q).chan = none := by
  unfold schedAfter
  dsimp only
  split
  · rfl
  · rename_i hc
    have hold : ¬ (takes m.kernel e q ∨ (m.kernel.proc q).state ≠ .unused) := fun ho => hc ⟨hq, ho⟩
    push Not at hold
    rw [if_neg (by simpa using hold.1)]
    exact h.chan q hold.2

theorem slots_call {e : Event} (h : m.Neat) (hg : m.Tidy (.call e))
    (hs : m.kernel.step e = .ok k') (q : Nat) : (k'.proc q).Neat := by
  rcases step_eq_ok hs with rfl | ⟨hruns, hdoes⟩
  · exact h.slots q
  cases hdoes with
  | fork hf =>
    simp only [Tidy, tidy, not_eq_true'] at hg
    exact neat_fork h.basic h.slots hruns.2 hg hf q
  | exit hx => exact neat_exit h.slots hx q
  | wait hw =>
    refine neat_wait h.basic h.slots (fun c hc i hi => ?_) hw q
    simp only [Tidy, tidy, hc, List.all_eq_true, List.mem_range, not_eq_true'] at hg
    exact hg i hi
  | sbrk hgrow => exact (sbrk_slots hgrow).neat h.slots hruns.2 q
  | mmap hm => exact (mmap_slots hm).neat h.slots hruns.2 q
  | munmap hm => exact (munmap_slots hm).neat h.slots hruns.2 q
  | hit _ => exact h.slots q
  | fault _ ha => exact neat_access h.slots hruns.2 ha q
  | exec he => exact (exec_slots h.basic he).neat h.slots hruns.2 q

theorem basic_setProc (hb : k.Basic) (r : Nat → Int) (hs : (k.proc p).SameSpace x) :
    ({ k.setProc p x with fileRef := r } : Kernel).Basic := by
  refine hb.of_apart (c := p) (apart_setProc rfl rfl rfl) hb.ram ?_
  simp only [proc_setProc_self]
  exact (hb.sound p).of_sameSpace hs

theorem Neat.setFiles (h : m.Neat) (hruns : m.kernel.runs p) {files : Nat → Option Nat}
    (hw : ∀ i, nofile ≤ i → files i = none) (r : Nat → Int) : Neat { m with kernel :=
      { m.kernel.setProc p { m.kernel.proc p with ofile := files } with fileRef := r } } := by
  refine ⟨basic_setProc h.basic r ⟨Iff.rfl, rfl, rfl, rfl, rfl, fun _ => rfl⟩, fun q => ?_,
    fun q hu => ?_⟩
  · by_cases hq : q = p
    · rw [hq]
      simp only [proc_setProc_self]
      exact Proc.neat_of_runnable hruns.2 hw
    · simp only [proc_setProc_of_ne _ hq]
      exact h.slots q
  · by_cases hq : q = p
    · rw [hq] at hu
      simp only [proc_setProc_self, hruns.2] at hu
      cases hu
    · simp only [proc_setProc_of_ne _ hq] at hu
      exact h.chan q hu

theorem Neat.kill (h : m.Neat) (hg : m.Tidy (.kill p n)) :
    Neat { m with kernel := (Xv6.kill m.kernel (intArg n)).2 } := by
  unfold Xv6.kill
  cases hslot : killSlot m.kernel (intArg n) with
  | none => exact h
  | some c =>
    simp only [Tidy, tidy, hslot, decide_eq_true_eq] at hg
    have hstate : (if (m.kernel.proc c).state = .sleeping then ProcState.runnable
        else (m.kernel.proc c).state) ≠ .unused := by
      split
      · decide
      · exact hg
    refine ⟨basic_setProc h.basic m.kernel.fileRef
      ⟨iff_of_false hstate hg, rfl, rfl, rfl, rfl, fun _ => rfl⟩, fun q => ?_, fun q hu => ?_⟩
    · by_cases hq : q = c
      · rw [hq]
        simp only [proc_setProc_self]
        refine ⟨fun hu => absurd hu hstate, fun hz => (h.slots c).closed ?_, (h.slots c).width⟩
        split at hz
        · cases hz
        · exact hz
      · simp only [proc_setProc_of_ne _ hq]
        exact h.slots q
    · by_cases hq : q = c
      · rw [hq] at hu
        simp only [proc_setProc_self] at hu
        exact absurd hu hstate
      · simp only [proc_setProc_of_ne _ hq] at hu
        exact h.chan q hu

theorem neat_step {a : Act} (h : m.Neat) (hg : m.Tidy a) (hs : m.step a = .ok m') : m'.Neat := by
  cases a with
  | call e =>
    obtain ⟨k', hcall, hs⟩ := bind_eq_ok.1 hs
    cases hs
    exact ⟨basic_step h.basic hcall, slots_call h hg hcall, fun q => schedAfter_chan h e⟩
  | kill p n =>
    unfold step at hs
    dsimp only at hs
    split at hs <;> cases hs
    · exact h.kill hg
    · exact h
  | setFd p fd f =>
    unfold step at hs
    dsimp only at hs
    split at hs <;> cases hs
    · rename_i hc
      refine h.setFiles hc.1 (fun i hi => ?_) _
      rw [update_of_ne (by omega)]
      exact (h.slots p).width i hi
    · exact h
  | clearFd p fd =>
    unfold step at hs
    dsimp only at hs
    split at hs
    · split at hs <;> cases hs
      · rename_i hruns
        refine h.setFiles hruns (fun i hi => ?_) _
        by_cases hfd : i = fd
        · rw [hfd, update_self]
        · rw [update_of_ne hfd]
          exact (h.slots p).width i hi
      · exact h
    · cases hs
      exact h
  | schedule q x =>
    unfold step at hs
    dsimp only at hs
    split at hs <;> cases hs
    · exact h
    · rename_i hlive
      refine ⟨h.basic, h.slots, fun c hc => ?_⟩
      have hne : c ≠ q := fun he => hlive (he ▸ hc)
      simp only [update_of_ne hne]
      exact h.chan c hc

theorem neat_start {ph : Phys} (hboot : Boots ph k) : (start k).Neat := by
  obtain ⟨tf, page, hb⟩ := hboot.booted
  refine ⟨basic_boot hboot, fun q => ?_, fun q _ => ?_⟩
  · by_cases hq : q = 0
    · rw [hq]
      refine Proc.neat_of_runnable (by rw [start, hb.proc]) fun i _ => ?_
      rw [start, hb.proc]
      rfl
    · rw [start, hb.others q hq]
      exact ⟨fun _ => ⟨rfl, rfl, fun _ => rfl, fun _ => rfl⟩, nofun, fun _ _ => rfl⟩
  · by_cases hq : q = k.initproc
    · simp only [start, hq, update_self]
      rfl
    · simp only [start, update_of_ne hq]
      rfl

end Machine

/-! ## allocproc without memory -/

/-- No region, list id or frame has been touched, outside the slot `np` or in what an earlier
process left in it. -/
structure SlotKept (k k' : Kernel) (np : Nat) : Prop where
  others : ∀ q, q ≠ np → k'.proc q = k.proc q
  regions : (k'.proc np).mmr = (k.proc np).mmr
  mmrList : k'.mmrList = k.mmrList
  frames : k'.phys.freelist.Perm k.phys.freelist

/-- `allocproc` returns, and it touches nothing of others if it fails. -/
def AllocSafe (k : Kernel) : Prop :=
  ∀ np, freeSlot k = some np →
    ∃ slot k', allocproc k = .ok (slot, k') ∧ (slot = none → SlotKept k k' np)

theorem freeRegions_none (h : ∀ i < n, ((k.proc p).mmr i).valid = false) :
    freeRegions k p n = .ok k := by
  induction n with
  | zero => rfl
  | succ n ih =>
    rw [freeRegions, ih fun i hi => h i (by omega)]
    refine bind_eq_ok.2 ⟨k, rfl, ?_⟩
    rw [freeRegion, if_neg (by simp [h n n.lt_succ_self])]

theorem freeproc_empty (hvalid : ∀ i, ((k.proc p).mmr i).valid = false)
    (hpt : (k.proc p).pagetable = .absent) (htf : ∀ f ∈ (k.proc p).trapframe, RamPage f) :
    ∃ k', freeproc k p = .ok k' ∧ (∀ q, q ≠ p → k'.proc q = k.proc q) ∧
      (k'.proc p).mmr = (k.proc p).mmr ∧ k'.mmrList = k.mmrList ∧
      k'.phys.freelist = (k.proc p).trapframe.toList ++ k.phys.freelist := by
  have hfreed : ∃ ph, freeTrapframe k p =
      .ok { k.setProc p { k.proc p with trapframe := none } with phys := ph } ∧
      ph.freelist = (k.proc p).trapframe.toList ++ k.phys.freelist := by
    unfold freeTrapframe
    cases htrap : (k.proc p).trapframe with
    | none =>
      refine ⟨k.phys, ?_, rfl⟩
      have hself : { k.proc p with trapframe := none } = k.proc p := by rw [← htrap]
      rw [hself, Kernel.setProc, update_eq_self]
    | some tf =>
      exact ⟨_, bind_eq_ok.2 ⟨_, kfree_of_ram (htf tf htrap), rfl⟩, rfl⟩
  obtain ⟨ph, hfree, hlist⟩ := hfreed
  refine ⟨_, bind_eq_ok.2 ⟨_, hfree, bind_eq_ok.2 ⟨_, freeRegions_none fun i _ => ?_,
    bind_eq_ok.2 ⟨ph, ?_, rfl⟩⟩⟩, fun q hq => ?_, ?_, rfl, hlist⟩
  · simp only [proc_setProc_self]
    exact hvalid i
  · simp only [freeTable, proc_setProc_self, hpt]
    rfl
  · simp only [proc_setProc_of_ne _ hq]
  · simp only [proc_setProc_self]

/-- The kernel when `allocproc` has taken the slot `np`. -/
def Kernel.taken (k : Kernel) (np : Nat) : Kernel :=
  { k with nextpid := (allocpid k).2.nextpid }.setProc np
    { k.proc np with pid := k.nextpid, state := .used }

def Kernel.takenWith (k : Kernel) (np tf : Nat) (ph : Phys) : Kernel :=
  { (k.taken np).setProc np { (k.taken np).proc np with trapframe := some tf } with phys := ph }

theorem allocproc_eq (hslot : freeSlot k = some np) : allocproc k = match kalloc k.phys with
      | none => do
          let k ← freeproc (k.taken np) np
          return (none, k)
      | some (tf, ph) => do
          let vm ← procPagetable ph tf
          let k := (k.takenWith np tf ph).setVm np vm
          if vm.1.isNull then
            let k ← freeproc k np
            return (none, k)
          else return (some np, k) := by
  unfold allocproc
  rw [hslot]
  rfl

theorem allocSafe_of_neat (hb : k.Basic) (hk : ∀ q, (k.proc q).Neat) : AllocSafe k := by
  intro np hslot
  have hunused := (freeSlot_eq_some hslot).2
  obtain ⟨hpt, htf, -⟩ := (hb.sound np).unused hunused
  have hvalid := ((hk np).fresh hunused).valid
  have hself : (k.taken np).proc np = { k.proc np with pid := k.nextpid, state := .used } :=
    proc_setProc_self _ _ _
  rw [allocproc_eq hslot]
  cases hkalloc : kalloc k.phys with
  | none =>
    obtain ⟨k', hfree, hothers, hmmr, hlist, hframes⟩ := freeproc_empty
      (k := k.taken np) (p := np) (by rw [hself]; exact hvalid) (by rw [hself]; exact hpt)
      (by rw [hself, htf]; exact fun f hf => (nomatch hf))
    rw [hself] at hmmr hframes
    refine ⟨none, k', bind_eq_ok.2 ⟨_, hfree, rfl⟩, fun _ => ⟨fun q hq => ?_, hmmr, hlist, ?_⟩⟩
    · rw [hothers q hq]
      exact proc_setProc_of_ne _ hq _
    · rw [hframes, htf]
      exact .refl _
  | some r =>
    obtain ⟨tf, ph⟩ := r
    have hlist := kalloc_eq_some hkalloc
    have htfRam : RamPage tf := hb.ram tf (by rw [hlist]; exact List.mem_cons_self)
    have hram : ∀ f ∈ ph.freelist, RamPage f := fun f hf =>
      hb.ram f (by rw [hlist]; exact List.mem_cons_of_mem _ hf)
    obtain ⟨⟨pt, ph'⟩, hmade⟩ := procPagetable_ok hram tf
    cases hnull : pt.isNull with
    | false =>
      refine ⟨some np, (k.takenWith np tf ph).setVm np (pt, ph'),
        bind_eq_ok.2 ⟨_, hmade, ?_⟩, nofun⟩
      rw [hnull]
      rfl
    | true =>
      obtain ⟨habsent, hcount⟩ := (procPagetable_eq_ok hmade).1 hnull
      have hself' : ((k.takenWith np tf ph).setVm np (pt, ph')).proc np = { k.proc np with
          pid := k.nextpid, state := .used, trapframe := some tf, pagetable := pt } := by
        simp [Kernel.takenWith, hself]
      obtain ⟨k', hfree, hothers, hmmr, hmmrList, hframes⟩ := freeproc_empty
        (by rw [hself']; exact hvalid) (by rw [hself']; exact habsent)
        (by
          rw [hself']
          rintro f ⟨⟩
          exact htfRam)
      rw [hself'] at hmmr hframes
      refine ⟨none, k', bind_eq_ok.2 ⟨_, hmade, ?_⟩, fun _ => ⟨fun q hq => ?_, hmmr, hmmrList, ?_⟩⟩
      · dsimp only
        rw [if_pos hnull]
        exact bind_eq_ok.2 ⟨_, hfree, rfl⟩
      · rw [hothers q hq, proc_setVm_of_ne _ hq]
        simp only [Kernel.takenWith, Kernel.taken, proc_setProc_of_ne _ hq]
      · rw [hframes, hlist]
        exact List.Perm.cons _ (List.perm_iff_count.2 hcount)

/-! ## Two histories -/

def Mmr.bare (r : Mmr) : Mmr := { r with origin := 0 }

theorem Mmr.bare_inherited (r : Mmr) (p np i : Nat) :
    (r.inherited p np i).bare = r.bare.inherited p np i := by
  unfold inherited
  have hv : r.bare.valid = r.valid := rfl
  have hp : r.bare.isPrivate = r.isPrivate := rfl
  rw [hv, hp]
  split
  · split <;> rfl
  · rfl

/-- What `fork` takes over from the parent is the same in both. -/
structure Proc.SameParent (a b : Proc) : Prop where
  sz : a.sz = b.sz
  curMax : a.curMax = b.curMax
  ofile : a.ofile = b.ofile
  mmr : ∀ i, (a.mmr i).bare = (b.mmr i).bare

/-- The children in slot `np` are the same, up to their pids and the pages they were given. -/
structure Machine.SameChild (m₁ m₂ : Machine) (np : Nat) : Prop where
  killed : (m₁.kernel.proc np).killed = (m₂.kernel.proc np).killed
  xstate : (m₁.kernel.proc np).xstate = (m₂.kernel.proc np).xstate
  ofile : (m₁.kernel.proc np).ofile = (m₂.kernel.proc np).ofile
  mmr : ∀ i, ((m₁.kernel.proc np).mmr i).bare = ((m₂.kernel.proc np).mmr i).bare
  sz : (m₁.kernel.proc np).sz = (m₂.kernel.proc np).sz
  curMax : (m₁.kernel.proc np).curMax = (m₂.kernel.proc np).curMax
  sched : m₁.sched np = m₂.sched np

/-- The child of a `fork` into a slot that keeps nothing is made from the parent alone. -/
structure Machine.ChildOf (m : Machine) (p np : Nat) (m' : Machine) : Prop where
  killed : (m'.kernel.proc np).killed = false
  xstate : (m'.kernel.proc np).xstate = 0
  ofile : ∀ i, (m'.kernel.proc np).ofile i =
    if i < nofile then (m.kernel.proc p).ofile i else none
  mmr : ∀ i, (m'.kernel.proc np).mmr i = if i < maxMmr then
    ((m.kernel.proc p).mmr i).inherited p np i else (m.kernel.proc p).mmr i
  sz : (m'.kernel.proc np).sz = (m.kernel.proc p).sz
  curMax : (m'.kernel.proc np).curMax = (m.kernel.proc p).curMax
  sched : m'.sched np = SchedFields.zero.allocproc

theorem Machine.ChildOf.same {m₁ m₂ m₁' m₂' : Machine} (h₁ : m₁.ChildOf p np m₁')
    (h₂ : m₂.ChildOf p np m₂') (hp : (m₁.kernel.proc p).SameParent (m₂.kernel.proc p)) :
    m₁'.SameChild m₂' np := by
  refine ⟨h₁.killed.trans h₂.killed.symm, h₁.xstate.trans h₂.xstate.symm, funext fun i => ?_,
    fun i => ?_, by rw [h₁.sz, h₂.sz, hp.sz], by rw [h₁.curMax, h₂.curMax, hp.curMax],
    h₁.sched.trans h₂.sched.symm⟩
  · rw [h₁.ofile, h₂.ofile, hp.ofile]
  · rw [h₁.mmr, h₂.mmr]
    split
    · rw [Mmr.bare_inherited, Mmr.bare_inherited, hp.mmr]
    · exact hp.mmr i

theorem SchedFields.allocproc_of_chan {x : SchedFields} (h : x.chan = none) :
    x.allocproc = SchedFields.zero.allocproc := by
  unfold allocproc
  rw [h]
  rfl

theorem Machine.childOf_fork (h : m.Neat) (hslot : freeSlot m.kernel = some np)
    (hs : m.step (.call (.fork p)) = .ok m') (hmade : (m'.kernel.proc np).state ≠ .unused) :
    m.ChildOf p np m' := by
  have hunused := (freeSlot_eq_some hslot).2
  have hfresh := (h.slots np).fresh hunused
  obtain ⟨k', hcall, hs⟩ := bind_eq_ok.1 hs
  cases hs
  rcases step_eq_ok hcall with rfl | ⟨hruns, hdoes⟩
  · exact absurd hunused hmade
  cases hdoes with
  | fork hf =>
    obtain ⟨-, hnp⟩ := fork_slots h.basic hruns.live hslot (.inr hmade) hf
    cases hnp with
    | failed hfreed => exact absurd hfreed.state hmade
    | made hforked hkilled hxstate hofile =>
      refine ⟨hkilled.trans hfresh.killed, hxstate.trans hfresh.xstate, fun i => ?_,
        hforked.mmr, hforked.sz, hforked.curMax, ?_⟩
      · rw [hofile]
        simp only [inheritFiles, hfresh.ofile, Option.or_none]
        rfl
      · have htakes : takes m.kernel (.fork p) np = true := by
          have hr : m.kernel.runs p := hruns
          simp [takes, hr, hslot]
        simp only [schedAfter, htakes]
        rw [if_neg fun hc => hmade hc.1]
        exact SchedFields.allocproc_of_chan (h.chan np hunused)

/-- Two histories in which no slot is left untidy agree on what `fork` makes of a slot: children
of parents in the same state are the same, and an `allocproc` that fails touches nothing that
an earlier process had. -/
theorem slots_hygienic {ph₁ ph₂ : Phys} {k₁ k₂ : Kernel} {as₁ as₂ : List Act} {m₁ m₂ : Machine}
    {p np : Nat} (hboot₁ : Boots ph₁ k₁) (hboot₂ : Boots ph₂ k₂)
    (hg₁ : Run.Guarded Machine.step Machine.Tidy (Machine.start k₁) as₁)
    (hg₂ : Run.Guarded Machine.step Machine.Tidy (Machine.start k₂) as₂)
    (hrun₁ : Run.exec Machine.step (Machine.start k₁) as₁ = .ok m₁)
    (hrun₂ : Run.exec Machine.step (Machine.start k₂) as₂ = .ok m₂)
    (hslot₁ : freeSlot m₁.kernel = some np) (hslot₂ : freeSlot m₂.kernel = some np)
    (hparent : (m₁.kernel.proc p).SameParent (m₂.kernel.proc p)) :
    (∀ m₁' m₂', m₁.step (.call (.fork p)) = .ok m₁' → m₂.step (.call (.fork p)) = .ok m₂' →
      (m₁'.kernel.proc np).state ≠ .unused → (m₂'.kernel.proc np).state ≠ .unused →
      m₁'.SameChild m₂' np) ∧ AllocSafe m₁.kernel ∧ AllocSafe m₂.kernel := by
  have hinv := fun {k : Kernel} {ph : Phys} {as : List Act} {m : Machine} (hboot : Boots ph k)
      (hg : Run.Guarded Machine.step Machine.Tidy (Machine.start k) as)
      (hrun : Run.exec Machine.step (Machine.start k) as = .ok m) =>
    Run.inv_of_guarded (I := Machine.Neat) (fun _ _ _ hs hge hstep => neat_step hs hge hstep)
      (neat_start hboot) hg hrun
  have h₁ := hinv hboot₁ hg₁ hrun₁
  have h₂ := hinv hboot₂ hg₂ hrun₂
  exact ⟨fun m₁' m₂' hs₁ hs₂ hmade₁ hmade₂ =>
    (childOf_fork h₁ hslot₁ hs₁ hmade₁).same
      (childOf_fork h₂ hslot₂ hs₂ hmade₂) hparent,
    allocSafe_of_neat h₁.basic h₁.slots, allocSafe_of_neat h₂.basic h₂.slots⟩

/-- A `fork` by slot 0 makes a child in slot 1, killed or not as `killed` says. -/
def Machine.bears (killed : Bool) (m : Machine) : Bool :=
  freeSlot m.kernel == some 1 && Run.ends Machine.step m [.call (.fork 0)] fun m' =>
    decide ((m'.kernel.proc 1).state ≠ .unused) && (m'.kernel.proc 1).killed == killed

theorem Machine.of_bears {killed : Bool} (h : m.bears killed = true) :
    freeSlot m.kernel = some 1 ∧ ∃ m', m.step (.call (.fork 0)) = .ok m' ∧
      (m'.kernel.proc 1).state ≠ .unused ∧ (m'.kernel.proc 1).killed = killed := by
  rw [bears, and_eq_true, beq_iff_eq] at h
  obtain ⟨hslot, hends⟩ := h
  obtain ⟨m', hrun, hcheck⟩ := Run.of_ends hends
  rw [and_eq_true, decide_eq_true_eq, beq_iff_eq] at hcheck
  refine ⟨hslot, m', ?_, hcheck⟩
  unfold Run.exec at hrun
  split at hrun
  · cases hrun
  · rename_i hstep
    cases hrun
    exact hstep

def Machine.killed (k : Kernel) (c : Nat) : Machine :=
  { Machine.start k with kernel := k.setProc c { k.proc c with
    killed := true
    state := if (k.proc c).state = .sleeping then .runnable else (k.proc c).state } }

theorem Machine.exec_kill {c : Nat} (hruns : k.runs 0)
    (hc : killSlot k (Machine.intArg n) = some c) :
    Run.exec Machine.step (Machine.start k) [.kill 0 n] = .ok (Machine.killed k c) := by
  have hkill : (start k).step (.kill 0 n) = .ok (killed k c) := by
    simp only [step, start, hruns, Xv6.kill, hc]
    rfl
  rw [Run.exec, hkill]
  rfl

theorem Machine.sameParent_killed (k : Kernel) (c p : Nat) :
    (k.proc p).SameParent ((Machine.killed k c).kernel.proc p) := by
  unfold killed
  by_cases hp : p = c
  · rw [hp]
    simp only [proc_setProc_self]
    exact ⟨rfl, rfl, rfl, fun _ => rfl⟩
  · simp only [proc_setProc_of_ne _ hp]
    exact ⟨rfl, rfl, rfl, fun _ => rfl⟩

/-- A kill(n) by the first process hits slot `c`, and the child of a `fork` after it is killed or
not as `born` says. -/
def Machine.killThenFork (n c : Nat) (born : Bool) (k : Kernel) : Bool :=
  decide (k.runs 0) && killSlot k (Machine.intArg n) == some c && (Machine.start k).bears false &&
    (Machine.killed k c).bears born

/-- kill(0) marks the first slot that is not in use, and the child that `fork` puts there is
killed before it runs.  And when a process that exited had a region, an `allocproc` that finds
no memory goes through the region again, with no page table. -/
theorem slots_not_hygienic :
    (∃ ph k m m₁ m₂, Boots ph k ∧
      Run.exec Machine.step (Machine.start k) [.kill 0 0] = .ok m ∧
      freeSlot k = some 1 ∧ freeSlot m.kernel = some 1 ∧
      (k.proc 0).SameParent (m.kernel.proc 0) ∧
      (Machine.start k).step (.call (.fork 0)) = .ok m₁ ∧ m.step (.call (.fork 0)) = .ok m₂ ∧
      (m₁.kernel.proc 1).state ≠ .unused ∧ (m₂.kernel.proc 1).state ≠ .unused ∧
      ¬ m₁.SameChild m₂ 1) ∧
    ∃ ph k k', Boots ph k ∧
      Run.exec Kernel.step k [.mmap 0 pgsize (pteR ||| pteW) mapPrivate, .fork 0, .exit 1 0,
        .wait 0 0, .sbrk 0 (25 * pgsize)] = .ok k' ∧ ¬ AllocSafe k' := by
  constructor
  · have hends : bootRun.ends 32 [] (Machine.killThenFork 0 1 true) = true := by decide +kernel
    obtain ⟨k, k', hboot, hrun, hcheck⟩ := bootRun.of_ends (by decide) (by decide) hends
    cases hrun
    simp only [Machine.killThenFork, and_eq_true, decide_eq_true_eq, beq_iff_eq] at hcheck
    obtain ⟨⟨⟨hruns, hc⟩, hclean⟩, hdirty⟩ := hcheck
    obtain ⟨hslot₁, m₁, hs₁, hmade₁, hkilled₁⟩ := of_bears hclean
    obtain ⟨hslot₂, m₂, hs₂, hmade₂, hkilled₂⟩ := of_bears hdirty
    refine ⟨_, k, _, m₁, m₂, hboot, exec_kill hruns hc, hslot₁, hslot₂,
      sameParent_killed k 1 0, hs₁, hs₂, hmade₁, hmade₂, fun h => ?_⟩
    have hsame := h.killed
    rw [hkilled₁, hkilled₂] at hsame
    cases hsame
  · have hends : bootRun.ends 32 [.mmap 0 pgsize (pteR ||| pteW) mapPrivate, .fork 0, .exit 1 0,
        .wait 0 0, .sbrk 0 (25 * pgsize)] (fun k => freeSlot k == some 1 &&
          match allocproc k with
          | .ok _ => false
          | .error _ => true) = true := by decide +kernel
    obtain ⟨k, k', hboot, hrun, hcheck⟩ := bootRun.of_ends (by decide) (by decide) hends
    rw [and_eq_true, beq_iff_eq] at hcheck
    refine ⟨_, k, k', hboot, hrun, fun hsafe => ?_⟩
    obtain ⟨slot, k₁, hok, -⟩ := hsafe 1 hcheck.1
    rw [hok] at hcheck
    cases hcheck.2

/-- A kill of a process in use leaves no trace in the child of a `fork` after it. -/
theorem slots_hygienic_killLive :
    ∃ ph k m m₁ m₂, Boots ph k ∧
      Run.exec Machine.step (Machine.start k) [.kill 0 1] = .ok m ∧
      (Machine.start k).step (.call (.fork 0)) = .ok m₁ ∧ m.step (.call (.fork 0)) = .ok m₂ ∧
      m₁.SameChild m₂ 1 ∧ AllocSafe m.kernel := by
  have hends : bootRun.ends 32 [] (Machine.killThenFork 1 0 false) = true := by decide +kernel
  obtain ⟨k, k', hboot, hrun, hcheck⟩ := bootRun.of_ends (by decide) (by decide) hends
  cases hrun
  simp only [Machine.killThenFork, and_eq_true, decide_eq_true_eq, beq_iff_eq] at hcheck
  obtain ⟨⟨⟨hruns, hc⟩, hfirst⟩, hsecond⟩ := hcheck
  obtain ⟨hslot₁, m₁, hs₁, hmade₁, -⟩ := of_bears hfirst
  obtain ⟨hslot₂, m₂, hs₂, hmade₂, -⟩ := of_bears hsecond
  have hkill := exec_kill hruns hc
  have hguard : Run.Guarded Machine.step Machine.Tidy (Machine.start k) [.kill 0 1] := by
    refine ⟨?_, fun _ _ => trivial⟩
    simp only [Machine.Tidy, Machine.tidy, Machine.start, hc]
    exact decide_eq_true hruns.live
  have hnil : Run.Guarded Machine.step Machine.Tidy (Machine.start k) [] := trivial
  obtain ⟨hsame, -, hsafe⟩ := slots_hygienic hboot hboot hnil hguard rfl hkill hslot₁ hslot₂
    (sameParent_killed k 0 0)
  exact ⟨_, k, _, m₁, m₂, hboot, hkill, hs₁, hs₂, hsame m₁ m₂ hs₁ hs₂ hmade₁ hmade₂, hsafe⟩

end Xv6
