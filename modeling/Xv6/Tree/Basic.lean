/-
The process tree of `kernel/proc.c`: `fork`, `exit`, `wait` and `wait2` as far as they are about
parents, children and exit statuses, under `wait_lock`.

A process is the thread of its slot.  What it does elsewhere, and the scheduler, which moves it
between RUNNABLE, RUNNING and SLEEPING, are left out: these states are `live` here.  `p->lock`
counts where one process waits for another to let it go: in `sleep`, which the monitor takes
care of, and from the store of ZOMBIE in `exit` to the switch to the scheduler.
-/
import Xv6.Lib.Monitor
import Xv6.Param

namespace Xv6.Tree

open List

/-- `enum procstate`, with the states of a process that can be scheduled taken together. -/
inductive Life where
  | unused
  | used
  | live
  | zombie
  deriving DecidableEq, Repr

/-- A slot of `proc[]`.  `serial` numbers the calls of `allocproc`, `forker` is the process that
is filling a slot which is `used`, and `switching` says that the process holds its own lock on
the way out of `exit`. -/
structure Entry where
  state : Life
  parent : Option Nat
  pid : Nat
  xstate : Int
  serial : Nat
  forker : Option Nat
  switching : Bool

structure Exited where
  serial : Nat
  pid : Nat
  status : Int
  deriving DecidableEq, Repr

/-- The process table, with the calls of `exit` so far and those that a `wait` has returned. -/
structure Table where
  proc : Nat → Entry
  initproc : Nat
  nextpid : Nat
  serials : Nat
  exits : List Exited
  returned : List Exited

inductive Loc where
  /-- The slot has no process that runs. -/
  | parked
  | user (ret : Int)
  /-- `allocproc` has given the slot `np`. -/
  | fork (np : Nat)
  | link (np : Nat)
  | forked (np : Nat)
  /-- The loop of `reparent`, called by `exit`. -/
  | exit (status : Int) (pp : Nat)
  | bury (status : Int)
  | buried
  | switch
  /-- The loop of `wait`. -/
  | scan (havekids : Bool) (np : Nat)

/-- A call, the slot that `allocproc` finds, whether the rest of `fork` succeeds, and whether
`wait` can store the status.  `wait2` also stores the time used, and goes on if it cannot. -/
inductive Input where
  | fork (np : Option Nat)
  | built (done : Bool)
  | exit (status : Int)
  | wait
  | copyout (done : Bool)

abbrev Act := Monitor.Act Table Loc (Option Nat)
abbrev State := Monitor.State Table Loc (Option Nat)
abbrev Event := Monitor.Event Input

namespace Table

variable (d : Table)

def setEntry (c : Nat) (e : Entry) : Table := { d with proc := Function.update d.proc c e }

/-- `allocproc`, called by the `fork` of `t`. -/
def allocproc (np t : Nat) : Table :=
  { d.setEntry np { d.proc np with
      state := .used, pid := d.nextpid, serial := d.serials, forker := some t } with
    nextpid := (d.nextpid + 1) % 2 ^ 32, serials := d.serials + 1 }

def cleared (e : Entry) : Entry :=
  { e with state := .unused, parent := none, pid := 0, xstate := 0 }

def freeproc (c : Nat) : Table := d.setEntry c (cleared (d.proc c))

def setParent (c p : Nat) : Table := d.setEntry c { d.proc c with parent := some p }

def setRunnable (c : Nat) : Table := d.setEntry c { d.proc c with state := .live, forker := none }

def exited (c : Nat) : Exited := ⟨(d.proc c).serial, (d.proc c).pid, (d.proc c).xstate⟩

/-- `p->xstate = status; p->state = ZOMBIE`, with `p->lock` held. -/
def setZombie (c : Nat) (status : Int) : Table :=
  { d.setEntry c { d.proc c with state := .zombie, xstate := status, switching := true } with
    exits := d.exits ++ [⟨(d.proc c).serial, (d.proc c).pid, status⟩] }

/-- The scheduler releases the lock of a process that has switched to it. -/
def switched (c : Nat) : Table := d.setEntry c { d.proc c with switching := false }

/-- A child is returned and freed. -/
def reap (c : Nat) : Table := { d.freeproc c with returned := d.returned ++ [d.exited c] }

end Table

/-- The body of the loop of `reparent`, and after it `wakeup(p->parent)`. -/
def exit (d : Table) (t : Nat) (status : Int) (pp : Nat) : Act :=
  if pp < nproc then
    if (d.proc pp).parent = some t then
      .wakeup (some d.initproc) (d.setParent pp d.initproc) (.exit status (pp + 1))
    else .goto d (.exit status (pp + 1))
  else .wakeup (d.proc t).parent d (.bury status)

/-- The body of the loop of `wait`, and what follows it.  `acquire(&np->lock)` waits for a child
that is on its way out of `exit`. -/
def wait (d : Table) (t : Nat) (killed havekids : Bool) (np : Nat) (inp : Input) : Act :=
  if np < nproc then
    if (d.proc np).parent = some t then
      if (d.proc np).switching then .goto d (.scan havekids np)
      else if (d.proc np).state = .zombie then
        match inp with
        | .copyout false => .release d (.user (-1))
        | _ => .release (d.reap np) (.user (d.proc np).pid)
      else .goto d (.scan true (np + 1))
    else .goto d (.scan havekids (np + 1))
  else if havekids = false ∨ killed = true then .release d (.user (-1))
  else .sleep (some t) d (.scan false 0)

def inside (t : Nat) (killed : Bool) (ℓ : Loc) (d : Table) (inp : Input) : Act :=
  match ℓ with
  | .link np => .release (d.setParent np t) (.forked np)
  | .exit status pp => exit d t status pp
  | .bury status => .goto (d.setZombie t status) .buried
  | .buried => .release d .switch
  | .scan havekids np => wait d t killed havekids np inp
  | ℓ => .release d ℓ

def outside (t : Nat) (ℓ : Loc) (d : Table) (inp : Input) :
    Except Panic (Monitor.Move Table Loc) :=
  match ℓ, inp with
  | .parked, _ => .ok (if (d.proc t).state = .live then .goto d (.user 0) else .stay)
  | .user _, .fork none => .ok (.goto d (.user (-1)))
  | .user _, .fork (some np) =>
    .ok (if np < nproc ∧ (d.proc np).state = .unused then .goto (d.allocproc np t) (.fork np)
      else .stay)
  | .user _, .exit status =>
    if t = d.initproc then .error .initExiting else .ok (.acquire d (.exit status 0))
  | .user _, .wait => .ok (.acquire d (.scan false 0))
  | .fork np, .built true => .ok (.acquire d (.link np))
  | .fork np, .built false => .ok (.goto (d.freeproc np) (.user (-1)))
  | .forked np, _ => .ok (.goto (d.setRunnable np) (.user (d.proc np).pid))
  | .switch, _ => .ok (.goto (d.switched t) .parked)
  | _, _ => .ok .stay

def client : Monitor.Client Table Loc (Option Nat) Input Panic where
  inside t killed ℓ d inp := .ok (inside t killed ℓ d inp)
  outside t _ ℓ d inp := outside t ℓ d inp
  env d _ := d

def step : State → Event → Except Panic State := Monitor.step client nproc

/-- The state after `userinit`: `initproc` is the only process. -/
structure Start (s : State) : Prop where
  init : s.data.initproc < nproc
  first : (s.data.proc s.data.initproc).state = .live
  root : (s.data.proc s.data.initproc).parent = none
  serial : (s.data.proc s.data.initproc).serial < s.data.serials
  others : ∀ c, c ≠ s.data.initproc →
    (s.data.proc c).state = .unused ∧ (s.data.proc c).parent = none
  settled : ∀ c, (s.data.proc c).switching = false
  exits : s.data.exits = []
  returned : s.data.returned = []
  holder : s.holder = none
  ctl : ∀ t, s.ctl t = .out .parked

/-! ## What holds of the table -/

namespace Table

variable {d : Table} {t c np : Nat}

@[simp] theorem setEntry_self (d : Table) (c : Nat) (e : Entry) : (d.setEntry c e).proc c = e :=
  Function.update_self ..

theorem setEntry_of_ne (d : Table) {c x : Nat} (h : x ≠ c) (e : Entry) :
    (d.setEntry c e).proc x = d.proc x := Function.update_of_ne h ..

/-- Parents are alive, and every process but the first has one. -/
structure Rooted (d : Table) : Prop where
  slot : ∀ c, (d.proc c).state ≠ .unused → c < nproc
  empty : ∀ c, (d.proc c).state = .unused → (d.proc c).parent = none
  init : (d.proc d.initproc).state = .live ∧ (d.proc d.initproc).parent = none
  parent : ∀ c p, (d.proc c).parent = some p → (d.proc p).state = .live
  orphan : ∀ c, (d.proc c).state = .live ∨ (d.proc c).state = .zombie → c ≠ d.initproc →
    (d.proc c).parent ≠ none

/-- Every exit is recorded once, and returned at most once. -/
structure Recorded (d : Table) : Prop where
  serial : ∀ c, (d.proc c).state ≠ .unused → (d.proc c).serial < d.serials
  distinct : ∀ c x, (d.proc c).state ≠ .unused → (d.proc x).state ≠ .unused →
    (d.proc c).serial = (d.proc x).serial → c = x
  zombie : ∀ c, (d.proc c).state = .zombie → d.exited c ∈ d.exits
  running : ∀ c, (d.proc c).state = .used ∨ (d.proc c).state = .live →
    ∀ x ∈ d.exits, x.serial ≠ (d.proc c).serial
  past : ∀ x ∈ d.exits, x.serial < d.serials
  once : (d.exits.map (·.serial)).Nodup
  subset : ∀ x ∈ d.returned, x ∈ d.exits
  gone : ∀ x ∈ d.returned, ∀ c, (d.proc c).state ≠ .unused → (d.proc c).serial ≠ x.serial
  returnedOnce : (d.returned.map (·.serial)).Nodup

theorem Rooted.of_entry {d' : Table} (h : d.Rooted) (hinit : d'.initproc = d.initproc)
    (hothers : ∀ x, x ≠ c → d'.proc x = d.proc x)
    (hslot : (d'.proc c).state ≠ .unused → c < nproc)
    (hempty : (d'.proc c).state = .unused → (d'.proc c).parent = none)
    (hfirst : c = d.initproc → (d'.proc c).state = .live ∧ (d'.proc c).parent = none)
    (hparent : ∀ p, (d'.proc c).parent = some p → (d'.proc p).state = .live)
    (hlive : (d.proc c).state = .live → (d'.proc c).state = .live ∨ ∀ x, (d'.proc x).parent ≠ some c)
    (horphan : (d'.proc c).state = .live ∨ (d'.proc c).state = .zombie → c ≠ d.initproc →
      (d'.proc c).parent ≠ none) : d'.Rooted := by
  refine ⟨fun x hx => ?_, fun x hx => ?_, ?_, fun x p hp => ?_, fun x hx hne => ?_⟩
  · by_cases hxc : x = c
    · subst hxc
      exact hslot hx
    · rw [hothers x hxc] at hx
      exact h.slot x hx
  · by_cases hxc : x = c
    · subst hxc
      exact hempty hx
    · rw [hothers x hxc] at hx ⊢
      exact h.empty x hx
  · rw [hinit]
    by_cases hic : d.initproc = c
    · rw [hic]
      exact hfirst hic.symm
    · rw [hothers _ hic]
      exact h.init
  · by_cases hxc : x = c
    · subst hxc
      exact hparent p hp
    · by_cases hpc : p = c
      · subst hpc
        have hold := hp
        rw [hothers x hxc] at hold
        rcases hlive (h.parent x p hold) with hl | hnone
        · exact hl
        · exact absurd hp (hnone x)
      · rw [hothers x hxc] at hp
        rw [hothers p hpc]
        exact h.parent x p hp
  · rw [hinit] at hne
    by_cases hxc : x = c
    · subst hxc
      exact horphan hx hne
    · rw [hothers x hxc] at hx ⊢
      exact h.orphan x hx hne

theorem Rooted.allocproc (h : d.Rooted) (hnp : np < nproc) (hu : (d.proc np).state = .unused)
    (t : Nat) : (d.allocproc np t).Rooted := by
  have hself : (d.allocproc np t).proc np = { d.proc np with
      state := .used, pid := d.nextpid, serial := d.serials, forker := some t } :=
    setEntry_self ..
  refine h.of_entry (c := np) rfl (fun x hx => setEntry_of_ne d hx _) (fun _ => hnp) ?_ ?_ ?_ ?_ ?_
  · rw [hself]
    exact nofun
  · intro he
    rw [he, h.init.1] at hu
    cases hu
  · intro p hp
    rw [hself] at hp
    cases (h.empty np hu).symm.trans hp
  · intro hl
    rw [hu] at hl
    cases hl
  · rw [hself]
    rintro (he | he) <;> cases he

theorem Rooted.freeproc (h : d.Rooted) (hne : c ≠ d.initproc) (hdead : (d.proc c).state ≠ .live) :
    (d.freeproc c).Rooted := by
  have hself : (d.freeproc c).proc c = cleared (d.proc c) := setEntry_self ..
  refine h.of_entry (c := c) rfl (fun x hx => setEntry_of_ne d hx _) ?_ ?_ (fun he => absurd he hne)
    ?_ (fun hl => absurd hl hdead) ?_
  · rw [hself]
    exact fun he => absurd rfl he
  · rw [hself]
    exact fun _ => rfl
  · rw [hself]
    exact fun p hp => (nomatch hp)
  · rw [hself]
    rintro (he | he) <;> cases he

theorem state_setParent (d : Table) (c p x : Nat) :
    ((d.setParent c p).proc x).state = (d.proc x).state := by
  refine Run.same_of_others (fun x hx => setEntry_of_ne d hx _) Entry.state ?_ x
  rw [setEntry_self]

theorem Rooted.setParent {p : Nat} (h : d.Rooted) (hu : (d.proc c).state ≠ .unused)
    (hne : c ≠ d.initproc) (hp : (d.proc p).state = .live) : (d.setParent c p).Rooted := by
  have hself : (d.setParent c p).proc c = { d.proc c with parent := some p } := setEntry_self ..
  have hstate := d.state_setParent c p
  refine h.of_entry (c := c) rfl (fun x hx => setEntry_of_ne d hx _) (fun _ => h.slot c hu) ?_
    (fun he => absurd he hne) ?_ ?_ ?_
  · rw [hstate]
    exact fun he => absurd he hu
  · intro p' hp'
    rw [hself] at hp'
    cases hp'
    rw [hstate]
    exact hp
  · rw [hstate]
    exact .inl
  · rw [hself]
    exact nofun

theorem Rooted.setRunnable (h : d.Rooted) (hu : (d.proc c).state = .used)
    (hp : (d.proc c).parent ≠ none) : (d.setRunnable c).Rooted := by
  have hself : (d.setRunnable c).proc c = { d.proc c with state := .live, forker := none } :=
    setEntry_self ..
  have hne : c ≠ d.initproc := by
    rintro rfl
    rw [h.init.1] at hu
    cases hu
  have hkeep : ∀ p, (d.proc p).state = .live → ((d.setRunnable c).proc p).state = .live := by
    intro p hl
    by_cases hx : p = c
    · rw [hx, hself]
    · rwa [Table.setRunnable, setEntry_of_ne d hx]
  refine h.of_entry (c := c) rfl (fun x hx => setEntry_of_ne d hx _)
    (fun _ => h.slot c (by rw [hu]; decide)) ?_ (fun he => absurd he hne) ?_
    (fun _ => .inl (by rw [hself])) ?_
  · rw [hself]
    exact nofun
  · intro p hpar
    rw [hself] at hpar
    exact hkeep p (h.parent c p hpar)
  · rw [hself]
    exact fun _ _ => hp

theorem Rooted.setZombie (h : d.Rooted) (hl : (d.proc c).state = .live) (hne : c ≠ d.initproc)
    (hnone : ∀ x, (d.proc x).parent ≠ some c) (status : Int) : (d.setZombie c status).Rooted := by
  have hself : (d.setZombie c status).proc c =
      { d.proc c with state := .zombie, xstate := status, switching := true } := setEntry_self ..
  have hothers : ∀ x, x ≠ c → (d.setZombie c status).proc x = d.proc x := fun x hx =>
    setEntry_of_ne d hx _
  refine h.of_entry (c := c) rfl hothers (fun _ => h.slot c (by rw [hl]; decide)) ?_
    (fun he => absurd he hne) ?_ (fun _ => .inr fun x hx => ?_) ?_
  · rw [hself]
    exact nofun
  · intro p hp
    rw [hself] at hp
    have hpc : p ≠ c := fun he => hnone c (he ▸ hp)
    rw [hothers p hpc]
    exact h.parent c p hp
  · by_cases hxc : x = c
    · rw [hxc, hself] at hx
      exact hnone c hx
    · rw [hothers x hxc] at hx
      exact hnone x hx
  · rw [hself]
    exact fun _ hne => h.orphan c (.inl hl) hne

section

variable (h : d.Recorded)

include h

theorem Recorded.keep {d' : Table} (hused : ∀ x, (d'.proc x).state ≠ .unused →
      (d.proc x).state ≠ .unused ∧ (d'.proc x).serial = (d.proc x).serial)
    (hzombie : ∀ x, (d'.proc x).state = .zombie →
      (d.proc x).state = .zombie ∧ d'.exited x = d.exited x)
    (hrunning : ∀ x, (d'.proc x).state = .used ∨ (d'.proc x).state = .live →
      (d.proc x).state = .used ∨ (d.proc x).state = .live) (hserials : d'.serials = d.serials)
    (hexits : d'.exits = d.exits) (hreturned : d'.returned = d.returned) : d'.Recorded := by
  refine ⟨fun x hx => ?_, fun x y hx hy he => ?_, fun x hx => ?_, fun x hx z hz => ?_, ?_, ?_, ?_,
    fun z hz x hx => ?_, ?_⟩
  · rw [(hused x hx).2, hserials]
    exact h.serial x (hused x hx).1
  · rw [(hused x hx).2, (hused y hy).2] at he
    exact h.distinct x y (hused x hx).1 (hused y hy).1 he
  · rw [(hzombie x hx).2, hexits]
    exact h.zombie x (hzombie x hx).1
  · rw [hexits] at hz
    rw [(hused x (by rcases hx with hx | hx <;> rw [hx] <;> decide)).2]
    exact h.running x (hrunning x hx) z hz
  · simpa only [hexits, hserials] using h.past
  · simpa only [hexits] using h.once
  · simpa only [hreturned, hexits] using h.subset
  · rw [(hused x hx).2]
    exact h.gone z (hreturned ▸ hz) x (hused x hx).1
  · simpa only [hreturned] using h.returnedOnce

theorem Recorded.congr {d' : Table} (hstate : ∀ x, (d'.proc x).state = (d.proc x).state)
    (hexited : ∀ x, d'.exited x = d.exited x) (hserials : d'.serials = d.serials)
    (hexits : d'.exits = d.exits) (hreturned : d'.returned = d.returned) : d'.Recorded :=
  h.keep (fun x hx => ⟨hstate x ▸ hx, congrArg Exited.serial (hexited x)⟩)
    (fun x hx => ⟨hstate x ▸ hx, hexited x⟩) (fun x hx => hstate x ▸ hx) hserials hexits hreturned

theorem Recorded.allocproc (hu : (d.proc np).state = .unused) (t : Nat) :
    (d.allocproc np t).Recorded := by
  have hself : (d.allocproc np t).proc np = { d.proc np with
      state := .used, pid := d.nextpid, serial := d.serials, forker := some t } :=
    setEntry_self ..
  have hothers : ∀ x, x ≠ np → (d.allocproc np t).proc x = d.proc x := fun x hx =>
    setEntry_of_ne d hx _
  have hnew : ∀ x, x ≠ np → (d.proc x).state ≠ .unused → (d.proc x).serial ≠ d.serials :=
    fun x _ hx => Nat.ne_of_lt (h.serial x hx)
  refine ⟨fun x hx => ?_, fun x y hx hy he => ?_, fun x hx => ?_, fun x hx z hz => ?_,
    fun z hz => Nat.lt_succ_of_lt (h.past z hz), h.once, h.subset, fun z hz x hx => ?_,
    h.returnedOnce⟩
  · by_cases hxn : x = np
    · rw [hxn, hself]
      exact Nat.lt_succ_self _
    · rw [hothers x hxn] at hx ⊢
      exact Nat.lt_succ_of_lt (h.serial x hx)
  · by_cases hxn : x = np
    · by_cases hyn : y = np
      · rw [hxn, hyn]
      · rw [hothers y hyn] at hy he
        rw [hxn, hself] at he
        exact absurd he.symm (hnew y hyn hy)
    · rw [hothers x hxn] at hx he
      by_cases hyn : y = np
      · rw [hyn, hself] at he
        exact absurd he (hnew x hxn hx)
      · rw [hothers y hyn] at hy he
        exact h.distinct x y hx hy he
  · have hxn : x ≠ np := by
      rintro rfl
      rw [hself] at hx
      cases hx
    rw [exited, hothers x hxn]
    rw [hothers x hxn] at hx
    exact h.zombie x hx
  · by_cases hxn : x = np
    · rw [hxn, hself]
      exact Nat.ne_of_lt (h.past z hz)
    · rw [hothers x hxn] at hx ⊢
      exact h.running x hx z hz
  · by_cases hxn : x = np
    · rw [hxn, hself]
      exact Nat.ne_of_gt (h.past z (h.subset z hz))
    · rw [hothers x hxn] at hx ⊢
      exact h.gone z hz x hx

theorem Recorded.freeproc (c : Nat) : (d.freeproc c).Recorded := by
  have hused : ∀ x, ((d.freeproc c).proc x).state ≠ .unused → (d.freeproc c).proc x = d.proc x := by
    intro x hx
    refine setEntry_of_ne d ?_ _
    rintro rfl
    rw [Table.freeproc, setEntry_self] at hx
    exact hx rfl
  refine h.keep (fun x hx => ?_) (fun x hx => ?_) (fun x hx => ?_) rfl rfl rfl
  · have hsame := hused x hx
    rw [hsame] at hx ⊢
    exact ⟨hx, rfl⟩
  · have hsame := hused x (by rw [hx]; decide)
    rw [exited, hsame]
    exact ⟨hsame ▸ hx, rfl⟩
  · rwa [hused x (by rcases hx with hx | hx <;> rw [hx] <;> decide)] at hx

theorem Recorded.reap (hz : (d.proc c).state = .zombie) : (d.reap c).Recorded := by
  have hf := h.freeproc c
  have hlive : (d.proc c).state ≠ .unused := by
    rw [hz]
    decide
  refine ⟨hf.serial, hf.distinct, hf.zombie, hf.running, hf.past, hf.once, fun z hmem => ?_,
    fun z hmem x hx => ?_, ?_⟩
  · rcases mem_append.1 hmem with hmem | hmem
    · exact h.subset z hmem
    · rw [mem_singleton.1 hmem]
      exact h.zombie c hz
  · rcases mem_append.1 hmem with hmem | hmem
    · exact hf.gone z hmem x hx
    · rw [mem_singleton.1 hmem]
      have hxc : x ≠ c := by
        rintro rfl
        rw [Table.reap, Table.freeproc] at hx
        simp only [setEntry_self] at hx
        exact hx rfl
      have hx' : (d.proc x).state ≠ .unused := by
        simpa only [Table.reap, Table.freeproc, setEntry_of_ne d hxc] using hx
      have hserial : ((d.reap c).proc x).serial = (d.proc x).serial := by
        simp only [Table.reap, Table.freeproc, setEntry_of_ne d hxc]
      rw [hserial]
      exact fun he => hxc (h.distinct x c hx' hlive he)
  · rw [Table.reap, map_append, nodup_append]
    refine ⟨h.returnedOnce, by simp, fun a ha b hb he => ?_⟩
    obtain ⟨z, hmem, rfl⟩ := mem_map.1 ha
    simp only [map_cons, map_nil, mem_singleton] at hb
    exact h.gone z hmem c hlive (by rw [he, hb]; rfl)

theorem Recorded.setRunnable (hu : (d.proc c).state = .used) : (d.setRunnable c).Recorded := by
  have hself : (d.setRunnable c).proc c = { d.proc c with state := .live, forker := none } :=
    setEntry_self ..
  have hothers : ∀ x, x ≠ c → (d.setRunnable c).proc x = d.proc x := fun x hx =>
    setEntry_of_ne d hx _
  refine h.keep (fun x hx => ⟨?_, Run.same_of_others hothers _ (by rw [hself]) x⟩) (fun x hx => ?_)
    (fun x hx => ?_) rfl rfl rfl <;> by_cases hxc : x = c
  · rw [hxc, hu]
    decide
  · rwa [hothers x hxc] at hx
  · rw [hxc, hself] at hx
    cases hx
  · rw [exited, hothers x hxc] at *
    exact ⟨hx, rfl⟩
  · rw [hxc]
    exact .inl hu
  · rwa [hothers x hxc] at hx

theorem Recorded.setZombie (hl : (d.proc c).state = .live) (status : Int) :
    (d.setZombie c status).Recorded := by
  have hself : (d.setZombie c status).proc c =
      { d.proc c with state := .zombie, xstate := status, switching := true } := setEntry_self ..
  have hothers : ∀ x, x ≠ c → (d.setZombie c status).proc x = d.proc x := fun x hx =>
    setEntry_of_ne d hx _
  have hserial := Run.same_of_others hothers Entry.serial (by rw [hself])
  have hstate : ∀ x, ((d.setZombie c status).proc x).state ≠ .unused →
      (d.proc x).state ≠ .unused := by
    intro x hx
    by_cases hxc : x = c
    · rw [hxc, hl]
      decide
    · rwa [hothers x hxc] at hx
  have hlive : (d.proc c).state ≠ .unused := by
    rw [hl]
    decide
  have hexits : (d.setZombie c status).exits =
      d.exits ++ [⟨(d.proc c).serial, (d.proc c).pid, status⟩] := rfl
  refine ⟨fun x hx => ?_, fun x y hx hy he => ?_, fun x hx => ?_, fun x hx z hz => ?_,
    fun z hz => ?_, ?_, fun z hz => ?_, fun z hz x hx => ?_, h.returnedOnce⟩
  · rw [hserial]
    exact h.serial x (hstate x hx)
  · rw [hserial, hserial] at he
    exact h.distinct x y (hstate x hx) (hstate y hy) he
  · rw [hexits]
    by_cases hxc : x = c
    · rw [hxc, exited, hself]
      simp
    · rw [exited, hothers x hxc]
      rw [hothers x hxc] at hx
      exact mem_append_left _ (h.zombie x hx)
  · have hxc : x ≠ c := by
      rintro rfl
      rw [hself] at hx
      rcases hx with hx | hx <;> cases hx
    rw [hothers x hxc] at hx ⊢
    rcases mem_append.1 hz with hz | hz
    · exact h.running x hx z hz
    · rw [mem_singleton.1 hz]
      intro he
      exact hxc (h.distinct x c (by rcases hx with hx | hx <;> rw [hx] <;> decide) hlive he.symm)
  · rw [hexits] at hz
    rcases mem_append.1 hz with hz | hz
    · exact h.past z hz
    · rw [mem_singleton.1 hz]
      exact h.serial c hlive
  · rw [hexits, map_append, nodup_append]
    refine ⟨h.once, by simp, fun a ha b hb he => ?_⟩
    obtain ⟨z, hz, rfl⟩ := mem_map.1 ha
    simp only [map_cons, map_nil, mem_singleton] at hb
    exact h.running c (.inr hl) z hz (he.trans hb)
  · rw [hexits]
    exact mem_append_left _ (h.subset z hz)
  · rw [hserial]
    exact h.gone z hz x (hstate x hx)

theorem Recorded.setEntry {e : Entry} (hstate : e.state = (d.proc c).state)
    (hserial : e.serial = (d.proc c).serial) (hpid : e.pid = (d.proc c).pid)
    (hx : e.xstate = (d.proc c).xstate) : (d.setEntry c e).Recorded := by
  have hothers : ∀ x, x ≠ c → (d.setEntry c e).proc x = d.proc x := fun x hx =>
    setEntry_of_ne d hx e
  refine h.congr (Run.same_of_others hothers _ (by rw [setEntry_self, hstate]))
    (Run.same_of_others hothers (fun e => Exited.mk e.serial e.pid e.xstate) ?_) rfl rfl rfl
  rw [setEntry_self, hserial, hpid, hx]

end

theorem Rooted.switched (h : d.Rooted) (c : Nat) : (d.switched c).Rooted := by
  have hself : (d.switched c).proc c = { d.proc c with switching := false } := setEntry_self ..
  have hothers : ∀ x, x ≠ c → (d.switched c).proc x = d.proc x := fun x hx => setEntry_of_ne d hx _
  have hstate := Run.same_of_others hothers Entry.state (by rw [hself])
  have hparent := Run.same_of_others hothers Entry.parent (by rw [hself])
  have hinit : (d.switched c).initproc = d.initproc := rfl
  refine ⟨?_, ?_, ?_, ?_, ?_⟩
  · simpa only [hstate] using h.slot
  · simpa only [hstate, hparent] using h.empty
  · simpa only [hinit, hstate, hparent] using h.init
  · simpa only [hstate, hparent] using h.parent
  · simpa only [hinit, hstate, hparent] using h.orphan

end Table

end Xv6.Tree
