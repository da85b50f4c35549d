/-
The timer interrupt: how `usertrap` and `kerneltrap` of `kernel/trap.c` account for the slices
of a process, and the demotion that a multilevel feedback queue stands for.

The counters are as wide as the source has them, so a decrement of 0 wraps.  The global
`tempsticks`, which nothing reads, is left out.
-/
import Mathlib.Tactic.SplitIfs
import Xv6.Sched.Basic

namespace Xv6.Sched

variable {n : Nat} {x : Slice} {t : Turn}

inductive Policy where
  | rr
  | mlfq
  deriving DecidableEq, Repr

/-- The fields of `struct proc` that a timer interrupt reads or writes. -/
@[ext]
structure Slice where
  priority : Int
  tsticks : UInt32
  timeslice : UInt32
  cputime : UInt64
  deriving DecidableEq, Repr

namespace Slice

/-- The slice that has ended is added to `cputime` and `tsticks` is reloaded; `ticksHigh` is what
the handler stores at priority HIGH. -/
def charge (ticksHigh : Nat) (x : Slice) : Slice :=
  if x.priority = low then
    { x with cputime := x.cputime + .ofNat tsticksLow, tsticks := .ofNat tsticksLow }
  else if x.priority = medium then
    { x with cputime := x.cputime + .ofNat tsticksMedium, tsticks := .ofNat tsticksMedium }
  else if x.priority = high then
    { x with cputime := x.cputime + .ofNat tsticksHigh, tsticks := .ofNat ticksHigh }
  else x

def lower (x : Slice) : Slice :=
  if (low : Int) < x.priority then
    let x : Slice := { x with priority := x.priority - 1 }
    let x : Slice := if x.priority = medium then
        { x with timeslice := .ofNat tsticksMedium, tsticks := .ofNat tsticksMedium }
      else x
    if x.priority = low then
      { x with timeslice := .ofNat tsticksLow, tsticks := .ofNat tsticksLow }
    else x
  else x

/-- What both handlers do before they call `yield`. -/
def timer (ticksHigh : Nat) (policy : Policy) (x : Slice) : Slice :=
  match policy with
  | .rr => { x with cputime := x.cputime + 1 }
  | .mlfq =>
    let x : Slice := { x with tsticks := x.tsticks - 1 }
    if x.tsticks ≤ 0 then (x.charge ticksHigh).lower else x

def usertrap : Policy → Slice → Slice := timer tsticksHigh

/-- The timer interrupt in `kerneltrap`, which reloads `tsticks` with HIGH, not TSTICKSHIGH. -/
def kerneltrap : Policy → Slice → Slice := timer high

def interrupt (policy : Policy) (user : Bool) : Slice → Slice :=
  if user then usertrap policy else kerneltrap policy

def allocproc : Slice where
  priority := high
  tsticks := .ofNat tsticksHigh
  timeslice := .ofNat tsticksHigh
  cputime := 0

/-! ## One interrupt -/

theorem timer_of_ne_one (ticksHigh : Nat) (h : x.tsticks ≠ 1) :
    x.timer ticksHigh .mlfq = { x with tsticks := x.tsticks - 1 } ∧ x.tsticks - 1 ≠ 0 := by
  have hne : x.tsticks - 1 ≠ 0 := fun h0 => h (by grind)
  have hle : ¬x.tsticks - 1 ≤ 0 := by grind
  exact ⟨by simp only [timer, if_neg hle], hne⟩

theorem timer_of_one (ticksHigh : Nat) (h : x.tsticks = 1) :
    x.timer ticksHigh .mlfq = (charge ticksHigh { x with tsticks := 0 }).lower := by
  have hz : x.tsticks - 1 = 0 := by rw [h]; rfl
  simp only [timer, hz, UInt32.le_refl, if_true]

/-- At the levels that exist the slice is reloaded and the level stays: `lower` looks for a
number above LOW, and LOW is the highest of them. -/
theorem timer_at_level (ticksHigh : Nat) (h : x.tsticks = 1) :
    (x.priority = low → x.timer ticksHigh .mlfq = { x with
      tsticks := .ofNat tsticksLow, cputime := x.cputime + .ofNat tsticksLow }) ∧
    (x.priority = medium → x.timer ticksHigh .mlfq = { x with
      tsticks := .ofNat tsticksMedium, cputime := x.cputime + .ofNat tsticksMedium }) ∧
    (x.priority = high → x.timer ticksHigh .mlfq = { x with
      tsticks := .ofNat ticksHigh, cputime := x.cputime + .ofNat tsticksHigh }) := by
  rw [timer_of_one ticksHigh h]
  refine ⟨fun hp => ?_, fun hp => ?_, fun hp => ?_⟩ <;>
    simp [charge, lower, hp, low, medium, high]

theorem timer_off_level (ticksHigh : Nat) (h : x.tsticks = 1) (hl : x.priority ≠ low)
    (hm : x.priority ≠ medium) (hh : x.priority ≠ high) :
    x.timer ticksHigh .mlfq = lower { x with tsticks := 0 } ∧
    (lower { x with tsticks := 0 }).tsticks =
      if x.priority = low + 1 then .ofNat tsticksLow else 0 := by
  have hcharge : charge ticksHigh { x with tsticks := 0 } = { x with tsticks := 0 } := by
    simp only [charge, if_neg hl, if_neg hm, if_neg hh]
  rw [timer_of_one ticksHigh h, hcharge]
  refine ⟨rfl, ?_⟩
  by_cases habove : (low : Int) < x.priority
  · -- a level above LOW is at least 3, so one below it is never MEDIUM
    have hnm : x.priority - 1 ≠ medium := by simp only [low, medium] at *; omega
    have hlow : x.priority - 1 = low ↔ x.priority = low + 1 := by omega
    simp only [lower, if_pos habove, if_neg hnm, hlow]
    split <;> rfl
  · rw [if_neg (by omega)]
    simp only [lower, if_neg habove]

/-- What one would want of the two handlers: they agree, and `tsticks` is not left at 0. -/
def Agree (x : Slice) : Prop :=
  x.usertrap .mlfq = x.kerneltrap .mlfq ∧
    (x.usertrap .mlfq).tsticks ≠ 0 ∧ (x.kerneltrap .mlfq).tsticks ≠ 0

instance (x : Slice) : Decidable x.Agree := inferInstanceAs (Decidable (_ ∧ _ ∧ _))

/-- A slice that ends at HIGH is reloaded with 0 in kernel code, and one that ends at a number
that is no level is not reloaded at all. -/
theorem agree_iff (x : Slice) : x.Agree ↔
    (x.tsticks = 1 → x.priority = medium ∨ x.priority = low ∨ x.priority = low + 1) := by
  by_cases h1 : x.tsticks = 1
  · obtain ⟨huLow, huMedium, huHigh⟩ := timer_at_level tsticksHigh h1
    obtain ⟨hkLow, hkMedium, hkHigh⟩ := timer_at_level high h1
    by_cases hl : x.priority = low
    · simp only [Agree, usertrap, kerneltrap, huLow hl, hkLow hl]
      exact ⟨fun _ _ => .inr (.inl hl), fun _ => ⟨trivial, by decide, by decide⟩⟩
    by_cases hm : x.priority = medium
    · simp only [Agree, usertrap, kerneltrap, huMedium hm, hkMedium hm]
      exact ⟨fun _ _ => .inl hm, fun _ => ⟨trivial, by decide, by decide⟩⟩
    by_cases hh : x.priority = high
    · simp only [Agree, kerneltrap, hkHigh hh]
      refine ⟨fun h => absurd rfl h.2.2, fun h => ?_⟩
      have := h h1
      simp only [hh, high, medium, low] at this
      omega
    · obtain ⟨hu, hticks⟩ := timer_off_level tsticksHigh h1 hl hm hh
      obtain ⟨hk, -⟩ := timer_off_level high h1 hl hm hh
      simp only [Agree, usertrap, kerneltrap, hu, hk, hticks]
      by_cases hn : x.priority = low + 1
      · exact ⟨fun _ _ => .inr (.inr hn), fun _ => by rw [if_pos hn]; exact ⟨trivial, by decide⟩⟩
      · rw [if_neg hn]
        refine ⟨fun h => absurd rfl h.2.1, fun h => ?_⟩
        rcases h h1 with h | h | h <;> contradiction
  · obtain ⟨hu, hne⟩ := timer_of_ne_one tsticksHigh h1
    obtain ⟨hk, -⟩ := timer_of_ne_one high h1
    simp only [Agree, usertrap, kerneltrap, hu, hk]
    exact ⟨fun _ h => absurd h h1, fun _ => ⟨trivial, hne, hne⟩⟩

/-- The one tick of a new process ends in kernel code. -/
theorem not_agree_allocproc : ¬allocproc.Agree := by decide

/-- The machine of `Sched.Basic`, which leaves out the two fields that only `procinfo` and
`wait2` report, takes the same steps. -/
theorem timer_eq_tick (ticksHigh : Nat) (x : Proc) (timeslice : UInt32) (cputime : UInt64) :
    let y := timer ticksHigh .mlfq ⟨x.priority, x.tsticks, timeslice, cputime⟩
    y.priority = (Sched.tick ticksHigh x).priority ∧
      y.tsticks = (Sched.tick ticksHigh x).tsticks := by
  obtain ⟨state, chan, pid, killed, priority, tsticks, next⟩ := x
  by_cases hend : tsticks - 1 ≤ 0
  · match priority with
    | 0 | 1 | 2 | 3 => simp [timer, charge, lower, Sched.tick, hend, low, medium, high]
    | n + 4 =>
      have h1 : (n : Int) + 4 ≠ 1 := by omega
      have h0 : (n : Int) + 4 ≠ 0 := by omega
      have h2 : (n : Int) + 4 ≠ 2 := by omega
      have h3 : (n : Int) + 4 - 1 ≠ 2 ∧ (n : Int) + 4 - 1 ≠ 1 ∧ (2 : Int) < n + 4 := by omega
      simp [timer, charge, lower, Sched.tick, hend, low, medium, high, h0, h1, h2, h3]
      omega
  · simp [timer, Sched.tick, hend]

end Slice

/-! ## Demotion

What the levels are for: a process that has used up the slice of its level goes down one level. -/

inductive Level where
  | high
  | medium
  | low
  deriving DecidableEq, Repr

namespace Level

def index : Level → Nat
  | high => Xv6.high
  | medium => Xv6.medium
  | low => Xv6.low

def slice : Level → Nat
  | high => tsticksHigh
  | medium => tsticksMedium
  | low => tsticksLow

def below : Level → Level
  | high => medium
  | medium => low
  | low => low

theorem slice_pos (ℓ : Level) : 0 < ℓ.slice := by cases ℓ <;> decide

theorem slice_lt (ℓ : Level) : ℓ.slice < 2 ^ 32 := by cases ℓ <;> decide

theorem index_below_ne {ℓ : Level} (h : ℓ ≠ low) : ℓ.below.index ≠ ℓ.index := by
  cases ℓ <;> first | decide | exact absurd rfl h

end Level

/-- A level and the ticks that are left of its slice. -/
structure Turn where
  level : Level
  left : Nat
  pos : 0 < left
  le : left ≤ level.slice

namespace Turn

def full (ℓ : Level) : Turn := ⟨ℓ, ℓ.slice, ℓ.slice_pos, Nat.le_refl _⟩

def tick (t : Turn) : Turn :=
  if h : t.left = 1 then full t.level.below
  else ⟨t.level, t.left - 1, by have := t.pos; omega, by have := t.le; omega⟩

def ticks (t : Turn) : Nat → Turn
  | 0 => t
  | n + 1 => (t.ticks n).tick

theorem tick_of_ne_one (h : t.left ≠ 1) : t.tick.level = t.level ∧ t.tick.left = t.left - 1 := by
  simp only [tick, dif_neg h, and_self]

theorem tick_of_one (h : t.left = 1) : t.tick = full t.level.below := dif_pos h

/-- The ticks that a process takes before it is at LOW. -/
def toLow (t : Turn) : Nat :=
  match t.level with
  | .high => t.left + tsticksMedium
  | .medium => t.left
  | .low => 0

theorem toLow_tick (t : Turn) : t.tick.toLow = t.toLow - 1 := by
  obtain ⟨ℓ, left, hpos, hle⟩ := t
  by_cases h : left = 1
  · subst h
    cases ℓ <;> rfl
  · rw [tick, dif_neg h]
    cases ℓ with
    | high =>
      show left - 1 + tsticksMedium = left + tsticksMedium - 1
      omega
    | medium => rfl
    | low => rfl

theorem toLow_ticks (t : Turn) (n : Nat) : (t.ticks n).toLow = t.toLow - n := by
  induction n with
  | zero => rfl
  | succ n ih => rw [ticks, toLow_tick]; omega

theorem level_eq_low_iff (t : Turn) : t.level = .low ↔ t.toLow = 0 := by
  have := t.pos
  unfold toLow
  cases t.level <;> simp <;> omega

theorem toLow_le (t : Turn) : t.toLow ≤ tsticksHigh + tsticksMedium := by
  obtain ⟨ℓ, left, hpos, hle⟩ := t
  cases ℓ <;> simp only [toLow, Level.slice] at hle ⊢ <;> omega

theorem ticks_low (t : Turn) (h : tsticksHigh + tsticksMedium ≤ n) : (t.ticks n).level = .low := by
  rw [level_eq_low_iff, toLow_ticks]
  have := t.toLow_le
  omega

theorem ticks_of_lt (t : Turn) (h : n < t.left) :
    (t.ticks n).level = t.level ∧ (t.ticks n).left = t.left - n := by
  induction n with
  | zero => exact ⟨rfl, rfl⟩
  | succ n ih =>
    obtain ⟨hlevel, hleft⟩ := ih (by omega)
    obtain ⟨hl, hn⟩ := tick_of_ne_one (t := t.ticks n) (by omega)
    exact ⟨hl.trans hlevel, by rw [ticks]; omega⟩

theorem ticks_of_low (h : t.level = .low) (n : Nat) : (t.ticks n).level = .low := by
  rw [level_eq_low_iff] at h ⊢
  rw [toLow_ticks, h, Nat.zero_sub]

end Turn

/-- The queues in the order in which the MLFQ branch of `scheduler` looks at them. -/
def scanOrder : List Nat := [high, medium, low]

namespace Slice

structure At (x : Slice) (t : Turn) : Prop where
  priority : x.priority = t.level.index
  tsticks : x.tsticks = .ofNat t.left
  timeslice : x.timeslice = .ofNat t.level.slice

def run (x : Slice) (es : List Bool) : Slice := es.foldl (fun x user => x.interrupt .mlfq user) x

/-- The process follows its turn through all the interrupts; after enough of them it is at LOW,
and `yield` puts it in the queue that is looked at last. -/
def Demoted (x : Slice) (t : Turn) (es : List Bool) : Prop :=
  ∀ n ≤ es.length, (x.run (es.take n)).At (t.ticks n) ∧
    (tsticksHigh + tsticksMedium ≤ n → (x.run (es.take n)).priority = low ∧
      ∀ i ∈ scanOrder, i ≠ low →
        scanOrder.idxOf i < scanOrder.idxOf (x.run (es.take n)).priority.toNat)

theorem interrupt_eq (user : Bool) (x : Slice) :
    ∃ ticksHigh, x.interrupt .mlfq user = x.timer ticksHigh .mlfq := by
  cases user
  · exact ⟨high, rfl⟩
  · exact ⟨tsticksHigh, rfl⟩

theorem At.tsticks_eq_one (h : x.At t) : x.tsticks = 1 ↔ t.left = 1 := by
  have hlt : t.left < 2 ^ 32 := Nat.lt_of_le_of_lt t.le t.level.slice_lt
  rw [h.tsticks, ← UInt32.toNat_inj, UInt32.toNat_ofNat_of_lt' hlt]
  rfl

theorem At.interrupt (h : x.At t) (hl : t.level = .low ∨ 1 < t.left) (user : Bool) :
    (x.interrupt .mlfq user).At t.tick := by
  obtain ⟨ticksHigh, heq⟩ := interrupt_eq user x
  rw [heq]
  by_cases h1 : t.left = 1
  · have hlow : t.level = .low := hl.resolve_right (by omega)
    have hpri : x.priority = low := by rw [h.priority, hlow]; rfl
    rw [(timer_at_level ticksHigh (h.tsticks_eq_one.mpr h1)).1 hpri, Turn.tick_of_one h1, hlow]
    exact ⟨hpri, rfl, by rw [h.timeslice, hlow]; rfl⟩
  · obtain ⟨hlevel, hleft⟩ := Turn.tick_of_ne_one h1
    rw [(timer_of_ne_one ticksHigh (mt h.tsticks_eq_one.mp h1)).1]
    refine ⟨by rw [hlevel]; exact h.priority, ?_, by rw [hlevel]; exact h.timeslice⟩
    rw [hleft, UInt32.ofNat_sub t.pos, h.tsticks]
    rfl

theorem At.not_interrupt (h : x.At t) (hl : t.level ≠ .low) (h1 : t.left = 1) (user : Bool) :
    ¬(x.interrupt .mlfq user).At t.tick := by
  obtain ⟨ticksHigh, heq⟩ := interrupt_eq user x
  obtain ⟨-, hmedium, hhigh⟩ := timer_at_level ticksHigh (h.tsticks_eq_one.mpr h1)
  intro hat
  have hstays : (x.interrupt .mlfq user).priority = x.priority := by
    have hpri := h.priority
    rw [heq]
    cases hlevel : t.level with
    | high => rw [hhigh (by rw [hpri, hlevel]; rfl)]
    | medium => rw [hmedium (by rw [hpri, hlevel]; rfl)]
    | low => exact absurd hlevel hl
  have hdown := hat.priority
  rw [hstays, h.priority, Turn.tick_of_one h1] at hdown
  exact Level.index_below_ne hl (Int.ofNat_inj.mp hdown).symm

theorem run_take_succ (x : Slice) {es : List Bool} (h : n < es.length) :
    x.run (es.take (n + 1)) = (x.run (es.take n)).interrupt .mlfq es[n] := by
  rw [List.take_succ_eq_append_getElem h, run, List.foldl_append]
  rfl

/-- By induction on the interrupts: up to the end of the slice, and for ever at LOW. -/
theorem At.run (h : x.At t) {es : List Bool} (hn : n ≤ es.length) (hl : t.level = .low ∨ n < t.left) :
    (x.run (es.take n)).At (t.ticks n) := by
  induction n with
  | zero => exact h
  | succ n ih =>
    rw [run_take_succ x hn]
    apply (ih (by omega) (hl.imp_right (by omega))).interrupt
    rcases hl with hl | hl
    · exact .inl (Turn.ticks_of_low hl n)
    · exact .inr (by rw [(t.ticks_of_lt (by omega)).2]; omega)

/-- No process is ever demoted: the code lowers a level only above LOW, where there is none. -/
theorem demoted_iff {x : Slice} {t : Turn} (h : x.At t) (es : List Bool) :
    x.Demoted t es ↔ t.level = .low ∨ es.length < t.left := by
  constructor
  · intro hd
    by_contra hc
    obtain ⟨hl, hlen⟩ : t.level ≠ .low ∧ t.left ≤ es.length := by
      simpa only [not_or, Nat.not_lt] using hc
    obtain ⟨n, hleft⟩ : ∃ n, t.left = n + 1 := ⟨t.left - 1, by have := t.pos; omega⟩
    have hn : (x.run (es.take n)).At (t.ticks n) := h.run (by omega) (.inr (by omega))
    obtain ⟨hlevel, hone⟩ := t.ticks_of_lt (n := n) (by omega)
    have hend := (hd (n + 1) (by omega)).1
    rw [run_take_succ x (by omega)] at hend
    exact hn.not_interrupt (by rwa [hlevel]) (by omega) _ hend
  · intro hc n hn
    have hat := h.run hn (hc.imp_right (by omega))
    refine ⟨hat, fun hlong => ?_⟩
    have hpri : (x.run (es.take n)).priority = low := by
      rw [hat.priority, t.ticks_low hlong]; rfl
    rw [hpri]
    exact ⟨rfl, by decide⟩

/-- 49 interrupts do not end a slice at MEDIUM. -/
theorem demoted_medium :
    (⟨medium, .ofNat tsticksMedium, .ofNat tsticksMedium, 0⟩ : Slice).Demoted (.full .medium)
      (List.replicate 49 true) :=
  (demoted_iff ⟨rfl, rfl, rfl⟩ _).mpr (.inr (by decide))

/-- The first interrupt of a new process ends its slice, and it stays at HIGH. -/
theorem not_demoted_allocproc :
    allocproc.At (.full .high) ∧ ¬allocproc.Demoted (.full .high) [true] :=
  ⟨⟨rfl, rfl, rfl⟩, fun h => absurd (h 1 (by decide)).1.priority (by decide)⟩

end Slice
end Xv6.Sched
