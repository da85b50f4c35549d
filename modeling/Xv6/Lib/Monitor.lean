/-
Threads that share data under one spin lock and wait for each other with `sleep` and `wakeup`.

A thread that sleeps gives the lock up only after it has taken its own lock, which it keeps
until it is asleep; `wakeup` looks at one thread after the other and needs the lock of each.
What the threads do is the client's: the next action of a thread that holds the lock, the next
one of a thread that does not, and what happens to the data from outside.
-/
import Mathlib.Logic.Function.Basic
import Xv6.Lib.Run

namespace Monitor

open Function

/-- What a thread that holds the lock does next: change the data, wake the sleepers of a
channel, go to sleep on one, or release the lock. -/
inductive Act (D L C : Type) where
  | goto (d : D) (ℓ : L)
  | wakeup (c : C) (d : D) (ℓ : L)
  | sleep (c : C) (d : D) (ℓ : L)
  | release (d : D) (ℓ : L)

/-- What a thread that does not hold the lock does next. -/
inductive Move (D L : Type) where
  | stay
  | goto (d : D) (ℓ : L)
  | acquire (d : D) (ℓ : L)

def Act.data {D L C : Type} : Act D L C → D
  | goto d _ | wakeup _ d _ | sleep _ d _ | release d _ => d

def Move.data {D L : Type} (d : D) : Move D L → D
  | stay => d
  | goto d' _ | acquire d' _ => d'

/-- The code of the threads.  A step depends on the thread, on whether it has been killed, on
its location, on the data and on an input. -/
structure Client (D L C I π : Type) where
  inside : Nat → Bool → L → D → I → Except π (Act D L C)
  outside : Nat → Bool → L → D → I → Except π (Move D L)
  env : D → I → D

/-- Where a thread is: without the lock, waiting for it, holding it, holding it in the middle
of `wakeup`, or in `sleep` before and after it is asleep. -/
inductive Ctl (L C : Type) where
  | out (ℓ : L)
  | spin (ℓ : L)
  | inside (ℓ : L)
  | waking (c : C) (q : Nat) (ℓ : L)
  | drowsy (c : C) (ℓ : L)
  | sleeping (c : C) (ℓ : L)

namespace Ctl

variable {L C : Type}

def holds : Ctl L C → Bool
  | inside _ | waking _ _ _ => true
  | _ => false

/-- The thread has its own lock and is not asleep yet. -/
def isDrowsy : Ctl L C → Bool
  | drowsy _ _ => true
  | _ => false

/-- The thread after `wakeup` on `c` has looked at it. -/
def wake [DecidableEq C] (c : C) : Ctl L C → Ctl L C
  | sleeping c' ℓ => if c' = c then spin ℓ else sleeping c' ℓ
  | x => x

def rouse : Ctl L C → Ctl L C
  | sleeping _ ℓ => spin ℓ
  | x => x

end Ctl

structure State (D L C : Type) where
  data : D
  holder : Option Nat
  ctl : Nat → Ctl L C
  killed : Nat → Bool

inductive Event (I : Type) where
  | run (t : Nat) (i : I)
  | kill (t : Nat)
  /-- The slot of a thread that is not in the monitor is used for a new one. -/
  | fresh (t : Nat)
  | env (i : I)

variable {D L C I π : Type}

namespace State

def setCtl (s : State D L C) (t : Nat) (x : Ctl L C) : State D L C :=
  { s with ctl := update s.ctl t x }

section

variable (s : State D L C) (t : Nat) (x : Ctl L C)

include s t x

@[simp] theorem setCtl_data : (s.setCtl t x).data = s.data := rfl

@[simp] theorem setCtl_holder : (s.setCtl t x).holder = s.holder := rfl

@[simp] theorem setCtl_killed : (s.setCtl t x).killed = s.killed := rfl

@[simp] theorem setCtl_self : (s.setCtl t x).ctl t = x := update_self ..

end

theorem setCtl_of_ne (s : State D L C) {t q : Nat} (h : q ≠ t) (x : Ctl L C) :
    (s.setCtl t x).ctl q = s.ctl q := update_of_ne h ..

/-- The effect of an action of the holder `t`. -/
def act (s : State D L C) (t : Nat) : Act D L C → State D L C
  | .goto d ℓ => { s with data := d }.setCtl t (.inside ℓ)
  | .wakeup c d ℓ => { s with data := d }.setCtl t (.waking c 0 ℓ)
  | .sleep c d ℓ => { s with data := d, holder := none }.setCtl t (.drowsy c ℓ)
  | .release d ℓ => { s with data := d, holder := none }.setCtl t (.out ℓ)

/-- The effect of a step of a thread `t` that does not hold the lock. -/
def move (s : State D L C) (t : Nat) : Move D L → State D L C
  | .stay => s
  | .goto d ℓ => { s with data := d }.setCtl t (.out ℓ)
  | .acquire d ℓ => { s with data := d }.setCtl t (.spin ℓ)

theorem act_data (s : State D L C) (t : Nat) (a : Act D L C) : (s.act t a).data = a.data := by
  cases a <;> rfl

theorem move_data (s : State D L C) (t : Nat) (m : Move D L) :
    (s.move t m).data = m.data s.data := by
  cases m <;> rfl

variable {s s' : State D L C} {t : Nat}

/-- The lock is held by the thread that is inside. -/
def Exclusive (s : State D L C) : Prop := ∀ t, (s.ctl t).holds = true ↔ s.holder = some t

theorem Exclusive.of_same (h : s.Exclusive) (hholder : s'.holder = s.holder)
    (hctl : ∀ q, (s'.ctl q).holds = (s.ctl q).holds) : s'.Exclusive := by
  intro q
  rw [hctl, hholder]
  exact h q

theorem holds_setCtl {x : Ctl L C} (hx : x.holds = (s.ctl t).holds) (q : Nat) :
    ((s.setCtl t x).ctl q).holds = (s.ctl q).holds := by
  by_cases hq : q = t
  · rw [hq, setCtl_self, hx]
  · rw [setCtl_of_ne _ hq]

theorem Exclusive.leave (h : s.Exclusive) (ht : s.holder = some t) {d : D} {x : Ctl L C}
    (hx : x.holds = false) :
    ({ s with data := d, holder := none }.setCtl t x : State D L C).Exclusive := by
  intro q
  rw [setCtl_holder]
  by_cases hq : q = t
  · rw [hq, setCtl_self, hx]
    simp
  · rw [setCtl_of_ne _ hq]
    have := h q
    rw [ht] at this
    simp only [reduceCtorEq, iff_false]
    exact fun hh => hq (Option.some.inj (this.1 hh)).symm

theorem Exclusive.enter (h : s.Exclusive) (hfree : s.holder = none) {x : Ctl L C}
    (hx : x.holds = true) :
    ({ s with holder := some t }.setCtl t x : State D L C).Exclusive := by
  intro q
  rw [setCtl_holder]
  by_cases hq : q = t
  · rw [hq, setCtl_self, hx]
    simp
  · rw [setCtl_of_ne _ hq]
    have := h q
    rw [hfree] at this
    simp only [Option.some.injEq]
    exact ⟨fun hh => (nomatch this.1 hh), fun hh => absurd hh.symm hq⟩


/-- Thread `q` is asleep on `c`, or has decided to be. -/
def Asleep (s : State D L C) (q : Nat) (c : C) : Prop :=
  ∃ ℓ, s.ctl q = .drowsy c ℓ ∨ s.ctl q = .sleeping c ℓ

def sleeps [DecidableEq C] (s : State D L C) (q : Nat) (c : C) : Bool :=
  match s.ctl q with
  | .sleeping c' _ => c' = c
  | _ => false

theorem asleep_of_sleeps [DecidableEq C] {q : Nat} {c : C} (h : s.sleeps q c = true) :
    s.Asleep q c := by
  unfold sleeps at h
  split at h
  · obtain rfl := of_decide_eq_true h
    exact ⟨_, .inr ‹_›⟩
  · cases h

/-- Thread `t` holds the lock and goes on at `ℓ`. -/
def At (s : State D L C) (t : Nat) (ℓ : L) : Prop :=
  s.ctl t = .inside ℓ ∨ ∃ c q, s.ctl t = .waking c q ℓ

/-- The data may become `d` without the holder of the lock. -/
def Keeps (P : C → D → Prop) (ok : Nat → L → D → C → Prop) (s : State D L C) (d : D) : Prop :=
  (∀ c, ¬ P c s.data → ¬ P c d) ∧ ∀ t ℓ c, s.At t ℓ → ok t ℓ s.data c → ok t ℓ d c

theorem Asleep.of_setCtl {q : Nat} {c : C} {x : Ctl L C} (h : (s.setCtl t x).Asleep q c)
    (hx : ∀ ℓ, x ≠ .drowsy c ℓ ∧ x ≠ .sleeping c ℓ) : q ≠ t ∧ s.Asleep q c := by
  obtain ⟨ℓ, h⟩ := h
  have hq : q ≠ t := by
    rintro rfl
    rw [setCtl_self] at h
    exact h.elim (hx ℓ).1 (hx ℓ).2
  rw [setCtl_of_ne _ hq] at h
  exact ⟨hq, ℓ, h⟩

theorem keeps_refl {P : C → D → Prop} {ok : Nat → L → D → C → Prop} (s : State D L C) :
    s.Keeps P ok s.data := ⟨fun _ => id, fun _ _ _ _ => id⟩

end State

section

variable [DecidableEq C] (M : Client D L C I π) (N : Nat)

/-- One step of a thread.  `wakeup` looks at the threads below `N`. -/
def runThread (s : State D L C) (t : Nat) (i : I) : Except π (State D L C) :=
  match s.ctl t with
  | .out ℓ => (M.outside t (s.killed t) ℓ s.data i).map (s.move t)
  | .spin ℓ =>
    if s.holder = none then .ok ({ s with holder := some t }.setCtl t (.inside ℓ)) else .ok s
  | .inside ℓ => (M.inside t (s.killed t) ℓ s.data i).map (s.act t)
  | .waking c q ℓ =>
    if q < N then
      if (s.ctl q).isDrowsy then .ok s
      else .ok ((s.setCtl q ((s.ctl q).wake c)).setCtl t (.waking c (q + 1) ℓ))
    else .ok (s.setCtl t (.inside ℓ))
  | .drowsy c ℓ => .ok (s.setCtl t (.sleeping c ℓ))
  | .sleeping _ _ => .ok s

def step (s : State D L C) : Event I → Except π (State D L C)
  | .run t i => runThread M N s t i
  | .kill t =>
    if (s.ctl t).isDrowsy then .ok s
    else .ok ({ s with killed := update s.killed t true }.setCtl t (s.ctl t).rouse)
  | .fresh t =>
    match s.ctl t with
    | .out _ => .ok { s with killed := update s.killed t false }
    | _ => .ok s
  | .env i => .ok { s with data := M.env s.data i }

/-- All that a step can do. -/
inductive Steps (s : State D L C) : Event I → State D L C → Prop where
  | idle (e : Event I) : Steps s e s
  | outside {t : Nat} {i : I} {ℓ : L} {m : Move D L} (hc : s.ctl t = .out ℓ)
      (hm : M.outside t (s.killed t) ℓ s.data i = .ok m) : Steps s (.run t i) (s.move t m)
  | acquire {t : Nat} {i : I} {ℓ : L} (hc : s.ctl t = .spin ℓ) (hfree : s.holder = none) :
      Steps s (.run t i) ({ s with holder := some t }.setCtl t (.inside ℓ))
  | inside {t : Nat} {i : I} {ℓ : L} {a : Act D L C} (hc : s.ctl t = .inside ℓ)
      (ha : M.inside t (s.killed t) ℓ s.data i = .ok a) : Steps s (.run t i) (s.act t a)
  | visit {t : Nat} {i : I} {c : C} {q : Nat} {ℓ : L} (hc : s.ctl t = .waking c q ℓ) (hq : q < N)
      (hawake : (s.ctl q).isDrowsy = false) :
      Steps s (.run t i) ((s.setCtl q ((s.ctl q).wake c)).setCtl t (.waking c (q + 1) ℓ))
  | woken {t : Nat} {i : I} {c : C} {q : Nat} {ℓ : L} (hc : s.ctl t = .waking c q ℓ)
      (hq : N ≤ q) : Steps s (.run t i) (s.setCtl t (.inside ℓ))
  | doze {t : Nat} {i : I} {c : C} {ℓ : L} (hc : s.ctl t = .drowsy c ℓ) :
      Steps s (.run t i) (s.setCtl t (.sleeping c ℓ))
  | kill {t : Nat} (hawake : (s.ctl t).isDrowsy = false) : Steps s (.kill t)
      ({ s with killed := update s.killed t true }.setCtl t (s.ctl t).rouse)
  | fresh {t : Nat} {ℓ : L} (hc : s.ctl t = .out ℓ) :
      Steps s (.fresh t) { s with killed := update s.killed t false }
  | env (i : I) : Steps s (.env i) { s with data := M.env s.data i }

variable {M N}

theorem step_eq_ok {s s' : State D L C} {e : Event I} (h : step M N s e = .ok s') :
    Steps M N s e s' := by
  cases e with
  | run t i =>
    simp only [step, runThread] at h
    split at h
    · rename_i ℓ hc
      obtain ⟨m, hm, rfl⟩ := Run.map_eq_ok.1 h
      exact .outside hc hm
    · rename_i ℓ hc
      split at h
      · cases h
        exact .acquire hc ‹_›
      · cases h
        exact .idle _
    · rename_i ℓ hc
      obtain ⟨a, ha, rfl⟩ := Run.map_eq_ok.1 h
      exact .inside hc ha
    · rename_i c q ℓ hc
      split at h
      · split at h
        · cases h
          exact .idle _
        · rename_i hq hawake
          cases h
          exact .visit hc hq (by simpa using hawake)
      · cases h
        exact .woken hc (by omega)
    · rename_i c ℓ hc
      cases h
      exact .doze hc
    · cases h
      exact .idle _
  | kill t =>
    simp only [step] at h
    split at h
    · cases h
      exact .idle _
    · rename_i hawake
      cases h
      exact .kill (by simpa using hawake)
  | fresh t =>
    simp only [step] at h
    split at h
    · rename_i ℓ hc
      cases h
      exact .fresh hc
    · cases h
      exact .idle _
  | env i =>
    cases h
    exact .env i

theorem step_eq_error {s : State D L C} {e : Event I} {x : π} (h : step M N s e = .error x) :
    ∃ t i ℓ, e = .run t i ∧
      (s.ctl t = .inside ℓ ∧ M.inside t (s.killed t) ℓ s.data i = .error x ∨
        s.ctl t = .out ℓ ∧ M.outside t (s.killed t) ℓ s.data i = .error x) := by
  cases e with
  | run t i =>
    simp only [step, runThread] at h
    split at h
    · rename_i ℓ hc
      refine ⟨t, i, ℓ, rfl, .inr ⟨hc, ?_⟩⟩
      cases hm : M.outside t (s.killed t) ℓ s.data i with
      | error y => rw [hm] at h; cases h; rfl
      | ok m => rw [hm] at h; cases h
    · split at h <;> cases h
    · rename_i ℓ hc
      refine ⟨t, i, ℓ, rfl, .inl ⟨hc, ?_⟩⟩
      cases ha : M.inside t (s.killed t) ℓ s.data i with
      | error y => rw [ha] at h; cases h; rfl
      | ok a => rw [ha] at h; cases h
    · split at h
      · split at h <;> cases h
      · cases h
    · cases h
    · cases h
  | kill t =>
    simp only [step] at h
    split at h <;> cases h
  | fresh t =>
    simp only [step] at h
    split at h <;> cases h
  | env i => cases h

theorem Steps.data {A : D → Prop} {s s' : State D L C} {e : Event I} (hs : Steps M N s e s')
    (hin : ∀ {t k ℓ d i a}, M.inside t k ℓ d i = .ok a → A d → A a.data)
    (hout : ∀ {t k ℓ d i m}, M.outside t k ℓ d i = .ok m → A d → A (m.data d))
    (henv : ∀ {d i}, A d → A (M.env d i)) (h : A s.data) : A s'.data := by
  cases hs with
  | outside hc hm =>
    rw [State.move_data]
    exact hout hm h
  | inside hc ha =>
    rw [State.act_data]
    exact hin ha h
  | env i => exact henv h
  | idle | acquire | visit | woken | doze | kill | fresh => exact h

/-! ## Mutual exclusion -/

theorem Ctl.asleep_of_wake {s : State D L C} {j : Nat} {c c₀ : C} {ℓ : L}
    (hawake : (s.ctl j).isDrowsy = false)
    (h : (s.ctl j).wake c₀ = .drowsy c ℓ ∨ (s.ctl j).wake c₀ = .sleeping c ℓ) :
    s.Asleep j c ∧ (c = c₀ → j ≠ j) := by
  cases hx : s.ctl j with
  | drowsy c' ℓ' =>
    rw [hx] at hawake
    cases hawake
  | sleeping c' ℓ' =>
    rw [hx] at h
    simp only [wake] at h
    split at h
    · simp at h
    · rename_i hne
      simp only [reduceCtorEq, sleeping.injEq, false_or] at h
      exact ⟨⟨ℓ, .inr (by rw [hx, h.1, h.2])⟩, fun he => absurd (h.1.trans he) hne⟩
  | out | spin | inside | waking =>
    rw [hx] at h
    simp [wake] at h

theorem Ctl.holds_wake (c : C) (x : Ctl L C) : (x.wake c).holds = x.holds := by
  cases x with
  | sleeping c' ℓ => simp only [wake]; split <;> rfl
  | out | spin | inside | waking | drowsy => rfl

omit [DecidableEq C] in
theorem Ctl.holds_rouse (x : Ctl L C) : x.rouse.holds = x.holds := by
  cases x <;> rfl

omit [DecidableEq C] in
theorem Ctl.rouse_of_holds {x : Ctl L C} (h : x.holds = true) : x.rouse = x := by
  cases x with
  | inside | waking => rfl
  | out | spin | drowsy | sleeping => cases h

omit [DecidableEq C] in
theorem Ctl.rouse_ne {x : Ctl L C} (h : x.isDrowsy = false) (c : C) (ℓ : L) :
    x.rouse ≠ .drowsy c ℓ ∧ x.rouse ≠ .sleeping c ℓ := by
  cases x with
  | drowsy => cases h
  | out | spin | inside | waking | sleeping => simp [rouse]

theorem Steps.exclusive {s s' : State D L C} {e : Event I} (hs : Steps M N s e s')
    (h : s.Exclusive) : s'.Exclusive := by
  cases hs with
  | idle => exact h
  | outside hc hm =>
    rename_i m
    cases m with
    | stay => exact h
    | goto d ℓ' | acquire d ℓ' => exact h.of_same rfl (State.holds_setCtl (s := { s with data := d })
        (by rw [hc]; rfl))
  | acquire hc hfree => exact h.enter hfree rfl
  | inside hc ha =>
    rename_i t _ ℓ a
    have ht : s.holder = some t := (h t).1 (by rw [hc]; rfl)
    cases a with
    | goto d ℓ' | wakeup c d ℓ' => exact h.of_same rfl (State.holds_setCtl (s := { s with data := d })
        (by rw [hc]; rfl))
    | sleep c d ℓ' | release d ℓ' => exact h.leave ht rfl
  | visit hc hq hawake =>
    rename_i t _ c q ℓ
    have h₁ : (s.setCtl q ((s.ctl q).wake c)).Exclusive :=
      h.of_same rfl (State.holds_setCtl (Ctl.holds_wake c _))
    refine h₁.of_same rfl (State.holds_setCtl ?_)
    rw [State.holds_setCtl (Ctl.holds_wake c _), hc]
    rfl
  | woken hc hq => exact h.of_same rfl (State.holds_setCtl (by rw [hc]; rfl))
  | doze hc => exact h.of_same rfl (State.holds_setCtl (by rw [hc]; rfl))
  | kill hawake => exact h.of_same rfl (State.holds_setCtl (s := { s with killed := _ })
      (Ctl.holds_rouse _))
  | fresh hc => exact h.of_same rfl fun _ => rfl
  | env i => exact h.of_same rfl fun _ => rfl

end

/-! ## Proof outlines

Assertions about the data for every place where a thread can be: each action of a thread leads
from the assertion of its location to the next one and leaves those of the other threads true. -/

/-- `always` holds at any time and `free` when the lock is free; the others are about the
thread and its location. -/
structure Outline (D L : Type) where
  always : D → Prop
  free : D → Prop
  out : Nat → L → D → Prop
  wait : Nat → L → D → Prop
  hold : Nat → Bool → L → D → Prop

namespace Outline

variable (O : Outline D L)

/-- The assertion for thread `t`. -/
def Asserts (t : Nat) (killed : Bool) (d : D) : Ctl L C → Prop
  | .out ℓ => O.out t ℓ d
  | .spin ℓ | .drowsy _ ℓ | .sleeping _ ℓ => O.wait t ℓ d
  | .inside ℓ | .waking _ _ ℓ => O.hold t killed ℓ d

/-- The state satisfies the outline. -/
structure Holds (s : State D L C) : Prop where
  always : O.always s.data
  free : s.holder = none → O.free s.data
  exclusive : s.Exclusive
  thread : ∀ t, O.Asserts t (s.killed t) s.data (s.ctl t)

/-- The assertions of threads other than `t` that do not hold the lock stay true. -/
def Spares (t : Nat) (d d' : D) : Prop :=
  ∀ q ℓ, q ≠ t → (O.out q ℓ d → O.out q ℓ d') ∧ (O.wait q ℓ d → O.wait q ℓ d')

/-- The holder's action leads from one assertion to the next. -/
def After (t : Nat) (killed : Bool) : Act D L C → Prop
  | .goto d ℓ | .wakeup _ d ℓ => O.hold t killed ℓ d
  | .sleep _ d ℓ => O.free d ∧ O.wait t ℓ d
  | .release d ℓ => O.free d ∧ O.out t ℓ d

def Moved (t : Nat) (ℓ : L) (d : D) : Move D L → Prop
  | .stay => O.out t ℓ d
  | .goto d' ℓ' => O.out t ℓ' d'
  | .acquire d' ℓ' => O.wait t ℓ' d'

/-- The code of the threads follows the outline. -/
structure Valid (M : Client D L C I π) : Prop where
  acquire : ∀ {t k ℓ d}, O.always d → O.free d → O.wait t ℓ d → O.hold t k ℓ d
  inside : ∀ {t k ℓ d i a}, O.always d → O.hold t k ℓ d → M.inside t k ℓ d i = .ok a →
    O.always a.data ∧ O.After t k a ∧ O.Spares t d a.data
  outside : ∀ {t k ℓ d i m}, O.always d → O.out t ℓ d → M.outside t k ℓ d i = .ok m →
    O.always (m.data d) ∧ O.Moved t ℓ d m ∧ O.Spares t d (m.data d) ∧
      (O.free d → O.free (m.data d)) ∧
      ∀ q k ℓ, q ≠ t → O.hold q k ℓ d → O.hold q k ℓ (m.data d)
  env : ∀ {d i}, O.always d → O.always (M.env d i) ∧ (O.free d → O.free (M.env d i)) ∧
    ∀ q k (x : Ctl L C), O.Asserts q k d x → O.Asserts q k (M.env d i) x

variable {O}

theorem Spares.asserts {t q : Nat} {k : Bool} {d d' : D} {x : Ctl L C} (h : O.Spares t d d')
    (hq : q ≠ t) (hx : x.holds = false) (ha : O.Asserts q k d x) : O.Asserts q k d' x := by
  cases x with
  | out ℓ => exact (h q ℓ hq).1 ha
  | spin ℓ | drowsy c ℓ | sleeping c ℓ => exact (h q ℓ hq).2 ha
  | inside | waking => cases hx

theorem asserts_wake [DecidableEq C] {t : Nat} {k : Bool} {d : D} {x : Ctl L C} (c : C)
    (h : O.Asserts t k d x) : O.Asserts t k d (x.wake c) := by
  cases x with
  | sleeping c' ℓ =>
    simp only [Ctl.wake]
    split <;> exact h
  | out | spin | inside | waking | drowsy => exact h

theorem Holds.thread_of {s : State D L C} {t : Nat} {x : Ctl L C} (h : O.Holds s)
    (hc : s.ctl t = x) : O.Asserts t (s.killed t) s.data x := hc ▸ h.thread t

theorem Holds.of_setCtl {s s' : State D L C} {t : Nat} {x : Ctl L C} (h : O.Holds s)
    (halways : O.always s'.data) (hfree : s'.holder = none → O.free s'.data)
    (hex : s'.Exclusive) (hctl : s'.ctl = update s.ctl t x)
    (hkilled : ∀ q, q ≠ t → s'.killed q = s.killed q)
    (ht : O.Asserts t (s'.killed t) s'.data x)
    (hothers : ∀ q, q ≠ t → O.Asserts q (s.killed q) s.data (s.ctl q) →
      O.Asserts q (s.killed q) s'.data (s.ctl q)) : O.Holds s' := by
  refine ⟨halways, hfree, hex, fun q => ?_⟩
  by_cases hq : q = t
  · rw [hq, hctl, update_self]
    exact ht
  · rw [hctl, update_of_ne hq, hkilled q hq]
    exact hothers q hq (h.thread q)

theorem Holds.move {s : State D L C} {t : Nat} {m : Move D L} (h : O.Holds s)
    (hex : (s.move t m).Exclusive) {ℓ : L} (halways : O.always (m.data s.data)) (hmoved : O.Moved t ℓ s.data m)
    (hspares : O.Spares t s.data (m.data s.data))
    (hfree : O.free s.data → O.free (m.data s.data))
    (hhold : ∀ q k ℓ, q ≠ t → O.hold q k ℓ s.data → O.hold q k ℓ (m.data s.data)) :
    O.Holds (s.move t m) := by
  have hothers : ∀ q, q ≠ t → O.Asserts q (s.killed q) s.data (s.ctl q) →
      O.Asserts q (s.killed q) (m.data s.data) (s.ctl q) := by
    intro q hq ha
    cases hx : s.ctl q with
    | inside ℓ' | waking c j ℓ' =>
      rw [hx] at ha
      exact hhold q _ ℓ' hq ha
    | out | spin | drowsy | sleeping =>
      rw [hx] at ha
      exact hspares.asserts hq rfl ha
  cases m with
  | stay => exact h
  | goto d ℓ' | acquire d ℓ' =>
    exact h.of_setCtl halways (fun hf => hfree (h.free hf)) hex rfl (fun _ _ => rfl) hmoved
      hothers

theorem Holds.act {s : State D L C} {t : Nat} {a : Act D L C} (h : O.Holds s)
    (hex : (s.act t a).Exclusive) (ht : s.holder = some t) (halways : O.always a.data)
    (hafter : O.After t (s.killed t) a) (hspares : O.Spares t s.data a.data) :
    O.Holds (s.act t a) := by
  have hothers : ∀ q, q ≠ t → O.Asserts q (s.killed q) s.data (s.ctl q) →
      O.Asserts q (s.killed q) a.data (s.ctl q) := by
    intro q hq ha
    refine hspares.asserts hq ?_ ha
    by_contra hholds
    have := (h.exclusive q).1 (by simpa using hholds)
    rw [ht, Option.some.injEq] at this
    exact hq this.symm
  have hbusy : s.holder = none → False := fun hf => by
    rw [ht] at hf
    cases hf
  cases a with
  | goto d ℓ | wakeup c d ℓ =>
    exact h.of_setCtl halways (fun hf => (hbusy hf).elim) hex rfl (fun _ _ => rfl) hafter hothers
  | sleep c d ℓ | release d ℓ =>
    exact h.of_setCtl halways (fun _ => hafter.1) hex rfl (fun _ _ => rfl) hafter.2 hothers

/-- A step of threads that follow the outline; a kill must leave the assertion of its victim
true. -/
theorem Valid.step [DecidableEq C] {M : Client D L C I π} {N : Nat} {s s' : State D L C}
    {e : Event I} (hV : O.Valid M) (hs : Steps M N s e s') (h : O.Holds s)
    (hkill : ∀ t, e = .kill t → ∀ ℓ, s.At t ℓ → O.hold t (s.killed t) ℓ s.data →
      O.hold t true ℓ s.data) : O.Holds s' := by
  have hex := hs.exclusive h.exclusive
  cases hs with
  | idle => exact h
  | outside hc hm =>
    have ht := h.thread_of hc
    obtain ⟨h1, h2, h3, h4, h5⟩ := hV.outside h.always ht hm
    exact h.move hex h1 h2 h3 h4 h5
  | acquire hc hfree =>
    have ht := h.thread_of hc
    exact h.of_setCtl h.always nofun hex rfl (fun _ _ => rfl)
      (hV.acquire h.always (h.free hfree) ht) fun _ _ => id
  | inside hc ha =>
    have ht := h.thread_of hc
    obtain ⟨h1, h2, h3⟩ := hV.inside h.always ht ha
    exact h.act hex ((h.exclusive _).1 (by rw [hc]; rfl)) h1 h2 h3
  | visit hc hq hawake =>
    rename_i t _ c q ℓ
    have ht := h.thread_of hc
    refine ⟨h.always, h.free, hex, fun q' => ?_⟩
    by_cases hq' : q' = t
    · rw [hq', State.setCtl_self]
      exact ht
    · rw [State.setCtl_of_ne _ hq']
      by_cases hqq : q' = q
      · rw [hqq, State.setCtl_self]
        exact asserts_wake c (h.thread q)
      · rw [State.setCtl_of_ne _ hqq]
        exact h.thread q'
  | woken hc hq =>
    have ht := h.thread_of hc
    exact h.of_setCtl h.always h.free hex rfl (fun _ _ => rfl) ht fun _ _ => id
  | doze hc =>
    have ht := h.thread_of hc
    exact h.of_setCtl h.always h.free hex rfl (fun _ _ => rfl) ht fun _ _ => id
  | kill hawake =>
    rename_i t
    refine h.of_setCtl h.always h.free hex rfl (fun q hq => update_of_ne hq ..) ?_
      fun _ _ => id
    simp only [update_self, State.setCtl_killed]
    cases hx : s.ctl t with
    | inside ℓ => exact hkill t rfl ℓ (.inl hx) (h.thread_of hx)
    | waking c q ℓ => exact hkill t rfl ℓ (.inr ⟨c, q, hx⟩) (h.thread_of hx)
    | out | spin | drowsy | sleeping => exact h.thread_of hx
  | fresh hc =>
    rename_i t ℓ
    refine ⟨h.always, h.free, hex, fun q => ?_⟩
    by_cases hq : q = t
    · simp only [hq, hc]
      exact h.thread_of hc
    · simp only [update_of_ne hq]
      exact h.thread q
  | env i =>
    obtain ⟨h1, h2, h3⟩ := hV.env (C := C) h.always
    exact ⟨h1, fun hf => h2 (h.free hf), hex, fun q => h3 q _ _ (h.thread q)⟩

end Outline

/-! ## No lost wakeup

`P c d` says that a sleeper on `c` has no reason to sleep any more when the data is `d`.  The
holder of the lock may make it true as long as it wakes the sleepers before it lets go:
`ok t ℓ d c` says that there may be sleepers on `c` while thread `t` holds the lock at `ℓ`. -/

section

variable (P : C → D → Prop) (ok : Nat → L → D → C → Prop)

/-- The sleeper `q` on `c` waits for something, or the holder of the lock will wake it. -/
def State.Attended (s : State D L C) (q : Nat) (c : C) : Prop :=
  match s.holder with
  | none => ¬ P c s.data
  | some t =>
    match s.ctl t with
    | .inside ℓ => ok t ℓ s.data c
    | .waking c₀ j ℓ => (c = c₀ → j ≤ q) ∧ (c ≠ c₀ → ok t ℓ s.data c)
    | _ => True

/-- Every sleeper is one that `wakeup` looks at and is attended to. -/
def State.Awaited (N : Nat) (s : State D L C) : Prop :=
  ∀ q c, s.Asleep q c → q < N ∧ s.Attended P ok q c

/-- Sleepers on `c` are as the action of the holder `t` requires. -/
def OkAfter (t : Nat) (c : C) : Act D L C → Prop
  | .goto d ℓ => ok t ℓ d c
  | .wakeup c₀ d ℓ => c ≠ c₀ → ok t ℓ d c
  | .sleep _ d _ | .release d _ => ¬ P c d

variable (M : Client D L C I π) (N : Nat) (O : Outline D L)

/-- What the code of the threads has to see to, where the outline holds. -/
structure Attends : Prop where
  enter : ∀ {t ℓ d c}, O.always d → O.free d → O.wait t ℓ d → ¬ P c d → ok t ℓ d c
  inside : ∀ {t k ℓ d i a c}, O.always d → O.hold t k ℓ d → M.inside t k ℓ d i = .ok a →
    ok t ℓ d c → OkAfter P ok t c a
  sleep : ∀ {t k ℓ d i c d' ℓ'}, O.always d → O.hold t k ℓ d →
    M.inside t k ℓ d i = .ok (.sleep c d' ℓ') → t < N ∧ ¬ P c d'
  outside : ∀ {t k ℓ d i m}, O.always d → O.out t ℓ d → M.outside t k ℓ d i = .ok m →
    (∀ c, ¬ P c d → ¬ P c (m.data d)) ∧
      ∀ q k ℓ c, q ≠ t → O.hold q k ℓ d → ok q ℓ d c → ok q ℓ (m.data d) c
  env : ∀ {d i}, O.always d → (∀ c, ¬ P c d → ¬ P c (M.env d i)) ∧
    ∀ q k ℓ c, O.hold q k ℓ d → ok q ℓ d c → ok q ℓ (M.env d i) c

variable {M N O P ok}

theorem Outline.Holds.keeps {s : State D L C} {t : Nat} {d : D} (h : O.Holds s)
    (hfree : ∀ c, ¬ P c s.data → ¬ P c d)
    (hhold : ∀ q k ℓ c, q ≠ t → O.hold q k ℓ s.data → ok q ℓ s.data c → ok q ℓ d c)
    (hout : (s.ctl t).holds = false) : s.Keeps P ok d := by
  refine ⟨hfree, fun q ℓ c hat hok => ?_⟩
  have hq : q ≠ t := by
    rintro rfl
    rcases hat with hc | ⟨c₀, j, hc⟩
    · rw [hc] at hout
      cases hout
    · rw [hc] at hout
      cases hout
  rcases hat with hc | ⟨c₀, j, hc⟩
  · exact hhold q _ ℓ c hq (h.thread_of hc) hok
  · exact hhold q _ ℓ c hq (h.thread_of hc) hok

theorem State.Attended.congr {s s' : State D L C} {q : Nat} {c : C}
    (h : s.Attended P ok q c) (hholder : s'.holder = s.holder)
    (hctl : ∀ t, s.holder = some t → s'.ctl t = s.ctl t) (hkeep : s.Keeps P ok s'.data) :
    s'.Attended P ok q c := by
  unfold Attended at h ⊢
  rw [hholder]
  cases ht : s.holder with
  | none =>
    rw [ht] at h
    exact hkeep.1 c h
  | some t =>
    rw [ht] at h
    simp only [hctl t ht] at h ⊢
    cases hc : s.ctl t with
    | inside ℓ =>
      rw [hc] at h
      exact hkeep.2 t ℓ c (.inl hc) h
    | waking c₀ j ℓ =>
      rw [hc] at h
      exact ⟨h.1, fun hne => hkeep.2 t ℓ c (.inr ⟨c₀, j, hc⟩) (h.2 hne)⟩
    | out | spin | drowsy | sleeping => trivial

theorem State.Attended.of_inside {s : State D L C} {t q : Nat} {ℓ : L} {c : C}
    (h : s.Attended P ok q c) (ht : s.holder = some t) (hc : s.ctl t = .inside ℓ) :
    ok t ℓ s.data c := by
  unfold Attended at h
  simpa only [ht, hc] using h

theorem State.Attended.of_waking {s : State D L C} {t q j : Nat} {ℓ : L} {c c₀ : C}
    (h : s.Attended P ok q c) (ht : s.holder = some t) (hc : s.ctl t = .waking c₀ j ℓ) :
    (c = c₀ → j ≤ q) ∧ (c ≠ c₀ → ok t ℓ s.data c) := by
  unfold Attended at h
  simpa only [ht, hc] using h

theorem State.Exclusive.ctl_ne {s : State D L C} {t t' : Nat} (h : s.Exclusive)
    (ht : s.holder = some t') (hout : (s.ctl t).holds = false) : t' ≠ t := by
  rintro rfl
  cases ((h t').2 ht).symm.trans hout

/-- A step of threads that see to their sleepers leaves every sleeper attended to. -/
theorem Steps.awaited [DecidableEq C] {s s' : State D L C} {e : Event I}
    (hA : Attends P ok M N O) (hs : Steps M N s e s') (hO : O.Holds s) (h : s.Awaited P ok N) :
    s'.Awaited P ok N := by
  intro q c hsleep
  have hex := hO.exclusive
  cases hs with
  | idle => exact h q c hsleep
  | outside hc hm =>
    rename_i t _ ℓ m
    have hout : (s.ctl t).holds = false := by rw [hc]; rfl
    obtain ⟨hfree, hhold⟩ := hA.outside hO.always (hO.thread_of hc) hm
    cases m with
    | stay => exact h q c hsleep
    | goto d ℓ' | acquire d ℓ' =>
      obtain ⟨-, hold⟩ := hsleep.of_setCtl (by simp)
      exact (h q c hold).imp_right fun ha => ha.congr rfl
        (fun t' ht' => State.setCtl_of_ne _ (hex.ctl_ne ht' hout) _)
        (hO.keeps hfree hhold hout)
  | acquire hc hfree =>
    obtain ⟨-, hold⟩ := hsleep.of_setCtl (by simp)
    obtain ⟨hq, ha⟩ := h q c hold
    simp only [State.Attended, hfree] at ha
    refine ⟨hq, ?_⟩
    simpa [State.Attended] using hA.enter hO.always (hO.free hfree) (hO.thread_of hc) ha
  | inside hc ha =>
    rename_i t _ ℓ a
    have ht : s.holder = some t := (hex t).1 (by rw [hc]; rfl)
    have hafter : s.Asleep q c → q < N ∧ OkAfter P ok t c a := fun hold =>
      (h q c hold).imp_right fun hatt =>
        hA.inside hO.always (hO.thread_of hc) ha (hatt.of_inside ht hc)
    cases a with
    | goto d ℓ' | wakeup c₀ d ℓ' =>
      obtain ⟨-, hold⟩ := hsleep.of_setCtl (by simp)
      refine (hafter hold).imp_right fun hok => ?_
      simpa [State.Attended, State.act, ht, OkAfter] using hok
    | sleep c₀ d ℓ' =>
      by_cases hq : q = t
      · obtain ⟨ℓ₁, hsleep⟩ := hsleep
        rw [hq, State.act, State.setCtl_self] at hsleep
        simp only [reduceCtorEq, or_false] at hsleep
        obtain ⟨rfl, -⟩ := hsleep
        rw [hq]
        refine (hA.sleep hO.always (hO.thread_of hc) ha).imp_right fun hself => ?_
        simpa [State.Attended, State.act] using hself
      · have hold : s.Asleep q c := by
          obtain ⟨ℓ₁, hsleep⟩ := hsleep
          rw [State.act, State.setCtl_of_ne _ hq] at hsleep
          exact ⟨ℓ₁, hsleep⟩
        refine (hafter hold).imp_right fun hok => ?_
        simpa [State.Attended, State.act, OkAfter] using hok
    | release d ℓ' =>
      obtain ⟨-, hold⟩ := hsleep.of_setCtl (by simp)
      refine (hafter hold).imp_right fun hok => ?_
      simpa [State.Attended, State.act, OkAfter] using hok
  | visit hc hj hawake =>
    rename_i t _ c₀ j ℓ
    have ht : s.holder = some t := (hex t).1 (by rw [hc]; rfl)
    obtain ⟨-, hmid⟩ := hsleep.of_setCtl (by simp)
    -- a thread that `wakeup` has looked at does not sleep on its channel
    have hold : s.Asleep q c ∧ (c = c₀ → q ≠ j) := by
      obtain ⟨ℓ₁, hmid⟩ := hmid
      by_cases hq : q = j
      · rw [hq, State.setCtl_self] at hmid
        rw [hq]
        exact Ctl.asleep_of_wake hawake hmid
      · rw [State.setCtl_of_ne _ hq] at hmid
        exact ⟨⟨ℓ₁, hmid⟩, fun _ => hq⟩
    refine (h q c hold.1).imp_right fun hatt => ?_
    obtain ⟨hle, hok⟩ := hatt.of_waking ht hc
    have : c = c₀ → j + 1 ≤ q := fun he => by
      have h1 := hle he
      have h2 := hold.2 he
      omega
    simpa [State.Attended, ht] using ⟨this, hok⟩
  | woken hc hj =>
    rename_i t _ c₀ j ℓ
    have ht : s.holder = some t := (hex t).1 (by rw [hc]; rfl)
    obtain ⟨-, hold⟩ := hsleep.of_setCtl (by simp)
    obtain ⟨hq, hatt⟩ := h q c hold
    obtain ⟨hle, hok⟩ := hatt.of_waking ht hc
    have hne : c ≠ c₀ := fun he => absurd (hle he) (by omega)
    exact ⟨hq, by simpa [State.Attended, ht] using hok hne⟩
  | doze hc =>
    rename_i t _ c₁ ℓ
    have hout : (s.ctl t).holds = false := by rw [hc]; rfl
    have hold : s.Asleep q c := by
      obtain ⟨ℓ₁, hsleep⟩ := hsleep
      by_cases hq : q = t
      · rw [hq, State.setCtl_self] at hsleep
        simp only [reduceCtorEq, Ctl.sleeping.injEq, false_or] at hsleep
        rw [hq]
        exact ⟨ℓ, .inl (by rw [hc, hsleep.1])⟩
      · rw [State.setCtl_of_ne _ hq] at hsleep
        exact ⟨ℓ₁, hsleep⟩
    exact (h q c hold).imp_right fun ha => ha.congr rfl
      (fun t' ht' => State.setCtl_of_ne _ (hex.ctl_ne ht' hout) _) s.keeps_refl
  | kill hawake =>
    rename_i t
    obtain ⟨-, hold⟩ := hsleep.of_setCtl fun ℓ => Ctl.rouse_ne hawake c ℓ
    refine (h q c hold).imp_right fun ha => ha.congr rfl (fun t' ht' => ?_) s.keeps_refl
    by_cases hq : t' = t
    · rw [hq, State.setCtl_self]
      exact Ctl.rouse_of_holds (hq ▸ (hex t').2 ht')
    · exact State.setCtl_of_ne _ hq _
  | fresh hc => exact (h q c hsleep).imp_right fun ha => ha.congr rfl (fun _ _ => rfl) s.keeps_refl
  | env i =>
    obtain ⟨hfree, hhold⟩ := hA.env hO.always
    refine (h q c hsleep).imp_right fun ha => ha.congr rfl (fun _ _ => rfl) ⟨hfree, ?_⟩
    rintro t ℓ c (hc | ⟨c₀, j, hc⟩) hok
    · exact hhold t _ ℓ c (hO.thread_of hc) hok
    · exact hhold t _ ℓ c (hO.thread_of hc) hok

theorem State.Awaited.of_free {s : State D L C} {q : Nat} {c : C} (h : s.Awaited P ok N)
    (hfree : s.holder = none) (hsleep : s.Asleep q c) : ¬ P c s.data := by
  have := (h q c hsleep).2
  simpa only [Attended, hfree] using this

end

end Monitor
