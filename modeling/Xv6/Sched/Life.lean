/-
The life of a process as the scheduler sees it: a process on a CPU is RUNNING, or RUNNABLE in
the middle of `yield`; one that is off the CPUs has a stack to go on with; and a slot that a
`fork` is filling is filled by no other.
-/
import Mathlib.Data.List.Basic
import Xv6.Sched.Control

namespace Xv6.Sched

open State List
open Function (update update_self update_of_ne)

/-- The process that this part of `yield` has made RUNNABLE, if it is the caller. -/
def Frame.yields : Frame → Option Nat
  | .yieldQueued p | .enqueue _ p _ | .insert _ p _ => some p
  | _ => none

/-- The slot that this part of `fork` is filling. -/
def Frame.makes : Frame → Option Nat
  | .fork _ q | .forkLink _ q | .forkReady _ q => some q
  | _ => none

def yieldsBy : List Frame → Option Nat
  | f :: _ => f.yields
  | [] => none

def makesOf (fs : List Frame) : List Nat := fs.filterMap Frame.makes

theorem makesOf_cons_none {f : Frame} {fs : List Frame} (h : f.makes = none) :
    makesOf (f :: fs) = makesOf fs := filterMap_cons_none h

theorem makesOf_cons_some {f : Frame} {fs : List Frame} {q : Nat} (h : f.makes = some q) :
    makesOf (f :: fs) = q :: makesOf fs := filterMap_cons_some h

/-- A stack that a process off the CPUs can go on with. -/
def Saved (p : Nat) (fs : List Frame) : Prop :=
  ∃ f rest, fs = f :: rest ∧ (f = .release p ∨ f = .sleepResumed p) ∧ ∀ g ∈ rest, g.held = []

/-! ## Slots that are being filled -/

/-- `m p` are the slots that calls of `fork` on the stack of `p` fill. -/
structure Makes (state : Nat → Status) (m : Nat → List Nat) : Prop where
  made : ∀ p q, q ∈ m p → state q = .used
  once : ∀ p, (m p).Nodup
  single : ∀ p p' q, q ∈ m p → q ∈ m p' → p = p'

namespace Makes

variable {state state' : Nat → Status} {m m' : Nat → List Nat}

theorem shrink (h : Makes state m) (hm : ∀ p, (m' p).Sublist (m p))
    (hstate : ∀ p q, q ∈ m' p → state' q = state q) : Makes state' m' := by
  refine ⟨fun p q hq => ?_, fun p => (h.once p).sublist (hm p), fun p p' q hq hq' => ?_⟩
  · rw [hstate p q hq]
    exact h.made p q ((hm p).subset hq)
  · exact h.single p p' q ((hm p).subset hq) ((hm p').subset hq')

theorem setState (h : Makes state m) {q : Nat} (hq : state q ≠ .used)
    (hm : ∀ p, (m' p).Sublist (m p)) (hstate : ∀ x, x ≠ q → state' x = state x) :
    Makes state' m' := by
  refine h.shrink hm fun p x hx => hstate x ?_
  rintro rfl
  exact hq (h.made p x ((hm p).subset hx))

theorem finish (h : Makes state m) {p q : Nat} {l : List Nat} (hq : m p = q :: l)
    (hm : m' p = l) (hothers : ∀ x, x ≠ p → m' x = m x)
    (hstate : ∀ x, x ≠ q → state' x = state x) : Makes state' m' := by
  refine h.shrink (fun x => ?_) fun x y hy => hstate y ?_
  · by_cases hx : x = p
    · rw [hx, hm, hq]
      exact sublist_cons_self ..
    · rw [hothers x hx]
  · rintro rfl
    by_cases hx : x = p
    · have hnd := h.once p
      rw [hq] at hnd
      rw [hx, hm] at hy
      exact (nodup_cons.1 hnd).1 hy
    · rw [hothers x hx] at hy
      exact hx (h.single x p y hy (by rw [hq]; exact mem_cons_self ..))

theorem start (h : Makes state m) {p q : Nat} (hfree : state q ≠ .used) (hq : state' q = .used)
    (hm : m' p = q :: m p) (hothers : ∀ x, x ≠ p → (m' x).Sublist (m x))
    (hstate : ∀ x, x ≠ q → state' x = state x) : Makes state' m' := by
  have hnot : ∀ x, q ∉ m x := fun x hx => hfree (h.made x q hx)
  have hmem : ∀ x y, y ∈ m' x → x = p ∧ y = q ∨ y ≠ q ∧ y ∈ m x := by
    intro x y hy
    by_cases hx : x = p
    · rw [hx, hm] at hy
      rcases mem_cons.1 hy with rfl | hy
      · exact .inl ⟨hx, rfl⟩
      · exact .inr ⟨fun he => hnot p (he ▸ hy), hx ▸ hy⟩
    · have hy := (hothers x hx).subset hy
      exact .inr ⟨fun he => hnot x (he ▸ hy), hy⟩
  refine ⟨fun x y hy => ?_, fun x => ?_, fun x x' y hy hy' => ?_⟩
  · rcases hmem x y hy with ⟨-, rfl⟩ | ⟨hne, hy⟩
    · exact hq
    · rw [hstate y hne]
      exact h.made x y hy
  · by_cases hx : x = p
    · rw [hx, hm]
      exact nodup_cons.2 ⟨hnot p, h.once p⟩
    · exact (h.once x).sublist (hothers x hx)
  · rcases hmem x y hy with ⟨hx, rfl⟩ | ⟨hne, hold⟩ <;>
      rcases hmem x' y hy' with ⟨hx', he⟩ | ⟨hne', hold'⟩
    · rw [hx, hx']
    · exact absurd rfl hne'
    · exact absurd he hne
    · exact h.single x x' y hold hold'

end Makes

/-! ## The states of processes -/

structure Life (s : State) : Prop where
  saved : ∀ p, (∀ c, s.loops c ≠ .running p) →
    (s.procs p).state = .sleeping ∨ (s.procs p).state = .runnable ∨ (s.procs p).state = .used →
    Saved p (s.kstacks p)
  on : ∀ c p, s.loops c = .running p →
    (s.procs p).state = .running ∨ (s.procs p).state = .runnable ∧ yieldsBy (s.kstacks p) = some p
  makes : Makes (fun p => (s.procs p).state) fun p => makesOf (s.kstacks p)

namespace Life

variable {s s' : State} {c p q : Nat} {f : Frame} {fs fs' : List Frame}

section

variable (h : Life s)

include h

theorem off (hrun : (s.procs p).state ≠ .running) (hready : (s.procs p).state ≠ .runnable) :
    ∀ c, s.loops c ≠ .running p := by
  intro c hc
  rcases h.on c p hc with hs | ⟨hs, -⟩
  · exact hrun hs
  · exact hready hs

theorem running (hc : s.loops c = .running p) (hf : s.frames c = f :: fs) (hy : f.yields ≠ some p) :
    (s.procs p).state = .running := by
  rcases h.on c p hc with hs | ⟨-, hs⟩
  · exact hs
  · rw [← frames_running hc, hf] at hs
    exact absurd hs hy

theorem keep (hg : Goes s c fs' s') (hstate : ∀ p, (s'.procs p).state = (s.procs p).state)
    (hm : (makesOf fs').Sublist (makesOf (s.frames c)))
    (hy : ∀ p, s.loops c = .running p → yieldsBy (s.frames c) = some p → yieldsBy fs' = some p) :
    Life s' := by
  refine ⟨fun p hoff hs => ?_, fun c' p hp => ?_, h.makes.shrink (fun p => ?_)
    fun p q _ => hstate q⟩
  · rw [hg.loops] at hoff
    rw [hstate] at hs
    rcases hg.kstacks_cases p with ⟨hc, -⟩ | ⟨-, hp⟩
    · exact absurd hc (hoff c)
    · rw [hp]
      exact h.saved p hoff hs
  · rw [hg.loops] at hp
    rw [hstate]
    refine (h.on c' p hp).imp_right fun hs => ⟨hs.1, ?_⟩
    rcases hg.kstacks_cases p with ⟨hc, hst⟩ | ⟨-, hst⟩
    · rw [hst]
      exact hy p hc (by rw [frames_running hc]; exact hs.2)
    · rw [hst]
      exact hs.2
  · rcases hg.kstacks_cases p with ⟨hc, hst⟩ | ⟨-, hst⟩
    · rw [hst, ← frames_running hc]
      exact hm
    · rw [hst]

theorem change (hg : Goes s c fs' s') (hoff : ∀ c, s.loops c ≠ .running q)
    (hstate : ∀ p, p ≠ q → (s'.procs p).state = (s.procs p).state)
    (hsaved : (s'.procs q).state = .sleeping ∨ (s'.procs q).state = .runnable ∨
      (s'.procs q).state = .used → Saved q (s.kstacks q))
    (hrun : ∀ p, s.loops c = .running p → (s.procs p).state = .running)
    (hm : Makes (fun p => (s'.procs p).state) fun p => makesOf (s'.kstacks p)) : Life s' := by
  refine ⟨fun p hoff' hs => ?_, fun c' p hp => ?_, hm⟩
  · rw [hg.loops] at hoff'
    rcases hg.kstacks_cases p with ⟨hc, -⟩ | ⟨-, hp⟩
    · exact absurd hc (hoff' c)
    · rw [hp]
      by_cases hpq : p = q
      · subst hpq
        exact hsaved hs
      · rw [hstate p hpq] at hs
        exact h.saved p hoff' hs
  · rw [hg.loops] at hp
    have hpq : p ≠ q := by
      rintro rfl
      exact hoff c' hp
    rw [hstate p hpq]
    rcases hg.kstacks_cases p with ⟨hc, -⟩ | ⟨-, hsame⟩
    · exact .inl (hrun p hc)
    · rw [hsame]
      exact h.on c' p hp

theorem restack (hq : (s.procs q).state = .unused) (hloops : s'.loops = s.loops)
    (hprocs : s'.procs = s.procs) (hstacks : s'.kstacks = update s.kstacks q fs)
    (hm : makesOf fs = []) : Life s' := by
  have hst : ∀ p, (s.procs p).state ≠ .unused → s'.kstacks p = s.kstacks p := by
    intro p hp
    rw [hstacks, update_of_ne]
    rintro rfl
    exact hp hq
  refine ⟨fun p hoff hs => ?_, fun c p hp => ?_, h.makes.shrink (fun p => ?_) fun _ _ _ => ?_⟩
  · rw [hloops] at hoff
    rw [hprocs] at hs
    rw [hst p (by rcases hs with hs | hs | hs <;> rw [hs] <;> decide)]
    exact h.saved p hoff hs
  · rw [hloops] at hp
    have hon := h.on c p hp
    rw [hprocs, hst p (by rcases hon with hs | ⟨hs, -⟩ <;> rw [hs] <;> decide)]
    exact hon
  · by_cases hp : p = q
    · rw [hp, hstacks, update_self, hm]
      exact nil_sublist _
    · rw [hstacks, update_of_ne hp]
  · rw [hprocs]

theorem yield (hc : s.loops c = .running p) (hrun : (s.procs p).state = .running)
    (hg : Goes s c fs' s') (hstate : ∀ x, x ≠ p → (s'.procs x).state = (s.procs x).state)
    (hp : (s'.procs p).state = .runnable) (hy : yieldsBy fs' = some p)
    (hm : makesOf fs' = makesOf (s.frames c)) : Life s' := by
  refine ⟨fun x hoff hs => ?_, fun c' x hx => ?_,
    h.makes.setState (q := p) (by simp [hrun]) (fun x => ?_) hstate⟩
  · rw [hg.loops] at hoff
    have hxp : x ≠ p := by
      rintro rfl
      exact hoff c hc
    rw [hstate x hxp] at hs
    rcases hg.kstacks_cases x with ⟨hc', -⟩ | ⟨-, hst⟩
    · exact absurd hc' (hoff c)
    · rw [hst]
      exact h.saved x hoff hs
  · rw [hg.loops] at hx
    rcases hg.kstacks_cases x with ⟨hc', hst⟩ | ⟨hne, hst⟩
    · rw [hc] at hc'
      cases hc'
      rw [hst]
      exact .inr ⟨hp, hy⟩
    · have hxp : x ≠ p := fun he => hne (he ▸ hc)
      rw [hst, hstate x hxp]
      exact h.on c' x hx
  · rcases hg.kstacks_cases x with ⟨hc', hst⟩ | ⟨-, hst⟩
    · rw [hst, hm, frames_running hc']
    · rw [hst]

theorem sched (hA : s.Apart) (hc : s.loops c = .running p)
    (hloops : s'.loops = update s.loops c (.back p)) (hstacks : s'.kstacks = update s.kstacks p fs')
    (hstate : ∀ x, x ≠ p → (s'.procs x).state = (s.procs x).state)
    (hused : (s.procs p).state ≠ .used) (hsaved : (s'.procs p).state ≠ .zombie → Saved p fs')
    (hm : makesOf fs' = makesOf (s.frames c)) : Life s' := by
  have hrunning : ∀ c' x, x ≠ p → (s'.loops c' = .running x ↔ s.loops c' = .running x) := by
    intro c' x hx
    by_cases hc' : c' = c
    · have : ¬ p = x := fun he => hx he.symm
      rw [hc', hloops, hc]
      simp [this]
    · rw [hloops, update_of_ne hc']
  refine ⟨fun x hoff hs => ?_, fun c' x hx => ?_,
    h.makes.setState hused (fun x => ?_) hstate⟩
  · by_cases hxp : x = p
    · subst hxp
      rw [hstacks, update_self]
      refine hsaved fun hz => ?_
      rw [hz] at hs
      rcases hs with hs | hs | hs <;> cases hs
    · rw [hstacks, update_of_ne hxp]
      rw [hstate x hxp] at hs
      exact h.saved x (fun c' hc' => hoff c' ((hrunning c' x hxp).2 hc')) hs
  · have hxp : x ≠ p := by
      rintro rfl
      by_cases hc' : c' = c
      · rw [hc', hloops, update_self] at hx
        cases hx
      · rw [hloops, update_of_ne hc'] at hx
        exact hc' (hA c' c x hx hc)
    rw [hstate x hxp, hstacks, update_of_ne hxp]
    exact h.on c' x ((hrunning c' x hxp).1 hx)
  · by_cases hxp : x = p
    · rw [hxp, hstacks, update_self, hm, frames_running hc]
    · rw [hstacks, update_of_ne hxp]

theorem reloop {ℓ : Loop} (hproc : (s.loops c).proc = none) (hproc' : ℓ.proc = none)
    (hloops : s'.loops = update s.loops c ℓ) (hstacks : s'.kstacks = s.kstacks)
    (hstate : ∀ x, (s'.procs x).state = (s.procs x).state) : Life s' := by
  have hrunning : ∀ c' x, s'.loops c' = .running x ↔ s.loops c' = .running x := by
    intro c' x
    by_cases hc' : c' = c
    · rw [hc', hloops, update_self, ← proc_eq_some, hproc]
      constructor
      · rintro rfl
        cases hproc'
      · intro he
        cases he
    · rw [hloops, update_of_ne hc']
  refine ⟨fun x hoff hs => ?_, fun c' x hx => ?_, ?_⟩
  · rw [hstacks]
    rw [hstate] at hs
    exact h.saved x (fun c' hc' => hoff c' ((hrunning c' x).2 hc')) hs
  · rw [hstate, hstacks]
    exact h.on c' x ((hrunning c' x).1 hx)
  · simp only [hstate, hstacks]
    exact h.makes

theorem pick (hproc : (s.loops c).proc = none) (hready : (s.procs p).state = .runnable)
    (hloops : s'.loops = update s.loops c (.running p)) (hstacks : s'.kstacks = s.kstacks)
    (hp : (s'.procs p).state = .running)
    (hstate : ∀ x, x ≠ p → (s'.procs x).state = (s.procs x).state) : Life s' := by
  refine ⟨fun x hoff hs => ?_, fun c' x hx => ?_,
    h.makes.setState (q := p) (by simp [hready]) (fun x => by rw [hstacks])
      hstate⟩
  · have hxp : x ≠ p := by
      rintro rfl
      exact hoff c (by rw [hloops, update_self])
    rw [hstate x hxp] at hs
    rw [hstacks]
    refine h.saved x (fun c' hc' => ?_) hs
    have hne : c' ≠ c := by
      rintro rfl
      rw [hc'] at hproc
      cases hproc
    exact hoff c' (by rw [hloops, update_of_ne hne]; exact hc')
  · by_cases hxp : x = p
    · rw [hxp]
      exact .inl hp
    · have hne : c' ≠ c := by
        rintro rfl
        rw [hloops, update_self] at hx
        cases hx
        exact hxp rfl
      rw [hloops, update_of_ne hne] at hx
      rw [hstate x hxp, hstacks]
      exact h.on c' x hx

end

end Life

end Xv6.Sched
