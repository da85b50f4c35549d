/-
The ready queues: where each RUNNABLE process is, and that the lists which `head` and `next`
form are those of the processes in the queues.
-/
import Xv6.Sched.Deque
import Xv6.Sched.Life

namespace Xv6.Sched

open Function

/-- Where a process is as far as scheduling is concerned: not RUNNABLE, being enqueued by a CPU,
in a queue, or taken from its queue by the scheduler of a CPU. -/
inductive Place where
  | away
  | entering (c : Nat)
  | queued (i : Nat)
  | taken (c : Nat)
  deriving DecidableEq, Repr

/-- The process that the scheduler has taken from a queue and not set RUNNING yet. -/
def Loop.taken : Loop → Option Nat
  | .dequeueTail _ p | .acquire p | .pick p => some p
  | _ => none

/-- The head of a queue that the scheduler is about to take. -/
def Loop.probes : Loop → Option (Nat × Nat)
  | .dequeueProc i p | .dequeueTake i p => some (i, p)
  | _ => none

/-- The queue whose tail has still to be cleared if it has become empty. -/
def Loop.stale : Loop → Option Nat
  | .dequeueTail i _ => some i
  | _ => none

def State.entering (s : State) (c : Nat) : Option (Nat × Nat) := enteringBy (s.frames c)

structure Ready (s : State) (place : Nat → Place) (l : Nat → List Nat) : Prop where
  entering : ∀ c p, (∃ i, s.entering c = some (p, i)) ↔ place p = .entering c
  target : ∀ c p i, s.entering c = some (p, i) → (s.procs p).priority = i
  taken : ∀ c p, (s.loops c).taken = some p ↔ place p = .taken c
  queued : ∀ i, Listing.Of (l i) fun p => place p = .queued i
  priority : ∀ i p, place p = .queued i → (s.procs p).priority = i
  range : ∀ p, (s.procs p).priority < nqueue
  state : ∀ p, (s.procs p).state = .runnable ↔ place p ≠ .away
  next : ∀ p, (∀ i, place p ≠ .queued i) → (s.procs p).next = none
  head : ∀ i, (s.queues i).head = (l i).head?
  linked : ∀ i, Slist.Linked (fun p => (s.procs p).next) (l i)
  tail : ∀ i, (s.queues i).tail = (l i).getLast? ∨ l i = [] ∧ ∃ c, (s.loops c).stale = some i
  probe : ∀ c i p, (s.loops c).probes = some (i, p) → (l i).head? = some p

/-- `p` has been put into queue `i`, which is now `l₁`, and nothing else has changed. -/
structure Inserted (s s₁ : State) (place : Nat → Place) (p i : Nat) (l₁ : List Nat) : Prop where
  of : Listing.Of l₁ fun x => place x = .queued i ∨ x = p
  head : (s₁.queues i).head = l₁.head?
  tail : (s₁.queues i).tail = l₁.getLast?
  linked : Slist.Linked (fun x => (s₁.procs x).next) l₁
  queues : ∀ j, j ≠ i → s₁.queues j = s.queues j
  next : ∀ x, place x ≠ .queued i → x ≠ p → (s₁.procs x).next = (s.procs x).next
  frame : ∃ t o, s₁ = { s.setProc t { s.procs t with next := o } with queues := s₁.queues }

theorem Inserted.procs {s s₁ : State} {place : Nat → Place} {p i : Nat} {l₁ : List Nat}
    (h : Inserted s s₁ place p i l₁) (x : Nat) : (s₁.procs x).state = (s.procs x).state ∧
      (s₁.procs x).priority = (s.procs x).priority := by
  obtain ⟨t, o, he⟩ := h.frame
  rw [he]
  by_cases hx : x = t
  · simp [State.setProc, hx]
  · simp [State.setProc, update_of_ne hx]

namespace Ready

variable {s s' : State} {place : Nat → Place} {l : Nat → List Nat} {c p i : Nat} {a b y : Place}

theorem moved_iff (hp : place p = a) (hb : y ≠ b) (ha : y ≠ a) (x : Nat) :
    update place p b x = y ↔ place x = y := by
  by_cases hx : x = p
  · rw [hx, update_self, hp]
    exact ⟨fun he => absurd he.symm hb, fun he => absurd he.symm ha⟩
  · rw [update_of_ne hx]

section

variable (h : Ready s place l)

include h

theorem place_of_mem (hp : p ∈ l i) : place p = .queued i :=
  ((h.queued i).mem p).1 hp

theorem next_eq_none (hp : (s.procs p).state ≠ .runnable) : (s.procs p).next = none :=
  h.next p fun i hi => hp ((h.state p).2 (by rw [hi]; simp))

section

variable (hent : ∀ c, s'.entering c = s.entering c)
  (htaken : ∀ c, (s'.loops c).taken = (s.loops c).taken)

include hent htaken

theorem keep (hstate : ∀ p, (s'.procs p).state = .runnable ↔ (s.procs p).state = .runnable)
    (hprio : ∀ p, (s'.procs p).priority < nqueue)
    (hready : ∀ p, (s.procs p).state = .runnable → (s'.procs p).priority = (s.procs p).priority)
    (hnext : ∀ p, (s'.procs p).next = (s.procs p).next)
    (hhead : ∀ i, (s'.queues i).head = (s.queues i).head)
    (htail : ∀ i, (s'.queues i).tail = (l i).getLast? ∨ l i = [] ∧ ∃ c, (s'.loops c).stale = some i)
    (hprobe : ∀ c i p, (s'.loops c).probes = some (i, p) → (l i).head? = some p) :
    Ready s' place l := by
  have hprio' : ∀ p, place p ≠ .away → (s'.procs p).priority = (s.procs p).priority :=
    fun p hp => hready p ((h.state p).2 hp)
  refine ⟨fun c p => ?_, fun c p i he => ?_, fun c p => ?_, h.queued, fun i p hp => ?_, hprio,
    fun p => (hstate p).trans (h.state p), fun p hp => (hnext p).trans (h.next p hp),
    fun i => (hhead i).trans (h.head i), fun i => (h.linked i).congr fun x _ => hnext x, htail,
    hprobe⟩
  · rw [hent]
    exact h.entering c p
  · rw [hent] at he
    rw [hprio' p fun ha => ?_]
    · exact h.target c p i he
    · cases ((h.entering c p).1 ⟨i, he⟩).symm.trans ha
  · rw [htaken]
    exact h.taken c p
  · rw [hprio' p (by rw [hp]; simp)]
    exact h.priority i p hp

theorem congr (hprobes : ∀ c x, (s'.loops c).probes = some x → (s.loops c).probes = some x)
    (hstale : ∀ c, (s'.loops c).stale = (s.loops c).stale)
    (hstate : ∀ p, (s'.procs p).state = .runnable ↔ (s.procs p).state = .runnable)
    (hprio : ∀ p, (s'.procs p).priority < nqueue)
    (hready : ∀ p, (s.procs p).state = .runnable → (s'.procs p).priority = (s.procs p).priority)
    (hnext : ∀ p, (s'.procs p).next = (s.procs p).next) (hqueues : s'.queues = s.queues) :
    Ready s' place l := by
  refine h.keep hent htaken hstate hprio hready hnext (fun i => by rw [hqueues]) (fun i => ?_)
    fun c i p hp => h.probe c i p (hprobes c _ hp)
  simp only [hqueues, hstale]
  exact h.tail i

end

theorem wake (hp : (s.procs p).state ≠ .runnable) (hc : s.entering c = none)
    (hent : s'.entering c = some (p, (s'.procs p).priority))
    (hothers : ∀ c', c' ≠ c → s'.entering c' = s.entering c') (hloops : s'.loops = s.loops)
    (hstate : (s'.procs p).state = .runnable) (hsame : ∀ x, x ≠ p → s'.procs x = s.procs x)
    (hrange : (s'.procs p).priority < nqueue) (hnext : (s'.procs p).next = none)
    (hqueues : s'.queues = s.queues) : Ready s' (update place p (.entering c)) l := by
  have haway : place p = .away := by
    by_contra hne
    exact hp ((h.state p).2 hne)
  have hqueued : ∀ x i, update place p (.entering c) x = .queued i ↔ place x = .queued i :=
    fun x i => moved_iff haway (by simp) (by simp) x
  have hproc : ∀ x i, place x = .queued i → s'.procs x = s.procs x := by
    intro x i hx
    refine hsame x ?_
    rintro rfl
    cases haway.symm.trans hx
  refine ⟨fun c' x => ?_, fun c' x i he => ?_, fun c' x => ?_,
    fun i => (h.queued i).congr fun x => hqueued x i, fun i x hx => ?_, fun x => ?_, fun x => ?_,
    fun x hx => ?_, fun i => ?_, fun i => ?_, fun i => ?_, ?_⟩
  · by_cases hc' : c' = c
    · subst hc'
      rw [hent]
      by_cases hx : x = p
      · simp [hx]
      · rw [update_of_ne hx, ← h.entering, hc]
        have : ¬ p = x := fun he => hx he.symm
        simp [this]
    · rw [hothers c' hc', h.entering]
      exact (moved_iff haway (by simpa using hc') (by simp) x).symm
  · by_cases hc' : c' = c
    · rw [hc', hent] at he
      cases he
      rfl
    · rw [hothers c' hc'] at he
      have hx : x ≠ p := by
        rintro rfl
        cases haway.symm.trans ((h.entering c' x).1 ⟨i, he⟩)
      rw [hsame x hx]
      exact h.target c' x i he
  · rw [hloops, h.taken]
    exact (moved_iff haway (by simp) (by simp) x).symm
  · have hx := (hqueued x i).1 hx
    rw [hproc x i hx]
    exact h.priority i x hx
  · by_cases hx : x = p
    · rw [hx]
      exact hrange
    · rw [hsame x hx]
      exact h.range x
  · by_cases hx : x = p
    · rw [hx]
      simp [hstate]
    · rw [update_of_ne hx, hsame x hx]
      exact h.state x
  · by_cases hxp : x = p
    · rw [hxp]
      exact hnext
    · rw [hsame x hxp]
      exact h.next x fun i hi => hx i ((hqueued x i).2 hi)
  · rw [hqueues]
    exact h.head i
  · refine (h.linked i).congr fun x hx => ?_
    rw [hproc x i (h.place_of_mem hx)]
  · rw [hqueues, hloops]
    exact h.tail i
  · rw [hloops]
    exact h.probe

theorem insert {s₁ : State} {l₁ : List Nat} (hI : Inserted s s₁ place p i l₁)
    (hc : s.entering c = some (p, i)) (hent : s'.entering c = none)
    (hothers : ∀ c', c' ≠ c → s'.entering c' = s.entering c') (hloops : s'.loops = s.loops)
    (hno : ∀ c' q, (s.loops c').probes ≠ some (i, q)) (hprocs : s'.procs = s₁.procs)
    (hqueues' : s'.queues = s₁.queues) : Ready s' (update place p (.queued i)) (update l i l₁) := by
  have hstate : ∀ x, (s'.procs x).state = (s.procs x).state := fun x => by
    rw [hprocs]
    exact (hI.procs x).1
  have hprio : ∀ x, (s'.procs x).priority = (s.procs x).priority := fun x => by
    rw [hprocs]
    exact (hI.procs x).2
  have hnext : ∀ x, place x ≠ .queued i → x ≠ p → (s'.procs x).next = (s.procs x).next := by
    rw [hprocs]
    exact hI.next
  have hqueues : ∀ j, j ≠ i → s'.queues j = s.queues j := by
    rw [hqueues']
    exact hI.queues
  have hp : place p = .entering c := (h.entering c p).1 ⟨i, hc⟩
  have hqueued : ∀ x j, j ≠ i →
      (update place p (.queued i) x = .queued j ↔ place x = .queued j) :=
    fun x j hj => moved_iff hp (by simpa using hj) (by simp) x
  have hself : ∀ x, update place p (.queued i) x = .queued i ↔
      place x = .queued i ∨ x = p := by
    intro x
    by_cases hx : x = p
    · simp [hx]
    · simp [hx]
  refine ⟨fun c' x => ?_, fun c' x j he => ?_, fun c' x => ?_, fun j => ?_, fun j x hx => ?_,
    fun x => ?_, fun x => ?_, fun x hx => ?_, fun j => ?_, fun j => ?_, fun j => ?_,
    fun c' j q hq => ?_⟩
  · by_cases hc' : c' = c
    · subst hc'
      rw [hent]
      refine ⟨fun ⟨_, he⟩ => (nomatch he), fun he => ?_⟩
      by_cases hx : x = p
      · rw [hx, update_self] at he
        cases he
      · rw [update_of_ne hx, ← h.entering, hc] at he
        obtain ⟨j, he⟩ := he
        cases he
        exact absurd rfl hx
    · rw [hothers c' hc', h.entering]
      exact (moved_iff hp (by simp) (by simpa using hc') x).symm
  · have hc' : c' ≠ c := by
      rintro rfl
      rw [hent] at he
      cases he
    rw [hothers c' hc'] at he
    rw [hprio]
    exact h.target c' x j he
  · rw [hloops, h.taken]
    exact (moved_iff hp (by simp) (by simp) x).symm
  · by_cases hj : j = i
    · subst hj
      rw [update_self]
      exact hI.of.congr hself
    · rw [update_of_ne hj]
      exact (h.queued j).congr fun x => hqueued x j hj
  · rw [hprio]
    by_cases hj : j = i
    · subst hj
      rcases (hself x).1 hx with hx | rfl
      · exact h.priority j x hx
      · exact h.target c x j hc
    · exact h.priority j x ((hqueued x j hj).1 hx)
  · rw [hprio]
    exact h.range x
  · rw [hstate, h.state]
    by_cases hx : x = p
    · simp [hx, hp]
    · rw [update_of_ne hx]
  · have hx' : ¬ (place x = .queued i ∨ x = p) := fun he => hx i ((hself x).2 he)
    rw [not_or] at hx'
    rw [hnext x hx'.1 hx'.2]
    refine h.next x fun j hj => ?_
    by_cases hji : j = i
    · exact hx'.1 (hji ▸ hj)
    · exact hx j ((hqueued x j hji).2 hj)
  · by_cases hj : j = i
    · subst hj
      rw [update_self, hqueues']
      exact hI.head
    · rw [update_of_ne hj, hqueues j hj]
      exact h.head j
  · by_cases hj : j = i
    · subst hj
      rw [update_self, hprocs]
      exact hI.linked
    · rw [update_of_ne hj]
      refine (h.linked j).congr fun x hx => ?_
      have hx := h.place_of_mem hx
      refine hnext x ?_ ?_
      · rw [hx]
        simpa using hj
      · rintro rfl
        cases hp.symm.trans hx
  · by_cases hj : j = i
    · subst hj
      rw [update_self, hqueues']
      exact .inl hI.tail
    · rw [update_of_ne hj, hqueues j hj, hloops]
      exact h.tail j
  · rw [hloops] at hq
    have hj : j ≠ i := by
      rintro rfl
      exact hno c' q hq
    rw [update_of_ne hj]
    exact h.probe c' j q hq

theorem tail_eq (hno : ∀ c, (s.loops c).stale ≠ some i) : (s.queues i).tail = (l i).getLast? := by
  refine (h.tail i).resolve_right ?_
  rintro ⟨-, c, hc⟩
  exact hno c hc

theorem empty_iff : (s.queues i).head = none ↔ l i = [] := by
  rw [h.head, List.head?_eq_none_iff]

theorem not_queued_of_entering (hc : s.entering c = some (p, i)) (j : Nat) :
    place p ≠ .queued j := by
  rw [(h.entering c p).1 ⟨i, hc⟩]
  simp

theorem chain (hno : ∀ c, (s.loops c).stale ≠ some i) : Chain (s.queues i) s.links (l i) :=
  ⟨h.head i, h.tail_eq hno, h.linked i, (h.queued i).nodup⟩

theorem inserted {s₁ : State} {l₁ : List Nat} (hR : Relinked s s₁ i (l i) l₁)
    (hmem : ∀ x, x ∈ l₁ ↔ x ∈ l i ∨ x = p) : Inserted s s₁ place p i l₁ := by
  have hset : ∀ x, x ∈ l₁ ↔ place x = .queued i ∨ x = p := fun x => by
    rw [hmem, (h.queued i).mem]
  obtain ⟨t, o, -, hframe⟩ := hR.frame
  refine ⟨⟨hR.chain.nodup, hset⟩, hR.chain.head, hR.chain.tail, hR.chain.linked, hR.queues,
    fun x hx hxp => hR.links (fun hm => hx (h.place_of_mem hm)) fun hm => ?_, t, o, hframe⟩
  exact ((hset x).1 hm).elim hx hxp

section

variable (hc : s.entering c = some (p, i)) (hno : ∀ c, (s.loops c).stale ≠ some i)

include hc hno

theorem enqueueAtTail_spec :
    ∃ s₁ l₁, s.enqueueAtTail p i = .ok s₁ ∧ Inserted s s₁ place p i l₁ := by
  have hp := h.not_queued_of_entering hc
  obtain ⟨s₁, hok, hR⟩ :=
    (h.chain hno).enqueueAtTail (fun hm => hp i (h.place_of_mem hm)) (h.next p hp)
  exact ⟨s₁, _, hok, h.inserted hR fun x => by simp⟩

theorem enqueueAtHead_spec :
    ∃ s₁ l₁, s.enqueueAtHead p i = .ok s₁ ∧ Inserted s s₁ place p i l₁ := by
  have hp := h.not_queued_of_entering hc
  obtain ⟨s₁, hok, hR⟩ :=
    (h.chain hno).enqueueAtHead (fun hm => hp i (h.place_of_mem hm)) (h.next p hp)
  exact ⟨s₁, _, hok, h.inserted hR fun x => by simp [or_comm]⟩

end

/-! ## The scheduler -/

theorem look {ℓ : Loop} (hent : ∀ c, s'.entering c = s.entering c)
    (hloops : s'.loops = update s.loops c ℓ) (hprocs : s'.procs = s.procs)
    (hqueues : s'.queues = s.queues) (htaken : ℓ.taken = (s.loops c).taken)
    (hstale : ℓ.stale = (s.loops c).stale)
    (hprobe : ∀ i p, ℓ.probes = some (i, p) → (s.queues i).head = some p) : Ready s' place l := by
  have hloop : ∀ c', s'.loops c' = if c' = c then ℓ else s.loops c' := fun c' => by
    rw [hloops, update_apply]
  have htaken' : ∀ c', (s'.loops c').taken = (s.loops c').taken := fun c' => by
    rw [hloop]
    split
    · rename_i hc
      rw [hc, htaken]
    · rfl
  have hstale' : ∀ c', (s'.loops c').stale = (s.loops c').stale := fun c' => by
    rw [hloop]
    split
    · rename_i hc
      rw [hc, hstale]
    · rfl
  refine h.keep hent htaken' (fun x => by rw [hprocs]) (fun x => by rw [hprocs]; exact h.range x)
    (fun x _ => by rw [hprocs]) (fun x => by rw [hprocs]) (fun i => by rw [hqueues]) (fun i => ?_)
    fun c' i p hp => ?_
  · simp only [hqueues, hstale']
    exact h.tail i
  · rw [hloop] at hp
    split at hp
    · rw [← h.head]
      exact hprobe i p hp
    · exact h.probe c' i p hp

theorem take (hc : s.loops c = .dequeueTake i p)
    (hother : ∀ c', c' ≠ c → ∀ q, (s.loops c').probes ≠ some (i, q))
    (hent : ∀ c, s'.entering c = s.entering c)
    (hloops : s'.loops = update s.loops c (.dequeueTail i p))
    (hprocs : s'.procs = (s.unlink p i).procs) (hqueues : s'.queues = (s.unlink p i).queues) :
    ∃ l₁, Ready s' (update place p (.taken c)) (update l i l₁) := by
  have hhead := h.probe c i p (by rw [hc]; rfl)
  obtain ⟨l₁, hl⟩ : ∃ l₁, l i = p :: l₁ := List.head?_eq_some_iff.1 hhead
  have hof := h.queued i
  rw [hl] at hof
  have hpl : p ∉ l₁ := (List.nodup_cons.1 hof.nodup).1
  have hp : place p = .queued i := h.place_of_mem (by rw [hl]; exact List.mem_cons_self ..)
  have hlink := h.linked i
  rw [hl] at hlink
  have hnextfun : (fun x => (s'.procs x).next) =
      update (fun x => (s.procs x).next) p none := by
    rw [hprocs]
    funext x
    by_cases hx : x = p
    · simp [State.unlink, State.setProc, hx]
    · simp [State.unlink, State.setProc, update_of_ne hx]
  have hkeep : ∀ x, (s'.procs x).state = (s.procs x).state ∧
      (s'.procs x).priority = (s.procs x).priority := by
    intro x
    rw [hprocs]
    by_cases hx : x = p
    · simp [State.unlink, State.setProc, hx]
    · simp [State.unlink, State.setProc, update_of_ne hx]
  have hself : ∀ x, update place p (.taken c) x = .queued i ↔
      place x = .queued i ∧ x ≠ p := by
    intro x
    by_cases hx : x = p
    · simp [hx]
    · simp [hx]
  have hloop : ∀ c', c' ≠ c → s'.loops c' = s.loops c' := fun c' hc' => by
    rw [hloops, update_of_ne hc']
  have hloopc : s'.loops c = .dequeueTail i p := by rw [hloops, update_self]
  refine ⟨l₁, fun c' x => ?_, fun c' x j he => ?_, fun c' x => ?_, fun j => ?_, fun j x hx => ?_,
    fun x => ?_, fun x => ?_, fun x hx => ?_, fun j => ?_, fun j => ?_, fun j => ?_,
    fun c' j q hq => ?_⟩
  · rw [hent, h.entering]
    exact (moved_iff hp (by simp) (by simp) x).symm
  · rw [hent] at he
    rw [(hkeep x).2]
    exact h.target c' x j he
  · by_cases hc' : c' = c
    · subst hc'
      rw [hloopc]
      by_cases hx : x = p
      · simp [Loop.taken, hx]
      · rw [update_of_ne hx, ← h.taken, hc]
        have : ¬ p = x := fun he => hx he.symm
        simp [Loop.taken, this]
    · rw [hloop c' hc', h.taken]
      exact (moved_iff hp (by simpa using hc') (by simp) x).symm
  · by_cases hj : j = i
    · subst hj
      rw [update_self]
      exact hof.pop hself
    · rw [update_of_ne hj]
      exact (h.queued j).congr fun x => moved_iff hp (by simp) (by simpa using hj) x
  · rw [(hkeep x).2]
    by_cases hj : j = i
    · subst hj
      exact h.priority j x ((hself x).1 hx).1
    · exact h.priority j x ((moved_iff hp (by simp) (by simpa using hj) x).1 hx)
  · rw [(hkeep x).2]
    exact h.range x
  · rw [(hkeep x).1, h.state]
    by_cases hx : x = p
    · simp [hx, hp]
    · rw [update_of_ne hx]
  · rw [show (s'.procs x).next = update (fun x => (s.procs x).next) p none x from
      congrFun hnextfun x]
    by_cases hxp : x = p
    · rw [hxp, update_self]
    · rw [update_of_ne hxp]
      refine h.next x fun j hj => hx j ?_
      rw [update_of_ne hxp]
      exact hj
  · rw [hqueues]
    by_cases hj : j = i
    · subst hj
      simp only [State.unlink, update_self]
      exact hlink.1
    · simp only [State.unlink, update_of_ne hj]
      exact h.head j
  · rw [hnextfun]
    by_cases hj : j = i
    · subst hj
      rw [update_self]
      exact hlink.pop hpl none
    · rw [update_of_ne hj]
      refine (h.linked j).congr fun x hx => update_of_ne ?_ ..
      rintro rfl
      have := (h.place_of_mem hx).symm.trans hp
      simp only [Place.queued.injEq] at this
      exact hj this
  · rw [hqueues]
    by_cases hj : j = i
    · subst hj
      simp only [State.unlink, update_self]
      cases hl₁ : l₁ with
      | nil => exact .inr ⟨rfl, c, by rw [hloopc]; rfl⟩
      | cons y l₂ =>
        have htail := (h.tail j).resolve_right fun he => by
          rw [hl] at he
          cases he.1
        rw [hl, hl₁] at htail
        exact .inl htail
    · simp only [State.unlink, update_of_ne hj]
      refine (h.tail j).imp_right (And.imp_right (Exists.imp fun c' hc' => ?_))
      have hne : c' ≠ c := by
        rintro rfl
        rw [hc] at hc'
        cases hc'
      rw [hloop c' hne]
      exact hc'
  · have hc' : c' ≠ c := by
      rintro rfl
      rw [hloopc] at hq
      cases hq
    rw [hloop c' hc'] at hq
    have hj : j ≠ i := by
      rintro rfl
      exact hother c' hc' q hq
    rw [update_of_ne hj]
    exact h.probe c' j q hq

theorem fixTail (hc : s.loops c = .dequeueTail i p) (hent : ∀ c, s'.entering c = s.entering c)
    (hloops : s'.loops = update s.loops c (.acquire p)) (hprocs : s'.procs = s.procs)
    (hqueues : s'.queues = (s.fixTail i).queues) : Ready s' place l := by
  have hloop : ∀ c', c' ≠ c → s'.loops c' = s.loops c' := fun c' hc' => by
    rw [hloops, update_of_ne hc']
  have hloopc : s'.loops c = .acquire p := by rw [hloops, update_self]
  have hothers : ∀ j, j ≠ i → s'.queues j = s.queues j := by
    intro j hj
    rw [hqueues]
    unfold State.fixTail
    split
    · exact update_of_ne hj ..
    · rfl
  refine h.keep hent (fun c' => ?_) (fun x => by rw [hprocs])
    (fun x => by rw [hprocs]; exact h.range x) (fun x _ => by rw [hprocs])
    (fun x => by rw [hprocs]) (fun j => ?_) (fun j => ?_) fun c' j q hq => ?_
  · by_cases hc' : c' = c
    · rw [hc', hloopc, hc]
      rfl
    · rw [hloop c' hc']
  · by_cases hj : j = i
    · rw [hj, hqueues]
      unfold State.fixTail
      split
      · rename_i hnone
        simp [hnone]
      · rfl
    · rw [hothers j hj]
  · by_cases hj : j = i
    · subst hj
      by_cases hl : l j = []
      · refine .inl ?_
        rw [hqueues, State.fixTail, if_pos (h.empty_iff.2 hl), hl]
        simp
      · rw [hqueues, State.fixTail, if_neg (fun he => hl (h.empty_iff.1 he))]
        exact .inl ((h.tail j).resolve_right fun he => hl he.1)
    · rw [hothers j hj]
      refine (h.tail j).imp_right (And.imp_right (Exists.imp fun c' hc' => ?_))
      have hne : c' ≠ c := by
        rintro rfl
        rw [hc, Loop.stale, Option.some.injEq] at hc'
        exact hj hc'.symm
      rw [hloop c' hne]
      exact hc'
  · have hc' : c' ≠ c := by
      rintro rfl
      rw [hloopc] at hq
      cases hq
    rw [hloop c' hc'] at hq
    exact h.probe c' j q hq

theorem pick (hc : s.loops c = .pick p) (hent : ∀ c, s'.entering c = s.entering c)
    (hloops : s'.loops = update s.loops c (.running p))
    (hprocs : s'.procs = (s.setState p .running).procs) (hqueues : s'.queues = s.queues) :
    Ready s' (update place p .away) l := by
  have hp : place p = .taken c := (h.taken c p).1 (by rw [hc]; rfl)
  have hloop : ∀ c', c' ≠ c → s'.loops c' = s.loops c' := fun c' hc' => by
    rw [hloops, update_of_ne hc']
  have hloopc : s'.loops c = .running p := by rw [hloops, update_self]
  have hkeep : ∀ x, (s'.procs x).priority = (s.procs x).priority ∧
      (s'.procs x).next = (s.procs x).next := by
    intro x
    rw [hprocs]
    by_cases hx : x = p
    · simp [State.setState, State.setProc, hx]
    · simp [State.setState, State.setProc, update_of_ne hx]
  refine ⟨fun c' x => ?_, fun c' x j he => ?_, fun c' x => ?_,
    fun i => (h.queued i).congr fun x => moved_iff hp (by simp) (by simp) x, fun i x hx => ?_,
    fun x => ?_, fun x => ?_, fun x hx => ?_, ?_, fun i => ?_, fun i => ?_, fun c' j q hq => ?_⟩
  · rw [hent, h.entering]
    exact (moved_iff hp (by simp) (by simp) x).symm
  · rw [hent] at he
    rw [(hkeep x).1]
    exact h.target c' x j he
  · by_cases hc' : c' = c
    · subst hc'
      rw [hloopc]
      refine ⟨(fun h => by cases h), fun he => ?_⟩
      by_cases hx : x = p
      · rw [hx, update_self] at he
        cases he
      · rw [update_of_ne hx, ← h.taken, hc] at he
        cases he
        exact absurd rfl hx
    · rw [hloop c' hc', h.taken]
      exact (moved_iff hp (by simp) (by simpa using hc') x).symm
  · rw [(hkeep x).1]
    exact h.priority i x ((moved_iff hp (by simp) (by simp) x).1 hx)
  · rw [(hkeep x).1]
    exact h.range x
  · by_cases hx : x = p
    · rw [hx, hprocs]
      simp [State.setState, State.setProc]
    · rw [hprocs]
      simp only [State.setState, State.setProc, update_of_ne hx]
      exact h.state x
  · rw [(hkeep x).2]
    exact h.next x fun i hi => hx i ((moved_iff hp (by simp) (by simp) x).2 hi)
  · rw [hqueues]
    exact h.head
  · exact (h.linked i).congr fun x _ => (hkeep x).2
  · rw [hqueues]
    refine (h.tail i).imp_right (And.imp_right (Exists.imp fun c' hc' => ?_))
    have hne : c' ≠ c := by
      rintro rfl
      rw [hc] at hc'
      cases hc'
    rw [hloop c' hne]
    exact hc'
  · have hc' : c' ≠ c := by
      rintro rfl
      rw [hloopc] at hq
      cases hq
    rw [hloop c' hc'] at hq
    exact h.probe c' j q hq

end

end Ready

end Xv6.Sched
