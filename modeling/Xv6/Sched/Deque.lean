/-
The ready queues as deques: `enqueue_at_tail`, `enqueue_at_head` and `dequeue` of `kernel/proc.c`,
each as one operation, against lists of processes.

A queue is `head`, `tail` and the `next` pointers of the processes in it, and all queues share
the `next` of a process.
-/
import Xv6.Lib.Listing
import Xv6.Lib.Slist
import Xv6.Sched.Basic

namespace Xv6.Sched

open Function List

abbrev State.links (s : State) : Nat → Option Nat := fun p => (s.procs p).next

def State.queueinit (s : State) : State := { s with queues := fun _ => ⟨none, none⟩ }

/-- `dequeue`, with the steps of `runLoop` in one. -/
def State.dequeue (s : State) (i : Nat) : Except Panic (Option Nat × State) :=
  if (s.queues i).head = none ∧ (s.queues i).tail = none then .ok (none, s)
  else
    match (s.queues i).head with
    | none => .error .dequeue
    | some p => .ok (some p, (s.unlink p i).fixTail i)

/-! ## One queue -/

/-- The list that a queue holds. -/
structure Chain (q : Queue) (links : Nat → Option Nat) (l : List Nat) : Prop where
  head : q.head = l.head?
  tail : q.tail = l.getLast?
  linked : Slist.Linked links l
  nodup : l.Nodup

theorem Chain.empty_iff {q : Queue} {links : Nat → Option Nat} {l : List Nat}
    (h : Chain q links l) : q.head = none ∧ q.tail = none ↔ l = [] := by
  rw [h.head, h.tail, List.head?_eq_none_iff, List.getLast?_eq_none_iff, and_self]

theorem Chain.head_eq_none_iff {q : Queue} {links : Nat → Option Nat} {l : List Nat}
    (h : Chain q links l) : q.head = none ↔ q.tail = none := by
  rw [h.head, h.tail, List.head?_eq_none_iff, List.getLast?_eq_none_iff]

/-- Queue `i`, which was `l`, is now `l'`; apart from it only the `next` of a process in one of
the two has changed. -/
structure Relinked (s s' : State) (i : Nat) (l l' : List Nat) : Prop where
  chain : Chain (s'.queues i) s'.links l'
  queues : ∀ j, j ≠ i → s'.queues j = s.queues j
  frame : ∃ t o, (t ∈ l ∨ t ∈ l') ∧
    s' = { s.setProc t { s.procs t with next := o } with queues := s'.queues }

theorem links_setProc (s : State) (t : Nat) (o : Option Nat) :
    (s.setProc t { s.procs t with next := o }).links = update s.links t o := by
  funext x
  by_cases hx : x = t
  · simp [State.links, State.setProc, hx]
  · simp [State.links, State.setProc, update_of_ne hx]

theorem Relinked.links {s s' : State} {i : Nat} {l l' : List Nat} (h : Relinked s s' i l l')
    {x : Nat} (hx : x ∉ l) (hx' : x ∉ l') : s'.links x = s.links x := by
  obtain ⟨t, o, ht, he⟩ := h.frame
  have hxt : x ≠ t := by
    rintro rfl
    exact ht.elim hx hx'
  have hlinks : s'.links = update s.links t o := by
    rw [← links_setProc, he]
  rw [hlinks, update_of_ne hxt]

section Operations

variable {s : State} {p i : Nat} {l : List Nat}

theorem relinked_empty (hnext : s.links p = none) :
    Relinked s { s with queues := update s.queues i ⟨some p, some p⟩ } i [] [p] := by
  refine ⟨⟨by simp, by simp, ⟨hnext, trivial⟩, nodup_singleton p⟩, fun j hj => by simp [hj],
    p, (s.procs p).next, .inr (mem_singleton_self p), by simp [State.setProc]⟩

theorem Chain.enqueueAtTail (h : Chain (s.queues i) s.links l) (hp : p ∉ l)
    (hnext : s.links p = none) :
    ∃ s', s.enqueueAtTail p i = .ok s' ∧ Relinked s s' i l (l ++ [p]) := by
  unfold State.enqueueAtTail
  dsimp only
  split
  · rename_i hempty
    obtain rfl := h.empty_iff.mp hempty
    exact ⟨_, rfl, relinked_empty hnext⟩
  · rename_i hne
    have hl : l ≠ [] := mt h.empty_iff.mpr hne
    split
    · rename_i hnone
      rw [h.tail, List.getLast?_eq_none_iff] at hnone
      exact absurd hnone hl
    · rename_i t ht
      rw [h.tail] at ht
      refine ⟨_, rfl, ⟨?_, ?_, ?_, Listing.nodup_append_singleton h.nodup hp⟩,
        fun j hj => by simp [hj], t, some p, .inl (mem_of_getLast? ht), rfl⟩
      · simp [List.head?_append_of_ne_nil _ hl, h.head]
      · simp
      · show Slist.Linked (s.setProc t { s.procs t with next := some p }).links _
        rw [links_setProc]
        exact h.linked.append h.nodup hp ht hnext

theorem Chain.enqueueAtHead (h : Chain (s.queues i) s.links l) (hp : p ∉ l)
    (hnext : s.links p = none) :
    ∃ s', s.enqueueAtHead p i = .ok s' ∧ Relinked s s' i l (p :: l) := by
  unfold State.enqueueAtHead
  dsimp only
  split
  · rename_i hempty
    obtain rfl := h.empty_iff.mp hempty
    exact ⟨_, rfl, relinked_empty hnext⟩
  · rename_i hne
    have hl : l ≠ [] := mt h.empty_iff.mpr hne
    split
    · rename_i hnone
      rw [h.head, List.head?_eq_none_iff] at hnone
      exact absurd hnone hl
    · rename_i t ht
      refine ⟨_, rfl, ⟨?_, ?_, ?_, nodup_cons.mpr ⟨hp, h.nodup⟩⟩, fun j hj => by simp [hj],
        p, some t, .inr (mem_cons_self ..), rfl⟩
      · simp
      · obtain ⟨t', ht'⟩ := Option.ne_none_iff_exists'.mp (mt List.getLast?_eq_none_iff.mp hl)
        simp [h.tail, List.getLast?_cons, ht']
      · show Slist.Linked (s.setProc p { s.procs p with next := some t }).links _
        rw [links_setProc, ← ht, h.head]
        exact h.linked.push hp

theorem Chain.dequeue_nil (h : Chain (s.queues i) s.links []) : s.dequeue i = .ok (none, s) := by
  rw [State.dequeue, if_pos (h.empty_iff.mpr rfl)]

theorem Chain.dequeue_cons (h : Chain (s.queues i) s.links (p :: l)) :
    ∃ s', s.dequeue i = .ok (some p, s') ∧ Relinked s s' i (p :: l) l ∧ s'.links p = none := by
  obtain ⟨hp, hnodup⟩ := nodup_cons.mp h.nodup
  have hnext : (s.procs p).next = l.head? := h.linked.1
  have hhead : (s.queues i).head = some p := h.head
  -- `fixTail` clears the tail where `l` is empty; elsewhere the tail is that of `l` already
  have hfix : (s.unlink p i).fixTail i =
      { s.setProc p { s.procs p with next := none } with
        queues := update s.queues i ⟨l.head?, l.getLast?⟩ } := by
    cases l with
    | nil => simp [State.fixTail, State.unlink, hnext]
    | cons q l => simp [State.fixTail, State.unlink, hnext, h.tail]
  refine ⟨(s.unlink p i).fixTail i, by simp [State.dequeue, hhead], ?_, ?_⟩
  · rw [hfix]
    refine ⟨⟨by simp, by simp, ?_, hnodup⟩, fun j hj => by simp [hj], p, none,
      .inl (mem_cons_self ..), rfl⟩
    rw [links_setProc]
    exact h.linked.pop hp none
  · rw [hfix]
    rw [links_setProc, update_self]

end Operations

/-! ## The three queues -/

inductive QueueOp where
  | enqueueAtTail (p i : Nat)
  | enqueueAtHead (p i : Nat)
  | dequeue (i : Nat)
  deriving DecidableEq, Repr

/-- A call, with what the calls of `dequeue` have returned. -/
def queueStep (x : State × List (Option Nat)) : QueueOp → Except Panic (State × List (Option Nat))
  | .enqueueAtTail p i =>
    if nproc ≤ p then .error .enqueueAtTail
    else (x.1.enqueueAtTail p i).map fun s => (s, x.2)
  | .enqueueAtHead p i =>
    if nproc ≤ p then .error .enqueueAtHead
    else (x.1.enqueueAtHead p i).map fun s => (s, x.2)
  | .dequeue i => (x.1.dequeue i).map fun r => (r.2, x.2 ++ [r.1])

/-- The process is in one of the queues: some `head` leads to it. -/
def State.Queued (s : State) (p : Nat) : Prop :=
  ∃ i < nqueue, ∃ n, Slist.follow s.links (s.queues i).head n = some p

/-- What callers keep to: a process that is enqueued is in no queue and has `next` 0. -/
def Allowed (x : State × List (Option Nat)) : QueueOp → Prop
  | .enqueueAtTail p i | .enqueueAtHead p i =>
    p < nproc ∧ i < nqueue ∧ ¬x.1.Queued p ∧ (x.1.procs p).next = none
  | .dequeue i => i < nqueue

/-- A deque for each priority, and what has been taken from them. -/
structure Deques where
  lists : Nat → List Nat
  out : List (Option Nat)

def Deques.empty : Deques := ⟨fun _ => [], []⟩

def Deques.step (d : Deques) : QueueOp → Deques
  | .enqueueAtTail p i => { d with lists := update d.lists i (d.lists i ++ [p]) }
  | .enqueueAtHead p i => { d with lists := update d.lists i (p :: d.lists i) }
  | .dequeue i =>
    { lists := update d.lists i (d.lists i).tail, out := d.out ++ [(d.lists i).head?] }

/-- The pointers form the lists, and no process is in two of them. -/
structure Holds (s : State) (d : Nat → List Nat) : Prop where
  chain : ∀ i < nqueue, Chain (s.queues i) s.links (d i)
  apart : ∀ i < nqueue, ∀ j < nqueue, i ≠ j → ∀ p ∈ d i, p ∉ d j

namespace Holds

variable {s s' : State} {d : Nat → List Nat} {p i : Nat}

theorem queued_iff (h : Holds s d) : s.Queued p ↔ ∃ i < nqueue, p ∈ d i := by
  refine exists_congr fun i => and_congr_right fun hi => ?_
  rw [(h.chain i hi).head]
  exact (h.chain i hi).linked.exists_follow_iff

theorem relink (h : Holds s d) (hi : i < nqueue) {l : List Nat} (hR : Relinked s s' i (d i) l)
    (hnew : ∀ x ∈ l, x ∈ d i ∨ ∀ j < nqueue, x ∉ d j) : Holds s' (update d i l) := by
  have hapart : ∀ j < nqueue, j ≠ i → ∀ x ∈ l, x ∉ d j := by
    intro j hj hji x hx
    rcases hnew x hx with hx | hx
    · exact h.apart i hi j hj (Ne.symm hji) x hx
    · exact hx j hj
  refine ⟨fun j hj => ?_, fun j hj k hk hjk x hx => ?_⟩
  · by_cases hji : j = i
    · subst hji
      rw [update_self]
      exact hR.chain
    · rw [update_of_ne hji, hR.queues j hji]
      obtain ⟨hhead, htail, hlinked, hnodup⟩ := h.chain j hj
      refine ⟨hhead, htail, hlinked.congr fun x hx => hR.links ?_ ?_, hnodup⟩
      · exact h.apart j hj i hi hji x hx
      · exact fun hxl => hapart j hj hji x hxl hx
  · by_cases hji : j = i
    · subst hji
      rw [update_self] at hx
      rw [update_of_ne (Ne.symm hjk)]
      exact hapart k hk (Ne.symm hjk) x hx
    · rw [update_of_ne hji] at hx
      by_cases hki : k = i
      · subst hki
        rw [update_self]
        exact fun hxl => hapart j hj hji x hxl hx
      · rw [update_of_ne hki]
        exact h.apart j hj k hk hjk x hx

theorem insert (h : Holds s d) (hi : i < nqueue) (hp : ¬s.Queued p) {l : List Nat}
    (hl : ∀ x, x ∈ l ↔ x ∈ d i ∨ x = p) (hR : Relinked s s' i (d i) l) :
    Holds s' (update d i l) := by
  refine h.relink hi hR fun x hx => ((hl x).mp hx).imp_right ?_
  rintro rfl j hj hx
  exact hp (h.queued_iff.mpr ⟨j, hj, hx⟩)

end Holds

theorem queueStep_refines {x : State × List (Option Nat)} {d : Deques} {o : QueueOp}
    (h : Holds x.1 d.lists ∧ x.2 = d.out) (ho : Allowed x o) :
    ∃ x', queueStep x o = .ok x' ∧ Holds x'.1 (d.step o).lists ∧ x'.2 = (d.step o).out := by
  obtain ⟨s, out⟩ := x
  obtain ⟨h, rfl⟩ := h
  cases o with
  | enqueueAtTail p i =>
    obtain ⟨hp, hi, hq, hnext⟩ := ho
    have hpi : p ∉ d.lists i := fun hm => hq (h.queued_iff.mpr ⟨i, hi, hm⟩)
    obtain ⟨s', hs', hR⟩ := (h.chain i hi).enqueueAtTail hpi hnext
    refine ⟨(s', d.out), ?_, h.insert hi hq (fun x => by simp) hR, rfl⟩
    rw [queueStep, if_neg (Nat.not_le.mpr hp), hs']
    rfl
  | enqueueAtHead p i =>
    obtain ⟨hp, hi, hq, hnext⟩ := ho
    have hpi : p ∉ d.lists i := fun hm => hq (h.queued_iff.mpr ⟨i, hi, hm⟩)
    obtain ⟨s', hs', hR⟩ := (h.chain i hi).enqueueAtHead hpi hnext
    refine ⟨(s', d.out), ?_, h.insert hi hq (fun x => by simp [or_comm]) hR, rfl⟩
    rw [queueStep, if_neg (Nat.not_le.mpr hp), hs']
    rfl
  | dequeue i =>
    have hi : i < nqueue := ho
    have hchain := h.chain i hi
    cases hl : d.lists i with
    | nil =>
      rw [hl] at hchain
      refine ⟨(s, d.out ++ [none]), by rw [queueStep, hchain.dequeue_nil]; rfl, ?_, ?_⟩
      · have hsame : update d.lists i [] = d.lists := by
          rw [← hl, update_eq_self]
        simp only [Deques.step, hl, tail_nil, hsame]
        exact h
      · simp only [Deques.step, hl, List.head?_nil]
    | cons p l =>
      rw [hl] at hchain
      obtain ⟨s', hs', hR, -⟩ := hchain.dequeue_cons
      refine ⟨(s', d.out ++ [some p]), by rw [queueStep, hs']; rfl, ?_, ?_⟩
      · simp only [Deques.step, hl]
        refine h.relink hi (by rwa [hl]) fun x hx => .inl ?_
        rw [hl]
        exact mem_cons_of_mem p hx
      · simp only [Deques.step, hl, List.head?_cons]

theorem holds_queueinit (s : State) : Holds s.queueinit Deques.empty.lists :=
  ⟨fun _ _ => ⟨rfl, rfl, trivial, nodup_nil⟩, fun _ _ _ _ _ _ hp => by cases hp⟩

/-- From `queueinit` on, every sequence of calls that keep to `Allowed` returns what the deques
return, and the pointers form their lists. -/
theorem queues_refine_deques (s : State) {ops : List QueueOp}
    (hops : Run.Guarded queueStep Allowed (s.queueinit, []) ops) :
    ∃ s', Run.exec queueStep (s.queueinit, []) ops = .ok (s', (ops.foldl Deques.step .empty).out) ∧
      Holds s' (ops.foldl Deques.step .empty).lists ∧
      ∀ i < nqueue, (s'.queues i).head = none ↔ (s'.queues i).tail = none := by
  obtain ⟨⟨s', out⟩, hrun, hH, rfl⟩ :=
    Run.exec_simulates (R := fun x (d : Deques) => Holds x.1 d.lists ∧ x.2 = d.out)
      (fun _ _ _ h ho => queueStep_refines h ho) ⟨holds_queueinit s, rfl⟩ hops
  exact ⟨s', hrun, hH, fun i hi => (hH.chain i hi).head_eq_none_iff⟩

def State.zero : State :=
  { procs := fun _ => ⟨.unused, 0, 0, false, high, 0, none⟩
    queues := fun _ => ⟨none, none⟩
    locks := fun _ => none
    kstacks := fun _ => []
    loops := fun _ => .dequeue high
    intrs := fun _ => []
    nextpid := 1 }

/-- Process 3 goes to the tail, 5 to the head, and both come out. -/
theorem queues_refine_deques_pair :
    ∃ s', Run.exec queueStep (State.zero.queueinit, [])
      [.enqueueAtTail 3 1, .enqueueAtHead 5 1, .dequeue 1, .dequeue 1] =
        .ok (s', [some 5, some 3]) := by
  have hfirst : Allowed (State.zero.queueinit, []) (.enqueueAtTail 3 1) := by
    refine ⟨by decide, by decide, fun hq => ?_, rfl⟩
    obtain ⟨i, -, hm⟩ := (holds_queueinit State.zero).queued_iff.mp hq
    cases hm
  obtain ⟨x, hx, hH, -⟩ := queueStep_refines ⟨holds_queueinit State.zero, rfl⟩ hfirst
  have hsecond : Allowed x (.enqueueAtHead 5 1) := by
    refine ⟨by decide, by decide, fun hq => ?_, ?_⟩
    · obtain ⟨i, hi, hm⟩ := hH.queued_iff.mp hq
      revert i
      decide
    · obtain rfl := Except.ok.inj hx
      rfl
  have hdequeue : ∀ y, Allowed y (.dequeue 1) := fun _ => show 1 < nqueue by decide
  have hguarded : Run.Guarded queueStep Allowed (State.zero.queueinit, [])
      [.enqueueAtTail 3 1, .enqueueAtHead 5 1, .dequeue 1, .dequeue 1] := by
    refine ⟨hfirst, fun x' hx' => ?_⟩
    obtain rfl : x = x' := Except.ok.inj (hx.symm.trans hx')
    exact ⟨hsecond, fun y _ => ⟨hdequeue y, fun z _ => ⟨hdequeue z, fun _ _ => trivial⟩⟩⟩
  obtain ⟨s', hs', -⟩ := queues_refine_deques State.zero hguarded
  exact ⟨s', hs'⟩

end Xv6.Sched
