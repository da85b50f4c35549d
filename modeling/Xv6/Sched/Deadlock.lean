/-
The locks of processes and ready queues are taken in both orders: `yield`, `wakeup`, `kill` and
`fork` take the lock of a queue while they hold that of a process, `dequeue` the other way round.
There is no deadlock, because a process is enqueued only when it is in no queue, and so is never
the head that a `dequeue` waits for.
-/
import Xv6.Sched.Safety

namespace Xv6.Sched

open State

/-- The lock that the next step of the code takes. -/
def Frame.wants : Frame → Option Lock
  | .yield p | .sleep p _ | .exit p | .forkLink _ p => some (.proc p)
  | .wakeup me _ q => if q < nproc ∧ me ≠ some q then some (.proc q) else none
  | .kill _ q | .allocproc _ q | .wait q => if q < nproc then some (.proc q) else none
  | .enqueue _ p i => if p < nproc then some (.queue i) else none
  | _ => none

def Loop.wants : Loop → Option Lock
  | .dequeue i => some (.queue i)
  | .dequeueProc _ p | .acquire p => some (.proc p)
  | _ => none

namespace State

variable (s : State)

def wants (c : Nat) : Option Lock :=
  match s.frames c with
  | f :: _ => f.wants
  | [] => (s.loops c).wants

/-- CPU `c` spins on a lock that CPU `c'` holds. -/
def WaitsFor (c c' : Nat) : Prop := ∃ l, s.wants c = some l ∧ s.locks l = some c'

end State

variable {s : State} {c c' : Nat}

theorem acquire_of_held {l : Lock} {fs : List Frame} (hl : s.locks l = some c') :
    s.acquire c l fs = s := by
  unfold acquire
  rw [if_neg (by rw [hl]; simp)]

theorem acquireLoop_of_held {l : Lock} {ℓ : Loop} (hl : s.locks l = some c') :
    s.acquireLoop c l ℓ = s := by
  unfold acquireLoop
  rw [if_neg (by rw [hl]; simp)]

theorem step_of_waitsFor (h : s.WaitsFor c c') : step s (.run c true) = .ok s := by
  obtain ⟨l, hw, hl⟩ := h
  cases hf : s.frames c with
  | nil =>
    simp only [wants, hf] at hw
    simp only [step, hf, runLoop]
    cases hℓ : s.loops c with
    | dequeue | dequeueProc | acquire =>
      rw [hℓ] at hw
      cases hw
      simp only [acquireLoop_of_held hl]
    | _ => simp only [hℓ, Loop.wants, reduceCtorEq] at hw
  | cons f fs =>
    simp only [wants, hf] at hw
    simp only [step, hf]
    cases f with
    | yield | sleep | exit | forkLink =>
      cases hw
      simp only [runFrame, acquire_of_held hl]
    | wakeup me chan q =>
      simp only [Frame.wants] at hw
      split at hw
      · rename_i hq
        cases hw
        simp only [runFrame, acquire_of_held hl, if_pos hq.1, if_neg hq.2]
      · cases hw
    | kill | allocproc | wait =>
      simp only [Frame.wants] at hw
      split at hw
      · rename_i hq
        cases hw
        simp only [runFrame, acquire_of_held hl, if_pos hq, if_true]
      · cases hw
    | enqueue front p i =>
      simp only [Frame.wants] at hw
      split at hw
      · rename_i hp
        cases hw
        simp only [runFrame, acquire_of_held hl, if_neg (Nat.not_le.2 hp)]
      · cases hw
    | _ => cases hw

theorem nested (hheld : s.held c ≠ []) {l : Lock} (hw : s.wants c = some l) :
    (∃ p i, l = .queue i ∧ s.held c = [.proc p] ∧ s.entering c = some (p, i)) ∨
      ∃ i p, l = .proc p ∧ s.held c = [.queue i] ∧ (s.loops c).probes = some (i, p) := by
  cases hf : s.frames c with
  | nil =>
    rw [Control.held_of_nil hf] at hheld ⊢
    simp only [wants, hf] at hw
    cases hℓ : s.loops c with
    | dequeueProc i p =>
      rw [hℓ] at hw
      cases hw
      exact .inr ⟨i, p, rfl, rfl, rfl⟩
    | dequeue | acquire =>
      rw [hℓ] at hheld
      exact absurd rfl hheld
    | _ =>
      rw [hℓ] at hw
      cases hw
  | cons f fs =>
    rw [Control.held_of_frames hf] at hheld ⊢
    simp only [wants, hf] at hw
    cases f with
    | enqueue front p i =>
      simp only [Frame.wants] at hw
      split at hw
      · cases hw
        refine .inl ⟨p, i, rfl, rfl, ?_⟩
        unfold entering
        rw [hf]
        rfl
      · cases hw
    | yield | sleep | exit | forkLink | wakeup | kill | allocproc | wait => exact absurd rfl hheld
    | _ => cases hw

theorem on_cycle (h : Control s) (hc : Relation.TransGen s.WaitsFor c c) :
    s.held c ≠ [] ∧ ∃ c' l, s.wants c = some l ∧ l ∈ s.held c' ∧
      Relation.TransGen s.WaitsFor c' c' := by
  obtain ⟨b, -, l, -, hl⟩ := Relation.TransGen.tail'_iff.1 hc
  obtain ⟨c', hcc', hrest⟩ := Relation.TransGen.head'_iff.1 hc
  refine ⟨fun hnil => ?_, c', ?_⟩
  · rw [h.lock, hnil] at hl
    cases hl
  · obtain ⟨l', hw, hl'⟩ := hcc'
    exact ⟨l', hw, (h.lock l' c').1 hl', Relation.TransGen.tail' hrest ⟨l', hw, hl'⟩⟩

/-- A CPU that takes a process from a queue does not wait for one that waits, as no CPU is about to
enqueue it. -/
theorem not_waitsFor_of_probe (h : Good s) {d i p : Nat} (hp : (s.loops c).probes = some (i, p))
    (hw : s.wants c = some (.proc p)) (hc : s.WaitsFor c c') : ¬ s.WaitsFor c' d := by
  rintro ⟨l', hw', -⟩
  obtain ⟨place, q, hR⟩ := h.ready
  obtain ⟨l, hl, hheld⟩ := hc
  cases hw.symm.trans hl
  rw [h.control.lock] at hheld
  rcases nested (List.ne_nil_of_mem hheld) hw' with ⟨p', i', -, hown, hent⟩ | ⟨i', p', -, hown, -⟩
  · rw [hown, List.mem_singleton] at hheld
    cases hheld
    have hqueued := hR.place_of_mem (List.mem_of_mem_head? (hR.probe c i p hp))
    cases hqueued.symm.trans ((hR.entering c' p).1 ⟨i', hent⟩)
  · rw [hown, List.mem_singleton] at hheld
    cases hheld

theorem no_cycle_of_probe (h : Good s) {i p : Nat} (hp : (s.loops c).probes = some (i, p))
    (hw : s.wants c = some (.proc p)) : ¬ Relation.TransGen s.WaitsFor c c := by
  intro hc
  obtain ⟨d, hcd, hrest⟩ := Relation.TransGen.head'_iff.1 hc
  obtain ⟨e, hde, -⟩ := Relation.TransGen.head'_iff.1 (Relation.TransGen.tail' hrest hcd)
  exact not_waitsFor_of_probe h hp hw hcd hde

/-- No CPUs ever wait for each other's locks in a circle. -/
theorem no_lock_cycle {s s' : State} {es : List Event} (hs : Boot s)
    (hrun : Run.exec step s es = .ok s') (c : Nat) : ¬ Relation.TransGen s'.WaitsFor c c := by
  have h : Good s' := Run.inv_of_exec (I := Good) (fun _ _ _ h => h.step) hs.good hrun
  intro hc
  obtain ⟨hheld, d, l, hw, hd, hcycle⟩ := on_cycle h.control hc
  rcases nested hheld hw with ⟨p, i, rfl, -, -⟩ | ⟨i, p, rfl, -, hprobe⟩
  · -- the queue that CPU `c` waits for is held by a CPU that waits for a process
    obtain ⟨hheld', -, l', hw', -⟩ := on_cycle h.control hcycle
    rcases nested hheld' hw' with ⟨p', i', -, hown, -⟩ | ⟨i', p', rfl, -, hprobe⟩
    · rw [hown, List.mem_singleton] at hd
      cases hd
    · exact no_cycle_of_probe h hprobe hw' hcycle
  · exact no_cycle_of_probe h hprobe hw hc

/-- The first process yields while CPU 2 is about to take it from the queue: CPU 2 waits for
CPU 1. -/
def yieldRace : List Event :=
  List.replicate 5 (.run 0 true) ++ List.replicate 8 (.run 1 true) ++
    .call 1 (.timer true) :: List.replicate 4 (.run 1 true) ++ List.replicate 2 (.run 2 true)

theorem no_lock_cycle_yieldRace :
    Boot booting ∧ ∃ s', Run.exec step booting yieldRace = .ok s' ∧
      s'.wants 2 = some (.proc 0) ∧ s'.locks (.proc 0) = some 1 ∧
      ¬ Relation.TransGen s'.WaitsFor 2 2 := by
  have hends : Run.ends step booting yieldRace (fun s => decide (s.wants 2 = some (.proc 0) ∧
      s.locks (.proc 0) = some 1)) = true := by decide +kernel
  obtain ⟨s', hrun, hcheck⟩ := Run.of_ends hends
  obtain ⟨hw, hl⟩ := of_decide_eq_true hcheck
  exact ⟨boot_booting, s', hrun, hw, hl, no_lock_cycle boot_booting hrun 2⟩

/-- Waiting goes through at most three CPUs to one that does not wait. -/
theorem wait_chain {s s' : State} {es : List Event} (hs : Boot s)
    (hrun : Run.exec step s es = .ok s') (a b c d e : Nat) :
    ¬ (s'.WaitsFor a b ∧ s'.WaitsFor b c ∧ s'.WaitsFor c d ∧ s'.WaitsFor d e) := by
  have h : Good s' := Run.inv_of_exec (I := Good) (fun _ _ _ h => h.step) hs.good hrun
  rintro ⟨⟨l, -, hb⟩, hbc, hcd, hde⟩
  obtain ⟨l₁, hw, hc⟩ := id hbc
  obtain ⟨l₂, hw', -⟩ := id hcd
  rw [h.control.lock] at hb hc
  rcases nested (List.ne_nil_of_mem hb) hw with ⟨p, i, rfl, -, -⟩ | ⟨i, p, rfl, -, hprobe⟩
  · -- CPU `c` holds a queue, so it waits for the process that it takes from it
    rcases nested (List.ne_nil_of_mem hc) hw' with ⟨p', i', -, hown, -⟩ | ⟨i', p', rfl, -, hprobe⟩
    · rw [hown, List.mem_singleton] at hc
      cases hc
    · exact not_waitsFor_of_probe h hprobe hw' hcd hde
  · exact not_waitsFor_of_probe h hprobe hw hbc hcd

theorem wait_chain_yieldRace : ∃ s', Run.exec step booting yieldRace = .ok s' ∧
    s'.wants 2 = some (.proc 0) ∧
      ¬ (s'.WaitsFor 3 2 ∧ s'.WaitsFor 2 1 ∧ s'.WaitsFor 1 0 ∧ s'.WaitsFor 0 3) := by
  have hends : Run.ends step booting yieldRace
      (fun s => decide (s.wants 2 = some (.proc 0))) = true := by decide +kernel
  obtain ⟨s', hrun, hw⟩ := Run.of_ends hends
  exact ⟨s', hrun, of_decide_eq_true hw, wait_chain boot_booting hrun 3 2 1 0 3⟩

end Xv6.Sched
