/-
`kill` of `kernel/proc.c` on the process tables that a machine reaches.

The scan compares pids alone.  What it finds in a free slot is decided by `allocproc` and
`freeproc`: a free slot has pid 0.
-/
import Xv6.Sched.Safety

namespace Xv6.Sched

open Function State

variable {e : Event} {pid : Int} {c p q : Nat} {x : Proc} {s s' : State}

def State.killSlot (s : State) (pid : Int) : Option Nat :=
  (List.range nproc).find? fun q => (s.procs q).pid = pid

/-- `kill`, with the frames of `runFrame` in one, and the value it returns. -/
def State.kill (s : State) (pid : Int) : Except Panic (Int × State) :=
  match s.killSlot pid with
  | none => .ok (-1, s)
  | some q =>
    let s' := s.setProc q { s.procs q with killed := true }
    if (s.procs q).state = .sleeping then
      ((s'.setState q .runnable).enqueueAtTail q (s.procs q).priority).map fun t => (0, t)
    else .ok (0, s')

/-! ## Free slots -/

/-- A slot that is free after a step was so before with the same pid, or has pid 0. -/
def Frees (x x' : Proc) : Prop :=
  x'.state = .unused → x.state = .unused ∧ x'.pid = x.pid ∨ x'.pid = 0

/-- The table after a step: at most one slot has changed. -/
def Changes (s s' : State) : Prop :=
  ∃ p x, s'.procs = update s.procs p x ∧ Frees (s.procs p) x

theorem Frees.of_eq {x' : Proc} (hs : x'.state = x.state) (hp : x'.pid = x.pid) : Frees x x' :=
  fun h => .inl ⟨hs ▸ h, hp⟩

theorem Frees.of_ne {x' : Proc} (h : x'.state ≠ .unused) : Frees x x' := fun hu => absurd hu h

namespace Changes

variable {s s' : State}

theorem of_eq (h : s'.procs = s.procs) : Changes s s' :=
  ⟨0, s.procs 0, by rw [h, update_eq_self], .of_eq rfl rfl⟩

theorem setProc (h : s'.procs = (s.setProc p x).procs) (hx : Frees (s.procs p) x) : Changes s s' :=
  ⟨p, x, h, hx⟩

theorem trans {s₁ : State} (h : Changes s s₁) (hs : s'.procs = s₁.procs) : Changes s s' := by
  obtain ⟨p, x, hp, hx⟩ := h
  exact ⟨p, x, hs.trans hp, hx⟩

end Changes

theorem acquire_procs (s : State) (c : Nat) (l : Lock) (fs : List Frame) :
    (s.acquire c l fs).procs = s.procs := by
  unfold State.acquire
  split
  · rw [setFrames_procs]
    rfl
  · rfl

theorem acquireLoop_procs (s : State) (c : Nat) (l : Lock) (ℓ : Loop) :
    (s.acquireLoop c l ℓ).procs = s.procs := by
  unfold State.acquireLoop
  split <;> rfl

theorem enqueueAtTail_changes {i : Nat} (h : s.enqueueAtTail p i = .ok s') : Changes s s' := by
  unfold State.enqueueAtTail at h
  dsimp only at h
  split at h
  · cases h
    exact .of_eq rfl
  · split at h
    · cases h
    · cases h
      exact .setProc rfl (.of_eq rfl rfl)

theorem enqueueAtHead_changes {i : Nat} (h : s.enqueueAtHead p i = .ok s') : Changes s s' := by
  unfold State.enqueueAtHead at h
  dsimp only at h
  split at h
  · cases h
    exact .of_eq rfl
  · split at h
    · cases h
    · cases h
      exact .setProc rfl (.of_eq rfl rfl)

theorem runFrame_changes {choice : Bool} {f : Frame} {fs : List Frame}
    (h : runFrame s c choice f fs = .ok s') : Changes s s' := by
  cases f with
  | yield p | sleep p chan | exit p | forkLink p np =>
    cases h
    exact .of_eq (acquire_procs ..)
  | yieldHeld p | forkReady p np =>
    cases h
    exact .setProc (setFrames_procs ..) (.of_ne (by simp))
  | yieldQueued p =>
    cases h
    exact .of_eq (setFrames_procs ..)
  | sleepHeld p chan =>
    cases h
    exact .setProc (setFrames_procs ..) (.of_ne (by simp))
  | sleepResumed p =>
    cases h
    exact .setProc (setFrames_procs ..) (.of_eq rfl rfl)
  | exitHeld p =>
    cases h
    exact .setProc (setFrames_procs ..) (.of_ne (by simp))
  | exited p => cases h
  | wakeup me chan q =>
    simp only [runFrame] at h
    split at h
    · split at h <;> cases h
      · exact .of_eq (setFrames_procs ..)
      · exact .of_eq (acquire_procs ..)
    · cases h
      exact .of_eq (setFrames_procs ..)
  | wakeupHeld me chan q =>
    simp only [runFrame] at h
    split at h <;> cases h
    · exact .setProc (setFrames_procs ..) (.of_ne (by simp))
    · exact .of_eq (setFrames_procs ..)
  | kill pid q =>
    simp only [runFrame] at h
    split at h <;> cases h
    · exact .of_eq (acquire_procs ..)
    · exact .of_eq (setFrames_procs ..)
  | killHeld pid q =>
    simp only [runFrame] at h
    split at h
    · split at h <;> cases h
      · refine .setProc (p := q) (x := { s.procs q with killed := true, state := .runnable }) ?_
          (.of_ne (by simp))
        simp [State.setState, State.setProc]
      · exact .setProc (setFrames_procs ..) (.of_eq rfl rfl)
    · cases h
      exact .of_eq (setFrames_procs ..)
  | allocproc me q =>
    simp only [runFrame] at h
    split at h
    · cases h
      exact .of_eq (acquire_procs ..)
    · split at h <;> cases h
      exact .of_eq (setFrames_procs ..)
  | allocprocHeld me q =>
    simp only [runFrame] at h
    split at h
    · cases me <;> cases h
      · refine .setProc (p := q) (x := { (s.allocproc q).procs q with state := .runnable }) ?_
          (.of_ne (by simp))
        simp [State.setState, State.allocproc, State.setProc]
      · exact .setProc (setFrames_procs ..) (.of_ne (by simp))
    · cases h
      exact .of_eq (setFrames_procs ..)
  | fork p np =>
    simp only [runFrame] at h
    split at h <;> cases h
    · exact .of_eq (setFrames_procs ..)
    · exact .setProc (setFrames_procs ..) fun _ => .inr rfl
  | wait q =>
    simp only [runFrame] at h
    split at h
    · split at h <;> cases h
      · exact .of_eq (acquire_procs ..)
      · exact .of_eq (setFrames_procs ..)
    · cases h
      exact .of_eq (setFrames_procs ..)
  | waitHeld q =>
    simp only [runFrame] at h
    split at h
    · split at h <;> cases h
      · exact .setProc (setFrames_procs ..) fun _ => .inr rfl
      · exact .of_eq (setFrames_procs ..)
    · cases h
      exact .of_eq (setFrames_procs ..)
  | enqueue front p i =>
    simp only [runFrame] at h
    split at h <;> cases h
    exact .of_eq (acquire_procs ..)
  | insert front p i =>
    cases front <;> obtain ⟨s₁, hs₁, hret⟩ := Run.bind_eq_ok.1 h <;> cases hret
    · exact (enqueueAtTail_changes hs₁).trans (setFrames_procs ..)
    · exact (enqueueAtHead_changes hs₁).trans (setFrames_procs ..)
  | release q =>
    cases h
    exact .of_eq (setFrames_procs ..)

theorem runLoop_changes (h : runLoop s c = .ok s') : Changes s s' := by
  unfold runLoop at h
  split at h
  · cases h
    exact .of_eq (acquireLoop_procs ..)
  · split at h
    · cases h
      exact .of_eq rfl
    · split at h <;> cases h
      exact .of_eq rfl
  · cases h
    exact .of_eq (acquireLoop_procs ..)
  · cases h
    exact .setProc rfl (.of_eq rfl rfl)
  · cases h
    refine .of_eq ?_
    unfold State.fixTail
    split <;> rfl
  · cases h
    exact .of_eq (acquireLoop_procs ..)
  · split at h <;> cases h
    · exact .setProc rfl (.of_ne (by simp))
    · exact .of_eq rfl
  · cases h
    exact .of_eq rfl
  · cases h
    exact .of_eq rfl

theorem call_changes (s : State) (c : Nat) (call : Call) : Changes s (s.call c call) := by
  unfold State.call
  split
  · split
    · exact .of_eq rfl
    · dsimp only
      split
      · refine .setProc (setFrames_procs ..) (.of_eq (Good.timer_spec _ _).1 ?_)
        unfold timer tick
        dsimp only
        split
        · split <;> rfl
        · rfl
      · exact .of_eq (setFrames_procs ..)
  · exact .of_eq rfl

theorem step_changes (h : step s e = .ok s') : Changes s s' := by
  cases e with
  | run c choice =>
    simp only [step] at h
    split at h
    · exact runFrame_changes h
    · exact runLoop_changes h
  | call c call =>
    cases h
    exact call_changes s c call

def State.FreePids (s : State) : Prop := ∀ p, (s.procs p).state = .unused → (s.procs p).pid = 0

theorem State.FreePids.step (h : s.FreePids) (hs : Sched.step s e = .ok s') : s'.FreePids := by
  obtain ⟨p, x, hprocs, hx⟩ := step_changes hs
  intro q hq
  rw [hprocs] at hq ⊢
  by_cases hqp : q = p
  · subst hqp
    rw [update_self] at hq ⊢
    rcases hx hq with ⟨hu, hpid⟩ | hpid
    · rw [hpid, h q hu]
    · exact hpid
  · rw [update_of_ne hqp] at hq ⊢
    exact h q hq

/-! ## The call -/

/-- The process in slot `q` is killed: woken if it sleeps, and then at the end of the queue of
its priority.  Nothing else changes. -/
structure Killed (s s' : State) (q : Nat) : Prop where
  awake : (s.procs q).state ≠ .sleeping →
    s' = s.setProc q { s.procs q with killed := true }
  asleep : (s.procs q).state = .sleeping → ∃ l,
    Chain (s.queues (s.procs q).priority) s.links l ∧
    Relinked (s.setProc q { s.procs q with killed := true, state := .runnable }) s'
      (s.procs q).priority l (l ++ [q])

theorem Good.kill (h : Good s) (hfree : ∀ i < nqueue, s.locks (.queue i) = none) (pid : Int) :
    (s.killSlot pid = none ∧ s.kill pid = .ok (-1, s)) ∨
    ∃ q s', s.killSlot pid = some q ∧ s.kill pid = .ok (0, s') ∧ Killed s s' q := by
  cases hslot : s.killSlot pid with
  | none => exact .inl ⟨rfl, by rw [State.kill, hslot]⟩
  | some q =>
    rw [State.kill, hslot]
    dsimp only
    by_cases hsleep : (s.procs q).state = .sleeping
    · obtain ⟨hC, -, place, l, hR⟩ := h
      have haway : place q = .away := by
        by_contra hne
        rw [(hR.state q).2 hne] at hsleep
        cases hsleep
      have hno : ∀ c, (s.loops c).stale ≠ some (s.procs q).priority := fun c he => by
        have := hC.loop_lock (held_of_stale he)
        rw [hfree _ (hR.range q)] at this
        cases this
      have hchain := hR.chain hno
      have hnext : s.links q = none := hR.next q fun i => by simp [haway]
      have hset : (s.setProc q { s.procs q with killed := true }).setState q .runnable =
          s.setProc q { s.procs q with killed := true, state := .runnable } := by
        simp [State.setState, State.setProc]
      have hlinks : (s.setProc q { s.procs q with killed := true, state := .runnable }).links =
          s.links := by
        funext x
        by_cases hx : x = q
        · simp [State.links, State.setProc, hx]
        · simp [State.links, State.setProc, update_of_ne hx]
      have hchain' : Chain ((s.setProc q { s.procs q with
          killed := true, state := .runnable }).queues (s.procs q).priority)
          (s.setProc q { s.procs q with killed := true, state := .runnable }).links
          (l (s.procs q).priority) := by
        rw [hlinks]
        exact hchain
      obtain ⟨s', hs', hL⟩ := hchain'.enqueueAtTail (p := q)
        (fun hm => by cases haway.symm.trans (hR.place_of_mem hm)) (by rw [hlinks]; exact hnext)
      refine .inr ⟨q, s', rfl, ?_, fun hne => absurd hsleep hne, fun _ => ⟨_, hchain, hL⟩⟩
      rw [if_pos hsleep, hset, hs']
      rfl
    · rw [if_neg hsleep]
      exact .inr ⟨q, _, rfl, rfl, fun _ => rfl, fun he => absurd he hsleep⟩

/-- The slot holds a process with this pid. -/
def State.Lives (s : State) (pid : Int) (q : Nat) : Prop :=
  q < nproc ∧ (s.procs q).state ≠ .unused ∧ (s.procs q).pid = pid

/-- What `kill` is for: it returns 0 exactly if there is a process with this pid and kills only
it, and otherwise returns -1 and changes nothing. -/
def State.KillsLive (s : State) (pid : Int) : Prop :=
  ∃ r s', s.kill pid = .ok (r, s') ∧ (r = 0 ↔ ∃ q, s.Lives pid q) ∧
    (r = 0 → ∃ q, s.Lives pid q ∧ Killed s s' q) ∧ (r ≠ 0 → r = -1 ∧ s' = s)

theorem killSlot_eq_some : s.killSlot pid = some q ↔
    q < nproc ∧ (s.procs q).pid = pid ∧ ∀ q' < q, (s.procs q').pid ≠ pid := by
  unfold State.killSlot
  rw [List.find?_range_eq_some]
  simp only [decide_eq_true_eq, List.mem_range, Bool.not_eq_true', decide_eq_false_iff_not]
  exact ⟨fun ⟨hpid, hq, hlt⟩ => ⟨hq, hpid, hlt⟩, fun ⟨hq, hpid, hlt⟩ => ⟨hpid, hq, hlt⟩⟩

theorem not_lives_of_killSlot (h : s.killSlot pid = none) (q : Nat) : ¬s.Lives pid q := by
  rintro ⟨hq, -, hpid⟩
  have := List.find?_eq_none.mp h q (List.mem_range.mpr hq)
  simp [hpid] at this

/-- A change of a free slot is not the death of a process, except that of one that has been
killed before and is awake, where nothing is left to change. -/
theorem killed_of_free {q' : Nat} (hq : (s.procs q).state = .unused) (hK : Killed s s' q)
    (hq' : (s.procs q').state ≠ .unused) : Killed s s' q' ↔
      (s.procs q).killed = true ∧ (s.procs q').state ≠ .sleeping ∧ (s.procs q').killed = true := by
  have hne : q' ≠ q := by
    rintro rfl
    exact hq' hq
  have hs' : s' = s.setProc q { s.procs q with killed := true } := hK.awake (by rw [hq]; decide)
  have hat : s'.procs q' = s.procs q' := by rw [hs']; exact update_of_ne hne ..
  have hself : (s'.procs q).killed = true := by rw [hs']; simp [State.setProc]
  constructor
  · intro hK'
    have hawake : (s.procs q').state ≠ .sleeping := by
      intro hsleep
      obtain ⟨l, -, hL⟩ := hK'.asleep hsleep
      obtain ⟨t, o, -, he⟩ := hL.frame
      have hstate : (s'.procs q').state = .runnable := by
        rw [he]
        by_cases ht : q' = t
        · simp [State.setProc, ht]
        · simp [State.setProc, update_of_ne ht]
      rw [hat, hsleep] at hstate
      cases hstate
    have hs'' := hK'.awake hawake
    refine ⟨?_, hawake, ?_⟩
    · rw [hs''] at hself
      rwa [show (s.setProc q' { s.procs q' with killed := true }).procs q = s.procs q from
        update_of_ne (Ne.symm hne) ..] at hself
    · rw [← hat, hs'']
      simp [State.setProc]
  · rintro ⟨hkilled, hawake, hkilled'⟩
    have hsame : ∀ x, (s.procs x).killed = true →
        s.setProc x { s.procs x with killed := true } = s := by
      intro x hx
      have : { s.procs x with killed := true } = s.procs x := by rw [← hx]
      rw [this]
      simp [State.setProc]
    exact ⟨fun _ => by rw [hs', hsame q hkilled, hsame q' hkilled'], fun he => absurd he hawake⟩

/-- `kill` is right for every pid but 0.  Pid 0 belongs to the free slots, and the first of them
is taken for a process, unless a process that has got pid 0 after all comes before it. -/
theorem killsLive_iff {s₀ s : State} {es : List Event} (hboot : Boot s₀)
    (hpids : ∀ p, (s₀.procs p).pid = 0) (hrun : Run.exec step s₀ es = .ok s)
    (hfree : ∀ i < nqueue, s.locks (.queue i) = none) (pid : Int) :
    s.KillsLive pid ↔ pid ≠ 0 ∨ ∀ q < nproc, (s.procs q).pid = 0 →
      (∀ q' < q, (s.procs q').pid ≠ 0) → (s.procs q).state ≠ .unused ∨
        (s.procs q).killed = true ∧
          ∃ q', s.Lives 0 q' ∧ (s.procs q').state ≠ .sleeping ∧ (s.procs q').killed = true := by
  obtain ⟨hgood, hpid⟩ : Good s ∧ s.FreePids :=
    Run.inv_of_exec (I := fun s => Good s ∧ s.FreePids) (fun _ _ _ h hs => ⟨h.1.step hs, h.2.step hs⟩)
      ⟨hboot.good, fun p _ => hpids p⟩ hrun
  rcases hgood.kill hfree pid with ⟨hnone, hkill⟩ | ⟨q, s', hslot, hkill, hK⟩
  · have hno := not_lives_of_killSlot hnone
    refine ⟨fun _ => or_iff_not_imp_left.mpr fun h0 q hq hq0 => ?_, fun _ => ?_⟩
    · obtain rfl : pid = 0 := not_not.mp h0
      exact fun _ => .inl fun hu => absurd (List.find?_eq_none.mp hnone q (List.mem_range.mpr hq))
        (by simp [hq0])
    · exact ⟨-1, s, hkill, ⟨fun h => absurd h (by decide), fun ⟨q, hq⟩ => absurd hq (hno q)⟩,
        fun h => absurd h (by decide), fun _ => ⟨rfl, rfl⟩⟩
  · obtain ⟨hq, hqpid, hfirst⟩ := killSlot_eq_some.mp hslot
    have hiff : s.KillsLive pid ↔ ∃ q', s.Lives pid q' ∧ Killed s s' q' := by
      constructor
      · rintro ⟨r, s'', hkill', hr, hlive, -⟩
        cases hkill.symm.trans hkill'
        exact hlive rfl
      · rintro ⟨q', hq', hK'⟩
        exact ⟨0, s', hkill, ⟨fun _ => ⟨q', hq'⟩, fun _ => rfl⟩, fun _ => ⟨q', hq', hK'⟩,
          fun h => absurd rfl h⟩
    rw [hiff]
    by_cases hu : (s.procs q).state = .unused
    · -- the slot is free, so its pid is 0
      obtain rfl : pid = 0 := hqpid.symm.trans (hpid q hu)
      constructor
      · rintro ⟨q', hq', hK'⟩
        obtain ⟨hkilled, hawake⟩ := (killed_of_free hu hK hq'.2.1).mp hK'
        refine .inr fun p hp hp0 hpfirst => .inr ?_
        cases hslot.symm.trans (killSlot_eq_some.mpr ⟨hp, hp0, hpfirst⟩)
        exact ⟨hkilled, q', hq', hawake⟩
      · rintro (h0 | h)
        · exact absurd rfl h0
        · obtain hne | ⟨hkilled, q', hq', hawake⟩ := h q hq hqpid hfirst
          · exact absurd hu hne
          · exact ⟨q', hq', (killed_of_free hu hK hq'.2.1).mpr ⟨hkilled, hawake⟩⟩
    · refine ⟨fun _ => or_iff_not_imp_left.mpr fun h0 p hp hp0 hpfirst => .inl ?_,
        fun _ => ⟨q, ⟨hq, hu, hqpid⟩, hK⟩⟩
      obtain rfl : pid = 0 := not_not.mp h0
      cases hslot.symm.trans (killSlot_eq_some.mpr ⟨hp, hp0, hpfirst⟩)
      exact hu

def State.quiet (s : State) : Bool :=
  (List.range nqueue).all fun i => decide (s.locks (.queue i) = none)

theorem State.quiet_iff : s.quiet = true ↔ ∀ i < nqueue, s.locks (.queue i) = none := by
  simp [State.quiet]

/-- The first process has been made, and `kill(1)` kills it. -/
theorem killsLive_one : ∃ s, Run.exec step booting firstYield = .ok s ∧ s.KillsLive 1 := by
  obtain ⟨s, hrun, hquiet⟩ := Run.of_ends
    (show Run.ends step booting firstYield State.quiet = true by decide +kernel)
  exact ⟨s, hrun, (killsLive_iff boot_booting (fun _ => rfl) hrun (quiet_iff.mp hquiet) 1).mpr
    (.inl (by decide))⟩

/-- With one process in the table, `kill(0)` returns 0, as if the free slot behind it were a
process. -/
theorem not_killsLive_zero :
    Boot booting ∧ ∃ s, Run.exec step booting firstYield = .ok s ∧
      (∀ i < nqueue, s.locks (.queue i) = none) ∧ ¬s.KillsLive 0 := by
  have hends : Run.ends step booting firstYield (fun s => s.quiet &&
      ((List.range nproc).all fun q => decide ((s.procs q).state = .unused ∨ (s.procs q).pid ≠ 0)) &&
      decide ((s.kill 0).map (fun r => r.1) = .ok 0)) = true := by decide +kernel
  obtain ⟨s, hrun, hcheck⟩ := Run.of_ends hends
  simp only [Bool.and_eq_true, quiet_iff, List.all_eq_true, List.mem_range,
    decide_eq_true_eq] at hcheck
  obtain ⟨⟨hquiet, hpids⟩, hkill⟩ := hcheck
  refine ⟨boot_booting, s, hrun, hquiet, ?_⟩
  rintro ⟨r, s', hs', hr, -⟩
  rw [hs'] at hkill
  obtain ⟨q, hq, hused, hpid⟩ := hr.mp (Except.ok.inj hkill)
  exact (hpids q hq).elim hused fun hne => hne hpid

end Xv6.Sched
