/-
Scheduling with the ready queues, under every interleaving of any number of CPUs: no process is
in two queues or twice in one, none that is RUNNABLE is lost, and none runs on two CPUs.
-/
import Xv6.Sched.Steps

namespace Xv6.Sched

open Function State

theorem State.sched_eq {s : State} {c p : Nat} (hc : s.loops c = .running p) (fs : List Frame) :
    s.sched c p fs = { s with
      kstacks := update s.kstacks p fs
      loops := update s.loops c (.back p) } := by
  unfold State.sched State.setFrames State.setLoop
  rw [hc]

namespace Good

variable {s s' : State} {c : Nat} {f : Frame} {fs : List Frame}

theorem runFrame (h : Good s) {choice : Bool} (hf : s.frames c = f :: fs)
    (hs : runFrame s c choice f fs = .ok s') : Good s' := by
  have hmem : f ∈ s.frames c := by
    rw [hf]
    exact List.mem_cons_self ..
  have hnil : ∀ x ∈ ([] : List Frame), x.held = [] ∧ ∀ q, x.me = some q → f.me = some q := by
    simp
  have hone : ∀ g : Frame, g.held = [] → (∀ q, g.me = some q → f.me = some q) →
      ∀ x ∈ [g], x.held = [] ∧ ∀ q, x.me = some q → f.me = some q := by
    intro g hg hme x hx
    rw [List.mem_singleton.1 hx]
    exact ⟨hg, hme⟩
  cases f with
  | yield p =>
    cases hs
    exact h.acquireProc hf rfl rfl rfl rfl rfl
  | yieldHeld p =>
    cases hs
    exact h.yield hf (by rw [setFrames_procs]; simp [State.setState, State.setProc])
      (goes_setFrames rfl rfl rfl) (setFrames_locks ..) (setFrames_queues ..)
      (setFrames_procs ..)
  | yieldQueued p =>
    cases hs
    have hc := proc_eq_some.1 (h.control.me_of_frames hmem rfl)
    rw [sched_eq hc]
    exact h.sched hf rfl rfl rfl rfl rfl (.inl rfl) rfl (fun _ _ => rfl) rfl rfl (.inl rfl)
      fun _ => .inl rfl
  | sleep p chan =>
    cases hs
    exact h.acquireProc hf rfl rfl rfl rfl rfl
  | sleepHeld p chan =>
    cases hs
    have hc := proc_eq_some.1 (h.control.me_of_frames hmem rfl)
    rw [sched_eq (s := s.setProc p _) hc]
    refine h.sched hf rfl rfl rfl rfl rfl (.inr rfl) rfl (fun x hx => ?_) ?_ ?_
      (.inr ⟨h.life.running hc hf (fun h => by cases h), ?_⟩) fun _ => .inr rfl
    · simp [State.setProc, update_of_ne hx]
    all_goals simp [State.setProc]
  | sleepResumed p =>
    cases hs
    exact h.toRelease hf [] rfl rfl rfl hnil (List.Sublist.refl _) rfl
      (s.view_setProc p rfl)
  | exit p =>
    cases hs
    exact h.acquireProc hf rfl rfl rfl rfl rfl
  | exitHeld p =>
    cases hs
    have hc := proc_eq_some.1 (h.control.me_of_frames hmem rfl)
    rw [sched_eq (s := s.setState p .zombie) hc]
    refine h.sched hf rfl rfl rfl rfl rfl (.inr rfl) rfl (fun x hx => ?_) ?_ ?_
      (.inr ⟨h.life.running hc hf (fun h => by cases h), ?_⟩) fun hz => absurd ?_ hz
    · simp [State.setState, State.setProc, update_of_ne hx]
    all_goals simp [State.setState, State.setProc]
  | exited p => cases hs
  | wakeup me chan q =>
    simp only [Sched.runFrame] at hs
    split at hs
    · split at hs
      · cases hs
        exact h.stroll hf [.wakeup me chan (q + 1)] rfl (hone _ rfl fun _ h => by cases h)
          (List.Sublist.refl _)
      · cases hs
        exact h.acquireProc hf rfl rfl rfl rfl rfl
    · cases hs
      exact h.stroll hf [] rfl hnil (List.Sublist.refl _)
  | wakeupHeld me chan q =>
    simp only [Sched.runFrame] at hs
    split at hs
    · rename_i hsleep
      cases hs
      exact h.wakeSleeper hf [.wakeup me chan (q + 1)] hsleep.1 rfl rfl rfl
        (hone _ rfl fun _ h => by cases h) (List.Sublist.refl _) rfl (fun _ => rfl)
        fun _ _ => rfl
    · cases hs
      exact h.toRelease hf [.wakeup me chan (q + 1)] rfl rfl rfl (hone _ rfl fun _ h => by cases h)
        (List.Sublist.refl _) rfl fun _ => rfl
  | kill pid q =>
    simp only [Sched.runFrame] at hs
    split at hs
    · cases hs
      exact h.acquireProc hf rfl rfl rfl rfl rfl
    · cases hs
      exact h.stroll hf [] rfl hnil (List.Sublist.refl _)
  | killHeld pid q =>
    simp only [Sched.runFrame] at hs
    split at hs
    · have hview := s.view_setProc q (x := { s.procs q with killed := true }) rfl
      split at hs
      · rename_i hsleep
        cases hs
        exact h.wakeSleeper hf [] hsleep rfl rfl rfl hnil (List.Sublist.refl _) rfl
          hview fun x hx => update_of_ne hx ..
      · cases hs
        exact h.toRelease hf [] rfl rfl rfl hnil (List.Sublist.refl _) rfl hview
    · cases hs
      exact h.toRelease hf [.kill pid (q + 1)] rfl rfl rfl (hone _ rfl fun _ h => by cases h)
        (List.Sublist.refl _) rfl fun _ => rfl
  | allocproc me q =>
    simp only [Sched.runFrame] at hs
    split at hs
    · cases hs
      exact h.acquireProc hf rfl rfl rfl rfl rfl
    · split at hs
      · cases hs
      · cases hs
        exact h.stroll hf [] rfl hnil (List.Sublist.refl _)
  | allocprocHeld me q =>
    simp only [Sched.runFrame] at hs
    split at hs
    · rename_i hunused
      refine h.alloc hf hunused ?_
      cases me <;> cases hs <;> rfl
    · cases hs
      exact h.toRelease hf [.allocproc me (q + 1)] rfl rfl rfl (hone _ rfl fun _ => id)
        (List.Sublist.refl _) rfl fun _ => rfl
  | fork p q =>
    simp only [Sched.runFrame] at hs
    split at hs
    · cases hs
      exact h.toRelease hf [.forkLink p q] rfl rfl rfl (hone _ rfl fun _ => id)
        (List.Sublist.refl _) rfl fun _ => rfl
    · cases hs
      obtain ⟨p', hp'⟩ := running_of_makes h.control hmem (q := q) rfl
      refine h.free hf (.inr ⟨h.life.makes.made p' q ?_, rfl⟩) rfl rfl rfl
      rw [← frames_running hp', hf]
      exact List.mem_cons_self ..
  | forkLink p q =>
    cases hs
    exact h.acquireProc hf rfl rfl rfl rfl rfl
  | forkReady p q =>
    cases hs
    exact h.wakeChild hf
  | wait q =>
    simp only [Sched.runFrame] at hs
    split at hs
    · split at hs
      · cases hs
        exact h.acquireProc hf rfl rfl rfl rfl rfl
      · cases hs
        exact h.stroll hf [.wait (q + 1)] rfl (hone _ rfl fun _ h => by cases h)
          (List.Sublist.refl _)
    · cases hs
      exact h.stroll hf [] rfl hnil (List.Sublist.refl _)
  | waitHeld q =>
    simp only [Sched.runFrame] at hs
    split at hs
    · rename_i hzombie
      split at hs
      · cases hs
        exact h.free hf (.inl ⟨hzombie, rfl⟩) rfl rfl rfl
      · cases hs
        exact h.toRelease hf [] rfl rfl rfl hnil (List.Sublist.refl _) rfl fun _ => rfl
    · cases hs
      exact h.toRelease hf [.wait (q + 1)] rfl rfl rfl (hone _ rfl fun _ h => by cases h)
        (List.Sublist.refl _) rfl fun _ => rfl
  | enqueue front p i =>
    simp only [Sched.runFrame] at hs
    split at hs
    · cases hs
    · cases hs
      have htidy := h.control.tidy c
      rw [hf] at htidy
      refine h.acquire hf (fun x => ?_) htidy rfl rfl (fun _ => id) rfl
      simp [Frame.held, or_comm]
  | insert front p i =>
    cases front with
    | true =>
      obtain ⟨s₁, hs₁, hret⟩ := Run.bind_eq_ok.1 hs
      cases hret
      exact h.insert hf hs₁
    | false =>
      obtain ⟨s₁, hs₁, hret⟩ := Run.bind_eq_ok.1 hs
      cases hret
      exact h.insert hf hs₁
  | release q =>
    cases hs
    exact h.release hf

theorem timer_spec (user : Bool) (x : Proc) : (timer user x).state = x.state ∧
    (timer user x).next = x.next ∧ (x.priority < nqueue → (timer user x).priority < nqueue) := by
  unfold timer tick
  dsimp only
  split
  · split
    · refine ⟨rfl, rfl, fun hx => ?_⟩
      show x.priority - 1 < nqueue
      omega
    · exact ⟨rfl, rfl, id⟩
  · exact ⟨rfl, rfl, id⟩

theorem call_frame {me : Option Nat} {call : Call} {g : Frame} (hg : call.frame me = some g) :
    g.held = [] ∧ g.makes = none ∧ ∀ q, g.me = some q → me = some q := by
  cases me <;> cases call <;> cases hg <;> simp [Frame.held, Frame.makes, Frame.me]

theorem step (h : Good s) {e : Event} (hs : step s e = .ok s') : Good s' := by
  cases e with
  | run c choice =>
    simp only [Sched.step] at hs
    split at hs
    · rename_i f fs hf
      exact h.runFrame hf hs
    · rename_i hf
      exact h.runLoop hf hs
  | call c call =>
    simp only [Sched.step, Except.ok.injEq] at hs
    subst hs
    unfold State.call
    split
    swap
    · exact h
    rename_i hidle
    split
    · exact h
    · rename_i g hg
      obtain ⟨hheld, hm, hme⟩ := call_frame hg
      obtain ⟨place, l, hR⟩ := h.ready
      split
      · rename_i user p hc
        have hothers : ∀ x, x ≠ p →
            (s.setProc p (timer user (s.procs p))).procs x = s.procs x := fun x hx =>
          update_of_ne hx ..
        refine h.call hidle hheld hme hm (goes_setFrames rfl rfl rfl) (setFrames_locks ..)
          (setFrames_queues ..) fun x => ?_
        rw [setFrames_procs]
        by_cases hx : x = p
        · subst hx
          obtain ⟨hstate, hnext, hprio⟩ := timer_spec user (s.procs x)
          have hself : (s.setProc x (timer user (s.procs x))).procs x = timer user (s.procs x) :=
            update_self ..
          rw [hself]
          exact .inr ⟨hc, hstate, hnext, hprio (hR.range x)⟩
        · exact .inl (hothers x hx)
      · exact h.call hidle hheld hme hm (goes_setFrames rfl rfl rfl) (setFrames_locks ..)
          (setFrames_queues ..) fun x => .inl (by rw [setFrames_procs])

end Good

theorem Boot.good {s : State} (h : Boot s) : Good s := by
  have hproc : ∀ c, (s.loops c).proc = none := fun c => by rw [h.loops]; rfl
  have hframes : ∀ c, s.frames c = if c = 0 then [.allocproc none 0] else [] := fun c => by
    rw [frames_of_proc (hproc c), h.intrs]
  have hheld : ∀ c, s.held c = [] := fun c => by
    unfold State.held
    rw [hframes, h.loops]
    split
    · rename_i heq
      split at heq
      · cases heq
        rfl
      · cases heq
    · rfl
  have hent : ∀ c, s.entering c = none := fun c => by
    unfold State.entering
    rw [hframes]
    split <;> rfl
  have hrun : ∀ c p, s.loops c ≠ .running p := fun c p he => by
    rw [h.loops] at he
    cases he
  refine ⟨⟨fun l c => ?_, fun c _ p hc => absurd hc (hrun c p), fun c => ?_,
    fun c p hc => absurd hc (hrun c p), fun c _ => by rw [h.loops]; rfl, fun p f hf => ?_,
    fun c f hf => ?_⟩, ⟨fun p _ hs => ?_, fun c p hc => absurd hc (hrun c p), ?_⟩,
    fun _ => .away, fun _ => [], ?_⟩
  · rw [h.locks, hheld]
    simp
  · rw [hframes]
    split
    · exact tidy_cons rfl nofun
    · trivial
  · rw [h.kstacks] at hf
    cases hf
  · rw [h.intrs] at hf
    split at hf
    · rw [List.mem_singleton.1 hf]
      rfl
    · cases hf
  · rw [h.unused] at hs
    rcases hs with hs | hs | hs <;> cases hs
  · have hnil : ∀ p, makesOf (s.kstacks p) = [] := fun p => by
      rw [h.kstacks]
      rfl
    refine ⟨fun p q hq => ?_, fun p => ?_, fun p _ q hq => ?_⟩
    · rw [hnil] at hq
      cases hq
    · rw [hnil]
      exact List.nodup_nil
    · rw [hnil] at hq
      cases hq
  · refine ⟨fun c p => by simp [hent], fun c p i he => ?_, fun c p => by simp [h.loops, Loop.taken],
      fun i => ⟨List.nodup_nil, fun p => by simp⟩, fun i p hp => (nomatch hp), h.priority,
      fun p => by simp [h.unused], fun p _ => h.next p, fun i => by rw [h.queues]; rfl,
      fun i => trivial, fun i => .inl (by rw [h.queues]; rfl), fun c i p hp => ?_⟩
    · rw [hent] at he
      cases he
    · rw [h.loops] at hp
      cases hp

/-- The ready queue `i` is the list `l`: `head` leads to its first element, and `next` through
it. -/
structure State.IsQueue (s : State) (i : Nat) (l : List Nat) : Prop where
  head : (s.queues i).head = l.head?
  linked : Slist.Linked (fun p => (s.procs p).next) l

/-- The scheduler of CPU `c` has taken `p` from its queue and not set it RUNNING yet. -/
def State.Dequeued (s : State) (c p : Nat) : Prop := (s.loops c).taken = some p

/-- The ready queues are in order: each process is in at most one and at most once, a process
whose lock is free is RUNNABLE exactly if it is in the queue of its priority or one scheduler has
taken it from there, one that is in no queue has no successor, and none is on two CPUs. -/
structure State.Scheduled (s : State) (l : Nat → List Nat) : Prop where
  queue : ∀ i, s.IsQueue i (l i)
  once : ∀ i, (l i).Nodup
  disjoint : ∀ i j, i ≠ j → List.Disjoint (l i) (l j)
  runnable : ∀ p, s.locks (.proc p) = none → ((s.procs p).state = .runnable ↔
    p ∈ l (s.procs p).priority ∨ ∃! c, s.Dequeued c p)
  next : ∀ p, (∀ i, p ∉ l i) → (s.procs p).next = none
  running : ∀ c c' p, s.loops c = .running p → s.loops c' = .running p → c = c'

/-- Whatever processes, interrupts and schedulers do, the ready queues are in order. -/
theorem ready_queues {s s' : State} {es : List Event} (hs : Boot s)
    (hrun : Run.exec step s es = .ok s') : ∃ l, s'.Scheduled l := by
  obtain ⟨hC, hL, place, l, hR⟩ : Good s' :=
    Run.inv_of_exec (I := Good) (fun _ _ _ h => h.step) hs.good hrun
  refine ⟨l, fun i => ⟨hR.head i, hR.linked i⟩, fun i => (hR.queued i).nodup,
    fun i j hij p hi hj => ?_, fun p hfree => ?_, fun p hp => hR.next p fun i hi => ?_, hC.apart⟩
  · have := (hR.place_of_mem hi).symm.trans (hR.place_of_mem hj)
    simp only [Place.queued.injEq] at this
    exact hij this
  · rw [hR.state]
    cases hp : place p with
    | away =>
      refine ⟨fun he => absurd rfl he, ?_⟩
      rintro (hm | ⟨c, hc, -⟩)
      · cases hp.symm.trans (hR.place_of_mem hm)
      · cases hp.symm.trans ((hR.taken c p).1 hc)
    | entering c =>
      -- the CPU that enqueues a process holds its lock
      obtain ⟨i, hi⟩ := (hR.entering c p).2 hp
      unfold State.entering at hi
      have : s'.locks (.proc p) = some c := by
        rw [hC.lock]
        cases hf : s'.frames c with
        | nil =>
          rw [hf] at hi
          cases hi
        | cons f fs =>
          rw [hf] at hi
          rw [Control.held_of_frames hf]
          cases f <;> cases hi <;> simp [Frame.held]
      rw [hfree] at this
      cases this
    | queued i =>
      refine ⟨fun _ => .inl ?_, fun _ => by simp⟩
      rw [hR.priority i p hp]
      exact ((hR.queued i).mem p).2 hp
    | taken c =>
      refine ⟨fun _ => .inr ⟨c, (hR.taken c p).2 hp, fun c' hc' => ?_⟩, fun _ => by simp⟩
      have := ((hR.taken c' p).1 hc').symm.trans hp
      simpa using this
  · exact hp i (((hR.queued i).mem p).2 hi)

/-- The machine at the call of `userinit`, with the process table cleared. -/
def booting : State :=
  { procs := fun _ => ⟨.unused, 0, 0, false, 0, 0, none⟩
    queues := fun _ => ⟨none, none⟩
    locks := fun _ => none
    kstacks := fun _ => []
    loops := fun _ => .dequeue high
    intrs := fun c => if c = 0 then [.allocproc none 0] else []
    nextpid := 1 }

theorem boot_booting : Boot booting :=
  ⟨fun _ => rfl, fun _ => rfl, fun _ => (by decide : 0 < nqueue), fun _ => rfl, fun _ => rfl,
    fun _ => rfl, fun _ => rfl, fun _ => rfl⟩

/-- CPU 0 makes the first process, CPU 1 runs it, and it gives CPU 1 up at a timer interrupt
while CPU 2 is waiting for the queue. -/
def firstYield : List Event :=
  List.replicate 5 (.run 0 true) ++ List.replicate 8 (.run 1 true) ++
    [.call 1 (.timer true), .run 1 true, .run 1 true, .run 1 true, .run 2 true, .run 1 true,
      .run 1 true, .run 1 true]

theorem ready_queues_firstYield :
    Boot booting ∧ ∃ s', Run.exec step booting firstYield = .ok s' ∧ (∃ l, s'.Scheduled l) ∧
      (s'.queues 0).head = some 0 ∧ (s'.procs 0).state = .runnable ∧
      s'.locks (.proc 0) = none := by
  have hends : Run.ends step booting firstYield (fun s => decide ((s.queues 0).head = some 0 ∧
      (s.procs 0).state = .runnable ∧ s.locks (.proc 0) = none)) = true := by decide +kernel
  obtain ⟨s', hrun, hcheck⟩ := Run.of_ends hends
  exact ⟨boot_booting, s', hrun, ready_queues boot_booting hrun, of_decide_eq_true hcheck⟩

end Xv6.Sched
