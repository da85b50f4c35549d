/-
Every step of every CPU keeps locks, stacks, processes and queues in order.
-/
import Xv6.Sched.Ready

namespace Xv6.Sched

open Function State List

variable {front : Bool} {l : Lock} {ℓ : Loop} {i p : Nat} {s₁ : State}

structure Good (s : State) : Prop where
  control : Control s
  life : Life s
  ready : ∃ place l, Ready s place l

/-- The fields of a process that scheduling depends on. -/
def Proc.view (x : Proc) : Status × Nat × Option Nat := (x.state, x.priority, x.next)

namespace State

theorem view_setProc (s : State) (p : Nat) {x : Proc} (hx : x.view = (s.procs p).view) (y : Nat) :
    ((s.setProc p x).procs y).view = (s.procs y).view := by
  by_cases hy : y = p
  · simp [hy, setProc, hx]
  · simp [setProc, update_of_ne hy]

end State

theorem view_eq {x y : Proc} (h : x.view = y.view) :
    x.state = y.state ∧ x.priority = y.priority ∧ x.next = y.next := by
  simpa [Proc.view] using h

theorem held_of_probes {q : Nat} (h : ℓ.probes = some (i, q)) : Lock.queue i ∈ ℓ.held := by
  cases ℓ <;> cases h <;> simp [Loop.held]

theorem held_of_stale (h : ℓ.stale = some i) : Lock.queue i ∈ ℓ.held := by
  cases ℓ <;> cases h
  exact mem_singleton.2 rfl

namespace Good

variable {s s' : State} {c q : Nat} {f g : Frame} {fs fs' : List Frame}

theorem entering_self (hg : Goes s c fs' s') : s'.entering c = enteringBy fs' := by
  unfold State.entering
  rw [hg.frames, frames_setFrames_self]

theorem entering_of_ne (h : Control s) (hg : Goes s c fs' s') {c' : Nat} (hc : c' ≠ c) :
    s'.entering c' = s.entering c' := by
  unfold State.entering
  rw [hg.frames, frames_setFrames_of_ne h.apart hc]

theorem entering_eq (h : Control s) (hg : Goes s c fs' s')
    (hent : enteringBy fs' = enteringBy (s.frames c)) (c' : Nat) :
    s'.entering c' = s.entering c' := by
  by_cases hc : c' = c
  · rw [hc, entering_self hg, hent]
    rfl
  · exact entering_of_ne h hg hc

theorem entering_top (hf : s.frames c = f :: fs) : s.entering c = f.entering := by
  unfold State.entering
  rw [hf]
  rfl

theorem of_control (h : Good s) (hC' : Control s') (hg : Goes s c fs' s')
    (hqueues : s'.queues = s.queues) (hview : ∀ x, (s'.procs x).view = (s.procs x).view)
    (hm : (makesOf fs').Sublist (makesOf (s.frames c)))
    (hy : ∀ p, s.loops c = .running p → yieldsBy (s.frames c) = some p → yieldsBy fs' = some p)
    (hent : enteringBy fs' = enteringBy (s.frames c)) : Good s' := by
  obtain ⟨hC, hL, place, l, hR⟩ := h
  have hloops := hg.loops
  refine ⟨hC', hL.keep hg (fun x => (view_eq (hview x)).1) hm hy, place, l,
    hR.congr (entering_eq hC hg hent) (fun _ => by rw [hloops]) (fun _ _ => by rw [hloops]; exact id)
      (fun _ => by rw [hloops]) (fun x => by rw [(view_eq (hview x)).1]) (fun x => ?_)
      (fun x _ => (view_eq (hview x)).2.1) (fun x => (view_eq (hview x)).2.2) hqueues⟩
  rw [(view_eq (hview x)).2.1]
  exact hR.range x

theorem keep (h : Good s) (hf : s.frames c = f :: fs) (hg : Goes s c fs' s')
    (hlocks : s'.locks = s.locks) (hqueues : s'.queues = s.queues)
    (hview : ∀ x, (s'.procs x).view = (s.procs x).view)
    (hheld : heldBy fs' = f.held) (htidy : Tidy (s.loops c).proc fs')
    (hme : ∀ x ∈ fs', x ∈ s.frames c ∨ ∀ q, x.me = some q → f.me = some q)
    (hm : (makesOf fs').Sublist (makesOf (f :: fs)))
    (hy : ∀ p, f.yields = some p → yieldsBy fs' = some p)
    (hent : enteringBy fs' = f.entering) : Good s' :=
  h.of_control (h.control.keep hf hg hlocks hheld htidy hme) hg hqueues hview (hf ▸ hm)
    (fun p _ hp => hy p (by rw [hf] at hp; exact hp)) (hf ▸ hent)

theorem acquire (h : Good s) (hf : s.frames c = f :: fs)
    (hheld : ∀ x, x ∈ g.held ↔ x = l ∨ x ∈ f.held) (htidy : Tidy (s.loops c).proc (g :: fs))
    (hme : g.me = f.me) (hm : g.makes = f.makes) (hy : ∀ p, f.yields = some p → g.yields = some p)
    (hent : g.entering = f.entering) : Good (s.acquire c l (g :: fs)) := by
  unfold State.acquire
  split
  swap
  · exact h
  rename_i hfree
  refine h.of_control (h.control.acquire hf hfree hheld htidy hme) (goes_setFrames rfl rfl rfl)
    (setFrames_queues ..) (fun x => by rw [setFrames_procs]; rfl) ?_ (fun p _ hp => ?_)
    (hf ▸ hent)
  · rw [hf]
    unfold makesOf
    rw [filterMap_cons, filterMap_cons, hm]
  · rw [hf] at hp
    exact hy p hp

theorem release (h : Good s) (hf : s.frames c = .release q :: fs) :
    Good ((s.setLock (.proc q) none).setFrames c fs) := by
  have hfree : ∀ x ∈ fs, x.held = [] := (hf ▸ h.control.tidy c).tail rfl
  have hent : enteringBy fs = none := by
    cases fs with
    | nil => rfl
    | cons f fs => exact entering_of_free (hfree f (mem_cons_self ..))
  have hg : Goes s c fs ((s.setLock (.proc q) none).setFrames c fs) := goes_setFrames rfl rfl rfl
  have hC' := h.control.release hf hg (l := .proc q) (setFrames_locks ..)
    (mem_singleton.2 rfl) (fun x => by rw [heldBy_of_free hfree]; simp [Frame.held])
    (tidy_of_free hfree)
  refine h.of_control hC' hg (setFrames_queues ..)
    (fun x => by rw [setFrames_procs]; rfl) ?_ (fun p _ hp => ?_) ?_
  · rw [hf]
    exact List.Sublist.refl _
  · rw [hf] at hp
    cases hp
  · rw [hf, hent]
    rfl

theorem running_of_makes (h : Control s) (hf : f ∈ s.frames c) (hq : f.makes = some q) :
    ∃ p, s.loops c = .running p := by
  have : ∃ p, f.me = some p := by
    cases f <;> first | exact ⟨_, rfl⟩ | cases hq
  obtain ⟨p, hp⟩ := this
  exact ⟨p, proc_eq_some.1 (h.me_of_frames hf hp)⟩

theorem makes_sublist (hg : Goes s c fs' s') (hm : (makesOf fs').Sublist (makesOf (s.frames c)))
    (p : Nat) : (makesOf (s'.kstacks p)).Sublist (makesOf (s.kstacks p)) := by
  rcases hg.kstacks_cases p with ⟨hc, hst⟩ | ⟨-, hst⟩
  · rw [hst, ← frames_running hc]
    exact hm
  · rw [hst]

theorem makes_finish (hC : Control s) (hL : Life s) (hf : s.frames c = f :: fs)
    (hq : f.makes = some q) (hg : Goes s c fs' s') (hm : makesOf fs' = makesOf fs)
    (hstate : ∀ x, x ≠ q → (s'.procs x).state = (s.procs x).state) :
    Makes (fun p => (s'.procs p).state) fun p => makesOf (s'.kstacks p) := by
  obtain ⟨p, hp⟩ := running_of_makes hC (mem_top hf) hq
  refine hL.makes.finish (p := p) (l := makesOf fs) ?_ ?_ (fun x hx => ?_) hstate
  · rw [← frames_running hp, hf, makesOf_cons_some hq]
  · rcases hg.kstacks_cases p with ⟨-, hst⟩ | ⟨hne, -⟩
    · rw [hst, hm]
    · exact absurd hp hne
  · rcases hg.kstacks_cases x with ⟨hc, -⟩ | ⟨-, hst⟩
    · cases hp.symm.trans hc
      exact absurd rfl hx
    · rw [hst]

section

variable (h : Good s)

include h

theorem wake (hf : s.frames c = f :: fs) {rest : List Frame}
    (hg : Goes s c (.enqueue front q i :: .release q :: rest)
      ((s₁.setState q .runnable).setFrames c (.enqueue front q i :: .release q :: rest)))
    (hlocks : s₁.locks = s.locks) (hqueues : s₁.queues = s.queues)
    (hprocs : ∀ x, x ≠ q → s₁.procs x = s.procs x) (hi : (s₁.procs q).priority = i)
    (hrange : i < nqueue) (hnext : (s₁.procs q).next = none)
    (hstate : (s.procs q).state ≠ .runnable ∧ (s.procs q).state ≠ .running)
    (hsaved : Saved q (s.kstacks q))
    (hmakes : ∀ s', Goes s c (.enqueue front q i :: .release q :: rest) s' →
      (∀ x, x ≠ q → (s'.procs x).state = (s.procs x).state) →
      Makes (fun p => (s'.procs p).state) fun p => makesOf (s'.kstacks p))
    (hheld : f.held = [.proc q]) (hent : f.entering = none) (hy : f.yields = none)
    (hrest : ∀ x ∈ rest, x.held = [])
    (hme : ∀ x ∈ rest, x ∈ s.frames c ∨ ∀ q, x.me = some q → f.me = some q) :
    Good ((s₁.setState q .runnable).setFrames c (.enqueue front q i :: .release q :: rest)) := by
  have hself : ((s₁.setState q .runnable).setFrames c
      (.enqueue front q i :: .release q :: rest)).procs q =
      { s₁.procs q with state := .runnable } := by
    simp [State.setState, State.setProc]
  have hothers : ∀ x, x ≠ q → ((s₁.setState q .runnable).setFrames c
      (.enqueue front q i :: .release q :: rest)).procs x = s.procs x := fun x hx => by
    rw [← hprocs x hx]
    simp [State.setState, State.setProc, update_of_ne hx]
  obtain ⟨hC, hL, place, l, hR⟩ := h
  have hoff := hL.off hstate.2 hstate.1
  have hproc : (s.loops c).proc ≠ some q := fun he => hoff c (proc_eq_some.1 he)
  have hstates := fun x hx => congrArg Proc.state (hothers x hx)
  refine ⟨hC.keep hf hg ((setFrames_locks ..).trans hlocks) (by rw [hheld]; rfl) ?_ fun x hx => ?_,
    hL.change hg hoff hstates (fun _ => hsaved)
      (fun p hp => hL.running hp hf (by rw [hy]; simp)) (hmakes _ hg hstates),
    _, l, hR.wake hstate.1 (c := c) ((entering_top hf).trans hent) ?_
      (fun c' => entering_of_ne hC hg) hg.loops (by rw [hself]) hothers (by rw [hself]; exact hi ▸ hrange)
      (by rw [hself]; exact hnext) ((setFrames_queues ..).trans hqueues)⟩
  · simp only [Tidy]
    exact ⟨_, rest, rfl, hrest, .inr ⟨hproc, rfl⟩⟩
  · rcases mem_cons.1 hx with rfl | hx
    · exact .inr fun _ h => by cases h
    rcases mem_cons.1 hx with rfl | hx
    · exact .inr fun _ h => by cases h
    · exact hme x hx
  · rw [entering_self hg, hself]
    show some (q, i) = some (q, (s₁.procs q).priority)
    rw [hi]

theorem yield (hf : s.frames c = .yieldHeld p :: fs) (hi : i = (s'.procs p).priority)
    (hg : Goes s c (.enqueue false p i :: .yieldQueued p :: fs) s') (hlocks : s'.locks = s.locks)
    (hqueues : s'.queues = s.queues) (hprocs : s'.procs = (s.setState p .runnable).procs) :
    Good s' := by
  obtain ⟨hC, hL, place, l, hR⟩ := h
  have hproc : (s.loops c).proc = some p := hC.me_of_frames (mem_top hf) rfl
  have hc : s.loops c = .running p := proc_eq_some.1 hproc
  have hrun : (s.procs p).state = .running := hL.running hc hf (fun h => by cases h)
  have hself : s'.procs p = { s.procs p with state := .runnable } := by
    rw [hprocs]
    simp [State.setState, State.setProc]
  have hothers : ∀ x, x ≠ p → s'.procs x = s.procs x := fun x hx => by
    rw [hprocs]
    simp [State.setState, State.setProc, update_of_ne hx]
  refine ⟨hC.keep hf hg hlocks rfl ?_ fun x hx => ?_,
    hL.yield hc hrun hg (fun x hx => by rw [hothers x hx]) (by rw [hself]) rfl ?_,
    _, l, hR.wake (p := p) (c := c) (by simp [hrun]) (entering_top hf) ?_
      (fun c' => entering_of_ne hC hg) hg.loops (by rw [hself]) hothers
      (by rw [hself]; exact hR.range p)
      (by rw [hself]; exact hR.next_eq_none (by rw [hrun]; decide)) hqueues⟩
  · simp only [Tidy]
    exact ⟨_, fs, rfl, (hf ▸ hC.tidy c).tail rfl, .inl ⟨hproc, rfl⟩⟩
  · rcases mem_cons.1 hx with rfl | hx
    · exact .inr fun _ h => by cases h
    rcases mem_cons.1 hx with rfl | hx
    · exact .inr fun _ => id
    · exact .inl (mem_below hf hx)
  · rw [hf]
    rfl
  · rw [entering_self hg, hi]
    rfl

theorem sched (hf : s.frames c = f :: fs) (hme : f.me = some p) (hheld : f.held = [.proc p])
    (hent : f.entering = none) (hm : f.makes = none) (hs₁ : s' = { s with
      procs := s'.procs
      kstacks := update s.kstacks p (g :: fs)
      loops := update s.loops c (.back p) }) (hg : g.me = none ∨ g.me = some p)
    (hgm : g.makes = none) (hothers : ∀ x, x ≠ p → s'.procs x = s.procs x)
    (hnext : (s'.procs p).next = (s.procs p).next)
    (hprio : (s'.procs p).priority = (s.procs p).priority)
    (hstate : (s'.procs p).state = (s.procs p).state ∨ (s.procs p).state = .running ∧
      (s'.procs p).state ≠ .runnable)
    (hsaved : (s'.procs p).state ≠ .zombie → g = .release p ∨ g = .sleepResumed p) : Good s' := by
  obtain ⟨hC, hL, place, l, hR⟩ := h
  have hc : s.loops c = .running p := proc_eq_some.1 (hC.me_of_frames (mem_top hf) hme)
  have hfree : ∀ x ∈ fs, x.held = [] := (hf ▸ hC.tidy c).tail hent
  have hloops : s'.loops = update s.loops c (.back p) := by rw [hs₁]
  have hstacks : s'.kstacks = update s.kstacks p (g :: fs) := by rw [hs₁]
  have hintrs : s'.intrs = s.intrs := by rw [hs₁]
  have hlocks : s'.locks = s.locks := by rw [hs₁]
  have hqueues : s'.queues = s.queues := by rw [hs₁]
  have hon := hL.on c p hc
  have hC' : Control s' := hC.sched hc hf hheld hloops hstacks hintrs hlocks fun x hx => by
    rcases mem_cons.1 hx with rfl | hx
    · exact .inr hg
    · exact .inl (mem_cons_of_mem _ hx)
  have hmk : makesOf (g :: fs) = makesOf (s.frames c) := by
    rw [hf, makesOf_cons_none hgm, makesOf_cons_none hm]
  refine ⟨hC', hL.sched hC.apart hc hloops hstacks (fun x hx => by rw [hothers x hx]) ?_
    (fun hz => ⟨g, fs, rfl, hsaved hz, hfree⟩) hmk, place, l, hR.congr (fun c' => ?_) (fun c' => ?_)
      (fun c' x hx => ?_) (fun c' => ?_) (fun x => ?_) (fun x => ?_) (fun x _ => ?_) (fun x => ?_)
      hqueues⟩
  · rcases hon with hs | ⟨hs, -⟩ <;> rw [hs] <;> decide
  · unfold State.entering
    by_cases hc' : c' = c
    · have hnil : s'.frames c = [] := by
        rw [frames_of_proc (by rw [hloops, update_self]; rfl), hintrs]
        exact hC.intr c p hc
      rw [hc', hnil, hf]
      exact hent.symm
    · rw [frames_congr s (by rw [hloops, update_of_ne hc']) (fun q hq => ?_)
        (by rw [hintrs])]
      rw [hstacks, update_of_ne]
      rintro rfl
      exact hc' (hC.apart c' c q hq hc)
  · rw [hloops]
    by_cases hc' : c' = c
    · rw [hc', update_self, hc]
      rfl
    · rw [update_of_ne hc']
  · rw [hloops] at hx
    by_cases hc' : c' = c
    · rw [hc', update_self] at hx
      cases hx
    · rwa [update_of_ne hc'] at hx
  · rw [hloops]
    by_cases hc' : c' = c
    · rw [hc', update_self, hc]
      rfl
    · rw [update_of_ne hc']
  · by_cases hx : x = p
    · rw [hx]
      rcases hstate with hs | ⟨hs, hs'⟩
      · rw [hs]
      · rw [hs]
        exact ⟨fun he => absurd he hs', nofun⟩
    · rw [hothers x hx]
  · by_cases hx : x = p
    · rw [hx, hprio]
      exact hR.range p
    · rw [hothers x hx]
      exact hR.range x
  · by_cases hx : x = p
    · rw [hx, hprio]
    · rw [hothers x hx]
  · by_cases hx : x = p
    · rw [hx, hnext]
    · rw [hothers x hx]

theorem change (hf : s.frames c = f :: fs) (hg : Goes s c fs' s') (hlocks : s'.locks = s.locks)
    (hqueues : s'.queues = s.queues) (hprocs : ∀ x, x ≠ q → s'.procs x = s.procs x)
    (hstate : (s.procs q).state ≠ .runnable ∧ (s.procs q).state ≠ .running)
    (hstate' : (s'.procs q).state ≠ .runnable) (hrange : (s'.procs q).priority < nqueue)
    (hnext : (s'.procs q).next = (s.procs q).next)
    (hsaved : (s'.procs q).state = .sleeping ∨ (s'.procs q).state = .runnable ∨
      (s'.procs q).state = .used → Saved q (s.kstacks q))
    (hmakes : Makes (fun p => (s'.procs p).state) fun p => makesOf (s'.kstacks p))
    (hheld : heldBy fs' = f.held) (htidy : Tidy (s.loops c).proc fs')
    (hme : ∀ x ∈ fs', x ∈ s.frames c ∨ ∀ q, x.me = some q → f.me = some q) (hy : f.yields = none)
    (hent : enteringBy fs' = f.entering) : Good s' := by
  obtain ⟨hC, hL, place, l, hR⟩ := h
  have hoff := hL.off hstate.2 hstate.1
  have hloops := hg.loops
  refine ⟨hC.keep hf hg hlocks hheld htidy hme,
    hL.change hg hoff (fun p hp => by rw [hprocs p hp]) hsaved (fun p hp => ?_) hmakes,
    place, l, hR.congr (entering_eq hC hg (by rw [hf]; exact hent)) (fun _ => by rw [hloops])
      (fun _ _ => by rw [hloops]; exact id) (fun _ => by rw [hloops]) (fun x => ?_) (fun x => ?_)
      (fun x hx => ?_) (fun x => ?_) hqueues⟩
  · exact hL.running hp hf (by rw [hy]; simp)
  · by_cases hx : x = q
    · rw [hx]
      exact ⟨fun he => absurd he hstate', fun he => absurd he hstate.1⟩
    · rw [hprocs x hx]
  · by_cases hx : x = q
    · rw [hx]
      exact hrange
    · rw [hprocs x hx]
      exact hR.range x
  · have hxq : x ≠ q := by
      rintro rfl
      exact hstate.1 hx
    rw [hprocs x hxq]
  · by_cases hx : x = q
    · rw [hx, hnext]
    · rw [hprocs x hx]

theorem restack (hq : (s.procs q).state = .unused) :
    Good { s with kstacks := update s.kstacks q [.release q] } ∧
      ∀ c, { s with kstacks := update s.kstacks q [.release q] }.frames c = s.frames c := by
  obtain ⟨hC, hL, place, l, hR⟩ := h
  have hoff := hL.off (p := q) (by rw [hq]; decide) (by rw [hq]; decide)
  have hframes : ∀ c, { s with kstacks := update s.kstacks q [.release q] }.frames c =
      s.frames c := fun c =>
    frames_congr s rfl (fun p hp => update_of_ne (fun he => by
      subst he
      exact hoff c hp) ..) rfl
  refine ⟨⟨hC.restack hoff rfl rfl rfl rfl fun f hf p hp => ?_,
    hL.restack hq rfl rfl rfl rfl, place, l, hR.congr (fun c => ?_) (fun _ => rfl) (fun _ _ => id)
      (fun _ => rfl) (fun _ => Iff.rfl) hR.range (fun _ _ => rfl) (fun _ => rfl) rfl⟩, hframes⟩
  · rw [mem_singleton.1 hf] at hp
    cases hp
  · unfold State.entering
    rw [hframes]

theorem alloc {me : Option Nat} (hf : s.frames c = .allocprocHeld me q :: fs)
    (hq : (s.procs q).state = .unused) {s' : State} (hs' : s' = match me with
      | none => ((s.allocproc q).setState q .runnable).setFrames c
          (.enqueue false q ((s.allocproc q).procs q).priority :: .release q :: fs)
      | some p => (s.allocproc q).setFrames c (.fork p q :: fs)) : Good s' := by
  obtain ⟨h₁, hframes⟩ := h.restack hq
  have hf₁ := (hframes c).trans hf
  have hfree : ∀ x ∈ fs, x.held = [] := (hf ▸ h.control.tidy c).tail rfl
  have hsaved : Saved q (update s.kstacks q [.release q] q) :=
    ⟨.release q, [], update_self .., .inl rfl, nofun⟩
  have hnew : (s.procs q).state ≠ .runnable ∧ (s.procs q).state ≠ .running := by
    rw [hq]
    decide
  have hproc : ∀ x, x ≠ q → (s.allocproc q).procs x = s.procs x := fun x hx => by
    simp [State.allocproc, State.setProc, update_of_ne hx]
  have hself : (s.allocproc q).procs q = { s.procs q with
      pid := s.nextpid, state := .used, priority := high, tsticks := .ofNat tsticksHigh,
      next := none } := by
    simp [State.allocproc, State.setProc]
  cases me with
  | none =>
    rw [hs']
    refine h₁.wake hf₁ (goes_setFrames rfl rfl rfl) rfl rfl hproc rfl
      (by rw [hself]; show high < nqueue; decide) (by rw [hself]) hnew hsaved (fun s' hg hst => ?_)
      rfl rfl rfl hfree fun x hx => .inl (mem_below hf₁ hx)
    exact h₁.life.makes.setState (q := q) (by dsimp only; rw [hq]; decide)
      (makes_sublist hg (by rw [hf₁]; exact List.Sublist.refl _)) hst
  | some p =>
    have hg : Goes { s with kstacks := update s.kstacks q [.release q] } c
        (.fork p q :: fs) s' := by
      rw [hs']
      exact goes_setFrames rfl rfl rfl
    have hprocs : s'.procs = (s.allocproc q).procs := by
      rw [hs']
      exact setFrames_procs ..
    have hothers : ∀ x, x ≠ q → s'.procs x = s.procs x := fun x hx => by
      rw [hprocs]
      exact hproc x hx
    have hc : s.loops c = .running p :=
      proc_eq_some.1 (h.control.me_of_frames (mem_top hf) rfl)
    obtain ⟨place, l, hR⟩ := h.ready
    refine h₁.change hf₁ hg ?_ ?_ hothers hnew ?_ ?_ ?_ (fun _ => hsaved) ?_ rfl
      (tidy_cons rfl hfree) (fun x hx => ?_) rfl rfl
    · rw [hs']
      exact setFrames_locks ..
    · rw [hs']
      exact setFrames_queues ..
    · rw [hprocs, hself]
      show Status.used ≠ .runnable
      decide
    · rw [hprocs, hself]
      show high < nqueue
      decide
    · rw [hprocs, hself]
      exact (hR.next_eq_none hnew.1).symm
    · refine h₁.life.makes.start (p := p) (q := q) (by dsimp only; rw [hq]; decide)
        (by rw [hprocs, hself]) ?_ (fun x hx => ?_) fun x hx => by rw [hothers x hx]
      · rcases hg.kstacks_cases p with ⟨-, hst⟩ | ⟨hne, -⟩
        · rw [hst, ← frames_running
            (s := { s with kstacks := update s.kstacks q [.release q] }) hc, hf₁]
          rfl
        · exact absurd hc hne
      · rcases hg.kstacks_cases x with ⟨hc', -⟩ | ⟨-, hst⟩
        · cases hc.symm.trans hc'
          exact absurd rfl hx
        · rw [hst]
    · rcases mem_cons.1 hx with rfl | hx
      · exact .inr fun _ => id
      · exact .inl (mem_below hf₁ hx)

theorem free (hf : s.frames c = f :: fs) (hq : (s.procs q).state = .zombie ∧ f.makes = none ∨
      (s.procs q).state = .used ∧ f.makes = some q) (hheld : f.held = [.proc q])
    (hent : f.entering = none) (hy : f.yields = none) :
    Good ((s.freeproc q).setFrames c (.release q :: fs)) := by
  have hg : Goes s c (.release q :: fs) ((s.freeproc q).setFrames c (.release q :: fs)) :=
    goes_setFrames rfl rfl rfl
  have hprocs : ((s.freeproc q).setFrames c (.release q :: fs)).procs = (s.freeproc q).procs :=
    setFrames_procs ..
  have hself : (s.freeproc q).procs q =
      { s.procs q with pid := 0, chan := 0, killed := false, state := .unused } := by
    simp [State.freeproc, State.setProc]
  have hothers : ∀ x, x ≠ q → (s.freeproc q).procs x = s.procs x := fun x hx => by
    simp [State.freeproc, State.setProc, update_of_ne hx]
  obtain ⟨place, l, hR⟩ := h.ready
  have hmk : makesOf (.release q :: fs) = makesOf fs := rfl
  refine h.change hf hg (setFrames_locks ..) (setFrames_queues ..)
    (fun x hx => by rw [hprocs]; exact hothers x hx) ?_ ?_ ?_ ?_ (fun hs => ?_) ?_ hheld.symm
    (tidy_cons rfl ((hf ▸ h.control.tidy c).tail hent)) (fun x hx => ?_) hy (by rw [hent]; rfl)
  · rcases hq with ⟨hs, -⟩ | ⟨hs, -⟩ <;> rw [hs] <;> decide
  · rw [hprocs, hself]
    show Status.unused ≠ .runnable
    decide
  · rw [hprocs, hself]
    exact hR.range q
  · rw [hprocs, hself]
  · rw [hprocs, hself] at hs
    rcases hs with hs | hs | hs <;> cases hs
  · rcases hq with ⟨hs, hm⟩ | ⟨-, hm⟩
    · refine h.life.makes.setState (q := q) (by rw [hs]; decide)
        (makes_sublist hg (by rw [hf, hmk, makesOf_cons_none hm])) fun x hx => ?_
      rw [hprocs, hothers x hx]
    · exact makes_finish h.control h.life hf hm hg hmk fun x hx => by rw [hprocs, hothers x hx]
  · rcases mem_cons.1 hx with rfl | hx
    · exact .inr fun _ h => by cases h
    · exact .inl (mem_below hf hx)

end

theorem queue_locked (h : Control s) (hf : s.frames c = f :: fs) (hi : Lock.queue i ∈ f.held)
    (c' : Nat) : Lock.queue i ∉ (s.loops c').held := by
  intro hl
  have hc' := h.loop_lock hl
  rw [(h.lock_of_frames hf _).2 hi, Option.some.injEq] at hc'
  rw [← hc', h.loop_held (by simp [hf])] at hl
  cases hl

theorem insert (h : Good s) (hf : s.frames c = .insert front p i :: fs)
    (hs₁ : (if front then s.enqueueAtHead p i else s.enqueueAtTail p i) = .ok s₁) :
    Good ((s₁.setLock (.queue i) none).setFrames c fs) := by
  obtain ⟨hC, hL, place, l, hR⟩ := h
  have hheld := queue_locked hC hf (i := i) (by simp [Frame.held])
  have hent : s.entering c = some (p, i) := entering_top hf
  have hnoStale : ∀ c', (s.loops c').stale ≠ some i := fun c' he => hheld c' (held_of_stale he)
  have hnoProbe : ∀ c' q, (s.loops c').probes ≠ some (i, q) := fun c' q he =>
    hheld c' (held_of_probes he)
  obtain ⟨l₁, hI⟩ : ∃ l₁, Inserted s s₁ place p i l₁ := by
    cases front with
    | true =>
      obtain ⟨s₂, l₁, hok, hI⟩ := hR.enqueueAtHead_spec hent hnoStale
      cases hok.symm.trans hs₁
      exact ⟨l₁, hI⟩
    | false =>
      obtain ⟨s₂, l₁, hok, hI⟩ := hR.enqueueAtTail_spec hent hnoStale
      cases hok.symm.trans hs₁
      exact ⟨l₁, hI⟩
  obtain ⟨t, o, hframe⟩ := hI.frame
  have hg : Goes s c fs ((s₁.setLock (.queue i) none).setFrames c fs) := by
    refine goes_setFrames ?_ ?_ ?_ <;> rw [hframe] <;> rfl
  have htidy := hC.tidy c
  rw [hf] at htidy
  obtain ⟨g, rest, rfl, hrest, hcase⟩ := htidy
  have hgheld : g.held = [.proc p] := by rcases hcase with ⟨-, rfl⟩ | ⟨-, rfl⟩ <;> rfl
  have hgent : g.entering = none := by rcases hcase with ⟨-, rfl⟩ | ⟨-, rfl⟩ <;> rfl
  refine ⟨hC.release hf hg (l := .queue i) ?_ (by simp [Frame.held]) (fun x => ?_)
    (tidy_cons hgent hrest), hL.keep hg (fun x => ?_) ?_ (fun p' hp' hy => ?_), _, _,
    hR.insert hI hent ((entering_self hg).trans hgent) (fun c' => entering_of_ne hC hg) hg.loops
      hnoProbe (setFrames_procs ..) (setFrames_queues ..)⟩
  · rw [setFrames_locks, hframe]
    rfl
  · show x ∈ g.held ↔ _
    rw [hgheld]
    simp only [Frame.held, mem_cons, not_mem_nil, or_false]
    constructor
    · rintro rfl
      exact ⟨.inl rfl, by simp⟩
    · rintro ⟨hx | hx, hne⟩
      · exact hx
      · exact absurd hx hne
  · rw [setFrames_procs]
    exact (hI.procs x).1
  · rw [hf]
    exact List.Sublist.refl _
  · rw [hf] at hy
    cases hy
    rcases hcase with ⟨-, rfl⟩ | ⟨hne, -⟩
    · rfl
    · exact absurd (proc_eq_some.2 hp') hne

theorem call (h : Good s) (hidle : s.held c = []) (hgh : g.held = [])
    (hme : ∀ q, g.me = some q → (s.loops c).proc = some q) (hm : g.makes = none)
    (hgo : Goes s c (g :: s.frames c) s') (hlocks : s'.locks = s.locks)
    (hqueues : s'.queues = s.queues)
    (hprocs : ∀ x, s'.procs x = s.procs x ∨ s.loops c = .running x ∧
      (s'.procs x).state = (s.procs x).state ∧ (s'.procs x).next = (s.procs x).next ∧
      (s'.procs x).priority < nqueue) : Good s' := by
  obtain ⟨hC, hL, place, l, hR⟩ := h
  have hgent : g.entering = none := entering_of_free hgh
  have hyields : ∀ p, yieldsBy (s.frames c) ≠ some p := by
    intro p hp
    cases hf : s.frames c with
    | nil =>
      rw [hf] at hp
      cases hp
    | cons f fs =>
      rw [Control.held_of_frames hf] at hidle
      rw [hf] at hp
      cases f <;> first | (cases hp; done) | cases hidle
  have hent : enteringBy (s.frames c) = none := by
    cases hf : s.frames c with
    | nil => rfl
    | cons f fs =>
      rw [Control.held_of_frames hf] at hidle
      exact entering_of_free hidle
  have hstate : ∀ x, (s'.procs x).state = (s.procs x).state := fun x => by
    rcases hprocs x with he | ⟨-, he, -⟩
    · rw [he]
    · exact he
  refine ⟨hC.call hidle hgh hme hlocks hgo, hL.keep hgo hstate ?_ fun p _ hp => absurd hp (hyields p),
    place, l, hR.congr (entering_eq hC hgo (hgent.trans hent.symm)) (fun _ => by rw [hgo.loops])
      (fun _ _ => by rw [hgo.loops]; exact id) (fun _ => by rw [hgo.loops])
      (fun x => by rw [hstate]) (fun x => ?_) (fun x hx => ?_) (fun x => ?_) hqueues⟩
  · rw [makesOf_cons_none hm]
  · rcases hprocs x with he | ⟨-, -, -, he⟩
    · rw [he]
      exact hR.range x
    · exact he
  · rcases hprocs x with he | ⟨hc, -⟩
    · rw [he]
    · rcases hL.on c x hc with hs | ⟨-, hy⟩
      · rw [hs] at hx
        cases hx
      · rw [← frames_running hc] at hy
        exact absurd hy (hyields x)
  · rcases hprocs x with he | ⟨-, -, he, -⟩
    · rw [he]
    · exact he

/-! ## The scheduler loop -/

section

variable (h : Good s) (hf : s.frames c = []) (hproc : (s.loops c).proc = none)
  (hproc' : ℓ.proc = none)

include h hf hproc hproc'

theorem reloop (hloops : s'.loops = update s.loops c ℓ) (hstacks : s'.kstacks = s.kstacks)
    (hintrs : s'.intrs = s.intrs) (hlock : ∀ l, s'.locks l = some c ↔ l ∈ ℓ.held)
    (hothers : ∀ l c', c' ≠ c → (s'.locks l = some c' ↔ s.locks l = some c'))
    (hstate : ∀ x, (s'.procs x).state = (s.procs x).state)
    (hready : (∀ c', s'.entering c' = s.entering c') → ∀ place l, Ready s place l →
      ∃ place l, Ready s' place l) : Good s' := by
  obtain ⟨hC, hL, place, l, hR⟩ := h
  have hC' := hC.reloop hf hproc hproc' hloops hstacks hintrs hlock hothers
  refine ⟨hC', hL.reloop hproc hproc' hloops hstacks hstate, hready (fun c' => ?_) place l hR⟩
  unfold State.entering
  by_cases hc : c' = c
  · have hproc₁ : (s'.loops c).proc = none := by
      rw [hloops, update_self]
      exact hproc'
    rw [hc, frames_of_proc hproc₁, frames_of_proc hproc, hintrs]
  · rw [frames_congr s (by rw [hloops, update_of_ne hc]) (fun p _ => by rw [hstacks])
      (by rw [hintrs])]

theorem acquireLoop (hheld : ∀ x, x ∈ ℓ.held ↔ x = l ∨ x ∈ (s.loops c).held)
    (htaken : ℓ.taken = (s.loops c).taken) (hstale : ℓ.stale = (s.loops c).stale)
    (hprobe : ∀ x, ℓ.probes = some x → (s.loops c).probes = some x) :
    Good (s.acquireLoop c l ℓ) := by
  unfold State.acquireLoop
  split
  swap
  · exact h
  rename_i hfree
  obtain ⟨hlock, hothers⟩ := locks_take (h.control.lock_of_nil hf) hfree hheld
  exact h.reloop hf hproc hproc' rfl rfl rfl hlock hothers (fun _ => rfl)
    fun hent place l' hR => ⟨place, l', hR.look hent rfl rfl rfl htaken hstale fun i p hx =>
      (hR.head i).trans (hR.probe c i p (hprobe _ hx))⟩

theorem releaseLoop (hloops : s'.loops = update s.loops c ℓ) (hstacks : s'.kstacks = s.kstacks)
    (hintrs : s'.intrs = s.intrs) (hlocks : s'.locks = update s.locks l none)
    (hl : l ∈ (s.loops c).held) (hheld : ∀ x, x ∈ ℓ.held ↔ x ∈ (s.loops c).held ∧ x ≠ l)
    (hstate : ∀ x, (s'.procs x).state = (s.procs x).state)
    (hready : (∀ c', s'.entering c' = s.entering c') → ∀ place l, Ready s place l →
      ∃ place l, Ready s' place l) : Good s' := by
  obtain ⟨hlock, hothers⟩ := locks_drop (h.control.lock_of_nil hf) hl hheld
  exact h.reloop hf hproc hproc' hloops hstacks hintrs (hlocks ▸ hlock) (hlocks ▸ hothers) hstate
    hready

end

theorem off_of_pick (hC : Control s) (hL : Life s) (hc : s.loops c = .pick p)
    (hready : (s.procs p).state = .runnable) (c' : Nat) : s.loops c' ≠ .running p := by
  intro hc'
  rcases hL.on c' p hc' with hs | ⟨-, hy⟩
  · cases hs.symm.trans hready
  · have h₁ : s.locks (.proc p) = some c := hC.loop_lock (by rw [hc]; simp [Loop.held])
    have h₂ : s.locks (.proc p) = some c' := by
      rw [hC.lock]
      rw [← frames_running hc'] at hy
      cases hf : s.frames c' with
      | nil =>
        rw [hf] at hy
        cases hy
      | cons f fs =>
        rw [hf] at hy
        rw [Control.held_of_frames hf]
        cases f <;> cases hy <;> simp [Frame.held]
    rw [h₁, Option.some.injEq] at h₂
    subst h₂
    cases hc.symm.trans hc'

theorem pickLoop (h : Good s) (hf : s.frames c = []) (hc : s.loops c = .pick p)
    (hs : (if (s.procs p).state = .runnable then .ok ((s.setState p .running).setLoop c (.running p))
      else .ok (s.setLoop c (.back p)) : Except Panic State) = .ok s') : Good s' := by
  obtain ⟨hC, hL, place, l, hR⟩ := h
  have hp : place p = .taken c := (hR.taken c p).1 (by rw [hc]; rfl)
  have hready : (s.procs p).state = .runnable := (hR.state p).2 (by rw [hp]; simp)
  have hoff := off_of_pick hC hL hc hready
  rw [if_pos hready] at hs
  cases hs
  obtain ⟨f, fs, hstack, hcase, hfs⟩ := hL.saved p hoff (.inr (.inl hready))
  have hheld : f.held = [.proc p] := by rcases hcase with rfl | rfl <;> rfl
  have hent : f.entering = none := by rcases hcase with rfl | rfl <;> rfl
  refine ⟨hC.pick hc hf hoff hstack hheld hent hfs rfl rfl rfl rfl,
    hL.pick (by rw [hc]; rfl) hready rfl rfl ?_ fun x hx => ?_, _, l,
    hR.pick hc (fun c' => ?_) rfl rfl rfl⟩
  · simp [State.setLoop, State.setState, State.setProc]
  · simp [State.setLoop, State.setState, State.setProc, update_of_ne hx]
  · unfold State.entering
    by_cases hc' : c' = c
    · rw [hc', hf, frames_running (p := p) (by simp [State.setLoop])]
      show enteringBy (s.kstacks p) = _
      rw [hstack]
      exact hent
    · have hframes : ((s.setState p .running).setLoop c (.running p)).frames c' = s.frames c' :=
        frames_congr s (by simp [State.setLoop, State.setState, State.setProc,
          update_of_ne hc']) (fun _ _ => rfl) rfl
      rw [hframes]

theorem runLoop (h : Good s) (hf : s.frames c = []) (hs : runLoop s c = .ok s') : Good s' := by
  unfold Sched.runLoop at hs
  split at hs
  · rename_i i hc
    cases hs
    exact h.acquireLoop hf (by rw [hc]; rfl) rfl (fun x => by rw [hc]; simp [Loop.held])
      (by rw [hc]; rfl) (by rw [hc]; rfl) fun _ h => by cases h
  · rename_i i hc
    split at hs
    · cases hs
      refine h.releaseLoop hf (by rw [hc]; rfl) rfl rfl rfl rfl rfl (by rw [hc]; simp [Loop.held])
        (fun x => by rw [hc]; simp [Loop.held]) (fun _ => rfl) fun hent place l hR =>
          ⟨place, l, hR.look hent rfl rfl rfl (by rw [hc]; rfl) (by rw [hc]; rfl)
            fun _ _ h => by cases h⟩
    · split at hs
      · cases hs
      · rename_i p hp
        cases hs
        refine h.reloop hf (by rw [hc]; rfl) rfl rfl rfl rfl (fun x => ?_) (fun _ _ _ => Iff.rfl)
          (fun _ => rfl) fun hent place l hR => ⟨place, l, hR.look hent rfl rfl rfl
            (by rw [hc]; rfl) (by rw [hc]; rfl) fun j q hx => ?_⟩
        · show s.locks x = some c ↔ _
          rw [h.control.lock, Control.held_of_nil hf, hc]
          rfl
        · cases hx
          exact hp
  · rename_i i p hc
    cases hs
    exact h.acquireLoop hf (by rw [hc]; rfl) rfl (fun x => by rw [hc]; simp [Loop.held])
      (by rw [hc]; rfl) (by rw [hc]; rfl) fun x hx => by rw [hc]; exact hx
  · rename_i i p hc
    cases hs
    refine h.releaseLoop hf (by rw [hc]; rfl) rfl rfl rfl rfl rfl (by rw [hc]; simp [Loop.held])
      (fun x => ?_) (fun x => ?_) fun hent place l hR => ?_
    · rw [hc]
      simp only [Loop.held, mem_cons, not_mem_nil, or_false]
      constructor
      · rintro rfl
        exact ⟨.inr rfl, by simp⟩
      · rintro ⟨hx | hx, hne⟩
        · exact absurd hx hne
        · exact hx
    · by_cases hx : x = p
      · simp [State.setLock, State.setLoop, State.unlink, State.setProc, hx]
      · simp [State.setLock, State.setLoop, State.unlink, State.setProc, update_of_ne hx]
    · have hown : s.locks (.queue i) = some c :=
        h.control.loop_lock (by rw [hc]; simp [Loop.held])
      have hother : ∀ c', c' ≠ c → ∀ q, (s.loops c').probes ≠ some (i, q) := by
        intro c' hne q hq
        have := h.control.loop_lock (held_of_probes hq)
        rw [hown, Option.some.injEq] at this
        exact hne this.symm
      obtain ⟨l₁, hR'⟩ := hR.take hc hother hent rfl rfl rfl
      exact ⟨_, _, hR'⟩
  · rename_i i p hc
    cases hs
    obtain ⟨qs, hqs⟩ : ∃ qs, s.fixTail i = { s with queues := qs } := by
      unfold State.fixTail
      split
      · exact ⟨_, rfl⟩
      · exact ⟨s.queues, rfl⟩
    rw [hqs]
    exact h.releaseLoop hf (by rw [hc]; rfl) rfl rfl rfl rfl rfl
      (by rw [hc]; simp [Loop.held]) (fun x => by rw [hc]; simp [Loop.held]) (fun x => rfl)
      fun hent place l hR => ⟨place, l, hR.fixTail hc hent rfl rfl (by rw [hqs]; rfl)⟩
  · rename_i p hc
    cases hs
    exact h.acquireLoop hf (by rw [hc]; rfl) rfl (fun x => by rw [hc]; simp [Loop.held])
      (by rw [hc]; rfl) (by rw [hc]; rfl) fun x hx => by cases hx
  · rename_i p hc
    exact h.pickLoop hf hc hs
  · rename_i p hc
    cases hs
    refine h.releaseLoop (l := .proc p) hf (by rw [hc]; rfl) rfl rfl rfl rfl rfl
      (by rw [hc]; simp [Loop.held]) (fun x => by rw [hc]; simp [Loop.held]) (fun _ => rfl)
      fun hent place l hR => ⟨place, l, hR.look hent rfl rfl rfl (by rw [hc]; rfl) (by rw [hc]; rfl)
        fun _ _ h => by cases h⟩
  · cases hs
    exact h

/-! ## Kernel code -/

section

variable (h : Good s) (hf : s.frames c = f :: fs)

include h hf

theorem free_below (hent : f.entering = none) : ∀ x ∈ fs, x.held = [] :=
  (hf ▸ h.control.tidy c).tail hent

theorem acquireProc (hheld : f.held = []) (hg : g.held = [.proc q]) (hme : g.me = f.me)
    (hm : g.makes = f.makes) (hgent : g.entering = none) :
    Good (s.acquire c (.proc q) (g :: fs)) := by
  have hent : f.entering = none := entering_of_free hheld
  have hy : f.yields = none := by cases f <;> first | rfl | cases hheld
  exact h.acquire hf (fun x => by rw [hg, hheld]; simp) (tidy_cons hgent (h.free_below hf hent)) hme hm
    (fun p hp => by rw [hy] at hp; cases hp) (hgent.trans hent.symm)

theorem goto (fs₁ : List Frame) (hent : f.entering = none) (hy : f.yields = none)
    (hheld : heldBy (fs₁ ++ fs) = f.held) (htidy : Tidy (s.loops c).proc (fs₁ ++ fs))
    (hme : ∀ x ∈ fs₁, ∀ q, x.me = some q → f.me = some q)
    (hm : (makesOf (fs₁ ++ fs)).Sublist (makesOf (f :: fs))) (hent' : enteringBy (fs₁ ++ fs) = none)
    (hs₁ : s₁ = { s with procs := s₁.procs }) (hview : ∀ x, (s₁.procs x).view = (s.procs x).view) :
    Good (s₁.setFrames c (fs₁ ++ fs)) := by
  refine h.keep hf (goes_setFrames ?_ ?_ ?_) ?_ ?_ (fun x => ?_) hheld htidy (fun x hx => ?_) hm
    (fun p hp => by rw [hy] at hp; cases hp) (hent'.trans hent.symm)
  · rw [hs₁]
  · rw [hs₁]
  · rw [hs₁]
  · rw [setFrames_locks, hs₁]
  · rw [setFrames_queues, hs₁]
  · rw [setFrames_procs]
    exact hview x
  · rcases mem_append.1 hx with hx | hx
    · exact .inr (hme x hx)
    · exact .inl (mem_below hf hx)

theorem toRelease (rest : List Frame) (hheld : f.held = [.proc q]) (hent : f.entering = none)
    (hy : f.yields = none) (hrest : ∀ x ∈ rest, x.held = [] ∧ ∀ q, x.me = some q → f.me = some q)
    (hm : (makesOf (rest ++ fs)).Sublist (makesOf (f :: fs)))
    (hs₁ : s₁ = { s with procs := s₁.procs }) (hview : ∀ x, (s₁.procs x).view = (s.procs x).view) :
    Good (s₁.setFrames c (.release q :: (rest ++ fs))) := by
  refine h.goto hf (.release q :: rest) hent hy hheld.symm (tidy_cons rfl fun x hx => ?_)
    (fun x hx => ?_) hm rfl hs₁ hview
  · rcases mem_append.1 hx with hx | hx
    · exact (hrest x hx).1
    · exact h.free_below hf hent x hx
  · rcases mem_cons.1 hx with rfl | hx
    · exact nofun
    · exact (hrest x hx).2

theorem stroll (rest : List Frame) (hheld : f.held = [])
    (hrest : ∀ x ∈ rest, x.held = [] ∧ ∀ q, x.me = some q → f.me = some q)
    (hm : (makesOf (rest ++ fs)).Sublist (makesOf (f :: fs))) :
    Good (s.setFrames c (rest ++ fs)) := by
  have hent : f.entering = none := entering_of_free hheld
  have hy : f.yields = none := by cases f <;> first | rfl | cases hheld
  have hfree : ∀ x ∈ rest ++ fs, x.held = [] := by
    intro x hx
    rcases mem_append.1 hx with hx | hx
    · exact (hrest x hx).1
    · exact h.free_below hf hent x hx
  refine h.goto hf rest hent hy (by rw [hheld, heldBy_of_free hfree]) (tidy_of_free hfree)
    (fun x hx => (hrest x hx).2) hm ?_ rfl fun _ => rfl
  cases hfs : rest ++ fs with
  | nil => rfl
  | cons g gs =>
    exact entering_of_free (hfree g (by rw [hfs]; exact mem_cons_self ..))

end

theorem wakeSleeper (h : Good s) (hf : s.frames c = f :: fs) (rest : List Frame)
    (hq : (s.procs q).state = .sleeping) (hheld : f.held = [.proc q]) (hent : f.entering = none)
    (hy : f.yields = none) (hrest : ∀ x ∈ rest, x.held = [] ∧ ∀ q, x.me = some q → f.me = some q)
    (hm : (makesOf (rest ++ fs)).Sublist (makesOf (f :: fs)))
    (hs₁ : s₁ = { s with procs := s₁.procs }) (hview : ∀ x, (s₁.procs x).view = (s.procs x).view)
    (hothers : ∀ x, x ≠ q → s₁.procs x = s.procs x) : Good ((s₁.setState q .runnable).setFrames c
      (.enqueue front q (s.procs q).priority :: .release q :: (rest ++ fs))) := by
  obtain ⟨place, l, hR⟩ := h.ready
  have hoff := h.life.off (p := q) (by rw [hq]; decide) (by rw [hq]; decide)
  have hv := view_eq (hview q)
  refine h.wake hf (goes_setFrames ?_ ?_ ?_) (by rw [hs₁]) (by rw [hs₁]) hothers hv.2.1 (hR.range q)
    (hv.2.2.trans (hR.next_eq_none (by rw [hq]; decide))) (by rw [hq]; decide)
    (h.life.saved q hoff (.inl hq)) (fun s' hg => ?_) hheld hent hy (fun x hx => ?_) fun x hx => ?_
  · rw [hs₁]
    rfl
  · rw [hs₁]
    rfl
  · rw [hs₁]
    rfl
  · exact h.life.makes.setState (by rw [hq]; decide) (makes_sublist hg (by rw [hf]; exact hm))
  · rcases mem_append.1 hx with hx | hx
    · exact (hrest x hx).1
    · exact h.free_below hf hent x hx
  · rcases mem_append.1 hx with hx | hx
    · exact .inr (hrest x hx).2
    · exact .inl (mem_below hf hx)

theorem wakeChild (h : Good s) (hf : s.frames c = .forkReady p q :: fs) :
    Good ((s.setState q .runnable).setFrames c
      (.enqueue false q (s.procs q).priority :: .release q :: fs)) := by
  obtain ⟨place, l, hR⟩ := h.ready
  obtain ⟨p', hp'⟩ := running_of_makes h.control (mem_top hf) rfl
  have hq : (s.procs q).state = .used := h.life.makes.made p' q (by
    rw [← frames_running hp', hf]
    exact mem_cons_self ..)
  have hoff := h.life.off (p := q) (by rw [hq]; decide) (by rw [hq]; decide)
  exact h.wake hf (goes_setFrames rfl rfl rfl) rfl rfl (fun _ _ => rfl) rfl (hR.range q)
    (hR.next_eq_none (by rw [hq]; decide)) (by rw [hq]; decide)
    (h.life.saved q hoff (.inr (.inr hq)))
    (fun s' hg => makes_finish h.control h.life hf rfl hg rfl) rfl rfl rfl (h.free_below hf rfl)
    fun x hx => .inl (mem_below hf hx)

end Good

end Xv6.Sched
