/-
Which locks a CPU holds where its code is, and what the kernel stacks look like: below the
frame that runs, no frame holds a lock, except the caller of `enqueue_at_tail` or
`enqueue_at_head`.
-/
import Xv6.Sched.Basic

namespace Xv6.Sched

open Function State List

def Frame.entering : Frame → Option (Nat × Nat)
  | .enqueue _ p i | .insert _ p i => some (p, i)
  | _ => none

def Frame.me : Frame → Option Nat
  | .yield p | .yieldHeld p | .yieldQueued p | .sleep p _ | .sleepHeld p _ | .sleepResumed p
  | .exit p | .exitHeld p | .exited p | .fork p _ | .forkLink p _ | .forkReady p _ => some p
  | .allocproc me _ | .allocprocHeld me _ => me
  | _ => none

def heldBy : List Frame → List Lock
  | f :: _ => f.held
  | [] => []

def enteringBy : List Frame → Option (Nat × Nat)
  | f :: _ => f.entering
  | [] => none

def Tidy (me : Option Nat) : List Frame → Prop
  | [] => True
  | f :: fs =>
    match f.entering with
    | none => ∀ g ∈ fs, g.held = []
    | some (p, _) => ∃ g rest, fs = g :: rest ∧ (∀ x ∈ rest, x.held = []) ∧
        (me = some p ∧ g = .yieldQueued p ∨ me ≠ some p ∧ g = .release p)

section

variable {me : Option Nat} {f : Frame} {fs : List Frame}

theorem tidy_cons (hf : f.entering = none)
    (hfs : ∀ g ∈ fs, g.held = []) : Tidy me (f :: fs) := by
  simp only [Tidy, hf]
  exact hfs

theorem Tidy.tail (h : Tidy me (f :: fs))
    (hf : f.entering = none) : ∀ g ∈ fs, g.held = [] := by
  simp only [Tidy, hf] at h
  exact h

theorem entering_of_free (h : f.held = []) : f.entering = none := by
  cases f <;> first | rfl | cases h

theorem tidy_of_free (h : ∀ g ∈ fs, g.held = []) :
    Tidy me fs := by
  cases fs with
  | nil => trivial
  | cons f fs =>
    refine tidy_cons ?_ fun g hg => h g (mem_cons_of_mem _ hg)
    exact entering_of_free (h f (mem_cons_self ..))

theorem heldBy_of_free (h : ∀ g ∈ fs, g.held = []) : heldBy fs = [] := by
  cases fs with
  | nil => rfl
  | cons f fs => exact h f (mem_cons_self ..)

end

section

variable {locks : Lock → Option Nat} {l : Lock} {c : Nat} {held held' : List Lock}
  (h : ∀ x, locks x = some c ↔ x ∈ held)

include h

theorem locks_take (hfree : locks l = none) (hheld : ∀ x, x ∈ held' ↔ x = l ∨ x ∈ held) :
    (∀ x, update locks l (some c) x = some c ↔ x ∈ held') ∧
      ∀ x c', c' ≠ c → (update locks l (some c) x = some c' ↔ locks x = some c') := by
  refine ⟨fun x => ?_, fun x c' hc => ?_⟩ <;> by_cases hx : x = l
  · simp [hheld, hx]
  · simp [hheld, hx, h]
  · simp [hx, hfree, hc.symm]
  · rw [update_of_ne hx]

theorem locks_drop (hl : l ∈ held) (hheld : ∀ x, x ∈ held' ↔ x ∈ held ∧ x ≠ l) :
    (∀ x, update locks l none x = some c ↔ x ∈ held') ∧
      ∀ x c', c' ≠ c → (update locks l none x = some c' ↔ locks x = some c') := by
  refine ⟨fun x => ?_, fun x c' hc => ?_⟩ <;> by_cases hx : x = l
  · simp [hheld, hx]
  · simp [hheld, hx, h]
  · simp [hx, (h l).2 hl, hc.symm]
  · rw [update_of_ne hx]

end

namespace State

variable (s : State)

def Apart : Prop := ∀ c c' p, s.loops c = .running p → s.loops c' = .running p → c = c'

section

variable (c : Nat) (fs : List Frame)

include c fs

@[simp] theorem setFrames_procs : (s.setFrames c fs).procs = s.procs := by
  unfold setFrames
  split <;> rfl

@[simp] theorem setFrames_queues : (s.setFrames c fs).queues = s.queues := by
  unfold setFrames
  split <;> rfl

@[simp] theorem setFrames_locks : (s.setFrames c fs).locks = s.locks := by
  unfold setFrames
  split <;> rfl

@[simp] theorem setFrames_loops : (s.setFrames c fs).loops = s.loops := by
  unfold setFrames
  split <;> rfl

theorem setFrames_kstacks (p : Nat) :
    (s.setFrames c fs).kstacks p = if s.loops c = .running p then fs else s.kstacks p := by
  unfold setFrames
  split
  · rename_i q hq
    rw [hq]
    by_cases hp : p = q
    · simp [hp]
    · have : ¬ q = p := fun he => hp he.symm
      simp [update_of_ne hp, this]
  · rename_i hq
    rw [if_neg (hq p)]

theorem setFrames_intrs (c' : Nat) : (s.setFrames c fs).intrs c' =
      if c' = c ∧ (s.loops c).proc = none then fs else s.intrs c' := by
  unfold setFrames
  split
  · rename_i q hq
    simp [hq, Loop.proc]
  · rename_i hq
    have : (s.loops c).proc = none := by
      cases hℓ : s.loops c with
      | running p => exact absurd hℓ (hq p)
      | _ => rfl
    by_cases hc : c' = c
    · simp [hc, this]
    · simp [hc]

end

theorem frames_congr {s' : State} {c : Nat} (hloop : s'.loops c = s.loops c)
    (hstack : ∀ p, s.loops c = .running p → s'.kstacks p = s.kstacks p)
    (hintr : s'.intrs c = s.intrs c) : s'.frames c = s.frames c := by
  unfold frames
  rw [hloop]
  split
  · exact hstack _ ‹_›
  · exact hintr

theorem frames_setFrames_self (c : Nat) (fs : List Frame) :
    (s.setFrames c fs).frames c = fs := by
  unfold frames
  cases hℓ : s.loops c with
  | running p => simp [setFrames_kstacks, hℓ]
  | _ => simp [setFrames_intrs, hℓ, Loop.proc]

theorem frames_setFrames_of_ne {s : State} (h : s.Apart) {c c' : Nat} (hne : c' ≠ c)
    (fs : List Frame) : (s.setFrames c fs).frames c' = s.frames c' := by
  refine frames_congr s (by rw [setFrames_loops]) (fun p hp => ?_) ?_
  · rw [setFrames_kstacks, if_neg fun he => hne (h c' c p hp he)]
  · rw [setFrames_intrs, if_neg fun he => hne he.1]

section

variable {s : State} {c p : Nat} {f : Frame} {fs : List Frame}

theorem mem_top (hf : s.frames c = f :: fs) : f ∈ s.frames c := by
  rw [hf]
  exact mem_cons_self ..

theorem mem_below (hf : s.frames c = f :: fs) {x : Frame} (hx : x ∈ fs) : x ∈ s.frames c := by
  rw [hf]
  exact mem_cons_of_mem _ hx

theorem frames_running (h : s.loops c = .running p) :
    s.frames c = s.kstacks p := by
  unfold frames
  rw [h]

theorem frames_of_proc (h : (s.loops c).proc = none) :
    s.frames c = s.intrs c := by
  unfold frames
  split
  · rename_i hp
    rw [hp] at h
    cases h
  · rfl

theorem proc_eq_some :
    (s.loops c).proc = some p ↔ s.loops c = .running p := by
  cases s.loops c <;> simp [Loop.proc]

end

end State

/-- Only CPU `c` moves, within the code it executes, and goes on with `fs`. -/
structure Goes (s : State) (c : Nat) (fs : List Frame) (s' : State) : Prop where
  loops : s'.loops = s.loops
  kstacks : ∀ p, s'.kstacks p = (s.setFrames c fs).kstacks p
  intrs : s'.intrs = (s.setFrames c fs).intrs

section

variable {s s' s₁ : State} {c : Nat} {fs : List Frame}

theorem goes_setFrames (hloops : s₁.loops = s.loops)
    (hstacks : s₁.kstacks = s.kstacks) (hintrs : s₁.intrs = s.intrs) :
    Goes s c fs (s₁.setFrames c fs) := by
  refine ⟨?_, fun p => ?_, ?_⟩
  · rw [setFrames_loops, hloops]
  · rw [setFrames_kstacks, setFrames_kstacks, hloops, hstacks]
  · funext c'
    rw [setFrames_intrs, setFrames_intrs, hloops, hintrs]

theorem Goes.frames (h : Goes s c fs s') (c' : Nat) :
    s'.frames c' = (s.setFrames c fs).frames c' :=
  frames_congr _ (by rw [h.loops, setFrames_loops]) (fun p _ => h.kstacks p)
    (by rw [h.intrs])

theorem Goes.kstacks_cases (h : Goes s c fs s')
    (p : Nat) : s.loops c = .running p ∧ s'.kstacks p = fs ∨
      s.loops c ≠ .running p ∧ s'.kstacks p = s.kstacks p := by
  rw [h.kstacks, setFrames_kstacks]
  by_cases hc : s.loops c = .running p
  · exact .inl ⟨hc, if_pos hc⟩
  · exact .inr ⟨hc, if_neg hc⟩

end

/-- Locks, stacks and loops fit together. -/
structure Control (s : State) : Prop where
  lock : ∀ l c, s.locks l = some c ↔ l ∈ s.held c
  apart : s.Apart
  tidy : ∀ c, Tidy (s.loops c).proc (s.frames c)
  intr : ∀ c p, s.loops c = .running p → s.intrs c = []
  quiet : ∀ c, s.intrs c ≠ [] → (s.loops c).held = []
  mine : ∀ p f, f ∈ s.kstacks p → ∀ q, f.me = some q → q = p
  nobody : ∀ c f, f ∈ s.intrs c → f.me = none

namespace Control

variable {s s' : State} {c : Nat}

theorem held_of_frames {f : Frame} {fs : List Frame} (hf : s.frames c = f :: fs) :
    s.held c = f.held := by
  unfold State.held
  rw [hf]

theorem held_of_nil (hf : s.frames c = []) : s.held c = (s.loops c).held := by
  unfold State.held
  rw [hf]

section

variable (h : Control s)

include h

theorem loop_held (hf : s.frames c ≠ []) : (s.loops c).held = [] := by
  cases hp : (s.loops c).proc with
  | some p =>
    rw [proc_eq_some] at hp
    rw [hp]
    rfl
  | none =>
    rw [frames_of_proc hp] at hf
    exact h.quiet c hf

theorem lock_of_frames {f : Frame} {fs : List Frame} (hf : s.frames c = f :: fs) (l : Lock) :
    s.locks l = some c ↔ l ∈ f.held := by
  rw [h.lock, held_of_frames hf]

theorem lock_of_nil (hf : s.frames c = []) (l : Lock) :
    s.locks l = some c ↔ l ∈ (s.loops c).held := by
  rw [h.lock, held_of_nil hf]

theorem loop_lock {l : Lock} (hl : l ∈ (s.loops c).held) : s.locks l = some c := by
  rw [h.lock]
  cases hf : s.frames c with
  | nil => rwa [held_of_nil hf]
  | cons f fs =>
    rw [h.loop_held (by simp [hf])] at hl
    cases hl

theorem step (hloop : ∀ c', c' ≠ c → s'.loops c' = s.loops c')
    (hframes : ∀ c', c' ≠ c → s'.frames c' = s.frames c')
    (hintrs : ∀ c', c' ≠ c → s'.intrs c' = s.intrs c')
    (hlock : ∀ l, s'.locks l = some c ↔ l ∈ s'.held c)
    (hothers : ∀ l c', c' ≠ c → (s'.locks l = some c' ↔ s.locks l = some c'))
    (hrun : ∀ p, s'.loops c = .running p → s'.intrs c = [] ∧ ∀ c', c' ≠ c → s.loops c' ≠ .running p)
    (htidy : Tidy (s'.loops c).proc (s'.frames c))
    (hquiet : s'.intrs c ≠ [] → (s'.loops c).held = [])
    (hmine : ∀ p f, f ∈ s'.kstacks p → ∀ q, f.me = some q → q = p)
    (hnobody : ∀ f ∈ s'.intrs c, f.me = none) : Control s' := by
  refine ⟨fun l c' => ?_, fun c₁ c₂ p h₁ h₂ => ?_, fun c' => ?_, fun c' p hp => ?_, fun c' hi => ?_,
    hmine, fun c' f hf => ?_⟩
  · by_cases hc : c' = c
    · rw [hc]
      exact hlock l
    · rw [hothers l c' hc, h.lock]
      unfold State.held
      rw [hframes c' hc, hloop c' hc]
  · by_cases hc₁ : c₁ = c
    · by_cases hc₂ : c₂ = c
      · rw [hc₁, hc₂]
      · exact absurd (hloop c₂ hc₂ ▸ h₂) ((hrun p (hc₁ ▸ h₁)).2 c₂ hc₂)
    · by_cases hc₂ : c₂ = c
      · exact absurd (hloop c₁ hc₁ ▸ h₁) ((hrun p (hc₂ ▸ h₂)).2 c₁ hc₁)
      · exact h.apart c₁ c₂ p (hloop c₁ hc₁ ▸ h₁) (hloop c₂ hc₂ ▸ h₂)
  · by_cases hc : c' = c
    · rw [hc]
      exact htidy
    · rw [hframes c' hc, hloop c' hc]
      exact h.tidy c'
  · by_cases hc : c' = c
    · exact hc ▸ (hrun p (hc ▸ hp)).1
    · rw [hintrs c' hc]
      exact h.intr c' p (hloop c' hc ▸ hp)
  · by_cases hc : c' = c
    · exact hc ▸ hquiet (hc ▸ hi)
    · rw [hloop c' hc]
      exact h.quiet c' (hintrs c' hc ▸ hi)
  · by_cases hc : c' = c
    · exact hnobody f (hc ▸ hf)
    · exact h.nobody c' f (hintrs c' hc ▸ hf)

theorem replace {fs : List Frame} (hg : Goes s c fs s') (hquiet : (s.loops c).held = [])
    (hlock : ∀ l, s'.locks l = some c ↔ l ∈ heldBy fs)
    (hothers : ∀ l c', c' ≠ c → (s'.locks l = some c' ↔ s.locks l = some c'))
    (htidy : Tidy (s.loops c).proc fs)
    (hme : ∀ f ∈ fs, ∀ q, f.me = some q → (s.loops c).proc = some q) : Control s' := by
  have hloops := hg.loops
  have hself : s'.frames c = fs := (hg.frames c).trans (s.frames_setFrames_self c fs)
  refine h.step (fun c' _ => by rw [hloops])
    (fun c' hc => (hg.frames c').trans (frames_setFrames_of_ne h.apart hc fs))
    (fun c' hc => by rw [hg.intrs, setFrames_intrs, if_neg fun he => hc he.1]) (fun l => ?_) hothers
    (fun p hp => ⟨?_, fun c' hc hp' => ?_⟩) (by rwa [hloops, hself]) (fun _ => by rwa [hloops])
    (fun p f hf q hq => ?_) fun f hf => ?_
  · rw [hlock]
    cases fs with
    | nil => rw [held_of_nil hself, hloops, hquiet]; rfl
    | cons f fs => rw [held_of_frames hself]; rfl
  · rw [hloops] at hp
    rw [hg.intrs, setFrames_intrs, if_neg fun he => ?_]
    · exact h.intr c p hp
    · rw [hp] at he
      cases he.2
  · exact hc (h.apart c' c p hp' (hloops ▸ hp))
  · rcases hg.kstacks_cases p with ⟨hp, hst⟩ | ⟨-, hst⟩
    · have := hme f (hst ▸ hf) q hq
      rw [hp] at this
      exact (Option.some.inj this).symm
    · exact h.mine p f (hst ▸ hf) q hq
  · rw [hg.intrs, setFrames_intrs] at hf
    split at hf
    · rename_i hc
      refine Option.eq_none_iff_forall_ne_some.2 fun q hm => ?_
      have := hme f hf q hm
      rw [hc.2] at this
      cases this
    · exact h.nobody c f hf

end

variable {f : Frame} {fs fs' : List Frame}

theorem me_of_frames (h : Control s) (hf : f ∈ s.frames c) {q : Nat} (hq : f.me = some q) :
    (s.loops c).proc = some q := by
  cases hp : (s.loops c).proc with
  | none =>
    rw [frames_of_proc hp] at hf
    cases (h.nobody c f hf).symm.trans hq
  | some p =>
    rw [proc_eq_some] at hp
    rw [frames_running hp] at hf
    rw [h.mine p f hf q hq]

section

variable (h : Control s) (hf : s.frames c = f :: fs)

include h hf

theorem keep (hg : Goes s c fs' s') (hlocks : s'.locks = s.locks) (hheld : heldBy fs' = f.held)
    (htidy : Tidy (s.loops c).proc fs')
    (hme : ∀ g ∈ fs', g ∈ s.frames c ∨ ∀ q, g.me = some q → f.me = some q) : Control s' := by
  refine h.replace hg (h.loop_held (by simp [hf])) (fun l => ?_)
    (fun l c' _ => by rw [hlocks]) htidy fun g hg q hq => ?_
  · rw [hlocks, hheld, h.lock, held_of_frames hf]
  · rcases hme g hg with hold | hnew
    · exact h.me_of_frames hold hq
    · exact h.me_of_frames (mem_top hf) (hnew q hq)

theorem acquire {l : Lock} {g : Frame} (hfree : s.locks l = none)
    (hheld : ∀ x, x ∈ g.held ↔ x = l ∨ x ∈ f.held) (htidy : Tidy (s.loops c).proc (g :: fs))
    (hme : g.me = f.me) : Control ((s.setLock l (some c)).setFrames c (g :: fs)) := by
  obtain ⟨hlock, hothers⟩ := locks_take (h.lock_of_frames hf) hfree hheld
  refine h.replace (goes_setFrames rfl rfl rfl) (h.loop_held (by simp [hf]))
    (by rw [setFrames_locks]; exact hlock) (by rw [setFrames_locks]; exact hothers) htidy
    fun g' hg' q hq => ?_
  rcases mem_cons.1 hg' with rfl | hold
  · exact h.me_of_frames (mem_top hf) (hme ▸ hq)
  · exact h.me_of_frames (mem_below hf hold) hq

theorem release {l : Lock} (hg : Goes s c fs s') (hlocks : s'.locks = update s.locks l none)
    (hl : l ∈ f.held) (hheld : ∀ x, x ∈ heldBy fs ↔ x ∈ f.held ∧ x ≠ l)
    (htidy : Tidy (s.loops c).proc fs) : Control s' := by
  obtain ⟨hlock, hothers⟩ := locks_drop (h.lock_of_frames hf) hl hheld
  exact h.replace hg (h.loop_held (by simp [hf])) (hlocks ▸ hlock) (hlocks ▸ hothers) htidy
    fun x hx q hq => h.me_of_frames (mem_below hf hx) hq

end

theorem reloop (h : Control s) {ℓ : Loop} (hf : s.frames c = [])
    (hproc : (s.loops c).proc = none) (hproc' : ℓ.proc = none)
    (hloops : s'.loops = update s.loops c ℓ) (hstacks : s'.kstacks = s.kstacks)
    (hintrs : s'.intrs = s.intrs) (hlock : ∀ l, s'.locks l = some c ↔ l ∈ ℓ.held)
    (hothers : ∀ l c', c' ≠ c → (s'.locks l = some c' ↔ s.locks l = some c')) : Control s' := by
  have hintr : s'.intrs c = [] := by
    rw [hintrs, ← frames_of_proc hproc, hf]
  have hself : s'.loops c = ℓ := by rw [hloops, update_self]
  have hne : ∀ c', c' ≠ c → s'.loops c' = s.loops c' := fun c' hc => by
    rw [hloops, update_of_ne hc]
  have hfself : s'.frames c = [] := by rw [frames_of_proc (by rw [hself]; exact hproc'), hintr]
  refine h.step hne
    (fun c' hc => frames_congr _ (hne c' hc) (fun p _ => by rw [hstacks]) (by rw [hintrs]))
    (fun _ _ => by rw [hintrs]) (fun l => by rw [hlock, held_of_nil hfself, hself]) hothers
    (fun p hp => ?_) (by rw [hfself]; trivial) (absurd hintr) (hstacks ▸ h.mine)
    (hintrs ▸ h.nobody c)
  rw [hself] at hp
  rw [hp] at hproc'
  cases hproc'

variable {p : Nat}

theorem restack (h : Control s) (hoff : ∀ c, s.loops c ≠ .running p) (hloops : s'.loops = s.loops)
    (hstacks : s'.kstacks = update s.kstacks p fs) (hintrs : s'.intrs = s.intrs)
    (hlocks : s'.locks = s.locks) (hme : ∀ f ∈ fs, ∀ q, f.me = some q → q = p) : Control s' := by
  have hframes : ∀ c, s'.frames c = s.frames c := fun c =>
    frames_congr _ (by rw [hloops]) (fun q hq => by
      rw [hstacks, update_of_ne]
      rintro rfl
      exact hoff c hq) (by rw [hintrs])
  refine ⟨fun l c => ?_, ?_, fun c => ?_, ?_, ?_, fun x f hf q hq => ?_, ?_⟩
  · rw [hlocks, h.lock]
    unfold State.held
    rw [hframes, hloops]
  · intro c c' q
    rw [hloops]
    exact h.apart c c' q
  · rw [hframes, hloops]
    exact h.tidy c
  · rw [hloops, hintrs]
    exact h.intr
  · rw [hloops, hintrs]
    exact h.quiet
  · rw [hstacks] at hf
    by_cases hx : x = p
    · rw [hx, update_self] at hf
      rw [hx]
      exact hme f hf q hq
    · rw [update_of_ne hx] at hf
      exact h.mine x f hf q hq
  · rw [hintrs]
    exact h.nobody

theorem sched (h : Control s) (hc : s.loops c = .running p) (hf : s.frames c = f :: fs)
    (hheld : f.held = [.proc p]) (hloops : s'.loops = update s.loops c (.back p))
    (hstacks : s'.kstacks = update s.kstacks p fs') (hintrs : s'.intrs = s.intrs)
    (hlocks : s'.locks = s.locks) (hme : ∀ g ∈ fs', g ∈ f :: fs ∨ g.me = none ∨ g.me = some p) :
    Control s' := by
  have hself : s'.loops c = .back p := by rw [hloops, update_self]
  have hne : ∀ c', c' ≠ c → s'.loops c' = s.loops c' := fun c' hc => by
    rw [hloops, update_of_ne hc]
  have hintr : s'.intrs c = [] := by
    rw [hintrs]
    exact h.intr c p hc
  have hfself : s'.frames c = [] := by rw [frames_of_proc (by rw [hself]; rfl), hintr]
  refine h.step hne (fun c' hne' => frames_congr _ (hne c' hne') (fun q hq => ?_) (by rw [hintrs]))
    (fun _ _ => by rw [hintrs]) (fun l => ?_) (fun _ _ _ => by rw [hlocks])
    (fun q hq => nomatch hself.symm.trans hq) (by rw [hfself]; trivial) (absurd hintr)
    (fun x g hg q hq => ?_) (hintrs ▸ h.nobody c)
  · rw [hstacks, update_of_ne]
    rintro rfl
    exact hne' (h.apart c' c q hq hc)
  · rw [hlocks, h.lock, held_of_nil hfself, held_of_frames hf, hself, hheld]
    rfl
  · rw [hstacks] at hg
    by_cases hx : x = p
    · rw [hx, update_self] at hg
      rw [hx]
      rcases hme g hg with hold | hnone | hsome
      · exact h.mine p g (by rw [← frames_running hc, hf]; exact hold) q hq
      · cases hnone.symm.trans hq
      · exact (Option.some.inj (hsome.symm.trans hq)).symm
    · rw [update_of_ne hx] at hg
      exact h.mine x g hg q hq

theorem pick (h : Control s) (hc : s.loops c = .pick p) (hf : s.frames c = [])
    (hoff : ∀ c', s.loops c' ≠ .running p) (hstack : s.kstacks p = f :: fs)
    (hheld : f.held = [.proc p]) (hfree : f.entering = none) (hfs : ∀ g ∈ fs, g.held = [])
    (hloops : s'.loops = update s.loops c (.running p)) (hstacks : s'.kstacks = s.kstacks)
    (hintrs : s'.intrs = s.intrs) (hlocks : s'.locks = s.locks) : Control s' := by
  have hintr : s'.intrs c = [] := by
    rw [hintrs, ← frames_of_proc (s := s) (by rw [hc]; rfl), hf]
  have hself : s'.loops c = .running p := by rw [hloops, update_self]
  have hne : ∀ c', c' ≠ c → s'.loops c' = s.loops c' := fun c' hc => by
    rw [hloops, update_of_ne hc]
  have hfself : s'.frames c = f :: fs := by
    rw [frames_running hself, hstacks, hstack]
  refine h.step hne
    (fun c' hc' => frames_congr _ (hne c' hc') (fun q _ => by rw [hstacks]) (by rw [hintrs]))
    (fun _ _ => by rw [hintrs]) (fun l => ?_) (fun _ _ _ => by rw [hlocks]) (fun q hq => ?_)
    (by rw [hfself]; exact tidy_cons hfree hfs) (absurd hintr) (hstacks ▸ h.mine)
    (hintrs ▸ h.nobody c)
  · rw [hlocks, h.lock, held_of_nil hf, held_of_frames hfself, hc, hheld]
    rfl
  · cases hself.symm.trans hq
    exact ⟨hintr, fun c' _ => hoff c'⟩

theorem call (h : Control s) {g : Frame} (hidle : s.held c = []) (hg : g.held = [])
    (hme : ∀ q, g.me = some q → (s.loops c).proc = some q)
    (hlocks : s'.locks = s.locks) (hgo : Goes s c (g :: s.frames c) s') : Control s' := by
  have hfree : ∀ x ∈ s.frames c, x.held = [] := by
    intro x hx
    cases hf : s.frames c with
    | nil =>
      rw [hf] at hx
      cases hx
    | cons f fs =>
      rw [held_of_frames hf] at hidle
      have htidy := h.tidy c
      rw [hf] at hx htidy
      rcases mem_cons.1 hx with rfl | hx
      · exact hidle
      · exact htidy.tail (entering_of_free hidle) x hx
  have hquiet : (s.loops c).held = [] := by
    cases hf : s.frames c with
    | nil => rwa [held_of_nil hf] at hidle
    | cons f fs => exact h.loop_held (by simp [hf])
  refine h.replace hgo hquiet (fun l => ?_) (fun l c' _ => by rw [hlocks]) ?_
    fun x hx q hq => ?_
  · rw [hlocks, h.lock, hidle]
    show l ∈ [] ↔ l ∈ g.held
    rw [hg]
  · refine tidy_of_free fun x hx => ?_
    rcases mem_cons.1 hx with rfl | hx
    · exact hg
    · exact hfree x hx
  · rcases mem_cons.1 hx with rfl | hx
    · exact hme q hq
    · exact h.me_of_frames hx hq

end Control

end Xv6.Sched
