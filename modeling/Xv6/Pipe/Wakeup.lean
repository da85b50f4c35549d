/-
No lost wakeup in a pipe: while its lock is free, a reader sleeps only if the pipe is empty and
a writer only if it is full.  `pipewrite` wakes the readers when it has stored its last byte or
finds the pipe full, but not when it finds that its process has been killed.
-/
import Xv6.Pipe.Basic

namespace Xv6.Pipe

variable {k : Bool} {c : Chan} {e : Event} {inp : Input} {ℓ : Loc} {t : Nat} {d : Pipe} {s : State}

/-- A process that sleeps on the channel has no reason to sleep any more. -/
def Ready (c : Chan) (pi : Pipe) : Prop :=
  match c with
  | .nread => 0 < (pi.nwrite - pi.nread).toNat ∨ pi.writeopen = false
  | .nwrite => (pi.nwrite - pi.nread).toNat < pipesize ∨ pi.readopen = false

/-- A process that holds the lock here will wake the sleepers of the channel before it lets
go. -/
def Loc.wakes : Loc → Chan → Bool
  | .write _ _ stored, .nread => stored
  | .copy _ _, .nwrite => true
  | _, _ => false

def MayWait (_ : Nat) (ℓ : Loc) (pi : Pipe) (c : Chan) : Prop := ¬ Ready c pi ∨ ℓ.wakes c = true

def Loc.isEntry : Loc → Bool
  | .write _ _ false | .read _ | .close _ => true
  | _ => false

def outline : Monitor.Outline Pipe Loc where
  always := Sound
  free _ := True
  out _ ℓ _ := ∃ ret, ℓ = .idle ret
  wait t ℓ _ := t < nproc ∧ ℓ.isEntry = true
  hold t killed ℓ pi := t < nproc ∧
    match ℓ with
    | .write _ _ true => pi.readopen = true ∧ killed = false
    | .writeFull _ _ => pi.isFull = true ∧ pi.readopen = true
    | _ => True

variable {pi : Pipe}

theorem Sound.not_full_ready (hfull : pi.isFull = false) (h : pi.Sound) : Ready .nwrite pi := by
  refine .inl (lt_of_le_of_ne h.bound fun he => ?_)
  rw [isFull_iff.2 he] at hfull
  cases hfull

theorem not_empty_ready (hempty : pi.isEmpty = false) : Ready .nread pi := by
  refine .inl (Nat.pos_of_ne_zero fun he => ?_)
  rw [isEmpty_iff.2 he] at hempty
  cases hempty

theorem pipewrite_cases (pi : Pipe) (killed : Bool) (n : Int) (i : Nat) (inp : Input) :
    (pi.pipewrite killed n i inp = .release pi.writeReturns (.idle (-1)) ∧
        (pi.readopen = false ∨ killed = true)) ∨
      (pi.pipewrite killed n i inp = .wakeup .nread pi (.writeFull n i) ∧ pi.isFull = true ∧
        pi.readopen = true) ∨
      (∃ ch, pi.pipewrite killed n i inp = .goto (pi.store ch) (.write n (i + 1) true) ∧
        pi.isFull = false ∧ pi.readopen = true ∧ killed = false) ∨
      pi.pipewrite killed n i inp = .wakeup .nread pi (.writeDone i) := by
  unfold pipewrite
  split
  · split
    · exact .inl ⟨rfl, ‹_›⟩
    · rename_i hgo
      simp only [not_or, Bool.not_eq_false, Bool.not_eq_true] at hgo
      split
      · exact .inr (.inl ⟨rfl, ‹_›, hgo.1⟩)
      · rename_i hfull
        split
        · exact .inr (.inr (.inl ⟨_, rfl, by simpa using hfull, hgo⟩))
        · exact .inr (.inr (.inr rfl))
  · exact .inr (.inr (.inr rfl))

theorem pipereadCopy_cases (pi : Pipe) (n : Int) (i : Nat) (inp : Input) :
    pi.pipereadCopy n i inp = .wakeup .nwrite pi (.readDone i) ∨
      pi.isEmpty = false ∧ (pi.pipereadCopy n i inp = .goto pi.take (.copy n (i + 1)) ∨
        pi.pipereadCopy n i inp = .wakeup .nwrite pi.take (.readDone i)) := by
  unfold pipereadCopy
  split
  · split
    · exact .inl rfl
    · rename_i hempty
      refine .inr ⟨by simpa using hempty, ?_⟩
      split
      · exact .inl rfl
      · exact .inr rfl
  · exact .inl rfl

theorem piperead_cases (pi : Pipe) (killed : Bool) (n : Int) :
    pi.piperead killed n = .release pi.readReturns (.idle (-1)) ∨
      (pi.piperead killed n = .sleep .nread pi (.read n) ∧ pi.isEmpty = true ∧
        pi.writeopen = true) ∨
      pi.piperead killed n = .goto pi (.copy n 0) := by
  unfold piperead
  split
  · rename_i hwait
    split
    · exact .inl rfl
    · exact .inr (.inl ⟨rfl, hwait⟩)
  · exact .inr (.inr rfl)

theorem outside_cases (pi : Pipe) (t : Nat) (ℓ : Loc) (inp : Input) :
    pi.outside t ℓ inp = .stay ∨ ∃ r w ℓ', t < nproc ∧ ℓ'.isEntry = true ∧
      pi.outside t ℓ inp = .acquire { pi with readEnd := r, writeEnd := w } ℓ' := by
  unfold outside
  split
  · split
    · exact .inr ⟨_, _, _, (‹_ ∧ _› : _ ∧ _).1, rfl, rfl⟩
    · exact .inl rfl
  · split
    · exact .inr ⟨_, _, _, (‹_ ∧ _› : _ ∧ _).1, rfl, rfl⟩
    · exact .inl rfl
  · split
    · exact .inr ⟨_, _, _, (‹_ ∧ _› : _ ∧ _).1, rfl, rfl⟩
    · exact .inl rfl
  · split
    · exact .inr ⟨_, _, _, (‹_ ∧ _› : _ ∧ _).1, rfl, rfl⟩
    · exact .inl rfl
  · exact .inl rfl

theorem spares (t : Nat) (d d' : Pipe) : outline.Spares t d d' := fun _ _ _ => ⟨id, id⟩

theorem outline_valid : outline.Valid client := by
  refine ⟨fun _ _ hw => ?_, fun hs hh ha => ?_, fun hs ho hm => ?_, fun hs => ?_⟩
  · refine ⟨hw.1, ?_⟩
    have hentry := hw.2
    split
    · cases hentry
    · cases hentry
    · trivial
  · rename_i t k ℓ d i a
    cases ha
    refine ⟨hs.inside k ℓ i, ?_, spares _ _ _⟩
    obtain ⟨ht, hh⟩ := hh
    cases ℓ with
    | write n j stored =>
      simp only [inside]
      rcases pipewrite_cases d k n j i with ⟨he, -⟩ | ⟨he, hfull⟩ | ⟨ch, he, -, hopen⟩ | he
      · rw [he]
        exact ⟨trivial, _, rfl⟩
      · rw [he]
        exact ⟨ht, hfull⟩
      · rw [he]
        exact ⟨ht, hopen⟩
      · rw [he]
        exact ⟨ht, trivial⟩
    | read n =>
      simp only [inside]
      rcases piperead_cases d k n with he | ⟨he, -⟩ | he
      · rw [he]
        exact ⟨trivial, _, rfl⟩
      · rw [he]
        exact ⟨trivial, ht, rfl⟩
      · rw [he]
        exact ⟨ht, trivial⟩
    | copy n j =>
      simp only [inside]
      rcases pipereadCopy_cases d n j i with he | ⟨-, he | he⟩
      all_goals
        rw [he]
        exact ⟨ht, trivial⟩
    | close w => cases w <;> exact ⟨ht, trivial⟩
    | writeFull n j => exact ⟨trivial, ht, rfl⟩
    | idle | writeDone | readDone | closeDone => exact ⟨trivial, _, rfl⟩
  · rename_i t k ℓ d i m
    cases hm
    refine ⟨hs.outside t ℓ i, ?_, spares _ _ _, fun _ => trivial, ?_⟩
    · rcases outside_cases d t ℓ i with he | ⟨r, w, ℓ', ht, hentry, he⟩
      · rw [he]
        exact ho
      · rw [he]
        exact ⟨ht, hentry⟩
    · intro q k' ℓ' _ hh
      rcases outside_cases d t ℓ i with he | ⟨r, w, ℓ₁, -, -, he⟩
      · rw [he]
        exact hh
      · rw [he]
        exact hh
  · exact ⟨hs, fun _ => trivial, fun _ _ _ => id⟩

theorem attends_inside (hs : d.Sound) (hh : outline.hold t k ℓ d) (hok : MayWait t ℓ d c) :
    Monitor.OkAfter Ready MayWait t c (d.inside k ℓ inp) := by
  -- at a location that will not wake `c`, a sleeper has something to wait for
  have hwait : ℓ.wakes c = false → ¬ Ready c d := fun hw =>
    hok.resolve_right (by simp [hw])
  cases ℓ with
  | write n i stored =>
    simp only [inside]
    rcases pipewrite_cases d k n i inp with ⟨he, hleave⟩ | ⟨he, -⟩ | ⟨ch, he, hfull, -⟩ | he
    · rw [he]
      refine hwait ?_
      cases c with
      | nwrite => rfl
      | nread =>
        cases stored with
        | false => rfl
        | true =>
          obtain ⟨-, hopen, hk⟩ := hh
          rcases hleave with hclosed | hkilled
          · cases hopen.symm.trans hclosed
          · cases hk.symm.trans hkilled
    · rw [he]
      intro hc
      cases c with
      | nread => exact absurd rfl hc
      | nwrite => exact .inl (hwait rfl)
    · rw [he]
      cases c with
      | nread => exact .inr rfl
      | nwrite => exact absurd (hs.not_full_ready hfull) (hwait rfl)
    · rw [he]
      intro hc
      cases c with
      | nread => exact absurd rfl hc
      | nwrite => exact .inl (hwait rfl)
  | read n =>
    have hnot := hwait (by cases c <;> rfl)
    simp only [inside]
    rcases piperead_cases d k n with he | ⟨he, -⟩ | he
    · rw [he]
      exact hnot
    · rw [he]
      exact hnot
    · rw [he]
      exact .inl hnot
  | copy n i =>
    simp only [inside]
    rcases pipereadCopy_cases d n i inp with he | ⟨hempty, he | he⟩
    · rw [he]
      intro hc
      cases c with
      | nwrite => exact absurd rfl hc
      | nread => exact .inl (hwait rfl)
    · rw [he]
      cases c with
      | nwrite => exact .inr rfl
      | nread => exact absurd (not_empty_ready hempty) (hwait rfl)
    · rw [he]
      intro hc
      cases c with
      | nwrite => exact absurd rfl hc
      | nread => exact absurd (not_empty_ready hempty) (hwait rfl)
  | close w =>
    have hnot := hwait (by cases c <;> rfl)
    cases w with
    | true =>
      intro hc
      cases c with
      | nread => exact absurd rfl hc
      | nwrite => exact .inl hnot
    | false =>
      intro hc
      cases c with
      | nwrite => exact absurd rfl hc
      | nread => exact .inl hnot
  | idle | writeDone | readDone | closeDone | writeFull =>
    have hnot := hwait (by cases c <;> rfl)
    exact hnot

theorem attends_sleep {ℓ' : Loc} {d' : Pipe} (hh : outline.hold t k ℓ d)
    (ha : d.inside k ℓ inp = .sleep c d' ℓ') : t < nproc ∧ ¬ Ready c d' := by
  refine ⟨hh.1, ?_⟩
  cases ℓ with
  | writeFull n i =>
    cases ha
    obtain ⟨-, hfull, hopen⟩ := hh
    have := isFull_iff.1 hfull
    simp [Ready, this, hopen]
  | read n =>
    rcases piperead_cases d k n with he | ⟨he, hempty, hopen⟩ | he
    · cases he.symm.trans ha
    · cases he.symm.trans ha
      have := isEmpty_iff.1 hempty
      simp [Ready, this, hopen]
    · cases he.symm.trans ha
  | write n i stored =>
    rcases pipewrite_cases d k n i inp with ⟨he, -⟩ | ⟨he, -⟩ | ⟨ch, he, -⟩ | he <;>
      cases he.symm.trans ha
  | copy n i =>
    rcases pipereadCopy_cases d n i inp with he | ⟨-, he | he⟩ <;> cases he.symm.trans ha
  | close w => cases w <;> cases ha
  | idle | writeDone | readDone | closeDone => cases ha

theorem attends : Monitor.Attends Ready MayWait client nproc outline := by
  refine ⟨fun _ _ _ hr => .inl hr, fun hs hh ha hok => ?_, fun _ hh ha => ?_, fun hs ho hm => ?_,
    fun _ => ⟨fun _ => id, fun _ _ _ _ _ => id⟩⟩
  · cases ha
    exact attends_inside hs hh hok
  · exact attends_sleep hh (Except.ok.inj ha)
  · rename_i t k ℓ d i m
    cases hm
    rcases outside_cases d t ℓ i with he | ⟨r, w, ℓ', -, -, he⟩
    · rw [he]
      exact ⟨fun _ => id, fun _ _ _ _ _ _ => id⟩
    · rw [he]
      refine ⟨fun c hr => ?_, fun q k ℓ c _ _ hok => ?_⟩
      · rwa [Monitor.Move.data]
      · rwa [Monitor.Move.data]

/-- No process is killed in `pipewrite` between storing a byte and waking the readers.  The test of
`killed`, `copyin` and the store are one step, so a kill between the test and the store counts as
one after the store. -/
def Timely (s : State) : Event → Prop
  | .kill t => ∀ n i, ¬ s.At t (.write n i true)
  | _ => True

theorem outline_step {s' : State} (h : outline.Holds s) (hg : Timely s e) (hs : step s e = .ok s') :
    outline.Holds s' := by
  refine outline_valid.step (Monitor.step_eq_ok hs) h fun t he ℓ hat hh => ?_
  subst he
  refine ⟨hh.1, ?_⟩
  split
  · exact absurd hat (hg _ _)
  · exact hh.2
  · trivial

theorem Start.holds (h : Start s) : outline.Holds s := by
  obtain ⟨data, hdata⟩ := h.data
  refine ⟨hdata ▸ sound_pipealloc data, fun _ => trivial, fun t => ?_, fun t => ?_⟩
  · obtain ⟨ret, hc⟩ := h.ctl t
    rw [hc, h.holder]
    simp [Monitor.Ctl.holds]
  · obtain ⟨ret, hc⟩ := h.ctl t
    rw [hc]
    exact ⟨ret, rfl⟩

theorem Start.awaited (h : Start s) : s.Awaited Ready MayWait nproc := by
  rintro q c ⟨ℓ, hsleep⟩
  obtain ⟨ret, hc⟩ := h.ctl q
  rw [hc] at hsleep
  simp at hsleep

/-- With the lock free no process sleeps on `nread` while there is a byte to read or the write
end is closed, nor on `nwrite` while there is room or the read end is closed. -/
def NoneForgotten (s : State) : Prop :=
  s.holder = none → ∀ q,
    (s.Asleep q .nread → (s.data.nwrite - s.data.nread).toNat = 0 ∧ s.data.writeopen = true) ∧
    (s.Asleep q .nwrite → (s.data.nwrite - s.data.nread).toNat = pipesize ∧
      s.data.readopen = true)

theorem no_lost_wakeup {s s' : State} {es : List Event} (hs : Start s)
    (hg : Run.Guarded step Timely s es) (hrun : Run.exec step s es = .ok s') :
    NoneForgotten s' := by
  have hinv : outline.Holds s' ∧ s'.Awaited Ready MayWait nproc :=
    Run.inv_of_guarded (I := fun x => outline.Holds x ∧ x.Awaited Ready MayWait nproc)
      (fun _ _ _ hx hge hstep => ⟨outline_step hx.1 hge hstep,
        (Monitor.step_eq_ok hstep).awaited attends hx.1 hx.2⟩)
      ⟨hs.holds, hs.awaited⟩ hg hrun
  obtain ⟨hO, hawait⟩ := hinv
  refine fun hfree q => ⟨fun hsleep => ?_, fun hsleep => ?_⟩
  · have := hawait.of_free hfree hsleep
    simpa [Ready] using this
  · have := hawait.of_free hfree hsleep
    simp only [Ready, not_or, not_lt, Bool.not_eq_false] at this
    exact ⟨le_antisymm hO.always.bound this.1, this.2⟩

/-- A reader sleeps on the empty pipe; a writer of two bytes stores the first one and is killed
before it looks again. -/
def killedWriter : List Event :=
  [.run 0 (.read 1), .run 0 (.read 1), .run 0 (.read 1), .run 0 (.read 1),
    .run 1 (.write 2), .run 1 (.write 2), .run 1 (.copyin (some 7)), .kill 1,
    .run 1 (.copyin (some 8))]

/-- Whether the lock is free, the first process sleeps on `nread` and a byte is there. -/
def forgotten (s : State) : Bool :=
  s.holder.isNone && decide (0 < (s.data.nwrite - s.data.nread).toNat) &&
    match s.ctl 0 with
    | .sleeping .nread _ => true
    | _ => false

theorem killedWriter_loses_wakeup :
    ∃ s s', Start s ∧ Run.exec step s killedWriter = .ok s' ∧ ¬ NoneForgotten s' := by
  have hends : Run.ends step fresh killedWriter forgotten = true := by decide +kernel
  obtain ⟨s', hrun, hcheck⟩ := Run.of_ends hends
  refine ⟨fresh, s', start_fresh, hrun, fun hnone => ?_⟩
  simp only [forgotten, Bool.and_eq_true, Option.isNone_iff_eq_none, decide_eq_true_eq] at hcheck
  obtain ⟨⟨hfree, hbytes⟩, hsleep⟩ := hcheck
  have hasleep : s'.Asleep 0 .nread := by
    split at hsleep
    · exact ⟨_, .inr ‹_›⟩
    · cases hsleep
  have := ((hnone hfree 0).1 hasleep).1
  omega

def isTimely (s : State) : Event → Bool
  | .kill t =>
    match s.ctl t with
    | .inside (.write _ _ true) | .waking _ _ (.write _ _ true) => false
    | _ => true
  | _ => true

theorem timely_of_isTimely (h : isTimely s e = true) : Timely s e := by
  cases e with
  | kill t =>
    rintro n i (hc | ⟨c, q, hc⟩)
    · simp [isTimely, hc] at h
    · simp [isTimely, hc] at h
  | run | fresh | env => trivial

/-- The same with the kill while the reader is the only one in the pipe: the writer that comes
later wakes it. -/
def earlyKill : List Event :=
  [.run 0 (.read 1), .run 0 (.read 1), .run 0 (.read 1), .run 0 (.read 1), .kill 1,
    .run 1 (.write 2), .run 1 (.write 2), .run 1 (.copyin (some 7))]

theorem no_lost_wakeup_earlyKill :
    ∃ s', Start fresh ∧ Run.Guarded step Timely fresh earlyKill ∧
      Run.exec step fresh earlyKill = .ok s' ∧ NoneForgotten s' ∧ s'.holder = none ∧
      s'.Asleep 0 .nread := by
  have hends : Run.ends step fresh earlyKill (fun s => s.holder.isNone &&
      match s.ctl 0 with
      | .sleeping .nread _ => true
      | _ => false) = true := by decide +kernel
  obtain ⟨s', hrun, hcheck⟩ := Run.of_ends hends
  have hpass : Run.allSteps step isTimely fresh earlyKill = true := by decide +kernel
  have hguard : Run.Guarded step Timely fresh earlyKill :=
    Run.guarded_of_allSteps (I := fun _ => True) (fun _ _ _ _ _ => trivial)
      (fun _ _ _ => timely_of_isTimely) trivial hpass
  simp only [Bool.and_eq_true, Option.isNone_iff_eq_none] at hcheck
  obtain ⟨hfree, hsleep⟩ := hcheck
  have hasleep : s'.Asleep 0 .nread := by
    split at hsleep
    · exact ⟨_, .inr ‹_›⟩
    · cases hsleep
  exact ⟨s', start_fresh, hguard, hrun, no_lost_wakeup start_fresh hguard hrun, hfree, hasleep⟩

end Xv6.Pipe
