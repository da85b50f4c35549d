/-
Runs of a step function that can fail: the state after a list of events, runs in which every
event meets a condition in the state it finds, and the rule for invariants over them.
-/
import Mathlib.Init

namespace Run

variable {σ ε π : Type} (step : σ → ε → Except π σ)

/-- The state after the events, in order; the first failure ends the run. -/
def exec : σ → List ε → Except π σ
  | s, [] => .ok s
  | s, e :: es =>
    match step s e with
    | .error x => .error x
    | .ok s' => exec s' es

/-- Every event of the run meets `G` in the state in which it happens. -/
def Guarded (G : σ → ε → Prop) : σ → List ε → Prop
  | _, [] => True
  | s, e :: es => G s e ∧ ∀ s', step s e = .ok s' → Guarded G s' es

theorem ok_bind {α β : Type} (a : α) (f : α → Except π β) : (Except.ok a >>= f) = f a := rfl

/-- The bind of two computations succeeds exactly when both do. -/
theorem bind_eq_ok {α β : Type} {x : Except π α} {f : α → Except π β} {b : β} :
    (x >>= f) = .ok b ↔ ∃ a, x = .ok a ∧ f a = .ok b := by
  cases x with
  | error e => simp [bind, Except.bind]
  | ok a => simp [bind, Except.bind]

theorem map_eq_ok {α β : Type} {x : Except π α} {f : α → β} {b : β} :
    x.map f = .ok b ↔ ∃ a, x = .ok a ∧ f a = b := by
  cases x with
  | error e => simp [Except.map]
  | ok a => simp [Except.map]

def allSteps (g : σ → ε → Bool) : σ → List ε → Bool
  | _, [] => true
  | s, e :: es => g s e &&
      match step s e with
      | .error _ => true
      | .ok s' => allSteps g s' es

/-- The run gets to its end, and `check` holds of the state there. -/
def ends (s : σ) (es : List ε) (check : σ → Bool) : Bool :=
  match exec step s es with
  | .error _ => false
  | .ok s' => check s'

variable {step}

theorem of_ends {s : σ} {es : List ε} {check : σ → Bool} (h : ends step s es check = true) :
    ∃ s', exec step s es = .ok s' ∧ check s' = true := by
  unfold ends at h
  split at h
  · cases h
  · exact ⟨_, ‹_›, h⟩

theorem guarded_of_allSteps {G : σ → ε → Prop} {g : σ → ε → Bool} {I : σ → Prop}
    (hstep : ∀ s e s', I s → step s e = .ok s' → I s')
    (hg : ∀ s e, I s → g s e = true → G s e) {s : σ} {es : List ε} (h0 : I s)
    (h : allSteps step g s es = true) : Guarded step G s es := by
  induction es generalizing s with
  | nil => trivial
  | cons e es ih =>
    obtain ⟨hge, hrest⟩ := Bool.and_eq_true_iff.1 h
    refine ⟨hg s e h0 hge, fun s' hs => ih (hstep s e s' h0 hs) ?_⟩
    rw [hs] at hrest
    exact hrest

/-- What holds at the start and is kept by every step that meets the condition holds in every
state that such a run reaches. -/
theorem inv_of_guarded {G : σ → ε → Prop} {I : σ → Prop}
    (hstep : ∀ s e s', I s → G s e → step s e = .ok s' → I s') {s s' : σ} {es : List ε}
    (h0 : I s) (hg : Guarded step G s es) (hrun : exec step s es = .ok s') : I s' := by
  induction es generalizing s with
  | nil => cases hrun; exact h0
  | cons e es ih =>
    obtain ⟨hge, hrest⟩ := hg
    unfold exec at hrun
    cases hs : step s e with
    | error x => rw [hs] at hrun; cases hrun
    | ok s₁ =>
      rw [hs] at hrun
      exact ih (hstep s e s₁ h0 hge hs) (hrest s₁ hs) hrun

theorem guarded_true (s : σ) (es : List ε) : Guarded step (fun _ _ => True) s es := by
  induction es generalizing s with
  | nil => trivial
  | cons e es ih => exact ⟨trivial, fun s' _ => ih s'⟩

theorem Guarded.take {G : σ → ε → Prop} {s : σ} {es : List ε} (h : Guarded step G s es) (n : Nat) :
    Guarded step G s (es.take n) := by
  induction es generalizing s n with
  | nil => rwa [List.take_nil]
  | cons e es ih =>
    cases n with
    | zero => trivial
    | succ n => exact ⟨h.1, fun s' hs => ih (h.2 s' hs) n⟩

/-- The rule for runs without a condition. -/
theorem inv_of_exec {I : σ → Prop} (hstep : ∀ s e s', I s → step s e = .ok s' → I s')
    {s s' : σ} {es : List ε} (h0 : I s) (hrun : exec step s es = .ok s') : I s' :=
  inv_of_guarded (fun s e s' h _ => hstep s e s' h) h0 (guarded_true s es) hrun

/-- A failure that no step from a good state has is not one of a run. -/
theorem ne_error_of_exec {I : σ → Prop} {x : π}
    (hstep : ∀ s e s', I s → step s e = .ok s' → I s') (hne : ∀ s e, I s → step s e ≠ .error x)
    {s : σ} {es : List ε} (h0 : I s) : exec step s es ≠ .error x := by
  induction es generalizing s with
  | nil => exact nofun
  | cons e es ih =>
    unfold exec
    cases hs : step s e with
    | error y =>
      have := hne s e h0
      rw [hs] at this
      exact fun h => this (by rw [Except.error.inj h])
    | ok s₁ => exact ih (hstep s e s₁ h0 hs)

/-- The simulation rule: if every step that meets the condition succeeds and is matched by a step
of an abstract system, the whole run succeeds and ends where the abstract run does. -/
theorem exec_simulates {α : Type} {R : σ → α → Prop} {next : α → ε → α} {G : σ → ε → Prop}
    (hstep : ∀ s a e, R s a → G s e → ∃ s', step s e = .ok s' ∧ R s' (next a e)) {s : σ} {a : α}
    {es : List ε} (h0 : R s a) (hg : Guarded step G s es) :
    ∃ s', exec step s es = .ok s' ∧ R s' (es.foldl next a) := by
  induction es generalizing s a with
  | nil => exact ⟨s, rfl, h0⟩
  | cons e es ih =>
    obtain ⟨s₁, hs₁, h₁⟩ := hstep s a e h0 hg.1
    obtain ⟨s', hs', h'⟩ := ih h₁ (hg.2 s₁ hs₁)
    refine ⟨s', ?_, h'⟩
    rw [exec, hs₁]
    exact hs'

/-- If every step that meets the condition succeeds and leads from a good state to a good state, so
does every run. -/
theorem exec_of_guarded {G : σ → ε → Prop} {I : σ → Prop}
    (hstep : ∀ s e, I s → G s e → ∃ s', step s e = .ok s' ∧ I s') {s : σ} {es : List ε} (h0 : I s)
    (hg : Guarded step G s es) : ∃ s', exec step s es = .ok s' ∧ I s' :=
  @exec_simulates _ _ _ step Unit (fun s _ => I s) (fun _ _ => ()) G (fun s _ => hstep s) s () es h0
    hg

theorem exec_ok {I : σ → Prop} (hstep : ∀ s e, I s → ∃ s', step s e = .ok s' ∧ I s') {s : σ}
    (h0 : I s) (es : List ε) : ∃ s', exec step s es = .ok s' ∧ I s' :=
  exec_of_guarded (fun s e h _ => hstep s e h) h0 (guarded_true s es)

theorem same_of_others {ι α β : Type} {t t' : ι → α} {i : ι} (hothers : ∀ x, x ≠ i → t' x = t x)
    (f : α → β) (hi : f (t' i) = f (t i)) (x : ι) : f (t' x) = f (t x) := by
  by_cases hx : x = i
  · rw [hx, hi]
  · rw [hothers x hx]

end Run
