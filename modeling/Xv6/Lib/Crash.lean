/-
Programs that can be cut short by a crash, and triples for them.

A program runs on a machine state `σ`.  Either it returns with a new state, or
the machine stops in the middle and only a value of type `δ` survives.  A triple
carries, besides the postcondition, the condition every survivor satisfies, so
that a proof covers all crash points of the program at once.
-/
namespace Crash

abbrev CrashM (σ δ α : Type) := StateT σ (Except δ) α

variable {σ δ α β : Type}

/-- From every state in `P`, `c` either returns with `Q` or crashes with `C`. -/
def Triple (P : σ → Prop) (c : CrashM σ δ α) (Q : α → σ → Prop) (C : δ → Prop) : Prop :=
  ∀ s, P s →
    match c s with
    | .ok (a, s') => Q a s'
    | .error d => C d

namespace Triple

theorem ret {P : σ → Prop} {C : δ → Prop} (a : α) :
    Triple P (pure a : CrashM σ δ α) (fun _ s => P s) C :=
  fun _ hs => hs

theorem bind {P : σ → Prop} {Q : α → σ → Prop} {R : β → σ → Prop} {C : δ → Prop}
    {c : CrashM σ δ α} {f : α → CrashM σ δ β}
    (hc : Triple P c Q C) (hf : ∀ a, Triple (Q a) (f a) R C) : Triple P (c >>= f) R C := by
  intro s hs
  have h := hc s hs
  show match (c s >>= fun p => f p.1 p.2 : Except δ (β × σ)) with
    | .ok (b, s') => R b s'
    | .error d => C d
  cases hr : c s with
  | error d => rw [hr] at h; exact h
  | ok p => rw [hr] at h; exact hf p.1 p.2 h

theorem conseq {P P' : σ → Prop} {Q Q' : α → σ → Prop} {C C' : δ → Prop} {c : CrashM σ δ α}
    (h : Triple P c Q C) (hP : ∀ s, P' s → P s) (hQ : ∀ a s, Q a s → Q' a s)
    (hC : ∀ d, C d → C' d) : Triple P' c Q' C' := by
  intro s hs
  have := h s (hP s hs)
  cases hr : c s with
  | error d => rw [hr] at this; exact hC d this
  | ok p => rw [hr] at this; exact hQ p.1 p.2 this

theorem pre {P P' : σ → Prop} {Q : α → σ → Prop} {C : δ → Prop} {c : CrashM σ δ α}
    (h : Triple P c Q C) (hP : ∀ s, P' s → P s) : Triple P' c Q C :=
  h.conseq hP (fun _ _ hq => hq) (fun _ hc => hc)

theorem post {P : σ → Prop} {Q Q' : α → σ → Prop} {C : δ → Prop} {c : CrashM σ δ α}
    (h : Triple P c Q C) (hQ : ∀ a s, Q a s → Q' a s) : Triple P c Q' C :=
  h.conseq (fun _ hp => hp) hQ (fun _ hc => hc)

theorem crash {P : σ → Prop} {Q : α → σ → Prop} {C C' : δ → Prop} {c : CrashM σ δ α}
    (h : Triple P c Q C) (hC : ∀ d, C d → C' d) : Triple P c Q C' :=
  h.conseq (fun _ hp => hp) (fun _ _ hq => hq) hC

end Triple

/-- `body 0; body 1; …; body (n - 1)`. -/
def loop (body : Nat → CrashM σ δ Unit) : Nat → CrashM σ δ Unit
  | 0 => pure ()
  | n + 1 => do
    loop body n
    body n

/-- The loop rule: an invariant indexed by the number of finished iterations,
and one crash condition for all of them. -/
theorem Triple.loop {I : Nat → σ → Prop} {C : δ → Prop} {body : Nat → CrashM σ δ Unit} {n : Nat}
    (h : ∀ i, i < n → Triple (I i) (body i) (fun _ => I (i + 1)) C) :
    Triple (I 0) (loop body n) (fun _ => I n) C := by
  induction n with
  | zero => exact Triple.ret ()
  | succ n ih =>
    refine Triple.bind (ih fun i hi => h i (Nat.lt_succ_of_lt hi)) fun _ => ?_
    exact h n (Nat.lt_succ_self n)

end Crash
