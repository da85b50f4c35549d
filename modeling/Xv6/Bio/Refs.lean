/-
The references to the buffers: at most one buffer caches a block, and `refcnt` counts the
processes that hold or wait for the buffer and the pin of the log.
-/
import Xv6.Bio.Basic

namespace Xv6.Bio

open Function State

def Phase.buf : Phase → Option Nat
  | .ready => none
  | .acquiresleep i | .fill i | .unref i => some i

def inPhase (n : Nat) (phase : Nat → Phase) (ph : Phase) : Nat :=
  (List.range n).countP fun p => phase p == ph

namespace State

variable (s : State) (n : Nat)

/-- The process that holds the sleeplock, and those that have released it but are still in
`brelse`. -/
def holders (i : Nat) : Nat :=
  (if (s.bufs i).lock.isSome then 1 else 0) + inPhase n s.phase (.unref i)

def waiters (i : Nat) : Nat := inPhase n s.phase (.acquiresleep i)

/-- The block is in the header of the log and has not been installed. -/
def Pending (b : Nat) : Prop := b ∈ s.log.lh.blocks.drop s.installed

instance (b : Nat) : Decidable (s.Pending b) := inferInstanceAs (Decidable (_ ∈ _))

@[simp] theorem pending_setBuf (i : Nat) (B : Buf) (b : Nat) :
    (s.setBuf i B).Pending b ↔ s.Pending b := Iff.rfl

@[simp] theorem pending_setPhase (p : Nat) (ph : Phase) (b : Nat) :
    (s.setPhase p ph).Pending b ↔ s.Pending b := Iff.rfl

/-- The reference of the log. -/
def pin (i : Nat) : Nat :=
  if (s.bufs i).dev = s.dev ∧ s.Pending (s.bufs i).blockno then 1 else 0

end State

/-- The references that a process in this phase has on buffer `i` without its sleeplock. -/
def Phase.refs (i : Nat) (ph : Phase) : Nat :=
  (if ph = .unref i then 1 else 0) + if ph = .acquiresleep i then 1 else 0

def Buf.locks (b : Buf) : Nat := if b.lock.isSome then 1 else 0

variable {n p i : Nat} {s s' : State}

theorem inPhase_update (phase : Nat → Phase) (hp : p < n) (v ph : Phase) :
    inPhase n (update phase p v) ph + (if phase p = ph then 1 else 0) =
      inPhase n phase ph + if v = ph then 1 else 0 := by
  have := Listing.countP_range_update (f := phase) hp v (· == ph)
  simpa only [inPhase, beq_iff_eq] using this

structure Refs (n : Nat) (s : State) : Prop where
  lru : Listing.Of s.lru (· < nbuf)
  dev : s.dev ≠ 0
  unique : ∀ i j, i < nbuf → j < nbuf → (s.bufs i).dev = (s.bufs j).dev →
    (s.bufs i).blockno = (s.bufs j).blockno → (s.bufs i).dev ≠ 0 → i = j
  refcnt : ∀ i < nbuf, (s.bufs i).refcnt = s.holders n i + s.waiters n i + s.pin i
  phase : ∀ p i, (s.phase p).buf = some i → p < n ∧ i < nbuf ∧ (s.bufs i).dev = s.dev
  lock : ∀ i < nbuf, ∀ p, (s.bufs i).lock = some p → (s.bufs i).dev = s.dev

/-- A step in which process `p` gets to phase `v` and only buffer `i` changes. -/
structure OnBuf (s s' : State) (p i : Nat) (v : Phase) : Prop where
  dev : s'.dev = s.dev
  bufs : ∀ k, k ≠ i → s'.bufs k = s.bufs k
  unsaved : ∀ k, k ≠ i → s'.unsaved k = s.unsaved k
  phase : s'.phase = update s.phase p v
  old : ∀ k, (s.phase p).buf = some k → k = i
  new : ∀ k, v.buf = some k → k = i

namespace Refs

theorem blockno_ne (h : Refs n s) {k : Nat} (hk : k < nbuf) (hi : i < nbuf)
    (hdk : (s.bufs k).dev = s.dev) (hdi : (s.bufs i).dev = s.dev) (hne : k ≠ i) :
    (s.bufs k).blockno ≠ (s.bufs i).blockno :=
  fun he => hne (h.unique k i hk hi (hdk.trans hdi.symm) he (hdk ▸ h.dev))

theorem of_refcnt_zero (h : Refs n s) (hi : i < nbuf) (h0 : (s.bufs i).refcnt = 0) :
    (s.bufs i).lock = none ∧ (∀ p, (s.phase p).buf ≠ some i ∨ s.phase p = .fill i) ∧
      ((s.bufs i).dev = s.dev → ¬ s.Pending (s.bufs i).blockno) := by
  have hr := h.refcnt i hi
  have hzero : ∀ ph, inPhase n s.phase ph = 0 → ∀ p < n, s.phase p ≠ ph := by
    intro ph hz p hp he
    refine List.countP_eq_zero.1 hz p (List.mem_range.2 hp) ?_
    rw [he]
    exact beq_self_eq_true _
  refine ⟨?_, fun p => ?_, fun hd hpend => ?_⟩
  · cases hl : (s.bufs i).lock with
    | none => rfl
    | some q =>
      simp only [holders, hl, Option.isSome_some, if_true] at hr
      omega
  · cases hph : s.phase p with
    | ready => exact .inl nofun
    | fill j =>
      by_cases hj : j = i
      · exact .inr (by rw [hj])
      · exact .inl fun he => hj (Option.some.inj he)
    | acquiresleep j =>
      refine .inl fun he => ?_
      obtain rfl := Option.some.inj he
      have hp := (h.phase p j (by rw [hph]; rfl)).1
      exact hzero _ (by simp only [waiters] at hr; omega) p hp hph
    | unref j =>
      refine .inl fun he => ?_
      obtain rfl := Option.some.inj he
      have hp := (h.phase p j (by rw [hph]; rfl)).1
      exact hzero _ (by simp only [holders] at hr; omega) p hp hph
  · simp only [pin, if_pos (And.intro hd hpend)] at hr
    omega

theorem update (h : Refs n s) {v : Phase} (hs : OnBuf s s' p i v) (hp : p < n) (hi : i < nbuf)
    (hlru : Listing.Of s'.lru (· < nbuf)) (hself : (s'.bufs i).dev = s.dev)
    (hpend : ∀ k < nbuf, k ≠ i → (s.bufs k).dev = s.dev →
      (s'.Pending (s.bufs k).blockno ↔ s.Pending (s.bufs k).blockno))
    (hunique : ∀ k < nbuf, k ≠ i → (s.bufs k).dev = s.dev →
      (s.bufs k).blockno ≠ (s'.bufs i).blockno)
    (hcount : (s'.bufs i).refcnt + (s.bufs i).locks + (s.phase p).refs i + s.pin i =
      (s.bufs i).refcnt + (s'.bufs i).locks + v.refs i + s'.pin i) : Refs n s' := by
  refine ⟨hlru, hs.dev ▸ h.dev, fun j k hj hk hjk hb hne => ?_, fun k hk => ?_, fun q k hq => ?_,
    fun k hk q hq => ?_⟩
  · by_cases hji : j = i
    · by_cases hki : k = i
      · rw [hji, hki]
      · rw [hji, hs.bufs k hki] at hb hjk
        exact absurd hb.symm (hunique k hk hki (hjk.symm.trans hself))
    · rw [hs.bufs j hji] at hb hjk hne
      by_cases hki : k = i
      · rw [hki] at hb hjk
        exact absurd hb (hunique j hj hji (hjk.trans hself))
      · rw [hs.bufs k hki] at hb hjk
        exact h.unique j k hj hk hjk hb hne
  · have hr := h.refcnt k hk
    have hu := inPhase_update s.phase hp v (.unref k)
    have ha := inPhase_update s.phase hp v (.acquiresleep k)
    simp only [holders, waiters] at hr ⊢
    rw [hs.phase]
    by_cases hki : k = i
    · rw [hki] at hr hu ha ⊢
      simp only [Phase.refs, Buf.locks] at hcount
      omega
    · have hno : ∀ ph : Phase, (∀ j, ph.buf = some j → j = i) →
          ph ≠ .unref k ∧ ph ≠ .acquiresleep k := fun ph hph =>
        ⟨fun he => hki (hph k (by rw [he]; rfl)), fun he => hki (hph k (by rw [he]; rfl))⟩
      rw [if_neg (hno _ hs.old).1, if_neg (hno _ hs.new).1] at hu
      rw [if_neg (hno _ hs.old).2, if_neg (hno _ hs.new).2] at ha
      have hpin : s'.pin k = s.pin k := by
        unfold pin
        rw [hs.bufs k hki, hs.dev]
        by_cases hd : (s.bufs k).dev = s.dev
        · simp only [hpend k hk hki hd]
        · simp only [hd, false_and]
      rw [hs.bufs k hki]
      omega
  · have key : q < n ∧ k < nbuf ∧ (s.bufs k).dev = s.dev ∨ q < n ∧ k = i := by
      rw [hs.phase] at hq
      by_cases hqp : q = p
      · rw [hqp, update_self] at hq
        exact .inr ⟨hqp ▸ hp, hs.new k hq⟩
      · rw [update_of_ne hqp] at hq
        exact .inl (h.phase q k hq)
    rw [hs.dev]
    rcases key with ⟨hq, hk, hd⟩ | ⟨hq, rfl⟩
    · by_cases hki : k = i
      · exact ⟨hq, hk, hki ▸ hself⟩
      · exact ⟨hq, hk, by rw [hs.bufs k hki, hd]⟩
    · exact ⟨hq, hi, hself⟩
  · rw [hs.dev]
    by_cases hki : k = i
    · rw [hki, hself]
    · rw [hs.bufs k hki] at hq ⊢
      exact h.lock k hk q hq

theorem congr (h : Refs n s) (hlru : s'.lru = s.lru) (hdev : s'.dev = s.dev)
    (hphase : s'.phase = s.phase)
    (hbufs : ∀ k, (s'.bufs k).dev = (s.bufs k).dev ∧ (s'.bufs k).blockno = (s.bufs k).blockno ∧
      (s'.bufs k).lock = (s.bufs k).lock ∧ (s'.bufs k).refcnt = (s.bufs k).refcnt)
    (hpend : ∀ b, s'.Pending b ↔ s.Pending b) : Refs n s' := by
  refine ⟨hlru ▸ h.lru, hdev ▸ h.dev, fun j k hj hk hjk hb hne => ?_, fun k hk => ?_,
    fun q k hq => ?_, fun k hk q hq => ?_⟩
  · rw [(hbufs j).1, (hbufs k).1] at hjk
    rw [(hbufs j).2.1, (hbufs k).2.1] at hb
    exact h.unique j k hj hk hjk hb ((hbufs j).1 ▸ hne)
  · obtain ⟨hd, hb, hl, hr⟩ := hbufs k
    simp only [holders, waiters, pin, hd, hb, hl, hr, hphase, hdev, hpend]
    exact h.refcnt k hk
  · rw [hphase] at hq
    rw [(hbufs k).1, hdev]
    exact h.phase q k hq
  · rw [(hbufs k).2.2.1] at hq
    rw [(hbufs k).1, hdev]
    exact h.lock k hk q hq

end Refs

theorem bget_eq_ok {dev b : Nat} (hlru : Listing.Of s.lru (· < nbuf))
    (h : s.bget dev b = .ok (i, s')) :
    i < nbuf ∧
      ((s.bufs i).dev = dev ∧ (s.bufs i).blockno = b ∧
          s' = s.setBuf i { s.bufs i with refcnt := (s.bufs i).refcnt + 1 } ∨
        (∀ j < nbuf, (s.bufs j).dev = dev → (s.bufs j).blockno ≠ b) ∧ (s.bufs i).refcnt = 0 ∧
          s' = s.setBuf i
            { s.bufs i with dev := dev, blockno := b, valid := false, refcnt := 1 }) := by
  unfold bget at h
  split at h
  · rename_i j hj
    cases h
    have hmem := List.mem_of_find?_eq_some hj
    have hfound := List.find?_some hj
    simp only [Bool.and_eq_true, beq_iff_eq] at hfound
    exact ⟨(hlru.mem i).1 hmem, .inl ⟨hfound.1, hfound.2, rfl⟩⟩
  · rename_i hnone
    split at h
    · rename_i j hj
      cases h
      have hmem := List.mem_of_find?_eq_some hj
      have hfound := List.find?_some hj
      refine ⟨(hlru.mem i).1 (List.mem_reverse.1 hmem), .inr ⟨fun k hk hd hb => ?_, ?_, rfl⟩⟩
      · have := List.find?_eq_none.1 hnone k ((hlru.mem k).2 hk)
        simp [hd, hb] at this
      · simpa using hfound
    · cases h

end Xv6.Bio
