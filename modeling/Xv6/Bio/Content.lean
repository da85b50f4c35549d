/-
The contents of the buffers: what `bread` returns is what was last released, and a buffer that
nobody has changed since it was last written equals its disk block, unless the log has yet to
install the block.
-/
import Xv6.Bio.Refs

namespace Xv6.Bio

open Function

structure BufOk (s : State) (i : Nat) : Prop where
  dev : (s.bufs i).valid = true → (s.bufs i).dev = s.dev
  latest : (s.bufs i).valid = true → (s.bufs i).lock = none →
    (s.bufs i).data = s.latest (s.bufs i).blockno
  saved : (s.bufs i).lock = none → s.unsaved i = false
  disk : (s.bufs i).valid = true → s.unsaved i = false → ¬ s.Pending (s.bufs i).blockno →
    (s.bufs i).data = s.disk (s.bufs i).blockno
  held : ∀ p, (s.bufs i).lock = some p → s.phase p ≠ .fill i → (s.bufs i).valid = true

/-- The process has taken the lock of the buffer and not looked at its contents yet. -/
structure Filling (s : State) (p i : Nat) : Prop where
  lock : (s.bufs i).lock = some p
  saved : s.unsaved i = false
  latest : (s.bufs i).valid = true → (s.bufs i).data = s.latest (s.bufs i).blockno

structure Content (s : State) : Prop where
  buf : ∀ i < nbuf, BufOk s i
  fill : ∀ p i, s.phase p = .fill i → Filling s p i
  uncached : ∀ b, (∀ i < nbuf, (s.bufs i).valid = true → (s.bufs i).blockno ≠ b) →
    s.disk b = s.latest b
  pinned : ∀ b, s.Pending b →
    ∃ i < nbuf, (s.bufs i).dev = s.dev ∧ (s.bufs i).blockno = b ∧ (s.bufs i).valid = true

/-- The block is as it was, on the disk and for the log. -/
structure SameBlock (s s' : State) (b : Nat) : Prop where
  latest : s'.latest b = s.latest b
  disk : s'.disk b = s.disk b
  pending : s'.Pending b ↔ s.Pending b

variable {n p i : Nat} {s s' : State}

theorem SameBlock.of_eq {b : Nat} (hl : s'.latest = s.latest) (hd : s'.disk = s.disk)
    (hp : ∀ b, s'.Pending b ↔ s.Pending b) : SameBlock s s' b :=
  ⟨by rw [hl], by rw [hd], hp b⟩

theorem BufOk.congr {r : Nat} (h : BufOk s i) (hdev : s'.dev = s.dev)
    (hbuf : s'.bufs i = { s.bufs i with refcnt := r }) (hun : s'.unsaved i = s.unsaved i)
    (hphase : ∀ q, (s.bufs i).lock = some q → (s'.phase q = .fill i ↔ s.phase q = .fill i))
    (hblock : (s.bufs i).valid = true → SameBlock s s' (s.bufs i).blockno) : BufOk s' i := by
  refine ⟨fun hv => ?_, fun hv hl => ?_, fun hl => ?_, fun hv hu hn => ?_, fun q hl hf => ?_⟩ <;>
    simp only [hbuf, hun] at *
  · rw [hdev, h.dev hv]
  · rw [(hblock hv).latest, h.latest hv hl]
  · exact h.saved hl
  · rw [(hblock hv).disk, h.disk hv hu (mt (hblock hv).pending.2 hn)]
  · exact h.held q hl (mt (hphase q hl).2 hf)

namespace Content

section

variable (h : Content s) (hR : Refs n s)

include h hR

theorem update {v : Phase} (hs : OnBuf s s' p i v)
    (hblock : ∀ k < nbuf, k ≠ i → (s.bufs k).dev = s.dev → SameBlock s s' (s.bufs k).blockno)
    (hok : BufOk s' i) (hfill : v = .fill i → Filling s' p i)
    (hother : ∀ q, q ≠ p → s.phase q = .fill i → Filling s' q i)
    (huncached : ∀ b, (∀ k < nbuf, (s'.bufs k).valid = true → (s'.bufs k).blockno ≠ b) →
      s'.disk b = s'.latest b) (hpinned : ∀ b, s'.Pending b →
      ∃ k < nbuf, (s'.bufs k).dev = s.dev ∧ (s'.bufs k).blockno = b ∧ (s'.bufs k).valid = true) :
    Content s' := by
  refine ⟨fun k hk => ?_, fun q k hq => ?_, huncached, fun b hb => hs.dev.symm ▸ hpinned b hb⟩
  · by_cases hki : k = i
    · rw [hki]
      exact hok
    · refine (h.buf k hk).congr hs.dev (r := (s.bufs k).refcnt) (hs.bufs k hki) (hs.unsaved k hki)
        (fun q _ => ?_) fun hv => hblock k hk hki ((h.buf k hk).dev hv)
      rw [hs.phase]
      by_cases hqp : q = p
      · rw [hqp, update_self]
        exact ⟨fun he => absurd (hs.new k (by rw [he]; rfl)) hki,
          fun he => absurd (hs.old k (by rw [he]; rfl)) hki⟩
      · rw [update_of_ne hqp]
  · rw [hs.phase] at hq
    by_cases hqp : q = p
    · rw [hqp, update_self] at hq
      obtain rfl := hs.new k (by rw [hq]; rfl)
      exact hqp ▸ hfill hq
    · rw [update_of_ne hqp] at hq
      by_cases hki : k = i
      · rw [hki] at hq ⊢
        exact hother q hqp hq
      · have hk := (hR.phase q k (by rw [hq]; rfl)).2.1
        have hf := h.fill q k hq
        refine ⟨by rw [hs.bufs k hki, hf.lock], by rw [hs.unsaved k hki, hf.saved], fun hv => ?_⟩
        rw [hs.bufs k hki] at hv ⊢
        rw [(hblock k hk hki (hR.lock k hk q hf.lock)).latest, hf.latest hv]

theorem keep {v : Phase} (hs : OnBuf s s' p i v) (hi : i < nbuf) (hdi : (s.bufs i).dev = s.dev)
    (hd : (s'.bufs i).dev = (s.bufs i).dev) (hb : (s'.bufs i).blockno = (s.bufs i).blockno)
    (hv : (s.bufs i).valid = true → (s'.bufs i).valid = true)
    (hblock : ∀ b, b ≠ (s.bufs i).blockno → SameBlock s s' b)
    (hsame : SameBlock s s' (s.bufs i).blockno ∨ (s'.bufs i).valid = true) (hok : BufOk s' i)
    (hfill : v = .fill i → Filling s' p i)
    (hother : ∀ q, q ≠ p → s.phase q = .fill i → Filling s' q i) : Content s' := by
  refine h.update hR hs (fun k hk hki hdk => hblock _ (hR.blockno_ne hk hi hdk hdi hki)) hok hfill
    hother (fun b hno => ?_) fun b hpend => ?_
  · have hsb : SameBlock s s' b := by
      by_cases hbi : b = (s.bufs i).blockno
      · rcases hsame with hsame | hvalid
        · exact hbi ▸ hsame
        · exact absurd (hb.trans hbi.symm) (hno i hi hvalid)
      · exact hblock b hbi
    rw [hsb.disk, hsb.latest]
    refine h.uncached b fun k hk hvk => ?_
    by_cases hki : k = i
    · subst hki
      exact hb ▸ hno k hk (hv hvk)
    · have := hno k hk
      rw [hs.bufs k hki] at this
      exact this hvk
  · by_cases hbi : b = (s.bufs i).blockno ∧ (s'.bufs i).valid = true
    · exact ⟨i, hi, hd.trans hdi, hb.trans hbi.1.symm, hbi.2⟩
    · have hsb : SameBlock s s' b := by
        by_cases hb' : b = (s.bufs i).blockno
        · rcases hsame with hsame | hvalid
          · exact hb' ▸ hsame
          · exact absurd ⟨hb', hvalid⟩ hbi
        · exact hblock b hb'
      obtain ⟨k, hk, hdk, hbk, hvk⟩ := h.pinned b (hsb.pending.1 hpend)
      have hki : k ≠ i := by
        intro he
        subst he
        exact hbi ⟨hbk.symm, hv hvk⟩
      exact ⟨k, hk, by rw [hs.bufs k hki]; exact ⟨hdk, hbk, hvk⟩⟩

theorem of_recycled (hi : i < nbuf) (h0 : (s.bufs i).refcnt = 0) (hv : (s.bufs i).valid = true) :
    s.disk (s.bufs i).blockno = s.latest (s.bufs i).blockno := by
  obtain ⟨hl, -, hpend⟩ := hR.of_refcnt_zero hi h0
  have hb := h.buf i hi
  rw [← hb.disk hv (hb.saved hl) (hpend (hb.dev hv)), hb.latest hv hl]

end

end Content

end Xv6.Bio
