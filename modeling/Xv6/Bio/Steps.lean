/-
What each step of `bio.c` and `log_write` does to the references and the contents of the cache.
-/
import Xv6.Bio.Content
import Xv6.Lib.Run

namespace Xv6.Bio

open Function State List

structure Cache (n : Nat) (s : State) : Prop where
  refs : Refs n s
  content : Content s

variable {n p i : Nat} {s s' : State}

/-- How `bget` gives a buffer to the caller. -/
inductive Took (s : State) (i b : Nat) : Buf → Prop where
  | hit (hd : (s.bufs i).dev = s.dev) (hb : (s.bufs i).blockno = b) :
      Took s i b { s.bufs i with refcnt := (s.bufs i).refcnt + 1 }
  | recycled (h0 : (s.bufs i).refcnt = 0)
      (hno : ∀ j < nbuf, (s.bufs j).dev = s.dev → (s.bufs j).blockno ≠ b) :
      Took s i b { s.bufs i with dev := s.dev, blockno := b, valid := false, refcnt := 1 }

theorem Took.dev_blockno {b : Nat} {B : Buf} (h : Took s i b B) : B.dev = s.dev ∧ B.blockno = b := by
  cases h with
  | hit hd hb => exact ⟨hd, hb⟩
  | recycled => exact ⟨rfl, rfl⟩

theorem bread_eq_ok {b : Nat} {next : Nat → Loc} (hlru : Listing.Of s.lru (· < nbuf))
    (h : s.bread p s.dev b next = .ok s') :
    ∃ i < nbuf, ∃ B, Took s i b B ∧
      s' = ((s.setBuf i B).setPhase p (.acquiresleep i)).setLoc p (next i) := by
  obtain ⟨⟨i, s₁⟩, hget, hs'⟩ := Run.bind_eq_ok.1 h
  cases hs'
  obtain ⟨hi, ⟨hd, hb, rfl⟩ | ⟨hno, h0, rfl⟩⟩ := bget_eq_ok hlru hget
  · exact ⟨i, hi, _, .hit hd hb, rfl⟩
  · exact ⟨i, hi, _, .recycled h0 hno, rfl⟩

namespace Cache

theorem congr (h : Cache n s) (hbufs : s'.bufs = s.bufs) (hlru : s'.lru = s.lru)
    (hdev : s'.dev = s.dev) (hphase : s'.phase = s.phase) (hdisk : s'.disk = s.disk)
    (hlatest : s'.latest = s.latest) (hun : s'.unsaved = s.unsaved)
    (hpend : ∀ b, s'.Pending b ↔ s.Pending b) : Cache n s' := by
  refine ⟨h.refs.congr hlru hdev hphase (fun k => by simp [hbufs]) hpend,
    fun k hk => ?_, fun q k hq => ?_, fun b hb => ?_, fun b hb => ?_⟩
  · exact (h.content.buf k hk).congr hdev (r := (s.bufs k).refcnt) (by rw [hbufs]) (by rw [hun])
      (fun q _ => by rw [hphase]) fun _ => .of_eq hlatest hdisk hpend
  · have hf := h.content.fill q k (hphase ▸ hq)
    exact ⟨hbufs ▸ hf.lock, hun ▸ hf.saved, hbufs ▸ hlatest ▸ hf.latest⟩
  · rw [hdisk, hlatest]
    exact h.content.uncached b (hbufs ▸ hb)
  · rw [hbufs, hdev]
    exact h.content.pinned b ((hpend b).1 hb)

theorem setLoc (h : Cache n s) (ℓ : Loc) : Cache n (s.setLoc p ℓ) :=
  h.congr rfl rfl rfl rfl rfl rfl rfl fun _ => Iff.rfl

theorem onBuf {B : Buf} {v : Phase} (hbufs : s'.bufs = update s.bufs i B)
    (hphase : s'.phase = update s.phase p v) (hdev : s'.dev = s.dev)
    (hun : ∀ k, k ≠ i → s'.unsaved k = s.unsaved k)
    (hold : ∀ k, (s.phase p).buf = some k → k = i) (hnew : ∀ k, v.buf = some k → k = i) :
    OnBuf s s' p i v :=
  ⟨hdev, fun k hk => by rw [hbufs, update_of_ne hk], hun, hphase, hold, hnew⟩

theorem took (h : Cache n s) {b : Nat} {B : Buf} (hp : p < n) (hready : s.phase p = .ready)
    (hi : i < nbuf) (hB : Took s i b B) :
    Cache n ((s.setBuf i B).setPhase p (.acquiresleep i)) := by
  have hR := h.refs
  have hC := h.content
  have hs : OnBuf s ((s.setBuf i B).setPhase p (.acquiresleep i)) p i (.acquiresleep i) :=
    onBuf rfl rfl rfl (fun _ _ => rfl) (by simp [hready, Phase.buf])
      fun k hk => (Option.some.inj hk).symm
  obtain ⟨hBd, hBb⟩ := hB.dev_blockno
  constructor
  · refine hR.update hs hp hi hR.lru (by simpa using hBd) (fun _ _ _ _ => Iff.rfl)
      (fun k hk hki hd => ?_) ?_
    · simp only [setPhase_bufs, setBuf_bufs, update_self]
      cases hB with
      | hit hd' _ => exact hR.blockno_ne hk hi hd hd' hki
      | recycled _ hno => exact hno k hk hd
    · have hpin : ((s.setBuf i B).setPhase p (.acquiresleep i)).pin i =
          if s.Pending b then 1 else 0 := by
        simp only [State.pin, setPhase_bufs, setBuf_bufs, update_self, hBd, hBb,
          setPhase_dev, setBuf_dev, true_and]
        rfl
      rw [hpin]
      simp only [hready]
      cases hB with
      | hit hd hb =>
        simp [Phase.refs, Buf.locks, State.pin, hd, hb]
        omega
      | recycled h0 hno =>
        obtain ⟨hl, -, hnp⟩ := hR.of_refcnt_zero hi h0
        have hnew : ¬ s.Pending b := by
          intro hb
          obtain ⟨j, hj, hdj, hbj, -⟩ := hC.pinned b hb
          exact hno j hj hdj hbj
        have hpin0 : s.pin i = 0 := if_neg fun he => hnp he.1 he.2
        simp [Phase.refs, Buf.locks, hnew, hpin0, h0, hl]
  · cases hB with
    | hit hd hb =>
      refine hC.keep hR hs hi hd (by simp) (by simp) (by simp)
        (fun _ _ => .of_eq rfl rfl fun _ => Iff.rfl) (.inl (.of_eq rfl rfl fun _ => Iff.rfl)) ?_
        (by simp) fun q hqp hq => ?_
      · refine (hC.buf i hi).congr (r := (s.bufs i).refcnt + 1) rfl (by simp) rfl (fun q _ => ?_)
          fun _ => .of_eq rfl rfl fun _ => Iff.rfl
        by_cases hqp : q = p
        · simp [hqp, hready]
        · simp [update_of_ne hqp]
      · have hf := hC.fill q i hq
        exact ⟨by simpa using hf.lock, hf.saved, by simpa using hf.latest⟩
    | recycled h0 hno =>
      obtain ⟨hl, -, hnp⟩ := hR.of_refcnt_zero hi h0
      refine hC.update hR hs (fun _ _ _ _ => .of_eq rfl rfl fun _ => Iff.rfl) ?_
        (by simp) (fun q _ hq => ?_) (fun b' hb' => ?_) fun b' hb' => ?_
      · exact ⟨by simp, by simp, fun _ => (hC.buf i hi).saved hl, by simp, by simp [hl]⟩
      · cases hl.symm.trans (hC.fill q i hq).lock
      · by_cases hold : (s.bufs i).valid = true ∧ (s.bufs i).blockno = b'
        · rw [← hold.2]
          exact hC.of_recycled hR hi h0 hold.1
        · refine hC.uncached b' fun k hk hv he => ?_
          have hki : k ≠ i := fun hki => hold (hki ▸ ⟨hv, he⟩)
          have := hb' k hk
          rw [hs.bufs k hki] at this
          exact this hv he
      · obtain ⟨j, hj, hd, hb, hv⟩ := hC.pinned b' hb'
        have hji : j ≠ i := by
          intro hji
          subst hji
          exact hnp hd (hb.symm ▸ hb')
        exact ⟨j, hj, by rw [hs.bufs j hji]; exact ⟨hd, hb, hv⟩⟩

theorem bread {b : Nat} {next : Nat → Loc} (h : Cache n s) (hp : p < n)
    (hready : s.phase p = .ready) (hs' : s.bread p s.dev b next = .ok s') : Cache n s' := by
  obtain ⟨i, hi, B, hB, rfl⟩ := bread_eq_ok h.refs.lru hs'
  exact (h.took hp hready hi hB).setLoc _

theorem acquiresleep (h : Cache n s) (hph : s.phase p = .acquiresleep i) :
    Cache n (s.acquiresleep p i) := by
  have hR := h.refs
  have hC := h.content
  obtain ⟨hp, hi, hd⟩ := hR.phase p i (by rw [hph]; rfl)
  have hb := hC.buf i hi
  unfold State.acquiresleep
  split
  · rename_i hl
    have hs : OnBuf s ((s.setBuf i { s.bufs i with lock := some p }).setPhase p (.fill i)) p i
        (.fill i) :=
      onBuf rfl rfl rfl (fun _ _ => rfl) (by simp [hph, Phase.buf])
        fun k hk => (Option.some.inj hk).symm
    constructor
    · refine hR.update hs hp hi hR.lru (by simpa using hd) (fun _ _ _ _ => Iff.rfl)
        (fun k hk hki hdk => ?_) ?_
      · simpa using hR.blockno_ne hk hi hdk hd hki
      · simp [Phase.refs, Buf.locks, State.pin, hph, hl]
    · refine hC.keep hR hs hi hd (by simp) (by simp) (by simp)
        (fun _ _ => .of_eq rfl rfl fun _ => Iff.rfl) (.inl (.of_eq rfl rfl fun _ => Iff.rfl)) ?_ ?_
        fun q _ hq => by cases hl.symm.trans (hC.fill q i hq).lock
      · exact ⟨by simpa using hb.dev, by simp, by simp, by simpa using hb.disk, by simp⟩
      · exact fun _ => ⟨by simp, hb.saved hl, by simpa using fun hv => hb.latest hv hl⟩
  · exact h

theorem not_filling (h : Cache n s) (hl : (s.bufs i).lock = some p) {q : Nat} (hqp : q ≠ p) :
    s.phase q ≠ .fill i := fun hq =>
  hqp (Option.some.inj ((h.content.fill q i hq).lock.symm.trans hl))

theorem valid_of_held (h : Cache n s) (hi : i < nbuf) (hl : (s.bufs i).lock = some p)
    (hready : s.phase p = .ready) : (s.bufs i).valid = true :=
  (h.content.buf i hi).held p hl (by rw [hready]; exact nofun)

theorem filled_fields (s : State) (i : Nat) :
    (s.filled i).valid = true ∧ (s.filled i).dev = (s.bufs i).dev ∧
      (s.filled i).blockno = (s.bufs i).blockno ∧ (s.filled i).lock = (s.bufs i).lock ∧
      (s.filled i).refcnt = (s.bufs i).refcnt := by
  unfold State.filled
  split
  · exact ⟨‹_›, rfl, rfl, rfl, rfl⟩
  · exact ⟨rfl, rfl, rfl, rfl, rfl⟩

theorem filled_data (h : Cache n s) (hi : i < nbuf) (hf : Filling s p i) :
    (s.filled i).data = s.latest (s.bufs i).blockno := by
  have hd := h.refs.lock i hi p hf.lock
  unfold State.filled
  split
  · rename_i hv
    exact hf.latest hv
  · rename_i hv
    refine h.content.uncached _ fun k hk hvk => ?_
    have hki : k ≠ i := fun he => hv (he ▸ hvk)
    exact h.refs.blockno_ne hk hi ((h.content.buf k hk).dev hvk) hd hki

theorem fill (h : Cache n s) (hph : s.phase p = .fill i) : Cache n (s.fill p i) := by
  have hR := h.refs
  have hC := h.content
  obtain ⟨hp, hi, hd⟩ := hR.phase p i (by rw [hph]; rfl)
  have hb := hC.buf i hi
  have hf := hC.fill p i hph
  obtain ⟨hv', hd', hb', hl', hr'⟩ := filled_fields s i
  have hs : OnBuf s (s.fill p i) p i .ready :=
    onBuf rfl rfl rfl (fun _ _ => rfl) (by simp [hph, Phase.buf]) fun k hk => by cases hk
  have hself : (s.fill p i).bufs i = s.filled i := by simp [State.fill]
  constructor
  · refine hR.update hs hp hi hR.lru (by rw [hself, hd', hd]) (fun _ _ _ _ => Iff.rfl)
      (fun k hk hki hdk => ?_) ?_
    · rw [hself, hb']
      exact hR.blockno_ne hk hi hdk hd hki
    · simp [State.fill, Phase.refs, Buf.locks, State.pin, hph, hl', hr', hd', hb']
  · refine hC.keep hR hs hi hd (by rw [hself, hd']) (by rw [hself, hb']) (fun _ => by rw [hself, hv'])
      (fun _ _ => .of_eq rfl rfl fun _ => Iff.rfl) (.inl (.of_eq rfl rfl fun _ => Iff.rfl)) ?_
      (by simp) fun q hqp hq => absurd hq (h.not_filling hf.lock hqp)
    refine ⟨fun _ => by rw [hself, hd', hd]; rfl, fun _ hl => ?_, fun hl => ?_, fun _ _ hn => ?_,
      fun _ _ _ => by rw [hself, hv']⟩
    · rw [hself, hl', hf.lock] at hl
      cases hl
    · rw [hself, hl', hf.lock] at hl
      cases hl
    · rw [hself, hb'] at hn ⊢
      unfold State.filled
      split
      · exact hb.disk ‹_› hf.saved hn
      · rfl

theorem brelse (h : Cache n s) {ℓ : Loc} (hp : p < n) (hi : i < nbuf) (hready : s.phase p = .ready)
    (hl : (s.bufs i).lock = some p) (hun : s.unsaved i = false)
    (hs' : s.brelse p i ℓ = .ok s') : Cache n s' := by
  have hR := h.refs
  have hC := h.content
  have hd := hR.lock i hi p hl
  have hv := h.valid_of_held hi hl hready
  have hb := hC.buf i hi
  simp only [State.brelse, if_pos hl] at hs'
  cases hs'
  refine Cache.setLoc ?_ ℓ
  generalize ht : State.setPhase _ p (.unref i) = t
  have hs : OnBuf s t p i (.unref i) := by
    subst ht
    exact onBuf rfl rfl rfl (fun _ _ => rfl) (by simp [hready, Phase.buf])
      fun k hk => (Option.some.inj hk).symm
  have hself : t.bufs i = { s.bufs i with lock := none } := by
    subst ht
    simp
  have hlatest : t.latest = update s.latest (s.bufs i).blockno (s.bufs i).data := by
    subst ht
    rfl
  have hpend : ∀ b, t.Pending b ↔ s.Pending b := by
    subst ht
    exact fun _ => Iff.rfl
  have hdisk : t.disk = s.disk := by
    subst ht
    rfl
  have hunsaved : t.unsaved = s.unsaved := by
    subst ht
    rfl
  constructor
  · refine hR.update hs hp hi (by subst ht; exact hR.lru) (by rw [hself, hd]) (fun _ _ _ _ => hpend _)
      (fun k hk hki hdk => ?_) ?_
    · rw [hself]
      exact hR.blockno_ne hk hi hdk hd hki
    · simp [hself, Phase.refs, Buf.locks, State.pin, hready, hl, hpend, hs.dev]
  · refine hC.keep hR hs hi hd (by rw [hself]) (by rw [hself]) (fun _ => by rw [hself, hv])
      (fun b hne => ⟨?_, by rw [hdisk], hpend b⟩) (.inr (by rw [hself, hv])) ?_
      (by simp) fun q hqp hq => absurd hq (h.not_filling hl hqp)
    · rw [hlatest, update_of_ne hne]
    · refine ⟨fun _ => by rw [hself, hd, hs.dev], fun _ _ => ?_, fun _ => by rw [hunsaved, hun],
        fun _ _ hn => ?_, fun q hq => ?_⟩
      · rw [hself, hlatest, update_self]
      · rw [hself, hpend] at hn
        rw [hself, hdisk]
        exact hb.disk hv hun hn
      · rw [hself] at hq
        cases hq

theorem refcnt_pos (h : Cache n s) (hph : s.phase p = .unref i) : 0 < (s.bufs i).refcnt := by
  obtain ⟨hp, hi, -⟩ := h.refs.phase p i (by rw [hph]; rfl)
  have hpos : 0 < inPhase n s.phase (.unref i) :=
    countP_pos_iff.2 ⟨p, mem_range.2 hp, by simp [hph]⟩
  have hr := h.refs.refcnt i hi
  simp only [State.holders] at hr
  omega

theorem unref (h : Cache n s) (hph : s.phase p = .unref i) : Cache n (s.unref p i) := by
  have hR := h.refs
  have hC := h.content
  obtain ⟨hp, hi, hd⟩ := hR.phase p i (by rw [hph]; rfl)
  have hpos := h.refcnt_pos hph
  generalize ht : s.unref p i = t
  have hfields : Listing.Of t.lru (· < nbuf) ∧ t.dev = s.dev ∧ t.unsaved = s.unsaved ∧
      t.phase = update s.phase p .ready ∧ t.disk = s.disk ∧ t.latest = s.latest ∧
      (∀ b, t.Pending b ↔ s.Pending b) ∧
      t.bufs = update s.bufs i { s.bufs i with refcnt := (s.bufs i).refcnt - 1 } := by
    subst ht
    unfold State.unref
    dsimp only
    split
    · exact ⟨hR.lru.moveFront hi, rfl, rfl, rfl, rfl, rfl, fun _ => Iff.rfl, rfl⟩
    · exact ⟨hR.lru, rfl, rfl, rfl, rfl, rfl, fun _ => Iff.rfl, rfl⟩
  obtain ⟨hlru, hdev, hun, hphase, hdisk, hlatest, hpend, hbufs⟩ := hfields
  have hself : t.bufs i = { s.bufs i with refcnt := (s.bufs i).refcnt - 1 } := by
    rw [hbufs, update_self]
  have hs : OnBuf s t p i .ready :=
    onBuf hbufs hphase hdev (fun _ _ => by rw [hun]) (by simp [hph, Phase.buf])
      fun k hk => by cases hk
  constructor
  · refine hR.update hs hp hi hlru (by rw [hself, hd]) (fun _ _ _ _ => hpend _)
      (fun k hk hki hdk => ?_) ?_
    · rw [hself]
      exact hR.blockno_ne hk hi hdk hd hki
    · simp [hself, Phase.refs, Buf.locks, State.pin, hph, hpend, hdev]
      omega
  · refine hC.keep hR hs hi hd (by rw [hself]) (by rw [hself]) (fun hv => by rw [hself, hv])
      (fun _ _ => .of_eq hlatest hdisk hpend) (.inl (.of_eq hlatest hdisk hpend)) ?_
      (by simp) fun q hqp hq => ?_
    · refine (hC.buf i hi).congr hdev hself (by rw [hun]) (fun q _ => ?_)
        fun _ => .of_eq hlatest hdisk hpend
      by_cases hqp : q = p
      · simp [hphase, hqp, hph]
      · simp [hphase, update_of_ne hqp]
    · have hf := hC.fill q i hq
      exact ⟨by rw [hself]; exact hf.lock, by rw [hun, hf.saved],
        by rw [hself, hlatest]; exact hf.latest⟩

theorem onHeld {B : Buf} (hbufs : s'.bufs = update s.bufs i B) (hdev : s'.dev = s.dev)
    (hun : ∀ k, k ≠ i → s'.unsaved k = s.unsaved k) (hphase : s'.phase = s.phase)
    (hready : s.phase p = .ready) : OnBuf s s' p i .ready :=
  onBuf hbufs (by rw [hphase, ← hready, update_eq_self]) hdev hun
    (by simp [hready, Phase.buf]) fun k hk => nomatch hk

theorem store (h : Cache n s) (hi : i < nbuf) (hready : s.phase p = .ready)
    (hl : (s.bufs i).lock = some p) (d : Log.Block) : Cache n (s.store i d) := by
  have hR := h.refs
  have hd := hR.lock i hi p hl
  have hv := h.valid_of_held hi hl hready
  have hs : OnBuf s (s.store i d) p i .ready :=
    onHeld rfl rfl (fun k hk => update_of_ne hk ..) rfl hready
  have hself : (s.store i d).bufs i = { s.bufs i with data := d } := by simp [State.store]
  have hun : (s.store i d).unsaved i = true := by simp [State.store]
  constructor
  · refine hR.congr rfl rfl rfl (fun k => ?_) fun _ => Iff.rfl
    by_cases hki : k = i
    · rw [hki, hself]
      exact ⟨rfl, rfl, rfl, rfl⟩
    · rw [hs.bufs k hki]
      exact ⟨rfl, rfl, rfl, rfl⟩
  · refine h.content.keep hR hs hi hd (by rw [hself]) (by rw [hself]) (fun _ => by rw [hself, hv])
      (fun _ _ => .of_eq rfl rfl fun _ => Iff.rfl) (.inl (.of_eq rfl rfl fun _ => Iff.rfl)) ?_
      nofun fun q hqp hq => absurd hq (h.not_filling hl hqp)
    refine ⟨fun _ => by rw [hself, hd]; rfl, fun _ hn => ?_, fun hn => ?_, fun _ hu => ?_,
      fun _ _ _ => by rw [hself, hv]⟩
    · rw [hself, hl] at hn
      cases hn
    · rw [hself, hl] at hn
      cases hn
    · rw [hun] at hu
      cases hu

theorem bwrite (h : Cache n s) (hi : i < nbuf) (hready : s.phase p = .ready)
    (hs' : s.bwrite p i = .ok s') : Cache n s' := by
  unfold State.bwrite at hs'
  split at hs'
  · rename_i hl
    cases hs'
    have hR := h.refs
    have hd := hR.lock i hi p hl
    have hv := h.valid_of_held hi hl hready
    refine ⟨hR.congr rfl rfl rfl (fun k => ⟨rfl, rfl, rfl, rfl⟩) fun _ => Iff.rfl,
      h.content.keep hR (onHeld (update_eq_self i s.bufs).symm rfl
        (fun k hk => update_of_ne hk ..) rfl hready) hi hd rfl rfl id
        (fun b hne => ⟨rfl, update_of_ne hne .., Iff.rfl⟩) (.inr hv) ?_
        nofun fun q hqp hq => absurd hq (h.not_filling hl hqp)⟩
    exact ⟨fun _ => hd, fun _ hn => (nomatch hn.symm.trans hl),
      fun hn => (nomatch hn.symm.trans hl), fun _ _ _ => (update_self (f := s.disk) ..).symm, fun _ _ _ => hv⟩
  · cases hs'

theorem logWrite_eq_ok (hs' : s.logWrite i = .ok s') :
    (s.log.lh.n : Int) < s.log.size - 1 ∧ 1 ≤ s.log.outstanding ∧
      ((s.bufs i).blockno ∈ s.log.lh.blocks ∧
          s' = { s with unsaved := update s.unsaved i false } ∨
        (s.bufs i).blockno ∉ s.log.lh.blocks ∧
          s' = { s with
            log := { s.log with lh := s.log.lh.record (s.bufs i).blockno }
            unsaved := update s.unsaved i false }.setBuf i
              { s.bufs i with refcnt := (s.bufs i).refcnt + 1 }) := by
  obtain ⟨l, hl, hs'⟩ := Run.bind_eq_ok.1 hs'
  rcases Log.logWrite_cases hl with ⟨he, -⟩ | ⟨he, -⟩ | ⟨he, -, hsize, hout⟩
  · cases he
  · cases he
  · cases he
    refine ⟨hsize, hout, ?_⟩
    by_cases hmem : (s.bufs i).blockno ∈ s.log.lh.blocks
    · rw [if_neg (mt (Log.LogHeader.find_eq_n_iff _ _).1 (not_not_intro hmem))] at hs'
      cases hs'
      rw [Log.LogHeader.record_of_mem hmem]
      exact .inl ⟨hmem, rfl⟩
    · rw [if_pos ((Log.LogHeader.find_eq_n_iff _ _).2 hmem)] at hs'
      cases hs'
      exact .inr ⟨hmem, rfl⟩

section

variable (h : Cache n s) (hp : p < n) (hi : i < nbuf) (hready : s.phase p = .ready)
  (hl : (s.bufs i).lock = some p)

include h hp hi hready hl

theorem logWrite (hinst : s.installed = 0) (hs' : s.logWrite i = .ok s') : Cache n s' := by
  have hR := h.refs
  have hd := hR.lock i hi p hl
  have hv := h.valid_of_held hi hl hready
  have hother : ∀ q, q ≠ p → s.phase q = .fill i → Filling s' q i :=
    fun q hqp hq => absurd hq (h.not_filling hl hqp)
  obtain ⟨-, -, ⟨hmem, rfl⟩ | ⟨hmem, rfl⟩⟩ := logWrite_eq_ok hs'
  · have hpend : s.Pending (s.bufs i).blockno := by
      unfold State.Pending
      rwa [hinst]
    refine ⟨hR.congr rfl rfl rfl (fun k => ⟨rfl, rfl, rfl, rfl⟩) fun _ => Iff.rfl,
      h.content.keep hR (onHeld (update_eq_self i s.bufs).symm rfl
        (fun k hk => update_of_ne hk ..) rfl hready) hi hd rfl rfl id
        (fun _ _ => .of_eq rfl rfl fun _ => Iff.rfl) (.inr hv) ?_ nofun hother⟩
    exact ⟨fun _ => hd, fun _ hn => (nomatch hn.symm.trans hl),
      fun hn => (nomatch hn.symm.trans hl), fun _ _ hn => absurd hpend hn, fun _ _ _ => hv⟩
  · generalize ht : State.setBuf _ i _ = t at hother ⊢
    have hself : t.bufs i = { s.bufs i with refcnt := (s.bufs i).refcnt + 1 } := by
      subst ht
      simp
    have hpend : ∀ b, t.Pending b ↔ s.Pending b ∨ b = (s.bufs i).blockno := by
      intro b
      subst ht
      simp only [State.Pending, hinst]
      exact Log.LogHeader.mem_blocks_record ..
    have hold : ¬ s.Pending (s.bufs i).blockno := by
      unfold State.Pending
      rwa [hinst]
    have hs : OnBuf s t p i .ready := by
      subst ht
      exact onHeld rfl rfl (fun k hk => update_of_ne hk ..) rfl hready
    have hother' : ∀ b, b ≠ (s.bufs i).blockno → (t.Pending b ↔ s.Pending b) := by
      intro b hne
      rw [hpend]
      exact ⟨fun hb => hb.resolve_right hne, .inl⟩
    constructor
    · refine hR.update hs hp hi (by subst ht; exact hR.lru) (by rw [hself, hd])
        (fun k hk hki hdk => hother' _ (hR.blockno_ne hk hi hdk hd hki)) (fun k hk hki hdk => ?_) ?_
      · rw [hself]
        exact hR.blockno_ne hk hi hdk hd hki
      · simp [hself, Buf.locks, State.pin, hready, hpend, hs.dev, hd, hold]
        omega
    · refine h.content.keep hR hs hi hd (by rw [hself]) (by rw [hself]) (fun _ => by rw [hself, hv])
        (fun b hne => ⟨by subst ht; rfl, by subst ht; rfl, hother' b hne⟩) (.inr (by rw [hself, hv]))
        ?_ nofun hother
      refine ⟨fun _ => by rw [hself, hd, hs.dev], fun _ hn => ?_, fun hn => ?_, fun _ _ hn => ?_,
        fun _ _ _ => by rw [hself, hv]⟩
      · rw [hself] at hn
        cases hn.symm.trans hl
      · rw [hself] at hn
        cases hn.symm.trans hl
      · rw [hself] at hn
        exact absurd ((hpend _).2 (.inr rfl)) hn

theorem bunpin {rest : List Nat} (hnd : s.log.lh.blocks.Nodup)
    (hdrop : s.log.lh.blocks.drop s.installed = (s.bufs i).blockno :: rest)
    (hdisk : (s.bufs i).data = s.disk (s.bufs i).blockno) : Cache n (s.bunpin i) := by
  have hR := h.refs
  have hd := hR.lock i hi p hl
  have hv := h.valid_of_held hi hl hready
  have hself : (s.bunpin i).bufs i = { s.bufs i with refcnt := (s.bufs i).refcnt - 1 } := by
    simp [State.bunpin]
  have hs : OnBuf s (s.bunpin i) p i .ready := onHeld rfl rfl (fun _ _ => rfl) rfl hready
  have hnot : (s.bufs i).blockno ∉ rest := by
    have := List.Nodup.sublist (drop_sublist s.installed _) hnd
    rw [hdrop] at this
    exact (nodup_cons.1 this).1
  have hpend : ∀ b, (s.bunpin i).Pending b ↔ b ∈ rest := by
    intro b
    change b ∈ s.log.lh.blocks.drop (s.installed + 1) ↔ _
    rw [← tail_drop, hdrop, tail_cons]
  have hold : s.Pending (s.bufs i).blockno := by
    unfold State.Pending
    rw [hdrop]
    exact mem_cons_self ..
  have hother : ∀ b, b ≠ (s.bufs i).blockno → ((s.bunpin i).Pending b ↔ s.Pending b) := by
    intro b hne
    rw [hpend]
    unfold State.Pending
    rw [hdrop, mem_cons]
    exact ⟨.inr, fun hb => hb.resolve_left hne⟩
  constructor
  · refine hR.update hs hp hi hR.lru (by rw [hself, hd])
      (fun k hk hki hdk => hother _ (hR.blockno_ne hk hi hdk hd hki)) (fun k hk hki hdk => ?_) ?_
    · rw [hself]
      exact hR.blockno_ne hk hi hdk hd hki
    · have hr := hR.refcnt i hi
      have hpin : s.pin i = 1 := if_pos ⟨hd, hold⟩
      simp [hself, Buf.locks, State.pin, hready, hpend, hd, hold, hnot]
      omega
  · refine h.content.keep hR hs hi hd (by rw [hself]) (by rw [hself]) (fun _ => by rw [hself, hv])
      (fun b hne => ⟨rfl, rfl, hother b hne⟩) (.inr (by rw [hself, hv])) ?_ (by simp)
      fun q hqp hq => absurd hq (h.not_filling hl hqp)
    refine ⟨fun _ => by rw [hself, hd]; rfl, fun _ hn => ?_, fun hn => ?_, fun _ _ _ => ?_,
      fun _ _ _ => by rw [hself, hv]⟩
    · rw [hself] at hn
      cases hn.symm.trans hl
    · rw [hself] at hn
      cases hn.symm.trans hl
    · rw [hself]
      exact hdisk

end

end Cache

end Xv6.Bio
