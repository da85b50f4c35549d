/-
Coherence of the buffer cache with the log: under the discipline of the file system `bread`
returns what was last released, and the commit changes nothing that `bread` returns.
-/
import Xv6.Bio.Lines

namespace Xv6.Bio

open Function Run
open Log (Block)

variable {e : Event} {ℓ : Loc} {b k : Nat} {next : Nat → Loc}

variable {n p i : Nat} {s s' : State} {snap : Nat → Block}

structure Inv (n : Nat) (s : State) : Prop where
  cache : Cache n s
  commit : ∃ snap, Commit s snap

/-! ## The lines of the commit -/

theorem Inv.runLoc (h : Inv n s) (hp : p < n) (hready : s.phase p = .ready)
    (hs' : s.runLoc p = .ok s') : Inv n s' := by
  obtain ⟨hC, snap, hM⟩ := h
  by_cases hne : s.loc p = .user
  · rw [State.runLoc, hne] at hs'
    cases hs'
    exact ⟨hC, snap, hM⟩
  have hst := hM.stage p hne
  unfold State.runLoc at hs'
  cases hℓ : s.loc p with
  | user => exact absurd hℓ hne
  | commit =>
    rw [hℓ] at hs' hst
    cases hs'
    refine ⟨hC.setLoc _, snap, hM.goto hne (fun k hk => ?_) ?_ ?_⟩
    · rw [hℓ] at hk
      cases hk
    · split <;> simp
    · split
      · exact hst.goto rfl le_rfl le_rfl (Nat.zero_le _)
      · exact hst.goto rfl le_rfl le_rfl (by change s.log.lh.n = 0; omega)
  | writeLog t =>
    rw [hℓ] at hs' hst
    dsimp only at hs'
    split at hs'
    · rename_i ht
      refine ⟨hC.bread hp hready hs', snap, hM.read hC hs' hℓ (by simp) hready rfl
        (fun _ => ⟨by simp, rfl, rfl, rfl⟩) fun u i hlog hfresh hf => ?_⟩
      simp only [Local, hlog]
      exact ⟨ht, hf⟩
    · rename_i ht
      cases hs'
      have htn : t = s.log.lh.n := by
        have : t ≤ s.log.lh.n := hst.here
        omega
      refine ⟨hC.setLoc _, snap, hM.goto hne (fun k hk => ?_) (by simp) ?_⟩
      · rw [hℓ] at hk
        cases hk
      · exact hst.goto rfl (by simp [Loc.copied, htn]) (by simp [Loc.logged, htn])
          fun h => by cases h
  | writeLogFrom t dst =>
    rw [hℓ] at hs' hst
    obtain ⟨ht, hdst⟩ := hst.here
    refine ⟨hC.bread hp hready hs', snap, hM.read hC hs' hℓ (by simp) hready rfl
      (fun _ => ⟨by simp, rfl, rfl, rfl⟩) fun u i hlog hfresh hf => ?_⟩
    simp only [Local, hlog]
    exact ⟨ht, hfresh _ _ hdst, hf⟩
  | writeLogCopy t dst src =>
    rw [hℓ] at hs' hst
    cases hs'
    obtain ⟨-, hdst, -⟩ := hst.here
    exact ⟨(hC.store hdst.lt hready (hdst.ready hready).1 _).setLoc _, _,
      hM.writeLogCopy hC hℓ hready⟩
  | writeLogBwrite t dst src =>
    rw [hℓ] at hs' hst
    obtain ⟨-, ho, -⟩ := hst.here
    refine ⟨?_, snap, hM.writeLogBwrite hC hℓ hready hs'⟩
    obtain ⟨u, hu, rfl⟩ := map_eq_ok.1 hs'
    exact (hC.bwrite ho.lt hready hu).setLoc _
  | writeLogRelease t dst src =>
    rw [hℓ] at hs' hst
    obtain ⟨-, -, -, -, hsrc⟩ := hst.here
    obtain ⟨hl, hun, -⟩ := hsrc.ready hready
    exact ⟨hC.brelse hp hsrc.lt hready hl hun hs', snap, hM.writeLogRelease hC hℓ hready hs'⟩
  | writeLogReleaseTo t dst =>
    rw [hℓ] at hs' hst
    obtain ⟨-, ho, -, hun⟩ := hst.here
    exact ⟨hC.brelse hp ho.lt hready ho.lock hun hs', snap,
      hM.writeLogReleaseTo hC hℓ hready hs'⟩
  | writeHead last =>
    rw [hℓ] at hs' hst
    refine ⟨hC.bread hp hready hs', snap, hM.read hC hs' hℓ (by simp) hready rfl
      (fun _ => ⟨by simp, rfl, rfl, rfl⟩) fun u i hlog hfresh hf => ?_⟩
    simp only [Local, hlog]
    exact ⟨hst.here, hf⟩
  | writeHeadStore last buf =>
    rw [hℓ] at hs' hst
    cases hs'
    obtain ⟨-, hbuf⟩ := hst.here
    exact ⟨(hC.store hbuf.lt hready (hbuf.ready hready).1 _).setLoc _, snap,
      hM.writeHeadStore hC hℓ hready _⟩
  | writeHeadBwrite last buf =>
    rw [hℓ] at hs' hst
    obtain ⟨-, ho⟩ := hst.here
    refine ⟨?_, snap, hM.writeHeadBwrite hC hℓ hready hs'⟩
    obtain ⟨u, hu, rfl⟩ := map_eq_ok.1 hs'
    exact (hC.bwrite ho.lt hready hu).setLoc _
  | writeHeadRelease last buf =>
    rw [hℓ] at hs' hst
    obtain ⟨-, ho, hun⟩ := hst.here
    exact ⟨hC.brelse hp ho.lt hready ho.lock hun hs', snap,
      hM.writeHeadRelease hC hℓ hready hs'⟩
  | installTrans t =>
    rw [hℓ] at hs' hst
    dsimp only at hs'
    split at hs'
    · rename_i ht
      refine ⟨hC.bread hp hready hs', snap, hM.read hC hs' hℓ (by simp) hready rfl
        (fun _ => ⟨by simp, rfl, rfl, rfl⟩) fun u i hlog hfresh hf => ?_⟩
      simp only [Local, hlog]
      exact ⟨ht, hf⟩
    · rename_i ht
      cases hs'
      have htn : t = s.log.lh.n := by
        have : t ≤ s.log.lh.n := hst.here
        omega
      refine ⟨hC.setLoc _, snap, hM.goto hne (fun k hk => ?_) (by simp) ?_⟩
      · rw [hℓ] at hk
        cases hk
      · exact hst.goto (by simp [Loc.installed, htn]) le_rfl le_rfl trivial
  | installTransDst t lbuf =>
    rw [hℓ] at hs' hst
    obtain ⟨ht, hlb⟩ := hst.here
    refine ⟨hC.bread hp hready hs', snap, hM.read hC hs' hℓ (by simp) hready rfl
      (fun _ => ⟨by simp, rfl, rfl, rfl⟩) fun u i hlog hfresh hf => ?_⟩
    simp only [Local, hlog]
    exact ⟨ht, hfresh _ _ hlb, hf⟩
  | installTransCopy t lbuf dbuf =>
    rw [hℓ] at hs' hst
    cases hs'
    obtain ⟨-, -, hdb⟩ := hst.here
    exact ⟨(hC.store hdb.lt hready (hdb.ready hready).1 _).setLoc _, snap,
      hM.installTransCopy hC hℓ hready⟩
  | installTransBwrite t lbuf dbuf =>
    rw [hℓ] at hs' hst
    obtain ⟨-, -, ho, -⟩ := hst.here
    refine ⟨?_, snap, hM.installTransBwrite hC hℓ hready hs'⟩
    obtain ⟨u, hu, rfl⟩ := map_eq_ok.1 hs'
    exact (hC.bwrite ho.lt hready hu).setLoc _
  | installTransUnpin t lbuf dbuf =>
    rw [hℓ] at hs' hst
    cases hs'
    obtain ⟨ht, -, ho, -, hdisk⟩ := hst.here
    have hinst : s.installed = t := hst.installed
    have hdrop : s.log.lh.blocks.drop s.installed =
        (s.bufs dbuf).blockno :: s.log.lh.blocks.drop (t + 1) := by
      rw [hinst, ho.blockno]
      exact blocks_drop ht
    refine ⟨(hC.bunpin hp ho.lt hready ho.lock hM.header.nodup hdrop ?_).setLoc _, snap,
      hM.installTransUnpin hC hℓ hready⟩
    rw [ho.blockno]
    exact hdisk
  | installTransRelease t lbuf dbuf =>
    rw [hℓ] at hs' hst
    obtain ⟨-, hlb, -⟩ := hst.here
    obtain ⟨hl, hun, -⟩ := hlb.ready hready
    exact ⟨hC.brelse hp hlb.lt hready hl hun hs', snap, hM.installTransRelease hC hℓ hready hs'⟩
  | installTransReleaseDst t dbuf =>
    rw [hℓ] at hs' hst
    obtain ⟨-, ho, hun⟩ := hst.here
    exact ⟨hC.brelse hp ho.lt hready ho.lock hun hs', snap,
      hM.installTransReleaseDst hC hℓ hready hs'⟩
  | clear =>
    rw [hℓ] at hs' hst
    cases hs'
    refine ⟨hC.congr rfl rfl rfl rfl rfl rfl rfl fun b => ?_, snap, hM.clear hℓ⟩
    have hinst : s.installed = s.log.lh.n := hst.installed
    unfold State.Pending
    rw [hinst, List.drop_of_length_le (l := s.log.lh.blocks) (by simp)]
    simp [Log.LogHeader.blocks]
  | finish =>
    rw [hℓ] at hs' hst
    cases hs'
    exact ⟨hC.congr rfl rfl rfl rfl rfl rfl rfl fun _ => Iff.rfl, snap, hM.finish hℓ⟩

/-! ## All steps -/

theorem Inv.run (h : Inv n s) (hp : p < n) (hs' : s.run p = .ok s') : Inv n s' := by
  unfold State.run at hs'
  split at hs'
  · exact h.runLoc hp ‹_› hs'
  all_goals
    rename_i hph
    cases hs'
    obtain ⟨hC, snap, hM⟩ := h
  · exact ⟨hC.acquiresleep hph, snap, hM.acquiresleep hC hph⟩
  · exact ⟨hC.fill hph, snap, hM.fill hC hph⟩
  · exact ⟨hC.unref hph, snap, hM.unref hC hph⟩

theorem Inv.call {c : Call} (h : Inv n s) (hp : p < n) (hready : s.phase p = .ready)
    (hloc : s.loc p = .user) (hd : Disciplined s (.call p c)) (hs' : s.call p c = .ok s') :
    Inv n s' := by
  obtain ⟨hC, snap, hM⟩ := h
  cases c with
  | beginOp =>
    cases hs'
    split
    · exact ⟨hC, snap, hM⟩
    · rename_i l hl
      refine ⟨hC.congr rfl rfl rfl rfl rfl rfl rfl fun b => ?_, snap, hM.beginOp hl⟩
      unfold Log.beginOp at hl
      split at hl
      · cases hl
      · split at hl
        · cases hl
        · cases hl
          exact Iff.rfl
  | endOp =>
    obtain ⟨l, hl, hs'⟩ := bind_eq_ok.1 hs'
    cases hs'
    refine ⟨hC.congr rfl rfl rfl rfl rfl rfl rfl fun b => ?_, snap, hM.endOp hloc hl⟩
    unfold Log.endOp at hl
    split at hl
    · cases hl
    · split at hl <;> cases hl <;> exact Iff.rfl
  | bread dev b =>
    obtain ⟨-, rfl⟩ := hd
    change s.bread p s.dev b (fun _ => .user) = .ok s' at hs'
    obtain ⟨i, hi, B, hB, rfl⟩ := bread_eq_ok hC.refs.lru hs'
    have hsame : ((s.setBuf i B).setPhase p (.acquiresleep i)).setLoc p .user =
        (s.setBuf i B).setPhase p (.acquiresleep i) := by
      have : update s.loc p .user = s.loc :=
        update_eq_iff.2 ⟨hloc.symm, fun _ _ => rfl⟩
      simp only [State.setLoc, State.setPhase, State.setBuf, this]
    rw [hsame]
    exact ⟨hC.took hp hready hi hB, snap, hM.took hC hloc hready hi hB⟩
  | store i d =>
    obtain ⟨⟨hi, hl⟩, hin⟩ := hd
    cases hs'
    exact ⟨hC.store hi hready hl d, snap, hM.store hC hloc hready hi hl hin d⟩
  | logWrite i =>
    obtain ⟨⟨hi, hl⟩, hin⟩ := hd
    have hinst : s.installed = 0 := by
      obtain ⟨-, hout, -⟩ := Cache.logWrite_eq_ok hs'
      exact hM.rest (hM.idle (hM.not_committing hout))
    exact ⟨hC.logWrite hp hi hready hl hinst hs', snap, hM.logWrite hin hs'⟩
  | bwrite i =>
    obtain ⟨⟨hi, -⟩, hin, hlog⟩ := hd
    exact ⟨hC.bwrite hi hready hs', snap, hM.bwrite hC hloc hready hi hin hlog hs'⟩
  | brelse i =>
    obtain ⟨⟨hi, hl, hun⟩, -⟩ := hd
    exact ⟨hC.brelse hp hi hready hl hun hs', snap, hM.brelse hC hloc hready hi hl hun hs'⟩

theorem Inv.step (h : Inv n s) (hd : Disciplined s e) (hs' : step n s e = .ok s') : Inv n s' := by
  cases e with
  | run p =>
    simp only [Bio.step] at hs'
    split at hs'
    · exact h.run ‹_› hs'
    · cases hs'
      exact h
  | call p c =>
    simp only [Bio.step] at hs'
    split at hs'
    · rename_i hp
      exact h.call hp.1 hp.2.1 hp.2.2 hd hs'
    · cases hs'
      exact h

theorem Start.inv (h : Start s) (n : Nat) : Inv n s := by
  have hblocks : s.log.lh.blocks = [] := by simp [Log.LogHeader.blocks, h.empty]
  have hpend : ∀ b, ¬ s.Pending b := by simp [State.Pending, hblocks]
  have hnone : ∀ ph, ph ≠ .ready → inPhase n s.phase ph = 0 := by
    intro ph hne
    refine List.countP_eq_zero.2 fun p _ => ?_
    simpa [h.phase] using hne.symm
  have hlock : ∀ i < nbuf, ∀ p, (s.bufs i).lock ≠ some p := by
    intro i hi p
    rw [(h.rest i hi).2]
    simp
  refine ⟨⟨⟨h.lru, h.dev, h.unique, fun i hi => ?_, fun p i hp => ?_,
      fun i hi p hp => absurd hp (hlock i hi p)⟩,
    ⟨fun i hi => ⟨fun hv => (h.valid i hi hv).1, fun hv _ => ?_, fun _ => h.unsaved i,
      fun hv _ _ => (h.valid i hi hv).2, fun p hp => absurd hp (hlock i hi p)⟩,
      fun p i hp => ?_, fun b _ => by rw [h.latest], fun b hb => absurd hb (hpend b)⟩⟩,
    fun _ => s.disk 0, ?_⟩
  · simp [State.holders, State.waiters, State.pin, hpend, hnone, h.rest i hi]
  · rw [h.phase p] at hp
    cases hp
  · rw [(h.valid i hi hv).2, h.latest]
  · rw [h.phase p] at hp
    cases hp
  · exact ⟨⟨by simp [hblocks], by simp [hblocks], .inl h.empty,
      fun hc => by cases hc.symm.trans h.committing⟩,
      fun i hi q hq => absurd hq (hlock i hi q), fun p hp => absurd (h.loc p) hp,
      fun p _ hp => absurd (h.loc p) hp, fun p hp => absurd (h.loc p) hp, fun _ => h.installed⟩

/-! ## Buffers that are in use stay -/

/-- A buffer that somebody refers to keeps its block, and its contents stay valid. -/
structure Stays (s s' : State) (i : Nat) : Prop where
  dev : (s'.bufs i).dev = (s.bufs i).dev
  blockno : (s'.bufs i).blockno = (s.bufs i).blockno
  valid : (s.bufs i).valid = true → (s'.bufs i).valid = true

theorem Stays.of_eq (h : s'.bufs = s.bufs) : Stays s s' i := ⟨by rw [h], by rw [h], by rw [h]; exact id⟩

theorem Stays.of_update {B : Buf} (h : s'.bufs = update s.bufs k B) (hd : B.dev = (s.bufs k).dev)
    (hb : B.blockno = (s.bufs k).blockno) (hv : (s.bufs k).valid = true → B.valid = true) :
    Stays s s' i := by
  by_cases hik : i = k
  · subst hik
    exact ⟨by rw [h, update_self, hd], by rw [h, update_self, hb],
      by rw [h, update_self]; exact hv⟩
  · constructor <;> rw [h, update_of_ne hik]
    exact id

theorem Stays.bread {dev : Nat} (hi : 0 < (s.bufs i).refcnt) (h : s.bread p dev b next = .ok s') :
    Stays s s' i := by
  obtain ⟨⟨k, t⟩, hget, hs'⟩ := bind_eq_ok.1 h
  cases hs'
  unfold State.bget at hget
  split at hget
  · cases hget
    exact .of_update rfl rfl rfl id
  · split at hget
    · rename_i hv
      cases hget
      have h0 := List.find?_some hv
      have hik : i ≠ k := by
        rintro rfl
        simp only [beq_iff_eq] at h0
        omega
      constructor <;> simp [update_of_ne hik]
    · cases hget

theorem Stays.bwrite (h : s.bwrite p k = .ok s') : Stays s s' i := by
  unfold State.bwrite at h
  split at h <;> cases h
  exact .of_eq rfl

theorem Stays.brelse (h : s.brelse p k ℓ = .ok s') : Stays s s' i := by
  unfold State.brelse at h
  split at h <;> cases h
  exact .of_update rfl rfl rfl id

theorem Stays.runLoc (hi : 0 < (s.bufs i).refcnt) (h : s.runLoc p = .ok s') : Stays s s' i := by
  have hbw : ∀ {k ℓ}, (s.bwrite p k).map (·.setLoc p ℓ) = .ok s' → Stays s s' i := by
    intro k ℓ hk
    obtain ⟨t, ht, rfl⟩ := map_eq_ok.1 hk
    exact ⟨(Stays.bwrite ht).dev, (Stays.bwrite ht).blockno, (Stays.bwrite ht).valid⟩
  unfold State.runLoc at h
  split at h
  case h_3 | h_13 =>
    split at h
    · exact .bread hi h
    · cases h
      exact .of_eq rfl
  case h_4 | h_9 | h_14 => exact .bread hi h
  case h_6 | h_11 | h_16 => exact hbw h
  case h_7 | h_8 | h_12 | h_18 | h_19 => exact .brelse h
  case h_5 | h_10 | h_15 | h_17 =>
    cases h
    exact .of_update rfl rfl rfl id
  all_goals
    cases h
    exact .of_eq rfl

theorem Stays.logWrite (h : s.logWrite k = .ok s') : Stays s s' i := by
  obtain ⟨-, -, ⟨-, rfl⟩ | ⟨-, rfl⟩⟩ := Cache.logWrite_eq_ok h
  · exact .of_eq rfl
  · exact .of_update rfl rfl rfl id

theorem Stays.step (hi : 0 < (s.bufs i).refcnt) (h : step n s e = .ok s') : Stays s s' i := by
  cases e with
  | run p =>
    simp only [Bio.step] at h
    split at h
    · unfold State.run at h
      split at h
      · exact .runLoc hi h
      · cases h
        unfold State.acquiresleep
        split
        · exact .of_update rfl rfl rfl id
        · exact .of_eq rfl
      · cases h
        obtain ⟨hv, hd, hb, -, -⟩ := Cache.filled_fields s ‹_›
        exact .of_update rfl hd hb fun _ => hv
      · cases h
        unfold State.unref
        dsimp only
        split <;> exact .of_update rfl rfl rfl id
    · cases h
      exact .of_eq rfl
  | call p c =>
    simp only [Bio.step] at h
    split at h
    · cases c with
      | beginOp =>
        cases h
        split <;> exact .of_eq rfl
      | endOp =>
        obtain ⟨l, -, h⟩ := bind_eq_ok.1 h
        cases h
        exact .of_eq rfl
      | bread dev b =>
        change s.bread p dev b (fun _ => .user) = .ok s' at h
        exact .bread hi h
      | store =>
        cases h
        exact .of_update rfl rfl rfl id
      | logWrite => exact .logWrite h
      | bwrite => exact .bwrite h
      | brelse => exact .brelse h
    · cases h
      exact .of_eq rfl

/-! ## Coherence -/

/-- What the callers of the cache rely on. -/
structure Coherent (n : Nat) (s : State) : Prop where
  /-- `bread` returns the contents that were last released. -/
  read : ∀ p i, s.phase p = .fill i → (s.filled i).data = s.latest (s.bufs i).blockno
  /-- At most one buffer caches a block. -/
  unique : ∀ i j, i < nbuf → j < nbuf → (s.bufs i).dev = (s.bufs j).dev →
    (s.bufs i).blockno = (s.bufs j).blockno → (s.bufs i).dev ≠ 0 → i = j
  refcnt : ∀ i < nbuf, (s.bufs i).refcnt = s.holders n i + s.waiters n i +
    if (s.bufs i).dev = s.dev ∧ s.Pending (s.bufs i).blockno then 1 else 0
  /-- A block that waits to be installed stays in the cache, whatever happens next. -/
  pinned : ∀ b, s.Pending b → ∃ i < nbuf, (s.bufs i).dev = s.dev ∧ (s.bufs i).blockno = b ∧
    (s.bufs i).valid = true ∧ ∀ e s', step n s e = .ok s' →
      (s'.bufs i).dev = s.dev ∧ (s'.bufs i).blockno = b ∧ (s'.bufs i).valid = true
  /-- A valid buffer that is neither held nor in the log equals its disk block. -/
  home : ∀ i < nbuf, (s.bufs i).valid = true → (s.bufs i).lock = none →
    ¬ ((s.bufs i).dev = s.dev ∧ (s.bufs i).blockno ∈ s.log.lh.blocks) →
    (s.bufs i).data = s.disk (s.bufs i).blockno
  /-- `install_trans` copies to a buffer what the buffer has already. -/
  install : ∀ p t lbuf dbuf, s.loc p = .installTransCopy t lbuf dbuf → s.phase p = .ready →
    (s.bufs lbuf).data = (s.bufs dbuf).data

theorem Inv.coherent (h : Inv n s) : Coherent n s := by
  obtain ⟨hC, snap, hM⟩ := h
  refine ⟨fun p i hf => ?_, hC.refs.unique, hC.refs.refcnt, fun b hb => ?_, fun i hi hv hl hn => ?_,
    fun p t lbuf dbuf hℓ hready => ?_⟩
  · exact hC.filled_data (hC.refs.phase p i (by rw [hf]; rfl)).2.1 (hC.content.fill p i hf)
  · obtain ⟨i, hi, hd, hbi, hv⟩ := hC.content.pinned b hb
    have hpos : 0 < (s.bufs i).refcnt := by
      have hpin : s.pin i = 1 := if_pos ⟨hd, hbi.symm ▸ hb⟩
      rw [hC.refs.refcnt i hi]
      omega
    refine ⟨i, hi, hd, hbi, hv, fun e s' hs' => ?_⟩
    have hs := Stays.step hpos hs'
    exact ⟨hs.dev.trans hd, hs.blockno.trans hbi, hs.valid hv⟩
  · have hb := hC.content.buf i hi
    exact hb.disk hv (hb.saved hl) fun hp => hn ⟨hb.dev hv, List.mem_of_mem_drop hp⟩
  · have hst := hM.stage p (by rw [hℓ]; exact nofun)
    rw [hℓ] at hst
    obtain ⟨ht, hlb, hdb⟩ := hst.here
    have hinst : s.installed = t := hst.installed
    rw [(hlb.ready hready).2.2, (hdb.ready hready).2.2, hst.logged t hinst.le ht,
      (hst.home t hinst.le ht).latest]

/-- In every run of any number of processes under the discipline of the file system. -/
theorem cache_coherent {s s' : State} {es : List Event} (hs : Start s)
    (hd : Run.Guarded (step n) Disciplined s es) (hrun : Run.exec (step n) s es = .ok s') :
    Coherent n s' :=
  (inv_of_guarded (I := Inv n) (fun _ _ _ h hd hs' => h.step hd hs') (hs.inv n) hd
    hrun).coherent

/-! ## Runs from an empty cache -/

instance (s : State) (e : Event) : Decidable (Documented s e) :=
  match e with
  | .call p (.store i _) | .call p (.logWrite i) | .call p (.bwrite i) =>
    inferInstanceAs (Decidable (i < nbuf ∧ (s.bufs i).lock = some p))
  | .call p (.brelse i) =>
    inferInstanceAs (Decidable (i < nbuf ∧ (s.bufs i).lock = some p ∧ s.unsaved i = false))
  | .run _ | .call _ .beginOp | .call _ .endOp | .call _ (.bread _ _) =>
    inferInstanceAs (Decidable True)

instance (l : Log.State) (b : Nat) : Decidable (InLog l b) := inferInstanceAs (Decidable (_ ∧ _))

instance (s : State) (e : Event) : Decidable (Disciplined s e) :=
  match e with
  | .call p (.bread dev b) =>
    inferInstanceAs (Decidable (Documented s (.call p (.bread dev b)) ∧ dev = s.dev))
  | .call p (.store i d) => inferInstanceAs (Decidable (Documented s (.call p (.store i d)) ∧
      ¬ InLog s.log (s.bufs i).blockno))
  | .call p (.logWrite i) => inferInstanceAs (Decidable (Documented s (.call p (.logWrite i)) ∧
      ¬ InLog s.log (s.bufs i).blockno))
  | .call p (.bwrite i) => inferInstanceAs (Decidable (Documented s (.call p (.bwrite i)) ∧
      ¬ InLog s.log (s.bufs i).blockno ∧
      ¬ (s.log.committing ∧ (s.bufs i).blockno ∈ s.log.lh.blocks)))
  | .call p (.brelse i) => inferInstanceAs (Decidable (Documented s (.call p (.brelse i)) ∧ True))
  | .run p => inferInstanceAs (Decidable (Documented s (.run p) ∧ True))
  | .call p .beginOp => inferInstanceAs (Decidable (Documented s (.call p .beginOp) ∧ True))
  | .call p .endOp => inferInstanceAs (Decidable (Documented s (.call p .endOp) ∧ True))

def bytes (v : UInt8) : Block := fun _ => v

/-- The cache as `binit` leaves it, over a disk of zeros with the log of mkfs. -/
def binit : State where
  bufs _ := { valid := false, dev := 0, blockno := 0, lock := none, refcnt := 0, data := bytes 0 }
  lru := (List.range nbuf).reverse
  disk _ := bytes 0
  dev := rootdev
  log := { start := logstart, size := nlog, outstanding := 0, committing := false
           lh := { n := 0, block := fun _ => 0 } }
  loc _ := .user
  phase _ := .ready
  latest _ := bytes 0
  unsaved _ := false
  installed := 0

theorem start_binit : Start binit where
  lru := ⟨List.nodup_reverse.2 List.nodup_range, fun i => by simp [binit]⟩
  rest _ _ := ⟨rfl, rfl⟩
  unique _ _ _ _ _ _ h := absurd rfl h
  valid _ _ h := nomatch h
  dev := by decide
  empty := rfl
  outstanding := rfl
  committing := rfl
  loc _ := rfl
  phase _ := rfl
  latest := rfl
  unsaved _ := rfl
  installed := rfl

/-- Process `p` reads a block to buffer `i`, changes it, and saves and releases it. -/
def change (p dev b i : Nat) (v : UInt8) (save : Call) : List Event :=
  [.call p (.bread dev b), .run p, .run p, .call p (.store i (bytes v)), .call p save,
    .call p (.brelse i), .run p]

/-- Process 0 logs block 40 and begins to commit; as soon as the block has been copied to the
log, process 1 changes it again and calls `bwrite`. -/
def writePast : List Event :=
  .call 0 .beginOp :: change 0 rootdev 40 0 1 (.logWrite 0) ++ .call 0 .endOp ::
    List.replicate 14 (.run 0) ++ change 1 rootdev 40 0 2 (.bwrite 0)

def readBack : List Event :=
  List.replicate 26 (.run 0) ++ [.call 1 (.bread rootdev 40), .run 1]

def twoDevices : List Event :=
  change 0 rootdev 40 0 1 (.bwrite 0) ++ change 0 (rootdev + 1) 40 1 2 (.bwrite 1)

theorem guarded_documented {es : List Event}
    (h : Run.allSteps (step 2) (fun s e => decide (Documented s e)) binit es = true) :
    Run.Guarded (step 2) Documented binit es :=
  guarded_of_allSteps (I := fun _ => True) (fun _ _ _ _ _ => trivial)
    (fun _ _ _ hg => of_decide_eq_true hg) trivial h

/-- The documented discipline is not enough.  What a process releases is lost when it writes a
block past the log while the block is being committed, and a buffer can differ from its disk
block when two device numbers are used. -/
theorem documented_incoherent :
    (Run.Guarded (step 2) Documented binit (writePast ++ readBack) ∧
      ∃ s₁ s₂, Run.exec (step 2) binit writePast = .ok s₁ ∧
        Run.exec (step 2) s₁ readBack = .ok s₂ ∧ Bytes.byteAt (s₁.latest 40) 0 = 2 ∧
        s₂.phase 1 = .fill 0 ∧ (s₂.bufs 0).blockno = 40 ∧
        Bytes.byteAt (s₂.filled 0).data 0 = 1) ∧
    Run.Guarded (step 2) Documented binit twoDevices ∧
      ∃ s, Run.exec (step 2) binit twoDevices = .ok s ∧ (s.bufs 0).valid = true ∧
        (s.bufs 0).lock = none ∧ s.log.lh.blocks = [] ∧ (s.bufs 0).dev = rootdev ∧
        (s.bufs 0).data ≠ s.disk (s.bufs 0).blockno := by
  refine ⟨⟨guarded_documented (by decide +kernel), ?_⟩, guarded_documented (by decide +kernel), ?_⟩
  · have hends : Run.ends (step 2) binit writePast (fun s₁ =>
        decide (Bytes.byteAt (s₁.latest 40) 0 = 2) && Run.ends (step 2) s₁ readBack fun s₂ =>
          decide (s₂.phase 1 = .fill 0 ∧ (s₂.bufs 0).blockno = 40 ∧
            Bytes.byteAt (s₂.filled 0).data 0 = 1)) = true := by decide +kernel
    obtain ⟨s₁, hrun₁, hcheck⟩ := of_ends hends
    obtain ⟨hlatest, hends₂⟩ := Bool.and_eq_true_iff.1 hcheck
    obtain ⟨s₂, hrun₂, hcheck₂⟩ := of_ends hends₂
    exact ⟨s₁, s₂, hrun₁, hrun₂, of_decide_eq_true hlatest, of_decide_eq_true hcheck₂⟩
  · have hends : Run.ends (step 2) binit twoDevices (fun s =>
        decide ((s.bufs 0).valid = true ∧ (s.bufs 0).lock = none ∧ s.log.lh.blocks = [] ∧
          (s.bufs 0).dev = rootdev ∧ Bytes.byteAt (s.bufs 0).data 0 ≠
            Bytes.byteAt (s.disk (s.bufs 0).blockno) 0)) = true := by decide +kernel
    obtain ⟨s, hrun, hcheck⟩ := of_ends hends
    obtain ⟨hv, hl, hb, hd, hne⟩ := of_decide_eq_true hcheck
    exact ⟨s, hrun, hv, hl, hb, hd, fun he => hne (he ▸ rfl)⟩

/-- Process 1 waits for the block that process 0 has changed and is committing. -/
def commitRun : List Event :=
  .call 0 .beginOp :: change 0 rootdev 40 0 1 (.logWrite 0) ++ .call 0 .endOp ::
    .call 1 (.bread rootdev 40) :: .run 1 :: List.replicate 8 (.run 0)

theorem cache_coherent_commitRun :
    Start binit ∧ Run.Guarded (step 2) Disciplined binit commitRun ∧
      ∃ s, Run.exec (step 2) binit commitRun = .ok s ∧ s.phase 1 = .fill 0 ∧
        (s.bufs 0).refcnt = 3 ∧ Coherent 2 s := by
  have hg : Run.Guarded (step 2) Disciplined binit commitRun :=
    guarded_of_allSteps (g := fun s e => decide (Disciplined s e)) (I := fun _ => True)
      (fun _ _ _ _ _ => trivial) (fun _ _ _ hg => of_decide_eq_true hg) trivial (by decide +kernel)
  have hends : Run.ends (step 2) binit commitRun
      (fun s => decide (s.phase 1 = .fill 0 ∧ (s.bufs 0).refcnt = 3)) = true := by decide +kernel
  obtain ⟨s, hrun, hcheck⟩ := of_ends hends
  obtain ⟨hph, hr⟩ := of_decide_eq_true hcheck
  exact ⟨start_binit, hg, s, hrun, hph, hr, cache_coherent start_binit hg hrun⟩

end Xv6.Bio
