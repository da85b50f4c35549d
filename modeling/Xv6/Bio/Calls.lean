/-
The steps of `bread` and `brelse`, and the calls of the file system, seen by the process that
commits: they leave its buffers, the log and the blocks it has yet to install as they are.
-/
import Xv6.Bio.Commit

namespace Xv6.Bio

open Function State
open Log (Block)

variable {n p q i : Nat} {s s' : State} {snap : Nat → Block}

/-! ## bget -/

section Took

variable {b : Nat} {B : Buf}

theorem onBuf_took (hready : s.phase q = .ready) :
    OnBuf s ((s.setBuf i B).setPhase q (.acquiresleep i)) q i (.acquiresleep i) :=
  Cache.onBuf rfl rfl rfl (fun _ _ => rfl) (by simp [hready, Phase.buf])
    fun k hk => (Option.some.inj hk).symm

theorem keeps_took (hc : Cache n s) (hready : s.phase q = .ready) (hi : i < nbuf)
    (hB : Took s i b B) (p : Nat) :
    Keeps s ((s.setBuf i B).setPhase q (.acquiresleep i)) p none := by
  have hs := onBuf_took (i := i) (B := B) hready
  cases hB with
  | hit hd hb =>
    refine (Keeps.of_onBuf hc.refs hs hi hd (by simp) (by simp) (fun _ _ => ⟨rfl, rfl⟩)
      fun hqp hr => ?_).all fun _ _ _ => ⟨by simp, ?_⟩
    · rw [← hqp, hready] at hr
      exact absurd hr (Phase.not_reads_ready i)
    · exact ⟨by simp, by simp, by simp, rfl, rfl, rfl⟩
  | recycled h0 hno =>
    obtain ⟨hl, hph, -⟩ := hc.refs.of_refcnt_zero hi h0
    refine ⟨rfl, fun k hk _ hlk _ => ?_, fun k hk hr => ?_⟩
    · have hki : k ≠ i := fun he => nomatch (he ▸ hl).symm.trans hlk
      rw [hs.bufs k hki]
      refine ⟨rfl, ?_, ?_, ?_, rfl, rfl, rfl⟩ <;> rw [hs.bufs k hki]
    · have hki : k ≠ i := by
        intro he
        subst he
        rcases hph p with hp | hp
        · exact hp hr.buf
        · exact (nomatch hl.symm.trans (hc.content.fill p k hp).lock)
      rw [hs.bufs k hki]
      refine ⟨rfl, rfl, fun hn => absurd ?_ hn⟩
      by_cases hpq : p = q
      · rw [hpq, hready] at hr
        exact absurd hr (Phase.not_reads_ready k)
      · rwa [hs.phase, update_of_ne hpq]

theorem home_took (hc : Cache n s) (hready : s.phase q = .ready) (hB : Took s i b B) (hi : i < nbuf)
    {j : Nat} (h1 : s.installed ≤ j) (h2 : j < s.log.lh.n) {d : Block} (h : Home s j d) :
    Home ((s.setBuf i B).setPhase q (.acquiresleep i)) j d := by
  refine h.onBuf (onBuf_took hready) rfl rfl fun hd hb hu => ?_
  simp only [setPhase_bufs, setBuf_bufs, update_self] at hd hb ⊢
  cases hB with
  | hit hd' hb' => exact h.buf i hi hd hb hu
  | recycled h0 hno =>
    obtain ⟨k, hk, hdk, hbk, -⟩ := hc.content.pinned _ (pending_block h1 h2)
    exact absurd (hbk.trans hb.symm) (hno k hk hdk)

theorem area_took (h : Area s) (hc : Cache n s) (hready : s.phase q = .ready) (hi : i < nbuf)
    (hB : Took s i b B) : Area ((s.setBuf i B).setPhase q (.acquiresleep i)) := by
  have hs := onBuf_took (i := i) (B := B) hready
  intro k hk r hl hin hph
  have hnf : s.phase r ≠ .fill k := by
    intro hf
    by_cases hrq : r = q
    · rw [hrq, hready] at hf
      cases hf
    · rw [hs.phase, update_of_ne hrq] at hph
      exact hph hf
  by_cases hki : k = i
  · subst hki
    simp only [setPhase_bufs, setBuf_bufs, update_self] at hl hin ⊢
    cases hB with
    | hit => exact h k hk r hl hin hnf
    | recycled h0 _ => exact (nomatch (hc.refs.of_refcnt_zero hk h0).1.symm.trans hl)
  · rw [hs.bufs k hki] at hl hin ⊢
    exact h k hk r hl hin hnf

theorem Commit.took (h : Commit s snap) (hc : Cache n s) (hq : s.loc q = .user)
    (hready : s.phase q = .ready) (hi : i < nbuf) (hB : Took s i b B) :
    Commit ((s.setBuf i B).setPhase q (.acquiresleep i)) snap := by
  refine h.frame rfl rfl rfl (area_took h.area hc hready hi hB)
    (fun p hp => ⟨keeps_took hc hready hi hB p, fun k _ hr => ?_⟩)
    (fun _ j h1 h2 d => home_took hc hready hB hi h1 h2) fun _ _ => rfl
  have hpq : p ≠ q := fun he => hp (he ▸ hq)
  rwa [(onBuf_took hready).phase, update_of_ne hpq] at hr

end Took

/-! ## The rest of bread and brelse -/

section

variable (h : Commit s snap)

include h

section

variable (hc : Cache n s)

include hc

theorem Commit.acquiresleep (hph : s.phase q = .acquiresleep i) :
    Commit (s.acquiresleep q i) snap := by
  obtain ⟨-, hi, hd⟩ := hc.refs.phase q i (by rw [hph]; rfl)
  unfold State.acquiresleep
  split
  · rename_i hl
    have hs : OnBuf s ((s.setBuf i { s.bufs i with lock := some q }).setPhase q (.fill i)) q i
        (.fill i) :=
      Cache.onBuf rfl rfl rfl (fun _ _ => rfl) (by simp [hph, Phase.buf])
        fun k hk => (Option.some.inj hk).symm
    refine h.onBuf hc.refs hs hi hd (by simp) (by simp) rfl rfl rfl (fun _ _ => ⟨rfl, rfl⟩) ?_
      (fun _ hn => absurd (.inr rfl) hn) (fun _ _ _ => .inl hph) ?_ ?_ fun _ _ _ => rfl
    · intro r hr _ hf
      simp only [setPhase_bufs, setBuf_bufs, update_self] at hr
      cases hr
      exact absurd (by simp) hf
    · exact fun p _ hp => by cases hl.symm.trans hp
    · intro _ j _ _ hb d hj
      refine ⟨hb ▸ hj.latest, fun hu => ?_⟩
      simpa using hj.buf i hi hd hb.symm hu
  · exact h

theorem Commit.fill (hph : s.phase q = .fill i) : Commit (s.fill q i) snap := by
  obtain ⟨-, hi, hd⟩ := hc.refs.phase q i (by rw [hph]; rfl)
  have hf := hc.content.fill q i hph
  have hdata := hc.filled_data hi hf
  obtain ⟨-, hd', hb', hl', -⟩ := Cache.filled_fields s i
  have hs : OnBuf s (s.fill q i) q i .ready :=
    Cache.onBuf rfl rfl rfl (fun _ _ => rfl) (by simp [hph, Phase.buf]) fun k hk => nomatch hk
  have hself : (s.fill q i).bufs i = s.filled i := by simp [State.fill]
  refine h.onBuf hc.refs hs hi hd (by rw [hself, hd']) (by rw [hself, hb']) rfl rfl rfl
    (fun _ _ => ⟨rfl, rfl⟩) ?_ (fun _ _ => ⟨by rw [hself, hl', hf.lock], hf.saved, ?_⟩)
    (fun _ _ hr => absurd hr (Phase.not_reads_ready i)) ?_ ?_ fun _ _ _ => rfl
  · intro r _ _ _
    rw [hself, hb']
    exact .inl hdata
  · rw [hself]
    exact hdata
  · intro p _ hp hr
    rw [hf.lock] at hp
    cases hp
    exact absurd (.inr hph) hr
  · intro _ j h1 h2 hb d hj
    refine ⟨hb ▸ hj.latest, fun hu => ?_⟩
    rw [hself, hdata, ← hb, hj.latest]

theorem Commit.unref (hph : s.phase q = .unref i) : Commit (s.unref q i) snap := by
  obtain ⟨-, hi, hd⟩ := hc.refs.phase q i (by rw [hph]; rfl)
  generalize ht : s.unref q i = t
  have hfields : t.dev = s.dev ∧ t.unsaved = s.unsaved ∧ t.log = s.log ∧ t.loc = s.loc ∧
      t.installed = s.installed ∧ t.phase = update s.phase q .ready ∧
      t.disk = s.disk ∧ t.latest = s.latest ∧
      t.bufs = update s.bufs i { s.bufs i with refcnt := (s.bufs i).refcnt - 1 } := by
    subst ht
    unfold State.unref
    dsimp only
    split <;> exact ⟨rfl, rfl, rfl, rfl, rfl, rfl, rfl, rfl, rfl⟩
  obtain ⟨hdev, hun, hlog, hloc, hinst, hphase, hdisk, hlatest, hbufs⟩ := hfields
  have hself : t.bufs i = { s.bufs i with refcnt := (s.bufs i).refcnt - 1 } := by
    rw [hbufs, update_self]
  have hs : OnBuf s t q i .ready :=
    Cache.onBuf hbufs hphase hdev (fun _ _ => by rw [hun]) (by simp [hph, Phase.buf])
      fun k hk => nomatch hk
  refine h.onBuf hc.refs hs hi hd (by rw [hself]) (by rw [hself]) hlog hinst hloc
    (fun _ _ => ⟨by rw [hlatest], by rw [hdisk]⟩) ?_ (fun hr => ?_)
    (fun _ _ hr => absurd hr (Phase.not_reads_ready i)) ?_ ?_ fun _ _ _ => by rw [hlatest]
  · intro r hl hin hf
    rw [hself] at hl hin ⊢
    rw [hlatest, hloc]
    refine h.area i hi r hl hin fun hf' => hf ?_
    have hrq : r ≠ q := by
      intro he
      rw [he, hph] at hf'
      cases hf'
    rw [hphase, update_of_ne hrq, hf']
  · rw [hph] at hr
    exact absurd hr (Phase.not_reads_unref i i)
  · intro p _ _ _
    exact ⟨by rw [hself], by rw [hself], by rw [hself], by rw [hun], by rw [hlatest], by rw [hdisk]⟩
  · intro _ j _ _ hb d hj
    refine ⟨by rw [hlatest]; exact hb ▸ hj.latest, fun hu => ?_⟩
    rw [hself]
    exact hj.buf i hi hd hb.symm (hun ▸ hu)

/-! ## Calls of the file system -/

theorem Commit.store (hq : s.loc q = .user) (hready : s.phase q = .ready) (hi : i < nbuf)
    (hl : (s.bufs i).lock = some q) (hin : ¬ InLog s.log (s.bufs i).blockno) (d : Block) :
    Commit (s.store i d) snap := by
  have hd := hc.refs.lock i hi q hl
  have hself : (s.store i d).bufs i = { s.bufs i with data := d } := by simp [State.store]
  refine h.onBuf hc.refs (Cache.onHeld rfl rfl (fun k hk => update_of_ne hk ..) rfl hready)
    hi hd (by rw [hself]) (by rw [hself]) rfl rfl rfl (fun _ _ => ⟨rfl, rfl⟩) ?_ (fun hr => ?_)
    (fun hne => absurd hq hne) ?_ ?_ fun _ _ _ => rfl
  · intro r _ hin'
    rw [hself] at hin'
    exact absurd hin' hin
  · rw [hready] at hr
    exact absurd hr (Phase.not_reads_ready i)
  · intro p hp hlp
    rw [hl] at hlp
    cases hlp
    exact absurd hq hp
  · intro _ j _ _ hb d' hj
    refine ⟨hb ▸ hj.latest, fun hu => ?_⟩
    simp [State.store] at hu

theorem Commit.bwrite (hq : s.loc q = .user) (hready : s.phase q = .ready) (hi : i < nbuf)
    (hin : ¬ InLog s.log (s.bufs i).blockno)
    (hlog : ¬ (s.log.committing = true ∧ (s.bufs i).blockno ∈ s.log.lh.blocks))
    (hs' : s.bwrite q i = .ok s') : Commit s' snap := by
  unfold State.bwrite at hs'
  split at hs'
  · rename_i hl
    cases hs'
    have hd := hc.refs.lock i hi q hl
    refine h.onBuf hc.refs (Cache.onHeld (update_eq_self i s.bufs).symm rfl
      (fun k hk => update_of_ne hk ..) rfl hready) hi hd rfl rfl rfl rfl rfl
      (fun b hne => ⟨rfl, update_of_ne hne ..⟩) (fun _ _ hin' => absurd hin' hin)
      (fun hr => ?_) (fun hne => absurd hq hne) ?_ ?_ fun _ _ _ => rfl
    · rw [hready] at hr
      exact absurd hr (Phase.not_reads_ready i)
    · intro p hp hlp
      rw [hl] at hlp
      cases hlp
      exact absurd hq hp
    · intro hcom j _ h2 hb
      exact absurd ⟨hcom, hb ▸ Header.block_mem h2⟩ hlog
  · cases hs'

theorem Commit.brelse (hq : s.loc q = .user) (hready : s.phase q = .ready) (hi : i < nbuf)
    (hl : (s.bufs i).lock = some q) (hun : s.unsaved i = false) (hs' : s.brelse q i .user = .ok s')
    : Commit s' snap := by
  have hd := hc.refs.lock i hi q hl
  simp only [State.brelse, if_pos hl] at hs'
  cases hs'
  generalize ht : State.setLoc _ q .user = t
  have hs : OnBuf s t q i (.unref i) := by
    subst ht
    exact Cache.onBuf rfl rfl rfl (fun _ _ => rfl) (by simp [hready, Phase.buf])
      fun k hk => (Option.some.inj hk).symm
  have hself : t.bufs i = { s.bufs i with lock := none } := by
    subst ht
    simp
  have hlatest : t.latest = update s.latest (s.bufs i).blockno (s.bufs i).data := by
    subst ht
    rfl
  have hloc : t.loc = s.loc := by
    subst ht
    exact update_eq_iff.2 ⟨hq.symm, fun _ _ => rfl⟩
  refine h.onBuf hc.refs hs hi hd (by rw [hself]) (by rw [hself]) (by subst ht; rfl)
    (by subst ht; rfl) hloc (fun b hne => ⟨?_, by subst ht; rfl⟩) ?_ (fun hr => ?_)
    (fun hne => absurd hq hne) ?_ ?_ fun j hj hb => ?_
  · rw [hlatest, update_of_ne hne]
  · intro r hr
    rw [hself] at hr
    cases hr
  · rw [hready] at hr
    exact absurd hr (Phase.not_reads_ready i)
  · intro p hp hlp
    rw [hl] at hlp
    cases hlp
    exact absurd hq hp
  · -- a block that is to be installed is released as it was
    intro _ j _ _ hb d hj
    have hdata := hj.buf i hi hd hb.symm hun
    rw [hlatest, update_self, hself]
    exact ⟨hdata, fun _ => hdata⟩
  · -- so is a block of the log
    rcases h.area i hi q hl (hb ▸ h.header.inLog hj) (by rw [hready]; simp)
      with hdata | hw
    · rw [hlatest, update_self, hdata]
    · rw [hq] at hw
      cases hw

end

theorem Commit.idle (hc : s.log.committing = false) (p : Nat) : s.loc p = .user := by
  by_contra hp
  rw [h.committing p hp] at hc
  cases hc

theorem Commit.not_committing (hout : 1 ≤ s.log.outstanding) : s.log.committing = false := by
  cases hc : s.log.committing with
  | false => rfl
  | true =>
    have := h.header.quiet hc
    omega

theorem Commit.logWrite (hin : ¬ InLog s.log (s.bufs i).blockno) (hs' : s.logWrite i = .ok s') :
    Commit s' snap := by
  obtain ⟨hsize, hout, hcases⟩ := Cache.logWrite_eq_ok hs'
  have hcom := h.not_committing hout
  have hidle := h.idle hcom
  rcases hcases with ⟨-, rfl⟩ | ⟨hmem, rfl⟩
  · exact ⟨h.header, h.area, h.committing, h.one, fun p hp => absurd (hidle p) hp, h.rest⟩
  · refine ⟨⟨Log.LogHeader.nodup_record h.header.nodup _, fun b hb => ?_, ?_, h.header.quiet⟩, ?_,
      fun p hp => absurd (hidle p) hp, h.one, fun p hp => absurd (hidle p) hp, h.rest⟩
    · rcases (Log.LogHeader.mem_blocks_record ..).1 hb with hb | rfl
      · exact h.header.outside b hb
      · exact hin
    · right
      have := (Log.LogHeader.blocks_record_of_notMem hmem).1
      change (s.log.lh.record (s.bufs i).blockno).n < s.log.size
      omega
    · intro k hk r hl hin' hf
      by_cases hki : k = i
      · subst hki
        simp only [setBuf_bufs, update_self] at hl hin' ⊢
        exact h.area k hk r hl hin' hf
      · simp only [setBuf_bufs, update_of_ne hki] at hl hin' ⊢
        exact h.area k hk r hl hin' hf

theorem Commit.beginOp {l : Log.State} (hl : Log.beginOp s.log = some l) :
    Commit { s with log := l } snap := by
  unfold Log.beginOp at hl
  split at hl
  · cases hl
  · rename_i hcom
    split at hl
    · cases hl
    · cases hl
      have hidle := h.idle (Bool.eq_false_iff.2 hcom)
      exact ⟨⟨h.header.nodup, h.header.outside, h.header.size, fun hc => absurd hc hcom⟩, h.area,
        fun p hp => absurd (hidle p) hp, h.one, fun p hp => absurd (hidle p) hp, h.rest⟩

theorem Commit.endOp (hq : s.loc q = .user) {l : Log.State} (hl : Log.endOp s.log = .ok l) :
    Commit ({ s with log := l }.setLoc q (if l.committing then .commit else .user)) snap := by
  unfold Log.endOp at hl
  split at hl
  · cases hl
  · rename_i hcom
    have hidle := h.idle (Bool.eq_false_iff.2 hcom)
    have hinst := h.rest hidle
    split at hl
    · rename_i hzero
      cases hl
      have hloc : ∀ p, update s.loc q .commit p ≠ .user → p = q := by
        intro p hp
        by_contra hpq
        rw [update_of_ne hpq] at hp
        exact hp (hidle p)
      refine ⟨⟨h.header.nodup, h.header.outside, h.header.size, fun _ => hzero⟩, ?_, fun _ _ => rfl,
        fun p r hp hr => (hloc p hp).trans (hloc r hr).symm, fun p hp => ?_, fun hall => ?_⟩
      · intro k hk r hlk hin hf
        rcases h.area k hk r hlk hin hf with hd | hw
        · exact .inl hd
        · rw [hidle r] at hw
          cases hw
      · obtain rfl := hloc p hp
        simp only [setLoc_loc, update_self]
        exact ⟨hinst, fun j _ hj => absurd hj (Nat.not_lt_zero j),
          fun j _ hj => absurd hj (Nat.not_lt_zero j), trivial⟩
      · have := hall q
        simp at this
    · cases hl
      have hloc : update s.loc q .user = s.loc :=
        update_eq_iff.2 ⟨hq.symm, fun _ _ => rfl⟩
      simp only [Bool.eq_false_iff.2 hcom, Bool.false_eq_true, if_false]
      refine ⟨⟨h.header.nodup, h.header.outside, h.header.size, nofun⟩,
        fun k hk r hlk hin hf => ?_, fun p hp => absurd (hidle p) (hloc ▸ hp),
        fun p _ hp => absurd (hidle p) (hloc ▸ hp), fun p hp => absurd (hidle p) (hloc ▸ hp),
        fun _ => hinst⟩
      rw [setLoc_loc, hloc]
      exact h.area k hk r hlk hin hf

end

end Xv6.Bio
