/-
The lines of the commit: from what the process knows at one line, what it knows at the next.
-/
import Xv6.Bio.Calls

namespace Xv6.Bio

open Function State
open Log (Block)

variable {last : Bool} {buf dbuf dst j lbuf src t : Nat}

variable {n p i : Nat} {s s' : State} {snap snap' : Nat → Block} {ℓ : Loc}

theorem Commit.line (h : Commit s snap) (hp : s.loc p = ℓ) (hℓ : ℓ ≠ .user) :
    s.loc p ≠ .user ∧ Stage s snap p ℓ :=
  ⟨hp ▸ hℓ, hp ▸ h.stage p (hp ▸ hℓ)⟩

theorem Commit.own (h : Commit s snap) (hp : s.loc p ≠ .user) (hheader : Header s'.log)
    (hcom : s'.log.committing = true) (harea : Area s') (hloc : s'.loc = update s.loc p ℓ)
    (hne : ℓ ≠ .user) (hst : Stage s' snap' p ℓ) : Commit s' snap' := by
  have hone : ∀ q, s'.loc q ≠ .user → q = p := by
    intro q hq
    by_contra hqp
    rw [hloc, update_of_ne hqp] at hq
    exact hqp (h.one q p hq hp)
  refine ⟨hheader, harea, fun _ _ => hcom, fun q r hq hr => (hone q hq).trans (hone r hr).symm,
    fun q hq => ?_, fun hall => ?_⟩
  · obtain rfl := hone q hq
    rwa [hloc, update_self]
  · have := hall p
    rw [hloc, update_self] at this
    exact absurd this hne

theorem keeps_setLoc (s : State) (q p : Nat) (ℓ : Loc) : Keeps s (s.setLoc q ℓ) p none :=
  ⟨rfl, fun _ _ _ _ _ => ⟨rfl, rfl, rfl, rfl, rfl, rfl, rfl⟩,
    fun _ _ hr => ⟨rfl, rfl, fun hn => absurd hr hn⟩⟩

theorem Stage.setLoc (h : Stage s snap p ℓ) (q : Nat) (ℓ' : Loc) :
    Stage (s.setLoc q ℓ') snap p ℓ :=
  h.frame (keeps_setLoc s q p ℓ') rfl rfl rfl (fun _ _ => id)
    (fun _ _ _ _ hj => ⟨hj.latest, hj.buf⟩) (fun _ _ => rfl) h.bounds.1 h.bounds.2

theorem area_setLoc (h : Area s)
    (hw : ∀ k, (s.loc p).writing = some k → ℓ.writing = some k) : Area (s.setLoc p ℓ) := by
  intro k hk r hl hin hf
  refine (h k hk r hl hin hf).imp_right fun hr => ?_
  by_cases hrp : r = p
  · subst hrp
    simpa using hw k hr
  · simpa [update_of_ne hrp] using hr

theorem Commit.goto (h : Commit s snap) (hp : s.loc p ≠ .user)
    (hw : ∀ k, (s.loc p).writing = some k → ℓ.writing = some k) (hne : ℓ ≠ .user)
    (hst : Stage s snap p ℓ) : Commit (s.setLoc p ℓ) snap :=
  h.own hp h.header (h.committing p hp) (area_setLoc h.area hw) rfl hne (hst.setLoc p ℓ)

theorem Stage.goto {ℓ' : Loc} (h : Stage s snap p ℓ)
    (hinst : ℓ'.installed s.log.lh.n = ℓ.installed s.log.lh.n)
    (hcopied : ℓ'.copied s.log.lh.n ≤ ℓ.copied s.log.lh.n)
    (hlogged : ℓ'.logged s.log.lh.n ≤ ℓ.logged s.log.lh.n) (hh : Local s snap p ℓ') :
    Stage s snap p ℓ' :=
  ⟨h.installed.trans hinst.symm, fun j h1 h2 => h.home j h1 (h2.trans_le hcopied),
    fun j h1 h2 => h.logged j h1 (h2.trans_le hlogged), hh⟩

/-! ## bread -/

theorem Commit.read {b : Nat} {next : Nat → Loc} (h : Commit s snap) (hc : Cache n s)
    (hs' : s.bread p s.dev b next = .ok s') (hp : s.loc p = ℓ) (hℓ : ℓ ≠ .user)
    (hready : s.phase p = .ready) (hw : ℓ.writing = none)
    (hnext : ∀ i, next i ≠ .user ∧ (next i).installed s.log.lh.n = ℓ.installed s.log.lh.n ∧
      (next i).copied s.log.lh.n = ℓ.copied s.log.lh.n ∧
      (next i).logged s.log.lh.n = ℓ.logged s.log.lh.n)
    (hhere : ∀ (t : State) (i : Nat), t.log = s.log → (∀ k c, Fresh s p k c → Fresh t p k c) →
      Fresh t p i b → Local t snap p (next i)) : Commit s' snap := by
  obtain ⟨i, hi, B, hB, rfl⟩ := bread_eq_ok hc.refs.lru hs'
  obtain ⟨hne, hst⟩ := h.line hp hℓ
  obtain ⟨hd, hb⟩ := hB.dev_blockno
  obtain ⟨hu, hinst, hcopied, hlogged⟩ := hnext i
  have hread : Stage ((s.setBuf i B).setPhase p (.acquiresleep i)) snap p (next i) := by
    refine ⟨hst.installed.trans hinst.symm, fun j h1 h2 => ?_, fun j h1 h2 => ?_,
      hhere _ i rfl (fun k c => (keeps_took hc hready hi hB p).fresh (by simp))
        ⟨hi, by simp [hd], by simp [hb], fun hn => absurd (.inl (by simp)) hn⟩⟩
    · have h2 : j < ℓ.copied s.log.lh.n := hcopied ▸ h2
      exact home_took hc hready hB hi h1 (h2.trans_le hst.bounds.1) (hst.home j h1 h2)
    · exact hst.logged j h1 (hlogged ▸ h2)
  refine h.own hne h.header (h.committing p hne)
    (area_setLoc (area_took h.area hc hready hi hB) fun k hk => ?_) rfl hu (hread.setLoc _ _)
  change (s.loc p).writing = some k at hk
  rw [hp, hw] at hk
  cases hk

/-! ## Lines that change a buffer -/

structure OnLine (s s' : State) (p i : Nat) (v : Phase) (ℓ : Loc) : Prop where
  onBuf : OnBuf s s' p i v
  lt : i < nbuf
  lock : (s.bufs i).lock = some p
  dev : (s'.bufs i).dev = (s.bufs i).dev
  blockno : (s'.bufs i).blockno = (s.bufs i).blockno
  log : s'.log = s.log
  loc : s'.loc = update s.loc p ℓ
  block : ∀ b, b ≠ (s.bufs i).blockno → s'.latest b = s.latest b ∧ s'.disk b = s.disk b

namespace OnLine

variable {v : Phase} {k b : Nat}

section

variable (h : OnLine s s' p i v ℓ)

include h

section

variable (hc : Cache n s) (hready : s.phase p = .ready)

include hc hready

theorem keeps : Keeps s s' p (some i) :=
  .of_onBuf hc.refs h.onBuf h.lt (hc.refs.lock i h.lt p h.lock) h.dev h.blockno h.block
    fun _ hr => absurd (hready ▸ hr) (Phase.not_reads_ready i)

theorem fresh (hki : k ≠ i) (hf : Fresh s p k b) : Fresh s' p k b :=
  (h.keeps hc hready).fresh (fun he => hki (Option.some.inj he)) hf

theorem owns (hki : k ≠ i) (hv : ¬ v.Reads k) (hf : Owns s p k b) :
    Owns s' p k b ∧ SameBuf s s' k := by
  refine (h.keeps hc hready).owns (fun he => hki (Option.some.inj he)) hf ?_
  rwa [h.onBuf.phase, update_self]

end

theorem self (hl : (s'.bufs i).lock = some p) (hv : ¬ v.Reads i) (hb : (s.bufs i).blockno = b) :
    Owns s' p i b :=
  ⟨h.lt, h.blockno.trans hb, hl, by rwa [h.onBuf.phase, update_self]⟩

theorem home {d : Block} (hne : s.log.lh.block j ≠ (s.bufs i).blockno) (hj : Home s j d) :
    Home s' j d :=
  hj.onBuf h.onBuf (by rw [h.log]) (h.block _ hne).1 fun _ hb =>
    absurd (hb.symm.trans h.blockno) hne

theorem area (hc : Cache n s) (ha : Area s)
    (hw : ∀ k, k ≠ i → (s.loc p).writing = some k → ℓ.writing = some k)
    (hself : ∀ r, (s'.bufs i).lock = some r → r = p ∧ (InLog s.log (s.bufs i).blockno →
      (s'.bufs i).data = s'.latest (s.bufs i).blockno ∨ ℓ.writing = some i)) : Area s' := by
  refine ha.onBuf hc.refs h.onBuf h.lt (hc.refs.lock i h.lt p h.lock) (by simp [h.log])
    (fun b hne => (h.block b hne).1) (fun r k hki hr => ?_) fun r hr hin _ => ?_
  · rw [h.loc]
    by_cases hrp : r = p
    · subst hrp
      rw [update_self]
      exact hw k hki hr
    · rwa [update_of_ne hrp]
  · obtain ⟨rfl, hdata⟩ := hself r hr
    rw [h.blockno] at hin ⊢
    rw [h.loc, update_self]
    exact hdata hin

theorem area_held {ℓ₀ : Loc} (hc : Cache n s) (ha : Area s) (hp : s.loc p = ℓ₀)
    (hw : ∀ k, k ≠ i → ℓ₀.writing = some k → ℓ.writing = some k)
    (hl : (s'.bufs i).lock = (s.bufs i).lock) (hself : InLog s.log (s.bufs i).blockno →
      (s'.bufs i).data = s'.latest (s.bufs i).blockno ∨ ℓ.writing = some i) : Area s' :=
  h.area hc ha (hp ▸ hw) fun _ hr => ⟨Option.some.inj (hr.symm.trans (hl.trans h.lock)), hself⟩

end

end OnLine

theorem Fresh.ready {k b : Nat} (h : Fresh s p k b) (hready : s.phase p = .ready) :
    (s.bufs k).lock = some p ∧ s.unsaved k = false ∧ (s.bufs k).data = s.latest b :=
  h.read (hready ▸ Phase.not_reads_ready k)

theorem Header.buf_ne (h : Header s.log) {l d u : Nat} (ht : t < s.log.lh.n) (hu : u < s.log.lh.n)
    (hl : (s.bufs l).blockno = s.log.start + t + 1) (hd : (s.bufs d).blockno = s.log.lh.block u) :
    l ≠ d := by
  intro he
  subst he
  exact h.not_inLog hu (hd ▸ hl ▸ h.inLog ht)

theorem onLine_store (hi : i < nbuf) (hl : (s.bufs i).lock = some p) (hready : s.phase p = .ready)
    (d : Block) (ℓ : Loc) : OnLine s ((s.store i d).setLoc p ℓ) p i .ready ℓ :=
  ⟨Cache.onHeld rfl rfl (fun k hk => update_of_ne hk ..) rfl hready, hi, hl,
    by simp [State.store], by simp [State.store], rfl, rfl, fun _ _ => ⟨rfl, rfl⟩⟩

theorem Commit.writeLogCopy (h : Commit s snap) (hc : Cache n s)
    (hp : s.loc p = .writeLogCopy t dst src) (hready : s.phase p = .ready) :
    Commit ((s.store dst (s.bufs src).data).setLoc p (.writeLogBwrite t dst src))
      (update snap t (s.bufs src).data) := by
  obtain ⟨hne, hst⟩ := h.line hp nofun
  obtain ⟨ht, hdst, hsrc⟩ := hst.here
  obtain ⟨hld, -, -⟩ := hdst.ready hready
  obtain ⟨hls, hus, hds⟩ := hsrc.ready hready
  have hline := onLine_store hdst.lt hld hready (s.bufs src).data (.writeLogBwrite t dst src)
  have hin : InLog s.log (s.bufs dst).blockno := hdst.blockno ▸ h.header.inLog ht
  have hout : ∀ j < s.log.lh.n, s.log.lh.block j ≠ (s.bufs dst).blockno :=
    fun j hj he => h.header.not_inLog hj (he ▸ hin)
  have hds' : src ≠ dst := (h.header.buf_ne ht ht hdst.blockno hsrc.blockno).symm
  refine h.own hne h.header (h.committing p hne) ?_ rfl nofun
    ⟨hst.installed, fun j h1 h2 => ?_, fun j h1 h2 => ?_, ht, ?_, ?_, hline.fresh hc hready hds' hsrc⟩
  · exact hline.area_held hc h.area hp nofun (by simp [State.store]) fun _ => .inr rfl
  · by_cases hjt : j = t
    · -- the block is in the cache as it was last released, and `src` is its buffer
      subst hjt
      rw [update_self]
      refine Home.onBuf ⟨hds.symm, fun k hk hd hb _ => ?_⟩ hline.onBuf rfl rfl fun _ hb => ?_
      · rw [hc.refs.unique k src hk hsrc.lt (hd.trans hsrc.dev.symm) (hb.trans hsrc.blockno.symm)
          (hd ▸ hc.refs.dev)]
      · exact absurd (hb.symm.trans hline.blockno) (hout j ht)
    · rw [update_of_ne hjt]
      have h2' : j < t + 1 := h2
      exact hline.home (hout j (by omega)) (hst.home j h1 (by change j < t; omega))
  · have h2' : j < t := h2
    rw [update_of_ne (by omega)]
    exact hst.logged j h1 h2'
  · exact hline.self (by simp [State.store, hld]) (Phase.not_reads_ready _) hdst.blockno
  · simp [State.store]

theorem Header.start_inLog {l : Log.State} (h : Header l) (hj : j < l.lh.n) : InLog l l.start := by
  have := h.size
  exact ⟨le_rfl, by omega⟩

theorem Commit.writeHeadStore (h : Commit s snap) (hc : Cache n s)
    (hp : s.loc p = .writeHeadStore last buf) (hready : s.phase p = .ready) (d : Block) :
    Commit ((s.store buf d).setLoc p (.writeHeadBwrite last buf)) snap := by
  obtain ⟨hne, hst⟩ := h.line hp nofun
  obtain ⟨hlast, hbuf⟩ := hst.here
  obtain ⟨hl, -, -⟩ := hbuf.ready hready
  have hline := onLine_store hbuf.lt hl hready d (.writeHeadBwrite last buf)
  refine h.own hne h.header (h.committing p hne) ?_ rfl nofun
    ⟨hst.installed, fun j h1 h2 => hline.home ?_ (hst.home j h1 h2), hst.logged, hlast, ?_⟩
  · exact hline.area_held hc h.area hp nofun (by simp [State.store]) fun _ => .inr rfl
  · rw [hbuf.blockno]
    exact fun he => h.header.not_inLog h2 (he ▸ h.header.start_inLog h2)
  · exact hline.self (by simp [State.store, hl]) (Phase.not_reads_ready _) hbuf.blockno

theorem Commit.installTransCopy (h : Commit s snap) (hc : Cache n s)
    (hp : s.loc p = .installTransCopy t lbuf dbuf) (hready : s.phase p = .ready) :
    Commit ((s.store dbuf (s.bufs lbuf).data).setLoc p (.installTransBwrite t lbuf dbuf)) snap := by
  obtain ⟨hne, hst⟩ := h.line hp nofun
  obtain ⟨ht, hlb, hdb⟩ := hst.here
  obtain ⟨-, -, hdata⟩ := hlb.ready hready
  obtain ⟨hl, -, -⟩ := hdb.ready hready
  have hline := onLine_store hdb.lt hl hready (s.bufs lbuf).data (.installTransBwrite t lbuf dbuf)
  have hout : ¬ InLog s.log (s.bufs dbuf).blockno := hdb.blockno ▸ h.header.not_inLog ht
  have hld : lbuf ≠ dbuf := h.header.buf_ne ht ht hlb.blockno hdb.blockno
  refine h.own hne h.header (h.committing p hne) ?_ rfl nofun
    ⟨hst.installed, fun j h1 h2 => ?_, hst.logged, ht, hline.fresh hc hready hld hlb, ?_, ?_⟩
  · exact hline.area_held hc h.area hp nofun (by simp [State.store]) fun hin => absurd hin hout
  · refine (hst.home j h1 h2).onBuf hline.onBuf rfl rfl fun _ _ hu => ?_
    simp [State.store] at hu
  · exact hline.self (by simp [State.store, hl]) (Phase.not_reads_ready _) hdb.blockno
  · simp only [State.store, setLoc_bufs, setBuf_bufs, update_self]
    rw [hdata, hst.logged t (by rw [hst.installed]; exact le_rfl) ht]

/-! ## bwrite -/

theorem bwrite_eq_ok (hs' : (s.bwrite p i).map (·.setLoc p ℓ) = .ok s') :
    (s.bufs i).lock = some p ∧ s' = { s with
      disk := update s.disk (s.bufs i).blockno (s.bufs i).data
      unsaved := update s.unsaved i false }.setLoc p ℓ := by
  obtain ⟨t, ht, rfl⟩ := Run.map_eq_ok.1 hs'
  unfold State.bwrite at ht
  split at ht
  · cases ht
    exact ⟨‹_›, rfl⟩
  · cases ht

theorem onLine_bwrite (hi : i < nbuf) (hl : (s.bufs i).lock = some p) (hready : s.phase p = .ready)
    (ℓ : Loc) : OnLine s ({ s with
      disk := update s.disk (s.bufs i).blockno (s.bufs i).data
      unsaved := update s.unsaved i false }.setLoc p ℓ) p i .ready ℓ :=
  ⟨Cache.onHeld (update_eq_self i s.bufs).symm rfl
      (fun _ hk => update_of_ne hk ..) rfl hready, hi, hl, rfl, rfl, rfl, rfl,
    fun _ hne => ⟨rfl, update_of_ne hne ..⟩⟩

section

variable (h : Commit s snap) (hc : Cache n s)

include h hc

theorem Commit.bwriteLog {ℓ₀ : Loc} {b : Nat} (hs' : (s.bwrite p i).map (·.setLoc p ℓ) = .ok s')
    (hp : s.loc p = ℓ₀) (hne : ℓ₀ ≠ .user) (hne' : ℓ ≠ .user) (hready : s.phase p = .ready)
    (hw : ℓ₀.writing = some i) (hw' : ℓ.writing = some i) (ho : Owns s p i b)
    (hb : ∀ j < s.log.lh.n, InLog s.log b)
    (hinst : ℓ.installed s.log.lh.n = ℓ₀.installed s.log.lh.n)
    (hcopied : ℓ.copied s.log.lh.n = ℓ₀.copied s.log.lh.n)
    (hlogged : ℓ.logged s.log.lh.n = ℓ₀.logged s.log.lh.n)
    (hhere : ∀ t : State, t.log = s.log → (∀ k c, k ≠ i → Fresh s p k c → Fresh t p k c) →
      Owns t p i b → t.unsaved i = false → (t.bufs i).data = (s.bufs i).data →
      Local s snap p ℓ₀ → Local t snap p ℓ) : Commit s' snap := by
  obtain ⟨hl, rfl⟩ := bwrite_eq_ok hs'
  have hst := h.stage p (hp ▸ hne)
  rw [hp] at hst
  have hline := onLine_bwrite ho.lt hl hready ℓ
  refine h.own (hp ▸ hne) h.header (h.committing p (hp ▸ hne)) ?_ rfl hne'
    ⟨hst.installed.trans hinst.symm, fun j h1 h2 => ?_, fun j h1 h2 => ?_, ?_⟩
  · refine hline.area_held hc h.area hp (fun k hk hk' => ?_) rfl fun _ => .inr hw'
    rw [hw] at hk'
    exact absurd (Option.some.inj hk').symm hk
  · have hj : j < s.log.lh.n := (hcopied ▸ h2).trans_le hst.bounds.1
    refine hline.home (fun he => h.header.not_inLog hj ?_) (hst.home j h1 (hcopied ▸ h2))
    rw [he, ho.blockno]
    exact hb j hj
  · exact hst.logged j h1 (hlogged ▸ h2)
  · exact hhere _ rfl (fun k c hk => hline.fresh hc hready hk)
      (hline.self hl (Phase.not_reads_ready _) ho.blockno) (update_self ..) rfl hst.here

theorem Commit.writeLogBwrite (hp : s.loc p = .writeLogBwrite t dst src)
    (hready : s.phase p = .ready)
    (hs' : (s.bwrite p dst).map (·.setLoc p (.writeLogRelease t dst src)) = .ok s') :
    Commit s' snap := by
  obtain ⟨-, hst⟩ := h.line hp nofun
  obtain ⟨ht, ho, -, hsrc⟩ := hst.here
  have hds : src ≠ dst := (h.header.buf_ne ht ht ho.blockno hsrc.blockno).symm
  refine h.bwriteLog hc hs' hp nofun nofun hready rfl rfl ho
    (fun _ _ => h.header.inLog ht) rfl rfl rfl fun u hlog hfresh howns hun hdata hh => ?_
  obtain ⟨-, -, hsnap, -⟩ := hh
  simp only [Local, hlog]
  exact ⟨ht, howns, hdata.trans hsnap, hun, hfresh src _ hds hsrc⟩

theorem Commit.writeHeadBwrite (hp : s.loc p = .writeHeadBwrite last buf)
    (hready : s.phase p = .ready)
    (hs' : (s.bwrite p buf).map (·.setLoc p (.writeHeadRelease last buf)) = .ok s') :
    Commit s' snap := by
  obtain ⟨-, hst⟩ := h.line hp nofun
  obtain ⟨hlast, ho⟩ := hst.here
  refine h.bwriteLog hc hs' hp nofun nofun hready rfl rfl ho
    (fun _ hj => h.header.start_inLog hj) rfl rfl rfl fun u hlog _ howns hun _ _ => ?_
  simp only [Local, hlog]
  exact ⟨hlast, howns, hun⟩

theorem Commit.installTransBwrite (hp : s.loc p = .installTransBwrite t lbuf dbuf)
    (hready : s.phase p = .ready)
    (hs' : (s.bwrite p dbuf).map (·.setLoc p (.installTransUnpin t lbuf dbuf)) = .ok s') :
    Commit s' snap := by
  obtain ⟨hl, rfl⟩ := bwrite_eq_ok hs'
  obtain ⟨hne, hst⟩ := h.line hp nofun
  obtain ⟨ht, hlb, ho, hdata⟩ := hst.here
  have hline := onLine_bwrite ho.lt hl hready (.installTransUnpin t lbuf dbuf)
  have hout : ¬ InLog s.log (s.bufs dbuf).blockno := ho.blockno ▸ h.header.not_inLog ht
  have hld : lbuf ≠ dbuf := h.header.buf_ne ht ht hlb.blockno ho.blockno
  refine h.own hne h.header (h.committing p hne) ?_ rfl nofun
    ⟨hst.installed, fun j h1 h2 => ?_, hst.logged, ht, hline.fresh hc hready hld hlb,
      hline.self hl (Phase.not_reads_ready _) ho.blockno, update_self .., ?_⟩
  · exact hline.area_held hc h.area hp nofun rfl fun hin => absurd hin hout
  · refine (hst.home j h1 h2).onBuf hline.onBuf rfl rfl fun _ hb _ => ?_
    have hjt : j = t := h.header.block_inj h2 ht (hb.symm.trans ho.blockno)
    rw [hjt]
    exact hdata
  · change (s.bufs dbuf).data = update s.disk (s.bufs dbuf).blockno _ _
    rw [ho.blockno]
    exact (update_self (f := s.disk) ..).symm

end

/-! ## brelse -/

/-- What a line that calls `brelse` leaves behind. -/
structure Released (s s' : State) (p i : Nat) (ℓ : Loc) : Prop where
  line : OnLine s s' p i (.unref i) ℓ
  self : s'.bufs i = { s.bufs i with lock := none }
  latest : s'.latest = update s.latest (s.bufs i).blockno (s.bufs i).data
  unsaved : s'.unsaved = s.unsaved
  installed : s'.installed = s.installed

theorem released_of_brelse (hi : i < nbuf) (hready : s.phase p = .ready)
    (hs' : s.brelse p i ℓ = .ok s') : Released s s' p i ℓ := by
  unfold State.brelse at hs'
  split at hs'
  · rename_i hl
    cases hs'
    refine ⟨⟨Cache.onBuf rfl rfl rfl (fun _ _ => rfl) (by simp [hready, Phase.buf])
        fun k hk => (Option.some.inj hk).symm, hi, hl, by simp, by simp, rfl, rfl,
        fun b hne => ⟨update_of_ne hne .., rfl⟩⟩, by simp, rfl, rfl, rfl⟩
  · cases hs'

namespace Released

theorem area (h : Released s s' p i ℓ) (hc : Cache n s) (ha : Area s)
    (hw : ∀ k, k ≠ i → (s.loc p).writing = some k → ℓ.writing = some k) : Area s' := by
  refine h.line.area hc ha hw fun r hr => ?_
  rw [h.self] at hr
  cases hr

section

variable (h : Released s s' p i ℓ) (hd : (s.bufs i).data = s.latest (s.bufs i).blockno)

include h hd

theorem same : s'.latest = s.latest := by
  rw [h.latest, hd, update_eq_self]

theorem home_same {d : Block} (hj : Home s j d) : Home s' j d := by
  refine hj.onBuf h.line.onBuf (by rw [h.line.log]) (by rw [h.same hd]) fun hdev hb hu => ?_
  rw [h.self] at hdev hb ⊢
  exact hj.buf i h.line.lt hdev hb (h.unsaved ▸ hu)

end

end Released

section

variable (h : Commit s snap) (hc : Cache n s)

include h hc

theorem Commit.release {ℓ₀ : Loc} (hr : Released s s' p i ℓ) (hp : s.loc p = ℓ₀) (hℓ₀ : ℓ₀ ≠ .user)
    (hℓ : ℓ ≠ .user) (hw : ∀ k, k ≠ i → ℓ₀.writing = some k → ℓ.writing = some k)
    (hinst : ℓ.installed s.log.lh.n = ℓ₀.installed s.log.lh.n)
    (hhome : ∀ j, s.installed ≤ j → j < ℓ.copied s.log.lh.n → Home s' j (snap j))
    (hlogged : ∀ j, s.installed ≤ j → j < ℓ.logged s.log.lh.n →
      s'.latest (s.log.start + j + 1) = snap j) (hhere : Local s' snap p ℓ) : Commit s' snap := by
  obtain ⟨hne, hst⟩ := h.line hp hℓ₀
  have hlog := hr.line.log
  refine h.own hne (hlog ▸ h.header) (by rw [hlog]; exact h.committing p hne)
    (hr.area hc h.area (hp ▸ hw)) hr.line.loc hℓ
    ⟨by rw [hr.installed, hlog, hinst]; exact hst.installed, ?_, ?_, hhere⟩
  · rw [hr.installed, hlog]
    exact hhome
  · rw [hr.installed, hlog]
    exact hlogged

theorem Commit.writeLogRelease (hp : s.loc p = .writeLogRelease t dst src)
    (hready : s.phase p = .ready) (hs' : s.brelse p src (.writeLogReleaseTo t dst) = .ok s') :
    Commit s' snap := by
  obtain ⟨-, hst⟩ := h.line hp nofun
  obtain ⟨ht, ho, hsnap, hun, hsrc⟩ := hst.here
  have hr := released_of_brelse hsrc.lt hready hs'
  have hds : dst ≠ src := h.header.buf_ne ht ht ho.blockno hsrc.blockno
  have hsame : (s.bufs src).data = s.latest (s.bufs src).blockno := by
    rw [hsrc.blockno]
    exact (hsrc.ready hready).2.2
  obtain ⟨ho', hbuf⟩ := hr.line.owns hc hready hds (Phase.not_reads_unref _ _) ho
  refine h.release hc hr hp nofun nofun (fun _ _ => id) rfl
    (fun j h1 h2 => hr.home_same hsame (hst.home j h1 h2)) (fun j h1 h2 => ?_) ?_
  · rw [hr.same hsame]
    exact hst.logged j h1 h2
  · simp only [Local, hr.line.log]
    exact ⟨ht, ho', hbuf.data.trans hsnap, hbuf.unsaved.trans hun⟩

theorem Commit.writeLogReleaseTo (hp : s.loc p = .writeLogReleaseTo t dst)
    (hready : s.phase p = .ready) (hs' : s.brelse p dst (.writeLog (t + 1)) = .ok s') :
    Commit s' snap := by
  obtain ⟨-, hst⟩ := h.line hp nofun
  obtain ⟨ht, ho, hsnap, -⟩ := hst.here
  have hr := released_of_brelse ho.lt hready hs'
  refine h.release hc hr hp nofun nofun (fun k hk hk' => ?_) rfl (fun j h1 h2 => ?_)
    (fun j h1 h2 => ?_) ?_
  · exact absurd (Option.some.inj hk').symm hk
  · have h2' : j < t + 1 := h2
    refine hr.line.home (fun he => ?_) (hst.home j h1 h2)
    exact h.header.not_inLog (t := j) (by omega) (he ▸ ho.blockno ▸ h.header.inLog ht)
  · have h2' : j < t + 1 := h2
    rw [hr.latest, ho.blockno]
    by_cases hjt : j = t
    · rw [hjt, update_self, hsnap]
    · rw [update_of_ne (by omega)]
      exact hst.logged j h1 (by change j < t; omega)
  · simp only [Local, hr.line.log]
    exact ht

theorem Commit.writeHeadRelease (hp : s.loc p = .writeHeadRelease last buf)
    (hready : s.phase p = .ready)
    (hs' : s.brelse p buf (if last then .finish else .installTrans 0) = .ok s') :
    Commit s' snap := by
  obtain ⟨-, hst⟩ := h.line hp (by simp)
  obtain ⟨hlast, ho, -⟩ := hst.here
  have hr := released_of_brelse ho.lt hready hs'
  have hw : ∀ k, k ≠ buf → (Loc.writeHeadRelease last buf).writing = some k → False :=
    fun k hk hk' => hk (Option.some.inj hk').symm
  cases last with
  | true =>
    refine h.release hc hr hp (by simp) (by simp) (fun k hk hk' => absurd (hw k hk hk') id) rfl
      (fun j _ hj => absurd hj (Nat.not_lt_zero j)) (fun j _ hj => absurd hj (Nat.not_lt_zero j)) ?_
    simp only [Local, hr.line.log]
    exact hlast rfl
  | false =>
    refine h.release hc hr hp (by simp) (by simp) (fun k hk hk' => absurd (hw k hk hk') id) rfl
      (fun j h1 h2 => ?_) (fun j h1 h2 => ?_) (Nat.zero_le _)
    · refine hr.line.home (fun he => ?_) (hst.home j h1 h2)
      exact h.header.not_inLog h2 (he ▸ ho.blockno ▸ h.header.start_inLog h2)
    · rw [hr.latest, ho.blockno, update_of_ne (by omega)]
      exact hst.logged j h1 h2

theorem Commit.installTransRelease (hp : s.loc p = .installTransRelease t lbuf dbuf)
    (hready : s.phase p = .ready) (hs' : s.brelse p lbuf (.installTransReleaseDst t dbuf) = .ok s')
    : Commit s' snap := by
  obtain ⟨-, hst⟩ := h.line hp nofun
  obtain ⟨ht, hlb, ho, hun⟩ := hst.here
  have hr := released_of_brelse hlb.lt hready hs'
  have hld : dbuf ≠ lbuf := (h.header.buf_ne ht ht hlb.blockno ho.blockno).symm
  have hsame : (s.bufs lbuf).data = s.latest (s.bufs lbuf).blockno := by
    rw [hlb.blockno]
    exact (hlb.ready hready).2.2
  obtain ⟨ho', hbuf⟩ := hr.line.owns hc hready hld (Phase.not_reads_unref _ _) ho
  refine h.release hc hr hp nofun nofun nofun rfl
    (fun j h1 h2 => hr.home_same hsame (hst.home j h1 h2)) (fun j h1 h2 => ?_) ?_
  · rw [hr.same hsame]
    exact hst.logged j h1 h2
  · simp only [Local, hr.line.log]
    exact ⟨ht, ho', hbuf.unsaved.trans hun⟩

theorem Commit.installTransReleaseDst (hp : s.loc p = .installTransReleaseDst t dbuf)
    (hready : s.phase p = .ready) (hs' : s.brelse p dbuf (.installTrans (t + 1)) = .ok s') :
    Commit s' snap := by
  obtain ⟨-, hst⟩ := h.line hp nofun
  obtain ⟨ht, ho, -⟩ := hst.here
  have hr := released_of_brelse ho.lt hready hs'
  have hinst : s.installed = t + 1 := hst.installed
  refine h.release hc hr hp nofun nofun nofun rfl (fun j h1 h2 => ?_) (fun j h1 h2 => ?_) ?_
  · refine hr.line.home (fun he => ?_) (hst.home j h1 h2)
    have := h.header.block_inj h2 ht (he.trans ho.blockno)
    omega
  · rw [hr.latest, ho.blockno, update_of_ne]
    · exact hst.logged j h1 h2
    · exact fun he => h.header.not_inLog ht (he ▸ h.header.inLog h2)
  · simp only [Local, hr.line.log]
    exact ht

end

/-! ## The end of the commit -/

theorem blocks_drop {l : Log.LogHeader} (ht : t < l.n) :
    l.blocks.drop t = l.block t :: l.blocks.drop (t + 1) := by
  rw [List.drop_eq_getElem_cons (by simpa using ht)]
  simp [Log.LogHeader.blocks]

theorem Commit.installTransUnpin (h : Commit s snap) (hc : Cache n s)
    (hp : s.loc p = .installTransUnpin t lbuf dbuf) (hready : s.phase p = .ready) :
    Commit ((s.bunpin dbuf).setLoc p (.installTransRelease t lbuf dbuf)) snap := by
  obtain ⟨hne, hst⟩ := h.line hp (by simp)
  obtain ⟨ht, hlb, ho, hun, -⟩ := hst.here
  have hinst : s.installed = t := hst.installed
  have hline : OnLine s ((s.bunpin dbuf).setLoc p (.installTransRelease t lbuf dbuf)) p dbuf .ready
      (.installTransRelease t lbuf dbuf) :=
    ⟨Cache.onHeld rfl rfl (fun _ _ => rfl) rfl hready, ho.lt, ho.lock, by simp [State.bunpin],
      by simp [State.bunpin], rfl, rfl, fun _ _ => ⟨rfl, rfl⟩⟩
  have hld : lbuf ≠ dbuf := h.header.buf_ne ht ht hlb.blockno ho.blockno
  have hself : ((s.bunpin dbuf).setLoc p (.installTransRelease t lbuf dbuf)).bufs dbuf =
      { s.bufs dbuf with refcnt := (s.bufs dbuf).refcnt - 1 } := by simp [State.bunpin]
  have hinst' : ((s.bunpin dbuf).setLoc p (.installTransRelease t lbuf dbuf)).installed = t + 1 := by
    simp [State.bunpin, hinst]
  refine h.own hne h.header (h.committing p hne) ?_ rfl (by simp)
    ⟨hinst', fun j h1 h2 => ?_, fun j h1 h2 => ?_, ht, hline.fresh hc hready hld hlb, ?_, hun⟩
  · refine hline.area_held hc h.area hp (fun _ _ hk => by cases hk) (by rw [hself]) fun hin => ?_
    exact absurd (ho.blockno ▸ hin) (h.header.not_inLog ht)
  · rw [hinst'] at h1
    refine hline.home (fun he => ?_) (hst.home j (by omega) h2)
    have := h.header.block_inj h2 ht (he.trans ho.blockno)
    omega
  · rw [hinst'] at h1
    exact hst.logged j (by omega) h2
  · exact hline.self (by rw [hself]; exact ho.lock) (Phase.not_reads_ready _) ho.blockno

theorem Commit.clear (h : Commit s snap) (hp : s.loc p = .clear) :
    Commit ({ s with log := { s.log with lh := { s.log.lh with n := 0 } }, installed := 0 }.setLoc p
      (.writeHead true)) snap := by
  obtain ⟨hne, -⟩ := h.line hp nofun
  refine h.own hne ⟨List.nodup_nil, fun b hb => (nomatch hb), .inl rfl, h.header.quiet⟩
    (h.committing p hne) (area_setLoc ?_ fun k hk => ?_) rfl nofun
    ⟨rfl, fun j _ hj => absurd hj (Nat.not_lt_zero j), fun j _ hj => absurd hj (Nat.not_lt_zero j),
      fun _ => rfl⟩
  · exact h.area
  · change (s.loc p).writing = some k at hk
    rw [hp] at hk
    cases hk

theorem Commit.finish (h : Commit s snap) (hp : s.loc p = .finish) :
    Commit ({ s with log := { s.log with committing := false } }.setLoc p .user) snap := by
  obtain ⟨hne, hst⟩ := h.line hp nofun
  have hall : ∀ q, update s.loc p .user q = .user := by
    intro q
    by_cases hq : q = p
    · rw [hq, update_self]
    · rw [update_of_ne hq]
      by_contra hu
      exact hq (h.one q p hu hne)
  refine ⟨⟨h.header.nodup, h.header.outside, h.header.size, nofun⟩,
    area_setLoc ?_ fun k hk => ?_, fun q hq => absurd (hall q) hq, fun q _ hq => absurd (hall q) hq,
    fun q hq => absurd (hall q) hq, fun _ => hst.installed⟩
  · exact h.area
  · change (s.loc p).writing = some k at hk
    rw [hp] at hk
    cases hk

end Xv6.Bio
