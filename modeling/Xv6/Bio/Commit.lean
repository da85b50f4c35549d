/-
What the process that commits knows at each line: which buffers it holds, which blocks it has
copied to the log, and which it has installed.
-/
import Xv6.Bio.Steps

namespace Xv6.Bio

open Function
open Log (Block)

variable {l : Log.State} {j t : Nat} {v : Phase}

def Phase.Reads (i : Nat) (ph : Phase) : Prop := ph = .acquiresleep i ∨ ph = .fill i

theorem Phase.Reads.buf {i : Nat} {ph : Phase} (h : ph.Reads i) : ph.buf = some i := by
  rcases h with rfl | rfl <;> rfl

@[simp] theorem Phase.not_reads_ready (i : Nat) : ¬ Phase.ready.Reads i :=
  fun h => by rcases h with h | h <;> cases h

@[simp] theorem Phase.not_reads_unref (i j : Nat) : ¬ (Phase.unref j).Reads i :=
  fun h => by rcases h with h | h <;> cases h

/-- How many blocks of the header have been read for the log. -/
def Loc.copied (n : Nat) : Loc → Nat
  | .writeLog t | .writeLogFrom t _ | .writeLogCopy t _ _ => t
  | .writeLogBwrite t _ _ | .writeLogRelease t _ _ | .writeLogReleaseTo t _ => t + 1
  | .user | .commit | .finish => 0
  | _ => n

/-- How many of them are in the log. -/
def Loc.logged (n : Nat) : Loc → Nat
  | .writeLog t | .writeLogFrom t _ | .writeLogCopy t _ _ | .writeLogBwrite t _ _
  | .writeLogRelease t _ _ | .writeLogReleaseTo t _ => t
  | .user | .commit | .finish => 0
  | _ => n

/-- How many of them have been written home and unpinned. -/
def Loc.installed (n : Nat) : Loc → Nat
  | .installTrans t | .installTransDst t _ | .installTransCopy t _ _ | .installTransBwrite t _ _
  | .installTransUnpin t _ _ => t
  | .installTransRelease t _ _ | .installTransReleaseDst t _ => t + 1
  | .clear => n
  | _ => 0

/-- The buffer of the log that the process has stored to and not released. -/
def Loc.writing : Loc → Option Nat
  | .writeLogBwrite _ dst _ | .writeLogRelease _ dst _ | .writeLogReleaseTo _ dst => some dst
  | .writeHeadBwrite _ buf | .writeHeadRelease _ buf => some buf
  | _ => none

/-- The process holds the buffer of block `b`. -/
structure Owns (s : State) (p i b : Nat) : Prop where
  lt : i < nbuf
  blockno : (s.bufs i).blockno = b
  lock : (s.bufs i).lock = some p
  free : ¬ (s.phase p).Reads i

/-- The process has called `bread` for block `b`, and has not changed the buffer since. -/
structure Fresh (s : State) (p i b : Nat) : Prop where
  lt : i < nbuf
  dev : (s.bufs i).dev = s.dev
  blockno : (s.bufs i).blockno = b
  read : ¬ (s.phase p).Reads i →
    (s.bufs i).lock = some p ∧ s.unsaved i = false ∧ (s.bufs i).data = s.latest b

/-- Entry `j` of the header is for good: the block was last released as `d`, and a buffer with
other contents cannot be released. -/
structure Home (s : State) (j : Nat) (d : Block) : Prop where
  latest : s.latest (s.log.lh.block j) = d
  buf : ∀ i < nbuf, (s.bufs i).dev = s.dev → (s.bufs i).blockno = s.log.lh.block j →
    s.unsaved i = false → (s.bufs i).data = d

/-- What the process knows of the buffers at a line of the commit; `snap` are the contents of
the blocks of the header as they were copied to the log. -/
def Local (s : State) (snap : Nat → Block) (p : Nat) : Loc → Prop
  | .user | .commit | .clear => True
  | .finish => s.log.lh.n = 0
  | .writeLog t | .installTrans t => t ≤ s.log.lh.n
  | .writeLogFrom t dst => t < s.log.lh.n ∧ Fresh s p dst (s.log.start + t + 1)
  | .writeLogCopy t dst src => t < s.log.lh.n ∧ Fresh s p dst (s.log.start + t + 1) ∧
      Fresh s p src (s.log.lh.block t)
  | .writeLogBwrite t dst src => t < s.log.lh.n ∧ Owns s p dst (s.log.start + t + 1) ∧
      (s.bufs dst).data = snap t ∧ Fresh s p src (s.log.lh.block t)
  | .writeLogRelease t dst src => t < s.log.lh.n ∧ Owns s p dst (s.log.start + t + 1) ∧
      (s.bufs dst).data = snap t ∧ s.unsaved dst = false ∧ Fresh s p src (s.log.lh.block t)
  | .writeLogReleaseTo t dst => t < s.log.lh.n ∧ Owns s p dst (s.log.start + t + 1) ∧
      (s.bufs dst).data = snap t ∧ s.unsaved dst = false
  | .writeHead last => last = true → s.log.lh.n = 0
  | .writeHeadStore last buf => (last = true → s.log.lh.n = 0) ∧ Fresh s p buf s.log.start
  | .writeHeadBwrite last buf => (last = true → s.log.lh.n = 0) ∧ Owns s p buf s.log.start
  | .writeHeadRelease last buf => (last = true → s.log.lh.n = 0) ∧ Owns s p buf s.log.start ∧
      s.unsaved buf = false
  | .installTransDst t lbuf => t < s.log.lh.n ∧ Fresh s p lbuf (s.log.start + t + 1)
  | .installTransCopy t lbuf dbuf => t < s.log.lh.n ∧ Fresh s p lbuf (s.log.start + t + 1) ∧
      Fresh s p dbuf (s.log.lh.block t)
  | .installTransBwrite t lbuf dbuf => t < s.log.lh.n ∧ Fresh s p lbuf (s.log.start + t + 1) ∧
      Owns s p dbuf (s.log.lh.block t) ∧ (s.bufs dbuf).data = snap t
  | .installTransUnpin t lbuf dbuf => t < s.log.lh.n ∧ Fresh s p lbuf (s.log.start + t + 1) ∧
      Owns s p dbuf (s.log.lh.block t) ∧ s.unsaved dbuf = false ∧
      (s.bufs dbuf).data = s.disk (s.log.lh.block t)
  | .installTransRelease t lbuf dbuf => t < s.log.lh.n ∧ Fresh s p lbuf (s.log.start + t + 1) ∧
      Owns s p dbuf (s.log.lh.block t) ∧ s.unsaved dbuf = false
  | .installTransReleaseDst t dbuf => t < s.log.lh.n ∧ Owns s p dbuf (s.log.lh.block t) ∧
      s.unsaved dbuf = false

/-- Where the commit stands when its process is at `ℓ`. -/
structure Stage (s : State) (snap : Nat → Block) (p : Nat) (ℓ : Loc) : Prop where
  installed : s.installed = ℓ.installed s.log.lh.n
  home : ∀ j, s.installed ≤ j → j < ℓ.copied s.log.lh.n → Home s j (snap j)
  logged : ∀ j, s.installed ≤ j → j < ℓ.logged s.log.lh.n → s.latest (s.log.start + j + 1) = snap j
  here : Local s snap p ℓ

/-- A process that holds a block of the log and does not write it has not changed it. -/
def Area (s : State) : Prop :=
  ∀ i < nbuf, ∀ q, (s.bufs i).lock = some q → InLog s.log (s.bufs i).blockno →
    s.phase q ≠ .fill i →
    (s.bufs i).data = s.latest (s.bufs i).blockno ∨ (s.loc q).writing = some i

/-- The header of the log. -/
structure Header (l : Log.State) : Prop where
  nodup : l.lh.blocks.Nodup
  outside : ∀ b ∈ l.lh.blocks, ¬ InLog l b
  size : l.lh.n = 0 ∨ l.lh.n < l.size
  quiet : l.committing = true → l.outstanding = 0

structure Commit (s : State) (snap : Nat → Block) : Prop where
  header : Header s.log
  area : Area s
  committing : ∀ p, s.loc p ≠ .user → s.log.committing = true
  one : ∀ p q, s.loc p ≠ .user → s.loc q ≠ .user → p = q
  stage : ∀ p, s.loc p ≠ .user → Stage s snap p (s.loc p)
  rest : (∀ p, s.loc p = .user) → s.installed = 0

variable {n p q i : Nat} {s s' : State} {snap : Nat → Block}

theorem Header.block_mem (ht : t < l.lh.n) : l.lh.block t ∈ l.lh.blocks :=
  List.mem_map.2 ⟨t, List.mem_range.2 ht, rfl⟩

theorem Header.not_inLog (h : Header l) (ht : t < l.lh.n) :
    ¬ InLog l (l.lh.block t) := h.outside _ (Header.block_mem ht)

theorem Header.inLog (h : Header l) (ht : t < l.lh.n) : InLog l (l.start + t + 1) := by
  have := h.size
  exact ⟨by omega, by omega⟩

theorem Header.block_inj (h : Header l) (hj : j < l.lh.n) (ht : t < l.lh.n)
    (he : l.lh.block j = l.lh.block t) : j = t :=
  List.inj_on_of_nodup_map h.nodup (List.mem_range.2 hj) (List.mem_range.2 ht) he

theorem pending_block (hj : s.installed ≤ j) (hn : j < s.log.lh.n) :
    s.Pending (s.log.lh.block j) := by
  have hlen : j < s.log.lh.blocks.length := by simpa using hn
  have hmem : s.log.lh.blocks[j] ∈ s.log.lh.blocks.drop s.installed :=
    List.mem_drop_iff_getElem.2 ⟨j - s.installed, by omega, by congr 1; omega⟩
  simpa [State.Pending, Log.LogHeader.blocks] using hmem

/-! ## Steps that leave the buffers of a process alone -/

/-- Buffer `k`, its block and its flags are as they were. -/
structure SameBuf (s s' : State) (k : Nat) : Prop where
  blockno : (s'.bufs k).blockno = (s.bufs k).blockno
  lock : (s'.bufs k).lock = (s.bufs k).lock
  data : (s'.bufs k).data = (s.bufs k).data
  unsaved : s'.unsaved k = s.unsaved k
  latest : s'.latest (s.bufs k).blockno = s.latest (s.bufs k).blockno
  disk : s'.disk (s.bufs k).blockno = s.disk (s.bufs k).blockno

/-- The step does not touch what process `p` holds or waits for, but for buffer `x`. -/
structure Keeps (s s' : State) (p : Nat) (x : Option Nat) : Prop where
  dev : s'.dev = s.dev
  own : ∀ k < nbuf, some k ≠ x → (s.bufs k).lock = some p → ¬ (s.phase p).Reads k →
    (s'.bufs k).dev = (s.bufs k).dev ∧ SameBuf s s' k
  read : ∀ k < nbuf, (s.phase p).Reads k → (s'.bufs k).dev = (s.bufs k).dev ∧
    (s'.bufs k).blockno = (s.bufs k).blockno ∧ (¬ (s'.phase p).Reads k →
      (s'.bufs k).lock = some p ∧ s'.unsaved k = false ∧
        (s'.bufs k).data = s'.latest (s.bufs k).blockno)

namespace Keeps

variable {x : Option Nat} {b k : Nat}

theorem fresh (h : Keeps s s' p x) (hx : some k ≠ x) (hf : Fresh s p k b) : Fresh s' p k b := by
  have hb := hf.blockno
  by_cases hr : (s.phase p).Reads k
  · obtain ⟨hd, hb', hread⟩ := h.read k hf.lt hr
    exact ⟨hf.lt, by rw [hd, hf.dev, h.dev], hb'.trans hb, fun hn => hb ▸ hread hn⟩
  · obtain ⟨hl, hu, hdata⟩ := hf.read hr
    obtain ⟨hd, hsame⟩ := h.own k hf.lt hx hl hr
    refine ⟨hf.lt, by rw [hd, hf.dev, h.dev], hsame.blockno.trans hb, fun _ => ⟨?_, ?_, ?_⟩⟩
    · rw [hsame.lock, hl]
    · rw [hsame.unsaved, hu]
    · rw [hsame.data, hdata, ← hb, hsame.latest]

theorem owns (h : Keeps s s' p x) (hx : some k ≠ x) (hf : Owns s p k b)
    (hfree : ¬ (s'.phase p).Reads k) : Owns s' p k b ∧ SameBuf s s' k := by
  obtain ⟨-, hsame⟩ := h.own k hf.lt hx hf.lock hf.free
  exact ⟨⟨hf.lt, hsame.blockno.trans hf.blockno, hsame.lock.trans hf.lock, hfree⟩, hsame⟩

theorem all (h : Keeps s s' p (some i))
    (hi : i < nbuf → (s.bufs i).lock = some p → ¬ (s.phase p).Reads i →
      (s'.bufs i).dev = (s.bufs i).dev ∧ SameBuf s s' i) : Keeps s s' p none := by
  refine ⟨h.dev, fun k hk _ hl hr => ?_, h.read⟩
  by_cases hki : k = i
  · subst hki
    exact hi hk hl hr
  · exact h.own k hk (fun he => hki (Option.some.inj he)) hl hr

theorem of_onBuf (hR : Refs n s) (hs : OnBuf s s' q i v) (hi : i < nbuf)
    (hdi : (s.bufs i).dev = s.dev) (hd : (s'.bufs i).dev = (s.bufs i).dev)
    (hb : (s'.bufs i).blockno = (s.bufs i).blockno)
    (hblock : ∀ b, b ≠ (s.bufs i).blockno → s'.latest b = s.latest b ∧ s'.disk b = s.disk b)
    (hread : q = p → (s.phase p).Reads i → ¬ v.Reads i → (s'.bufs i).lock = some p ∧
      s'.unsaved i = false ∧ (s'.bufs i).data = s'.latest (s.bufs i).blockno) :
    Keeps s s' p (some i) := by
  refine ⟨hs.dev, fun k hk hx hl hr => ?_, fun k hk hr => ?_⟩
  · have hki : k ≠ i := fun he => hx (he ▸ rfl)
    have hne := hR.blockno_ne hk hi (hR.lock k hk p hl) hdi hki
    rw [hs.bufs k hki]
    refine ⟨rfl, ?_, ?_, ?_, hs.unsaved k hki, (hblock _ hne).1, (hblock _ hne).2⟩ <;>
      rw [hs.bufs k hki]
  · by_cases hqp : q = p
    · subst hqp
      obtain rfl := hs.old k hr.buf
      rw [hs.phase, update_self]
      exact ⟨hd, hb, hread rfl hr⟩
    · have hphase : s'.phase p = s.phase p := by rw [hs.phase, update_of_ne (Ne.symm hqp)]
      rw [hphase]
      by_cases hki : k = i
      · rw [hki]
        exact ⟨hd, hb, fun hn => absurd (hki ▸ hr) hn⟩
      · rw [hs.bufs k hki]
        exact ⟨rfl, rfl, fun hn => absurd hr hn⟩

end Keeps

theorem Home.onBuf {d : Block} (h : Home s j d) (hs : OnBuf s s' q i v) (hlh : s'.log.lh = s.log.lh)
    (hlatest : s'.latest (s.log.lh.block j) = s.latest (s.log.lh.block j))
    (hself : (s'.bufs i).dev = s.dev → (s'.bufs i).blockno = s.log.lh.block j →
      s'.unsaved i = false → (s'.bufs i).data = d) : Home s' j d := by
  refine ⟨by rw [hlh, hlatest, h.latest], fun k hk hd hb hu => ?_⟩
  rw [hlh] at hb
  rw [hs.dev] at hd
  by_cases hki : k = i
  · subst hki
    exact hself hd hb hu
  · rw [hs.bufs k hki] at hd hb ⊢
    rw [hs.unsaved k hki] at hu
    exact h.buf k hk hd hb hu

theorem Stage.frame {ℓ : Loc} (h : Stage s snap p ℓ) (hk : Keeps s s' p none)
    (hlh : s'.log.lh = s.log.lh) (hstart : s'.log.start = s.log.start)
    (hinst : s'.installed = s.installed)
    (hfree : ∀ k, (s.bufs k).lock = some p → (s'.phase p).Reads k → (s.phase p).Reads k)
    (hhome : ∀ j, s.installed ≤ j → j < s.log.lh.n → ∀ d, Home s j d → Home s' j d)
    (hlogged : ∀ j < s.log.lh.n,
      s'.latest (s.log.start + j + 1) = s.latest (s.log.start + j + 1))
    (hcopied : ℓ.copied s.log.lh.n ≤ s.log.lh.n) (hlog : ℓ.logged s.log.lh.n ≤ s.log.lh.n) :
    Stage s' snap p ℓ := by
  have hfresh : ∀ {k b}, Fresh s p k b → Fresh s' p k b := hk.fresh (by simp)
  have howns : ∀ {k b}, Owns s p k b → Owns s' p k b ∧ SameBuf s s' k := fun ho =>
    hk.owns (by simp) ho fun hr => ho.free (hfree _ ho.lock hr)
  refine ⟨by rw [hinst, hlh, h.installed], fun j h1 h2 => ?_, fun j h1 h2 => ?_, ?_⟩
  · rw [hinst] at h1
    rw [hlh] at h2
    exact hhome j h1 (h2.trans_le hcopied) _ (h.home j h1 h2)
  · rw [hinst] at h1
    rw [hlh] at h2
    rw [hstart, hlogged j (h2.trans_le hlog), h.logged j h1 h2]
  · have hh := h.here
    cases ℓ with
    | user | commit | clear => trivial
    | finish | writeLog | installTrans | writeHead =>
      simp only [Local, hlh] at hh ⊢
      exact hh
    | writeLogFrom | installTransDst | writeHeadStore =>
      simp only [Local, hlh, hstart] at hh ⊢
      exact ⟨hh.1, hfresh hh.2⟩
    | writeLogCopy | installTransCopy =>
      simp only [Local, hlh, hstart] at hh ⊢
      exact ⟨hh.1, hfresh hh.2.1, hfresh hh.2.2⟩
    | writeLogBwrite t dst src =>
      simp only [Local, hlh, hstart] at hh ⊢
      obtain ⟨ho, hs⟩ := howns hh.2.1
      exact ⟨hh.1, ho, hs.data.trans hh.2.2.1, hfresh hh.2.2.2⟩
    | writeLogRelease t dst src =>
      simp only [Local, hlh, hstart] at hh ⊢
      obtain ⟨ho, hs⟩ := howns hh.2.1
      exact ⟨hh.1, ho, hs.data.trans hh.2.2.1, hs.unsaved.trans hh.2.2.2.1, hfresh hh.2.2.2.2⟩
    | writeLogReleaseTo t dst =>
      simp only [Local, hlh, hstart] at hh ⊢
      obtain ⟨ho, hs⟩ := howns hh.2.1
      exact ⟨hh.1, ho, hs.data.trans hh.2.2.1, hs.unsaved.trans hh.2.2.2⟩
    | writeHeadBwrite =>
      simp only [Local, hlh, hstart] at hh ⊢
      exact ⟨hh.1, (howns hh.2).1⟩
    | writeHeadRelease =>
      simp only [Local, hlh, hstart] at hh ⊢
      obtain ⟨ho, hs⟩ := howns hh.2.1
      exact ⟨hh.1, ho, hs.unsaved.trans hh.2.2⟩
    | installTransBwrite t lbuf dbuf =>
      simp only [Local, hlh, hstart] at hh ⊢
      obtain ⟨ho, hs⟩ := howns hh.2.2.1
      exact ⟨hh.1, hfresh hh.2.1, ho, hs.data.trans hh.2.2.2⟩
    | installTransUnpin t lbuf dbuf =>
      simp only [Local, hlh, hstart] at hh ⊢
      obtain ⟨ho, hs⟩ := howns hh.2.2.1
      have hdisk := hs.disk
      rw [hh.2.2.1.blockno] at hdisk
      exact ⟨hh.1, hfresh hh.2.1, ho, hs.unsaved.trans hh.2.2.2.1,
        hs.data.trans (hh.2.2.2.2.trans hdisk.symm)⟩
    | installTransRelease t lbuf dbuf =>
      simp only [Local, hlh, hstart] at hh ⊢
      obtain ⟨ho, hs⟩ := howns hh.2.2.1
      exact ⟨hh.1, hfresh hh.2.1, ho, hs.unsaved.trans hh.2.2.2⟩
    | installTransReleaseDst t dbuf =>
      simp only [Local, hlh] at hh ⊢
      obtain ⟨ho, hs⟩ := howns hh.2.1
      exact ⟨hh.1, ho, hs.unsaved.trans hh.2.2⟩

theorem Stage.bounds {ℓ : Loc} (h : Stage s snap p ℓ) :
    ℓ.copied s.log.lh.n ≤ s.log.lh.n ∧ ℓ.logged s.log.lh.n ≤ s.log.lh.n := by
  have hh := h.here
  cases ℓ with
  | user | commit | finish => exact ⟨Nat.zero_le _, Nat.zero_le _⟩
  | writeLog => exact ⟨hh, hh⟩
  | writeLogFrom | writeLogCopy => exact ⟨hh.1.le, hh.1.le⟩
  | writeLogBwrite | writeLogRelease | writeLogReleaseTo => exact ⟨hh.1, hh.1.le⟩
  | _ => exact ⟨le_rfl, le_rfl⟩

theorem Commit.frame (h : Commit s snap) (hlog : s'.log = s.log) (hinst : s'.installed = s.installed)
    (hloc : s'.loc = s.loc) (harea : Area s')
    (hkeeps : ∀ p, s.loc p ≠ .user → Keeps s s' p none ∧
      ∀ k, (s.bufs k).lock = some p → (s'.phase p).Reads k → (s.phase p).Reads k)
    (hhome : s.log.committing = true → ∀ j, s.installed ≤ j → j < s.log.lh.n → ∀ d,
      Home s j d → Home s' j d)
    (hlogged : ∀ j < s.log.lh.n,
      s'.latest (s.log.start + j + 1) = s.latest (s.log.start + j + 1)) : Commit s' snap := by
  refine ⟨hlog ▸ h.header, harea, fun p hp => ?_, fun p q hp hq => ?_, fun p hp => ?_, fun hp => ?_⟩
  · rw [hlog]
    exact h.committing p (hloc ▸ hp)
  · exact h.one p q (hloc ▸ hp) (hloc ▸ hq)
  · rw [hloc] at hp ⊢
    have hst := h.stage p hp
    exact hst.frame (hkeeps p hp).1 (by rw [hlog]) (by rw [hlog]) hinst (hkeeps p hp).2
      (hhome (h.committing p hp)) hlogged hst.bounds.1 hst.bounds.2
  · rw [hinst]
    exact h.rest (hloc ▸ hp)

theorem Area.onBuf (h : Area s) (hR : Refs n s) (hs : OnBuf s s' q i v) (hi : i < nbuf)
    (hdi : (s.bufs i).dev = s.dev) (hlog : s'.log.start = s.log.start ∧ s'.log.size = s.log.size)
    (hlatest : ∀ b, b ≠ (s.bufs i).blockno → s'.latest b = s.latest b)
    (hwriting : ∀ r k, k ≠ i → (s.loc r).writing = some k → (s'.loc r).writing = some k)
    (hself : ∀ r, (s'.bufs i).lock = some r → InLog s.log (s'.bufs i).blockno →
      s'.phase r ≠ .fill i →
      (s'.bufs i).data = s'.latest (s'.bufs i).blockno ∨ (s'.loc r).writing = some i) :
    Area s' := by
  intro k hk r hl hin hph
  have hin' : InLog s.log (s'.bufs k).blockno := by
    unfold InLog at hin ⊢
    rwa [hlog.1, hlog.2] at hin
  by_cases hki : k = i
  · subst hki
    exact hself r hl hin' hph
  · rw [hs.bufs k hki] at hl hin' ⊢
    rw [hlatest _ (hR.blockno_ne hk hi (hR.lock k hk r hl) hdi hki)]
    refine (h k hk r hl hin' fun hf => ?_).imp_right (hwriting r k hki)
    by_cases hrq : r = q
    · subst hrq
      exact hki (hs.old k (by rw [hf]; rfl))
    · rw [hs.phase, update_of_ne hrq] at hph
      exact hph hf

theorem Commit.onBuf (h : Commit s snap) (hR : Refs n s) (hs : OnBuf s s' q i v) (hi : i < nbuf)
    (hdi : (s.bufs i).dev = s.dev) (hd : (s'.bufs i).dev = (s.bufs i).dev)
    (hb : (s'.bufs i).blockno = (s.bufs i).blockno) (hlog : s'.log = s.log)
    (hinst : s'.installed = s.installed) (hloc : s'.loc = s.loc)
    (hblock : ∀ b, b ≠ (s.bufs i).blockno → s'.latest b = s.latest b ∧ s'.disk b = s.disk b)
    (hself : ∀ r, (s'.bufs i).lock = some r → InLog s.log (s'.bufs i).blockno →
      s'.phase r ≠ .fill i →
      (s'.bufs i).data = s'.latest (s'.bufs i).blockno ∨ (s'.loc r).writing = some i)
    (hread : (s.phase q).Reads i → ¬ v.Reads i → (s'.bufs i).lock = some q ∧
      s'.unsaved i = false ∧ (s'.bufs i).data = s'.latest (s.bufs i).blockno)
    (hfree : s.loc q ≠ .user → (s.bufs i).lock = some q → v.Reads i → (s.phase q).Reads i)
    (hown : ∀ p, s.loc p ≠ .user → (s.bufs i).lock = some p → ¬ (s.phase p).Reads i →
      SameBuf s s' i) (hhome : s.log.committing = true → ∀ j, s.installed ≤ j → j < s.log.lh.n →
      s.log.lh.block j = (s.bufs i).blockno → ∀ d, Home s j d →
      s'.latest (s.bufs i).blockno = d ∧ (s'.unsaved i = false → (s'.bufs i).data = d))
    (hlogged : ∀ j < s.log.lh.n, s.log.start + j + 1 = (s.bufs i).blockno →
      s'.latest (s.bufs i).blockno = s.latest (s.bufs i).blockno) : Commit s' snap := by
  refine h.frame hlog hinst hloc ?_ (fun p hp => ⟨?_, fun k hl hr => ?_⟩) (fun hc j h1 h2 d hj => ?_)
    fun j hj => ?_
  · exact h.area.onBuf hR hs hi hdi (by simp [hlog]) (fun b hne => (hblock b hne).1)
      (fun r k _ hw => hloc ▸ hw) hself
  · exact (Keeps.of_onBuf hR hs hi hdi hd hb hblock fun hqp => hqp ▸ hread).all
      fun _ hl hr => ⟨hd, hown p hp hl hr⟩
  · by_cases hpq : p = q
    · subst hpq
      rw [hs.phase, update_self] at hr
      obtain rfl := hs.new k hr.buf
      exact hfree hp hl hr
    · rwa [hs.phase, update_of_ne hpq] at hr
  · by_cases hbi : s.log.lh.block j = (s.bufs i).blockno
    · obtain ⟨hlat, hdata⟩ := hhome hc j h1 h2 hbi d hj
      exact hj.onBuf hs (by rw [hlog]) (by rw [hbi, hlat, ← hbi, hj.latest]) fun _ _ => hdata
    · exact hj.onBuf hs (by rw [hlog]) (hblock _ hbi).1 fun _ hb' => absurd (hb'.symm.trans hb) hbi
  · by_cases hbi : s.log.start + j + 1 = (s.bufs i).blockno
    · rw [hbi]
      exact hlogged j hj hbi
    · exact (hblock _ hbi).1

end Xv6.Bio
