/-
Crash atomicity of the log.

The invariant that survives every crash is `Recoverable spec d`: the log on disk
`d` holds some list of writes, empty when the header is clear, and performing
them makes every block outside the log equal to `spec`.  Writing the header of a
transaction is the one block write that changes `spec`.
-/
import Mathlib.Data.List.Dedup
import Xv6.Lib.Writes
import Xv6.Log.Disk

namespace Xv6.Log

open Bytes Crash Writes Function List

variable {m : Machine} {k size start : Nat} {p' : Power} {l : State}

variable {d disk spec : Disk} {fuel i : Nat} {view : Nat → Block} {p : Power} {log : State}

/-! ## Machine primitives -/

namespace Machine

@[simp] theorem view_bread (m : Machine) (b : Nat) :
    ({ m with cache := update m.cache b (some (m.view b)) } : Machine).view = m.view := by
  funext x
  by_cases hx : x = b
  · subst hx
    simp [view]
  · simp [view, update_of_ne hx]

theorem view_bwrite (m : Machine) (b : Nat) (d : Block) (k : Nat) :
    ({ m with
        disk := update m.disk b d
        cache := update m.cache b (some d)
        fuel := k } : Machine).view = update m.view b d := by
  funext x
  by_cases hx : x = b
  · subst hx
    simp [view]
  · simp [view, update_of_ne hx]

end Machine

/-- An assertion that only looks at the disk, the contents `bread` would return,
the log and the remaining power. -/
def At (A : Disk → (Nat → Block) → State → Nat → Prop) (m : Machine) : Prop :=
  A m.disk m.view m.log m.fuel

variable {A : Disk → (Nat → Block) → State → Nat → Prop} {C : Disk → Prop}

theorem getLog_triple : Triple (At A) getLog (fun l m => At A m ∧ l = m.log) C :=
  fun _ h => ⟨h, rfl⟩

theorem bread_triple (b : Nat) :
    Triple (At A) (bread b) (fun v m => At A m ∧ v = m.view b) C := by
  intro m h
  show At A { m with cache := update m.cache b (some (m.view b)) } ∧ _
  unfold At
  rw [Machine.view_bread]
  exact ⟨h, rfl⟩

theorem bwrite_triple {b : Nat} {d : Block} {P : Machine → Prop}
    (hcrash : ∀ m, P m → m.fuel = 0 → C m.disk)
    (hstep : ∀ m k, P m → m.fuel = k + 1 →
      A (update m.disk b d) (update m.view b d) m.log k) :
    Triple P (bwrite b d) (fun _ => At A) C := by
  intro m h
  unfold bwrite
  cases hf : m.fuel with
  | zero => exact hcrash m h hf
  | succ k =>
    show A _ _ _ _
    rw [Machine.view_bwrite]
    exact hstep m k h hf

/-! ## The log on disk -/

def InLog (start size x : Nat) : Prop := start ≤ x ∧ x < start + size

instance (start size x : Nat) : Decidable (InLog start size x) :=
  inferInstanceAs (Decidable (_ ∧ _))

/-- The log of disk `d` holds the writes `ws`. -/
structure OnLog (start size : Nat) (d : Disk) (ws : List (Nat × Block)) : Prop where
  count : (decodeHeader (d start)).n = ws.length
  keys : ∀ i (h : i < ws.length), (decodeHeader (d start)).block i = ws[i].1
  data : ∀ i (h : i < ws.length), d (start + i + 1) = ws[i].2
  home : ∀ w ∈ ws, ¬ InLog start size w.1
  fits : ws.length < size ∧ ws.length ≤ logsize

def Recoverable (start size : Nat) (spec d : Disk) : Prop :=
  ∃ ws, OnLog start size d ws ∧ ∀ x, ¬ InLog start size x → applyWrites ws d x = spec x

theorem onLog_nil (hsize : 0 < size) (h : (decodeHeader (d start)).n = 0) :
    OnLog start size d [] where
  count := h
  keys := fun _ hi => absurd hi (Nat.not_lt_zero _)
  data := fun _ hi => absurd hi (Nat.not_lt_zero _)
  home := fun _ hw => by cases hw
  fits := ⟨hsize, Nat.zero_le _⟩

theorem OnLog.congr {d' : Disk} {ws : List (Nat × Block)} (h : OnLog start size d ws)
    (heq : ∀ x, InLog start size x → d' x = d x) : OnLog start size d' ws := by
  have hfit := h.fits
  have hstart : d' start = d start := heq start ⟨Nat.le_refl _, by omega⟩
  refine ⟨?_, ?_, ?_, h.home, h.fits⟩
  · rw [hstart]
    exact h.count
  · rw [hstart]
    exact h.keys
  · intro i hi
    rw [heq (start + i + 1) ⟨by omega, by omega⟩]
    exact h.data i hi

theorem clear_recoverable (hsize : 0 < size) (h : (decodeHeader (d start)).n = 0)
    (hspec : ∀ x, ¬ InLog start size x → d x = spec x) : Recoverable start size spec d :=
  ⟨[], onLog_nil hsize h, hspec⟩

theorem not_inLog_ne {x y : Nat} (hx : ¬ InLog start size x) (hy : InLog start size y) : y ≠ x :=
  fun e => hx (e ▸ hy)

/-! ## Installing the log and clearing the header -/

section Install

variable {start size : Nat} {ws : List (Nat × Block)}

/-- After `i` iterations of `install_trans` on a disk that was `d`. -/
def Installing (start size : Nat) (ws : List (Nat × Block)) (d : Disk) (l : State) (k i : Nat) :
    Disk → (Nat → Block) → State → Nat → Prop :=
  fun disk view log fuel =>
    log = l ∧ fuel + i = k ∧
    (∀ x, InLog start size x → disk x = d x) ∧
    (∀ x, ¬ InLog start size x → disk x = applyWrites (ws.take i) d x) ∧
    (∀ x, x ∉ (ws.drop i).map Prod.fst → view x = disk x)

section

variable (h : Installing start size ws d l k i disk view log fuel) (hd : OnLog start size d ws)

include h hd

theorem Installing.onLog : OnLog start size disk ws :=
  hd.congr h.2.2.1

theorem Installing.recoverable (hspec : ∀ x, ¬ InLog start size x → applyWrites ws d x = spec x) :
    Recoverable start size spec disk := by
  refine ⟨ws, h.onLog hd, fun x hx => ?_⟩
  rw [← hspec x hx, ← applyWrites_take ws i d]
  apply applyWrites_congr
  intro _
  exact h.2.2.2.1 x hx

end

theorem Installing.step (hi : i < ws.length) (hd : OnLog start size d ws) {v : Block}
    (h : Installing start size ws d l k i disk view l (fuel + 1)) (hv : v = view (start + i + 1)) :
    Installing start size ws d l k (i + 1) (update disk ws[i].1 v)
      (update view ws[i].1 v) l fuel := by
  obtain ⟨_, hfuel, hin, hout, hview⟩ := h
  have hfit := hd.fits
  have hmem : ws[i] ∈ ws := getElem_mem hi
  have hlog : InLog start size (start + i + 1) := ⟨by omega, by omega⟩
  -- The log block is not one of the blocks still to install, so the cache agrees.
  have hval : v = ws[i].2 := by
    rw [hv, hview, hin _ hlog, hd.data i hi]
    intro hx
    obtain ⟨w, hw, hwx⟩ := mem_map.mp hx
    exact hd.home w (mem_of_mem_drop hw) (hwx ▸ hlog)
  refine ⟨rfl, by omega, ?_, ?_, ?_⟩
  · intro x hx
    rw [update_of_ne (not_inLog_ne (hd.home _ hmem) hx)]
    exact hin x hx
  · intro x hx
    rw [take_succ_eq_append_getElem hi, applyWrites_snoc, hval]
    by_cases hxi : x = ws[i].1
    · rw [hxi, update_self, update_self]
    · rw [update_of_ne hxi, update_of_ne hxi]
      exact hout x hx
  · intro x hx
    by_cases hxi : x = ws[i].1
    · rw [hxi, update_self, update_self]
    · rw [update_of_ne hxi, update_of_ne hxi]
      apply hview
      rw [drop_eq_getElem_cons hi, map_cons, mem_cons, not_or]
      exact ⟨hxi, hx⟩

/-- The log is empty on disk and in memory, the home blocks hold `spec` and the
cache agrees with the disk. -/
def Clean (start size : Nat) (spec : Disk) (l : State) :
    Disk → (Nat → Block) → State → Nat → Prop :=
  fun disk view log _ =>
    log = { l with lh := { l.lh with n := 0 } } ∧ (decodeHeader (disk start)).n = 0 ∧
    (∀ x, ¬ InLog start size x → disk x = spec x) ∧ ∀ x, view x = disk x

theorem decode_encodeHeader_zero (block : Nat → Nat) (b : Block) :
    (decodeHeader (encodeHeader { n := 0, block := block } b)).n = 0 :=
  (decode_encodeHeader b (Nat.zero_le _) fun _ hi => absurd hi (Nat.not_lt_zero _)).1

/-- The common end of `commit` and `recover_from_log`. -/
def installAndClear : M Unit := do
  installTrans
  clearHeader
  writeHead

section

variable (hd : OnLog start size d ws) (hstart : l.start = start) (hn : l.lh.n = ws.length)
  (hkeys : ∀ i (h : i < ws.length), l.lh.block i = ws[i].1)
  (hspec : ∀ x, ¬ InLog start size x → applyWrites ws d x = spec x)

include hd hstart hn hkeys hspec

theorem installTrans_triple :
    Triple (At (Installing start size ws d l k 0)) installTrans
      (fun _ => At (Installing start size ws d l k ws.length))
      (fun c => Recoverable start size spec c ∧ k < ws.length) := by
  refine Triple.bind getLog_triple fun l' => ?_
  intro m hm
  obtain ⟨hm, rfl⟩ := hm
  have hl : m.log = l := hm.1
  rw [hl, hn, hstart]
  refine Triple.loop (I := fun i => At (Installing start size ws d l k i)) ?_ m hm
  intro i hi
  refine Triple.bind (bread_triple _) fun v => ?_
  refine Triple.bind (Q := fun _ m => At (Installing start size ws d l k i) m ∧
    v = m.view (start + i + 1)) ?_ fun _ => ?_
  · exact (bread_triple (A := fun disk view log fuel =>
      Installing start size ws d l k i disk view log fuel ∧ v = view (start + i + 1))
        (l.lh.block i)).post fun _ _ h => h.1
  · rw [hkeys i hi]
    refine bwrite_triple ?_ ?_
    · intro m hm hf
      have hfuel : m.fuel + i = k := hm.1.2.1
      exact ⟨Installing.recoverable hm.1 hd hspec, by omega⟩
    · intro m f hm hf
      have hlog : m.log = l := hm.1.1
      have hin : Installing start size ws d l k i m.disk m.view l (f + 1) := by
        have := hm.1
        unfold At at this
        rwa [hf, hlog] at this
      rw [hlog]
      exact Installing.step hi hd hin hm.2

theorem installAndClear_triple :
    Triple (At (Installing start size ws d l k 0)) installAndClear
      (fun _ => At (Clean start size spec l))
      (fun c => Recoverable start size spec c ∧ k ≤ ws.length) := by
  refine Triple.bind ((installTrans_triple hd hstart hn hkeys hspec).crash
    fun c hc => ⟨hc.1, Nat.le_of_lt hc.2⟩) fun _ => ?_
  -- With `n` cleared in memory everything else is as after the last iteration.
  let l₀ : State := { l with lh := { l.lh with n := 0 } }
  have hclear : Triple (At (Installing start size ws d l k ws.length)) clearHeader
      (fun _ => At fun disk view log fuel =>
        log = l₀ ∧ Installing start size ws d l k ws.length disk view l fuel)
      (fun c => Recoverable start size spec c ∧ k ≤ ws.length) := by
    refine Triple.bind getLog_triple fun l' => ?_
    rintro m ⟨hm, rfl⟩
    have hl : m.log = l := hm.1
    refine ⟨by rw [hl], ?_⟩
    unfold At at hm
    rwa [hl] at hm
  refine Triple.bind hclear fun _ => ?_
  refine Triple.bind getLog_triple fun l' => ?_
  rintro m ⟨hm, rfl⟩
  have hlog : m.log = l₀ := hm.1
  rw [hlog, show l₀.start = start from hstart]
  refine Triple.bind (bread_triple (A := fun disk view log fuel =>
    log = l₀ ∧ Installing start size ws d l k ws.length disk view l fuel) start) (fun v => ?_) m hm
  refine bwrite_triple ?_ ?_
  · rintro m ⟨hm, _⟩ hf
    have hfuel : m.fuel + ws.length = k := hm.2.2.1
    exact ⟨Installing.recoverable hm.2 hd hspec, by omega⟩
  · rintro m f ⟨⟨hlog, _, _, _, hout, hview⟩, _⟩ _
    have hfit := hd.fits
    refine ⟨hlog, ?_, ?_, ?_⟩
    · rw [update_self]
      exact decode_encodeHeader_zero _ _
    · intro x hx
      have hne : x ≠ start := fun e => hx ⟨by omega, by omega⟩
      rw [update_of_ne hne, hout x hx, take_length]
      exact hspec x hx
    · intro x
      by_cases hx : x = start
      · rw [hx, update_self, update_self]
      · rw [update_of_ne hx, update_of_ne hx]
        apply hview
        rw [drop_length]
        exact not_mem_nil

end

end Install

/-! ## Recovery -/

/-- Recovery on a recoverable disk: a crash leaves a disk that is recoverable to
the same contents, and it cannot happen once all writes are done. -/
theorem recoverFromLog_triple {ws : List (Nat × Block)} (hd : OnLog start size d ws)
    (hspec : ∀ x, ¬ InLog start size x → applyWrites ws d x = spec x) :
    Triple (fun m => m = bootMachine start size d k) recoverFromLog
      (fun _ => At (Clean start size spec
        { (bootMachine start size d k).log with lh := decodeHeader (d start) }))
      (fun c => Recoverable start size spec c ∧ k ≤ ws.length) := by
  refine Triple.bind (Q := fun _ => At (Installing start size ws d
    { (bootMachine start size d k).log with lh := decodeHeader (d start) } k 0)) ?_ fun _ =>
      installAndClear_triple hd rfl hd.count hd.keys hspec
  rintro m rfl
  refine ⟨rfl, rfl, fun _ _ => rfl, fun _ _ => rfl, fun x _ => ?_⟩
  simp only [Machine.view, bootMachine]
  by_cases hx : x = start
  · subst hx
    simp
  · simp [update_of_ne hx]

theorem initlog_of_recoverable (h : Recoverable start size spec d) (k : Nat) :
    (∃ m, initlog start size d k = .ok m ∧ m.log.start = start ∧ m.log.size = size ∧
      m.log.outstanding = 0 ∧ m.log.committing = false ∧
      At (Clean start size spec m.log) m) ∨
    (∃ c, initlog start size d k = .error c ∧ Recoverable start size spec c ∧ k ≤ logsize) := by
  obtain ⟨ws, hd, hspec⟩ := h
  have hrun := recoverFromLog_triple (k := k) hd hspec (bootMachine start size d k) rfl
  unfold initlog
  cases hr : recoverFromLog (bootMachine start size d k) with
  | error c =>
    rw [hr] at hrun
    exact Or.inr ⟨c, rfl, hrun.1, Nat.le_trans hrun.2 hd.fits.2⟩
  | ok p =>
    rw [hr] at hrun
    have hlog : p.2.log = _ := hrun.1
    refine Or.inl ⟨p.2, rfl, ?_, ?_, ?_, ?_, ?_⟩
    · rw [hlog]; rfl
    · rw [hlog]; rfl
    · rw [hlog]; rfl
    · rw [hlog]; rfl
    · exact ⟨by rw [hlog], hrun.2.1, hrun.2.2.1, hrun.2.2.2⟩

/-! ## Commit -/

section Commit

variable {start size : Nat} {d₀ : Disk} {v : Nat → Block} {l : State} {k : Nat}

def pending (l : State) (v : Nat → Block) : List (Nat × Block) :=
  l.lh.blocks.map fun b => (b, v b)

@[simp] theorem length_pending (l : State) (v : Nat → Block) : (pending l v).length = l.lh.n := by
  simp [pending]

theorem getElem_pending (h : i < (pending l v).length) :
    (pending l v)[i] = (l.lh.block i, v (l.lh.block i)) := by
  simp [pending, LogHeader.blocks]

/-- What `commit` finds: a clear log on disk, home blocks `spec` except for the
cached blocks of the transaction, and a transaction that fits. -/
structure Ready (start size : Nat) (spec d₀ : Disk) (v : Nat → Block) (l : State) : Prop where
  start_eq : l.start = start
  clear : (decodeHeader (d₀ start)).n = 0
  disk : ∀ x, ¬ InLog start size x → d₀ x = spec x
  cached : ∀ x, x ∉ l.lh.blocks → v x = d₀ x
  home : ∀ b ∈ l.lh.blocks, b < 2 ^ 32 ∧ ¬ InLog start size b
  fits : l.lh.n < size ∧ l.lh.n ≤ logsize

def Logging (start size : Nat) (d₀ : Disk) (v : Nat → Block) (l : State) (k i : Nat) :
    Disk → (Nat → Block) → State → Nat → Prop :=
  fun disk view log fuel =>
    log = l ∧ fuel + i = k ∧ disk start = d₀ start ∧
    (∀ x, ¬ InLog start size x → disk x = d₀ x) ∧
    (∀ j, j < i → disk (start + j + 1) = v (l.lh.block j)) ∧
    (∀ x, ¬ InLog start size x → view x = v x) ∧
    ∀ x, InLog start size x → view x = disk x

section

variable (hr : Ready start size spec d₀ v l)

include hr

theorem Logging.recoverable (h : Logging start size d₀ v l k i disk view log fuel) :
    Recoverable start size spec disk := by
  have hfit := hr.fits
  refine clear_recoverable (by omega) ?_ fun x hx => ?_
  · rw [h.2.2.1]
    exact hr.clear
  · rw [h.2.2.2.1 x hx]
    exact hr.disk x hx

theorem Logging.step (hi : i < l.lh.n) {src : Block}
    (h : Logging start size d₀ v l k i disk view l (fuel + 1)) (hsrc : src = view (l.lh.block i)) :
    Logging start size d₀ v l k (i + 1) (update disk (start + i + 1) src)
      (update view (start + i + 1) src) l fuel := by
  obtain ⟨_, hfuel, hhead, hout, hdone, hview, hcache⟩ := h
  have hfit := hr.fits
  have hlog : InLog start size (start + i + 1) := ⟨by omega, by omega⟩
  have hmem : l.lh.block i ∈ l.lh.blocks :=
    mem_map.mpr ⟨i, mem_range.mpr hi, rfl⟩
  refine ⟨rfl, by omega, ?_, ?_, ?_, ?_, ?_⟩
  · rw [update_of_ne (by omega)]
    exact hhead
  · intro x hx
    rw [update_of_ne (not_inLog_ne hx hlog).symm]
    exact hout x hx
  · intro j hj
    by_cases hji : j = i
    · subst hji
      rw [update_self, hsrc]
      exact hview _ (hr.home _ hmem).2
    · rw [update_of_ne (by omega)]
      exact hdone j (by omega)
  · intro x hx
    rw [update_of_ne (not_inLog_ne hx hlog).symm]
    exact hview x hx
  · intro x hx
    by_cases hxi : x = start + i + 1
    · rw [hxi, update_self, update_self]
    · rw [update_of_ne hxi, update_of_ne hxi]
      exact hcache x hx

theorem writeLog_triple : Triple (At (Logging start size d₀ v l k 0)) writeLog
      (fun _ => At (Logging start size d₀ v l k l.lh.n))
      (fun c => Recoverable start size spec c ∧ k ≤ l.lh.n) := by
  refine Triple.bind getLog_triple fun l' => ?_
  rintro m ⟨hm, rfl⟩
  have hl : m.log = l := hm.1
  rw [hl, hr.start_eq]
  refine Triple.loop (I := fun i => At (Logging start size d₀ v l k i)) ?_ m hm
  intro i hi
  refine Triple.bind (bread_triple _) fun _ => ?_
  refine Triple.bind ((bread_triple (l.lh.block i)).pre fun _ h => h.1) fun src => ?_
  refine bwrite_triple ?_ ?_
  · intro m hm hf
    have hfuel : m.fuel + i = k := hm.1.2.1
    exact ⟨Logging.recoverable hr hm.1, by omega⟩
  · intro m f hm hf
    have hlog : m.log = l := hm.1.1
    have hin : Logging start size d₀ v l k i m.disk m.view l (f + 1) := by
      have := hm.1
      unfold At at this
      rwa [hf, hlog] at this
    rw [hlog]
    exact Logging.step hr hi hin hm.2

/-- The header write is the commit point: before it recovery gives `spec`, after
it the log on disk holds the pending writes. -/
theorem writeHead_triple : Triple (At (Logging start size d₀ v l k l.lh.n)) writeHead
      (fun _ m => l.lh.n < k ∧ OnLog start size m.disk (pending l v) ∧
        (∀ x, ¬ InLog start size x → m.disk x = d₀ x) ∧
        At (Installing start size (pending l v) m.disk l (k - (l.lh.n + 1)) 0) m)
      (fun c => Recoverable start size spec c ∧ k ≤ l.lh.n) := by
  refine Triple.bind getLog_triple fun l' => ?_
  rintro m ⟨hm, rfl⟩
  have hl : m.log = l := hm.1
  rw [hl, hr.start_eq]
  refine Triple.bind (bread_triple (A := Logging start size d₀ v l k l.lh.n) start)
    (fun buf => ?_) m hm
  have hfit := hr.fits
  have hdec := @decode_encodeHeader l.lh buf hfit.2
    fun i hi => (hr.home _ (mem_map.mpr ⟨i, mem_range.mpr hi, rfl⟩)).1
  -- The postcondition speaks of the machine itself, so the write is run by hand.
  rintro m ⟨⟨hlog, hfuel, _, hout, hdone, hview, hcache⟩, hbuf⟩
  unfold bwrite
  cases hf : m.fuel with
  | zero =>
    have hm' : Logging start size d₀ v l k l.lh.n m.disk m.view m.log m.fuel :=
      ⟨hlog, hfuel, ‹_›, hout, hdone, hview, hcache⟩
    exact ⟨Logging.recoverable hr hm', by omega⟩
  | succ f =>
    have hbs : ∀ x, ¬ InLog start size x → x ≠ start := fun x hx e => hx ⟨by omega, by omega⟩
    refine ⟨by omega, ⟨?_, ?_, ?_, ?_, ?_⟩, ?_, hlog, by simp only; omega, ?_, ?_, ?_⟩
    · simp only [update_self, length_pending]
      exact hdec.1
    · intro i hi
      simp only [update_self, getElem_pending hi]
      exact hdec.2 i (by simpa using hi)
    · intro i hi
      simp only [getElem_pending hi]
      rw [update_of_ne (by omega)]
      exact hdone i (by simpa using hi)
    · intro w hw
      obtain ⟨b, hb, rfl⟩ := mem_map.mp hw
      exact (hr.home b hb).2
    · simpa using hfit
    · intro x hx
      simp only [update_of_ne (hbs x hx)]
      exact hout x hx
    · exact fun _ _ => rfl
    · exact fun _ _ => rfl
    · intro x hx
      rw [Machine.view_bwrite]
      show update m.view start _ x = update m.disk start _ x
      by_cases hxs : x = start
      · rw [hxs, update_self, update_self]
      · rw [update_of_ne hxs, update_of_ne hxs]
        by_cases hin : InLog start size x
        · exact hcache x hin
        · rw [hview x hin, hout x hin]
          apply hr.cached
          intro hmem
          exact hx (mem_map.mpr ⟨(x, v x), mem_map.mpr ⟨x, hmem, rfl⟩, rfl⟩)

/-- Every crash point of `commit`, told apart by the number `k` of block writes
that complete: up to the header write nothing of the transaction is recovered,
from it on all of it is. -/
theorem commit_triple :
    Triple (At fun disk view log fuel => disk = d₀ ∧ view = v ∧ log = l ∧ fuel = k) commit
      (fun _ m => (0 < l.lh.n → l.lh.n < k) ∧ At (Clean start size v l) m)
      (fun c => (Recoverable start size spec c ∧ k ≤ l.lh.n) ∨
        (Recoverable start size v c ∧ l.lh.n < k)) := by
  refine Triple.bind getLog_triple fun l' => ?_
  rintro m ⟨⟨hd, hv, hl, hk⟩, rfl⟩
  rw [hl]
  have hcached : ∀ x, ¬ InLog start size x →
      ∀ disk : Disk, (∀ y, ¬ InLog start size y → disk y = d₀ y) →
        applyWrites (pending l v) disk x = v x := by
    intro x hx disk hdisk
    rw [pending, applyWrites_keys]
    by_cases hmem : x ∈ l.lh.blocks
    · rw [if_pos hmem]
    · rw [if_neg hmem, hdisk x hx, hr.cached x hmem]
  by_cases hn : l.lh.n > 0
  · rw [if_pos hn]
    have hstart : Logging start size d₀ v l k 0 m.disk m.view m.log m.fuel := by
      refine ⟨hl, by omega, by rw [hd], fun _ _ => by rw [hd], fun j hj => by omega,
        fun _ _ => by rw [hv], fun x hx => ?_⟩
      rw [hv, hd]
      exact hr.cached x fun hmem => (hr.home x hmem).2 hx
    refine Triple.bind ((writeLog_triple hr).crash fun c hc => Or.inl hc) (fun _ => ?_) m hstart
    refine Triple.bind ((writeHead_triple hr).crash fun c hc => Or.inl hc) fun _ => ?_
    rintro m ⟨hlt, hon, hhome, hinst⟩
    have hrest : Triple (At (Installing start size (pending l v) m.disk l (k - (l.lh.n + 1)) 0))
        installAndClear (fun _ => At (Clean start size v l))
        (fun c => Recoverable start size v c ∧ k - (l.lh.n + 1) ≤ (pending l v).length) :=
      installAndClear_triple hon hr.start_eq (by simp)
        (fun i hi => by rw [getElem_pending hi]) (fun x hx => hcached x hx m.disk hhome)
    have hpost : Triple (At (Installing start size (pending l v) m.disk l (k - (l.lh.n + 1)) 0))
        installAndClear (fun _ m => (0 < l.lh.n → l.lh.n < k) ∧ At (Clean start size v l) m)
        (fun c => (Recoverable start size spec c ∧ k ≤ l.lh.n) ∨
          (Recoverable start size v c ∧ l.lh.n < k)) :=
      hrest.conseq (fun _ h => h) (fun _ _ h => ⟨fun _ => hlt, h⟩)
        (fun _ hc => Or.inr ⟨hc.1, hlt⟩)
    exact hpost m hinst
  · rw [if_neg hn]
    have hzero : l.lh.n = 0 := by omega
    have hnil : ∀ x, x ∉ l.lh.blocks := by
      intro x hx
      rw [LogHeader.blocks, hzero] at hx
      exact not_mem_nil hx
    refine ⟨fun h => absurd h hn, ?_, ?_, ?_, ?_⟩
    · rw [hl, ← hzero]
    · rw [hd]
      exact hr.clear
    · intro x hx
      rw [hd]
      exact (hr.cached x (hnil x)).symm
    · intro x
      rw [hd, hv]
      exact hr.cached x (hnil x)

end

end Commit

/-! ## Transactions -/

theorem logBlocks_ok {m' : Machine} {ws : List (Nat × Block)} (h : logBlocks m ws = .ok m')
    (hnodup : m.log.lh.blocks.Nodup) (hfits : m.log.lh.n < m.log.size ∧ m.log.lh.n ≤ logsize) :
    m'.disk = m.disk ∧ m'.log = { m.log with lh := m'.log.lh } ∧
    m'.view = applyWrites ws m.view ∧ m'.log.lh.blocks.Nodup ∧
    (∀ x, x ∈ m'.log.lh.blocks ↔ x ∈ m.log.lh.blocks ∨ x ∈ ws.map Prod.fst) ∧
    m'.log.lh.n < m.log.size ∧ m'.log.lh.n ≤ logsize := by
  induction ws generalizing m with
  | nil =>
    cases h
    exact ⟨rfl, rfl, rfl, hnodup, fun x => by simp, hfits⟩
  | cons w ws ih =>
    simp only [logBlocks] at h
    cases hb : logBlock m w.1 w.2 with
    | error p => simp [hb] at h
    | ok m₁ =>
      simp only [hb] at h
      rcases logWrite_cases (rfl : logWrite m.log w.1 = _) with
        ⟨hr, _⟩ | ⟨hr, _⟩ | ⟨hr, hlog, hsize, _⟩
      · simp [logBlock, hr, Except.map] at hb
      · simp [logBlock, hr, Except.map] at hb
      · simp only [logBlock, hr, Except.map, Except.ok.injEq] at hb
        have hrec : (m.log.lh.record w.1).n ≤ m.log.lh.n + 1 := by
          by_cases hmem : w.1 ∈ m.log.lh.blocks
          · rw [LogHeader.record_of_mem hmem]
            omega
          · rw [(LogHeader.blocks_record_of_notMem hmem).1]
        have hview : m₁.view = update m.view w.1 w.2 := by
          rw [← hb]
          funext x
          by_cases hx : x = w.1
          · subst hx
            simp [Machine.view]
          · simp [Machine.view, update_of_ne hx]
        have hnodup₁ : m₁.log.lh.blocks.Nodup := by
          rw [← hb]
          exact LogHeader.nodup_record hnodup w.1
        have hfits₁ : m₁.log.lh.n < m₁.log.size ∧ m₁.log.lh.n ≤ logsize := by
          rw [← hb]
          exact ⟨by simp only; omega, by simp only; omega⟩
        obtain ⟨hd, hl, hv, hnd, hmem, hfit⟩ := ih h hnodup₁ hfits₁
        refine ⟨?_, ?_, ?_, hnd, ?_, ?_⟩
        · rw [hd, ← hb]
        · rw [hl, ← hb]
        · rw [hv, hview]
          rfl
        · intro x
          rw [hmem, ← hb]
          simp only [LogHeader.mem_blocks_record, map_cons, mem_cons, or_assoc]
        · rw [← hb] at hfit
          exact hfit

/-- A power cycle: running on a machine, or a disk without power. -/
inductive Power where
  | up (m : Machine)
  | down (d : Disk)

inductive PowerEvent where
  /-- A transaction logs `ws` and commits; `k` block writes complete before the
  power fails, if it does. -/
  | transaction (ws : List (Nat × Block)) (k : Nat)
  /-- The kernel boots with power for `k` block writes. -/
  | boot (k : Nat)
  /-- A buffer that the log does not pin is recycled. -/
  | evict (b : Nat)
  | powerOff

/-- `begin_op`, the `log_write`s and `end_op` of a transaction. -/
def runTransaction (m : Machine) (ws : List (Nat × Block)) (k : Nat) : Option Power :=
  match beginOp m.log with
  | none => none
  | some l₁ =>
    match logBlocks { m with log := l₁ } ws with
    | .error _ => none
    | .ok m₁ =>
      match endOp m₁.log with
      | .error _ => none
      | .ok l₂ =>
        match commit { m₁ with log := l₂, fuel := k } with
        | .ok (_, m₂) => some (.up { m₂ with log := endCommit m₂.log })
        | .error d => some (.down d)

/-- `none` when the event does not apply or the kernel panics. -/
def powerStep (start size : Nat) : Power → PowerEvent → Option Power
  | .up m, .transaction ws k => runTransaction m ws k
  | .up m, .evict b =>
    if b ∈ m.log.lh.blocks then none
    else some (.up { m with cache := update m.cache b none })
  | .up m, .powerOff => some (.down m.disk)
  | .down d, .boot k =>
    match initlog start size d k with
    | .ok m => some (.up m)
    | .error d' => some (.down d')
  | _, _ => none

def powerRun (start size : Nat) : Power → List PowerEvent → Option Power
  | p, [] => some p
  | p, e :: es =>
    match powerStep start size p e with
    | none => none
    | some p' => powerRun start size p' es

/-- The blocks a transaction may log: block numbers of the file system. -/
def PowerEvent.Outside (start size : Nat) : PowerEvent → Prop
  | .transaction ws _ => ∀ w ∈ ws, w.1 < 2 ^ 32 ∧ ¬ InLog start size w.1
  | _ => True

/-- Whether the first `write_head` of a transaction completes: it is the write
after one write for each distinct block. -/
def headWritten (ws : List (Nat × Block)) (k : Nat) : Bool :=
  (ws.map Prod.fst).dedup.length < k

/-- The contents after the transactions whose first `write_head` completed. -/
def committed (d : Disk) : List PowerEvent → Disk
  | [] => d
  | .transaction ws k :: es => committed (if headWritten ws k then applyWrites ws d else d) es
  | _ :: es => committed d es

/-- The invariant of power cycles: home blocks are or recover to `spec`. -/
def PowerInv (start size : Nat) (spec : Disk) : Power → Prop
  | .up m => m.log.start = start ∧ m.log.size = size ∧ m.log.outstanding = 0 ∧
      m.log.committing = false ∧ At (Clean start size spec m.log) m
  | .down d => Recoverable start size spec d

theorem Clean.header_zero (h : Clean start size spec l disk view log fuel) : log.lh.n = 0 := by
  rw [h.1]

theorem runTransaction_inv (hsize : 0 < size) {ws : List (Nat × Block)}
    (hm : PowerInv start size spec (.up m))
    (hws : ∀ w ∈ ws, w.1 < 2 ^ 32 ∧ ¬ InLog start size w.1) (h : runTransaction m ws k = some p) :
    ∃ spec', PowerInv start size spec' p ∧
      ∀ x, ¬ InLog start size x →
        spec' x = (if headWritten ws k then applyWrites ws spec else spec) x := by
  obtain ⟨hstart, hsz, hout, hcom, hclean⟩ := hm
  have hn : m.log.lh.n = 0 := Clean.header_zero hclean
  obtain ⟨_, hhead, hdisk, hview⟩ := hclean
  unfold runTransaction at h
  cases hbegin : beginOp m.log with
  | none => simp [hbegin] at h
  | some l₁ =>
  have hl₁ : l₁ = { m.log with outstanding := m.log.outstanding + 1 } := by
    unfold beginOp at hbegin
    split at hbegin
    · cases hbegin
    · split at hbegin
      · cases hbegin
      · exact (Option.some.inj hbegin).symm
  simp only [hbegin] at h
  cases hlogs : logBlocks { m with log := l₁ } ws with
  | error q => simp [hlogs] at h
  | ok m₁ =>
  simp only [hlogs] at h
  have hempty : ({ m with log := l₁ } : Machine).log.lh.blocks = [] := by
    rw [hl₁]
    simp [LogHeader.blocks, hn]
  obtain ⟨hd₁, hlog₁, hv₁, hnodup, hmem, hfit⟩ := logBlocks_ok hlogs
    (by rw [hempty]; exact nodup_nil)
    (by rw [hl₁]; simp only [hn, hsz]; exact ⟨hsize, Nat.zero_le _⟩)
  rw [hempty] at hmem
  have hcom₁ : m₁.log.committing = false := by rw [hlog₁, hl₁]; exact hcom
  have hout₁ : m₁.log.outstanding - 1 = 0 := by
    rw [hlog₁, hl₁]
    simp [hout]
  have hend : endOp m₁.log =
      .ok { m₁.log with outstanding := m₁.log.outstanding - 1, committing := true } := by
    rw [endOp, if_neg (by simp [hcom₁]), if_pos hout₁]
  simp only [hend] at h
  let l₂ : State := { m₁.log with outstanding := m₁.log.outstanding - 1, committing := true }
  have hready : Ready start size spec m₁.disk m₁.view l₂ := by
    refine ⟨?_, ?_, ?_, ?_, ?_, ?_⟩
    · show m₁.log.start = start
      rw [hlog₁, hl₁]
      exact hstart
    · rw [hd₁]
      exact hhead
    · rw [hd₁]
      exact hdisk
    · intro x hx
      have hx' : x ∉ ws.map Prod.fst := fun hmem' => hx ((hmem x).mpr (Or.inr hmem'))
      rw [hv₁, applyWrites_of_notMem hx', hd₁]
      exact hview x
    · intro b hb
      rcases (hmem b).mp hb with hnil | hb'
      · exact absurd hnil not_mem_nil
      · obtain ⟨w, hw, rfl⟩ := mem_map.mp hb'
        exact hws w hw
    · show m₁.log.lh.n < size ∧ m₁.log.lh.n ≤ logsize
      rw [hl₁] at hfit
      simpa [hsz] using hfit
  -- The header names each block of `ws` once, so its length decides the commit point.
  have hlen : (ws.map Prod.fst).dedup.length = m₁.log.lh.n := by
    rw [← LogHeader.length_blocks]
    apply List.Perm.length_eq
    rw [perm_ext_iff_of_nodup (nodup_dedup _) hnodup]
    intro x
    rw [hmem]
    simp
  have hspec : ∀ x, ¬ InLog start size x → m₁.view x = applyWrites ws spec x := by
    intro x hx
    rw [hv₁]
    apply applyWrites_congr
    intro _
    show m.view x = spec x
    rw [hview x, hdisk x hx]
  have hrun := commit_triple (k := k) hready { m₁ with log := l₂, fuel := k } ⟨rfl, rfl, rfl, rfl⟩
  cases hc : commit { m₁ with log := l₂, fuel := k } with
  | error c =>
    rw [hc] at hrun
    have hp : p = .down c := by
      rw [show commit { m₁ with
        log := { m₁.log with outstanding := m₁.log.outstanding - 1, committing := true }
        fuel := k } = .error c from hc] at h
      exact (Option.some.inj h).symm
    subst hp
    rcases hrun with ⟨hrec, hk⟩ | ⟨hrec, hk⟩
    · refine ⟨spec, hrec, fun x _ => ?_⟩
      have hk' : headWritten ws k = false := by
        simp only [headWritten, hlen, decide_eq_false_iff_not, Nat.not_lt]
        exact hk
      simp [hk']
    · refine ⟨m₁.view, hrec, fun x hx => ?_⟩
      have hk' : headWritten ws k = true := by
        simp only [headWritten, hlen, decide_eq_true_eq]
        exact hk
      rw [if_pos hk']
      exact hspec x hx
  | ok r =>
    rw [hc] at hrun
    have hp : p = .up { r.2 with log := endCommit r.2.log } := by
      rw [show commit { m₁ with
        log := { m₁.log with outstanding := m₁.log.outstanding - 1, committing := true }
        fuel := k } = .ok r from hc] at h
      exact (Option.some.inj h).symm
    subst hp
    obtain ⟨hk, hlog, hh, hdk, hvw⟩ := hrun
    refine ⟨m₁.view, ⟨?_, ?_, ?_, rfl, ?_, hh, hdk, hvw⟩, fun x hx => ?_⟩
    · show r.2.log.start = start
      rw [hlog]
      exact hready.start_eq
    · show r.2.log.size = size
      rw [hlog]
      show m₁.log.size = size
      rw [hlog₁, hl₁]
      exact hsz
    · show r.2.log.outstanding = 0
      rw [hlog]
      exact hout₁
    · rfl
    · -- With no block logged both sides are the old contents.
      rcases Nat.eq_zero_or_pos m₁.log.lh.n with hzero | hpos
      · have hnil : ∀ y, y ∉ ws.map Prod.fst := by
          intro y hy
          have := (hmem y).mpr (Or.inr hy)
          rw [LogHeader.blocks, hzero] at this
          exact not_mem_nil this
        rw [hspec x hx]
        split
        · rfl
        · exact applyWrites_of_notMem (hnil x) spec
      · have hk' : headWritten ws k = true := by
          simp only [headWritten, hlen, decide_eq_true_eq]
          exact hk hpos
        rw [if_pos hk']
        exact hspec x hx

theorem PowerInv.congr {spec' : Disk} (h : PowerInv start size spec p)
    (heq : ∀ x, ¬ InLog start size x → spec x = spec' x) : PowerInv start size spec' p := by
  cases p with
  | up m =>
    obtain ⟨h1, h2, h3, h4, h5, h6, h7, h8⟩ := h
    exact ⟨h1, h2, h3, h4, h5, h6, fun x hx => (h7 x hx).trans (heq x hx), h8⟩
  | down d =>
    obtain ⟨ws, hd, hspec⟩ := h
    exact ⟨ws, hd, fun x hx => (hspec x hx).trans (heq x hx)⟩

theorem powerStep_inv (hsize : 0 < size) {e : PowerEvent} (hp : PowerInv start size spec p)
    (he : e.Outside start size) (h : powerStep start size p e = some p') :
    PowerInv start size (committed spec [e]) p' := by
  cases p with
  | up m =>
    cases e with
    | transaction ws k =>
      obtain ⟨spec', hinv, heq⟩ := runTransaction_inv hsize hp he h
      exact hinv.congr heq
    | boot k => simp [powerStep] at h
    | evict b =>
      simp only [powerStep] at h
      split at h
      · cases h
      · cases h
        obtain ⟨h1, h2, h3, h4, h5, h6, h7, h8⟩ := hp
        refine ⟨h1, h2, h3, h4, h5, h6, h7, fun x => ?_⟩
        by_cases hx : x = b
        · subst hx
          simp [Machine.view]
        · have hx' := h8 x
          simpa [Machine.view, update_of_ne hx] using hx'
    | powerOff =>
      cases h
      obtain ⟨_, _, _, _, _, hh, hd, _⟩ := hp
      exact clear_recoverable hsize hh hd
  | down d =>
    cases e with
    | transaction ws k => simp [powerStep] at h
    | boot k =>
      simp only [powerStep] at h
      rcases initlog_of_recoverable hp k with ⟨m, hm, h1, h2, h3, h4, h5⟩ | ⟨c, hc, hrec, _⟩
      · rw [hm] at h
        cases h
        exact ⟨h1, h2, h3, h4, h5⟩
      · rw [hc] at h
        cases h
        exact hrec
    | evict b => simp [powerStep] at h
    | powerOff => simp [powerStep] at h

theorem committed_cons (d : Disk) (e : PowerEvent) (es : List PowerEvent) :
    committed d (e :: es) = committed (committed d [e]) es := by
  cases e <;> rfl

theorem powerRun_inv (hsize : 0 < size) {es : List PowerEvent} (hp : PowerInv start size spec p)
    (hes : ∀ e ∈ es, e.Outside start size) (h : powerRun start size p es = some p') :
    PowerInv start size (committed spec es) p' := by
  induction es generalizing p spec with
  | nil =>
    cases h
    exact hp
  | cons e es ih =>
    simp only [powerRun] at h
    cases hstep : powerStep start size p e with
    | none => simp [hstep] at h
    | some q =>
      simp only [hstep] at h
      rw [committed_cons]
      exact ih (powerStep_inv hsize hp (hes e mem_cons_self) hstep)
        (fun e' he' => hes e' (mem_cons_of_mem e he')) h

/-- Crash atomicity.  Start from a disk with a clear log and let transactions,
evictions, boots and power failures at any block write follow each other in any
way, recovery itself being cut short any number of times.  Whenever the power is
off, booting on the surviving disk completes and leaves on every block outside
the log exactly the contents after the transactions whose first `write_head`
completed, in their order. -/
theorem log_crash_atomic {start size : Nat} (hsize : 0 < size) {d₀ d : Disk}
    (hclear : (decodeHeader (d₀ start)).n = 0) {es : List PowerEvent}
    (hes : ∀ e ∈ es, e.Outside start size)
    (hrun : powerRun start size (.down d₀) es = some (.down d)) :
    ∃ m, initlog start size d (logsize + 1) = .ok m ∧
      ∀ x, ¬ InLog start size x → m.disk x = committed d₀ es x := by
  have h₀ : PowerInv start size d₀ (.down d₀) :=
    clear_recoverable hsize hclear fun _ _ => rfl
  have hinv : Recoverable start size (committed d₀ es) d := powerRun_inv hsize h₀ hes hrun
  rcases initlog_of_recoverable hinv (logsize + 1) with ⟨m, hm, _, _, _, _, hclean⟩ | ⟨_, _, _, hk⟩
  · exact ⟨m, hm, hclean.2.2.1⟩
  · omega

def fill (v : UInt8) : Block := fun _ => v

/-- Boot a zeroed disk, lose power after the header of a transaction on two
blocks, and once more after the first block recovery installs. -/
def crashTwice : List PowerEvent :=
  [.boot 1, .transaction [(100, fill 7), (101, fill 8)] 3, .boot 1]

theorem log_crash_atomic_crashTwice :
    ∃ d m, powerRun logstart nlog (.down fun _ => fill 0) crashTwice = some (.down d) ∧
      initlog logstart nlog d (logsize + 1) = .ok m ∧
      m.disk 100 = fill 7 ∧ m.disk 101 = fill 8 := by
  have hdown : (match powerRun logstart nlog (.down fun _ => fill 0) crashTwice with
      | some (.down _) => true
      | _ => false) = true := by
    decide +kernel
  split at hdown
  · rename_i d hd
    have hout : ∀ e ∈ crashTwice, e.Outside logstart nlog := by
      intro e he
      simp only [crashTwice, mem_cons, not_mem_nil, or_false] at he
      rcases he with rfl | rfl | rfl
      · trivial
      · intro w hw
        simp only [mem_cons, not_mem_nil, or_false] at hw
        rcases hw with rfl | rfl <;> decide
      · trivial
    obtain ⟨m, hm, hdisk⟩ :=
      @log_crash_atomic logstart nlog (by decide) (fun _ => fill 0) d (by decide) crashTwice hout hd
    refine ⟨d, m, hd, hm, ?_, ?_⟩
    · rw [hdisk 100 (by decide)]
      rfl
    · rw [hdisk 101 (by decide)]
      rfl
  · cases hdown

end Xv6.Log
