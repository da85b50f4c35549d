/-
Log space under any interleaving of file-system operations.

A schedule is a list of events, one for each critical section that an operation
or the committing process runs under `log.lock`.  `begin_op` reserves
`MAXOPBLOCKS` entries against `LOGSIZE`, while `log_write` also refuses the last
entry of an on-disk log of `nlog` blocks, one of which is the header.  mkfs sets
`nlog` to `LOGSIZE`, so the two bounds differ by one block.
-/
import Mathlib.Data.Finset.Card
import Xv6.Log.Basic

namespace Xv6

open List
namespace Log

variable {r : Except Panic Sys} {es : List Event} {op : Nat} {s : Sys}

inductive Event where
  | beginOp (op : Nat)
  | logWrite (op b : Nat)
  | endOp (op : Nat)
  | commit
  deriving DecidableEq, Repr

/-- The log together with the operations between their `begin_op` and `end_op`
and the distinct blocks each of them has passed to `log_write`. -/
structure Sys where
  log : State
  active : Finset Nat
  wrote : Nat → Finset Nat

/-- The log of a freshly booted kernel on a disk laid out by mkfs. -/
def mkfsLog : State :=
  { start := logstart, size := nlog, outstanding := 0, committing := false
    lh := { n := 0, block := fun _ => 0 } }

def Sys.init : Sys := { log := mkfsLog, active := ∅, wrote := fun _ => ∅ }

/-- One event.  `none` says that the event cannot happen here: the caller would
sleep in `begin_op`, the operation is not between its brackets, or it would
write more than `MAXOPBLOCKS` distinct blocks. -/
def Sys.step (s : Sys) : Event → Option (Except Panic Sys)
  | .beginOp op =>
    if op ∈ s.active then none
    else (Log.beginOp s.log).map fun l =>
      .ok { log := l, active := insert op s.active, wrote := Function.update s.wrote op ∅ }
  | .logWrite op b =>
    if op ∈ s.active ∧ (insert b (s.wrote op)).card ≤ maxopblocks then
      some <| (Log.logWrite s.log b).map fun l =>
        { s with log := l, wrote := Function.update s.wrote op (insert b (s.wrote op)) }
    else none
  | .endOp op =>
    if op ∈ s.active then
      some <| (Log.endOp s.log).map fun l => { s with log := l, active := s.active.erase op }
    else none
  | .commit =>
    if s.log.committing then some (.ok { s with log := endCommit s.log }) else none

/-- Run a schedule.  `none` means that some event of it could not happen; a
panic ends the run. -/
def Sys.exec : Sys → List Event → Option (Except Panic Sys)
  | s, [] => some (.ok s)
  | s, e :: es =>
    match s.step e with
    | none => none
    | some (.error p) => some (.error p)
    | some (.ok s') => s'.exec es

/-- The distinct blocks logged since the last commit, read off the schedule. -/
def openBlocks (es : List Event) : Finset Nat :=
  es.foldl (fun acc e =>
    match e with
    | .logWrite _ b => insert b acc
    | .commit => ∅
    | _ => acc) ∅

theorem openBlocks_snoc (es : List Event) (e : Event) :
    openBlocks (es ++ [e]) =
      match e with
      | .logWrite _ b => insert b (openBlocks es)
      | .commit => ∅
      | _ => openBlocks es := by
  rw [openBlocks, foldl_append]
  cases e <;> rfl

/-- What holds after every schedule `es` that has not panicked. -/
structure Sys.Inv (es : List Event) (s : Sys) : Prop where
  layout : s.log.start = logstart ∧ s.log.size = nlog
  counted : s.log.outstanding = s.active.card
  closed : s.log.committing = true → s.active = ∅
  nodup : s.log.lh.blocks.Nodup
  logged : ∀ b, b ∈ s.log.lh.blocks ↔ b ∈ openBlocks es
  room : s.log.lh.n ≤ logsize - 1

theorem Sys.inv_init : Sys.Inv [] Sys.init where
  layout := ⟨rfl, rfl⟩
  counted := rfl
  closed := fun _ => rfl
  nodup := nodup_nil
  logged := by
    simp [Sys.init, mkfsLog, LogHeader.blocks, openBlocks]
  room := Nat.zero_le _

theorem Sys.Inv.card_openBlocks (h : Sys.Inv es s) : (openBlocks es).card = s.log.lh.n := by
  have heq : openBlocks es = s.log.lh.blocks.toFinset := by
    ext b
    rw [mem_toFinset, h.logged]
  rw [heq, toFinset_card_of_nodup h.nodup, LogHeader.length_blocks]

theorem beginOp_eq_some {l l' : State} (h : beginOp l = some l') :
    l.committing = false ∧ l' = { l with outstanding := l.outstanding + 1 } := by
  unfold beginOp at h
  split at h
  · cases h
  · rename_i hc
    split at h
    · cases h
    · exact ⟨by simpa using hc, (Option.some.inj h).symm⟩

section

variable (hs : Sys.Inv es s)

include hs

theorem Sys.inv_beginOp (h : s.step (.beginOp op) = some r) :
    ∃ s', r = .ok s' ∧ Sys.Inv (es ++ [.beginOp op]) s' := by
  simp only [Sys.step] at h
  split at h
  · cases h
  · rename_i hop
    obtain ⟨l, hl, rfl⟩ := Option.map_eq_some_iff.mp h
    obtain ⟨hc, rfl⟩ := beginOp_eq_some hl
    refine ⟨_, rfl, ?_⟩
    have hopen : openBlocks (es ++ [.beginOp op]) = openBlocks es := openBlocks_snoc es _
    exact {
      layout := hs.layout
      counted := by
        rw [Finset.card_insert_of_notMem hop, hs.counted]
        rfl
      closed := fun hcom => by
        have : s.log.committing = true := hcom
        rw [hc] at this
        cases this
      nodup := hs.nodup
      logged := by rw [hopen]; exact hs.logged
      room := hs.room }

theorem Sys.inv_endOp (h : s.step (.endOp op) = some r) :
    ∃ s', r = .ok s' ∧ Sys.Inv (es ++ [.endOp op]) s' := by
  simp only [Sys.step] at h
  split at h
  · rename_i hop
    have hopen : openBlocks (es ++ [.endOp op]) = openBlocks es := openBlocks_snoc es _
    -- An operation is still active, so no commit is under way.
    have hcom : s.log.committing = false := by
      by_contra hne
      have hempty := hs.closed (by simpa using hne)
      rw [hempty] at hop
      exact absurd hop (Finset.notMem_empty op)
    have hcard : (s.active.erase op).card + 1 = s.active.card :=
      Finset.card_erase_add_one hop
    have hcount : s.log.outstanding - 1 = ((s.active.erase op).card : Int) := by
      rw [hs.counted]
      omega
    rw [Log.endOp, if_neg (by simp [hcom])] at h
    split at h
    · rename_i hzero
      refine ⟨_, (Option.some.inj h).symm, ?_⟩
      exact {
        layout := hs.layout
        counted := hcount
        closed := fun _ => by
          show s.active.erase op = ∅
          exact Finset.card_eq_zero.mp (by omega)
        nodup := hs.nodup
        logged := by rw [hopen]; exact hs.logged
        room := hs.room }
    · refine ⟨_, (Option.some.inj h).symm, ?_⟩
      exact {
        layout := hs.layout
        counted := hcount
        closed := fun hcom' => by
          have : s.log.committing = true := hcom'
          rw [hcom] at this
          cases this
        nodup := hs.nodup
        logged := by rw [hopen]; exact hs.logged
        room := hs.room }
  · cases h

theorem Sys.inv_commit (h : s.step .commit = some r) :
    ∃ s', r = .ok s' ∧ Sys.Inv (es ++ [.commit]) s' := by
  simp only [Sys.step] at h
  split at h
  · refine ⟨_, (Option.some.inj h).symm, ?_⟩
    exact {
      layout := hs.layout
      counted := hs.counted
      closed := fun hcom => by cases hcom
      nodup := nodup_nil
      logged := by
        rw [openBlocks_snoc]
        simp [endCommit, LogHeader.blocks]
      room := Nat.zero_le _ }
  · cases h

theorem Sys.inv_logWrite {b : Nat} (h : s.step (.logWrite op b) = some r) :
    (r = .error .tooBigATransaction ∧ (openBlocks es).card = logsize - 1) ∨
    ∃ s', r = .ok s' ∧ (openBlocks es).card < logsize - 1 ∧
      Sys.Inv (es ++ [.logWrite op b]) s' := by
  have hn := hs.card_openBlocks
  simp only [Sys.step] at h
  split at h
  · rename_i hguard
    have hpos : 0 < s.active.card := Finset.card_pos.mpr ⟨op, hguard.1⟩
    have hsize : (s.log.size : Int) - 1 = (logsize - 1 : Nat) := by
      rw [hs.layout.2]
      rfl
    rcases logWrite_cases (rfl : Log.logWrite s.log b = _) with
      ⟨hr, hfull⟩ | ⟨_, hout⟩ | ⟨hr, _, hroom, _⟩
    · rw [hr] at h
      refine Or.inl ⟨(Option.some.inj h).symm, ?_⟩
      have := hs.room
      omega
    · rw [hs.counted] at hout
      omega
    · rw [hr] at h
      have hlt : s.log.lh.n < logsize - 1 := by omega
      refine Or.inr ⟨_, (Option.some.inj h).symm, by omega, ?_⟩
      exact {
        layout := hs.layout
        counted := hs.counted
        closed := hs.closed
        nodup := LogHeader.nodup_record hs.nodup b
        logged := by
          intro x
          rw [openBlocks_snoc]
          rw [LogHeader.mem_blocks_record, hs.logged, Finset.mem_insert]
          exact or_comm
        room := by
          by_cases hb : b ∈ s.log.lh.blocks
          · rw [LogHeader.record_of_mem hb]
            exact hs.room
          · rw [(LogHeader.blocks_record_of_notMem hb).1]
            exact hlt }
  · cases h

theorem Sys.inv_step {e : Event} (h : s.step e = some r) :
    (r = .error .tooBigATransaction ∧ (∃ op b, e = .logWrite op b) ∧
      (openBlocks es).card = logsize - 1) ∨
    ∃ s', r = .ok s' ∧ Sys.Inv (es ++ [e]) s' ∧
      ∀ op b, e = .logWrite op b → (openBlocks es).card < logsize - 1 := by
  cases e with
  | beginOp op =>
    obtain ⟨s', hr, hinv⟩ := Sys.inv_beginOp hs h
    exact Or.inr ⟨s', hr, hinv, fun _ _ he => by cases he⟩
  | endOp op =>
    obtain ⟨s', hr, hinv⟩ := Sys.inv_endOp hs h
    exact Or.inr ⟨s', hr, hinv, fun _ _ he => by cases he⟩
  | commit =>
    obtain ⟨s', hr, hinv⟩ := Sys.inv_commit hs h
    exact Or.inr ⟨s', hr, hinv, fun _ _ he => by cases he⟩
  | logWrite op b =>
    rcases Sys.inv_logWrite hs h with ⟨hr, hcard⟩ | ⟨s', hr, hcard, hinv⟩
    · exact Or.inl ⟨hr, ⟨op, b, rfl⟩, hcard⟩
    · exact Or.inr ⟨s', hr, hinv, fun _ _ _ => hcard⟩

end

/-- A `log_write` of the schedule meets fewer than `LOGSIZE - 1` logged blocks. -/
def RoomAtEachWrite (es : List Event) : Prop :=
  ∀ before op b rest, es = before ++ .logWrite op b :: rest →
    (openBlocks before).card < logsize - 1

theorem Sys.exec_cases {done : List Event} (hs : Sys.Inv done s) (h : s.exec es = some r) :
    (r = .error .tooBigATransaction ∧
      ∃ before op b rest, es = before ++ .logWrite op b :: rest ∧
        (openBlocks (done ++ before)).card = logsize - 1) ∨
    ∃ s', r = .ok s' ∧ Sys.Inv (done ++ es) s' ∧
      ∀ before op b rest, es = before ++ .logWrite op b :: rest →
        (openBlocks (done ++ before)).card < logsize - 1 := by
  induction es generalizing done s with
  | nil =>
    refine Or.inr ⟨s, (Option.some.inj h).symm, by simpa using hs, ?_⟩
    intro before op b rest he
    simp at he
  | cons e es ih =>
    simp only [Sys.exec] at h
    cases hstep : s.step e with
    | none => simp [hstep] at h
    | some q =>
      rw [hstep] at h
      rcases Sys.inv_step hs hstep with ⟨rfl, ⟨op, b, rfl⟩, hcard⟩ | ⟨s', rfl, hinv, hlt⟩
      · exact Or.inl ⟨(Option.some.inj h).symm, [], op, b, es, rfl, by simpa using hcard⟩
      · rcases ih hinv h with ⟨hr, before, op, b, rest, he, hcard⟩ | ⟨s'', hr, hinv', hall⟩
        · refine Or.inl ⟨hr, e :: before, op, b, rest, by rw [he]; rfl, ?_⟩
          rwa [append_assoc] at hcard
        · refine Or.inr ⟨s'', hr, by rwa [append_assoc] at hinv', ?_⟩
          intro before op b rest he
          cases before with
          | nil =>
            simp only [nil_append, List.cons.injEq] at he
            rw [append_nil]
            exact hlt op b he.1
          | cons e' before =>
            simp only [cons_append, List.cons.injEq] at he
            have := hall before op b rest he.2
            rwa [append_assoc, he.1] at this

/-- The blocks `write_log` writes when the header holds `n` entries. -/
def writeLogBlocks (l : State) : List Nat := (List.range l.lh.n).map (l.start + · + 1)

/-- What the log owes a schedule: no `log_write` panics for lack of space, none
stores outside `log.lh.block`, and no commit that starts after part of the
schedule writes outside the log blocks of the disk. -/
def WithinLog (es : List Event) : Prop :=
  Sys.init.exec es ≠ some (.error .tooBigATransaction) ∧
  ∀ before rest s, es = before ++ rest → Sys.init.exec before = some (.ok s) →
    (∀ op b rest', rest = .logWrite op b :: rest' → s.log.lh.find b < logsize) ∧
    ∀ x ∈ writeLogBlocks s.log, s.log.start < x ∧ x < s.log.start + s.log.size

theorem within_of_inv (hs : Sys.Inv es s) : (∀ b, s.log.lh.find b < logsize) ∧
    ∀ x ∈ writeLogBlocks s.log, s.log.start < x ∧ x < s.log.start + s.log.size := by
  have hroom : s.log.lh.n ≤ logsize - 1 := hs.room
  have hlog : logsize = 30 := rfl
  have hsize : s.log.size = 30 := hs.layout.2
  constructor
  · intro b
    have := LogHeader.find_le s.log.lh b
    omega
  · intro x hx
    obtain ⟨i, hi, rfl⟩ := mem_map.mp hx
    have hlt := mem_range.mp hi
    constructor <;> omega

/-- Every schedule that `begin_op` admits, of any number of operations that log
at most `MAXOPBLOCKS` distinct blocks each, stays within the log exactly when
none of its `log_write`s comes while `LOGSIZE - 1` distinct blocks are already
in the open transaction. -/
theorem withinLog_iff_roomAtEachWrite (es : List Event)
    (hadm : Sys.init.exec es ≠ none) : WithinLog es ↔ RoomAtEachWrite es := by
  obtain ⟨r, hr⟩ := Option.ne_none_iff_exists'.mp hadm
  rcases Sys.exec_cases Sys.inv_init hr with
    ⟨rfl, before, op, b, rest, he, hcard⟩ | ⟨s, rfl, _, hall⟩
  · constructor
    · intro hin
      exact absurd hr hin.1
    · intro hroom
      have := hroom before op b rest he
      rw [nil_append] at hcard
      omega
  · refine ⟨fun _ => hall, fun _ => ⟨by rw [hr]; simp, ?_⟩⟩
    intro before rest s' _ hb
    rcases Sys.exec_cases Sys.inv_init hb with ⟨h, _⟩ | ⟨s'', h, hinv, _⟩
    · cases h
    · cases h
      obtain ⟨hfind, hdisk⟩ := within_of_inv hinv
      exact ⟨fun _ b _ _ => hfind b, hdisk⟩

def twoOps : List Event :=
  [.beginOp 0, .beginOp 1, .logWrite 0 100, .logWrite 1 101, .logWrite 1 100,
    .endOp 0, .endOp 1, .commit]

theorem withinLog_iff_twoOps :
    Sys.init.exec twoOps ≠ none ∧ (WithinLog twoOps ↔ RoomAtEachWrite twoOps) := by
  have hadm : Sys.init.exec twoOps ≠ none := by
    have hrun : (Sys.init.exec twoOps).isSome = true := by decide
    intro h
    rw [h] at hrun
    cases hrun
  exact ⟨hadm, withinLog_iff_roomAtEachWrite twoOps hadm⟩

def threeFullOps : List Event :=
  [.beginOp 0, .beginOp 1, .beginOp 2] ++
    (List.range 30).map fun i => .logWrite (i / 10) (100 + i)

/-- `begin_op` admits the three operations together and `log_write` panics on
the thirtieth block. -/
theorem threeFullOps_not_withinLog :
    Sys.init.exec threeFullOps ≠ none ∧ ¬ WithinLog threeFullOps := by
  have hrun : (match Sys.init.exec threeFullOps with
      | some (.error p) => decide (p = .tooBigATransaction)
      | _ => false) = true := by
    decide +kernel
  have hpanic : Sys.init.exec threeFullOps = some (.error .tooBigATransaction) := by
    split at hrun
    · rename_i p hp
      rw [hp, of_decide_eq_true hrun]
    · cases hrun
  exact ⟨by rw [hpanic]; simp, fun hin => hin.1 hpanic⟩

end Log
end Xv6
