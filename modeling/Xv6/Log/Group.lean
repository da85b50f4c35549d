/-
Group commit: processes that bracket their updates with `begin_op` and `end_op` under
`log.lock`, and the commit that the last one to leave runs without the lock.

The state of the log is kept together with its history: the brackets that have been opened,
with the blocks that each has passed to `log_write`, and the transactions that have been
committed.  What `commit` writes to the disk is the subject of `Xv6.Log.Disk`; here its steps
are those that read and change `struct log`.
-/
import Xv6.Lib.Monitor
import Xv6.Log.Basic

namespace Xv6.Log.Group

open Run List

variable {d : Data} {e : Event} {i id' t : Nat} {l' : State} {s' : Sys} {α : Type}

variable {a : Act} {k : Bool} {d' : Data} {ℓ : Loc} {q : Nat} {l : State} {s : Sys}

/-- One `begin_op`/`end_op` bracket: the process, the number of the transaction it was opened
in, and the blocks it has logged. -/
structure Bracket where
  owner : Nat
  txn : Nat
  blocks : List Nat
  isOpen : Bool

structure Data where
  log : State
  /-- The process that set `committing`. -/
  committer : Option Nat
  brackets : List Bracket
  /-- The blocks of each transaction whose header has been written. -/
  committed : List (List Nat)

/-- Where a process is; those from `commit` to `eraseHead` are the steps of `commit()`. -/
inductive Loc where
  | idle
  | beginOp
  | inOp (id : Nat)
  | logWrite (id b : Nat)
  | endOp (id : Nat)
  | endLast
  | endDone
  | commit
  | writeLog (tail : Nat)
  | writeHead
  | installTrans (tail : Nat)
  | clear
  | eraseHead
  | finish
  | finished

inductive Input where
  | beginOp
  | logWrite (b : Nat)
  | endOp

abbrev Act := Monitor.Act Data Loc Unit
abbrev Sys := Monitor.State Data Loc Unit
abbrev Event := Monitor.Event Input

namespace Data

variable (d : Data)

def openBracket (t : Nat) : List Bracket :=
  d.brackets ++ [{ owner := t, txn := d.committed.length, blocks := [], isOpen := true }]

def recordBlock (id b : Nat) : List Bracket :=
  d.brackets.modify id fun br => { br with blocks := br.blocks ++ [b] }

def closeBracket (id : Nat) : List Bracket :=
  d.brackets.modify id fun br => { br with isOpen := false }

/-- The header on disk names the blocks of the transaction. -/
def commitBlocks : Data := { d with committed := d.committed ++ [d.log.lh.blocks] }

end Data

def inside (t : Nat) (ℓ : Loc) (d : Data) : Except Panic Act :=
  match ℓ with
  | .beginOp =>
    match Log.beginOp d.log with
    | none => .ok (.sleep () d .beginOp)
    | some l => .ok (.release { d with log := l, brackets := d.openBracket t }
        (.inOp d.brackets.length))
  | .logWrite id b => do
      let l ← Log.logWrite d.log b
      return .release { d with log := l, brackets := d.recordBlock id b } (.inOp id)
  | .endOp id => do
      let l ← Log.endOp d.log
      if l.committing then
        return .goto { d with log := l, committer := some t, brackets := d.closeBracket id } .endLast
      else return .wakeup () { d with log := l, brackets := d.closeBracket id } .endDone
  | .endLast => .ok (.release d .commit)
  | .finish =>
    .ok (.wakeup () { d with log := { d.log with committing := false }, committer := none }
      .finished)
  | .endDone | .finished => .ok (.release d .idle)
  | ℓ => .ok (.release d ℓ)

/-- The next step of a process that does not hold the lock.  `commit` and the loops of
`write_log` and `install_trans` read `log.lh` as it is. -/
def outside (t : Nat) (ℓ : Loc) (d : Data) (inp : Input) : Monitor.Move Data Loc :=
  match ℓ, inp with
  | .idle, .beginOp => if t < nproc then .acquire d .beginOp else .stay
  | .inOp id, .logWrite b => .acquire d (.logWrite id b)
  | .inOp id, .endOp => .acquire d (.endOp id)
  | .commit, _ => if 0 < d.log.lh.n then .goto d (.writeLog 0) else .acquire d.commitBlocks .finish
  | .writeLog tail, _ => if tail < d.log.lh.n then .goto d (.writeLog (tail + 1)) else .goto d .writeHead
  | .writeHead, _ => .goto d.commitBlocks (.installTrans 0)
  | .installTrans tail, _ =>
    if tail < d.log.lh.n then .goto d (.installTrans (tail + 1)) else .goto d .clear
  | .clear, _ => .goto { d with log := { d.log with lh := { d.log.lh with n := 0 } } } .eraseHead
  | .eraseHead, _ => .acquire d .finish
  | _, _ => .stay

def client : Monitor.Client Data Loc Unit Input Panic where
  inside t _ ℓ d _ := inside t ℓ d
  outside t _ ℓ d inp := .ok (outside t ℓ d inp)
  env d _ := d

def step : Sys → Event → Except Panic Sys := Monitor.step client nproc

/-- The log after recovery, on a disk whose log is any number of blocks long. -/
structure Start (s : Sys) : Prop where
  outstanding : s.data.log.outstanding = 0
  committing : s.data.log.committing = false
  empty : s.data.log.lh.n = 0
  committer : s.data.committer = none
  brackets : s.data.brackets = []
  committed : s.data.committed = []
  holder : s.holder = none
  ctl : ∀ t, s.ctl t = .out .idle

/-! ## What holds of the log -/

theorem beginOp_eq_some (h : Log.beginOp l = some l') :
    l.committing = false ∧ (l.lh.n : Int) + (l.outstanding + 1) * maxopblocks ≤ logsize ∧
      l' = { l with outstanding := l.outstanding + 1 } := by
  unfold Log.beginOp at h
  split at h
  · cases h
  · rename_i hcom
    split at h
    · cases h
    · rename_i hroom
      cases h
      exact ⟨by simpa using hcom, by omega, rfl⟩

namespace Data

variable {d : Data} {t id : Nat}

def Owns (d : Data) (t id : Nat) : Prop :=
  ∃ br, d.brackets[id]? = some br ∧ br.owner = t ∧ br.isOpen = true

/-- The transactions, the last one being the one that is collected in the header. -/
def transactions (d : Data) : List (List Nat) := d.committed ++ [d.log.lh.blocks]

/-- `outstanding` counts the open brackets, there is none during a commit, an open bracket
belongs to the current transaction, and the blocks of a bracket are in its transaction. -/
structure Sound (d : Data) : Prop where
  outstanding : d.log.outstanding = (d.brackets.countP (·.isOpen) : Nat)
  committing : d.log.committing = d.committer.isSome
  quiet : d.committer.isSome → ∀ br ∈ d.brackets, br.isOpen = false
  current : ∀ br ∈ d.brackets, br.isOpen = true → br.txn = d.committed.length
  kept : ∀ br ∈ d.brackets, ∃ bs, d.transactions[br.txn]? = some bs ∧ ∀ b ∈ br.blocks, b ∈ bs

/-- Every bracket belongs to a transaction that has been committed. -/
def Settled (d : Data) : Prop := ∀ br ∈ d.brackets, br.txn < d.committed.length

theorem Sound.not_committing (h : d.Sound) (ho : d.Owns t id) :
    d.committer = none ∧ d.log.committing = false := by
  obtain ⟨br, hbr, -, hopen⟩ := ho
  have hnone : d.committer = none := by
    by_contra hsome
    rw [h.quiet (Option.isSome_iff_ne_none.2 hsome) br (mem_of_getElem? hbr)] at hopen
    cases hopen
  exact ⟨hnone, by rw [h.committing, hnone]; rfl⟩

theorem Sound.all_closed (h : d.Sound) (h0 : d.log.outstanding = 0) :
    ∀ br ∈ d.brackets, br.isOpen = false := by
  have hcount : d.brackets.countP (·.isOpen) = 0 := by
    have := h.outstanding
    omega
  intro br hbr
  have := countP_eq_zero.1 hcount br hbr
  simpa using this

theorem mem_modify {f : α → α} {l : List α} {x : α} (h : x ∈ l.modify i f) :
    x ∈ l ∨ ∃ a, l[i]? = some a ∧ x = f a := by
  obtain ⟨j, hj⟩ := mem_iff_getElem?.1 h
  rw [List.getElem?_modify] at hj
  by_cases hij : i = j
  · subst hij
    simp only [↓reduceIte] at hj
    obtain ⟨a, ha, rfl⟩ := Option.map_eq_some_iff.1 hj
    exact .inr ⟨a, ha, rfl⟩
  · simp only [if_neg hij, Option.map_eq_map, Option.map_id'] at hj
    exact .inl (mem_of_getElem? hj)

theorem countP_modify (p : α → Bool) (f : α → α) {l : List α} {a : α} (h : l[i]? = some a) :
    (l.modify i f).countP p + (if p a then 1 else 0) = l.countP p + (if p (f a) then 1 else 0) := by
  induction l generalizing i with
  | nil => simp at h
  | cons x l ih =>
    cases i with
    | zero =>
      simp only [List.getElem?_cons_zero, Option.some.injEq] at h
      simp only [modify_zero_cons, countP_cons, h]
      omega
    | succ i =>
      have := ih (by simpa using h)
      simp only [modify_succ_cons, countP_cons]
      omega

section

variable (h : d.Sound)

include h

theorem Sound.committer_eq_none (hc : d.log.committing = false) : d.committer = none := by
  rw [h.committing] at hc
  simpa using hc

theorem Sound.beginOp (hb : Log.beginOp d.log = some l) (t : Nat) :
    ({ d with log := l, brackets := d.openBracket t } : Data).Sound := by
  obtain ⟨hcom, -, rfl⟩ := beginOp_eq_some hb
  have hnone := h.committer_eq_none hcom
  have hmem : ∀ br ∈ d.openBracket t, br ∈ d.brackets ∨
      br = { owner := t, txn := d.committed.length, blocks := [], isOpen := true } := by
    simpa [openBracket] using hbr
  refine ⟨?_, h.committing, fun hsome => ?_, fun br hbr hopen => ?_, fun br hbr => ?_⟩
  · simp [openBracket, h.outstanding]
  · simp [hnone] at hsome
  · rcases hmem br hbr with hold | rfl
    · exact h.current br hold hopen
    · rfl
  · rcases hmem br hbr with hold | rfl
    · exact h.kept br hold
    · exact ⟨d.log.lh.blocks, by simp [transactions], by simp⟩

theorem Sound.recordBlock (ho : d.Owns t id) (b : Nat) :
    ({ d with log := { d.log with lh := d.log.lh.record b }, brackets := d.recordBlock id b } :
      Data).Sound := by
  have hnone := (h.not_committing ho).1
  obtain ⟨br₀, hbr₀, -, hopen₀⟩ := ho
  have hgrow : ∀ (n : Nat) (bs : List Nat), d.transactions[n]? = some bs →
      ∃ bs', (d.committed ++ [(d.log.lh.record b).blocks])[n]? = some bs' ∧ ∀ x ∈ bs, x ∈ bs' := by
    intro n bs hbs
    unfold transactions at hbs
    by_cases hn : n < d.committed.length
    · rw [List.getElem?_append_left hn] at hbs ⊢
      exact ⟨bs, hbs, fun _ hx => hx⟩
    · have hlast : n = d.committed.length := by
        have := (List.getElem?_eq_some_iff.1 hbs).1
        simp only [length_append, length_singleton] at this
        omega
      subst hlast
      simp only [List.getElem?_concat_length, Option.some.injEq] at hbs ⊢
      subst hbs
      exact ⟨_, rfl, fun x hx => (LogHeader.mem_blocks_record ..).2 (.inl hx)⟩
  refine ⟨?_, h.committing, fun hsome => ?_, fun br hbr hopen => ?_, fun br hbr => ?_⟩
  · have hcount := countP_modify (·.isOpen) (fun br => { br with blocks := br.blocks ++ [b] }) hbr₀
    simp only [Nat.add_right_cancel_iff] at hcount
    simp only [Data.recordBlock, hcount, h.outstanding]
  · simp [hnone] at hsome
  · rcases mem_modify hbr with hold | ⟨a, ha, rfl⟩
    · exact h.current br hold hopen
    · exact h.current a (mem_of_getElem? ha) hopen
  · rcases mem_modify hbr with hold | ⟨a, ha, rfl⟩
    · obtain ⟨bs, hbs, hin⟩ := h.kept br hold
      obtain ⟨bs', hbs', hsub⟩ := hgrow _ _ hbs
      exact ⟨bs', hbs', fun x hx => hsub x (hin x hx)⟩
    · -- the bracket that logs the block belongs to the transaction of the header
      rw [hbr₀, Option.some.injEq] at ha
      subst ha
      have hcurrent := h.current br₀ (mem_of_getElem? hbr₀) hopen₀
      obtain ⟨bs, hbs, hin⟩ := h.kept br₀ (mem_of_getElem? hbr₀)
      rw [hcurrent, transactions, List.getElem?_concat_length, Option.some.injEq] at hbs
      subst hbs
      refine ⟨(d.log.lh.record b).blocks, by simp [transactions, hcurrent], fun x hx => ?_⟩
      rw [LogHeader.mem_blocks_record]
      rcases mem_append.1 hx with hx | hx
      · exact .inl (hin x hx)
      · exact .inr (mem_singleton.1 hx)

theorem Sound.closeBracket (ho : d.Owns t id) :
    ({ d with log := { d.log with outstanding := d.log.outstanding - 1 }
              brackets := d.closeBracket id } : Data).Sound := by
  have hnone := (h.not_committing ho).1
  obtain ⟨br₀, hbr₀, -, hopen₀⟩ := ho
  refine ⟨?_, h.committing, fun hsome => ?_, fun br hbr hopen => ?_, fun br hbr => ?_⟩
  · have hcount := countP_modify (·.isOpen) (fun br => { br with isOpen := false }) hbr₀
    simp only [hopen₀, if_true, Bool.false_eq_true, if_false] at hcount
    have := h.outstanding
    simp only [Data.closeBracket]
    omega
  · simp [hnone] at hsome
  · rcases mem_modify hbr with hold | ⟨a, ha, rfl⟩
    · exact h.current br hold hopen
    · cases hopen
  · rcases mem_modify hbr with hold | ⟨a, ha, rfl⟩
    · exact h.kept br hold
    · exact h.kept a (mem_of_getElem? ha)

theorem Sound.startCommit (h0 : d.log.outstanding = 0) (t : Nat) :
    ({ d with log := { d.log with committing := true }, committer := some t } : Data).Sound :=
  ⟨h.outstanding, rfl, fun _ => h.all_closed h0, h.current, h.kept⟩

theorem Sound.endCommit :
    ({ d with log := { d.log with committing := false }, committer := none } : Data).Sound :=
  ⟨h.outstanding, rfl, nofun, h.current, h.kept⟩

theorem Sound.commitBlocks (hc : d.committer.isSome) :
    d.commitBlocks.Sound ∧ d.commitBlocks.Settled := by
  have hkept : ∀ br ∈ d.brackets, br.txn < (d.committed ++ [d.log.lh.blocks]).length := by
    intro br hbr
    obtain ⟨bs, hbs, -⟩ := h.kept br hbr
    exact (List.getElem?_eq_some_iff.1 hbs).1
  refine ⟨⟨h.outstanding, h.committing, h.quiet, fun br hbr hopen => ?_, fun br hbr => ?_⟩, hkept⟩
  · cases (h.quiet hc br hbr).symm.trans hopen
  · obtain ⟨bs, hbs, hin⟩ := h.kept br hbr
    refine ⟨bs, ?_, hin⟩
    simp only [transactions, Data.commitBlocks]
    rw [List.getElem?_append_left (hkept br hbr)]
    exact hbs

theorem Sound.clear (hs : d.Settled) :
    ({ d with log := { d.log with lh := { d.log.lh with n := 0 } } } : Data).Sound := by
  refine ⟨h.outstanding, h.committing, h.quiet, h.current, fun br hbr => ?_⟩
  obtain ⟨bs, hbs, hin⟩ := h.kept br hbr
  refine ⟨bs, ?_, hin⟩
  simp only [transactions] at hbs ⊢
  rw [List.getElem?_append_left (hs br hbr)] at hbs ⊢
  exact hbs

end

theorem Owns.openBracket (h : d.Owns q id) (t : Nat) :
    ({ d with log := l, brackets := d.openBracket t } : Data).Owns q id := by
  obtain ⟨br, hbr, hown⟩ := h
  refine ⟨br, ?_, hown⟩
  simp only [Data.openBracket]
  rw [List.getElem?_append_left (List.getElem?_eq_some_iff.1 hbr).1]
  exact hbr

theorem owns_openBracket (d : Data) (l : State) (t : Nat) :
    ({ d with log := l, brackets := d.openBracket t } : Data).Owns t d.brackets.length :=
  ⟨{ owner := t, txn := d.committed.length, blocks := [], isOpen := true },
    by simp [Data.openBracket], rfl, rfl⟩

theorem Owns.recordBlock (h : d.Owns q id') (id b : Nat) :
    ({ d with log := l, brackets := d.recordBlock id b } : Data).Owns q id' := by
  obtain ⟨br, hbr, howner, hopen⟩ := h
  by_cases hid : id = id'
  · subst hid
    exact ⟨{ br with blocks := br.blocks ++ [b] },
      by simp [Data.recordBlock, hbr], howner, hopen⟩
  · exact ⟨br, by simp [Data.recordBlock, hid, hbr], howner, hopen⟩

theorem Owns.closeBracket {c : Option Nat} (h : d.Owns q id') (ho : d.Owns t id) (hq : q ≠ t) :
    ({ d with log := l, committer := c, brackets := d.closeBracket id } : Data).Owns q id' := by
  obtain ⟨br, hbr, howner, hopen⟩ := h
  have hid : id ≠ id' := by
    rintro rfl
    obtain ⟨br', hbr', howner', -⟩ := ho
    rw [hbr, Option.some.injEq] at hbr'
    subst hbr'
    exact hq (howner.symm.trans howner')
  exact ⟨br, by simp [Data.closeBracket, hid, hbr], howner, hopen⟩

end Data

/-! ## The protocol -/

def outline : Monitor.Outline Data Loc where
  always := Data.Sound
  free _ := True
  out t ℓ d :=
    match ℓ with
    | .idle => True
    | .inOp id => d.Owns t id
    | .commit | .writeLog _ | .writeHead => d.committer = some t
    | .installTrans _ | .clear | .eraseHead => d.committer = some t ∧ d.Settled
    | _ => False
  wait t ℓ d :=
    match ℓ with
    | .beginOp => t < nproc
    | .logWrite id _ | .endOp id => d.Owns t id
    | .finish => d.committer = some t
    | _ => False
  hold t _ ℓ d :=
    match ℓ with
    | .beginOp => t < nproc
    | .logWrite id _ | .endOp id => d.Owns t id
    | .endLast | .finish => d.committer = some t
    | .endDone | .finished => True
    | _ => False

theorem spares (hc : ∀ q, q ≠ t → d.committer ≠ some q)
    (ho : ∀ q id, q ≠ t → d.Owns q id → d'.Owns q id) : outline.Spares t d d' := by
  intro q ℓ hq
  have hnot := hc q hq
  constructor
  · intro h
    cases ℓ with
    | inOp id => exact ho q id hq h
    | commit | writeLog | writeHead => exact absurd h hnot
    | installTrans | clear | eraseHead => exact absurd h.1 hnot
    | _ => exact h
  · intro h
    cases ℓ with
    | logWrite id b | endOp id => exact ho q id hq h
    | finish => exact absurd h hnot
    | _ => exact h

theorem hold_spares (hq : q ≠ t) (hc : ∀ q, q ≠ t → d.committer ≠ some q)
    (ho : ∀ q id, q ≠ t → d.Owns q id → d'.Owns q id) (h : outline.hold q k ℓ d) :
    outline.hold q k ℓ d' := by
  have hnot := hc q hq
  cases ℓ with
  | logWrite id b | endOp id => exact ho q id hq h
  | endLast | finish => exact absurd h hnot
  | _ => exact h

theorem endOp_eq_ok (h : Log.endOp l = .ok l') : l.committing = false ∧ l' = { l with
      outstanding := l.outstanding - 1, committing := decide (l.outstanding - 1 = 0) } := by
  unfold Log.endOp at h
  split at h
  · cases h
  · rename_i hcom
    split at h
    · rename_i h0
      cases h
      exact ⟨by simpa using hcom, by simp [h0]⟩
    · rename_i h0
      cases h
      simp only [Bool.not_eq_true] at hcom
      exact ⟨hcom, by simp [h0, hcom]⟩

theorem outline_inside (hs : d.Sound) (hh : outline.hold t k ℓ d) (ha : inside t ℓ d = .ok a) :
    a.data.Sound ∧ outline.After t k a ∧ outline.Spares t d a.data := by
  cases ℓ with
  | beginOp =>
    cases hb : Log.beginOp d.log with
    | none =>
      simp only [inside, hb] at ha
      cases ha
      exact ⟨hs, ⟨trivial, hh⟩, fun _ _ _ => ⟨id, id⟩⟩
    | some l =>
      simp only [inside, hb] at ha
      cases ha
      have hnone := hs.committer_eq_none (beginOp_eq_some hb).1
      exact ⟨hs.beginOp hb t, ⟨trivial, d.owns_openBracket l t⟩,
        spares (fun _ _ => by simp [hnone]) fun q id _ ho => ho.openBracket t⟩
  | logWrite id b =>
    obtain ⟨l, hw, ha⟩ := bind_eq_ok.1 ha
    cases ha
    have hnone := (hs.not_committing hh).1
    rcases logWrite_cases hw with ⟨he, -⟩ | ⟨he, -⟩ | ⟨he, -⟩
    · cases he
    · cases he
    · cases he
      exact ⟨hs.recordBlock hh b, ⟨trivial, hh.recordBlock id b⟩,
        spares (fun _ _ => by simp [hnone]) fun q id' _ ho => ho.recordBlock id b⟩
  | endOp id =>
    obtain ⟨l, he, ha⟩ := bind_eq_ok.1 ha
    obtain ⟨hcom, rfl⟩ := endOp_eq_ok he
    have hnone := (hs.not_committing hh).1
    have hclose := hs.closeBracket hh
    have hspares : ∀ l c, outline.Spares t d
        { d with log := l, committer := c, brackets := d.closeBracket id } := fun l c =>
      spares (fun _ _ => by simp [hnone]) fun q id' hq ho => ho.closeBracket hh hq
    by_cases h0 : d.log.outstanding - 1 = 0
    · simp only [h0] at ha
      cases ha
      exact ⟨by simpa [Monitor.Act.data, h0] using hclose.startCommit h0 t, rfl, hspares _ _⟩
    · simp only [h0] at ha
      cases ha
      exact ⟨by simpa [Monitor.Act.data, hcom] using hclose, trivial, hspares _ _⟩
  | endLast =>
    cases ha
    exact ⟨hs, ⟨trivial, hh⟩, fun _ _ _ => ⟨id, id⟩⟩
  | finish =>
    cases ha
    refine ⟨hs.endCommit, trivial, spares (fun q hq => ?_) fun _ _ _ ho => ho⟩
    have hself : d.committer = some t := hh
    rw [hself, ne_eq, Option.some.injEq]
    exact fun he => hq he.symm
  | endDone | finished =>
    cases ha
    exact ⟨hs, ⟨trivial, trivial⟩, fun _ _ _ => ⟨id, id⟩⟩
  | idle | inOp | commit | writeLog | writeHead | installTrans | clear | eraseHead => exact hh.elim

theorem outside_spec (inp : Input) (hs : d.Sound) (ho : outline.out t ℓ d) :
    ((outside t ℓ d inp).data d).Sound ∧ outline.Moved t ℓ d (outside t ℓ d inp) ∧
      ((outside t ℓ d inp).data d = d ∨ d.committer = some t ∧
        ((outside t ℓ d inp).data d).brackets = d.brackets ∧
        ((outside t ℓ d inp).data d).log.committing = d.log.committing) := by
  cases ℓ with
  | idle =>
    cases inp with
    | beginOp =>
      simp only [outside]
      split
      · exact ⟨hs, ‹_›, .inl rfl⟩
      · exact ⟨hs, trivial, .inl rfl⟩
    | logWrite | endOp => exact ⟨hs, trivial, .inl rfl⟩
  | inOp id =>
    cases inp with
    | logWrite | endOp | beginOp => exact ⟨hs, ho, .inl rfl⟩
  | commit =>
    have hc : d.committer = some t := ho
    simp only [outside]
    split
    · exact ⟨hs, hc, .inl rfl⟩
    · exact ⟨(hs.commitBlocks (by simp [hc])).1, hc, .inr ⟨hc, rfl, rfl⟩⟩
  | writeLog tail =>
    simp only [outside]
    split <;> exact ⟨hs, ho, .inl rfl⟩
  | writeHead =>
    have hc : d.committer = some t := ho
    obtain ⟨hsound, hsettled⟩ := hs.commitBlocks (by simp [hc])
    exact ⟨hsound, ⟨hc, hsettled⟩, .inr ⟨hc, rfl, rfl⟩⟩
  | installTrans tail =>
    simp only [outside]
    split <;> exact ⟨hs, ho, .inl rfl⟩
  | clear => exact ⟨hs.clear ho.2, ho, .inr ⟨ho.1, rfl, rfl⟩⟩
  | eraseHead => exact ⟨hs, ho.1, .inl rfl⟩
  | beginOp | logWrite | endOp | endLast | endDone | finish | finished => exact ho.elim

theorem outline_valid : outline.Valid client := by
  refine ⟨fun hs hf hw => ?_, fun hs hh ha => outline_inside hs hh ha, fun hs ho hm => ?_,
    fun hs => ⟨hs, fun _ => trivial, fun _ _ _ => id⟩⟩
  · rename_i t k ℓ d
    cases ℓ with
    | beginOp | logWrite | endOp | finish => exact hw
    | _ => exact hw.elim
  · cases hm
    rename_i t k ℓ d inp
    obtain ⟨hsound, hmoved, hdata⟩ := outside_spec inp hs ho
    rcases hdata with hsame | ⟨hc, hbrackets, -⟩
    · rw [hsame]
      exact ⟨hs, hmoved, fun _ _ _ => ⟨id, id⟩, fun _ => trivial, fun _ _ _ _ => id⟩
    · have hothers : ∀ q, q ≠ t → d.committer ≠ some q := fun q hq he => by
        rw [hc, Option.some.injEq] at he
        exact hq he.symm
      have howns : ∀ q id, q ≠ t → d.Owns q id → ((outside t ℓ d inp).data d).Owns q id := by
        intro q id _ hown
        unfold Data.Owns at hown ⊢
        rwa [hbrackets]
      exact ⟨hsound, hmoved, spares hothers howns, fun _ => trivial,
        fun q k ℓ hq => hold_spares hq hothers howns⟩

theorem outline_step (h : outline.Holds s) (hs : step s e = .ok s') : outline.Holds s' :=
  outline_valid.step (Monitor.step_eq_ok hs) h fun _ _ _ _ hh => hh

theorem Start.holds (h : Start s) : outline.Holds s := by
  refine ⟨⟨?_, ?_, ?_, ?_, ?_⟩, fun _ => trivial, fun t => ?_, fun t => ?_⟩
  · simp [h.outstanding, h.brackets]
  · simp [h.committing, h.committer]
  · simp [h.committer]
  · simp [h.brackets]
  · simp [h.brackets]
  · simp [h.ctl, h.holder, Monitor.Ctl.holds]
  · rw [h.ctl]
    trivial

/-! ## No lost wakeup -/

/-- `begin_op` would return. -/
def Ready (_ : Unit) (d : Data) : Prop := (Log.beginOp d.log).isSome = true

def MayWait (_ : Nat) (_ : Loc) (d : Data) (c : Unit) : Prop := ¬ Ready c d

theorem not_ready_iff : ¬ Ready () d ↔
    d.log.committing = true ∨
      (d.log.lh.n : Int) + (d.log.outstanding + 1) * maxopblocks > logsize := by
  unfold Ready Log.beginOp
  split
  · rename_i hc
    simp [hc]
  · rename_i hc
    split
    · rename_i hroom
      simp [hroom]
    · rename_i hroom
      simp only [Option.isSome_some, not_true_eq_false, false_iff, not_or]
      exact ⟨hc, hroom⟩

theorem n_le_record (lh : LogHeader) (b : Nat) : lh.n ≤ (lh.record b).n := by
  simp only [LogHeader.record]
  split <;> omega

theorem attends_inside (hh : outline.hold t k ℓ d) (ha : inside t ℓ d = .ok a)
    (hwait : ¬ Ready () d) : Monitor.OkAfter Ready MayWait t () a := by
  cases ℓ with
  | beginOp =>
    cases hb : Log.beginOp d.log with
    | none =>
      simp only [inside, hb] at ha
      cases ha
      exact hwait
    | some l => exact absurd (by simp [Ready, hb]) hwait
  | logWrite id b =>
    obtain ⟨l, hw, ha⟩ := bind_eq_ok.1 ha
    cases ha
    rcases logWrite_cases hw with ⟨he, -⟩ | ⟨he, -⟩ | ⟨he, -⟩
    · cases he
    · cases he
    · cases he
      refine not_ready_iff.2 ((not_ready_iff.1 hwait).imp_right fun hroom => ?_)
      have := n_le_record d.log.lh b
      simp only
      omega
  | endOp id =>
    obtain ⟨l, he, ha⟩ := bind_eq_ok.1 ha
    split at ha
    · rename_i hcom
      cases ha
      exact not_ready_iff.2 (.inl hcom)
    · cases ha
      exact fun hc => absurd rfl hc
  | endLast | endDone | finished =>
    cases ha
    exact hwait
  | finish =>
    cases ha
    exact fun hc => absurd rfl hc
  | idle | inOp | commit | writeLog | writeHead | installTrans | clear | eraseHead => exact hh.elim

theorem attends_sleep {ℓ' : Loc} (hh : outline.hold t k ℓ d)
    (ha : inside t ℓ d = .ok (.sleep () d' ℓ')) : t < nproc ∧ ¬ Ready () d' := by
  cases ℓ with
  | beginOp =>
    refine ⟨hh, ?_⟩
    cases hb : Log.beginOp d.log with
    | none =>
      simp only [inside, hb] at ha
      cases ha
      simp [Ready, hb]
    | some l =>
      simp only [inside, hb] at ha
      cases ha
  | logWrite id b =>
    obtain ⟨l, hw, ha⟩ := bind_eq_ok.1 ha
    cases ha
  | endOp id =>
    obtain ⟨l, he, ha⟩ := bind_eq_ok.1 ha
    split at ha <;> cases ha
  | _ => cases ha

theorem attends : Monitor.Attends Ready MayWait client nproc outline := by
  refine ⟨fun _ _ _ hr => hr, fun _ hh ha hok => attends_inside hh ha hok,
    fun _ hh ha => attends_sleep hh ha, fun hs ho hm => ?_,
    fun _ => ⟨fun _ => id, fun _ _ _ _ _ => id⟩⟩
  cases hm
  rename_i t k ℓ d inp
  have hkeep : ¬ Ready () d → ¬ Ready () ((outside t ℓ d inp).data d) := by
    intro hr
    rcases (outside_spec inp hs ho).2.2 with hsame | ⟨hc, -, hcom⟩
    · rwa [hsame]
    · refine not_ready_iff.2 (.inl ?_)
      rw [hcom, hs.committing, hc]
      rfl
  exact ⟨fun _ => hkeep, fun _ _ _ _ _ _ => hkeep⟩

theorem Start.awaited (h : Start s) : s.Awaited Ready MayWait nproc := by
  rintro q c ⟨ℓ, hsleep⟩
  simp [h.ctl] at hsleep

/-! ## Group commit -/

def Loc.inCommit : Loc → Bool
  | .commit | .writeLog _ | .writeHead | .installTrans _ | .clear | .eraseHead => true
  | _ => false

/-- What holds between the steps of the processes: `commit` runs while no operation is
outstanding; the blocks of every bracket are in the transaction that it was opened in, which is
not committed before it is closed; and, with the lock free, a process sleeps only if a commit
is in progress or there is no room. -/
structure Coordinated (s : Sys) : Prop where
  commit : ∀ t ℓ, s.ctl t = .out ℓ → ℓ.inCommit = true → s.data.log.outstanding = 0
  bracket : ∀ br ∈ s.data.brackets,
    (br.isOpen = true → br.txn = s.data.committed.length) ∧
    ∃ bs, (s.data.committed ++ [s.data.log.lh.blocks])[br.txn]? = some bs ∧
      ∀ b ∈ br.blocks, b ∈ bs
  sleeper : s.holder = none → ∀ q, s.Asleep q () → s.data.log.committing = true ∨
    (s.data.log.lh.n : Int) + (s.data.log.outstanding + 1) * maxopblocks > logsize

theorem coordinated_of_holds (hO : outline.Holds s) (hawait : s.Awaited Ready MayWait nproc) :
    Coordinated s := by
  have hs := hO.always
  refine ⟨fun t ℓ hc hcommit => ?_, fun br hbr => ⟨hs.current br hbr, hs.kept br hbr⟩,
    fun hfree q hsleep => not_ready_iff.1 (hawait.of_free hfree hsleep)⟩
  have hout : outline.out t ℓ s.data := hO.thread_of hc
  have hcommitter : s.data.committer = some t := by
    cases ℓ with
    | commit | writeLog | writeHead => exact hout
    | installTrans | clear | eraseHead => exact hout.1
    | _ => cases hcommit
  have hcount : s.data.brackets.countP (·.isOpen) = 0 := by
    rw [countP_eq_zero]
    intro br hbr
    simp [hs.quiet (by simp [hcommitter]) br hbr]
  rw [hs.outstanding, hcount]
  rfl

theorem history_inside (hs : d.Sound) (hh : outline.hold t k ℓ d) (ha : inside t ℓ d = .ok a) :
    a.data.committed = d.committed ∧ (d.log.committing = true → a.data.brackets = d.brackets) := by
  cases ℓ with
  | beginOp =>
    cases hb : Log.beginOp d.log with
    | none =>
      simp only [inside, hb] at ha
      cases ha
      exact ⟨rfl, fun _ => rfl⟩
    | some l =>
      simp only [inside, hb] at ha
      cases ha
      exact ⟨rfl, fun hc => by cases (beginOp_eq_some hb).1.symm.trans hc⟩
  | logWrite id b =>
    obtain ⟨l, hw, ha⟩ := bind_eq_ok.1 ha
    cases ha
    exact ⟨rfl, fun hc => by cases (hs.not_committing hh).2.symm.trans hc⟩
  | endOp id =>
    obtain ⟨l, he, ha⟩ := bind_eq_ok.1 ha
    have hnot : d.log.committing = true → False := fun hc => by
      cases (hs.not_committing hh).2.symm.trans hc
    split at ha <;> cases ha <;> exact ⟨rfl, fun hc => (hnot hc).elim⟩
  | endLast | endDone | finish | finished =>
    cases ha
    exact ⟨rfl, fun _ => rfl⟩
  | idle | inOp | commit | writeLog | writeHead | installTrans | clear | eraseHead => exact hh.elim

theorem committed_outside (t : Nat) (ℓ : Loc) (d : Data) (inp : Input) :
    d.committed <+: ((outside t ℓ d inp).data d).committed := by
  unfold outside
  split
  case h_4 => split <;> simp [Monitor.Move.data, Data.commitBlocks]
  case h_6 => simp [Monitor.Move.data, Data.commitBlocks]
  case h_1 | h_5 | h_7 => split <;> exact prefix_rfl
  all_goals exact prefix_rfl

theorem history_step (hO : outline.Holds s) (hs : step s e = .ok s') :
    s.data.committed <+: s'.data.committed ∧
      (s.data.log.committing = true → s'.data.brackets = s.data.brackets) := by
  cases Monitor.step_eq_ok hs with
  | inside hc ha =>
    obtain ⟨hcommitted, hbrackets⟩ := history_inside hO.always (hO.thread_of hc) ha
    rw [Monitor.State.act_data, hcommitted]
    exact ⟨prefix_rfl, hbrackets⟩
  | outside hc hm =>
    rename_i t inp ℓ m
    cases hm
    rw [Monitor.State.move_data]
    refine ⟨committed_outside t ℓ s.data inp, fun _ => ?_⟩
    rcases (outside_spec inp hO.always (hO.thread_of hc)).2.2 with hsame | ⟨-, hbrackets, -⟩
    · rw [hsame]
    · exact hbrackets
  | idle | acquire | visit | woken | doze | kill | fresh | env =>
    exact ⟨prefix_rfl, fun _ => rfl⟩

theorem step_ne_logCommitting (e : Event) (hO : outline.Holds s) :
    step s e ≠ .error .logCommitting := by
  intro h
  obtain ⟨t, i, ℓ, -, ⟨hc, ha⟩ | ⟨-, hm⟩⟩ := Monitor.step_eq_error h
  · have hh : outline.hold t (s.killed t) ℓ s.data := hO.thread_of hc
    cases ℓ with
    | beginOp =>
      simp only [client, inside] at ha
      split at ha <;> cases ha
    | logWrite id b =>
      simp only [client, inside] at ha
      cases hw : Log.logWrite s.data.log b with
      | error x =>
        rw [hw] at ha
        cases ha
        rcases logWrite_cases hw with ⟨he, -⟩ | ⟨he, -⟩ | ⟨he, -⟩ <;> cases he
      | ok l => rw [hw] at ha; cases ha
    | endOp id =>
      have hcom := (hO.always.not_committing hh).2
      simp only [client, inside, Log.endOp, hcom, Bool.false_eq_true, if_false] at ha
      split at ha <;> cases ha
    | _ => cases ha
  · cases hm

/-- Group commit, over every interleaving of `begin_op`, `log_write` and `end_op` by any
processes. -/
theorem group_commit {s : Sys} (hs : Start s) (es : List Event) :
    Run.exec step s es ≠ .error .logCommitting ∧
    ∀ s', Run.exec step s es = .ok s' → Coordinated s' ∧
      ∀ e s'', step s' e = .ok s'' → s'.data.committed <+: s''.data.committed ∧
        (s'.data.log.committing = true → s''.data.brackets = s'.data.brackets) := by
  refine ⟨ne_error_of_exec (I := outline.Holds) (fun _ _ _ => outline_step)
    (fun _ e => step_ne_logCommitting e) hs.holds, fun s' hrun => ?_⟩
  have hinv : outline.Holds s' ∧ s'.Awaited Ready MayWait nproc :=
    inv_of_exec (I := fun x => outline.Holds x ∧ x.Awaited Ready MayWait nproc)
      (fun _ _ _ hx hstep => ⟨outline_step hx.1 hstep,
        (Monitor.step_eq_ok hstep).awaited attends hx.1 hx.2⟩)
      ⟨hs.holds, hs.awaited⟩ hrun
  exact ⟨coordinated_of_holds hinv.1 hinv.2, fun e s'' => history_step hinv.1⟩

def fresh : Sys :=
  { data :=
      { log := { start := logstart, size := nlog, outstanding := 0, committing := false
                 lh := { n := 0, block := fun _ => 0 } }
        committer := none, brackets := [], committed := [] }
    holder := none, ctl := fun _ => .out .idle, killed := fun _ => false }

theorem start_fresh : Start fresh := ⟨rfl, rfl, rfl, rfl, rfl, rfl, rfl, fun _ => rfl⟩

/-- One process logs a block and leaves; while it commits another one comes and sleeps. -/
def oneBlock : List Event :=
  [.run 0 .beginOp, .run 0 .beginOp, .run 0 .beginOp, .run 0 (.logWrite 50), .run 0 .endOp,
    .run 0 .endOp, .run 0 .endOp, .run 0 .endOp, .run 0 .endOp, .run 0 .endOp, .run 0 .endOp,
    .run 0 .endOp, .run 0 .endOp, .run 0 .endOp,
    .run 1 .beginOp, .run 1 .beginOp, .run 1 .beginOp, .run 1 .beginOp]

theorem group_commit_oneBlock :
    Start fresh ∧ ∃ s', Run.exec step fresh oneBlock = .ok s' ∧ Coordinated s' ∧
      s'.data.committed = [[50]] ∧ s'.holder = none ∧ s'.Asleep 1 () := by
  have hends : Run.ends step fresh oneBlock (fun s => decide (s.data.committed = [[50]]) &&
      s.holder.isNone && s.sleeps 1 ()) = true := by decide +kernel
  obtain ⟨s', hrun, hcheck⟩ := of_ends hends
  simp only [Bool.and_eq_true, decide_eq_true_eq, Option.isNone_iff_eq_none] at hcheck
  obtain ⟨⟨hcommitted, hfree⟩, hsleep⟩ := hcheck
  exact ⟨start_fresh, s', hrun, ((group_commit start_fresh oneBlock).2 s' hrun).1, hcommitted,
    hfree, Monitor.State.asleep_of_sleeps hsleep⟩

end Xv6.Log.Group
