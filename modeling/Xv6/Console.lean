/-
`kernel/console.c`: the line that is being typed, and the lines that wait for `consoleread`.

A step is a call of `consoleintr` or one round of the loop of `consoleread`.  The code keeps
`cons.lock` from one round to the next unless it sleeps, so its interleavings are among those
here.  The echo is left out, and the destination of a read can be written.
-/
import Mathlib.Data.List.DropRight
import Xv6.Lib.Ring

namespace Xv6.Console

open Function List

def inputBuf : Nat := 128

def ctrl (x : Char) : Int := x.toNat - '@'.toNat

def sub (a b : Nat) : Nat := (a + 2 ^ 32 - b) % 2 ^ 32

structure Cons where
  buf : Nat → Nat
  r : Nat
  w : Nat
  e : Nat

namespace Cons

/-- The loop for control-U; it ends at `w`, so `n` is the distance from there. -/
def eraseLine : Nat → Cons → Cons
  | 0, s => s
  | n + 1, s =>
    if s.e ≠ s.w ∧ s.buf (sub s.e 1 % inputBuf) ≠ 10 then eraseLine n { s with e := sub s.e 1 }
    else s

def consoleintr (s : Cons) (c : Int) : Cons :=
  if c = ctrl 'P' then s
  else if c = ctrl 'U' then s.eraseLine (sub s.e s.w)
  else if c = ctrl 'H' ∨ c = 127 then if s.e ≠ s.w then { s with e := sub s.e 1 } else s
  else if c ≠ 0 ∧ sub s.e s.r < inputBuf then
    let c := if c = 13 then 10 else c
    let s := { s with
      buf := update s.buf (s.e % inputBuf) (c % 256).toNat
      e := (s.e + 1) % 2 ^ 32 }
    if c = 10 ∨ c = ctrl 'D' ∨ s.e = (s.r + inputBuf) % 2 ^ 32 then { s with w := s.e } else s
  else s

end Cons

/-- What the console is for: a line can be edited until it is committed, and the bytes of
committed lines are taken one by one. -/
structure Line where
  /-- typed since the last commit, after editing -/
  pending : List Nat
  committed : List Nat
  taken : List Nat

namespace Line

variable (t : Line)

def unread : List Nat := t.committed.drop t.taken.length

def held : Nat := (t.committed ++ t.pending).length - t.taken.length

def type (c : Int) : Line :=
  if c = ctrl 'P' then t
  else if c = ctrl 'U' then { t with pending := t.pending.rdropWhile (· != 10) }
  else if c = ctrl 'H' ∨ c = 127 then { t with pending := t.pending.dropLast }
  else if c ≠ 0 ∧ t.held < inputBuf then
    let c := if c = 13 then 10 else c
    let t := { t with pending := t.pending ++ [(c % 256).toNat] }
    if c = 10 ∨ c = ctrl 'D' ∨ t.held = inputBuf then
      { t with committed := t.committed ++ t.pending, pending := [] }
    else t
  else t

end Line

/-- A call of `consoleread`: two of its variables, and the bytes that it has copied out. -/
structure Call where
  target : Int
  n : Int
  bytes : List Nat

inductive Stop where
  | limit
  | newline
  | eof
  | killed

def Call.ret (a : Call) : Stop → Int
  | .killed => -1
  | _ => a.target - a.n

/-- A call that has returned to process `reader`; the bytes taken before the one that ended it are
`pos`. -/
structure Return where
  reader : Nat
  call : Call
  why : Stop
  pos : Nat

structure State where
  cons : Cons
  /-- the calls in progress -/
  calls : Nat → Option Call
  /-- history: what has been typed, and what has been taken from the buffer -/
  line : Line
  /-- history: the bytes that have been copied out, and the processes that got them -/
  delivered : List (Nat × Nat)
  /-- history: the calls that have returned, the last one first -/
  returned : List Return

namespace State

variable (s : State)

def returns (p : Nat) (a : Call) (why : Stop) (pos : Nat) : State :=
  { s with calls := update s.calls p none, returned := ⟨p, a, why, pos⟩ :: s.returned }

/-- `c = cons.buf[cons.r++ % INPUT_BUF]` -/
def take (c : Nat) : State :=
  { s with
    cons := { s.cons with r := (s.cons.r + 1) % 2 ^ 32 }
    line := { s.line with taken := s.line.taken ++ [c] } }

def untake : State :=
  { s with
    cons := { s.cons with r := sub s.cons.r 1 }
    line := { s.line with taken := s.line.taken.dropLast } }

def round (p : Nat) (killed : Bool) (a : Call) : State :=
  let pos := s.line.taken.length
  if a.n ≤ 0 then s.returns p a .limit pos
  else if s.cons.r = s.cons.w then if killed then s.returns p a .killed pos else s
  else
    let c := s.cons.buf (s.cons.r % inputBuf)
    let s := s.take c
    if c = ctrl 'D' then
      if a.n < a.target then s.untake.returns p a .eof pos else s.returns p a .eof pos
    else
      let s := { s with delivered := s.delivered ++ [(p, c)] }
      let a := { a with n := a.n - 1, bytes := a.bytes ++ [c] }
      if c = 10 then s.returns p a .newline pos else { s with calls := update s.calls p (some a) }

/-- The bytes from `r` to `w`. -/
def unread : List Nat := Ring.window inputBuf s.cons.buf s.cons.r (sub s.cons.w s.cons.r)

/-- The bytes that process `p` has got from its calls, in their order. -/
def got (p : Nat) : List Nat :=
  ((s.returned.reverse.filter (·.reader = p)).flatMap (·.call.bytes)) ++
    ((s.calls p).elim [] (·.bytes))

/-- The bytes from `w` to `e`. -/
def pending : List Nat := Ring.window inputBuf s.cons.buf s.cons.w (sub s.cons.e s.cons.w)

end State

inductive Event where
  | intr (c : Int)
  | call (p : Nat) (n : Int)
  | round (p : Nat) (killed : Bool)

def step (s : State) : Event → State
  | .intr c => { s with cons := s.cons.consoleintr c, line := s.line.type c }
  | .call p n =>
    match s.calls p with
    | none => { s with calls := update s.calls p (some { target := n, n, bytes := [] }) }
    | some _ => s
  | .round p killed =>
    match s.calls p with
    | none => s
    | some a => s.round p killed a

def start : State where
  cons := { buf := fun _ => 0, r := 0, w := 0, e := 0 }
  calls _ := none
  line := { pending := [], committed := [], taken := [] }
  delivered := []
  returned := []

variable {k : Cons} {t : Line} {s : State} {a : Call} {p : Nat}

/-! ## The buffer holds the lines -/

/-- The indices count the bytes, and the buffer holds those that have not been taken. -/
structure Holds (k : Cons) (t : Line) : Prop where
  r : k.r = t.taken.length % 2 ^ 32
  w : k.w = t.committed.length % 2 ^ 32
  e : k.e = (t.committed ++ t.pending).length % 2 ^ 32
  taken : t.taken <+: t.committed
  room : (t.committed ++ t.pending).length ≤ t.taken.length + inputBuf
  cell : ∀ i b, t.taken.length ≤ i → (t.committed ++ t.pending)[i]? = some b →
    k.buf (i % inputBuf) = b

namespace Holds

variable (h : Holds k t)
include h

theorem le : t.taken.length ≤ t.committed.length := h.taken.length_le

theorem sub_w_r : sub k.w k.r = t.committed.length - t.taken.length := by
  have hle := h.le
  have hroom := h.room
  rw [h.w, h.r, sub]
  simp only [length_append, inputBuf] at hroom
  omega

theorem sub_e_w : sub k.e k.w = t.pending.length := by
  have hle := h.le
  have hroom := h.room
  rw [h.w, h.e, sub]
  simp only [length_append, inputBuf] at hroom ⊢
  omega

theorem sub_e_r : sub k.e k.r = t.held := by
  have hle := h.le
  have hroom := h.room
  rw [h.r, h.e, sub, Line.held]
  simp only [length_append, inputBuf] at hroom ⊢
  omega

theorem e_ne_w : k.e ≠ k.w ↔ t.pending ≠ [] := by
  have hroom := h.room
  have hle := h.le
  rw [h.w, h.e, ← length_pos_iff]
  simp only [length_append, inputBuf] at hroom ⊢
  omega

theorem erase {l : List Nat} {b : Nat} (hl : t.pending = l ++ [b]) :
    k.buf (sub k.e 1 % inputBuf) = b ∧
      Holds { k with e := sub k.e 1 } { t with pending := l } := by
  have hroom := h.room
  have hcell := h.cell
  have he := h.e
  rw [hl, ← append_assoc] at hroom hcell he
  rw [length_append, length_singleton] at hroom he
  have hsub : sub k.e 1 = (t.committed ++ l).length % 2 ^ 32 := by
    rw [sub]
    omega
  refine ⟨?_, h.r, h.w, hsub, h.taken, Nat.le_of_succ_le hroom, fun i x hi hx => ?_⟩
  · have hle : t.taken.length ≤ (t.committed ++ l).length := by
      rw [length_append]
      exact Nat.le_add_right_of_le h.le
    rw [hsub, Nat.mod_mod_of_dvd _ (by decide)]
    exact hcell _ b hle (by simp)
  · refine hcell i x hi ?_
    rw [getElem?_append_left (List.getElem?_eq_some_iff.1 hx).1]
    exact hx

theorem eraseLine : Holds (k.eraseLine t.pending.length)
    { t with pending := t.pending.rdropWhile (· != 10) } := by
  obtain ⟨l, committed, taken⟩ := t
  -- by induction on the line from its end, where the bytes are erased
  induction l using List.reverseRecOn generalizing k with
  | nil => exact h
  | append_singleton l b ih =>
    obtain ⟨hb, hrest⟩ := h.erase rfl
    have hne : k.e ≠ k.w := h.e_ne_w.2 (by simp)
    rw [length_append, length_singleton, Cons.eraseLine, hb]
    by_cases hten : b = 10
    · rw [if_neg (by simp [hten]), rdropWhile_concat_neg _ _ _ (by simp [hten])]
      exact h
    · rw [if_pos ⟨hne, hten⟩, rdropWhile_concat_pos _ _ _ (by simpa using hten)]
      exact ih hrest

theorem append (hroom : t.held < inputBuf) (b : Nat) :
    Holds { k with buf := update k.buf (k.e % inputBuf) b, e := (k.e + 1) % 2 ^ 32 }
      { t with pending := t.pending ++ [b] } := by
  have hcell : k.e % inputBuf = (t.committed ++ t.pending).length % inputBuf := by
    rw [h.e, Nat.mod_mod_of_dvd _ (by decide)]
  have hlen : (t.committed ++ (t.pending ++ [b])).length =
      (t.committed ++ t.pending).length + 1 := by simp [Nat.add_assoc]
  rw [Line.held] at hroom
  refine ⟨h.r, h.w, ?_, h.taken, ?_, fun i x hi hx => ?_⟩
  · dsimp only
    rw [h.e]
    omega
  · dsimp only
    omega
  · dsimp only at hi hx ⊢
    rw [← append_assoc] at hx
    rw [hcell]
    rcases Nat.lt_or_ge i (t.committed ++ t.pending).length with hlt | hge
    · rw [getElem?_append_left hlt] at hx
      rw [update_of_ne _, h.cell i x hi hx]
      unfold inputBuf at hroom ⊢
      omega
    · rw [getElem?_append_right hge] at hx
      obtain ⟨hi', hx⟩ := List.getElem?_eq_some_iff.1 hx
      rw [length_singleton] at hi'
      rw [show i = (t.committed ++ t.pending).length by omega, ← hx]
      simp

theorem commit : Holds { k with w := k.e }
    { t with committed := t.committed ++ t.pending, pending := [] } := by
  refine ⟨h.r, h.e, ?_, h.taken.trans (prefix_append ..), ?_, fun i x hi hx => ?_⟩
  · simpa using h.e
  · simpa using h.room
  · exact h.cell i x hi (by simpa using hx)

theorem type (c : Int) : Holds (k.consoleintr c) (t.type c) := by
  unfold Cons.consoleintr Line.type
  split
  · exact h
  split
  · rw [h.sub_e_w]
    exact h.eraseLine
  split
  · by_cases hne : t.pending = []
    · rw [if_neg fun he => h.e_ne_w.1 he hne, hne, dropLast_nil, ← hne]
      exact h
    · rw [if_pos (h.e_ne_w.2 hne)]
      exact (h.erase (dropLast_append_getLast hne).symm).2
  rw [h.sub_e_r]
  split
  case isFalse => exact h
  rename_i hc
  generalize (if c = 13 then 10 else c) = c'
  have happ := h.append hc.2 (c' % 256).toNat
  have hfull : (k.e + 1) % 2 ^ 32 = (k.r + inputBuf) % 2 ^ 32 ↔
      ({ t with pending := t.pending ++ [(c' % 256).toNat] } : Line).held = inputBuf := by
    have hroom := happ.room
    have hle := h.le
    rw [show (k.e + 1) % 2 ^ 32 = _ from happ.e, h.r, Line.held]
    simp only [length_append, inputBuf] at hroom ⊢
    omega
  simp only [hfull]
  split
  · exact happ.commit
  · exact happ

theorem take (hne : k.r ≠ k.w) : ∃ u, t.unread = k.buf (k.r % inputBuf) :: u ∧
    ({ t with taken := t.taken ++ [k.buf (k.r % inputBuf)] } : Line).unread = u ∧
    Holds { k with r := (k.r + 1) % 2 ^ 32 }
      { t with taken := t.taken ++ [k.buf (k.r % inputBuf)] } := by
  obtain ⟨u, hu⟩ := h.taken
  have hroom := h.room
  cases u with
  | nil => exact absurd (by rw [h.r, h.w, ← hu, append_nil]) hne
  | cons b u =>
    have hb : k.buf (k.r % inputBuf) = b := by
      rw [h.r, Nat.mod_mod_of_dvd _ (by decide)]
      exact h.cell _ b le_rfl (by simp [← hu])
    rw [hb]
    refine ⟨u, by simp [Line.unread, ← hu], by simp [Line.unread, ← hu], ?_, h.w, h.e, ?_, ?_, ?_⟩
    · dsimp only
      rw [h.r, length_append, length_singleton]
      omega
    · exact ⟨u, by simp [← hu]⟩
    · simp only [length_append] at hroom ⊢
      omega
    · intro i x hi hx
      rw [length_append] at hi
      exact h.cell i x (Nat.le_of_add_right_le hi) hx

theorem unread_eq : Ring.window inputBuf k.buf k.r (sub k.w k.r) = t.unread := by
  have hmod : k.r % inputBuf = t.taken.length % inputBuf := by
    rw [h.r, Nat.mod_mod_of_dvd _ (by decide)]
  rw [h.sub_w_r, Ring.window_congr hmod, ← length_drop]
  refine Ring.window_eq fun i x hx => h.cell _ x (Nat.le_add_right ..) ?_
  rw [getElem?_drop] at hx
  rwa [getElem?_append_left (List.getElem?_eq_some_iff.1 hx).1]

end Holds

/-! ## The calls -/

def Plain (bs : List Nat) : Prop := ∀ b ∈ bs, (b : Int) ≠ ctrl 'D' ∧ b ≠ 10

/-- What is known of a call in progress. -/
structure Call.Ok (a : Call) : Prop where
  count : a.n + a.bytes.length = a.target
  left : a.bytes = [] ∨ 0 ≤ a.n
  plain : Plain a.bytes

/-- How a call returns: with as many bytes as it was to read, at the end of a line, or with the
bytes in front of a control-D; a process that is killed while it waits gets -1. -/
structure Return.Ended (committed : List Nat) (x : Return) : Prop where
  ret : x.call.ret x.why = match x.why with
    | .killed => -1
    | _ => (x.call.bytes.length : Int)
  le : x.call.bytes.length ≤ x.call.target.toNat
  stop : match x.why with
    | .limit => Plain x.call.bytes ∧ x.call.bytes.length = x.call.target.toNat
    | .newline => ∃ bs, Plain bs ∧ x.call.bytes = bs ++ [10]
    | .eof => Plain x.call.bytes ∧ ∃ b, committed[x.pos]? = some b ∧ (b : Int) = ctrl 'D'
    | .killed => Plain x.call.bytes

structure Inv (s : State) : Prop where
  holds : Holds s.cons s.line
  delivered : s.delivered.map Prod.snd = s.line.taken.filter fun b : Nat => (b : Int) ≠ ctrl 'D'
  readers : ∀ p, (s.delivered.filter (·.1 = p)).map Prod.snd = s.got p
  calls : ∀ p a, s.calls p = some a → a.Ok
  returned : ∀ x ∈ s.returned, x.Ended s.line.committed

theorem type_kept (t : Line) (c : Int) :
    (t.type c).taken = t.taken ∧ t.committed <+: (t.type c).committed := by
  unfold Line.type
  dsimp only
  repeat' split
  all_goals first
    | exact ⟨rfl, prefix_rfl⟩
    | exact ⟨rfl, prefix_append ..⟩

theorem take_untake (h : Holds s.cons s.line) (c : Nat) : (s.take c).untake = s := by
  have hr : sub ((s.cons.r + 1) % 2 ^ 32) 1 = s.cons.r := by
    rw [h.r, sub]
    omega
  simp only [State.take, State.untake, hr, dropLast_concat]

theorem Inv.update (h : Inv s) {o : Option Call} (ho : ∀ a, o = some a → a.Ok) (q : Nat)
    (a : Call) (ha : update s.calls p o q = some a) : a.Ok := by
  by_cases hq : q = p
  · rw [hq, update_self] at ha
    exact ho a ha
  · rw [update_of_ne hq] at ha
    exact h.calls q a ha

theorem Inv.returns (h : Inv s) (hp : s.calls p = some a) {why : Stop} {pos : Nat}
    (ha : Return.Ended s.line.committed ⟨p, a, why, pos⟩) : Inv (s.returns p a why pos) := by
  refine ⟨h.holds, h.delivered, fun q => (h.readers q).trans ?_, h.update nofun, fun x hx => ?_⟩
  · unfold State.got State.returns
    by_cases hq : q = p
    · simp [hq, hp]
    · simp [update_of_ne hq, Ne.symm hq]
  · rcases mem_cons.1 hx with rfl | hx
    · exact ha
    · exact h.returned x hx

theorem Inv.start (h : Inv s) (hp : s.calls p = none) (ha : a.Ok) (hnil : a.bytes = []) :
    Inv { s with calls := Function.update s.calls p (some a) } := by
  refine ⟨h.holds, h.delivered, fun q => (h.readers q).trans ?_, h.update fun b hb => ?_,
    h.returned⟩
  · unfold State.got
    by_cases hq : q = p
    · simp [hq, hp, hnil]
    · simp [update_of_ne hq]
  · cases hb
    exact ha

/-- A byte has gone from the buffer to process `p`. -/
theorem Inv.deliver (h : Inv s) (hp : s.calls p = some a) {b : Nat} (hb : (b : Int) ≠ ctrl 'D')
    (hholds : Holds (s.take b).cons (s.take b).line) {a' : Call} (ha : a'.Ok)
    (hbytes : a'.bytes = a.bytes ++ [b]) : Inv { s.take b with
      delivered := s.delivered ++ [(p, b)], calls := Function.update s.calls p (some a') } := by
  refine ⟨hholds, ?_, fun q => ?_, h.update fun c hc => ?_, h.returned⟩
  · simp only [State.take, map_append, h.delivered]
    simp [hb]
  · have hq := h.readers q
    unfold State.got at hq ⊢
    rw [filter_append, map_append, hq]
    by_cases hqp : q = p
    · simp [hqp, hp, hbytes, State.take]
    · simp [update_of_ne hqp, Ne.symm hqp, State.take]
  · cases hc
    exact ha

theorem Inv.round (h : Inv s) (hp : s.calls p = some a) (killed : Bool) :
    Inv (s.round p killed a) := by
  obtain ⟨hcount, hleft, hplain⟩ := h.calls p a hp
  have hlen : a.target - a.n = a.bytes.length := by omega
  unfold State.round
  dsimp only
  split
  · refine h.returns hp ⟨hlen, ?_, hplain, ?_⟩
    · rcases hleft with hnil | hle
      · simp [hnil]
      · dsimp only
        omega
    · dsimp only
      rcases hleft with hnil | hle
      · rw [hnil, length_nil] at hcount ⊢
        omega
      · omega
  split
  · split
    · exact h.returns hp ⟨rfl, by dsimp only; omega, hplain⟩
    · exact h
  rename_i hne
  obtain ⟨u, hu, -, hholds⟩ := h.holds.take hne
  split
  · rename_i hc
    have hend : Return.Ended s.line.committed ⟨p, a, .eof, s.line.taken.length⟩ := by
      refine ⟨hlen, by dsimp only; omega, hplain, _, ?_, hc⟩
      have := congrArg (fun l : List Nat => l[0]?) hu
      rwa [Line.unread, getElem?_drop] at this
    split
    · rw [take_untake h.holds]
      exact h.returns hp hend
    · have htake : Inv (s.take (s.cons.buf (s.cons.r % inputBuf))) := by
        refine ⟨hholds, ?_, h.readers, h.calls, h.returned⟩
        simp only [State.take, h.delivered]
        simp [hc]
      exact htake.returns hp hend
  · rename_i hc
    generalize hb : s.cons.buf (s.cons.r % inputBuf) = b at hc hholds ⊢
    have hlen' : a.target - (a.n - 1) = (a.bytes ++ [b]).length := by
      rw [length_append, length_singleton]
      omega
    split
    · rename_i hten
      refine ⟨hholds, ?_, fun q => ?_, h.update nofun, fun x hx => ?_⟩
      · simp only [State.returns, State.take, map_append, h.delivered]
        simp [hc]
      · have hq := h.readers q
        unfold State.got at hq ⊢
        simp only [State.returns, State.take, filter_append, map_append, hq]
        by_cases hqp : q = p
        · simp [hqp, hp]
        · simp [update_of_ne hqp, Ne.symm hqp]
      · rcases mem_cons.1 hx with rfl | hx
        · exact ⟨hlen', by dsimp only; omega, a.bytes, hplain, by rw [hten]⟩
        · exact h.returned x hx
    · rename_i hten
      refine h.deliver hp hc hholds ⟨by dsimp only; omega, .inr (by dsimp only; omega),
        fun x hx => ?_⟩ rfl
      rcases mem_append.1 hx with hx | hx
      · exact hplain x hx
      · rw [mem_singleton.1 hx]
        exact ⟨hc, hten⟩

theorem Inv.step (h : Inv s) (ev : Event) : Inv (step s ev) := by
  cases ev with
  | intr c =>
    obtain ⟨htaken, l, hl⟩ := type_kept s.line c
    refine ⟨h.holds.type c, ?_, h.readers, h.calls, fun x hx => ?_⟩
    · rw [Console.step, htaken]
      exact h.delivered
    · obtain ⟨hret, hle, hstop⟩ := h.returned x hx
      refine ⟨hret, hle, ?_⟩
      rw [Console.step, ← hl]
      revert hstop
      cases x.why with
      | eof =>
        rintro ⟨hplain, b, hb, hd⟩
        exact ⟨hplain, b, getElem?_append_left (List.getElem?_eq_some_iff.1 hb).1 ▸ hb, hd⟩
      | limit => exact id
      | newline => exact id
      | killed => exact id
  | call p n =>
    unfold Console.step
    dsimp only
    split
    · exact h.start ‹_› ⟨by simp, .inl rfl, by simp [Plain]⟩ rfl
    · exact h
  | round p killed =>
    unfold Console.step
    dsimp only
    split
    · exact h
    · rename_i a ha
      exact h.round ha killed

/-- What holds in every state: `r <= w <= e <= r + INPUT_BUF`, the buffer holds the committed
bytes that have not been taken and the line that is being edited, and the bytes taken, without
those for control-D, have been copied out, to each process in the order of its calls. -/
structure Disciplined (s : State) : Prop where
  indices : sub s.cons.w s.cons.r + sub s.cons.e s.cons.w ≤ inputBuf
  unread : s.unread = s.line.unread
  pending : s.pending = s.line.pending
  taken : s.line.taken <+: s.line.committed
  delivered : s.delivered.map Prod.snd = s.line.taken.filter fun b : Nat => (b : Int) ≠ ctrl 'D'
  readers : ∀ p, (s.delivered.filter (·.1 = p)).map Prod.snd = s.got p
  calls : ∀ p a, s.calls p = some a → a.Ok
  returned : ∀ x ∈ s.returned, x.Ended s.line.committed

/-- What a round of call `a` of process `p` does when `b` is the next byte: a control-D ends the
call, and stays if the call has data already; every other byte goes to the process. -/
def Reads (s s' : State) (p : Nat) (a : Call) (b : Nat) (u : List Nat) : Prop :=
  if (b : Int) = ctrl 'D' then
    s'.returned = ⟨p, a, .eof, s.line.taken.length⟩ :: s.returned ∧ s'.delivered = s.delivered ∧
      s'.unread = if a.bytes = [] then u else b :: u
  else
    s'.delivered = s.delivered ++ [(p, b)] ∧ s'.unread = u

theorem Inv.waits (h : Inv s) (ha : s.calls p = some a) (hn : 0 < a.n) (hu : s.unread = []) :
    Console.step s (.round p false) = s := by
  have heq : s.cons.r = s.cons.w := by
    by_contra hne
    obtain ⟨u, hu', -⟩ := h.holds.take hne
    rw [← h.holds.unread_eq, ← State.unread, hu] at hu'
    cases hu'
  unfold Console.step
  dsimp only
  rw [ha]
  dsimp only
  rw [State.round]
  dsimp only
  rw [if_neg (show ¬a.n ≤ 0 by omega), if_pos heq]
  rfl

end Xv6.Console
