/-
The list of buffers of `kernel/bio.c`: the pointers that lead through `bcache.head`, and the
buffer that `bget` recycles.

A step is a critical section under `bcache.lock`, in whatever order processes come to them, or
the rest of `bread`.  Sleeplocks, contents and the callers of these functions are in `Bio.Basic`,
where the list is a list.
-/
import Mathlib.Data.List.FinRange
import Mathlib.Data.List.Perm.Subperm
import Xv6.Lib.Dlist
import Xv6.Lib.Run
import Xv6.Param

namespace Xv6.Lru

open Function List
open Dlist (Links Seg Circular)
open Run (exec ends of_ends inv_of_exec map_eq_ok)

structure Buf where
  valid : Bool
  dev : Nat
  blockno : Nat
  refcnt : Nat
  deriving DecidableEq

/-- A pointer to a buffer; `none` points to `bcache.head`. -/
abbrev Ptr := Option (Fin nbuf)

structure State where
  bufs : Fin nbuf → Buf
  links : Links Ptr
  /-- history: the number of steps so far -/
  clock : Nat
  /-- history: the step in which `refcnt` last became 0 through `brelse`, 0 if there is none -/
  released : Fin nbuf → Nat

def binit : State where
  bufs _ := { valid := false, dev := 0, blockno := 0, refcnt := 0 }
  links := ((finRange nbuf).map some).foldl (fun k b => k.linkFront none b)
    { next := fun _ => none, prev := fun _ => none }
  clock := 0
  released _ := 0

/-- `for (b = first; b != &bcache.head; b = step b) if (test b) ...` -/
def scan (step : Ptr → Ptr) (test : Fin nbuf → Bool) : Nat → Ptr → Ptr
  | 0, _ => none
  | _ + 1, none => none
  | n + 1, some b => if test b then some b else scan step test n (step (some b))

def Buf.caches (dev blockno : Nat) (b : Buf) : Bool := b.dev == dev && b.blockno == blockno

def wrap (n : Nat) : Nat := n % 2 ^ 32

namespace State

variable (s : State)

def setBuf (b : Fin nbuf) (v : Buf) : State := { s with bufs := update s.bufs b v }

def bget (dev blockno : Nat) : Except Panic (Fin nbuf × State) :=
  match scan s.links.next (fun b => (s.bufs b).caches dev blockno) (nbuf + 1)
      (s.links.next none) with
  | some b => .ok (b, s.setBuf b { s.bufs b with refcnt := wrap ((s.bufs b).refcnt + 1) })
  | none =>
    match scan s.links.prev (fun b => (s.bufs b).refcnt == 0) (nbuf + 1) (s.links.prev none) with
    | some b => .ok (b, s.setBuf b { dev, blockno, valid := false, refcnt := 1 })
    | none => .error .bgetNoBuffers

/-- What `bread` does once `virtio_disk_rw` has filled the buffer. -/
def fill (b : Fin nbuf) : State := s.setBuf b { s.bufs b with valid := true }

def bpin (b : Fin nbuf) : State :=
  s.setBuf b { s.bufs b with refcnt := wrap ((s.bufs b).refcnt + 1) }

def bunpin (b : Fin nbuf) : State :=
  s.setBuf b { s.bufs b with refcnt := wrap ((s.bufs b).refcnt + (2 ^ 32 - 1)) }

def brelse (b : Fin nbuf) : State :=
  let s := s.bunpin b
  if (s.bufs b).refcnt = 0 then
    { s with
      links := (s.links.unlink (some b)).linkFront none (some b)
      released := update s.released b (s.clock + 1) }
  else s

end State

inductive Op where
  | bget (dev blockno : Nat)
  | fill (b : Fin nbuf)
  | brelse (b : Fin nbuf)
  | bpin (b : Fin nbuf)
  | bunpin (b : Fin nbuf)

def Op.run (s : State) : Op → Except Panic State
  | .bget dev blockno => (s.bget dev blockno).map Prod.snd
  | .fill b => .ok (s.fill b)
  | .brelse b => .ok (s.brelse b)
  | .bpin b => .ok (s.bpin b)
  | .bunpin b => .ok (s.bunpin b)

def step (s : State) (op : Op) : Except Panic State :=
  (op.run s).map fun s' => { s' with clock := s.clock + 1 }

variable {s s' : State} {l : List (Fin nbuf)} {b : Fin nbuf} {dev blockno : Nat}

/-- From `head.next` to `head.prev` the pointers lead through the buffers in `l`, which are all
of them, and those released later come first. -/
structure Ordered (s : State) (l : List (Fin nbuf)) : Prop where
  links : Circular s.links none (l.map some)
  mem : ∀ b, b ∈ l
  order : l.Pairwise fun b c => s.released c = 0 ∨ s.released c < s.released b

namespace Ordered

variable (h : Ordered s l)
include h

theorem nodup : l.Nodup := (nodup_cons.1 h.links.nodup).2.of_map

theorem length_le : l.length ≤ nbuf := by
  have hsub := List.Nodup.subperm h.nodup fun b (_ : b ∈ l) => mem_finRange b
  simpa using hsub.length_le

omit h in
theorem scan_eq {k : Links Ptr} {a : Ptr} (test : Fin nbuf → Bool) {n : Nat}
    (hseg : Seg k a (l.map some) none) (hn : l.length < n) :
    scan k.next test n (k.next a) = l.find? test := by
  induction l generalizing a n with
  | nil =>
    obtain ⟨m, rfl⟩ := Nat.exists_eq_succ_of_ne_zero (Nat.ne_of_gt hn)
    rw [hseg.1, find?_nil, scan]
  | cons b l ih =>
    obtain ⟨m, rfl⟩ := Nat.exists_eq_succ_of_ne_zero (Nat.ne_zero_of_lt hn)
    obtain ⟨hb, -, hseg⟩ := hseg
    rw [hb, scan, find?_cons, ih hseg (Nat.lt_of_succ_lt_succ hn)]
    cases test b with
    | true => rfl
    | false => rfl

theorem scan_next (test : Fin nbuf → Bool) :
    scan s.links.next test (nbuf + 1) (s.links.next none) = l.find? test :=
  scan_eq test h.links.seg (Nat.lt_succ_of_le h.length_le)

theorem scan_prev (test : Fin nbuf → Bool) :
    scan s.links.prev test (nbuf + 1) (s.links.prev none) = l.reverse.find? test := by
  have hseg := h.links.seg.reverse
  rw [← map_reverse] at hseg
  refine scan_eq test hseg ?_
  rw [length_reverse]
  exact Nat.lt_succ_of_le h.length_le

theorem oldest {test : Fin nbuf → Bool} (hb : l.reverse.find? test = some b) {c : Fin nbuf}
    (hc : test c = true) (hne : c ≠ b) : s.released b = 0 ∨ s.released b < s.released c := by
  obtain ⟨-, l₁, l₂, hl, hfail⟩ := find?_eq_some_iff_append.1 hb
  have hl' : l = l₂.reverse ++ b :: l₁.reverse := by
    rw [← l.reverse_reverse, hl, reverse_append, reverse_cons, append_assoc]
    rfl
  have hmem := h.mem c
  have horder := h.order
  rw [hl'] at hmem horder
  rcases mem_append.1 hmem with hm | hm
  · exact (pairwise_append.1 horder).2.2 c hm b (mem_cons_self ..)
  rcases mem_cons.1 hm with rfl | hm
  · exact absurd rfl hne
  · have := hfail c (mem_reverse.1 hm)
    rw [hc] at this
    cases this

theorem bget_miss (hmiss : ∀ b, (s.bufs b).caches dev blockno = false) :
    s.bget dev blockno =
      match l.reverse.find? fun b => (s.bufs b).refcnt == 0 with
      | some b => .ok (b, s.setBuf b { dev, blockno, valid := false, refcnt := 1 })
      | none => .error .bgetNoBuffers := by
  have hnone : l.find? (fun b => (s.bufs b).caches dev blockno) = none :=
    find?_eq_none.2 fun b _ => by rw [hmiss b]; exact Bool.false_ne_true
  rw [State.bget, h.scan_next, hnone, h.scan_prev]
  rfl

end Ordered

theorem bget_kept (h : s.bget dev blockno = .ok (b, s')) : s'.links = s.links ∧
    s'.released = s.released := by
  unfold State.bget at h
  split at h
  · cases h
    exact ⟨rfl, rfl⟩
  split at h
  · cases h
    exact ⟨rfl, rfl⟩
  · cases h

theorem Ordered.congr (h : Ordered s l) (hlinks : s'.links = s.links)
    (hreleased : s'.released = s.released) : Ordered s' l :=
  ⟨hlinks ▸ h.links, h.mem, hreleased ▸ h.order⟩

theorem Ordered.brelse (h : Ordered s l) (hle : ∀ b, s.released b ≤ s.clock) (b : Fin nbuf) :
    ∃ l, Ordered (s.brelse b) l := by
  unfold State.brelse
  dsimp only
  split
  · obtain ⟨l₁, l₂, rfl⟩ := append_of_mem (h.mem b)
    have hlinks := h.links
    rw [map_append] at hlinks
    have hperm : l₁ ++ b :: l₂ ~ b :: (l₁ ++ l₂) := perm_middle
    obtain ⟨hb, -⟩ := nodup_cons.1 (hperm.nodup_iff.1 h.nodup)
    have hne : ∀ c ∈ l₁ ++ l₂, c ≠ b := fun c hc he => hb (he ▸ hc)
    refine ⟨b :: (l₁ ++ l₂), ?_, fun c => hperm.mem_iff.1 (h.mem c),
      pairwise_cons.2 ⟨fun c hc => .inr ?_, ?_⟩⟩
    · rw [map_cons, map_append]
      refine hlinks.unlink.linkFront fun hm => hb ?_
      simpa using hm
    · dsimp only
      rw [update_self, update_of_ne (hne c hc)]
      exact Nat.lt_succ_of_le (hle c)
    · refine (h.order.sublist ?_).imp_of_mem fun hx hy hxy => ?_
      · exact (Sublist.refl l₁).append (sublist_cons_self b l₂)
      · dsimp only
        rw [update_of_ne (hne _ hx), update_of_ne (hne _ hy)]
        exact hxy
  · exact ⟨l, h.congr rfl rfl⟩

structure Inv (s : State) : Prop where
  ordered : ∃ l, Ordered s l
  past : ∀ b, s.released b ≤ s.clock

theorem inv_binit : Inv binit := by
  refine ⟨⟨(finRange nbuf).reverse, ?_, fun b => ?_, ?_⟩, fun _ => le_rfl⟩
  · have hempty : Circular (⟨fun _ => none, fun _ => none⟩ : Links Ptr) none [] :=
      ⟨by simp, rfl, rfl⟩
    have hnd : ((finRange nbuf).map some).Nodup :=
      (nodup_finRange nbuf).map fun _ _ => Option.some.inj
    have hbufs := hempty.foldl_linkFront hnd (by simp)
    exact hbufs
  · exact mem_reverse.2 (mem_finRange b)
  · exact pairwise_of_forall fun _ _ => .inl rfl

theorem released_brelse (s : State) (b c : Fin nbuf) :
    (s.brelse b).released c = s.released c ∨ (s.brelse b).released c = s.clock + 1 := by
  unfold State.brelse
  dsimp only
  split
  · by_cases hc : c = b
    · exact .inr (by rw [hc]; exact update_self ..)
    · exact .inl (update_of_ne hc ..)
  · exact .inl rfl

theorem inv_step {op : Op} (h : Inv s) (hs : step s op = .ok s') : Inv s' := by
  obtain ⟨⟨l, hl⟩, hpast⟩ := h
  obtain ⟨s₁, hrun, rfl⟩ := map_eq_ok.1 hs
  -- all but `brelse` leave the list alone
  have hsame : s₁.links = s.links → s₁.released = s.released →
      Inv { s₁ with clock := s.clock + 1 } := by
    intro h1 h2
    refine ⟨⟨l, (hl.congr h1 h2).congr rfl rfl⟩, fun b => ?_⟩
    rw [h2]
    exact Nat.le_succ_of_le (hpast b)
  cases op with
  | bget dev blockno =>
    obtain ⟨⟨b, s₂⟩, hget, rfl⟩ := map_eq_ok.1 hrun
    obtain ⟨h1, h2⟩ := bget_kept hget
    exact hsame h1 h2
  | fill b =>
    cases hrun
    exact hsame rfl rfl
  | bpin b =>
    cases hrun
    exact hsame rfl rfl
  | bunpin b =>
    cases hrun
    exact hsame rfl rfl
  | brelse b =>
    cases hrun
    obtain ⟨l', hl'⟩ := hl.brelse hpast b
    refine ⟨⟨l', hl'.congr rfl rfl⟩, fun c => ?_⟩
    have := hpast c
    rcases released_brelse s b c with h | h
    · exact h ▸ Nat.le_succ_of_le this
    · exact h ▸ le_rfl

/-- In every run the pointers lead through all buffers, each once, ordered by the time at which
they were last released; `bget` recycles the unused buffer that was released first, and panics
exactly when there is none. -/
theorem recycles_lru {ops : List Op} (h : exec step binit ops = .ok s) :
    ∃ l, Ordered s l ∧ ∀ dev blockno, (∀ b, (s.bufs b).caches dev blockno = false) →
      (s.bget dev blockno = .error .bgetNoBuffers ↔ ∀ b, 0 < (s.bufs b).refcnt) ∧
      ∀ b s', s.bget dev blockno = .ok (b, s') →
        (s.bufs b).refcnt = 0 ∧ s'.bufs b = ⟨false, dev, blockno, 1⟩ ∧
        ∀ c, c ≠ b → (s.bufs c).refcnt = 0 → s.released b = 0 ∨ s.released b < s.released c := by
  obtain ⟨⟨l, hl⟩, -⟩ := inv_of_exec (fun _ _ _ => inv_step) inv_binit h
  refine ⟨l, hl, fun dev blockno hmiss => ?_⟩
  rw [hl.bget_miss hmiss]
  cases hfind : l.reverse.find? fun b => (s.bufs b).refcnt == 0 with
  | none =>
    have hall : ∀ b, 0 < (s.bufs b).refcnt := by
      intro b
      have := find?_eq_none.1 hfind b (mem_reverse.2 (hl.mem b))
      exact Nat.pos_of_ne_zero (by simpa using this)
    exact ⟨iff_of_true rfl hall, nofun⟩
  | some v =>
    have hv : (s.bufs v).refcnt = 0 := by simpa using find?_some hfind
    refine ⟨iff_of_false nofun fun hall => ?_, ?_⟩
    · exact absurd (hall v) (by omega)
    · rintro b s' hb
      cases hb
      refine ⟨hv, update_self .., fun c hne hc => ?_⟩
      exact hl.oldest hfind (by simpa using hc) hne

/-- Two buffers are taken and released, the first one first. -/
theorem recycles_lru_two : ∃ s l, Ordered s l ∧ s.released ⟨0, by decide⟩ = 3 ∧
    s.released ⟨1, by decide⟩ = 4 := by
  have hends : ends step binit
      [.bget 1 5, .bget 1 6, .brelse ⟨0, by decide⟩, .brelse ⟨1, by decide⟩]
      (fun s => s.released ⟨0, by decide⟩ == 3 && s.released ⟨1, by decide⟩ == 4) = true := by
    decide
  obtain ⟨s, hrun, hs⟩ := of_ends hends
  obtain ⟨l, hl, -⟩ := recycles_lru hrun
  exact ⟨s, l, hl, by simpa using hs⟩

end Xv6.Lru
