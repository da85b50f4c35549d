/-
The references to open files: `f->ref` is the number of descriptors that refer to `f`, every open
inode has one reference for each file, and a pipe lives as long as a file refers to one of its
ends.
-/
import Xv6.Ftable.Basic
import Xv6.Lib.Tally

namespace Xv6.Ftable

open Function List
open Run (bind_eq_ok)
open Tally (tally one tally_change tally_congr tally_pos tally_eq_zero below mem_below grid mem_grid)

variable {v : File}

def File.inode (v : File) : Option Nat :=
  match v.type with
  | .inode | .device => some v.ip
  | .pipe | .none => none

/-- The end of a pipe that a file refers to: the pipe, and whether it is the end for writing. -/
def File.pipeEnd (v : File) : Option (Nat × Bool) :=
  if v.type = .pipe then some (v.pipe, v.writable) else none

def Pipe.isOpen (q : Pipe) (w : Bool) : Bool := if w then q.writeopen else q.readopen

theorem Pipe.isOpen_close (q : Pipe) (w w' : Bool) :
    (if w then { q with writeopen := false } else { q with readopen := false } : Pipe).isOpen w' =
      (q.isOpen w' && (w' != w)) := by
  cases w <;> cases w' <;> simp [isOpen]

theorem Pipe.closed_iff (q : Pipe) :
    (q.readopen = false ∧ q.writeopen = false) ↔ ∀ w, q.isOpen w = false := by
  simp [isOpen]

namespace State

variable (s : State)

def refs (f : Nat) : Nat := tally (grid nproc nofile) (fun x => s.ofile x.1 x.2) f

/-- The counts, when the call in progress has the references `e` besides. -/
structure Counts (e : List Nat) : Prop where
  ref : ∀ f < nfile, (s.ftable f).ref = s.refs f + e.count f
  range : ∀ p fd f, s.ofile p fd = some f → p < nproc ∧ fd < nofile ∧ f < nfile
  inflight : ∀ f ∈ e, f < nfile
  unopened : ∀ f < nfile, (s.ftable f).ref = 0 → (s.ftable f).type = .none

/-- The references to inodes, when the call in progress has the references `e` besides. -/
def Inodes (e : List Nat) : Prop :=
  ∀ ip, s.iref ip = tally (below nfile) (fun f => (s.ftable f).inode) ip + e.count ip

/-- A pipe is there as long as one of its ends is, and its page is nobody else's. -/
structure Pipes : Prop where
  ends : ∀ pi w, (∃ f < nfile, (s.ftable f).pipeEnd = some (pi, w)) ↔
    ∃ q, s.pipes pi = some q ∧ q.isOpen w = true
  alive : ∀ pi q, s.pipes pi = some q → ∃ w, q.isOpen w = true
  one : ∀ f < nfile, ∀ g < nfile, ∀ x, (s.ftable f).pipeEnd = some x →
    (s.ftable g).pipeEnd = some x → f = g
  pages : (s.phys.freelist ++ s.held).Nodup
  ram : ∀ x ∈ s.phys.freelist ++ s.held, RamPage x
  own : ∀ pi q, s.pipes pi = some q → RamPage pi ∧ pi ∉ s.phys.freelist ++ s.held

structure Inv (e ei : List Nat) : Prop where
  counts : s.Counts e
  inodes : s.Inodes ei
  pipes : s.Pipes

/-- A file that a descriptor refers to is a pipe, an inode or a device. -/
def Typed : Prop := ∀ p fd f, s.ofile p fd = some f → (s.ftable f).type ≠ .none

def Spare : Prop := ∀ p, s.used p = false → ∀ fd, s.ofile p fd = none

end State

/-- The descriptors of other processes than `p` are the same, and so are the processes. -/
structure Frame (p : Nat) (s s' : State) : Prop where
  used : s'.used = s.used
  others : ∀ q, q ≠ p → s'.ofile q = s.ofile q

theorem Frame.refl (p : Nat) (s : State) : Frame p s s := ⟨rfl, fun _ _ => rfl⟩

theorem Frame.trans {p : Nat} {a b c : State} (h : Frame p a b) (h' : Frame p b c) : Frame p a c :=
  ⟨h'.used.trans h.used, fun q hq => (h'.others q hq).trans (h.others q hq)⟩

theorem Frame.of_eq {p : Nat} {s s' : State} (hu : s'.used = s.used) (ho : s'.ofile = s.ofile) :
    Frame p s s' := ⟨hu, fun q _ => by rw [ho]⟩

theorem Frame.setFd (s : State) (p fd : Nat) (v : Option Nat) : Frame p s (s.setFd p fd v) :=
  ⟨rfl, fun _ hq => update_of_ne hq ..⟩

theorem Frame.spare {p : Nat} {s s' : State} (h : Frame p s s') (hs : s.Spare)
    (hp : s.used p = true) : s'.Spare := by
  intro q hq fd
  rw [h.used] at hq
  have hne : q ≠ p := fun he => by rw [he, hp] at hq; cases hq
  rw [h.others q hne]
  exact hs q hq fd

namespace State

variable {s s' : State} {e e' ei : List Nat} {p fd f : Nat}

@[simp] theorem ftable_setFile_self (f : Nat) (v : File) : (s.setFile f v).ftable f = v :=
  update_self ..

theorem ftable_setFile_of_ne {f g : Nat} (h : g ≠ f) (v : File) :
    (s.setFile f v).ftable g = s.ftable g := update_of_ne h ..

theorem refs_setFd (hp : p < nproc) (hfd : fd < nofile) (v : Option Nat) (f : Nat) :
    (s.setFd p fd v).refs f + one (s.ofile p fd) f = s.refs f + one v f := by
  have hothers : ∀ x : Nat × Nat, x ≠ (p, fd) →
      (s.setFd p fd v).ofile x.1 x.2 = s.ofile x.1 x.2 := by
    rintro ⟨q, j⟩ hx
    by_cases hq : q = p
    · subst hq
      have hj : j ≠ fd := fun he => hx (by rw [he])
      simp only [setFd, update_self, update_of_ne hj]
    · simp only [setFd, update_of_ne hq]
  have hself : (s.setFd p fd v).ofile p fd = v := by simp [setFd]
  have hchange := tally_change (mem_grid.2 ⟨hp, hfd⟩) hothers f
  rw [hself] at hchange
  exact hchange

theorem Counts.setFd (h : s.Counts e) (hp : p < nproc) (hfd : fd < nofile) {v : Option Nat}
    (hv : ∀ f, v = some f → f < nfile) (he : ∀ f ∈ e', f < nfile)
    (hcount : ∀ f, one (s.ofile p fd) f + e.count f = one v f + e'.count f) :
    (s.setFd p fd v).Counts e' := by
  refine ⟨fun f hf => ?_, fun q j f hq => ?_, he, h.unopened⟩
  · have hrefs := refs_setFd (s := s) hp hfd v f
    have href := h.ref f hf
    have := hcount f
    have hsame : ((s.setFd p fd v).ftable f).ref = (s.ftable f).ref := rfl
    omega
  · by_cases hqp : q = p
    · subst hqp
      by_cases hj : j = fd
      · subst hj
        simp only [State.setFd, update_self] at hq
        exact ⟨hp, hfd, hv f hq⟩
      · simp only [State.setFd, update_self, update_of_ne hj] at hq
        exact h.range q j f hq
    · simp only [State.setFd, update_of_ne hqp] at hq
      exact h.range q j f hq

theorem Counts.setFile (h : s.Counts e) (he : ∀ f ∈ e', f < nfile)
    (hv : v.ref = s.refs f + e'.count f) (hothers : ∀ g, g ≠ f → e'.count g = e.count g)
    (hzero : v.ref = 0 → v.type = .none) : (s.setFile f v).Counts e' := by
  refine ⟨fun g hg => ?_, h.range, he, fun g hg => ?_⟩
  · by_cases hgf : g = f
    · rw [hgf, ftable_setFile_self]
      exact hv
    · rw [ftable_setFile_of_ne hgf, hothers g hgf]
      exact h.ref g hg
  · by_cases hgf : g = f
    · rw [hgf, ftable_setFile_self]
      exact hzero
    · rw [ftable_setFile_of_ne hgf]
      exact h.unopened g hg

theorem Inodes.congr (h : s.Inodes ei) (hiref : s'.iref = s.iref)
    (hfile : ∀ f, (s'.ftable f).inode = (s.ftable f).inode) : s'.Inodes ei := by
  intro ip
  rw [hiref, h ip, tally_congr (fun f _ => hfile f)]

theorem Pipes.congr (h : s.Pipes) (hfile : ∀ f, (s'.ftable f).pipeEnd = (s.ftable f).pipeEnd)
    (hpipes : s'.pipes = s.pipes) (hphys : s'.phys = s.phys) (hheld : s'.held = s.held) :
    s'.Pipes := by
  refine ⟨fun pi w => ?_, ?_, ?_, ?_, ?_, ?_⟩
  · simp only [hfile, hpipes]
    exact h.ends pi w
  · rw [hpipes]
    exact h.alive
  · simp only [hfile]
    exact h.one
  · rw [hphys, hheld]
    exact h.pages
  · rw [hphys, hheld]
    exact h.ram
  · rw [hpipes, hphys, hheld]
    exact h.own

theorem Inv.setFile_same (h : s.Inv e ei) (he : ∀ f ∈ e', f < nfile)
    (hv : v.ref = s.refs f + e'.count f) (hothers : ∀ g, g ≠ f → e'.count g = e.count g)
    (hzero : v.ref = 0 → v.type = .none) (hinode : v.inode = (s.ftable f).inode)
    (hend : v.pipeEnd = (s.ftable f).pipeEnd) : (s.setFile f v).Inv e' ei := by
  refine ⟨h.counts.setFile he hv hothers hzero, h.inodes.congr rfl fun g => ?_,
    h.pipes.congr (fun g => ?_) rfl rfl rfl⟩
  · by_cases hg : g = f
    · rw [hg, ftable_setFile_self, hinode]
    · rw [ftable_setFile_of_ne hg]
  · by_cases hg : g = f
    · rw [hg, ftable_setFile_self, hend]
    · rw [ftable_setFile_of_ne hg]

theorem Inv.setFd (h : s.Inv e ei) (hp : p < nproc) (hfd : fd < nofile) {v : Option Nat}
    (hv : ∀ f, v = some f → f < nfile) (he : ∀ f ∈ e', f < nfile)
    (hcount : ∀ f, one (s.ofile p fd) f + e.count f = one v f + e'.count f) :
    (s.setFd p fd v).Inv e' ei :=
  ⟨h.counts.setFd hp hfd hv he hcount, h.inodes.congr rfl fun _ => rfl,
    h.pipes.congr (fun _ => rfl) rfl rfl rfl⟩

theorem count_cons_eq_one (f g : Nat) : (f :: e).count g = e.count g + one (some f) g := by
  rw [count_cons, one]
  simp [beq_iff_eq]

theorem Inv.clearFd (h : s.Inv e ei) (hf : s.ofile p fd = some f) :
    (s.setFd p fd none).Inv (f :: e) ei := by
  obtain ⟨hp, hfd, hfile⟩ := h.counts.range p fd f hf
  refine h.setFd hp hfd nofun (fun g hg => ?_) fun g => ?_
  · rcases mem_cons.1 hg with rfl | hg
    · exact hfile
    · exact h.counts.inflight g hg
  · rw [hf, count_cons_eq_one, Tally.one_none]
    omega

/-! ## Files and descriptors -/

theorem Counts.congr (h : s.Counts e) (hf : s'.ftable = s.ftable) (ho : s'.ofile = s.ofile) :
    s'.Counts e := by
  have hrefs : ∀ f, s'.refs f = s.refs f := fun f => by rw [refs, ho]; rfl
  refine ⟨fun f hlt => ?_, ?_, h.inflight, ?_⟩
  · rw [hf, hrefs]
    exact h.ref f hlt
  · rw [ho]
    exact h.range
  · rw [hf]
    exact h.unopened

theorem Counts.ref_pos (h : s.Counts e) (hf : s.ofile p fd = some f) :
    f < nfile ∧ 1 ≤ (s.ftable f).ref := by
  obtain ⟨hp, hfd, hfile⟩ := h.range p fd f hf
  have hpos : 0 < s.refs f := tally_pos.2 ⟨(p, fd), mem_grid.2 ⟨hp, hfd⟩, hf⟩
  have href := h.ref f hfile
  exact ⟨hfile, by omega⟩

theorem Counts.ref_pos_of_mem (h : s.Counts e) (hf : f ∈ e) : 1 ≤ (s.ftable f).ref := by
  have hpos := count_pos_iff.2 hf
  have href := h.ref f (h.inflight f hf)
  omega

theorem filealloc_eq_some (h : s.filealloc = some (f, s')) :
    f < nfile ∧ (s.ftable f).ref = 0 ∧ s' = s.setRef f 1 := by
  unfold filealloc at h
  split at h
  · cases h
  · rename_i g hg
    cases h
    have hfound := List.find?_some hg
    exact ⟨mem_range.1 (mem_of_find?_eq_some hg), by simpa using hfound, rfl⟩

theorem fdalloc_eq_some (h : s.fdalloc p f = some (fd, s')) :
    fd < nofile ∧ s.ofile p fd = none ∧ s' = s.setFd p fd (some f) := by
  unfold fdalloc at h
  split at h
  · cases h
  · rename_i j hj
    cases h
    have hfound := List.find?_some hj
    exact ⟨mem_range.1 (mem_of_find?_eq_some hj), by simpa using hfound, rfl⟩

theorem Inv.filealloc (h : s.Inv e ei) (hf : s.filealloc = some (f, s')) :
    s'.Inv (f :: e) ei ∧ f < nfile ∧ (s'.ftable f).type = .none ∧ f ∉ e ∧ s'.ofile = s.ofile ∧
      s'.used = s.used ∧ ∀ g, g ≠ f → s'.ftable g = s.ftable g := by
  obtain ⟨hlt, hzero, rfl⟩ := filealloc_eq_some hf
  have href := h.counts.ref f hlt
  have hnone := h.counts.unopened f hlt hzero
  have hnot : f ∉ e := fun he => by
    have := count_pos_iff.2 he
    omega
  refine ⟨h.setFile_same (fun g hg => ?_) ?_ (fun g hg => ?_) (fun h1 => ?_) rfl rfl, hlt, ?_, hnot,
    rfl, rfl, fun g hg => ftable_setFile_of_ne hg _⟩
  · rcases mem_cons.1 hg with rfl | hg
    · exact hlt
    · exact h.counts.inflight g hg
  · rw [count_cons_self]
    dsimp only
    omega
  · rw [count_cons_of_ne (Ne.symm hg)]
  · cases h1
  · rw [setRef, ftable_setFile_self]
    exact hnone

theorem Inv.fdalloc (h : s.Inv (f :: e) ei) (hp : p < nproc)
    (hf : s.fdalloc p f = some (fd, s')) : s'.Inv e ei := by
  obtain ⟨hfd, hnone, rfl⟩ := fdalloc_eq_some hf
  refine h.setFd hp hfd (fun g hg => ?_) (fun g hg => h.counts.inflight g (.tail _ hg)) fun g => ?_
  · cases hg
    exact h.counts.inflight f (.head _)
  · rw [hnone, count_cons_eq_one, Tally.one_none]
    omega

theorem Inv.filedup (h : s.Inv e ei) (hf : s.ofile p fd = some f) :
    ∃ s', s.filedup f = .ok s' ∧ s'.Inv (f :: e) ei ∧ s'.ofile = s.ofile ∧ s'.used = s.used := by
  obtain ⟨hlt, hpos⟩ := h.counts.ref_pos hf
  refine ⟨s.setRef f ((s.ftable f).ref + 1), ?_, ?_, rfl, rfl⟩
  · rw [State.filedup, if_neg (by omega)]
  · refine h.setFile_same (fun g hg => ?_) ?_ (fun g hg => ?_) (fun h0 => ?_) rfl rfl
    · rcases mem_cons.1 hg with rfl | hg
      · exact hlt
      · exact h.counts.inflight g hg
    · have href := h.counts.ref f hlt
      rw [count_cons_self]
      dsimp only
      omega
    · rw [count_cons_of_ne (Ne.symm hg)]
    · dsimp only at h0
      omega

/-! ## The last reference -/

theorem Inodes.setFile (h : s.Inodes ei) (hf : f < nfile) {r : Nat → Int} {ei' : List Nat}
    (hr : ∀ ip, r ip + one (s.ftable f).inode ip + ei.count ip =
      s.iref ip + one v.inode ip + ei'.count ip) :
    ({ s.setFile f v with iref := r } : State).Inodes ei' := by
  intro ip
  have hothers : ∀ g, g ≠ f → ((s.setFile f v).ftable g).inode = (s.ftable g).inode := fun g hg => by
    rw [ftable_setFile_of_ne hg]
  have hchange := tally_change (mem_below.2 hf) hothers ip
  rw [ftable_setFile_self] at hchange
  have := h ip
  have := hr ip
  dsimp only at hchange ⊢
  omega

theorem Pipes.ends_close (h : s.Pipes) (hf : f < nfile) {pi : Nat} {w : Bool} {q : Pipe}
    {x : Option Pipe} (hend : (s.ftable f).pipeEnd = some (pi, w)) (hv : v.pipeEnd = none)
    (hq : s.pipes pi = some q)
    (hx : ∀ w', (∃ q', x = some q' ∧ q'.isOpen w' = true) ↔ w' ≠ w ∧ q.isOpen w' = true) (pi' : Nat)
    (w' : Bool) : (∃ g < nfile, ((s.setFile f v).ftable g).pipeEnd = some (pi', w')) ↔
      ∃ q', update s.pipes pi x pi' = some q' ∧ q'.isOpen w' = true := by
  have hleft : (∃ g < nfile, ((s.setFile f v).ftable g).pipeEnd = some (pi', w')) ↔
      (pi', w') ≠ (pi, w) ∧ ∃ g < nfile, (s.ftable g).pipeEnd = some (pi', w') := by
    constructor
    · rintro ⟨g, hg, hge⟩
      by_cases hgf : g = f
      · rw [hgf, ftable_setFile_self, hv] at hge
        cases hge
      · rw [ftable_setFile_of_ne hgf] at hge
        exact ⟨fun he => hgf (h.one g hg f hf _ (hge.trans (congrArg some he)) hend), g, hg, hge⟩
    · rintro ⟨hne, g, hg, hge⟩
      have hgf : g ≠ f := fun he => hne (Option.some.inj (hge.symm.trans (he ▸ hend)))
      exact ⟨g, hg, by rw [ftable_setFile_of_ne hgf]; exact hge⟩
  rw [hleft, h.ends pi' w']
  by_cases hpi : pi' = pi
  · subst hpi
    rw [update_self, hx w']
    simp [hq]
  · rw [update_of_ne hpi]
    simp [hpi]

theorem Pipes.one_close (h : s.Pipes) (hv : v.pipeEnd = none) :
    ∀ a < nfile, ∀ b < nfile, ∀ x, ((s.setFile f v).ftable a).pipeEnd = some x →
      ((s.setFile f v).ftable b).pipeEnd = some x → a = b := by
  intro a ha b hb x hax hbx
  have hne : ∀ c, ((s.setFile f v).ftable c).pipeEnd = some x → c ≠ f := by
    rintro c hc rfl
    rw [ftable_setFile_self, hv] at hc
    cases hc
  rw [ftable_setFile_of_ne (hne a hax)] at hax
  rw [ftable_setFile_of_ne (hne b hbx)] at hbx
  exact h.one a ha b hb x hax hbx

theorem Pipes.close (h : s.Pipes) (hf : f < nfile) {pi : Nat} {w : Bool}
    (hend : (s.ftable f).pipeEnd = some (pi, w)) (hv : v.pipeEnd = none) :
    ∃ s', (s.setFile f v).pipeclose pi w = .ok s' ∧ s'.Pipes ∧ s'.ftable = (s.setFile f v).ftable ∧
      s'.iref = s.iref ∧ s'.ofile = s.ofile ∧ s'.used = s.used := by
  obtain ⟨q, hq, hopen⟩ := (h.ends pi w).1 ⟨f, hf, hend⟩
  obtain ⟨hram, hown⟩ := h.own pi q hq
  have hpipes : (s.setFile f v).pipes pi = some q := hq
  unfold pipeclose
  rw [hpipes]
  dsimp only
  by_cases hlast : ∀ w', w' ≠ w → q.isOpen w' = false
  · have hclosed : ∀ w', (if w then { q with writeopen := false }
        else { q with readopen := false } : Pipe).isOpen w' = false := fun w' => by
      rw [Pipe.isOpen_close]
      by_cases hw : w' = w
      · simp [hw]
      · simp [hlast w' hw]
    rw [if_pos ((Pipe.closed_iff _).2 hclosed)]
    have hfree : (kfree s.phys pi).mapError Fault.panic =
        .ok { freelist := pi :: s.phys.freelist, mem := memsetPage s.phys.mem pi 1 } := by
      rw [kfree_of_ram hram]
      rfl
    refine ⟨_, bind_eq_ok.2 ⟨_, hfree, rfl⟩, ⟨h.ends_close hf hend hv hq fun w' => ?_, ?_,
      h.one_close hv, ?_, ?_, ?_⟩, rfl, rfl, rfl, rfl⟩
    · refine ⟨fun hx => (nomatch hx.choose_spec.1), fun ⟨hne, ho⟩ => ?_⟩
      rw [hlast w' hne] at ho
      cases ho
    · intro pi' q' hq'
      by_cases hpi : pi' = pi
      · rw [hpi] at hq'
        simp at hq'
      · simp only [update_of_ne hpi] at hq'
        exact h.alive pi' q' hq'
    · exact nodup_cons.2 ⟨hown, h.pages⟩
    · intro x hx
      rcases mem_cons.1 hx with rfl | hx
      · exact hram
      · exact h.ram x hx
    · intro pi' q' hq'
      by_cases hpi : pi' = pi
      · rw [hpi] at hq'
        simp at hq'
      · simp only [update_of_ne hpi] at hq'
        obtain ⟨hr, ho⟩ := h.own pi' q' hq'
        exact ⟨hr, fun hx => (mem_cons.1 hx).elim hpi ho⟩
  · push Not at hlast
    obtain ⟨w₀, hne₀, ho₀⟩ := hlast
    have hstill : ¬ ∀ w', (if w then { q with writeopen := false }
        else { q with readopen := false } : Pipe).isOpen w' = false := fun hall => by
      have := hall w₀
      rw [Pipe.isOpen_close] at this
      simp_all
    rw [if_neg fun hc => hstill ((Pipe.closed_iff _).1 hc)]
    refine ⟨_, rfl, ⟨h.ends_close hf hend hv hq fun w' => ?_, ?_, h.one_close hv, h.pages, h.ram,
      ?_⟩, rfl, rfl, rfl, rfl⟩
    · constructor
      · rintro ⟨q', hq', ho⟩
        cases hq'
        rw [Pipe.isOpen_close, Bool.and_eq_true] at ho
        exact ⟨by simpa using ho.2, ho.1⟩
      · rintro ⟨hne, ho⟩
        refine ⟨_, rfl, ?_⟩
        rw [Pipe.isOpen_close]
        simp [ho, hne]
    · intro pi' q' hq'
      by_cases hpi : pi' = pi
      · rw [hpi] at hq'
        simp only [update_self, Option.some.injEq] at hq'
        refine ⟨w₀, ?_⟩
        rw [← hq', Pipe.isOpen_close]
        simp_all
      · simp only [update_of_ne hpi] at hq'
        exact h.alive pi' q' hq'
    · intro pi' q' hq'
      by_cases hpi : pi' = pi
      · rw [hpi]
        exact ⟨hram, hown⟩
      · simp only [update_of_ne hpi] at hq'
        exact h.own pi' q' hq'

theorem inode_of_none (h : v.type = .none) : v.inode = none := by rw [File.inode, h]

theorem pipeEnd_of_ne (h : v.type ≠ .pipe) : v.pipeEnd = none := by
  rw [File.pipeEnd, if_neg h]

theorem Counts.no_descriptor (h : s.Counts e) (h0 : s.refs f = 0) (p fd : Nat) :
    s.ofile p fd ≠ some f := fun he => by
  obtain ⟨hp, hfd, -⟩ := h.range p fd f he
  exact tally_eq_zero.1 h0 (p, fd) (mem_grid.2 ⟨hp, hfd⟩) he

theorem Inv.fileclose (h : s.Inv (f :: e) ei) :
    ∃ s', s.fileclose f = .ok s' ∧ s'.Inv e ei ∧ s'.ofile = s.ofile ∧ s'.used = s.used ∧
      (s.Typed → s'.Typed) ∧ ∀ g, g ≠ f → s'.ftable g = s.ftable g := by
  have hlt := h.counts.inflight f (.head _)
  have he : ∀ g ∈ e, g < nfile := fun g hg => h.counts.inflight g (.tail _ hg)
  have href := h.counts.ref f hlt
  rw [count_cons_self] at href
  have hothers : ∀ g, g ≠ f → e.count g = (f :: e).count g := fun g hg =>
    (count_cons_of_ne (Ne.symm hg)).symm
  unfold State.fileclose
  rw [if_neg (by omega)]
  by_cases hmore : (s.ftable f).ref - 1 > 0
  · rw [if_pos hmore]
    refine ⟨_, rfl, h.setFile_same he ?_ hothers (fun h0 => ?_) rfl rfl, rfl, rfl,
      fun ht q j g hg => ?_, fun g hg => ftable_setFile_of_ne hg _⟩
    · dsimp only
      omega
    · dsimp only at h0
      omega
    · by_cases hgf : g = f
      · rw [hgf, setRef, ftable_setFile_self]
        exact ht q j f (hgf ▸ hg)
      · rw [setRef, ftable_setFile_of_ne hgf]
        exact ht q j g hg
  · rw [if_neg hmore]
    have hcounts : (s.setFile f { s.ftable f with ref := 0, type := .none }).Counts e :=
      h.counts.setFile he (by dsimp only; omega) hothers fun _ => rfl
    have hvi : File.inode { s.ftable f with ref := 0, type := .none } = none := inode_of_none rfl
    have hve : File.pipeEnd { s.ftable f with ref := 0, type := .none } = none :=
      pipeEnd_of_ne nofun
    have hsame : ∀ v : File, ∀ g, g ≠ f → (s.setFile f v).ftable g = s.ftable g := fun v g hg =>
      ftable_setFile_of_ne hg v
    have htyped : ∀ s' : State, s'.ofile = s.ofile → (∀ g, g ≠ f → s'.ftable g = s.ftable g) →
        s.Typed → s'.Typed := fun s' ho hs ht q j g hg => by
      rw [ho] at hg
      have hgf : g ≠ f := fun he => h.counts.no_descriptor (by omega) q j (he ▸ hg)
      rw [hs g hgf]
      exact ht q j g hg
    -- the pipe files are the same unless `f` was one
    have hpipes : (s.ftable f).type ≠ .pipe →
        ∀ g, ((s.setFile f { s.ftable f with ref := 0, type := .none }).ftable g).pipeEnd =
          (s.ftable g).pipeEnd := fun hne g => by
      by_cases hg : g = f
      · rw [hg, ftable_setFile_self, hve, pipeEnd_of_ne hne]
      · rw [hsame _ g hg]
    have hinode : (s.ftable f).inode = some (s.ftable f).ip → (s.ftable f).type ≠ .pipe →
        ((s.setFile f { s.ftable f with ref := 0, type := .none }).iput (s.ftable f).ip).Inv e ei :=
      fun hi hne => by
        refine ⟨hcounts.congr rfl rfl, h.inodes.setFile hlt fun ip => ?_,
          h.pipes.congr (hpipes hne) rfl rfl rfl⟩
        rw [hvi, hi]
        by_cases hip : ip = (s.ftable f).ip
        · rw [hip, update_self, Tally.one_some_self, Tally.one_none]
          dsimp only [State.setFile]
          omega
        · rw [update_of_ne hip, Tally.one_some_of_ne (Ne.symm hip), Tally.one_none]
          dsimp only [State.setFile]
    cases htype : (s.ftable f).type with
    | none =>
      refine ⟨_, rfl, ⟨hcounts, h.inodes.congr rfl fun g => ?_,
        h.pipes.congr (hpipes (by rw [htype]; decide)) rfl rfl rfl⟩, rfl, rfl,
        htyped _ rfl (hsame _), hsame _⟩
      by_cases hg : g = f
      · rw [hg, ftable_setFile_self, hvi, inode_of_none htype]
      · rw [hsame _ g hg]
    | pipe =>
      have hend : (s.ftable f).pipeEnd = some ((s.ftable f).pipe, (s.ftable f).writable) := by
        rw [File.pipeEnd, if_pos htype]
      obtain ⟨s', hclose, hp, hft, hiref, hofile, hused⟩ := h.pipes.close hlt hend hve
      have hsame' : ∀ g, g ≠ f → s'.ftable g = s.ftable g := fun g hg => by
        rw [hft, hsame _ g hg]
      refine ⟨s', hclose, ⟨hcounts.congr hft hofile, h.inodes.congr hiref fun g => ?_, hp⟩,
        hofile, hused, htyped s' hofile hsame', hsame'⟩
      rw [hft]
      by_cases hg : g = f
      · rw [hg, ftable_setFile_self, hvi, File.inode, htype]
      · rw [hsame _ g hg]
    | inode =>
      exact ⟨_, rfl, hinode (by rw [File.inode, htype]) (by rw [htype]; decide), rfl, rfl,
        htyped _ rfl (hsame _), hsame _⟩
    | device =>
      exact ⟨_, rfl, hinode (by rw [File.inode, htype]) (by rw [htype]; decide), rfl, rfl,
        htyped _ rfl (hsame _), hsame _⟩

end State

end Xv6.Ftable
