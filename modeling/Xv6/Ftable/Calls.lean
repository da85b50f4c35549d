/-
The calls on open files: none of them panics or uses a pipe that is gone, and after each of them
the counts are exact.
-/
import Xv6.Ftable.Refs

namespace Xv6.Ftable

open Function List Option
open Run (bind_eq_ok)
open Tally (tally one tally_pos below mem_below mem_grid)

namespace State

variable {ip n np : Nat} {ph : Phys}

variable {s s' : State} {e e' ei : List Nat} {p fd f : Nat}

structure Good (s : State) : Prop where
  inv : s.Inv [] []
  spare : s.Spare
  typed : s.Typed

/-- A call by `p` that succeeds. -/
structure After (p : Nat) (s s' : State) : Prop where
  inv : s'.Inv [] []
  typed : s'.Typed
  frame : Frame p s s'

theorem After.good (h : After p s s') (hs : s.Good) (hp : s.runs p) : s'.Good :=
  ⟨h.inv, h.frame.spare hs.spare hp.2, h.typed⟩

theorem Good.after (h : s.Good) (p : Nat) : After p s s := ⟨h.inv, h.typed, .refl p s⟩

theorem Inv.perm (h : s.Inv e ei) (he : e.Perm e') : s.Inv e' ei := by
  refine ⟨⟨fun g hg => ?_, h.counts.range, fun g hg => h.counts.inflight g (he.mem_iff.2 hg),
    h.counts.unopened⟩, h.inodes, h.pipes⟩
  rw [← he.count_eq]
  exact h.counts.ref g hg

theorem Inv.iput (h : s.Inv e (ip :: ei)) : (s.iput ip).Inv e ei := by
  refine ⟨h.counts.congr rfl rfl, fun ip' => ?_, h.pipes.congr (fun _ => rfl) rfl rfl rfl⟩
  have hold := h.inodes ip'
  by_cases hip : ip' = ip
  · rw [hip] at hold ⊢
    rw [count_cons_self] at hold
    simp only [State.iput, update_self]
    omega
  · rw [count_cons_of_ne (Ne.symm hip)] at hold
    simp only [State.iput, update_of_ne hip]
    exact hold

theorem Typed.setFd_none (h : s.Typed) (p fd : Nat) : (s.setFd p fd none).Typed := by
  intro q j g hg
  refine h q j g ?_
  by_cases hq : q = p
  · subst hq
    by_cases hj : j = fd
    · subst hj
      simp [setFd] at hg
    · simpa [setFd, hj] using hg
  · simpa [setFd, hq] using hg

theorem Typed.setFd (h : s.Typed) (hf : (s.ftable f).type ≠ .none) (p fd : Nat) :
    (s.setFd p fd (some f)).Typed := by
  intro q j g hg
  by_cases hq : q = p
  · subst hq
    by_cases hj : j = fd
    · subst hj
      simp only [State.setFd, update_self, Option.some.injEq] at hg
      exact hg ▸ hf
    · exact h q j g (by simpa [State.setFd, hj] using hg)
  · exact h q j g (by simpa [State.setFd, hq] using hg)

theorem Typed.setRef (h : s.Typed) (f : Nat) (r : Int) : (s.setRef f r).Typed := by
  intro q j g hg
  by_cases hgf : g = f
  · rw [hgf, State.setRef, ftable_setFile_self]
    exact h q j f (hgf ▸ hg)
  · rw [State.setRef, ftable_setFile_of_ne hgf]
    exact h q j g hg

theorem argfd_eq_some (h : s.argfd p fd = some f) : fd < nofile ∧ s.ofile p fd = some f := by
  unfold argfd at h
  split at h
  · exact ⟨by assumption, h⟩
  · cases h

/-! ## dup, close, read and write -/

theorem filedup_eq (h : 1 ≤ (s.ftable f).ref) :
    s.filedup f = .ok (s.setRef f ((s.ftable f).ref + 1)) := by
  rw [filedup, if_neg (by omega)]

theorem Inv.dupInto (h : s.Inv [] []) {q j : Nat} (hf : s.ofile q j = some f) (hp : p < nproc)
    (hfd : fd < nofile) (hnone : s.ofile p fd = none) :
    1 ≤ (s.ftable f).ref ∧ ((s.setRef f ((s.ftable f).ref + 1)).setFd p fd (some f)).Inv [] [] := by
  obtain ⟨hlt, hpos⟩ := h.counts.ref_pos hf
  obtain ⟨s₁, hdup, h₁, -, -⟩ := h.filedup hf
  cases (filedup_eq hpos).symm.trans hdup
  refine ⟨hpos, h₁.setFd hp hfd (fun g hg => ?_) (fun g hg => (nomatch hg)) fun g => ?_⟩
  · cases hg
    exact hlt
  · have hno : (s.setRef f ((s.ftable f).ref + 1)).ofile p fd = none := hnone
    rw [hno, count_cons_eq_one, Tally.one_none]
    omega

theorem Good.sysDup (h : s.Good) (hp : s.runs p) (fd : Nat) :
    ∃ s', s.sysDup p fd = .ok s' ∧ After p s s' := by
  unfold State.sysDup
  cases harg : s.argfd p fd with
  | none => exact ⟨s, rfl, h.after p⟩
  | some f =>
    have hf := (argfd_eq_some harg).2
    dsimp only
    cases halloc : s.fdalloc p f with
    | none => exact ⟨s, rfl, h.after p⟩
    | some r =>
      obtain ⟨fd', s₁⟩ := r
      obtain ⟨hfd', hnone, rfl⟩ := fdalloc_eq_some halloc
      obtain ⟨hpos, hinv⟩ := h.inv.dupInto hf hp.1 hfd' hnone
      refine ⟨_, filedup_eq hpos, hinv, ?_, ?_⟩
      · exact (h.typed.setFd (h.typed p fd f hf) p fd').setRef f _
      · exact (Frame.setFd s p fd' _).trans (.of_eq rfl rfl)

theorem Good.sysClose (h : s.Good) (p fd : Nat) : ∃ s', s.sysClose p fd = .ok s' ∧ After p s s' := by
  unfold State.sysClose
  cases harg : s.argfd p fd with
  | none => exact ⟨s, rfl, h.after p⟩
  | some f =>
    obtain ⟨s', hclose, hinv, hofile, hused, htyped, -⟩ :=
      (h.inv.clearFd (argfd_eq_some harg).2).fileclose
    exact ⟨s', hclose, hinv, htyped (h.typed.setFd_none p fd),
      (Frame.setFd s p fd none).trans (.of_eq hused hofile)⟩

theorem Good.pipe_alive (h : s.Good) (hf : s.ofile p fd = some f)
    (ht : (s.ftable f).type = .pipe) :
    ∃ q, s.pipes (s.ftable f).pipe = some q ∧ q.isOpen (s.ftable f).writable = true := by
  obtain ⟨-, -, hlt⟩ := h.inv.counts.range p fd f hf
  exact (h.inv.pipes.ends _ _).1 ⟨f, hlt, by rw [File.pipeEnd, if_pos ht]⟩

theorem Good.usePipe (h : s.Good) (hf : s.ofile p fd = some f)
    (ht : (s.ftable f).type = .pipe) : s.usePipe (s.ftable f).pipe = .ok s := by
  obtain ⟨q, hq, -⟩ := h.pipe_alive hf ht
  rw [State.usePipe, hq]

theorem Good.sysRead (h : s.Good) (p fd : Nat) : s.sysRead p fd = .ok s := by
  unfold State.sysRead
  cases harg : s.argfd p fd with
  | none => rfl
  | some f =>
    dsimp only
    split
    · rename_i hc
      exact h.usePipe (argfd_eq_some harg).2 hc.2
    · rfl

theorem Good.sysWrite (h : s.Good) (p fd : Nat) : s.sysWrite p fd = .ok s := by
  unfold State.sysWrite
  cases harg : s.argfd p fd with
  | none => rfl
  | some f =>
    dsimp only
    split
    · rename_i hc
      exact h.usePipe (argfd_eq_some harg).2 hc.2
    · rfl

/-! ## open -/

theorem Inv.setInode (h : s.Inv [] [ip]) (hf : s.ofile p fd = some f)
    (hnone : (s.ftable f).type = .none) {v : File} (href : v.ref = (s.ftable f).ref)
    (hv : v.type = .inode ∨ v.type = .device) (hip : v.ip = ip) : (s.setFile f v).Inv [] [] := by
  obtain ⟨hlt, hpos⟩ := h.counts.ref_pos hf
  have hinode : v.inode = some ip := by
    rcases hv with hv | hv <;> rw [File.inode, hv, hip]
  have hnp : v.type ≠ .pipe := by
    rcases hv with hv | hv <;> rw [hv] <;> decide
  refine ⟨h.counts.setFile (fun g hg => by cases hg) ?_ (fun _ _ => rfl) fun h0 => ?_,
    h.inodes.setFile hlt fun ip' => ?_, h.pipes.congr (fun g => ?_) rfl rfl rfl⟩
  · rw [href]
    exact h.counts.ref f hlt
  · omega
  · rw [hinode, inode_of_none hnone, count_cons_eq_one]
    simp only [Tally.one_none]
    omega
  · by_cases hg : g = f
    · rw [hg, ftable_setFile_self, pipeEnd_of_ne hnp, pipeEnd_of_ne (by rw [hnone]; decide)]
    · rw [ftable_setFile_of_ne hg]

theorem Inv.openFound {i : Found} (h : s.Inv [] [i.ip]) (ht : s.Typed) (hp : p < nproc)
    (omode : Nat) : ∃ s', s.openFound p omode i = .ok s' ∧ After p s s' := by
  unfold State.openFound
  split
  · exact ⟨_, rfl, h.iput, ht, .of_eq rfl rfl⟩
  · cases halloc : s.filealloc with
    | none => exact ⟨_, rfl, h.iput, ht, .of_eq rfl rfl⟩
    | some r =>
      obtain ⟨f, s₁⟩ := r
      obtain ⟨h₁, hlt, hnone, -, hofile, hused, hsame⟩ := h.filealloc halloc
      obtain ⟨-, -, hs₁⟩ := filealloc_eq_some halloc
      have ht₁ : s₁.Typed := by
        rw [hs₁]
        exact ht.setRef f 1
      have hframe₁ : Frame p s s₁ := .of_eq hused hofile
      dsimp only
      cases hfd : s₁.fdalloc p f with
      | none =>
        obtain ⟨s₂, hclose, h₂, hofile₂, hused₂, ht₂, -⟩ := h₁.fileclose
        exact ⟨_, bind_eq_ok.2 ⟨s₂, hclose, rfl⟩, h₂.iput, ht₂ ht₁,
          hframe₁.trans (.of_eq hused₂ hofile₂)⟩
      | some r =>
        obtain ⟨fd, s₂⟩ := r
        have h₂ := h₁.fdalloc hp hfd
        obtain ⟨-, -, rfl⟩ := fdalloc_eq_some hfd
        have hself : (s₁.setFd p fd (some f)).ofile p fd = some f := by simp [State.setFd]
        refine ⟨_, rfl, h₂.setInode hself hnone ?_ ?_ rfl, fun q j g hg => ?_,
          hframe₁.trans ((Frame.setFd s₁ p fd _).trans (.of_eq rfl rfl))⟩
        · dsimp only
          split <;> rfl
        · dsimp only
          split
          · exact .inr rfl
          · exact .inl rfl
        · by_cases hgf : g = f
          · rw [hgf, ftable_setFile_self]
            split <;> simp
          · rw [ftable_setFile_of_ne hgf]
            refine ht₁ q j g ?_
            by_cases hq : q = p
            · subst hq
              by_cases hj : j = fd
              · subst hj
                have hg : some f = some g := hself.symm.trans hg
                exact absurd (Option.some.inj hg).symm hgf
              · simpa [State.setFile, State.setFd, hj] using hg
            · simpa [State.setFile, State.setFd, hq] using hg

theorem Good.sysOpen (h : s.Good) (hp : s.runs p) (omode : Nat) (found : Option Found) :
    ∃ s', s.sysOpen p omode found = .ok s' ∧ After p s s' := by
  cases found with
  | none => exact ⟨s, rfl, h.after p⟩
  | some i =>
    have h₁ : ({ s with iref := update s.iref i.ip (s.iref i.ip + 1) } : State).Inv []
        [i.ip] := by
      refine ⟨h.inv.counts.congr rfl rfl, fun ip => ?_,
        h.inv.pipes.congr (fun _ => rfl) rfl rfl rfl⟩
      have hold := h.inv.inodes ip
      by_cases hip : ip = i.ip
      · rw [hip] at hold ⊢
        simp only [update_self, count_cons_self] at hold ⊢
        omega
      · simp only [update_of_ne hip]
        rw [count_cons_of_ne (Ne.symm hip)]
        exact hold
    obtain ⟨s', hopen, hafter⟩ := h₁.openFound (fun q j g hg => h.typed q j g hg) hp.1 omode
    exact ⟨s', hopen, hafter.inv, hafter.typed, ⟨hafter.frame.used, hafter.frame.others⟩⟩

/-! ## pipe -/

theorem Inv.newPipe (h : s.Inv e ei) {f0 f1 pi : Nat} (hne : f0 ≠ f1) (hlt0 : f0 < nfile)
    (hlt1 : f1 < nfile) (he0 : f0 ∈ e) (he1 : f1 ∈ e) (h0 : (s.ftable f0).type = .none)
    (h1 : (s.ftable f1).type = .none) (halloc : kalloc s.phys = some (pi, ph)) {v0 v1 : File}
    {q : Pipe} (href0 : v0.ref = (s.ftable f0).ref) (href1 : v1.ref = (s.ftable f1).ref)
    (ht0 : v0.type = .pipe) (ht1 : v1.type = .pipe) (hend0 : v0.pipeEnd = some (pi, false))
    (hend1 : v1.pipeEnd = some (pi, true)) (hq : ∀ w, q.isOpen w = true) :
    ((({ s with phys := ph, pipes := update s.pipes pi (some q) } : State).setFile f0
      v0).setFile f1 v1).Inv e ei := by
  have hlist := kalloc_eq_some halloc
  have hpages := h.pipes.pages
  rw [hlist, cons_append, nodup_cons] at hpages
  have hfresh : s.pipes pi = none := by
    by_contra hsome
    obtain ⟨q', hq'⟩ := ne_none_iff_exists'.1 hsome
    exact (h.pipes.own pi q' hq').2 (by rw [hlist]; exact mem_cons_self)
  have hold : ∀ g < nfile, ∀ w, (s.ftable g).pipeEnd ≠ some (pi, w) := fun g hg w he => by
    obtain ⟨q', hq', -⟩ := (h.pipes.ends pi w).1 ⟨g, hg, he⟩
    rw [hfresh] at hq'
    cases hq'
  have hnone : ∀ v : File, v.type = .pipe → v.inode = none := fun v hv => by rw [File.inode, hv]
  have hpos : ∀ f, f ∈ e → 1 ≤ (s.ftable f).ref := fun f hf => h.counts.ref_pos_of_mem hf
  have hcounts : ({ s with phys := ph, pipes := update s.pipes pi (some q) } :
      State).Counts e := h.counts.congr rfl rfl
  refine ⟨?_, ?_, ?_⟩
  · refine Counts.setFile (e := e) ?_ h.counts.inflight ?_ (fun _ _ => rfl) fun hz => ?_
    · refine hcounts.setFile h.counts.inflight ?_ (fun _ _ => rfl) fun hz => ?_
      · rw [href0]
        exact h.counts.ref f0 hlt0
      · have := hpos f0 he0
        omega
    · rw [href1]
      exact h.counts.ref f1 hlt1
    · have := hpos f1 he1
      omega
  · refine h.inodes.congr rfl fun g => ?_
    by_cases hg1 : g = f1
    · rw [hg1, ftable_setFile_self, hnone v1 ht1, inode_of_none h1]
    · rw [ftable_setFile_of_ne hg1]
      by_cases hg0 : g = f0
      · rw [hg0, ftable_setFile_self, hnone v0 ht0, inode_of_none h0]
      · rw [ftable_setFile_of_ne hg0]
  · -- which file has which end
    have hends : ∀ g < nfile, ∀ pi' w,
        (((({ s with phys := ph, pipes := update s.pipes pi (some q) } : State).setFile f0
          v0).setFile f1 v1).ftable g).pipeEnd = some (pi', w) ↔
        if g = f1 then pi' = pi ∧ w = true else if g = f0 then pi' = pi ∧ w = false
        else (s.ftable g).pipeEnd = some (pi', w) := by
      intro g _ pi' w
      by_cases hg1 : g = f1
      · rw [hg1, ftable_setFile_self, hend1]
        simp only [Option.some.injEq, Prod.mk.injEq]
        exact and_congr eq_comm eq_comm
      · rw [ftable_setFile_of_ne hg1, if_neg hg1]
        by_cases hg0 : g = f0
        · rw [hg0, ftable_setFile_self, hend0]
          simp only [Option.some.injEq, Prod.mk.injEq]
          exact and_congr eq_comm eq_comm
        · rw [ftable_setFile_of_ne hg0, if_neg hg0]
    have hnot0 : (s.ftable f0).pipeEnd = none := pipeEnd_of_ne (by rw [h0]; decide)
    have hnot1 : (s.ftable f1).pipeEnd = none := pipeEnd_of_ne (by rw [h1]; decide)
    refine ⟨fun pi' w => ?_, fun pi' q' hq' => ?_, fun a ha b hb x hax hbx => ?_, ?_, ?_,
      fun pi' q' hq' => ?_⟩
    · by_cases hpi : pi' = pi
      · subst hpi
        simp only [State.setFile, update_self]
        refine iff_of_true ?_ ⟨q, rfl, hq w⟩
        cases w with
        | false => exact ⟨f0, hlt0, (hends f0 hlt0 _ _).2 (by rw [if_neg hne, if_pos rfl]; exact ⟨rfl, rfl⟩)⟩
        | true => exact ⟨f1, hlt1, (hends f1 hlt1 _ _).2 (by rw [if_pos rfl]; exact ⟨rfl, rfl⟩)⟩
      · have hpipes : update s.pipes pi (some q) pi' = s.pipes pi' :=
          update_of_ne hpi ..
        have hright := h.pipes.ends pi' w
        rw [← hpipes] at hright
        refine Iff.trans ⟨?_, ?_⟩ hright
        · rintro ⟨g, hg, hge⟩
          rw [hends g hg] at hge
          split at hge
          · exact absurd hge.1 hpi
          · split at hge
            · exact absurd hge.1 hpi
            · exact ⟨g, hg, hge⟩
        · rintro ⟨g, hg, hge⟩
          refine ⟨g, hg, (hends g hg _ _).2 ?_⟩
          have hg1 : g ≠ f1 := fun he => by rw [he, hnot1] at hge; cases hge
          have hg0 : g ≠ f0 := fun he => by rw [he, hnot0] at hge; cases hge
          rw [if_neg hg1, if_neg hg0]
          exact hge
    · by_cases hpi : pi' = pi
      · simp only [State.setFile, hpi, update_self, Option.some.injEq] at hq'
        exact ⟨true, hq' ▸ hq true⟩
      · simp only [State.setFile, update_of_ne hpi] at hq'
        exact h.pipes.alive pi' q' hq'
    · obtain ⟨pi', w⟩ := x
      rw [hends a ha] at hax
      rw [hends b hb] at hbx
      split at hax <;> split at hbx
      · rename_i hae hbe
        exact hae.trans hbe.symm
      · split at hbx
        · rw [hax.2] at hbx
          cases hbx.2
        · exact absurd hbx (hax.1 ▸ hold b hb w)
      · split at hax
        · rw [hbx.2] at hax
          cases hax.2
        · exact absurd hax (hbx.1 ▸ hold a ha w)
      · split at hax <;> split at hbx
        · rename_i hae hbe
          exact hae.trans hbe.symm
        · exact absurd hbx (hax.1 ▸ hold b hb w)
        · exact absurd hax (hbx.1 ▸ hold a ha w)
        · exact h.pipes.one a ha b hb _ hax hbx
    · exact hpages.2
    · intro x hx
      refine h.pipes.ram x ?_
      rw [hlist]
      exact mem_cons_of_mem _ hx
    · by_cases hpi : pi' = pi
      · rw [hpi]
        exact ⟨h.pipes.ram pi (by rw [hlist]; exact mem_cons_self), hpages.1⟩
      · simp only [State.setFile, update_of_ne hpi] at hq'
        obtain ⟨hram, hno⟩ := h.pipes.own pi' q' hq'
        refine ⟨hram, fun hx => hno ?_⟩
        rw [hlist]
        exact mem_cons_of_mem _ hx

theorem Good.pipealloc (h : s.Good) : ∃ r s', s.pipealloc = .ok (r, s') ∧ s'.ofile = s.ofile ∧
    s'.used = s.used ∧ s'.Typed ∧ (r = none → s'.Inv [] []) ∧
    ∀ rf wf, r = some (rf, wf) → s'.Inv [rf, wf] [] ∧ (s'.ftable rf).type = .pipe ∧
      (s'.ftable wf).type = .pipe := by
  unfold State.pipealloc
  cases halloc0 : s.filealloc with
  | none => exact ⟨none, s, rfl, rfl, rfl, h.typed, fun _ => h.inv, nofun⟩
  | some r0 =>
    obtain ⟨f0, s₁⟩ := r0
    obtain ⟨h₁, hlt0, hnone0, -, hofile₁, hused₁, -⟩ := h.inv.filealloc halloc0
    have ht₁ : s₁.Typed := by
      rw [(filealloc_eq_some halloc0).2.2]
      exact h.typed.setRef f0 1
    dsimp only
    cases halloc1 : s₁.filealloc with
    | none =>
      obtain ⟨s₂, hclose, h₂, hofile₂, hused₂, ht₂, -⟩ := h₁.fileclose
      exact ⟨none, s₂, bind_eq_ok.2 ⟨s₂, hclose, rfl⟩, hofile₂.trans hofile₁,
        hused₂.trans hused₁, ht₂ ht₁, fun _ => h₂, nofun⟩
    | some r1 =>
      obtain ⟨f1, s₂⟩ := r1
      obtain ⟨h₂, hlt1, hnone1, hnew, hofile₂, hused₂, hsame₂⟩ := h₁.filealloc halloc1
      have hne : f0 ≠ f1 := fun he => hnew (by rw [he]; exact mem_singleton_self f1)
      have ht₂ : s₂.Typed := by
        rw [(filealloc_eq_some halloc1).2.2]
        exact ht₁.setRef f1 1
      have hswap : s₂.Inv [f0, f1] [] := h₂.perm (List.Perm.swap f0 f1 [])
      have hofile : s₂.ofile = s.ofile := hofile₂.trans hofile₁
      have hused : s₂.used = s.used := hused₂.trans hused₁
      dsimp only
      cases hkalloc : kalloc s₂.phys with
      | none =>
        obtain ⟨s₃, hclose₃, h₃, hofile₃, hused₃, ht₃, -⟩ := hswap.fileclose
        obtain ⟨s₄, hclose₄, h₄, hofile₄, hused₄, ht₄, -⟩ := h₃.fileclose
        exact ⟨none, s₄, bind_eq_ok.2 ⟨s₃, hclose₃, bind_eq_ok.2 ⟨s₄, hclose₄, rfl⟩⟩,
          (hofile₄.trans hofile₃).trans hofile, (hused₄.trans hused₃).trans hused,
          ht₄ (ht₃ ht₂), fun _ => h₄, nofun⟩
      | some r =>
        have hnone0' : (s₂.ftable f0).type = .none := by
          rw [hsame₂ f0 hne]
          exact hnone0
        refine ⟨_, _, rfl, hofile, hused, fun q j g hg => ?_, nofun,
          fun rf wf hr => ?_⟩
        · by_cases hg1 : g = f1
          · rw [hg1, ftable_setFile_self]
            exact nofun
          · rw [ftable_setFile_of_ne hg1]
            by_cases hg0 : g = f0
            · rw [hg0, ftable_setFile_self]
              exact nofun
            · rw [ftable_setFile_of_ne hg0]
              exact ht₂ q j g hg
        · cases hr
          have hother : ∀ (v : File) (x : State), (x.setFile f0 v).ftable f1 = x.ftable f1 :=
            fun v x => ftable_setFile_of_ne (Ne.symm hne) v
          refine ⟨hswap.newPipe hne hlt0 hlt1 (.head _) (.tail _ (.head _)) hnone0' hnone1
            hkalloc rfl ?_ rfl rfl rfl rfl fun w => ?_, ?_, ?_⟩
          · rw [hother]
          · cases w <;> rfl
          · rw [ftable_setFile_of_ne hne, ftable_setFile_self]
          · rw [ftable_setFile_self]

theorem Inv.closeBoth {rf wf : Nat} (h : s.Inv [rf, wf] []) (ht : s.Typed) :
    ∃ s₁ s₂, s.fileclose rf = .ok s₁ ∧ s₁.fileclose wf = .ok s₂ ∧ s₂.Inv [] [] ∧ s₂.Typed ∧
      s₂.ofile = s.ofile ∧ s₂.used = s.used := by
  obtain ⟨s₁, hclose₁, h₁, hofile₁, hused₁, ht₁, -⟩ := h.fileclose
  obtain ⟨s₂, hclose₂, h₂, hofile₂, hused₂, ht₂, -⟩ := h₁.fileclose
  exact ⟨s₁, s₂, hclose₁, hclose₂, h₂, ht₂ (ht₁ ht), hofile₂.trans hofile₁, hused₂.trans hused₁⟩

theorem Inv.pipeFds {rf wf : Nat} (h : s.Inv [rf, wf] []) (ht : s.Typed)
    (hrf : (s.ftable rf).type ≠ .none) (hwf : (s.ftable wf).type ≠ .none) (hp : p < nproc)
    (copied : Bool) : ∃ s', s.pipeFds p rf wf copied = .ok s' ∧ After p s s' := by
  unfold State.pipeFds
  cases hfd0 : s.fdalloc p rf with
  | none =>
    obtain ⟨s₁, s₂, hc₁, hc₂, h₂, ht₂, hofile₂, hused₂⟩ := h.closeBoth ht
    exact ⟨s₂, bind_eq_ok.2 ⟨s₁, hc₁, hc₂⟩, h₂, ht₂, .of_eq hused₂ hofile₂⟩
  | some r0 =>
    obtain ⟨fd0, s₁⟩ := r0
    have h₁ := h.fdalloc hp hfd0
    obtain ⟨-, -, rfl⟩ := fdalloc_eq_some hfd0
    have ht₁ := ht.setFd hrf p fd0
    have hframe₁ := Frame.setFd s p fd0 (some rf)
    have hself0 : (s.setFd p fd0 (some rf)).ofile p fd0 = some rf := by simp [State.setFd]
    dsimp only
    cases hfd1 : (s.setFd p fd0 (some rf)).fdalloc p wf with
    | none =>
      obtain ⟨s₂, s₃, hc₂, hc₃, h₃, ht₃, hofile₃, hused₃⟩ :=
        (h₁.clearFd hself0).closeBoth (ht₁.setFd_none p fd0)
      exact ⟨s₃, bind_eq_ok.2 ⟨s₂, hc₂, hc₃⟩, h₃, ht₃,
        (hframe₁.trans (Frame.setFd _ p fd0 none)).trans (.of_eq hused₃ hofile₃)⟩
    | some r1 =>
      obtain ⟨fd1, s₂⟩ := r1
      have h₂ := h₁.fdalloc hp hfd1
      obtain ⟨-, hfree1, rfl⟩ := fdalloc_eq_some hfd1
      have ht₂ := ht₁.setFd (f := wf) hwf p fd1
      have hframe₂ := hframe₁.trans (Frame.setFd _ p fd1 (some wf))
      cases copied with
      | true => exact ⟨_, rfl, h₂, ht₂, hframe₂⟩
      | false =>
        have hne : fd0 ≠ fd1 := fun he => by
          rw [← he, hself0] at hfree1
          cases hfree1
        have hget0 : ((s.setFd p fd0 (some rf)).setFd p fd1 (some wf)).ofile p fd0 =
            some rf := by simp [State.setFd, hne]
        have hget1 : (((s.setFd p fd0 (some rf)).setFd p fd1 (some wf)).setFd p fd0
            none).ofile p fd1 = some wf := by simp [State.setFd, Ne.symm hne]
        obtain ⟨s₃, s₄, hc₃, hc₄, h₄, ht₄, hofile₄, hused₄⟩ :=
          (((h₂.clearFd hget0).clearFd hget1).perm (List.Perm.swap rf wf [])).closeBoth
            ((ht₂.setFd_none p fd0).setFd_none p fd1)
        exact ⟨s₄, bind_eq_ok.2 ⟨s₃, hc₃, hc₄⟩, h₄, ht₄,
          ((hframe₂.trans (Frame.setFd _ p fd0 none)).trans
            (Frame.setFd _ p fd1 none)).trans (.of_eq hused₄ hofile₄)⟩

theorem Good.sysPipe (h : s.Good) (hp : s.runs p) (copied : Bool) :
    ∃ s', s.sysPipe p copied = .ok s' ∧ After p s s' := by
  obtain ⟨r, s₁, halloc, hofile₁, hused₁, ht₁, hnone, hsome⟩ := h.pipealloc
  have hframe₁ : Frame p s s₁ := .of_eq hused₁ hofile₁
  cases r with
  | none => exact ⟨s₁, bind_eq_ok.2 ⟨_, halloc, rfl⟩, hnone rfl, ht₁, hframe₁⟩
  | some r =>
    obtain ⟨rf, wf⟩ := r
    obtain ⟨h₁, hrf, hwf⟩ := hsome rf wf rfl
    obtain ⟨s', hfds, hafter⟩ := h₁.pipeFds ht₁ (by rw [hrf]; decide) (by rw [hwf]; decide) hp.1
      copied
    exact ⟨s', bind_eq_ok.2 ⟨_, halloc, hfds⟩, hafter.inv, hafter.typed,
      hframe₁.trans hafter.frame⟩

/-! ## fork and exit -/

theorem forkFiles_ok (h : s.Good) (hnp : np < nproc) (hnone : ∀ fd, s.ofile np fd = none)
    (hn : n ≤ nofile) :
    ∃ s', s.forkFiles p np n = .ok s' ∧ s'.Inv [] [] ∧ s'.Typed ∧ Frame np s s' ∧
      ∀ fd, n ≤ fd → s'.ofile np fd = none := by
  induction n with
  | zero => exact ⟨s, rfl, h.inv, h.typed, .refl np s, fun fd _ => hnone fd⟩
  | succ n ih =>
    obtain ⟨s₁, hloop, h₁, ht₁, hframe₁, hnone₁⟩ := ih (by omega)
    cases hfd : s₁.ofile p n with
    | none =>
      refine ⟨s₁, bind_eq_ok.2 ⟨s₁, hloop, ?_⟩, h₁, ht₁, hframe₁, fun fd hle =>
        hnone₁ fd (by omega)⟩
      rw [hfd]
      rfl
    | some f =>
      obtain ⟨hpos, h₂⟩ := h₁.dupInto hfd hnp (by omega) (hnone₁ n le_rfl)
      refine ⟨_, bind_eq_ok.2 ⟨s₁, hloop, ?_⟩, h₂, ?_, ?_, fun fd hle => ?_⟩
      · rw [hfd]
        exact bind_eq_ok.2 ⟨_, filedup_eq hpos, rfl⟩
      · exact (ht₁.setRef f _).setFd (f := f) (ht₁.setRef f _ p n f hfd) np n
      · have hrow := Frame.setFd (s₁.setRef f ((s₁.ftable f).ref + 1)) np n (some f)
        exact hframe₁.trans ⟨hrow.used, hrow.others⟩
      · have hold := hnone₁ fd (by omega)
        have hfn : fd ≠ n := by omega
        simpa [State.setFd, State.setRef, State.setFile, hfn] using hold

theorem Good.fork (h : s.Good) (p : Nat) (hnp : np < nproc) (hfree : s.used np = false) :
    ∃ s', s.forkFiles p np nofile = .ok s' ∧ (s'.setUsed np true).Good := by
  obtain ⟨s', hloop, hinv, ht, hframe, -⟩ := forkFiles_ok h hnp (h.spare np hfree) le_rfl
  refine ⟨s', hloop, ⟨hinv.counts.congr rfl rfl, hinv.inodes, hinv.pipes.congr (fun _ => rfl) rfl
    rfl rfl⟩, fun q hq fd => ?_, ht⟩
  by_cases hqn : q = np
  · simp [State.setUsed, hqn] at hq
  · simp only [State.setUsed, update_of_ne hqn, hframe.used] at hq
    have hrow : (s'.setUsed np true).ofile q = s.ofile q := hframe.others q hqn
    rw [hrow]
    exact h.spare q hq fd

theorem pipeclose_setFd (p fd pi : Nat) (v : Option Nat) (w : Bool) :
    (s.setFd p fd v).pipeclose pi w = (s.pipeclose pi w).map (·.setFd p fd v) := by
  unfold State.pipeclose
  have hpipes : (s.setFd p fd v).pipes = s.pipes := rfl
  have hphys : (s.setFd p fd v).phys = s.phys := rfl
  rw [hpipes, hphys]
  cases s.pipes pi with
  | none => rfl
  | some q =>
    dsimp only
    generalize (if w then { q with writeopen := false } else { q with readopen := false }) = q'
    split
    · cases (kfree s.phys pi).mapError Fault.panic <;> rfl
    · rfl

theorem fileclose_setFd (p fd f : Nat) (v : Option Nat) :
    (s.setFd p fd v).fileclose f = (s.fileclose f).map (·.setFd p fd v) := by
  unfold State.fileclose
  have hft : (s.setFd p fd v).ftable = s.ftable := rfl
  have hset : ∀ x, (s.setFd p fd v).setFile f x = (s.setFile f x).setFd p fd v := fun _ => rfl
  rw [hft]
  dsimp only
  rw [hset]
  split
  · rfl
  · split
    · rfl
    · cases (s.ftable f).type with
      | pipe => exact pipeclose_setFd p fd _ v _
      | none | inode | device => rfl

theorem exitFiles_ok (h : s.Good) (hn : n ≤ nofile) :
    ∃ s', s.exitFiles p n = .ok s' ∧ s'.Inv [] [] ∧ s'.Typed ∧ Frame p s s' ∧
      ∀ fd < n, s'.ofile p fd = none := by
  induction n with
  | zero => exact ⟨s, rfl, h.inv, h.typed, .refl p s, fun fd hlt => absurd hlt fd.not_lt_zero⟩
  | succ n ih =>
    obtain ⟨s₁, hloop, h₁, ht₁, hframe₁, hnone₁⟩ := ih (by omega)
    cases hfd : s₁.ofile p n with
    | none =>
      refine ⟨s₁, bind_eq_ok.2 ⟨s₁, hloop, by rw [hfd]; rfl⟩, h₁, ht₁, hframe₁, fun fd hlt => ?_⟩
      by_cases hfn : fd = n
      · rw [hfn, hfd]
      · exact hnone₁ fd (by omega)
    | some f =>
      obtain ⟨s₂, hclose, h₂, hofile₂, hused₂, ht₂, -⟩ := (h₁.clearFd hfd).fileclose
      rw [fileclose_setFd] at hclose
      obtain ⟨s₃, hclose₃, rfl⟩ := Run.map_eq_ok.1 hclose
      refine ⟨_, bind_eq_ok.2 ⟨s₁, hloop, ?_⟩, h₂, ht₂ (ht₁.setFd_none p n),
        hframe₁.trans ((Frame.setFd s₁ p n none).trans (.of_eq hused₂ hofile₂)), fun fd hlt => ?_⟩
      · rw [hfd]
        exact bind_eq_ok.2 ⟨s₃, hclose₃, rfl⟩
      · rw [hofile₂]
        by_cases hfn : fd = n
        · simp [State.setFd, hfn]
        · simpa [State.setFd, hfn] using hnone₁ fd (by omega)

theorem Good.exit (h : s.Good) (p : Nat) :
    ∃ s', s.exitFiles p nofile = .ok s' ∧ (s'.setUsed p false).Good := by
  obtain ⟨s', hloop, hinv, ht, hframe, hnone⟩ := exitFiles_ok h le_rfl
  refine ⟨s', hloop, ⟨hinv.counts.congr rfl rfl, hinv.inodes, hinv.pipes.congr (fun _ => rfl) rfl
    rfl rfl⟩, fun q hq fd => ?_, ht⟩
  by_cases hqp : q = p
  · rw [hqp]
    by_cases hfd : fd < nofile
    · exact hnone fd hfd
    · by_contra hsome
      obtain ⟨f, hf⟩ := ne_none_iff_exists'.1 hsome
      exact hfd (hinv.counts.range p fd f hf).2.1
  · simp only [State.setUsed, update_of_ne hqp, hframe.used] at hq
    have hrow : (s'.setUsed p false).ofile q = s.ofile q := hframe.others q hqp
    rw [hrow]
    exact h.spare q hq fd

/-! ## Pages -/

theorem Good.movePages (h : s.Good) {held : List Nat}
    (hperm : (ph.freelist ++ held).Perm (s.phys.freelist ++ s.held)) :
    ({ s with phys := ph, held := held } : State).Good := by
  refine ⟨⟨h.inv.counts.congr rfl rfl, h.inv.inodes.congr rfl fun _ => rfl, ?_⟩, h.spare, h.typed⟩
  refine ⟨h.inv.pipes.ends, h.inv.pipes.alive, h.inv.pipes.one, hperm.nodup_iff.2 h.inv.pipes.pages,
    fun x hx => h.inv.pipes.ram x (hperm.mem_iff.1 hx), fun pi q hq => ?_⟩
  obtain ⟨hram, hno⟩ := h.inv.pipes.own pi q hq
  exact ⟨hram, fun hx => hno (hperm.mem_iff.1 hx)⟩

theorem Good.takePage (h : s.Good) : ∃ s', s.step .takePage = .ok s' ∧ s'.Good := by
  rw [step]
  cases hkalloc : kalloc s.phys with
  | none => exact ⟨s, rfl, h⟩
  | some r =>
    refine ⟨_, rfl, h.movePages ?_⟩
    rw [kalloc_eq_some hkalloc]
    exact perm_middle

theorem Good.givePage (h : s.Good) (i : Nat) : ∃ s', s.step (.givePage i) = .ok s' ∧ s'.Good := by
  rw [step]
  cases hpa : s.held[i]? with
  | none => exact ⟨s, rfl, h⟩
  | some pa =>
    have hmem : pa ∈ s.held := mem_of_getElem? hpa
    have hram := h.inv.pipes.ram pa (mem_append_right _ hmem)
    have hfree : (kfree s.phys pa).mapError Fault.panic =
        .ok { freelist := pa :: s.phys.freelist, mem := memsetPage s.phys.mem pa 1 } := by
      rw [kfree_of_ram hram]
      rfl
    refine ⟨_, bind_eq_ok.2 ⟨_, hfree, rfl⟩, h.movePages ?_⟩
    obtain ⟨hi, hget⟩ := List.getElem?_eq_some_iff.1 hpa
    have herase : (pa :: s.held.eraseIdx i).Perm s.held := by
      rw [← hget]
      exact getElem_cons_eraseIdx_perm hi
    exact perm_middle.symm.trans (herase.append_left _)

/-! ## Runs -/

/-- The counts of open files are exact: `f->ref` is the number of descriptors that refer to `f`;
a file is open exactly as long as there is one; inodes have a reference for each open file; an
end of a pipe is open exactly as long as a descriptor refers to it; and the page of a pipe is
allocated exactly as long as one of its ends is open. -/
structure Exact (s : State) : Prop where
  ref : ∀ f < nfile, (s.ftable f).ref = s.refs f
  opened : ∀ f < nfile, (s.ftable f).type ≠ .none ↔ ∃ p fd, s.ofile p fd = some f
  iref : ∀ ip, s.iref ip = tally (below nfile) (fun f => (s.ftable f).inode) ip
  ends : ∀ pi w, (∃ q, s.pipes pi = some q ∧ q.isOpen w = true) ↔
    ∃ p fd f, s.ofile p fd = some f ∧ (s.ftable f).pipeEnd = some (pi, w)
  pages : ∀ pi, (s.pipes pi).isSome ↔ ∃ p fd f w, s.ofile p fd = some f ∧
    (s.ftable f).pipeEnd = some (pi, w)
  free : ∀ pi, (s.pipes pi).isSome → pi ∉ s.phys.freelist

theorem Good.exact (h : s.Good) : s.Exact := by
  have href : ∀ f < nfile, (s.ftable f).ref = s.refs f := fun f hf => by
    simpa using h.inv.counts.ref f hf
  have hopened : ∀ f < nfile, (s.ftable f).type ≠ .none ↔ ∃ p fd, s.ofile p fd = some f := by
    intro f hf
    constructor
    · intro hne
      have hpos : 0 < s.refs f := by
        have hnz := mt (h.inv.counts.unopened f hf) hne
        have := href f hf
        omega
      obtain ⟨⟨p, fd⟩, -, hfd⟩ := tally_pos.1 hpos
      exact ⟨p, fd, hfd⟩
    · rintro ⟨p, fd, hfd⟩
      exact h.typed p fd f hfd
  have hends : ∀ pi w, (∃ q, s.pipes pi = some q ∧ q.isOpen w = true) ↔
      ∃ p fd f, s.ofile p fd = some f ∧ (s.ftable f).pipeEnd = some (pi, w) := by
    intro pi w
    rw [← h.inv.pipes.ends pi w]
    constructor
    · rintro ⟨f, hf, he⟩
      have hne : (s.ftable f).type ≠ .none := fun hn => by
        rw [pipeEnd_of_ne (by rw [hn]; decide)] at he
        cases he
      obtain ⟨p, fd, hfd⟩ := (hopened f hf).1 hne
      exact ⟨p, fd, f, hfd, he⟩
    · rintro ⟨p, fd, f, hfd, he⟩
      exact ⟨f, (h.inv.counts.range p fd f hfd).2.2, he⟩
  refine ⟨href, hopened, fun ip => ?_, hends, fun pi => ?_, fun pi hsome => ?_⟩
  · simpa using h.inv.inodes ip
  · constructor
    · intro hsome
      obtain ⟨q, hq⟩ := isSome_iff_exists.1 hsome
      obtain ⟨w, hw⟩ := h.inv.pipes.alive pi q hq
      obtain ⟨p, fd, f, hfd, he⟩ := (hends pi w).1 ⟨q, hq, hw⟩
      exact ⟨p, fd, f, w, hfd, he⟩
    · rintro ⟨p, fd, f, w, hfd, he⟩
      obtain ⟨q, hq, -⟩ := (hends pi w).2 ⟨p, fd, f, hfd, he⟩
      rw [hq]
      rfl
  · obtain ⟨q, hq⟩ := isSome_iff_exists.1 hsome
    exact fun hx => (h.inv.pipes.own pi q hq).2 (mem_append_left _ hx)

theorem Good.step (h : s.Good) (e : Event) : ∃ s', s.step e = .ok s' ∧ s'.Good := by
  -- a call by a process that is not there does nothing
  have hcall : ∀ {p : Nat} {x : Except Fault State}, (s.runs p → ∃ s', x = .ok s' ∧ After p s s') →
      ∃ s', (if s.runs p then x else .ok s) = .ok s' ∧ s'.Good := by
    intro p x hx
    by_cases hp : s.runs p
    · obtain ⟨s', hs', hafter⟩ := hx hp
      exact ⟨s', by rw [if_pos hp, hs'], hafter.good h hp⟩
    · exact ⟨s, if_neg hp, h⟩
  cases e with
  | «open» p omode found => exact hcall fun hp => h.sysOpen hp omode found
  | dup p fd => exact hcall fun hp => h.sysDup hp fd
  | pipe p copied => exact hcall fun hp => h.sysPipe hp copied
  | close p fd => exact hcall fun _ => h.sysClose p fd
  | read p fd => exact hcall fun _ => ⟨s, h.sysRead p fd, h.after p⟩
  | write p fd => exact hcall fun _ => ⟨s, h.sysWrite p fd, h.after p⟩
  | fork p np =>
    rw [State.step]
    split
    · rename_i hc
      obtain ⟨s', hloop, hgood⟩ := h.fork p hc.2.1 hc.2.2
      exact ⟨_, bind_eq_ok.2 ⟨s', hloop, rfl⟩, hgood⟩
    · exact ⟨s, rfl, h⟩
  | exit p =>
    rw [State.step]
    split
    · obtain ⟨s', hloop, hgood⟩ := h.exit p
      exact ⟨_, bind_eq_ok.2 ⟨s', hloop, rfl⟩, hgood⟩
    · exact ⟨s, rfl, h⟩
  | takePage => exact h.takePage
  | givePage i => exact h.givePage i

theorem good_start (hnodup : ph.freelist.Nodup) (hram : ∀ x ∈ ph.freelist, RamPage x) :
    (start ph).Good := by
  have hzero : ∀ f, (start ph).refs f = 0 := fun f =>
    Tally.tally_eq_zero.2 fun x _ hx => (nomatch hx)
  refine ⟨⟨⟨fun f _ => ?_, nofun, nofun, fun _ _ _ => rfl⟩,
    fun ip => ?_, ?_⟩, fun _ _ _ => rfl, nofun⟩
  · rw [hzero]
    rfl
  · have hnone : tally (below nfile) (fun f => ((start ph).ftable f).inode) ip = 0 :=
      Tally.tally_eq_zero.2 fun x _ hx => (nomatch hx)
    rw [hnone]
    rfl
  · refine ⟨fun pi w => ?_, nofun, nofun, ?_, ?_,
      nofun⟩
    · exact iff_of_false (fun ⟨_, _, hx⟩ => (nomatch hx)) fun ⟨_, hx, _⟩ => (nomatch hx)
    · simpa [start] using hnodup
    · simpa [start] using hram

/-- Whatever the processes do with their descriptors, no call panics or uses a pipe that is gone,
and the counts of open files are exact. -/
theorem refs_exact (ph : Phys) (hnodup : ph.freelist.Nodup)
    (hram : ∀ x ∈ ph.freelist, RamPage x) (es : List Event) :
    ∃ s, Run.exec State.step (start ph) es = .ok s ∧ s.Exact := by
  obtain ⟨s, hrun, hgood⟩ := Run.exec_ok (fun s e hs => Good.step hs e)
    (good_start hnodup hram) es
  exact ⟨s, hrun, hgood.exact⟩

/-- A pipe between parent and child: the parent has closed its end for reading, and the file of
the end for writing has two descriptors. -/
theorem refs_exact_pipe :
    ∃ s, Run.exec State.step (start { freelist := [kernelEnd], mem := fun _ => 0 })
        [.pipe 0 true, .fork 0 1, .close 0 0] = .ok s ∧ s.Exact ∧
      (s.ftable 0).ref = 1 ∧ (s.ftable 1).ref = 2 := by
  have hends : Run.ends State.step (start { freelist := [kernelEnd], mem := fun _ => 0 })
      [.pipe 0 true, .fork 0 1, .close 0 0]
      (fun s => (s.ftable 0).ref == 1 && (s.ftable 1).ref == 2) = true := by decide +kernel
  obtain ⟨s, hrun, hcheck⟩ := Run.of_ends hends
  obtain ⟨s', hrun', hexact⟩ := refs_exact { freelist := [kernelEnd], mem := fun _ => 0 }
    (nodup_singleton _) (fun x hx => by rw [mem_singleton.1 hx]; decide)
    [.pipe 0 true, .fork 0 1, .close 0 0]
  cases hrun.symm.trans hrun'
  rw [Bool.and_eq_true, beq_iff_eq, beq_iff_eq] at hcheck
  exact ⟨s, hrun, hexact, hcheck.1, hcheck.2⟩

end State

end Xv6.Ftable
