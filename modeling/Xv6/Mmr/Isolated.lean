/-
Memory isolation over whole runs: `fork`, `exec` and the start, and the condition under which
every step keeps the isolation.
-/
import Xv6.Mmr.Release

namespace Xv6

open Kernel PageTable List Bool
open Run (bind_eq_ok)

variable {done : Bool} {e : Event} {k k' : Kernel} {p v : Nat}

variable {f i u : Nat} {ph : Phys}

/-! ## fork -/

section

variable {k k' : Kernel} {p np : Nat}

theorem Forked.ownPage (h : Forked k k' p np) (hb : k.Basic) (hi : k.Held p i)
    (hpriv : ((k.proc p).mmr i).isPrivate = false) (hu : u ∈ ((k.proc p).mmr i).pages)
    (huser : ∃ w, (k.proc p).pagetable.user u = some w) : k.OwnPage k.Held p i u := by
  obtain ⟨tf, ph, pt₀, ph₀, -, -, -, -, hfill⟩ := h.table
  have hp := hb.sound p
  have hshared : u ∈ usablePages (k.proc p).pagetable (k.proc p).mmr true maxMmr :=
    mem_usablePages.2 ⟨i, hp.index i hi.2, hi.2, hpriv, hu, huser⟩
  obtain ⟨-, hlent, hdisj⟩ := nodup_append.1 hfill.nodup
  refine ⟨hu, fun j hj huj => ?_, ?_, huser⟩
  · cases hpj : ((k.proc p).mmr j).isPrivate with
    | true =>
      refine absurd rfl (hdisj u (mem_append_right _ ?_) u hshared)
      exact mem_usablePages.2 ⟨j, hp.index j hj.2, hj.2, hpj, huj, huser⟩
    | false =>
      exact usablePages_unique hlent (hp.index j hj.2) (hp.index i hi.2) hj.2 hi.2 hpj hpriv huj
        hu huser
  · by_contra hlt
    refine hdisj u (mem_append_left _ ?_) u hshared rfl
    rw [mem_range']
    omega

theorem Forked.leafAt (h : Forked k k' p np) (hl : (k'.proc np).LeafAt u f) :
    u ∈ List.range' 0 (npages (k.proc p).sz) ++
        usablePages (k.proc p).pagetable (k.proc p).mmr false maxMmr ∨
      (k.proc p).LeafAt u f ∧
        u ∈ usablePages (k.proc p).pagetable (k.proc p).mmr true maxMmr := by
  obtain ⟨tf, ph, pt₀, ph₀, -, -, hpt, hnull, hfill⟩ := h.table
  obtain ⟨hlt, h1, h2, w, hw, hf⟩ := hl
  by_cases hfresh : u ∈ List.range' 0 (npages (k.proc p).sz) ++
      usablePages (k.proc p).pagetable (k.proc p).mmr false maxMmr
  · exact .inl hfresh
  by_cases hlent : u ∈ usablePages (k.proc p).pagetable (k.proc p).mmr true maxMmr
  · refine .inr ⟨⟨hlt, h1, h2, ?_⟩, hlent⟩
    obtain ⟨-, -, -, -, -, e, he⟩ := mem_usablePages.1 hlent
    have hshared := hfill.shared u hlent
    rw [hw] at hshared
    cases hshared
    refine ⟨e, (user_eq_some.1 he).2.1, ?_⟩
    rw [← hf, pte2pa_lentWord, entry_of_user he]
  · rw [hfill.other u hlt hfresh hlent, ((procPagetable_eq_ok hpt).2 hnull).2 u hlt, if_neg h1,
      if_neg h2] at hw
    cases hw

theorem Forked.update (h : Forked k k' p np) (hb : k.Basic) (hne : p ≠ np) :
    Kernel.Frames.Update k k' np [] (List.range' 0 (npages (k.proc p).sz) ++
      usablePages (k.proc p).pagetable (k.proc p).mmr false maxMmr) := by
  obtain ⟨tf, ph, pt₀, ph₀, hkalloc, htf, hpt, hnull, hfill⟩ := h.table
  obtain ⟨habsent, hnotf, -⟩ := (hb.sound np).unused (freeSlot_eq_some h.slot).2
  have hbase : (k.proc np).base = [] := by
    rw [Proc.base, habsent, hnotf]
    rfl
  have hcount : ∀ f, k'.phys.freelist.count f + (k'.proc np).base.count f +
      ((k'.proc np).pagetable.frames (List.range' 0 (npages (k.proc p).sz) ++
        usablePages (k.proc p).pagetable (k.proc p).mmr false maxMmr)).count f =
      k.phys.freelist.count f := by
    intro f
    have h1 := hfill.acct.cons f
    have h2 := ((procPagetable_eq_ok hpt).2 hnull).1 f
    have h3 : k.phys.freelist.count f = ph.freelist.count f + [tf].count f := by
      rw [kalloc_eq_some hkalloc, count_cons, count_cons, count_nil, Nat.zero_add]
    rw [Proc.base, htf, count_append]
    simp only [Option.toList_some, count_nil] at h1 ⊢
    omega
  have htable : ∀ q, q ≠ np → (k'.proc q).pagetable = (k.proc q).pagetable := by
    intro q hq
    by_cases hqp : q = p
    · rw [hqp, h.parent]
    · rw [h.others q hqp hq]
  have htf' : ∀ q, q ≠ np → (k'.proc q).trapframe = (k.proc q).trapframe := by
    intro q hq
    by_cases hqp : q = p
    · rw [hqp, h.parent]
    · rw [h.others q hqp hq]
  refine ⟨htable, htf', fun f => ?_, .nil, by simp, by simp, fun u hu => ?_, fun u f hl => ?_⟩
  · rw [hcount]
    simp [PageTable.frames]
  · have := hcount (pte2pa ((k'.proc np).pagetable.entry u))
    have := Kernel.Frames.count_frames_pos (k'.proc np).pagetable hu
    exact count_pos_iff.1 (by omega)
  · rcases h.leafAt hl with hfresh | ⟨hparent, -⟩
    · exact .inl hfresh
    · refine .inr (.inr ⟨⟨p, hne, hparent⟩, ?_⟩)
      rintro u' f' ⟨-, -, -, w, hw, -⟩
      rw [habsent, leaf_absent] at hw
      cases hw

/-- The process a region held after `fork` comes from: the parent for the child. -/
def forkSource (p np s : Nat) : Nat := if s = np then p else s

section

variable (h : Forked k k' p np)

include h

theorem Forked.region (s i : Nat) :
    ((k.proc (forkSource p np s)).mmr i).SameRegion ((k'.proc s).mmr i) := by
  unfold forkSource
  split
  · rename_i hs
    rw [hs]
    exact h.sameRegions i
  · rename_i hs
    by_cases hsp : s = p
    · rw [hsp, h.parent]
      dsimp only
      split
      · exact Mmr.sameRegion_lent _ _ _ _
      · rfl
    · rw [h.others s hsp hs]
      rfl

theorem Forked.held (hlive : (k.proc p).state ≠ .unused) (s i : Nat) :
    k'.Held s i ↔ k.Held (forkSource p np s) i := by
  have hstate : (k'.proc s).state = .unused ↔ (k.proc (forkSource p np s)).state = .unused := by
    unfold forkSource
    split
    · rename_i hs
      rw [hs, h.state]
      simp [hlive]
    · rename_i hs
      by_cases hsp : s = p
      · rw [hsp, h.parent]
      · rw [h.others s hsp hs]
  rw [Kernel.Held, Kernel.Held, h.region s i, ne_eq, hstate]

theorem Forked.sz_eq (s : Nat) : (k'.proc s).sz = (k.proc (forkSource p np s)).sz := by
  unfold forkSource
  split
  · rename_i hs
    rw [hs, h.sz]
  · rename_i hs
    by_cases hsp : s = p
    · rw [hsp, h.parent]
    · rw [h.others s hsp hs]

theorem Forked.paired (hlive : (k.proc p).state ≠ .unused) (hne : p ≠ np) (hb : k.Basic)
    (hi : k.Held p i) (hpriv : ((k.proc p).mmr i).isPrivate = false) (hl : k.Link p p i) :
    k'.Paired k'.Held p np i := by
  have hmax := (hb.sound p).index i hi.2
  have hparent : (k'.proc p).mmr i = ((k.proc p).mmr i).lent p np i := by
    rw [h.parent]
    exact if_pos hmax
  have hchild : (k'.proc np).mmr i = ((k.proc p).mmr i).inherited p np i := by
    rw [h.mmr, if_pos hmax]
  refine ⟨hne, ?_, ?_, ?_, ?_, ?_, ?_⟩
  · rw [h.held hlive, forkSource, if_neg hne]
    exact hi
  · rw [h.held hlive, forkSource, if_pos rfl]
    exact hi
  · rw [Kernel.Link, Kernel.node, hparent, Mmr.lent, hi.2, hpriv]
    have hprev : ((k.proc p).mmr i).family.prev = some ⟨p, i⟩ := hl.2
    simp [hprev]
  · rw [Kernel.Link, Kernel.node, hchild, Mmr.inherited, hi.2, hpriv]
    have hnext : ((k.proc p).mmr i).family.next = some ⟨p, i⟩ := hl.1
    simp [hnext]
  · rw [hparent, (Mmr.sameRegion_lent _ _ _ _).isPrivate]
    exact hpriv
  · rw [hparent, hchild]
    exact (Mmr.sameRegion_lent _ _ _ _).symm.trans (Mmr.sameRegion_inherited _ _ _ _)

theorem Forked.listid (s i : Nat) (hpriv : ((k.proc (forkSource p np s)).mmr i).isPrivate = false) :
    ((k'.proc s).mmr i).family.listid =
      ((k.proc (forkSource p np s)).mmr i).family.listid := by
  unfold forkSource at hpriv ⊢
  split at hpriv
  · rename_i hs
    rw [if_pos hs, hs, h.mmr]
    split
    · rw [Mmr.inherited, hpriv]
      split <;> rfl
    · rfl
  · rename_i hs
    rw [if_neg hs]
    by_cases hsp : s = p
    · rw [hsp, h.parent]
      dsimp only
      split
      · rw [Mmr.lent]
        split <;> rfl
      · rfl
    · rw [h.others s hsp hs]

theorem Forked.user_child (hu : u ∈ usablePages (k.proc p).pagetable (k.proc p).mmr true maxMmr) :
    ∃ w, (k'.proc np).pagetable.user u = some w := by
  obtain ⟨_, _, _, _, -, -, -, -, hfill⟩ := h.table
  obtain ⟨-, -, -, -, -, e, he⟩ := mem_usablePages.1 hu
  obtain ⟨hmax, hleaf, huser, hpa⟩ := user_eq_some.1 he
  refine ⟨_, user_eq_some.2 ⟨hmax, hfill.shared u hu, ?_, ?_⟩⟩
  · rw [lentWord, has_user_leafWord _ (pteFlags_lt _), has_pteFlags _ (by decide),
      entry_of_user he]
    exact huser
  · rw [pte2pa_lentWord, entry_of_user he]
    exact hpa

end

theorem iso_fork (h : k.Iso k.Held) (hb : k.Basic) (hlive : (k.proc p).state ≠ .unused)
    (hf : Forked k k' p np)
    (hsingle : ∀ i, k.Held p i → ((k.proc p).mmr i).isPrivate = false →
      (k.node ⟨p, i⟩).next = some ⟨p, i⟩) : k'.Iso k'.Held := by
  have hunused := (freeSlot_eq_some hf.slot).2
  have hne : p ≠ np := fun he => hlive (he ▸ hunused)
  have hnot : ∀ i, ¬ k.Held np i := fun i hi => hi.1 hunused
  have hlink : ∀ i, k.Held p i → ((k.proc p).mmr i).isPrivate = false → k.Link p p i := by
    intro i hi hpriv
    rcases h.family p i hi hpriv with hl | ⟨q, hpair⟩
    · exact hl
    · have hnext := hpair.fore.1
      rw [hsingle i hi hpriv] at hnext
      simp only [Option.some.injEq, NodePtr.mk.injEq] at hnext
      exact absurd hnext.1 hpair.ne
  have hnopair : ∀ {q i}, ¬ k.Paired k.Held p q i := fun hpair =>
    (hlink _ hpair.left hpair.notPrivate).not_paired hpair
  have hsame : ∀ {s}, s ≠ p → s ≠ np → k'.proc s = k.proc s := fun hsp hsn => hf.others _ hsp hsn
  have hsource : ∀ {s}, s ≠ np → forkSource p np s = s := fun hs => if_neg hs
  -- what other processes share stays
  have hkeep : ∀ {s t i}, k.Paired k.Held s t i → s ≠ p ∧ s ≠ np ∧ k'.Paired k'.Held s t i := by
    intro s t i hpair
    have hs : s ≠ p := by
      rintro rfl
      exact hnopair hpair
    have ht : t ≠ p := by
      rintro rfl
      exact hnopair hpair.symm
    have hs' : s ≠ np := by
      rintro rfl
      exact hnot i hpair.left
    have ht' : t ≠ np := by
      rintro rfl
      exact hnot i hpair.right
    refine ⟨hs, hs', hpair.transfer ?_ ?_ (by rw [hsame hs hs']) (by rw [hsame ht ht'])⟩
    · rw [hf.held hlive, hsource hs']
      exact hpair.left
    · rw [hf.held hlive, hsource ht']
      exact hpair.right
  -- a page that one of the two has for itself
  have hown : ∀ {s i u}, k.OwnPage k.Held (forkSource p np s) i u →
      (∃ w, (k'.proc s).pagetable.user u = some w) → k'.OwnPage k'.Held s i u := by
    intro s i u ho hu
    refine ⟨?_, fun j hj huj => ?_, ?_, hu⟩
    · rw [(hf.region s i).pages]
      exact ho.page
    · rw [hf.held hlive] at hj
      rw [(hf.region s j).pages] at huj
      exact ho.only j hj huj
    · rw [hf.sz_eq]
      exact ho.heap
  have hkeepOwn : ∀ {s i u}, s ≠ np → k.OwnPage k.Held s i u → k'.OwnPage k'.Held s i u := by
    intro s i u hs ho
    refine hown (by rwa [hsource hs]) ?_
    by_cases hsp : s = p
    · subst hsp
      rw [hf.parent]
      exact ho.user
    · rw [hsame hsp hs]
      exact ho.user
  refine ⟨h.frames.update hb.ram (hf.update hb hne) (fun q u f hq hl hl' => ?_)
    (fun q q' u f hq hq' _ _ _ hs => ?_), fun s i hs => ?_, fun s i hs hpriv => ?_,
    fun s t i j hs ht hpriv ho => ?_⟩
  · rcases hf.leafAt hl with hfresh | ⟨hparent, hlent⟩
    · have htaken := (hf.update hb hne).taken u hfresh
      rw [hl.frame] at htaken
      exact absurd htaken (h.frames.leaf q u f hl').2.1
    · obtain ⟨i, hi, hv, hpriv, hu, huser⟩ := mem_usablePages.1 hlent
      have hheld : k.Held p i := ⟨hlive, hv⟩
      have ho := hf.ownPage hb hheld hpriv hu huser
      -- no third process has the page
      obtain rfl : q = p := by
        by_contra hqp
        obtain ⟨j, hpair, -⟩ := (h.frames.shared p q u u f (fun he => hqp he.symm) hparent hl').2
        exact hnopair hpair
      have hpair := hf.paired hlive hne hb hheld hpriv (hlink i hheld hpriv)
      have hshared : k'.SharedAt k'.Held q np u := by
        refine ⟨i, hpair, hkeepOwn hne ho, hown ?_ (hf.user_child hlent)⟩
        rw [forkSource, if_pos rfl]
        exact ho
      exact ⟨hshared.symm, hshared⟩
  · obtain ⟨i, hpair, ho, ho'⟩ := hs
    obtain ⟨-, hs', hpair'⟩ := hkeep hpair
    exact ⟨i, hpair', hkeepOwn hq ho, hkeepOwn hq' ho'⟩
  · rw [hf.held hlive] at hs
    have hreg := hf.region s i
    obtain ⟨h1, h2, h3⟩ := h.proper _ i hs
    refine ⟨by rwa [hreg], by rwa [hreg], ?_⟩
    rw [hreg.isPrivate]
    cases hpriv : ((k.proc (forkSource p np s)).mmr i).isPrivate with
    | true => exact .inl rfl
    | false =>
      rw [hpriv] at h3
      refine h3.imp_right fun hin => ?_
      rw [hf.listid s i hpriv]
      exact hin
  · rw [hf.held hlive] at hs
    rw [(hf.region s i).isPrivate] at hpriv
    by_cases hsn : s = np
    · subst hsn
      rw [forkSource, if_pos rfl] at hs hpriv
      exact .inr ⟨p, (hf.paired hlive hne hb hs hpriv (hlink i hs hpriv)).symm⟩
    · rw [hsource hsn] at hs hpriv
      by_cases hsp : s = p
      · subst hsp
        exact .inr ⟨np, hf.paired hlive hne hb hs hpriv (hlink i hs hpriv)⟩
      · rcases h.family s i hs hpriv with hl | ⟨t, hpair⟩
        · refine .inl ?_
          rw [Kernel.Link, Kernel.node, hsame hsp hsn]
          exact hl
        · exact .inr ⟨t, (hkeep hpair).2.2⟩
  · rw [hf.held hlive] at hs ht
    rw [(hf.region s i).isPrivate] at hpriv
    rw [hf.region s i, hf.region t j] at ho
    obtain ⟨rfl, he | hpair⟩ := h.one _ _ i j hs ht hpriv ho
    · refine ⟨rfl, ?_⟩
      by_cases hsn : s = np
      · by_cases htn : t = np
        · exact .inl (hsn.trans htn.symm)
        · rw [hsource htn, forkSource, if_pos hsn] at he
          subst hsn he
          rw [hsource hne] at ht
          rw [forkSource, if_pos rfl] at hpriv
          exact .inr (hf.paired hlive hne hb ht hpriv (hlink i ht hpriv)).symm
      · by_cases htn : t = np
        · rw [hsource hsn, forkSource, if_pos htn] at he
          subst htn he
          rw [hsource hne] at hs hpriv
          exact .inr (hf.paired hlive hne hb hs hpriv (hlink i hs hpriv))
        · rw [hsource hsn, hsource htn] at he
          exact .inl he
    · have hback : ∀ {s}, forkSource p np s ≠ p → forkSource p np s = s := by
        intro s hs
        refine hsource fun hsn => hs ?_
        rw [forkSource, if_pos hsn]
      obtain ⟨hs', -, hpair'⟩ := hkeep hpair
      obtain ⟨ht', -, -⟩ := hkeep hpair.symm
      rw [hback hs', hback ht'] at hpair'
      exact ⟨rfl, .inr hpair'⟩

end

/-! ## exec, wait and the start -/

theorem Kernel.held_congr (hstate : (k'.proc p).state = (k.proc p).state)
    (hmmr : (k'.proc p).mmr = (k.proc p).mmr) : k'.Held p i ↔ k.Held p i := by
  rw [Kernel.Held, hstate, hmmr, Kernel.Held]

section

variable (h : k.Iso k.Held) (hb : k.Basic)

include h hb

theorem iso_exec {file : Option (List UInt8)} {argv : List (List UInt8)}
    (he : exec k p file argv = .ok (done, k')) : k'.Iso k'.Held := by
  rcases exec_eq_ok hb.ram he with ⟨-, ph, hcount, rfl⟩ |
    ⟨-, tf, pt₀, ph₀, pt, ph, sz, ph', htf, hpt, hnull, himage, -, hfree, rfl⟩
  · exact h.of_same (fun _ => rfl) (fun _ => rfl) (fun _ => rfl) (fun _ => rfl) hcount hb.ram
  have hself : (k.resize p sz (pt, ph')).proc p = { k.proc p with pagetable := pt, sz := sz } :=
    proc_setProc_self _ _ _
  have hothers : ∀ q, q ≠ p → (k.resize p sz (pt, ph')).proc q = k.proc q := fun q hq =>
    proc_setProc_of_ne _ hq _
  obtain ⟨hback, hheap, -⟩ :=
    procFreepagetable_eq_ok ((hb.sound p).sz.trans trapframe_le_maxva) hfree
  have hnew := ((procPagetable_eq_ok hpt).2 hnull)
  have hcons := himage.filled.acct.cons
  have htop := trapframeVpn_lt
  have htramp : trampolineVpn = trapframeVpn + 1 := by decide
  have hfresh : ∀ u f, ((k.resize p sz (pt, ph')).proc p).LeafAt u f →
      u ∈ List.range' 0 (npages sz) := by
    intro u f hl
    by_contra hnot
    obtain ⟨hlt, h1, h2, w, hw, -⟩ := hl
    rw [hself] at hw
    rw [himage.filled.other u hlt hnot (by simp), hnew.2 u hlt, if_neg h1, if_neg h2] at hw
    cases hw
  have hu : Kernel.Frames.Update k (k.resize p sz (pt, ph')) p
      (List.range' 0 (npages (k.proc p).sz)) (List.range' 0 (npages sz)) := by
    refine ⟨fun q hq => by rw [hothers q hq], fun q hq => by rw [hothers q hq], fun f => ?_,
      nodup_range', fun u hu => ?_, fun u hu q u' f hq hl hl' => ?_, fun u hu => ?_,
      fun u f hl => .inl (hfresh u f hl)⟩
    · have h1 := hback f
      have h2 := hnew.1 f
      have h3 := hcons f
      rw [hself]
      simp only [Proc.base, count_append, count_nil, Kernel.resize] at h3 ⊢
      omega
    · rw [mem_range'] at hu
      obtain ⟨hlt, w, hw, -⟩ := hheap u (by omega)
      exact ⟨_, by omega, by omega, by omega, w, hw, rfl⟩
    · obtain ⟨rfl, hs⟩ := h.frames.shared p q u u' f (fun he => hq he.symm) hl hl'
      rw [mem_range'] at hu
      have := hs.not_heap
      omega
    · rw [hself]
      show pte2pa (pt.entry u) ∈ k.phys.freelist
      have h2 := hnew.1 (pte2pa (pt.entry u))
      have h3 := hcons (pte2pa (pt.entry u))
      have h4 := Kernel.Frames.count_frames_pos pt hu
      rw [count_nil] at h3
      exact count_pos_iff.1 (by omega)
  refine (h.of_update hb.ram hu (same_of_others hothers (·.mmr) (by rw [hself]))
    (fun s hs => by rw [hothers s hs]) fun q u f hl hl' hq => ?_).congr fun s i =>
      held_congr (same_of_others hothers (·.state) (by rw [hself]) s)
        (same_of_others hothers (·.mmr) (by rw [hself]) s)
  -- a page of the new image has a frame that was free
  exfalso
  refine (h.frames.leaf q u f hl').2.1 ?_
  rw [← hl.frame]
  exact hu.taken u (hfresh u f hl)

theorem iso_wait {addr : Nat} (hw : wait k p addr = .ok k') : k'.Iso k'.Held := by
  obtain ⟨ph, hfree, hcase⟩ := wait_eq_ok hw
  have hquiet := k.quiet_phys hfree
  have h₁ : ({ k with phys := ph } : Kernel).Iso (Kernel.Held { k with phys := ph }) :=
    hquiet.iso h hb.ram
  rcases hcase with rfl | ⟨c, -, hzombie, -, hf⟩
  · exact h₁
  · exact iso_freeproc h₁ (hb.of_quiet hquiet) (fun hu => by
      have hstate : (k.proc c).state = .unused := hu
      rw [hzombie] at hstate
      cases hstate) hf

theorem iso_exit {status : Nat} (hlive : (k.proc p).state ≠ .unused) (he : exit k p status = .ok k')
    : k'.Iso k'.Held := by
  have hquiet := (exit_eq_ok hlive he).1
  exact (hquiet.iso h hb.ram).congr fun s i => hquiet.held s i

theorem iso_access {va : Nat} {store : Bool} (hlive : (k.proc p).state ≠ .unused)
    (hroom : (∃ i < maxMmr, ((k.proc p).mmr i).Serves store va) → 3 ≤ k.phys.freelist.length)
    (ha : usertrapFault k p store va = .ok k') : k'.Iso k'.Held := by
  obtain ⟨k₁, hfault, hend⟩ := usertrapFault_eq_ok ha
  obtain ⟨hiso, hothers, hself⟩ := iso_faultRegions h hb (fun i hi => ⟨hlive, hi⟩) hroom hfault
  have hlive₁ : (k₁.proc p).state ≠ .unused := by
    rw [hself]
    exact hlive
  have h₁ : k₁.Iso k₁.Held := hiso.congr fun s i =>
    held_congr (same_of_others hothers (·.state) (by rw [hself]) s)
      (same_of_others hothers (·.mmr) (by rw [hself]) s)
  rcases hend with rfl | hexit
  · exact h₁
  · exact iso_exit h₁ (basic_faultRegions hb hlive hfault).1 hlive₁ hexit

theorem iso_sbrk {n : Nat} (hg : growproc k p n = .ok (done, k')) : k'.Iso k'.Held :=
  (iso_growproc h hb hg).congr fun s i => by
    obtain ⟨hstate, hmmr⟩ := growproc_keeps hg s
    exact held_congr hstate hmmr

end

theorem Booted.leafAt {tf page : Nat} (h : Booted ph k tf page) (hl : (k.proc p).LeafAt u f) :
    p = 0 ∧ u = 0 ∧ f = page := by
  obtain ⟨hlt, h1, h2, w, hw, hf⟩ := hl
  by_cases hp : p = 0
  · subst hp
    rw [h.leaf u hlt, if_neg h1, if_neg h2] at hw
    split at hw
    · rename_i hu
      cases hw
      exact ⟨rfl, hu, by rw [← hf, pte2pa_leafWord h.ramPage (by decide)]⟩
    · cases hw
  · rw [h.others p hp] at hw
    cases (leaf_absent u).symm.trans hw

theorem iso_boot (h : Boots ph k) : k.Iso k.Held := by
  obtain ⟨tf, page, hb⟩ := h.booted
  have hbase : ∀ p, p ≠ 0 → (k.proc p).base = [] := by
    intro p hp
    rw [hb.others p hp]
    rfl
  have hbase₀ : (k.proc 0).base = tf :: (k.proc 0).pagetable.pages := by
    rw [hb.proc]
    rfl
  have hone : ∀ f, k.phys.freelist.count f + [page].count f + (k.proc 0).base.count f ≤ 1 := by
    intro f
    have h1 := hb.count f
    have h2 := nodup_iff_count_le_one.1 h.nodup f
    rw [hbase₀]
    simp only [count_cons] at h1 ⊢
    omega
  have hnone : ∀ p i, ¬ k.Held p i := by
    rintro p i ⟨-, hv⟩
    by_cases hp : p = 0
    · rw [hp, hb.proc] at hv
      cases hv
    · rw [hb.others p hp] at hv
      cases hv
  have hzero : ∀ p f, f ∈ (k.proc p).base → p = 0 := by
    intro p f hf
    by_contra hp
    rw [hbase p hp] at hf
    cases hf
  refine ⟨⟨?_, fun p => ⟨?_, fun f hf hfree => ?_⟩, fun p f hf => ?_, fun p q hne f hf hf' => ?_,
    fun p u f hl => ?_, fun p u u' f hl hl' => ?_, fun p q u u' f hne hl hl' => ?_⟩,
    fun p i hi => absurd hi (hnone p i), fun p i hi => absurd hi (hnone p i),
    fun p q i j hi => absurd hi (hnone p i)⟩
  · exact nodup_iff_count_le_one.2 fun f => by have := hone f; omega
  · by_cases hp : p = 0
    · rw [hp]
      exact nodup_iff_count_le_one.2 fun f => by have := hone f; omega
    · rw [hbase p hp]
      exact .nil
  · rw [hzero p f hf] at hf
    have h1 := hone f
    have h2 := count_pos_iff.2 hf
    have h3 := count_pos_iff.2 hfree
    omega
  · rw [hzero p f hf] at hf
    have h1 := hb.count f
    have h2 := count_pos_iff.2 hf
    rw [hbase₀] at h2
    simp only [count_cons] at h1 h2
    exact h.ram f (count_pos_iff.1 (by omega))
  · exact hne ((hzero p f hf).trans (hzero q f hf').symm)
  · obtain ⟨-, -, rfl⟩ := hb.leafAt hl
    have h1 := hone f
    rw [count_cons_self] at h1
    refine ⟨hb.ramPage, fun hfree => ?_, fun q hf => ?_⟩
    · have h2 := count_pos_iff.2 hfree
      omega
    · rw [hzero q f hf] at hf
      have h2 := count_pos_iff.2 hf
      omega
  · exact (hb.leafAt hl).2.1.trans (hb.leafAt hl').2.1.symm
  · exact absurd ((hb.leafAt hl).1.trans (hb.leafAt hl').1.symm) hne

/-! ## The run -/

namespace Kernel

/-- Every page that a process can use has a frame of its own: RAM that is neither free nor the
kernel's, and that another process maps only as a page of the same shared region. -/
def Isolated (k : Kernel) : Prop :=
  ∀ p v f, (k.proc p).state ≠ .unused → v < nvpn → (k.proc p).pagetable.maps v f →
    RamPage f ∧ f ∉ k.phys.freelist ∧ (∀ q, f ∉ (k.proc q).base) ∧
    ∀ q u w, q ≠ p → u < nvpn → (k.proc q).pagetable.leaf u = some w → pte2pa w = f →
      u = v ∧ ∃ i, k.Shared p i ∧ k.Shared q i ∧
        ((k.proc p).mmr i).origin = ((k.proc q).mmr i).origin ∧
        v ∈ ((k.proc p).mmr i).pages ∧ v ∈ ((k.proc q).mmr i).pages

/-- What keeps processes apart: `mmap` is called with bits of a page-table entry as protection,
with one of the two kinds of mapping and while `mmr_list` has a free id for a shared one; there
are frames left for a fault and for a `fork`; and a process does not fork while it shares a
region. -/
def Orderly (k : Kernel) : Event → Prop
  | .mmap _ _ prot flags => prot % 2 ^ 32 < 1024 ∧
      (has (flags % 2 ^ 32) mapPrivate = true ∨ has (flags % 2 ^ 32) mapShared = true) ∧
      (has (flags % 2 ^ 32) mapPrivate = true ∨ ∃ j < nlist, k.mmrList j = false)
  | .fork p => freeSlot k = none ∨ forkNeed (k.proc p) ≤ k.phys.freelist.length ∧
      ∀ i, ((k.proc p).mmr i).valid = true → ((k.proc p).mmr i).isPrivate = false →
        (k.node ⟨p, i⟩).next = some ⟨p, i⟩
  | .access p store va => k.Faults p store (word va) → 3 ≤ k.phys.freelist.length
  | _ => True

theorem leafAt_of_maps (hb : k.Basic) (hlive : (k.proc p).state ≠ .unused) (hv : v < nvpn)
    (hm : (k.proc p).pagetable.maps v f) : (k.proc p).LeafAt v f := by
  obtain ⟨w, hw, huser, hf⟩ := hm
  have hfixed := (hb.sound p).fixed hlive
  refine ⟨hv, fun he => ?_, fun he => ?_, w, hw, hf⟩
  · rw [he, hfixed.trampoline] at hw
    cases hw
    cases (leafWord_not_user _ (by decide)).symm.trans huser
  · obtain ⟨tf, -, hleaf⟩ := hfixed.trapframe
    rw [he, hleaf] at hw
    cases hw
    cases (leafWord_not_user _ (by decide)).symm.trans huser

theorem Iso.leafAt_of_leaf {q w : Nat} (h : k.Iso k.Held) (hb : k.Basic) (hu : u < nvpn)
    (hw : (k.proc q).pagetable.leaf u = some w) (hram : RamPage (pte2pa w))
    (hbase : pte2pa w ∉ (k.proc q).base) : (k.proc q).LeafAt u (pte2pa w) := by
  have hlive : (k.proc q).state ≠ .unused := by
    intro hunused
    rw [((hb.sound q).unused hunused).1, leaf_absent] at hw
    cases hw
  have hfixed := (hb.sound q).fixed hlive
  refine ⟨hu, fun he => ?_, fun he => ?_, w, hw, rfl⟩
  · -- the trampoline is code of the kernel
    rw [he, hfixed.trampoline] at hw
    cases hw
    exact absurd hram.2.1 (by decide)
  · obtain ⟨tf, htf, hleaf⟩ := hfixed.trapframe
    have hmem : tf ∈ (k.proc q).base := by simp [Proc.base, htf]
    rw [he, hleaf] at hw
    cases hw
    rw [pte2pa_leafWord (h.frames.ram q tf hmem) (by decide)] at hbase
    exact hbase hmem

theorem Iso.shared (h : k.Iso k.Held) (hp : k.Held p i)
    (hpriv : ((k.proc p).mmr i).isPrivate = false) : k.Shared p i :=
  ⟨hp.1, hp.2, (h.proper p i hp).flags.resolve_left (by simp [hpriv]), hpriv⟩

theorem Iso.isolated (h : k.Iso k.Held) (hb : k.Basic) : k.Isolated := by
  intro p v f hlive hv hmap
  have hl := leafAt_of_maps hb hlive hv hmap
  obtain ⟨hram, hfree, hbase⟩ := h.frames.leaf p v f hl
  refine ⟨hram, hfree, hbase, ?_⟩
  rintro q u w hq hu hw rfl
  obtain ⟨rfl, i, hpair, hown, hown'⟩ := h.frames.shared p q v u _ (fun he => hq he.symm) hl
    (h.leafAt_of_leaf hb hu hw hram (hbase q))
  exact ⟨rfl, i, h.shared hpair.left hpair.notPrivate,
    h.shared hpair.right hpair.symm.notPrivate, by rw [hpair.same], hown.page, hown'.page⟩

end Kernel

theorem fork_no_slot {r : Int} (hb : k.Basic) (hlive : (k.proc p).state ≠ .unused)
    (hslot : freeSlot k = none) (hf : fork k p = .ok (r, k')) : k' = k := by
  rcases fork_eq_ok hlive hb.ram (hb.sound p).addr hf with ⟨-, rfl | ⟨c, -, hc, -⟩⟩ | ⟨np, -, hc⟩
  · rfl
  · rw [hslot] at hc
    cases hc
  · cases hslot.symm.trans hc.slot

theorem iso_step (hb : k.Basic) (h : k.Iso k.Held) (hg : k.Orderly e) (hs : k.step e = .ok k') :
    k'.Iso k'.Held := by
  rcases step_eq_ok hs with rfl | ⟨hruns, hdoes⟩
  · exact h
  have hlive := hruns.live
  cases hdoes with
  | fork hf =>
    cases hslot : freeSlot k with
    | none =>
      rw [fork_no_slot hb hlive hslot hf]
      exact h
    | some np =>
      rcases hg with hnone | ⟨hroom, hsingle⟩
      · cases hslot.symm.trans hnone
      · exact iso_fork h hb hlive (fork_room hb hlive hslot hroom hf).2
          fun i hi hp => hsingle i hi.2 hp
  | exit hx => exact iso_exit h hb hlive hx
  | wait hw => exact iso_wait h hb hw
  | sbrk hgrow => exact iso_sbrk h hb hgrow
  | mmap hm => exact iso_mmap h hb hlive hg.1 hg.2.1 hg.2.2 hm
  | munmap hm => exact iso_munmap h hb hlive hm
  | hit _ => exact h
  | fault hmiss ha => exact iso_access h hb hlive (fun hserve => hg ⟨hmiss, hserve⟩) ha
  | exec he => exact iso_exec h hb he

theorem inv_of_orderly {es : List Event} (hboot : Boots ph k)
    (hg : Run.Guarded Kernel.step Kernel.Orderly k es) (hrun : Run.exec Kernel.step k es = .ok k') :
    k'.Basic ∧ k'.Iso k'.Held :=
  Run.inv_of_guarded (I := fun x => x.Basic ∧ x.Iso x.Held)
    (fun _ _ _ hs hge hstep => ⟨basic_step hs.1 hstep, iso_step hs.1 hs.2 hge hstep⟩)
    ⟨basic_boot hboot, iso_boot hboot⟩ hg hrun

/-- In a run in which calls and faults are in order, every process has its frames for itself,
but for those of a region that it inherited or passed on as a shared one. -/
theorem isolated_of_orderly {ph : Phys} {k k' : Kernel} {es : List Event} (hboot : Boots ph k)
    (hg : Run.Guarded Kernel.step Kernel.Orderly k es)
    (hrun : Run.exec Kernel.step k es = .ok k') : k'.Isolated := by
  obtain ⟨hb, hiso⟩ := inv_of_orderly hboot hg hrun
  exact hiso.isolated hb

/-- The first process maps page `v` to a frame, which is free or not as `free` says. -/
def Kernel.mapsFrame (v : Nat) (free : Bool) (k : Kernel) : Bool :=
  let w := (k.proc 0).pagetable.entry v
  has w pteV && has w pteU && k.phys.freelist.contains (pte2pa w) == free &&
    (k.proc 0).state != .unused

theorem Kernel.of_mapsFrame {free : Bool} (h : k.mapsFrame v free = true) :
    ∃ f, (k.proc 0).pagetable.maps v f ∧ (f ∈ k.phys.freelist ↔ free = true) ∧
      (k.proc 0).state ≠ .unused := by
  simp only [mapsFrame, and_eq_true, beq_iff_eq, bne_iff_ne] at h
  obtain ⟨⟨⟨hv, hu⟩, hfree⟩, hlive⟩ := h
  refine ⟨_, ⟨_, leaf_eq_some.2 ⟨rfl, hv⟩, hu, rfl⟩, ?_, hlive⟩
  rw [← hfree, contains_iff_mem]

/-- A bit of `prot` above the flags ends up in the frame number: the page that the fault maps
leads to a frame that is free. -/
theorem wideProt_not_isolated :
    ∃ ph k k', Boots ph k ∧
      Run.exec Kernel.step k [.mmap 0 pgsize (pteR ||| pteW ||| 2 ^ 16) mapPrivate,
        .access 0 true firstPage] = .ok k' ∧ ¬ k'.Isolated := by
  have hends : bootRun.ends 80 [.mmap 0 pgsize (pteR ||| pteW ||| 2 ^ 16) mapPrivate,
      .access 0 true firstPage] (Kernel.mapsFrame (vpn firstPage) true) = true := by decide +kernel
  obtain ⟨k, k', hboot, hrun, hcheck⟩ := bootRun.of_ends (by decide) (by decide) hends
  obtain ⟨f, hmaps, hfree, hlive⟩ := of_mapsFrame hcheck
  refine ⟨_, k, k', hboot, hrun, fun hiso => ?_⟩
  exact (hiso 0 _ f hlive (by decide) hmaps).2.1 (hfree.2 rfl)

def Kernel.isOrderly (k : Kernel) : Event → Bool
  | .mmap _ _ prot flags => decide (prot % 2 ^ 32 < 1024) &&
      (has (flags % 2 ^ 32) mapPrivate || has (flags % 2 ^ 32) mapShared) &&
      (has (flags % 2 ^ 32) mapPrivate || (List.range nlist).any fun j => !k.mmrList j)
  | .fork p => (freeSlot k).isNone || decide (forkNeed (k.proc p) ≤ k.phys.freelist.length) &&
      (List.range maxMmr).all fun i => !((k.proc p).mmr i).valid || ((k.proc p).mmr i).isPrivate ||
        (k.node ⟨p, i⟩).next == some ⟨p, i⟩
  | .access _ _ _ => decide (3 ≤ k.phys.freelist.length)
  | _ => true

theorem Kernel.orderly_of_isOrderly (hb : k.Basic) (h : k.isOrderly e = true) : k.Orderly e := by
  cases e with
  | mmap p length prot flags =>
    simp only [isOrderly, and_eq_true, or_eq_true, decide_eq_true_eq, any_eq_true,
      mem_range, not_eq_true'] at h
    exact ⟨h.1.1, h.1.2, h.2⟩
  | fork p =>
    simp only [isOrderly, and_eq_true, or_eq_true, decide_eq_true_eq, all_eq_true,
      mem_range, not_eq_true', Option.isNone_iff_eq_none, beq_iff_eq] at h
    refine h.imp_right fun hroom => ⟨hroom.1, fun i hv hp => ?_⟩
    rcases hroom.2 i ((hb.sound p).index i hv) with (hinv | hpriv) | hnext
    · cases hv.symm.trans hinv
    · cases hp.symm.trans hpriv
    · exact hnext
  | access p store va => exact fun _ => by simpa [isOrderly] using h
  | exit | wait | sbrk | munmap | exec => trivial

/-- A page of a shared region that is touched before the fork is the one frame that both
processes map. -/
theorem isolated_of_orderly_touchBeforeFork :
    ∃ ph k k', Boots ph k ∧
      Run.Guarded Kernel.step Kernel.Orderly k [.mmap 0 pgsize (pteR ||| pteW) mapShared,
        .access 0 true firstPage, .fork 0] ∧
      Run.exec Kernel.step k [.mmap 0 pgsize (pteR ||| pteW) mapShared,
        .access 0 true firstPage, .fork 0] = .ok k' ∧ k'.Isolated ∧
      ∃ f, (k'.proc 0).pagetable.maps (vpn firstPage) f ∧
        (k'.proc 1).pagetable.maps (vpn firstPage) f := by
  obtain ⟨k, k', hboot, hrun, hmaps⟩ := boots_touchBeforeFork
  have hpass : bootRun.passes 32 Kernel.isOrderly [.mmap 0 pgsize (pteR ||| pteW) mapShared,
      .access 0 true firstPage, .fork 0] = true := by decide +kernel
  have hguard := hboot.guarded (fun _ _ hs => orderly_of_isOrderly hs) hpass
  exact ⟨_, k, k', hboot, hguard, hrun, isolated_of_orderly hboot hguard hrun, hmaps⟩

end Xv6
