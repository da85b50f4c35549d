/-
Page faults of `kernel/trap.c`: what the loop over the regions does to the page table and to
memory, which faults it should have answered, and which should have killed the process.
-/
import Xv6.Proc.Base
import Xv6.Vm.Copy

namespace Xv6

open Kernel PageTable List Bool
open Run (bind_eq_ok)

variable {ok : Bool} {r : Bool × PageTable × Phys} {f va : Nat} {pt : PageTable} {ph : Phys}

variable {store : Bool} {k : Kernel} {n p pa : Nat} {pt' : PageTable} {ph' : Phys}

/-- A page that is mapped cannot be mapped again. -/
theorem mappages_of_valid {pt : PageTable} {ph : Phys} {pa perm : Nat} {r : Bool × PageTable × Phys}
    (hv : has (pt.pte va) pteV = true) (hva : va < maxva) :
    mappages pt ph (pgrounddown va) pgsize pa perm ≠ .ok r := by
  obtain ⟨ok, pt', ph'⟩ := r
  intro h
  rw [← pte_pgrounddown] at hv
  have hroom : pgrounddown va + pgsize ≤ 2 ^ 64 := by
    unfold pgrounddown pgsize maxva at *
    omega
  cases ok with
  | true =>
    obtain ⟨-, -, -, hok, -⟩ := mappages_page (pgrounddown_mod va) hroom h
    rw [(hok rfl).1] at hv
    cases hv
  | false =>
    have hlt := (mappages_room (pgrounddown_mod va) hroom h).2 rfl
    have hzero : pt.missing (pgrounddown va) = 0 :=
      (Radix.Table.missing_eq_zero 512).2 (PageTable.reaches_of_has hv)
    omega

/-! ## Frames that are taken -/

theorem mem_kalloc (h : kalloc ph = some (f, ph')) :
    (∀ a, f ≤ a → a < f + pgsize → ph'.mem a = 5) ∧ ∀ a, ph.mem a = 5 → ph'.mem a = 5 := by
  rw [mem_of_kalloc h]
  refine ⟨fun a h1 h2 => if_pos ⟨h1, h2⟩, fun a ha => ?_⟩
  unfold memsetPage
  split
  · rfl
  · exact ha

/-- Between the two states frames were taken by `kalloc`, and nothing else happened. -/
structure TakenOnly (ph ph' : Phys) : Prop where
  filled : ∀ f, ph'.freelist.count f < ph.freelist.count f →
    ∀ a, f ≤ a → a < f + pgsize → ph'.mem a = 5
  kept : ∀ a, ph.mem a = 5 → ph'.mem a = 5

namespace TakenOnly

theorem refl (ph : Phys) : TakenOnly ph ph := ⟨fun _ h => absurd h (lt_irrefl _), fun _ h => h⟩

theorem trans {ph₁ ph₂ : Phys} (h : TakenOnly ph ph₁) (h' : TakenOnly ph₁ ph₂) :
    TakenOnly ph ph₂ := by
  refine ⟨fun f hf a h1 h2 => ?_, fun a ha => h'.kept a (h.kept a ha)⟩
  by_cases hlast : ph₂.freelist.count f < ph₁.freelist.count f
  · exact h'.filled f hlast a h1 h2
  · exact h'.kept a (h.filled f (by omega) a h1 h2)

theorem of_kalloc (h : kalloc ph = some (f, ph')) : TakenOnly ph ph' := by
  obtain ⟨hin, hkeep⟩ := mem_kalloc h
  refine ⟨fun g hg a h1 h2 => ?_, hkeep⟩
  rw [kalloc_eq_some h, count_cons] at hg
  obtain rfl : f = g := by
    by_contra hne
    rw [if_neg (by simpa using hne)] at hg
    omega
  exact hin a h1 h2

theorem of_takes {fs : List Nat} (h : Radix.Table.Takes kalloc ph fs ph') : TakenOnly ph ph' := by
  induction fs generalizing ph with
  | nil =>
    cases h
    exact .refl _
  | cons f fs ih =>
    obtain ⟨ph₁, halloc, hrest⟩ := h
    exact (of_kalloc halloc).trans (ih hrest)

end TakenOnly

theorem mapLoop_walk {store : Nat → Nat → PageTable → PageTable} {off a : Nat}
    (h : mapLoop store n off a pt ph = .ok r) : a < maxva ∧ pt.isNull = false := by
  rw [mapLoop] at h
  obtain ⟨⟨found, pt₁, ph₁⟩, hwalk, -⟩ := bind_eq_ok.1 h
  exact ⟨(walk_true_eq_ok hwalk).1, (walk_true_eq_ok hwalk).2.1⟩

theorem mappages_walk {perm : Nat} (h : mappages pt ph va pgsize pa perm = .ok r) :
    pgrounddown va < maxva ∧ pt.isNull = false := by
  unfold mappages at h
  rw [if_neg (by decide)] at h
  exact mapLoop_walk h

theorem mappages_taken {perm : Nat} (hva : va % pgsize = 0) (hlt : va + pgsize ≤ 2 ^ 64)
    (h : mappages pt ph va pgsize pa perm = .ok (ok, pt', ph')) : TakenOnly ph ph' := by
  obtain ⟨fs, htakes⟩ := mappages_takes hva hlt h
  exact .of_takes htakes

theorem mappages_stuck (pa perm : Nat) (hva : va % pgsize = 0) (hmax : va < maxva)
    (hnull : pt.isNull = false) (hnil : ph.freelist = []) (hmiss : 0 < pt.missing va) :
    mappages pt ph va pgsize pa perm = .ok (false, pt, ph) := by
  have hlt := room_of_lt hmax
  have hwalk : walk pt ph va true = .ok (false, pt, ph) := by
    rw [walk, if_neg (by omega), hnull]
    exact congrArg Except.ok (Radix.Table.grow_of_none 512 (kalloc_eq_none.2 hnil) hmiss)
  rw [mappages]
  dsimp only
  rw [pgrounddown_of_mod hva, pagesTo_page hva hlt, mapLoop, hwalk]
  rfl

/-! ## The loop over the regions -/

/-- What a fault at `va` that some region answered has done to the table and to memory: the frame
for the page is out of both, and the page is mapped, or the table has grown, or nothing could be
done for want of memory. -/
structure Touched (va : Nat) (pt : PageTable) (ph : Phys) (pt' : PageTable) (ph' : Phys) :
    Prop where
  taken : TakenOnly ph ph'
  held : ∀ f, ph'.held pt' f ≤ ph.held pt f
  out : ph.freelist ≠ [] → ∃ f, ph'.held pt' f < ph.held pt f
  mapped : pt.missing va = 0 → pt'.leaf (vpn va) ≠ none
  outcome : pt'.leaf (vpn va) ≠ none ∨ pt.pages.length < pt'.pages.length ∨
    (pt' = pt ∧ 0 < pt.missing va ∧ ph.freelist.length ≤ 1 ∧ ph'.freelist = [])

namespace Touched

variable {va : Nat} {pt pt₁ pt₂ : PageTable} {ph ph₁ ph₂ : Phys}

theorem pages_le (h : Touched va pt ph pt₁ ph₁) (hnone : pt₁.leaf (vpn va) = none) :
    pt.pages.length ≤ pt₁.pages.length := by
  rcases h.outcome with hleaf | hgrew | ⟨rfl, -⟩
  · exact absurd hnone hleaf
  · exact hgrew.le
  · exact le_rfl

theorem trans (h : Touched va pt ph pt₁ ph₁) (hnone : pt₁.leaf (vpn va) = none)
    (h' : Touched va pt₁ ph₁ pt₂ ph₂) : Touched va pt ph pt₂ ph₂ := by
  refine ⟨h.taken.trans h'.taken, fun f => (h'.held f).trans (h.held f), fun hne => ?_,
    fun hmiss => absurd hnone (h.mapped hmiss), ?_⟩
  · obtain ⟨f, hf⟩ := h.out hne
    exact ⟨f, (h'.held f).trans_lt hf⟩
  · have hle := h.pages_le hnone
    rcases h'.outcome with hleaf | hgrew | ⟨rfl, -, -, hnil⟩
    · exact .inl hleaf
    · exact .inr (.inl (hle.trans_lt hgrew))
    · rcases h.outcome with hleaf | hgrew | ⟨rfl, hmiss, hlen, -⟩
      · exact absurd hnone hleaf
      · exact .inr (.inl hgrew)
      · exact .inr (.inr ⟨rfl, hmiss, hlen, hnil⟩)

end Touched

theorem vpn_pgrounddown (va : Nat) : vpn (pgrounddown va) = vpn va :=
  Nat.mul_div_cancel _ (by decide)

theorem missing_pgrounddown (pt : PageTable) (va : Nat) :
    pt.missing (pgrounddown va) = pt.missing va := by
  rw [PageTable.missing, vpn_pgrounddown, PageTable.missing]

theorem Acct.pages_length (h : Acct pt ph pt' ph' [] []) :
    ph.freelist.length + pt.pages.length = ph'.freelist.length + pt'.pages.length := by
  have hperm : (ph.freelist ++ pt.pages).Perm (ph'.freelist ++ pt'.pages) :=
    perm_iff_count.2 fun f => by
      have := h.cons f
      simp only [count_nil, Nat.add_zero, Nat.zero_add] at this
      rw [count_append, count_append, this]
  simpa using hperm.length_eq

theorem Acct.held {ins : List Nat} (h : Acct pt ph pt' ph' ins []) (f : Nat) :
    ph.held pt f = ins.count f + ph'.held pt' f := by
  have := h.cons f
  simp only [count_nil] at this
  unfold Phys.held
  omega

theorem touched_of_mappages {perm : Nat} {ph₁ : Phys} (hpa : (pa, ph₁) = (kalloc ph).getD (0, ph))
    (h : mappages pt ph₁ (pgrounddown va) pgsize pa perm = .ok (ok, pt', ph')) :
    va < maxva ∧ pt.isNull = false ∧ pt.leaf (vpn va) = none ∧ Touched va pt ph pt' ph' := by
  obtain ⟨hlt, hnull⟩ := mappages_walk h
  rw [pgrounddown_of_mod (pgrounddown_mod va)] at hlt
  have hva : va < maxva := by
    have := pgrounddown_ge (a := va)
    omega
  have hmod := pgrounddown_mod va
  have hroom := room_of_lt hlt
  have hmiss := missing_pgrounddown pt va
  have hvalid : has (pt.entry (vpn va)) pteV = false := by
    rw [← not_eq_true]
    exact fun hv => mappages_of_valid hv hva h
  obtain ⟨-, -, hacct, hyes, hno⟩ := mappages_page hmod hroom h
  obtain ⟨hfull, hfew⟩ := mappages_room hmod hroom h
  rw [vpn_pgrounddown] at hyes
  rw [hmiss] at hfull hfew
  have hleaf : ok = true → pt'.leaf (vpn va) ≠ none := by
    intro hok
    have hentry := (hyes hok).2 (vpn va) (lt_nvpn (vpn_lt hva))
    rw [if_pos rfl] at hentry
    rw [leaf_eq_some.2 ⟨hentry, has_leafWord _ _⟩]
    exact nofun
  refine ⟨hva, hnull, leaf_eq_none.2 hvalid, ?_⟩
  -- the frame for the page, or none
  obtain ⟨hfirst, hheld, hout, hlen⟩ : TakenOnly ph ph₁ ∧ (∀ f, ph₁.held pt f ≤ ph.held pt f) ∧
      (ph.freelist ≠ [] → ∃ f, ph₁.held pt f < ph.held pt f) ∧
      ph.freelist.length ≤ ph₁.freelist.length + 1 := by
    cases halloc : kalloc ph with
    | none =>
      rw [halloc] at hpa
      cases hpa
      exact ⟨.refl ph, fun f => le_rfl, fun hne => absurd (kalloc_eq_none.1 halloc) hne, by omega⟩
    | some r =>
      rw [halloc] at hpa
      cases hpa
      have hone := Acct.held (show Acct pt ph pt _ [pa] [] from acct_kalloc halloc)
      refine ⟨.of_kalloc halloc, fun f => ?_, fun _ => ⟨pa, ?_⟩, ?_⟩
      · have := hone f
        omega
      · have := hone pa
        rw [count_singleton_self] at this
        omega
      · rw [kalloc_eq_some halloc, length_cons]
  have hsame : ∀ f, ph'.held pt' f = ph₁.held pt f := fun f => by
    have := hacct.held f
    rw [count_nil, Nat.zero_add] at this
    exact this.symm
  refine ⟨hfirst.trans (mappages_taken hmod hroom h), fun f => (hsame f).trans_le (hheld f),
    fun hne => ?_, fun hzero => hleaf ?_, ?_⟩
  · obtain ⟨f, hf⟩ := hout hne
    exact ⟨f, (hsame f).trans_lt hf⟩
  · cases ok with
    | true => rfl
    | false =>
      have := hfew rfl
      omega
  · cases ok with
    | true => exact .inl (hleaf rfl)
    | false =>
      have hpages := hacct.pages_length
      rw [(hno rfl).1, length_nil] at hpages
      rcases eq_nil_or_concat ph₁.freelist with hnil | ⟨fs, f, hcons⟩
      · -- not even the first page of the table
        have hpos := (Nat.zero_le _).trans_lt (hfew rfl).1
        rw [mappages_stuck pa perm hmod hlt hnull hnil (by rwa [hmiss])] at h
        cases h
        rw [hnil] at hlen
        exact .inr (.inr ⟨rfl, hpos, hlen, hnil⟩)
      · refine .inr (.inl ?_)
        rw [hcons, length_concat] at hpages
        omega

theorem faultRegions_touched {k' : Kernel} (h : faultRegions k p store va n = .ok k') :
    ((∀ i < n, ¬ ((k.proc p).mmr i).Serves store va) ∧ k' = k) ∨
      (va < maxva ∧ (k.proc p).pagetable.isNull = false ∧
        (k.proc p).pagetable.leaf (vpn va) = none ∧
        ∃ vm, Touched va (k.proc p).pagetable k.phys vm.1 vm.2 ∧ k' = k.setVm p vm) := by
  induction n generalizing k' with
  | zero =>
    cases h
    exact .inl ⟨fun i hi => absurd hi i.not_lt_zero, rfl⟩
  | succ n ih =>
    obtain ⟨k₁, h₁, hstep⟩ := bind_eq_ok.1 h
    rcases ih h₁ with ⟨hnone, rfl⟩ | ⟨hva, hnull, hleaf, vm, ht, rfl⟩
    · rcases faultRegion_eq_ok hstep with ⟨hnot, rfl⟩ | ⟨-, pa, ph, ok, vm, hpa, hmap, rfl⟩
      · refine .inl ⟨fun i hi => ?_, rfl⟩
        rcases Nat.lt_succ_iff_lt_or_eq.1 hi with hi | rfl
        · exact hnone i hi
        · exact hnot
      · obtain ⟨hva, hnull, hleaf, ht⟩ := touched_of_mappages hpa hmap
        exact .inr ⟨hva, hnull, hleaf, vm, ht, rfl⟩
    · refine .inr ⟨hva, hnull, hleaf, ?_⟩
      rcases faultRegion_eq_ok hstep with ⟨-, rfl⟩ | ⟨-, pa, ph, ok, vm', hpa, hmap, rfl⟩
      · exact ⟨vm, ht, rfl⟩
      · rw [proc_setVm_self] at hmap
        obtain ⟨-, -, hleaf', ht'⟩ := touched_of_mappages hpa hmap
        exact ⟨vm', ht.trans hleaf' ht', setVm_setVm k p vm vm'⟩

theorem faultRegion_of_not_serves {i : Nat} (h : ¬ ((k.proc p).mmr i).Serves store va) :
    faultRegion k p i store va = .ok k := by
  unfold faultRegion
  dsimp only
  split
  · rename_i hin
    rw [if_neg fun hprot => h ⟨hin.1, hin.2.1, hin.2.2, hprot⟩]
  · rfl

theorem faultRegions_of_not_serves (h : ∀ i < n, ¬ ((k.proc p).mmr i).Serves store va) :
    faultRegions k p store va n = .ok k := by
  induction n with
  | zero => rfl
  | succ n ih =>
    rw [faultRegions, ih fun i hi => h i (by omega)]
    exact faultRegion_of_not_serves (h n (by omega))

/-- Memory is so short that a fault at `va` cannot be answered: there is no frame beyond the one
for the page, and pages of the table are missing. -/
structure Kernel.Stuck (k : Kernel) (p va : Nat) : Prop where
  lt : va < maxva
  null : (k.proc p).pagetable.isNull = false
  missing : 0 < (k.proc p).pagetable.missing va
  few : k.phys.freelist.length ≤ 1

theorem Kernel.Stuck.faultRegion (h : k.Stuck p va) (i : Nat) (store : Bool) :
    ∃ ph, faultRegion k p i store va = .ok (k.setVm p ((k.proc p).pagetable, ph)) ∧
      ph.freelist.length ≤ 1 ∧ (k.phys.freelist = [] → ph = k.phys) := by
  by_cases hs : ((k.proc p).mmr i).Serves store va
  · obtain ⟨pa, ph, hpa, hnil, hsame⟩ : ∃ pa ph, (kalloc k.phys).getD (0, k.phys) = (pa, ph) ∧
        ph.freelist = [] ∧ (k.phys.freelist = [] → ph = k.phys) := by
      cases halloc : kalloc k.phys with
      | none => exact ⟨0, k.phys, rfl, kalloc_eq_none.1 halloc, fun _ => rfl⟩
      | some r =>
        obtain ⟨pa, ph⟩ := r
        have hcons := kalloc_eq_some halloc
        have hlen := h.few
        rw [hcons, length_cons] at hlen
        refine ⟨pa, ph, rfl, length_eq_zero_iff.1 (by omega), fun hnil => ?_⟩
        rw [hcons] at hnil
        cases hnil
    have hlt : pgrounddown va < maxva := by
      have := pgrounddown_ge (a := va)
      have := h.lt
      omega
    have hmiss := h.missing
    rw [← missing_pgrounddown] at hmiss
    refine ⟨ph, ?_, by rw [hnil]; exact Nat.zero_le _, hsame⟩
    unfold Xv6.faultRegion
    dsimp only
    rw [if_pos ⟨hs.1, hs.2.1, hs.2.2.1⟩, if_pos hs.2.2.2, hpa]
    rw [mappages_stuck pa _ (pgrounddown_mod va) hlt h.null hnil hmiss]
    rfl
  · refine ⟨k.phys, ?_, h.few, fun _ => rfl⟩
    rw [faultRegion_of_not_serves hs, setVm_eq_self]

theorem Kernel.Stuck.faultRegions (h : k.Stuck p va) (store : Bool) (n : Nat) :
    ∃ ph, faultRegions k p store va n = .ok (k.setVm p ((k.proc p).pagetable, ph)) ∧
      ph.freelist.length ≤ 1 ∧ (k.phys.freelist = [] → ph = k.phys) := by
  induction n with
  | zero => exact ⟨k.phys, by rw [setVm_eq_self]; rfl, h.few, fun _ => rfl⟩
  | succ n ih =>
    obtain ⟨ph, hloop, hfew, hsame⟩ := ih
    have h₁ : (k.setVm p ((k.proc p).pagetable, ph)).Stuck p va :=
      ⟨h.lt, by simpa using h.null, by simpa using h.missing, hfew⟩
    obtain ⟨ph', hstep, hfew', hsame'⟩ := h₁.faultRegion n store
    refine ⟨ph', ?_, hfew', fun hnil => ?_⟩
    · rw [Xv6.faultRegions, hloop]
      refine hstep.trans ?_
      rw [setVm_setVm, proc_setVm_self]
    · have hfirst := hsame hnil
      exact (hsame' (by rw [phys_setVm, hfirst, hnil])).trans hfirst

theorem kalloc_getD (ph : Phys) : ∃ ph', (kalloc ph).getD (0, ph) = (ph.freelist.headD 0, ph') ∧
    ph'.freelist.length = ph.freelist.length - 1 := by
  unfold kalloc
  split <;> rename_i h <;> rw [h] <;> exact ⟨_, rfl, by simp [h]⟩

/-- What a region that answers does to the page: it gets its entry, or frames are too few. -/
theorem mappages_fault {perm : Nat} {ph₁ : Phys} (hpa : (pa, ph₁) = (kalloc ph).getD (0, ph))
    (h : mappages pt ph₁ (pgrounddown va) pgsize pa perm = .ok (ok, pt', ph')) :
    (ok = true → pt.missing va ≤ ph.freelist.length - 1 ∧
      pt'.pte va = leafWord (ph.freelist.headD 0) perm) ∧
    (ok = false → ph.freelist.length - 1 < pt.missing va ∧ pt'.isNull = false ∧
      0 < pt'.missing va ∧ ph'.freelist = []) := by
  obtain ⟨ph₂, hk, hlen⟩ := kalloc_getD ph
  rw [hk] at hpa
  cases hpa
  obtain ⟨hva, hnull, -⟩ := touched_of_mappages hk.symm h
  have hroom : pgrounddown va + pgsize ≤ 2 ^ 64 := by
    unfold pgrounddown pgsize maxva at *
    omega
  obtain ⟨-, -, hacct, hyes, hno⟩ := mappages_page (pgrounddown_mod va) hroom h
  obtain ⟨hfull, hfew⟩ := mappages_room (pgrounddown_mod va) hroom h
  rw [missing_pgrounddown] at hfull hfew
  refine ⟨fun ho => ?_, fun ho => ?_⟩
  · have hentry := (hyes ho).2 (vpn va) (lt_nvpn (vpn_lt hva))
    rw [if_pos (vpn_pgrounddown va).symm] at hentry
    have := (hfull ho).1
    exact ⟨by omega, hentry⟩
  · rw [← missing_pgrounddown pt']
    exact ⟨hlen ▸ (hfew ho).1, hacct.null.trans hnull, (hfew ho).2, (hno ho).1⟩

/-- The loop over the regions: no region answers; or one does, and no other, since the page is
mapped then; or memory is too short for the first that does, and for the others, too. -/
theorem faultRegions_cases {k' : Kernel} (h : faultRegions k p store va n = .ok k') :
    ((∀ i < n, ¬((k.proc p).mmr i).Serves store va) ∧ k' = k) ∨
      (k.phys.freelist.length - 1 < (k.proc p).pagetable.missing va ∧
        (∃ i < n, ((k.proc p).mmr i).Serves store va) ∧ k'.Stuck p va) ∨
      ∃ i < n, ((k.proc p).mmr i).Serves store va ∧
        (∀ j < n, ((k.proc p).mmr j).Serves store va → j = i) ∧ ∃ pa ph vm,
        (pa, ph) = (kalloc k.phys).getD (0, k.phys) ∧
        mappages (k.proc p).pagetable ph (pgrounddown va) pgsize pa ((k.proc p).mmr i).perm =
          .ok (true, vm) ∧ k' = k.setVm p vm := by
  induction n generalizing k' with
  | zero =>
    cases h
    exact .inl ⟨fun i hi => absurd hi i.not_lt_zero, rfl⟩
  | succ n ih =>
    obtain ⟨k₁, h₁, hstep⟩ := bind_eq_ok.1 h
    rcases ih h₁ with ⟨hnone, rfl⟩ | ⟨hshort, ⟨i, hi, hs⟩, hstuck⟩ |
      ⟨i, hi, hs, honly, pa, ph, vm, hpa, hmap, rfl⟩
    · rcases faultRegion_eq_ok hstep with ⟨hnot, rfl⟩ | ⟨hs, pa, ph, ok, vm, hpa, hmap, rfl⟩
      · exact .inl ⟨Nat.forall_lt_succ_right.2 ⟨hnone, hnot⟩, rfl⟩
      cases ok with
      | true =>
        refine .inr (.inr ⟨n, n.lt_succ_self, hs, fun j hj hs' => ?_, pa, ph, vm, hpa, hmap, rfl⟩)
        by_contra hne
        exact hnone j (by omega) hs'
      | false =>
        obtain ⟨hshort, hnull, hmiss, hnil⟩ := (mappages_fault hpa hmap).2 rfl
        refine .inr (.inl ⟨hshort, ⟨n, n.lt_succ_self, hs⟩, (touched_of_mappages hpa hmap).1, ?_, ?_,
          ?_⟩)
        · rwa [proc_setVm_self]
        · rwa [proc_setVm_self]
        · rw [phys_setVm, hnil]
          exact Nat.zero_le _
    · obtain ⟨ph, hnext, hfew, -⟩ := hstuck.faultRegion n store
      cases hnext.symm.trans hstep
      exact .inr (.inl ⟨hshort, ⟨i, by omega, hs⟩, hstuck.lt, by simpa using hstuck.null,
        by simpa using hstuck.missing, hfew⟩)
    · rcases faultRegion_eq_ok hstep with ⟨hnot, rfl⟩ | ⟨-, pa', ph', ok, vm', -, hmap', -⟩
      · refine .inr (.inr ⟨i, by omega, hs, Nat.forall_lt_succ_right.2 ⟨honly, fun hs' => ?_⟩, pa,
          ph, vm, hpa, hmap, rfl⟩)
        rw [proc_setVm_self] at hnot
        exact absurd hs' hnot
      · refine absurd hmap' (mappages_of_valid ?_ (touched_of_mappages hpa hmap).1)
        rw [proc_setVm_self, ((mappages_fault hpa hmap).1 rfl).2]
        exact has_leafWord _ _

/-! ## Faults that nothing allows -/

/-- The page faults: 12, 13 and 15 in `scause`. -/
inductive FaultKind where
  | fetch | load | store
  deriving DecidableEq, Repr

def FaultKind.perm : FaultKind → Nat
  | .fetch => pteX
  | .load => pteR
  | .store => pteW

/-- What `usertrap` does with a page fault up to the test of `p->killed`. -/
def usertrapMark (k : Kernel) (p : Nat) (kind : FaultKind) (va : Nat) : Except Panic Kernel :=
  match kind with
  | .fetch => .ok (k.setProc p { k.proc p with killed := true })
  | .load => faultRegions k p false va maxMmr
  | .store => faultRegions k p true va maxMmr

def Mmr.Contains (r : Mmr) (va : Nat) : Prop := r.addr ≤ va ∧ va < r.stop ∧ r.valid = true

/-- No region has the address, or one that has it does not allow the access, or the page is
mapped already. -/
def Kernel.InvalidFault (k : Kernel) (p : Nat) (kind : FaultKind) (va : Nat) : Prop :=
  (∀ i < maxMmr, ¬ ((k.proc p).mmr i).Contains va) ∨
  (∃ i < maxMmr, ((k.proc p).mmr i).Contains va ∧ has ((k.proc p).mmr i).prot kind.perm = false) ∨
  (va < maxva ∧ (k.proc p).pagetable.leaf (vpn va) ≠ none)

/-- The fault marks the process as killed and leaves its table alone. -/
def Kernel.FaultKills (k : Kernel) (p : Nat) (kind : FaultKind) (va : Nat) : Prop :=
  match usertrapMark k p kind va with
  | .error _ => False
  | .ok k' => (k'.proc p).killed = true ∧ (k'.proc p).pagetable = (k.proc p).pagetable

theorem faultRegions_kills_iff : (match faultRegions k p store va maxMmr with
      | .error _ => False
      | .ok k' => (k'.proc p).killed = true ∧ (k'.proc p).pagetable = (k.proc p).pagetable) ↔
    (k.proc p).killed = true ∧
      ((∀ i < maxMmr, ¬ ((k.proc p).mmr i).Serves store va) ∨ k.Stuck p va) := by
  constructor
  · intro h
    split at h
    · exact h.elim
    rename_i k' hrun
    rcases faultRegions_touched hrun with ⟨hnot, rfl⟩ | ⟨hva, hnull, hleaf, vm, ht, rfl⟩
    · exact ⟨h.1, .inl hnot⟩
    rw [proc_setVm_self] at h
    obtain ⟨hkilled, hsame⟩ := h
    change vm.1 = _ at hsame
    refine ⟨hkilled, .inr ?_⟩
    rcases ht.outcome with hmapped | hgrew | ⟨-, hmiss, hfew, -⟩
    · rw [hsame] at hmapped
      exact absurd hleaf hmapped
    · rw [hsame] at hgrew
      exact absurd hgrew (lt_irrefl _)
    · exact ⟨hva, hnull, hmiss, hfew⟩
  · rintro ⟨hkilled, hnot | hstuck⟩
    · rw [faultRegions_of_not_serves hnot]
      exact ⟨hkilled, rfl⟩
    · obtain ⟨ph, hrun, -⟩ := hstuck.faultRegions store maxMmr
      rw [hrun]
      dsimp only
      rw [proc_setVm_self]
      exact ⟨hkilled, rfl⟩

/-- Only fetches kill.  A load or a store that nothing allows returns to the same instruction,
unless the process had been killed before. -/
theorem faultKills_iff {k : Kernel} {p va : Nat} {kind : FaultKind} (_ : k.InvalidFault p kind va) :
    k.FaultKills p kind va ↔ kind = .fetch ∨ (k.proc p).killed = true ∧
      ((∀ i < maxMmr, ¬ ((k.proc p).mmr i).Serves (kind == .store) va) ∨ k.Stuck p va) := by
  cases kind with
  | fetch =>
    simp [Kernel.FaultKills, usertrapMark]
  | load => exact faultRegions_kills_iff.trans (or_iff_right (nofun)).symm
  | store => exact faultRegions_kills_iff.trans (or_iff_right (nofun)).symm

theorem exists_boots_bare : ∃ k, Boots (.ofPages 32) k ∧ (k.proc 0).killed = false ∧
    ∀ i < maxMmr, ¬ ((k.proc 0).mmr i).Contains (2 * pgsize) := by
  have hends : bootRun.ends 32 [] (fun k => !(k.proc 0).killed &&
      (List.range maxMmr).all fun i => !((k.proc 0).mmr i).valid) = true := by decide +kernel
  obtain ⟨k, k', hboot, hrun, hcheck⟩ := bootRun.of_ends (by decide) (by decide) hends
  cases hrun
  simp only [and_eq_true, not_eq_true', all_eq_true, mem_range] at hcheck
  refine ⟨k, hboot, hcheck.1, fun i hi hin => ?_⟩
  have hvalid := hin.2.2
  rw [hcheck.2 i hi] at hvalid
  cases hvalid

/-- A load from an address where nothing is goes unpunished. -/
theorem not_faultKills_load : ∃ k, Boots (.ofPages 32) k ∧ k.InvalidFault 0 .load (2 * pgsize) ∧
    ¬ k.FaultKills 0 .load (2 * pgsize) := by
  obtain ⟨k, hboot, hlives, hnone⟩ := exists_boots_bare
  refine ⟨k, hboot, .inl hnone, fun h => ?_⟩
  have hkilled := (faultRegions_kills_iff.1 h).1
  rw [hlives] at hkilled
  cases hkilled

theorem faultKills_iff_fetch : ∃ k, Boots (.ofPages 32) k ∧ k.InvalidFault 0 .fetch (2 * pgsize) ∧
    k.FaultKills 0 .fetch (2 * pgsize) := by
  obtain ⟨k, hboot, -, hnone⟩ := exists_boots_bare
  exact ⟨k, hboot, .inl hnone, (faultKills_iff (.inl hnone)).2 (.inl rfl)⟩

/-! ## Faults that a region allows -/

/-- A load or store at an address of a private region that allows it, on a page that is not
mapped. -/
structure Kernel.ValidFault (k : Kernel) (p i : Nat) (store : Bool) (va : Nat) : Prop where
  index : i < maxMmr
  isPrivate : ((k.proc p).mmr i).isPrivate = true
  serves : ((k.proc p).mmr i).Serves store va
  unmapped : (k.proc p).pagetable.leaf (vpn va) = none

/-- The page is mapped to a frame that was free and is filled with 0, with the permissions of the
region, and nothing else is mapped in another way. -/
structure Kernel.PageAdded (k k' : Kernel) (p i va : Nat) : Prop where
  page : ∃ w f, (k'.proc p).pagetable.leaf (vpn va) = some w ∧ pte2pa w = f ∧
    k'.phys.freelist.count f < k.phys.freelist.count f ∧
    (∀ a, f ≤ a → a < f + pgsize → k'.phys.mem a = 0) ∧
    w &&& (pteR ||| pteW ||| pteX ||| pteU) =
      ((k.proc p).mmr i).prot &&& (pteR ||| pteW ||| pteX) ||| pteU
  others : ∀ u < nvpn, u ≠ vpn va →
    (k'.proc p).pagetable.leaf u = (k.proc p).pagetable.leaf u

/-- The process is killed, the page is not mapped, and no frame has got lost. -/
structure Kernel.FaultRefused (k k' : Kernel) (p va : Nat) : Prop where
  killed : (k'.proc p).killed = true
  unmapped : (k'.proc p).pagetable.leaf (vpn va) = none
  held : ∀ f, k'.phys.held (k'.proc p).pagetable f = k.phys.held (k.proc p).pagetable f

/-- A fault that region `i` allows is answered: with a page, if there are frames for it and for
the pages of the table that are missing, and otherwise by killing the process. -/
def Kernel.FaultAnswered (k : Kernel) (p i : Nat) (store : Bool) (va : Nat) : Prop :=
  match usertrapMark k p (if store then .store else .load) va with
  | .error _ => False
  | .ok k' =>
    if 1 + (k.proc p).pagetable.missing va ≤ k.phys.freelist.length then k.PageAdded k' p i va
    else k.FaultRefused k' p va

theorem usertrapMark_of_store (k : Kernel) (p va : Nat) (store : Bool) :
    usertrapMark k p (if store then .store else .load) va = faultRegions k p store va maxMmr := by
  cases store <;> rfl

/-- A page with zeros never comes about, so the fault is answered only where it is refused. -/
theorem Kernel.FaultAnswered.stuck {i : Nat} (hv : k.ValidFault p i store va)
    (h : k.FaultAnswered p i store va) :
    (k.proc p).killed = true ∧ k.phys.freelist = [] ∧ k.Stuck p va := by
  unfold Kernel.FaultAnswered at h
  rw [usertrapMark_of_store] at h
  split at h
  · exact h.elim
  rename_i k' hrun
  rcases faultRegions_touched hrun with ⟨hnot, -⟩ | ⟨hva, hnull, -, vm, ht, rfl⟩
  · exact absurd hv.serves (hnot i hv.index)
  split at h
  · obtain ⟨w, f, -, -, htaken, hzero, -⟩ := h.page
    have hfive := ht.taken.filled f htaken f le_rfl (Nat.lt_add_of_pos_right (by decide))
    have hzero' := hzero f le_rfl (Nat.lt_add_of_pos_right (by decide))
    rw [phys_setVm, hfive] at hzero'
    exact absurd hzero' (by decide)
  · obtain ⟨hkilled, hnone, hheld⟩ := h
    rw [proc_setVm_self] at hkilled hnone hheld
    have hnil : k.phys.freelist = [] := by
      by_contra hne
      obtain ⟨f, hf⟩ := ht.out hne
      exact absurd (hheld f) hf.ne
    refine ⟨hkilled, hnil, hva, hnull, Nat.pos_of_ne_zero fun hzero => ?_, ?_⟩
    · exact ht.mapped hzero hnone
    · rw [hnil]
      exact Nat.zero_le _

theorem PageTable.leaf_of_missing (h : 0 < pt.missing va) : pt.leaf (vpn va) = none := by
  rw [leaf_eq_none, ← not_eq_true]
  intro hvalid
  have : pt.missing va = 0 :=
    (Radix.Table.missing_eq_zero 512).2 (reaches_of_has hvalid)
  omega

/-- A fault that a region allows is answered only in a process that had been killed, when there
is no frame and pages of the table are missing. -/
theorem faultAnswered_iff {k : Kernel} {p i va : Nat} {store : Bool}
    (hv : k.ValidFault p i store va) :
    k.FaultAnswered p i store va ↔
      (k.proc p).killed = true ∧ k.phys.freelist = [] ∧ k.Stuck p va := by
  refine ⟨fun h => h.stuck hv, fun ⟨hkilled, hnil, hstuck⟩ => ?_⟩
  obtain ⟨ph, hrun, -, hsame⟩ := hstuck.faultRegions store maxMmr
  unfold Kernel.FaultAnswered
  rw [usertrapMark_of_store, hrun]
  dsimp only
  rw [if_neg (by rw [hnil]; exact Nat.not_le.2 (Nat.lt_of_lt_of_le Nat.zero_lt_one (by omega)))]
  refine ⟨?_, ?_, fun f => ?_⟩
  · rw [proc_setVm_self]
    exact hkilled
  · rw [proc_setVm_self]
    exact leaf_of_missing hstuck.missing
  · rw [proc_setVm_self, phys_setVm, hsame hnil]

theorem exists_validFault : ∃ k k', Boots (.ofPages 32) k ∧
    Run.exec Kernel.step k [.mmap 0 pgsize pteR mapPrivate] = .ok k' ∧
    (k'.proc 0).killed = false ∧ k'.ValidFault 0 0 false (trapframe - pgsize) := by
  have hends : bootRun.ends 32 [.mmap 0 pgsize pteR mapPrivate] (fun k =>
      !(k.proc 0).killed && ((k.proc 0).mmr 0).isPrivate &&
      decide (((k.proc 0).mmr 0).Serves false (trapframe - pgsize)) &&
      ((k.proc 0).pagetable.leaf (vpn (trapframe - pgsize))).isNone) = true := by decide +kernel
  obtain ⟨k, k', hboot, hrun, hcheck⟩ := bootRun.of_ends (by decide) (by decide) hends
  simp only [and_eq_true, not_eq_true', decide_eq_true_eq, Option.isNone_iff_eq_none]
    at hcheck
  obtain ⟨⟨⟨hlives, hpriv⟩, hserves⟩, hnone⟩ := hcheck
  exact ⟨k, k', hboot, hrun, hlives, by decide, hpriv, hserves, hnone⟩

/-- There is memory, and the process reads 5s. -/
theorem not_faultAnswered_first : ∃ k k', Boots (.ofPages 32) k ∧
    Run.exec Kernel.step k [.mmap 0 pgsize pteR mapPrivate] = .ok k' ∧
    k'.ValidFault 0 0 false (trapframe - pgsize) ∧
    ¬ k'.FaultAnswered 0 0 false (trapframe - pgsize) := by
  obtain ⟨k, k', hboot, hrun, hlives, hvalid⟩ := exists_validFault
  refine ⟨k, k', hboot, hrun, hvalid, fun h => ?_⟩
  have hkilled := (h.stuck hvalid).1
  rw [hlives] at hkilled
  cases hkilled

theorem faultAnswered_iff_first : ∃ k : Kernel, k.ValidFault 0 0 false (trapframe - pgsize) ∧
    (k.FaultAnswered 0 0 false (trapframe - pgsize) ↔ (k.proc 0).killed = true ∧
      k.phys.freelist = [] ∧ k.Stuck 0 (trapframe - pgsize)) := by
  obtain ⟨-, k', -, -, -, hvalid⟩ := exists_validFault
  exact ⟨k', hvalid, faultAnswered_iff hvalid⟩

end Xv6
