/-
A private region from `mmap` to `munmap`: `mmap` makes the pages of the table, each page that is
touched takes a frame, and `munmap` gives the frames back.  A page that is touched when no frame
is left is mapped to address 0, and `munmap` does not find it.
-/
import Xv6.Mmr.Fault
import Xv6.Mmr.Room
import Xv6.Vm.Total

namespace Xv6

open Kernel PageTable List
open Run (bind_eq_ok)

variable {k : Kernel} {r : Mmr} {i p va : Nat}

variable {doFree : Bool} {a n u v : Nat} {pt pt' : PageTable} {vm : PageTable × Phys}
  {ph ph' : Phys}

/-! ## The pages of the table -/

theorem mapvLoop_reaches {off : Nat}
    (h : mapLoop (fun _ _ pt => pt) n off a pt ph = .ok (true, pt', ph')) :
    (∀ b, pt.reaches b = true → pt'.reaches b = true) ∧
      ∀ j ≤ n, pt'.reaches (a + j * pgsize) = true := by
  induction n generalizing off a pt ph with
  | zero =>
    obtain ⟨⟨found, pt₁, ph₁⟩, hwalk, h⟩ := bind_eq_ok.1 h
    obtain ⟨-, -, -, -, hmono, hfound, -⟩ := walk_true_eq_ok hwalk
    cases found with
    | false => cases h
    | true =>
      obtain ⟨_, -, h⟩ := bind_eq_ok.1 h
      cases h
      refine ⟨hmono, fun j hj => ?_⟩
      rw [Nat.le_zero.1 hj]
      exact (hfound rfl).1
  | succ n ih =>
    obtain ⟨⟨found, pt₁, ph₁⟩, hwalk, h⟩ := bind_eq_ok.1 h
    obtain ⟨hlt, -, -, -, hmono, hfound, -⟩ := walk_true_eq_ok hwalk
    cases found with
    | false => cases h
    | true =>
      obtain ⟨_, -, h⟩ := bind_eq_ok.1 h
      obtain ⟨hmono', hreach⟩ := ih h
      have hword : word (a + pgsize) = a + pgsize := by
        have hmax := maxva_room
        exact word_of_lt (by omega)
      rw [hword] at hreach
      refine ⟨fun b hb => hmono' b (hmono b hb), fun j hj => ?_⟩
      cases j with
      | zero =>
        exact hmono' a (hfound rfl).1
      | succ j =>
        rw [Nat.succ_mul, Nat.add_comm (j * pgsize), ← Nat.add_assoc]
        exact hreach j (by omega)

theorem newMmr_missing (hs : (k.proc p).Placed k.origins)
    (hf : (k.proc p).pagetable.Fixed (k.proc p).trapframe) {length prot flags : Nat}
    (h : mapvpages (k.proc p).pagetable k.phys (newMmr k p i length prot flags).addr
      (sext (newMmr k p i length prot flags).length) = .ok (true, vm))
    (hu : u ∈ (newMmr k p i length prot flags).pages) : vm.1.missing (u * pgsize) = 0 := by
  obtain ⟨j, hj, rfl⟩ := newMmr_page hs hf h hu
  have haddr := newMmr_addr k p i length prot flags
  obtain ⟨hsize, -⟩ := mapvpages_eq_ok haddr h
  generalize newMmr k p i length prot flags = r at *
  unfold mapvpages at h
  rw [if_neg hsize] at h
  have hreach := (mapvLoop_reaches h).2 j hj
  rw [pgrounddown_of_mod haddr, show r.addr + j * pgsize = (vpn r.addr + j) * pgsize by
    unfold vpn pgsize at *
    omega] at hreach
  exact (Radix.Table.missing_eq_zero 512).2 hreach

theorem mappages_paths {pa perm : Nat} {ok : Bool} (hva : va % pgsize = 0)
    (hlt : va + pgsize ≤ 2 ^ 64) (h : mappages pt ph va pgsize pa perm = .ok (ok, pt', ph'))
    {b : Nat} (hb : pt.missing b = 0) : pt'.missing b = 0 := by
  obtain ⟨pt₁, hwalk, hsame, hset⟩ := mappages_eq_ok hva hlt h
  obtain ⟨-, -, -, -, hmono, -, -⟩ := walk_true_eq_ok hwalk
  have hreach := hmono b ((Radix.Table.missing_eq_zero 512).1 hb)
  refine (Radix.Table.missing_eq_zero 512).2 ?_
  cases ok with
  | false =>
    rw [hsame rfl]
    exact hreach
  | true =>
    rw [(hset rfl).2]
    exact (reaches_setPte pt₁ va _ b).trans hreach

/-! ## Touching a page -/

/-- Process `p` has touched pages of its region `r` since `k₀`: those of `fresh` got a frame, those
of `lent` came when there was none and are mapped to address 0. -/
structure Toured (k₀ : Kernel) (p : Nat) (r : Mmr) (fresh lent : List Nat) (k : Kernel) : Prop where
  vm : k = k₀.setVm p ((k.proc p).pagetable, k.phys)
  filled : Filled (k₀.proc p).pagetable k₀.phys fresh (fun _ => r.perm) lent
    (fun _ => leafWord 0 r.perm) (k.proc p).pagetable k.phys
  paths : ∀ u ∈ r.pages, (k.proc p).pagetable.missing (u * pgsize) = 0
  count : k₀.phys.freelist.length = fresh.length + k.phys.freelist.length
  dry : lent ≠ [] → k.phys.freelist = []

namespace Toured

variable {k₀ k k' : Kernel} {p va : Nat} {r : Mmr} {fresh lent : List Nat} {store : Bool}

theorem start (h : ∀ u ∈ r.pages, (k₀.proc p).pagetable.missing (u * pgsize) = 0) :
    Toured k₀ p r [] [] k₀ :=
  ⟨k₀.setVm_eq_self p |>.symm, .nil _ _ _ _, h, (Nat.zero_add _).symm, fun h => absurd rfl h⟩

section

variable (h : Toured k₀ p r fresh lent k)

include h

theorem proc_self : k.proc p = { k₀.proc p with pagetable := (k.proc p).pagetable } := by
  have := congrArg (fun k => k.proc p) h.vm
  simpa using this

theorem mmr : (k.proc p).mmr = (k₀.proc p).mmr := by
  rw [h.proc_self]

theorem fresh_step (hram : ∀ f ∈ k₀.phys.freelist, RamPage f) (hperm : r.perm < 1024) {mem : Nat}
    {ph₁ : Phys} (halloc : kalloc k.phys = some (mem, ph₁)) (hroom : v * pgsize + pgsize ≤ 2 ^ 64)
    (hzero : (k.proc p).pagetable.missing (v * pgsize) = 0)
    (hmap : mappages (k.proc p).pagetable ph₁ (v * pgsize) pgsize mem r.perm = .ok (true, vm)) :
    Toured k₀ p r (fresh ++ [v]) lent (k.setVm p vm) := by
  have hmod : v * pgsize % pgsize = 0 := Nat.mul_mod_left _ _
  have hcons := kalloc_eq_some halloc
  have hlen := ((mappages_room hmod hroom hmap).1 rfl).1
  refine ⟨?_, ?_, fun u hu => ?_, ?_, fun hne => ?_⟩
  · rw [proc_setVm_self, phys_setVm, h.vm, setVm_setVm]
  · rw [proc_setVm_self]
    exact h.filled.step hram hperm halloc hroom hmap rfl
  · rw [proc_setVm_self]
    exact mappages_paths hmod hroom hmap (h.paths u hu)
  · have := h.count
    rw [hcons, length_cons] at this
    rw [length_append, length_singleton, phys_setVm]
    omega
  · have := h.dry hne
    rw [hcons] at this
    cases this

theorem lent_step (hv : v < maxvpn) (hnil : k.phys.freelist = [])
    (hroom : v * pgsize + pgsize ≤ 2 ^ 64) (hzero : (k.proc p).pagetable.missing (v * pgsize) = 0)
    (hmap : mappages (k.proc p).pagetable k.phys (v * pgsize) pgsize 0 r.perm = .ok (true, vm)) :
    Toured k₀ p r fresh (lent ++ [v]) (k.setVm p vm) := by
  have hmod : v * pgsize % pgsize = 0 := Nat.mul_mod_left _ _
  obtain ⟨-, hacct, hnone, hleaf⟩ := mappages_leaf hroom hmap
  have hlen := ((mappages_room hmod hroom hmap).1 rfl).1
  rw [hzero, Nat.zero_add] at hlen
  have hdry : vm.2.freelist = [] := by
    rw [hnil] at hlen
    exact length_eq_zero_iff.1 hlen.symm
  refine ⟨?_, ?_, fun u hu => ?_, ?_, fun _ => hdry⟩
  · rw [proc_setVm_self, phys_setVm, h.vm, setVm_setVm]
  · rw [proc_setVm_self]
    exact h.filled.stepLent hv hacct hnone hleaf
  · rw [proc_setVm_self]
    exact mappages_paths hmod hroom hmap (h.paths u hu)
  · rw [h.count, phys_setVm, hlen]

end

end Toured

/-- Region `i` of `p` is as `mmap` leaves it: no page is mapped, and the paths are there. -/
structure Kernel.AtRest (k : Kernel) (p i : Nat) : Prop where
  ram : ∀ f ∈ k.phys.freelist, RamPage f
  index : i < maxMmr
  wf : ∀ j, ((k.proc p).mmr j).valid = true → ((k.proc p).mmr j).Wf
  valid : ((k.proc p).mmr i).valid = true
  perm : ((k.proc p).mmr i).perm < 1024
  unmapped : ∀ u ∈ ((k.proc p).mmr i).pages, (k.proc p).pagetable.leaf u = none
  paths : ∀ u ∈ ((k.proc p).mmr i).pages, (k.proc p).pagetable.missing (u * pgsize) = 0
  null : (k.proc p).pagetable.isNull = false
  runs : k.runs p
  lives : (k.proc p).killed = false

namespace Toured

variable {k₀ k k' : Kernel} {p i va : Nat} {fresh lent : List Nat} {store : Bool}

section

variable (h : Toured k₀ p ((k₀.proc p).mmr i) fresh lent k) (h₀ : k₀.AtRest p i)

include h h₀

theorem access_eq_ok (hva : va < 2 ^ 64) (hstep : k.step (.access p store va) = .ok k') :
    (allowed (k.proc p).pagetable store va = true ∧ k' = k) ∨
      faultRegions k p store va maxMmr = .ok k' := by
  have hproc := h.proc_self
  have hruns : k.runs p := by
    refine ⟨h₀.runs.1, ?_⟩
    rw [hproc]
    exact h₀.runs.2
  unfold Kernel.step at hstep
  rw [if_pos (by exact hruns)] at hstep
  dsimp only at hstep
  rw [word_of_lt hva] at hstep
  split at hstep
  · rename_i hallowed
    cases hstep
    exact .inl ⟨hallowed, rfl⟩
  · obtain ⟨k₁, hloop, hstep⟩ := bind_eq_ok.1 hstep
    have hlives : (k₁.proc p).killed = false := by
      rcases faultRegions_touched hloop with ⟨-, rfl⟩ | ⟨-, -, -, vm, -, rfl⟩
      · rw [hproc]
        exact h₀.lives
      · rw [proc_setVm_self, hproc]
        exact h₀.lives
    rw [hlives] at hstep
    cases hstep
    exact .inr hloop

theorem access (hs : ((k₀.proc p).mmr i).Serves store va)
    (hstep : k.step (.access p store va) = .ok k') :
    ∃ fresh' lent', Toured k₀ p ((k₀.proc p).mmr i) fresh' lent' k' ∧
      ∀ u, u ∈ fresh' ++ lent' ↔ u ∈ fresh ++ lent ∨ u = vpn va := by
  have hwf := h₀.wf i h₀.valid
  have hva := hs.lt_maxva hwf
  have hpage := hwf.vpn_mem hs.1 hs.2.1
  have hlt : va < 2 ^ 64 := hva.trans (by decide)
  have hmax : vpn va < maxvpn := vpn_lt hva
  have hroom := hs.room hwf
  by_cases hseen : vpn va ∈ fresh ++ lent
  · -- the page is mapped already
    have hmapped : (k.proc p).pagetable.leaf (vpn va) ≠ none :=
      h.filled.mapped (mem_append.1 hseen)
    have hvalid : has ((k.proc p).pagetable.pte va) pteV = true := by
      rw [← Bool.not_eq_false]
      exact fun hv => hmapped (leaf_eq_none.2 hv)
    obtain rfl : k' = k := by
      rcases h.access_eq_ok h₀ hlt hstep with ⟨-, rfl⟩ | hloop
      · rfl
      rcases faultRegions_touched hloop with ⟨-, rfl⟩ | ⟨-, -, hnone, -⟩
      · rfl
      · exact absurd hnone hmapped
    refine ⟨fresh, lent, h, fun u => ⟨.inl, ?_⟩⟩
    rintro (hu | rfl)
    · exact hu
    · exact hseen
  · have hzero := h.paths _ hpage
    have hnone : (k.proc p).pagetable.leaf (vpn va) = none := by
      rw [h.filled.other _ (lt_nvpn hmax) (fun hf => hseen (mem_append_left _ hf))
        fun hl => hseen (mem_append_right _ hl)]
      exact h₀.unmapped _ hpage
    have hmmr := h.mmr
    rcases h.access_eq_ok h₀ hlt hstep with ⟨hallowed, -⟩ | hloop
    · have hvalid := leaf_eq_none.1 hnone
      rw [← pte_eq] at hvalid
      simp [allowed, hvalid] at hallowed
    rcases faultRegions_cases hloop with ⟨hnot, -⟩ | ⟨hshort, -⟩ |
      ⟨j, -, -, honly, pa, ph, vm, hpa, hmap, rfl⟩
    · exact absurd hs (by rw [← hmmr]; exact hnot i h₀.index)
    · rw [← missing_pgrounddown] at hshort
      exact absurd (hshort.trans_eq hzero) (Nat.not_lt_zero _)
    obtain rfl : i = j := honly i h₀.index (by rwa [hmmr])
    rw [hmmr] at hmap
    cases halloc : kalloc k.phys with
    | none =>
      rw [halloc] at hpa
      cases hpa
      refine ⟨fresh, lent ++ [vpn va],
        h.lent_step hmax (kalloc_eq_none.1 halloc) hroom hzero hmap, fun u => ?_⟩
      rw [← append_assoc, mem_append, mem_singleton]
    | some q =>
      rw [halloc] at hpa
      cases hpa
      refine ⟨fresh ++ [vpn va], lent,
        h.fresh_step h₀.ram h₀.perm halloc hroom hzero hmap, fun u => ?_⟩
      simp only [mem_append, mem_singleton]
      tauto

end

theorem exec (h₀ : k₀.AtRest p i) {ts : List (Bool × Nat)}
    (hts : ∀ t ∈ ts, ((k₀.proc p).mmr i).Serves t.1 t.2)
    (h : Toured k₀ p ((k₀.proc p).mmr i) fresh lent k)
    (hrun : Run.exec Kernel.step k (ts.map fun t => .access p t.1 t.2) = .ok k') :
    ∃ fresh' lent', Toured k₀ p ((k₀.proc p).mmr i) fresh' lent' k' ∧
      ∀ u, u ∈ fresh' ++ lent' ↔ u ∈ fresh ++ lent ∨ u ∈ ts.map fun t => vpn t.2 := by
  induction ts generalizing k fresh lent with
  | nil =>
    cases hrun
    exact ⟨fresh, lent, h, by simp⟩
  | cons t ts ih =>
    rw [map_cons, Run.exec] at hrun
    split at hrun
    · cases hrun
    · rename_i k₁ hstep
      obtain ⟨fresh₁, lent₁, h₁, hmem₁⟩ := h.access h₀ (hts t mem_cons_self) hstep
      obtain ⟨fresh₂, lent₂, h₂, hmem₂⟩ :=
        ih (fun t ht => hts t (mem_cons_of_mem _ ht)) h₁ hrun
      refine ⟨fresh₂, lent₂, h₂, fun u => ?_⟩
      rw [hmem₂, hmem₁, map_cons, mem_cons, or_assoc]

end Toured

/-! ## munmap -/

theorem uvmunmapLoop_pages (h : uvmunmapLoop doFree n a pt ph = .ok (pt', ph')) :
    pt'.pages = pt.pages := by
  induction n generalizing a pt ph with
  | zero =>
    cases h
    rfl
  | succ n ih =>
    obtain ⟨-, -, -, _, -, h⟩ := uvmunmapLoop_succ h
    rw [ih h, pages_setPte]

theorem uvmunmap_pages (h : uvmunmap pt ph va n doFree = .ok (pt', ph')) :
    pt'.pages = pt.pages := by
  unfold uvmunmap at h
  split at h
  · cases h
  · exact uvmunmapLoop_pages h

theorem unmapLoop_pages (h : unmapLoop doFree n a pt ph = .ok (pt', ph')) :
    pt'.pages = pt.pages := by
  induction n generalizing a pt ph with
  | zero =>
    cases h
    rfl
  | succ n ih =>
    obtain ⟨pa, -, h⟩ := bind_eq_ok.1 h
    split at h
    · obtain ⟨⟨pt₁, ph₁⟩, hun, h⟩ := bind_eq_ok.1 h
      rw [ih h, uvmunmap_pages hun]
    · exact ih h

theorem walkaddr_ok (hnull : pt.isNull = false) (va : Nat) : ∃ pa, walkaddr pt va = .ok pa := by
  unfold walkaddr
  rw [hnull]
  repeat' split
  all_goals first
    | exact ⟨_, rfl⟩
    | contradiction

theorem unmapLoop_ok (doFree : Bool) (ph : Phys) (hnull : pt.isNull = false)
    (hpages : ∀ u w, v ≤ u → u < v + n → pt.user u = some w → Unmappable doFree w) :
    ∃ r, unmapLoop doFree n (v * pgsize) pt ph = .ok r := by
  induction n generalizing v pt ph with
  | zero => exact ⟨_, rfl⟩
  | succ n ih =>
    have hnext : v * pgsize + pgsize = (v + 1) * pgsize := by rw [Nat.succ_mul]
    obtain ⟨pa, hwalk⟩ := walkaddr_ok hnull (v * pgsize)
    obtain ⟨hsome, -⟩ := walkaddr_eq_ok hwalk
    rw [unmapLoop, hwalk, Run.ok_bind, hnext]
    by_cases h0 : pa ≠ 0
    · rw [if_pos h0]
      have huser := hsome h0
      obtain ⟨hmax, hleaf, -, -⟩ := user_eq_some.1 huser
      have hpage : ∀ u, v ≤ u → u < v + 1 → ∃ w, pt.leaf u = some w ∧ Unmappable doFree w := by
        intro u h1 h2
        obtain rfl : u = v := by omega
        exact ⟨_, hleaf, hpages u _ h1 (by omega) huser⟩
      obtain ⟨⟨pt₁, ph₁⟩, hun⟩ := uvmunmap_ok doFree ph hnull (by omega) hpage
      have hroom : v * pgsize + 1 * pgsize < 2 ^ 64 := by
        have hlt := mul_lt_maxva hmax
        have hle := maxva_room
        omega
      obtain ⟨hacct, -, hgone⟩ := uvmunmap_eq_ok hroom hun
      rw [hun]
      refine ih ph₁ (hacct.null.trans hnull) fun u w h1 h2 hw => ?_
      have hlt := (user_eq_some.1 hw).1
      refine hpages u w (by omega) (by omega) ?_
      rw [← hw]
      refine user_congr ?_
      rw [hgone u (lt_nvpn hlt), if_neg (by omega)]
    · rw [if_neg h0]
      exact ih ph hnull fun u w h1 h2 hw => hpages u w (by omega) (by omega) hw

/-- `munmap(addr, length)` takes the region for the one it is to remove. -/
def Mmr.Matches (r : Mmr) (addr length : Nat) : Prop :=
  r.valid = true ∧ addr = r.addr ∧ pgroundup length = sext r.length

instance (r : Mmr) (addr length : Nat) : Decidable (r.Matches addr length) :=
  inferInstanceAs (Decidable (_ ∧ _))

theorem findMmr_eq_some_iff {addr length : Nat} :
    findMmr k p addr length = some i ↔ i < maxMmr ∧ ((k.proc p).mmr i).Matches addr length ∧
      ∀ j < i, ¬ ((k.proc p).mmr j).Matches addr length := by
  unfold findMmr
  rw [List.find?_range_eq_some]
  simp only [decide_eq_true_eq, mem_range, Bool.not_eq_true', decide_eq_false_iff_not]
  exact ⟨fun ⟨h1, h2, h3⟩ => ⟨h2, h1, h3⟩, fun ⟨h1, h2, h3⟩ => ⟨h2, h1, h3⟩⟩

/-- From `k` to `k'`, region `i` of `p` and its mappings are gone and the frames of `pages` are
free, each one once; everything else is as it was. -/
structure Kernel.RegionRemoved (k k' : Kernel) (p i : Nat) (pages : List Nat) : Prop where
  regions : (k'.proc p).mmr =
    Function.update (k.proc p).mmr i { (k.proc p).mmr i with valid := false }
  others : ∀ q ≠ p, k'.proc q = k.proc q
  leaf : ∀ u < nvpn, (k'.proc p).pagetable.leaf u =
    if u ∈ ((k.proc p).mmr i).pages then none else (k.proc p).pagetable.leaf u
  frames : ∀ f, k'.phys.freelist.count f =
    k.phys.freelist.count f + ((k.proc p).pagetable.frames pages).count f

theorem munmap_of_private {addr length : Nat} (hfind : findMmr k p addr length = some i)
    (hpriv : ((k.proc p).mmr i).isPrivate = true) : munmap k p addr length =
      (unmapLoop true (pageCount addr ((k.proc p).mmr i).stop) addr (k.proc p).pagetable k.phys).map
        fun vm => (true, (k.invalidate p i).setVm p vm) := by
  have hdrop : dropRegion (k.invalidate p i) p i = .ok (true, k.invalidate p i) := by
    unfold dropRegion
    rw [if_pos]
    simpa [Kernel.invalidate, Kernel.setMmr, Mmr.isPrivate] using hpriv
  unfold munmap
  rw [hfind]
  dsimp only
  change (dropRegion (k.invalidate p i) p i >>= _) = _
  rw [hdrop, Run.ok_bind]
  have htable : ((k.invalidate p i).proc p).pagetable = (k.proc p).pagetable := by
    simp [Kernel.invalidate, Kernel.setMmr]
  rw [htable, show (k.invalidate p i).phys = k.phys from rfl]
  cases unmapLoop true (pageCount addr ((k.proc p).mmr i).stop) addr (k.proc p).pagetable
    k.phys <;> rfl

theorem has_user_perm (r : Mmr) : has r.perm pteU = true := by
  have hmask : (2 ^ 32 - 1) &&& pteU = pteU := by decide
  rw [Mmr.perm, has, ← Nat.and_two_pow_sub_one_eq_mod, Nat.and_assoc]
  have hor := has_or r.prot pteU pteU
  rwa [show has pteU pteU = true by decide, Bool.or_true] at hor

section

variable {k₀ k : Kernel} {p i addr length : Nat} {fresh lent pages : List Nat}

section

variable (h : Toured k₀ p ((k₀.proc p).mmr i) fresh lent k)
  (hperm : ((k₀.proc p).mmr i).perm < 1024)

include h hperm

theorem Toured.user_fresh (hu : u ∈ fresh) :
    ∃ w, (k.proc p).pagetable.user u = some w ∧ Unmappable true w := by
  obtain ⟨f, hram, hleaf⟩ := h.filled.new u hu
  have huser := has_user_perm ((k₀.proc p).mmr i)
  refine ⟨_, user_eq_some.2 ⟨(h.filled.unmapped u (.inl hu)).1, hleaf, ?_, ?_⟩,
    unmappable_leafWord hram hperm ?_⟩
  · rw [has_user_leafWord f hperm]
    exact huser
  · rw [pte2pa_leafWord hram hperm]
    have hpos : 0 < kernelEnd := by decide
    exact (hpos.trans_le hram.2.1).ne'
  · intro heq
    have hor := has_or ((k₀.proc p).mmr i).perm pteV pteU
    rw [heq, huser] at hor
    exact absurd hor (by decide)

theorem Toured.user_lent (hu : u ∈ lent) : (k.proc p).pagetable.user u = none := by
  have hleaf := h.filled.shared u hu
  have hpa : pte2pa (leafWord 0 ((k₀.proc p).mmr i).perm) = 0 := by
    rw [leafWord, sext_of_lt (hperm.trans (by decide)), Nat.or_assoc]
    exact pte2pa_pa2pte_or (by decide) (by decide) (perm_or_lt hperm)
  rw [Option.eq_none_iff_forall_ne_some]
  intro w hw
  obtain ⟨-, hleaf', -, hne⟩ := user_eq_some.1 hw
  obtain rfl : w = leafWord 0 ((k₀.proc p).mmr i).perm :=
    Option.some.inj (hleaf'.symm.trans hleaf)
  exact hne hpa

end

theorem Mmr.Wf.vpn_addr (h : r.Wf) : vpn r.addr * pgsize = r.addr := by
  have := h.addr
  unfold vpn pgsize at *
  omega

theorem leaf_of_unmapRegion (hw : r.Wf)
    (h : unmapLoop true (pageCount r.addr r.stop) r.addr pt ph = .ok (pt', ph')) :
    (∀ f, ph'.freelist.count f = ph.freelist.count f + (pt.frames (pt.touched r.pages)).count f) ∧
      ∀ u < nvpn, pt'.leaf u = if u ∈ pt.touched r.pages then none else pt.leaf u := by
  have hpages := unmapLoop_pages h
  have hstart : unmapLoop true (pageCount r.addr r.stop) (vpn r.addr * pgsize) pt ph =
      .ok (pt', ph') := by rwa [hw.vpn_addr]
  obtain ⟨hacct, -, hleaf⟩ := unmapLoop_eq_ok hstart
  refine ⟨fun f => ?_, hleaf⟩
  have hcons := hacct.cons f
  rw [hpages, count_nil] at hcons
  change _ + (pt.frames (pt.touched r.pages)).count f = _ at hcons
  omega

theorem Toured.munmap_iff (h₀ : k₀.AtRest p i)
    (h : Toured k₀ p ((k₀.proc p).mmr i) fresh lent k)
    (hsub : ∀ u ∈ fresh ++ lent, u ∈ ((k₀.proc p).mmr i).pages)
    (hpages : pages.Perm (fresh ++ lent)) (hpriv : ((k₀.proc p).mmr i).isPrivate = true)
    (hmatch : ((k₀.proc p).mmr i).Matches addr length) :
    (∃ k', munmap k p addr length = .ok (true, k') ∧ k.RegionRemoved k' p i pages) ↔
      (∀ j < i, ¬ ((k₀.proc p).mmr j).Matches addr length) ∧ lent = [] := by
  have hmmr := h.mmr
  have hwf := h₀.wf i h₀.valid
  constructor
  · rintro ⟨k', hun, hgone⟩
    rcases munmap_eq_ok hun with ⟨-, hdone, -⟩ | ⟨i', doFree, k₁, vm, hfind, -, hdrop, -, rfl⟩
    · cases hdone
    obtain ⟨-, hmatch', hfirst⟩ := findMmr_eq_some_iff.1 hfind
    -- the region that is found is not valid any more
    obtain rfl : i' = i := by
      by_contra hne
      have hkept := congrFun hgone.regions i'
      rw [Function.update_of_ne hne, proc_setVm_self] at hkept
      have hsame := ((relinked_dropRegion hdrop).procs p).regions i'
      rw [hkept] at hsame
      have hvalid := congrArg Mmr.valid hsame
      rw [hmatch'.1] at hvalid
      simp [Kernel.invalidate, Kernel.setMmr] at hvalid
    rw [hmmr] at hfirst
    refine ⟨hfirst, eq_nil_iff_forall_not_mem.2 fun u hu => ?_⟩
    have hpage := hsub u (mem_append_right _ hu)
    have hlt : u < nvpn := lt_nvpn (h.filled.unmapped u (.inr hu)).1
    have hnone := hgone.leaf u hlt
    rw [hmmr, if_pos hpage, proc_setVm_self] at hnone
    rw [munmap_of_private hfind (by rwa [hmmr]), hmatch'.2.1] at hun
    obtain ⟨vm', hloop, hres⟩ := Run.map_eq_ok.1 hun
    have hvm : vm.1 = vm'.1 := by
      have := congrArg (fun r : Bool × Kernel => (r.2.proc p).pagetable) hres
      simpa using this.symm
    rw [hmmr] at hloop
    have hkept := (leaf_of_unmapRegion hwf hloop).2 u hlt
    have hnot : u ∉ (k.proc p).pagetable.touched ((k₀.proc p).mmr i').pages := by
      rw [mem_touched]
      rintro ⟨-, w, hw⟩
      rw [h.user_lent h₀.perm hu] at hw
      cases hw
    rw [if_neg hnot, ← hvm, h.filled.shared u hu] at hkept
    rw [hnone] at hkept
    cases hkept
  · rintro ⟨hfirst, rfl⟩
    rw [append_nil] at hpages hsub
    have hfind : findMmr k p addr length = some i := by
      rw [findMmr_eq_some_iff, hmmr]
      exact ⟨h₀.index, hmatch, hfirst⟩
    -- the pages that can be used are those that were touched
    have hmem : ∀ u, u ∈ (k.proc p).pagetable.touched ((k₀.proc p).mmr i).pages ↔ u ∈ fresh := by
      intro u
      rw [mem_touched]
      constructor
      · rintro ⟨hpage, w, hw⟩
        by_contra hnot
        obtain ⟨hmax, hleaf, -, -⟩ := user_eq_some.1 hw
        rw [h.filled.other u (lt_nvpn hmax) hnot not_mem_nil, h₀.unmapped u hpage] at hleaf
        cases hleaf
      · intro hu
        obtain ⟨w, hw, -⟩ := h.user_fresh h₀.perm hu
        exact ⟨hsub u hu, w, hw⟩
    have hnull : (k.proc p).pagetable.isNull = false := h.filled.acct.null.trans h₀.null
    obtain ⟨⟨pt', ph'⟩, hloop⟩ := unmapLoop_ok true
      (v := vpn ((k₀.proc p).mmr i).addr) k.phys hnull fun u w h1 h2 hw => by
        obtain ⟨w', hw', hok⟩ := h.user_fresh h₀.perm
          ((hmem u).1 (mem_touched.2 ⟨mem_range'.2 ⟨h1, h2⟩, w, hw⟩))
        rw [hw] at hw'
        cases hw'
        exact hok
    rw [hwf.vpn_addr] at hloop
    obtain ⟨hfree, hleaf⟩ := leaf_of_unmapRegion hwf hloop
    refine ⟨(k.invalidate p i).setVm p (pt', ph'), ?_, ?_, fun q hq => ?_, fun u hu => ?_,
      fun f => ?_⟩
    · rw [munmap_of_private hfind (by rwa [hmmr]), hmatch.2.1, hmmr, hloop]
      rfl
    · rw [proc_setVm_self]
      simp [Kernel.invalidate, Kernel.setMmr]
    · rw [proc_setVm_of_ne _ hq]
      exact proc_setProc_of_ne _ hq _
    · rw [proc_setVm_self, hmmr]
      rw [hleaf u hu]
      simp only [hmem]
      by_cases hin : u ∈ fresh
      · rw [if_pos hin, if_pos (hsub u hin)]
      · rw [if_neg hin]
        split
        · rename_i hpage
          rw [h.filled.other u hu hin not_mem_nil]
          exact h₀.unmapped u hpage
        · rfl
    · rw [phys_setVm, hfree f]
      congr 1
      refine List.Perm.count_eq (List.Perm.map _ ?_) f
      refine (perm_ext_iff_of_nodup ?_ ?_).2 fun u => ?_
      · exact (nodup_range').filter _
      · exact hpages.nodup_iff.2 (by simpa using h.filled.nodup)
      · rw [hmem, hpages.mem_iff]

end

/-! ## From mmap to munmap -/

/-- A live process calls `mmap` for a private region that it may read or write; the call returns
`addr`, and the kernel is `k₁` then. -/
structure MmapPrivate (k : Kernel) (p length prot flags addr : Nat) (k₁ : Kernel) : Prop where
  runs : k.runs p
  lives : (k.proc p).killed = false
  small : pgroundup length < 2 ^ 31
  fits : length ≤ (k.proc p).curMax
  isPrivate : has flags mapPrivate = true
  notShared : has flags mapShared = false
  readWrite : prot ||| (pteR ||| pteW) = pteR ||| pteW
  call : sysMmap k p length prot flags = .ok (some addr, k₁)

section

variable {k k₁ : Kernel} {p i length prot flags addr : Nat}

theorem prot_lt (h : prot ||| (pteR ||| pteW) = pteR ||| pteW) : prot < 1024 := by
  have hle : prot ≤ prot ||| (pteR ||| pteW) := Nat.left_le_or
  rw [h] at hle
  exact hle.trans_lt (by decide)

theorem newMmr_matches (hb : k.Basic) (h : MmapPrivate k p length prot flags addr k₁)
    {length' : Nat} (hlen : pgroundup length' = pgroundup length) :
    (newMmr k p i length prot flags).Matches (newMmr k p i length prot flags).addr length' := by
  obtain ⟨hmod, hmax⟩ := ((hb.sound p).curMax)
  have hfits := h.fits
  have hsmall := h.small
  refine ⟨rfl, rfl, ?_⟩
  rw [hlen]
  unfold newMmr
  dsimp only
  generalize (k.proc p).curMax = c at *
  have hc : c < 2 ^ 64 := hmax.trans_lt (by decide)
  have hup : pgroundup length ≤ c ∧ pgrounddown (c - length) = c - pgroundup length := by
    unfold pgroundup pgrounddown word pgsize at *
    omega
  rw [wsub_of_le hfits hc, hup.2, wsub_of_le (Nat.sub_le _ _) hc, Nat.sub_sub_self hup.1,
    Nat.mod_eq_of_lt (hsmall.trans (by decide)), sext_of_lt hsmall]

theorem MmapPrivate.untouched (hb : k.Basic) (h : MmapPrivate k p length prot flags addr k₁)
    (hi : freeMmr k p = some i) : k₁.AtRest p i ∧ ((k₁.proc p).mmr i).addr = addr ∧
      ((k₁.proc p).mmr i).isPrivate = true ∧
      (∀ j ≠ i, (k₁.proc p).mmr j = (k.proc p).mmr j) ∧
      ∀ length', pgroundup length' = pgroundup length →
        ((k₁.proc p).mmr i).Matches addr length' := by
  have hs := hb.sound p
  have hlive : (k.proc p).state ≠ .unused := by
    rw [h.runs.2]
    exact nofun
  have hf := hs.fixed hlive
  have hb₁ : k₁.Basic := basic_mmap hb hlive h.call
  rcases sysMmap_eq_ok h.call with ⟨hnone, -, -⟩ |
    ⟨i', r, ok, ⟨pt, ph⟩, hfree, rfl, hmap, hno, hyes⟩
  · rw [hi] at hnone
    cases hnone
  obtain rfl : i = i' := Option.some.inj (hi.symm.trans hfree)
  cases ok with
  | false => cases (hno rfl).1
  | true =>
    obtain ⟨haddr, id, l, rfl, -⟩ := hyes rfl
    cases haddr
    have hregion : (newMmr k p i length prot flags).SameRegion
        (((k.mapRegion p i (newMmr k p i length prot flags) id l (pt, ph)).proc p).mmr i) := by
      simp [Kernel.mapRegion, Mmr.SameRegion]
    have htable : ((k.mapRegion p i (newMmr k p i length prot flags) id l (pt, ph)).proc
        p).pagetable = pt := by simp [Kernel.mapRegion]
    obtain ⟨-, -, hnull, hacct, hentry, -⟩ :=
      mapvpages_eq_ok (newMmr_addr k p i length prot flags) hmap
    have hmatch : ∀ length', pgroundup length' = pgroundup length →
        (newMmr k p i length prot flags).Matches (newMmr k p i length prot flags).addr length' :=
      fun length' hlen => newMmr_matches hb h hlen
    refine ⟨⟨hb₁.ram, (freeMmr_eq_some hi).1, fun j hj => ((hb₁.sound p).region j hj).1, ?_, ?_,
      fun u hu => ?_, fun u hu => ?_, ?_, ⟨h.runs.1, ?_⟩, ?_⟩, ?_, ?_, fun j hj => ?_,
      fun length' hlen => ?_⟩
    · rw [hregion]
      rfl
    · rw [hregion]
      exact Mmr.perm_lt (prot_lt h.readWrite)
    · rw [htable, leaf_congr (hentry u)]
      exact newMmr_unmapped hs.toPlaced hf hmap (by rwa [hregion.pages] at hu)
    · rw [htable]
      exact newMmr_missing hs.toPlaced hf hmap (by rwa [hregion.pages] at hu)
    · rw [htable]
      exact hacct.null.trans hnull
    · simpa [Kernel.mapRegion] using h.runs.2
    · simpa [Kernel.mapRegion] using h.lives
    · rw [hregion]
    · rw [hregion]
      exact h.isPrivate
    · simp [Kernel.mapRegion, Function.update_of_ne hj]
    · rw [hregion]
      exact hmatch length' hlen

def touchedPages (ts : List (Bool × Nat)) : List Nat := (ts.map fun t => vpn t.2).dedup

/-- A private region can be unmapped as it was mapped, after any accesses to it, exactly when
`munmap` does not find another region of the same place and size first and every page that was
touched got a frame; and without a region of that place and size `munmap` does nothing. -/
theorem roundTrip_iff {k₂ : Kernel} {length' : Nat} {ts : List (Bool × Nat)} (hb : k.Basic)
    (h : MmapPrivate k p length prot flags addr k₁) (hi : freeMmr k p = some i)
    (hts : ∀ t ∈ ts, ((k₁.proc p).mmr i).Serves t.1 t.2)
    (hrun : Run.exec Kernel.step k₁ (ts.map fun t => .access p t.1 t.2) = .ok k₂)
    (hlen : pgroundup length' = pgroundup length) :
    ((∃ k₃, munmap k₂ p addr length' = .ok (true, k₃) ∧
        k₂.RegionRemoved k₃ p i (touchedPages ts)) ↔
      (∀ j < i, ¬ ((k.proc p).mmr j).Matches addr length') ∧
        (touchedPages ts).length ≤ k₁.phys.freelist.length) ∧
    ∀ (s : Kernel) (q a n : Nat), (∀ j < maxMmr, ¬ ((s.proc q).mmr j).Matches a n) →
      munmap s q a n = .ok (false, s) := by
  constructor
  · obtain ⟨h₀, -, hpriv, hothers, hmatch⟩ := h.untouched hb hi
    obtain ⟨fresh, lent, ht, hmem⟩ := Toured.exec h₀ hts (.start h₀.paths) hrun
    simp only [append_nil, not_mem_nil, false_or] at hmem
    have hwf := h₀.wf i h₀.valid
    have hsub : ∀ u ∈ fresh ++ lent, u ∈ ((k₁.proc p).mmr i).pages := by
      intro u hu
      obtain ⟨t, htin, rfl⟩ := mem_map.1 ((hmem u).1 hu)
      exact hwf.vpn_mem (hts t htin).1 (hts t htin).2.1
    have hperm : (touchedPages ts).Perm (fresh ++ lent) := by
      refine (perm_ext_iff_of_nodup (nodup_dedup _) ht.filled.nodup).2 fun u => ?_
      rw [mem_dedup, hmem]
    rw [ht.munmap_iff h₀ hsub hperm hpriv (hmatch length' hlen)]
    refine and_congr (forall₂_congr fun j hj => ?_) ?_
    · rw [hothers j (by omega)]
    · have hcount := ht.count
      rw [hperm.length_eq, length_append]
      refine ⟨fun hnil => ?_, fun hle => ?_⟩
      · rw [hnil, length_nil]
        omega
      · by_contra hne
        have hdry := ht.dry hne
        have hpos := length_pos_iff.2 hne
        rw [hdry, length_nil] at hcount
        omega
  · intro s q a n hnone
    have hfind : findMmr s q a n = none := by
      rw [findMmr, List.find?_eq_none]
      intro j hj
      rw [decide_eq_true_eq]
      exact hnone j (mem_range.1 hj)
    rw [munmap, hfind]

end

def twoTouches : List (Bool × Nat) := [(true, trapframe - 2 * pgsize), (true, trapframe - pgsize)]

/-- The first process maps two pages and touches both; `removed` says whether `munmap` then
removes the second one. -/
def tourEnds (removed : Bool) (k : Kernel) : Bool :=
  decide (k.runs 0) && !(k.proc 0).killed && decide (2 * pgsize ≤ (k.proc 0).curMax) &&
  decide (freeMmr k 0 = some 0) &&
  match sysMmap k 0 (2 * pgsize) (pteR ||| pteW) mapPrivate with
  | .ok (some addr, k₁) =>
    addr == trapframe - 2 * pgsize &&
    twoTouches.all (fun t => decide (((k₁.proc 0).mmr 0).Serves t.1 t.2)) &&
    decide (trapframeVpn - 1 ∈ ((k₁.proc 0).mmr 0).pages) &&
    (match Run.exec Kernel.step k₁ (twoTouches.map fun t => .access 0 t.1 t.2) with
    | .ok k₂ =>
      match munmap k₂ 0 addr (2 * pgsize) with
      | .ok (_, k₃) => ((k₃.proc 0).pagetable.leaf (trapframeVpn - 1)).isNone == removed
      | .error _ => false
    | .error _ => false)
  | _ => false

theorem exists_tour {removed : Bool} (h : tourEnds removed k = true) :
    ∃ k₁ k₂, MmapPrivate k 0 (2 * pgsize) (pteR ||| pteW) mapPrivate (trapframe - 2 * pgsize) k₁ ∧
      freeMmr k 0 = some 0 ∧ (∀ t ∈ twoTouches, ((k₁.proc 0).mmr 0).Serves t.1 t.2) ∧
      trapframeVpn - 1 ∈ ((k₁.proc 0).mmr 0).pages ∧
      Run.exec Kernel.step k₁ (twoTouches.map fun t => .access 0 t.1 t.2) = .ok k₂ ∧
      ∃ r, munmap k₂ 0 (trapframe - 2 * pgsize) (2 * pgsize) = .ok r ∧
        ((r.2.proc 0).pagetable.leaf (trapframeVpn - 1)).isNone = removed := by
  simp only [tourEnds, Bool.and_eq_true, decide_eq_true_eq, Bool.not_eq_true'] at h
  obtain ⟨⟨⟨⟨hruns, hlives⟩, hfits⟩, hfree⟩, h⟩ := h
  split at h
  · rename_i addr k₁ hcall
    simp only [Bool.and_eq_true, beq_iff_eq, decide_eq_true_eq, all_eq_true] at h
    obtain ⟨⟨⟨rfl, hserves⟩, hpage⟩, h⟩ := h
    split at h
    · rename_i k₂ hrun
      split at h
      · rename_i r k₃ hun
        refine ⟨k₁, k₂, ⟨hruns, hlives, by decide, hfits, by decide, by decide, by decide, hcall⟩,
          hfree, hserves, hpage, hrun, (r, k₃), hun, beq_iff_eq.1 h⟩
      · cases h
    · cases h
  · cases h

/-- With one frame for two pages, the second stays mapped to address 0. -/
theorem not_roundTrip_dry : ∃ k k₁ k₂, Boots (.ofPages 8) k ∧
    MmapPrivate k 0 (2 * pgsize) (pteR ||| pteW) mapPrivate (trapframe - 2 * pgsize) k₁ ∧
    (∀ t ∈ twoTouches, ((k₁.proc 0).mmr 0).Serves t.1 t.2) ∧
    Run.exec Kernel.step k₁ (twoTouches.map fun t => .access 0 t.1 t.2) = .ok k₂ ∧
    ¬ ∃ k₃, munmap k₂ 0 (trapframe - 2 * pgsize) (2 * pgsize) = .ok (true, k₃) ∧
      k₂.RegionRemoved k₃ 0 0 (touchedPages twoTouches) := by
  have hends : bootRun.ends 8 [] (tourEnds false) = true := by decide +kernel
  obtain ⟨k, k', hboot, hnil, hcheck⟩ := bootRun.of_ends (by decide) (by decide) hends
  cases hnil
  obtain ⟨k₁, k₂, hmmap, hfree, hserves, hpage, hrun, r, hun, hleaf⟩ := exists_tour hcheck
  refine ⟨k, k₁, k₂, hboot, hmmap, hserves, hrun, fun ⟨k₃, hun', hgone⟩ => ?_⟩
  rw [hun] at hun'
  cases hun'
  -- the regions are those that `mmap` left
  obtain ⟨fresh, lent, ht, -⟩ := Toured.exec (hmmap.untouched (basic_boot hboot) hfree).1 hserves
    (.start (hmmap.untouched (basic_boot hboot) hfree).1.paths) hrun
  have hnone := hgone.leaf (trapframeVpn - 1) (by decide)
  rw [ht.mmr, if_pos hpage] at hnone
  rw [hnone] at hleaf
  cases hleaf

theorem roundTrip_iff_two : ∃ k k₁ k₂ k₃, Boots (.ofPages 9) k ∧
    MmapPrivate k 0 (2 * pgsize) (pteR ||| pteW) mapPrivate (trapframe - 2 * pgsize) k₁ ∧
    Run.exec Kernel.step k₁ (twoTouches.map fun t => .access 0 t.1 t.2) = .ok k₂ ∧
    munmap k₂ 0 (trapframe - 2 * pgsize) (2 * pgsize) = .ok (true, k₃) ∧
    k₂.RegionRemoved k₃ 0 0 (touchedPages twoTouches) := by
  have hends : bootRun.ends 9 [] (fun k => tourEnds true k &&
      match sysMmap k 0 (2 * pgsize) (pteR ||| pteW) mapPrivate with
      | .ok (_, k₁) => decide (2 ≤ k₁.phys.freelist.length)
      | .error _ => false) = true := by decide +kernel
  obtain ⟨k, k', hboot, hnil, hcheck⟩ := bootRun.of_ends (by decide) (by decide) hends
  cases hnil
  rw [Bool.and_eq_true] at hcheck
  obtain ⟨k₁, k₂, hmmap, hfree, hserves, hpage, hrun, -⟩ := exists_tour hcheck.1
  have hroom := hcheck.2
  rw [hmmap.call] at hroom
  obtain ⟨k₃, hun, hgone⟩ := (roundTrip_iff (basic_boot hboot) hmmap hfree hserves hrun rfl).1.2
    ⟨fun j hj => absurd hj j.not_lt_zero, of_decide_eq_true hroom⟩
  exact ⟨k, k₁, k₂, k₃, hboot, hmmap, hrun, hun, hgone⟩

end Xv6
