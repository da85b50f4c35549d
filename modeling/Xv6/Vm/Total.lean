/-
Where the page-table layer does not panic: the functions of `kernel/vm.c` return on a table whose
pages are mapped as their callers keep them.
-/
import Xv6.Vm.Free

namespace Xv6

open Run PageTable List

variable {doFree : Bool} {f n sz u v : Nat} {new old pt : PageTable} {ph ph₀ : Phys}

/-- A mapped page that `uvmunmap` takes away: a leaf, in RAM if its frame is to be freed. -/
def Unmappable (doFree : Bool) (w : Nat) : Prop :=
  pteFlags w ≠ pteV ∧ (doFree = true → RamPage (pte2pa w))

theorem unmappable_leafWord {perm : Nat} (hf : RamPage f) (hp : perm < 1024)
    (hne : perm ||| pteV ≠ pteV) : Unmappable doFree (leafWord f perm) :=
  ⟨by rwa [pteFlags_leafWord f hp], fun _ => by rwa [pte2pa_leafWord hf hp]⟩

theorem walk_ok (ph : Phys) (alloc : Bool) (hnull : pt.isNull = false) (hv : v < maxvpn) :
    ∃ r, walk pt ph (v * pgsize) alloc = .ok r := by
  have hlt := mul_lt_maxva hv
  rw [walk, if_neg (by omega), hnull]
  cases alloc <;> exact ⟨_, rfl⟩

theorem kfreeIf_ok (ph : Phys) {pa : Nat} (h : doFree = true → RamPage pa) :
    ∃ ph', kfreeIf doFree ph pa = .ok ph' := by
  unfold kfreeIf
  cases doFree with
  | false => exact ⟨ph, if_neg (by decide)⟩
  | true =>
    rw [kfree_of_ram (h rfl)]
    exact ⟨_, rfl⟩

theorem uvmunmapLoop_ok (ph : Phys) (hnull : pt.isNull = false) (hmax : v + n ≤ maxvpn)
    (hleaf : ∀ u, v ≤ u → u < v + n → ∃ w, pt.leaf u = some w ∧ Unmappable doFree w) :
    ∃ r, uvmunmapLoop doFree n (v * pgsize) pt ph = .ok r := by
  induction n generalizing v pt ph with
  | zero => exact ⟨_, rfl⟩
  | succ n ih =>
    obtain ⟨w, hw, hflags, hram⟩ := hleaf v le_rfl (by omega)
    obtain ⟨hentry, hvalid⟩ := leaf_eq_some.1 hw
    have hpte : pt.pte (v * pgsize) = w := by rw [pte_eq, vpn_mul, hentry]
    have hreach : pt.reaches (v * pgsize) = true :=
      reaches_of_has (m := pteV) (by rw [hpte, hvalid])
    have hlt : v * pgsize < maxva := mul_lt_maxva (by omega)
    have hwalk : walk pt ph (v * pgsize) false = .ok (true, pt, ph) := by
      rw [walk, if_neg (by omega), hnull, hreach]
      rfl
    obtain ⟨ph₁, hfree⟩ := kfreeIf_ok ph hram
    have hrest : ∀ u, v + 1 ≤ u → u < v + 1 + n →
        ∃ w, (pt.setPte (v * pgsize) 0).leaf u = some w ∧ Unmappable doFree w := by
      intro u h1 h2
      obtain ⟨w', hw', hok⟩ := hleaf u (by omega) (by omega)
      refine ⟨w', ?_, hok⟩
      rw [← hw']
      apply leaf_congr
      rw [entry_setPte 0 hreach hlt (lt_nvpn (by omega)), vpn_mul, if_neg (by omega)]
    obtain ⟨r, hr⟩ := ih (v := v + 1) ph₁
      ((pt.isNull_setPte (v * pgsize) 0).trans hnull) (by omega) hrest
    rw [Nat.add_mul] at hr
    refine ⟨r, bind_eq_ok.2 ⟨_, hwalk, bind_eq_ok.2 ⟨(), rfl, ?_⟩⟩⟩
    rw [hpte]
    refine bind_eq_ok.2 ⟨(), require_eq_ok.2 hvalid, bind_eq_ok.2 ⟨(), require_eq_ok.2 ?_, ?_⟩⟩
    · simpa using hflags
    · exact bind_eq_ok.2 ⟨ph₁, hfree, hr⟩

theorem uvmunmap_ok (doFree : Bool) (ph : Phys) (hnull : pt.isNull = false)
    (hmax : v + n ≤ maxvpn)
    (hleaf : ∀ u, v ≤ u → u < v + n → ∃ w, pt.leaf u = some w ∧ Unmappable doFree w) :
    ∃ r, uvmunmap pt ph (v * pgsize) n doFree = .ok r := by
  have hroom : v * pgsize + n * pgsize < 2 ^ 64 := by
    rw [← Nat.add_mul]
    have hle := mul_le_maxva hmax
    have hlt := maxva_room
    omega
  rw [uvmunmap, if_neg (by simp), pageCount_pages hroom]
  exact uvmunmapLoop_ok ph hnull hmax hleaf

theorem uvmdealloc_ok (ph : Phys) {oldsz newsz : Nat} (hnull : pt.isNull = false)
    (hold : oldsz ≤ maxva)
    (hleaf : ∀ u, npages newsz ≤ u → u < npages oldsz → ∃ w, pt.leaf u = some w ∧
      Unmappable true w) :
    ∃ r, uvmdealloc pt ph oldsz newsz = .ok r := by
  rw [uvmdealloc_eq hold]
  split
  · have hle := npages_le hold
    obtain ⟨⟨pt', ph'⟩, hun⟩ := uvmunmap_ok true (v := npages newsz)
      (n := npages oldsz - npages newsz) ph hnull (by omega)
      (fun u h1 h2 => hleaf u h1 (by omega))
    exact ⟨_, bind_eq_ok.2 ⟨_, hun, rfl⟩⟩
  · exact ⟨_, rfl⟩

theorem mappages_ok (ph : Phys) (pa perm : Nat) (hnull : pt.isNull = false) (hv : v < maxvpn)
    (hnone : pt.leaf v = none) : ∃ r, mappages pt ph (v * pgsize) pgsize pa perm = .ok r := by
  have hmod : v * pgsize % pgsize = 0 := Nat.mul_mod_left _ _
  have hlt := mul_lt_maxva hv
  have hroom := room_of_lt hlt
  obtain ⟨⟨found, pt₁, ph₁⟩, hwalk⟩ := walk_ok ph true hnull hv
  rw [mappages]
  dsimp only
  rw [pgrounddown_of_mod hmod, pagesTo_page hmod hroom]
  cases found with
  | false => exact ⟨_, bind_eq_ok.2 ⟨_, hwalk, rfl⟩⟩
  | true =>
    obtain ⟨-, -, -, hentry, -⟩ := walk_true_eq_ok hwalk
    have hfree : (!has (pt₁.pte (v * pgsize)) pteV) = true := by
      rw [pte_eq, vpn_mul, hentry, leaf_eq_none.1 hnone]
      rfl
    exact ⟨_, bind_eq_ok.2 ⟨_, hwalk, bind_eq_ok.2 ⟨(), require_eq_ok.2 hfree, rfl⟩⟩⟩

/-- The loop of `uvmalloc` returns: there are fewer free frames than pages below `top`, so it runs
out of frames before it gets to a page that is mapped. -/
theorem uvmallocLoop_ok {pt₀ : PageTable} {m top : Nat} (newsz : Nat)
    (hf : Filled pt₀ ph₀ (List.range' v n) (fun _ => heapPerm) [] (fun _ => 0) pt ph)
    (hram : ∀ f ∈ ph₀.freelist, RamPage f) (hnull : pt₀.isNull = false) (htop : top ≤ maxvpn)
    (hnone : ∀ u, v ≤ u → u < top → pt₀.leaf u = none) (hroom : v + n + ph.freelist.length ≤ top) :
    ∃ r, uvmallocLoop (v * pgsize) newsz m ((v + n) * pgsize) pt ph = .ok r := by
  induction m generalizing n pt ph with
  | zero => exact ⟨_, rfl⟩
  | succ m ih =>
    have hle : (v + n) * pgsize ≤ maxva := mul_le_maxva (by omega)
    have hmax := maxva_room
    -- the way back finds the pages that were mapped
    have hundo : ∀ {pt₁ : PageTable} {ph₁ : Phys},
        Filled pt₀ ph₀ (List.range' v n) (fun _ => heapPerm) [] (fun _ => 0) pt₁ ph₁ →
        ∃ r, uvmdealloc pt₁ ph₁ ((v + n) * pgsize) (v * pgsize) = .ok r := by
      intro pt₁ ph₁ hfill
      refine uvmdealloc_ok ph₁ (hfill.acct.null.trans hnull) hle fun u h1 h2 => ?_
      rw [npages_mul] at h1 h2
      obtain ⟨f, hf, hl⟩ := hfill.new u (mem_range'.2 ⟨h1, h2⟩)
      exact ⟨_, hl, unmappable_leafWord hf (by decide) (by decide)⟩
    unfold uvmallocLoop
    cases halloc : kalloc ph with
    | none =>
      obtain ⟨r, hde⟩ := hundo hf
      exact ⟨_, bind_eq_ok.2 ⟨r, hde, rfl⟩⟩
    | some q =>
      obtain ⟨mem, ph₁⟩ := q
      have hlen := congrArg List.length (kalloc_eq_some halloc)
      rw [length_cons] at hlen
      have hmem : RamPage mem := hram mem (hf.mem_of_mem (by rw [kalloc_eq_some halloc]; simp))
      have hfree : pt.leaf (v + n) = none := by
        rw [hf.other _ (lt_nvpn (by omega)) (by simp) (by simp)]
        exact hnone _ (by omega) (by omega)
      obtain ⟨⟨ok, pt₂, ph₂⟩, hmap⟩ := mappages_ok
        { ph₁ with mem := memsetPage ph₁.mem mem 0 } mem (pteW ||| pteX ||| pteR ||| pteU)
        (hf.acct.null.trans hnull) (show v + n < maxvpn by omega) hfree
      cases ok with
      | true =>
        have hstep := hf.step hram (by decide) halloc (by omega) hmap rfl
        rw [← List.range'_1_concat] at hstep
        have hlen₂ := ((mappages_room (Nat.mul_mod_left _ _) (by omega) hmap).1 rfl).1
        dsimp only at hlen₂
        obtain ⟨r, hr⟩ := ih hstep (by omega)
        refine ⟨r, bind_eq_ok.2 ⟨_, hmap, ?_⟩⟩
        dsimp only
        rw [if_pos rfl, add_page, hr]
      | false =>
        have hkfree : kfree ph₂ mem = .ok _ := kfree_of_ram hmem
        obtain ⟨r, hde⟩ := hundo (hf.stepFail halloc (by omega) hmap rfl hkfree)
        exact ⟨_, bind_eq_ok.2 ⟨_, hmap, bind_eq_ok.2 ⟨_, hkfree,
          bind_eq_ok.2 ⟨r, hde, rfl⟩⟩⟩⟩

theorem uvmalloc_ok {oldsz top : Nat} (newsz : Nat) (hram : ∀ f ∈ ph.freelist, RamPage f)
    (hnull : pt.isNull = false) (htop : top ≤ maxvpn) (hold : oldsz ≤ maxva)
    (hnone : ∀ u, npages oldsz ≤ u → u < top → pt.leaf u = none)
    (hroom : npages oldsz + ph.freelist.length ≤ top) :
    ∃ r, uvmalloc pt ph oldsz newsz = .ok r := by
  rw [uvmalloc_eq hold]
  split
  · exact ⟨_, rfl⟩
  · exact uvmallocLoop_ok (n := 0) newsz (Filled.nil pt ph _ _) hram hnull htop hnone hroom

theorem RamPage.kernelReads (h : RamPage f) : kernelReads f = true := by
  obtain ⟨-, hlo, hhi⟩ := h
  have hend : kernbase ≤ kernelEnd := by decide
  simp only [Xv6.kernelReads, Bool.or_eq_true, Bool.and_eq_true, decide_eq_true_eq]
  exact .inl ⟨by omega, hhi⟩

/-- A page of the heap: a frame of its own, open to the user. -/
def HeapPage (pt : PageTable) (u : Nat) : Prop :=
  ∃ f, RamPage f ∧ pt.leaf u = some (leafWord f heapPerm)

theorem HeapPage.copyPerm (h : HeapPage pt u) : copyPerm pt u = heapPerm ||| pteV := by
  obtain ⟨f, hf, hl⟩ := h
  rw [Xv6.copyPerm, (leaf_eq_some.1 hl).1, pteFlags_leafWord _ (by decide)]

theorem leafWord_heap (hf : RamPage f) : leafWord f (heapPerm ||| pteV) = leafWord f heapPerm := by
  rw [leafWord_eq hf (by decide), leafWord_eq hf (by decide)]
  rfl

theorem HeapPage.unmappable (h : HeapPage pt u) :
    ∃ w, pt.leaf u = some w ∧ Unmappable doFree w := by
  obtain ⟨f, hf, hl⟩ := h
  exact ⟨_, hl, unmappable_leafWord hf (by decide) (by decide)⟩

theorem Filled.heapPage {new₀ : PageTable}
    (hf : Filled new₀ ph₀ (List.range' 0 n) (copyPerm old) [] (lentWord old) new ph)
    (hold : ∀ u < n, HeapPage old u) (hu : u < n) : HeapPage new u := by
  obtain ⟨f, hram, hl⟩ := hf.new u (mem_range'.2 ⟨Nat.zero_le _, by omega⟩)
  rw [(hold u hu).copyPerm, leafWord_heap hram] at hl
  exact ⟨f, hram, hl⟩

theorem Acct.ram {pt' : PageTable} {ph' : Phys} {ins outs : List Nat}
    (h : Acct pt ph pt' ph' ins outs) (hfree : ∀ f ∈ ph.freelist, RamPage f)
    (hpages : ∀ f ∈ pt.pages, RamPage f) (houts : ∀ f ∈ outs, RamPage f) :
    (∀ f ∈ ph'.freelist, RamPage f) ∧ ∀ f ∈ pt'.pages, RamPage f := by
  have hsrc : ∀ f, 0 < ph'.freelist.count f + pt'.pages.count f → RamPage f := by
    intro f hpos
    have hc := h.cons f
    by_cases h1 : f ∈ ph.freelist
    · exact hfree f h1
    by_cases h2 : f ∈ pt.pages
    · exact hpages f h2
    rw [count_eq_zero.2 h1, count_eq_zero.2 h2] at hc
    exact houts f (count_pos_iff.1 (by omega))
  constructor
  · intro f hf
    have := count_pos_iff.2 hf
    exact hsrc f (by omega)
  · intro f hf
    have := count_pos_iff.2 hf
    exact hsrc f (by omega)

theorem has_get_of_leaf_none (hnone : ∀ u < nvpn, pt.leaf u = none) (k : Nat) :
    has (Radix.Table.get 512 pt k) pteV = false := by
  have hmod : k % nvpn % 512 ^ (2 + 1) = k % 512 ^ (2 + 1) := Nat.mod_mod _ _
  have h := leaf_eq_none.1 (hnone (k % nvpn) (Nat.mod_lt _ (by decide)))
  rwa [PageTable.entry, Radix.Table.get_congr 512 pt hmod] at h

theorem uvmfree_ok (hnull : pt.isNull = false) (hsz : sz ≤ maxva)
    (hheap : ∀ u < npages sz, HeapPage pt u)
    (hrest : ∀ u < nvpn, npages sz ≤ u → pt.leaf u = none) (hfree : ∀ f ∈ ph.freelist, RamPage f)
    (hram : ∀ f ∈ pt.pages, RamPage f) : ∃ ph', uvmfree pt ph sz = .ok ph' := by
  unfold uvmfree
  by_cases hpos : sz > 0
  · rw [if_pos hpos]
    have hmax := maxva_room
    have hcount : pgroundup sz / pgsize = npages sz := by
      rw [pgroundup_eq (by omega), Nat.mul_div_cancel _ (by decide)]
    have hle := npages_le hsz
    have hroom : 0 * pgsize + npages sz * pgsize < 2 ^ 64 := by
      have hmul := mul_le_maxva hle
      omega
    obtain ⟨⟨pt₁, ph₁⟩, hun⟩ := uvmunmap_ok true (v := 0) (n := npages sz) ph hnull (by omega)
      fun u _ hu => (hheap u (by omega)).unmappable
    obtain ⟨hacct, hpages, hleaf⟩ := uvmunmap_eq_ok hroom hun
    have houts : ∀ f ∈ pt.frames (List.range' 0 (npages sz)), RamPage f := by
      intro f hf
      obtain ⟨u, hu, rfl⟩ := mem_map.1 hf
      obtain ⟨-, w, hw, -, hr⟩ := hpages u (Nat.zero_le _) (mem_range'.1 hu).2
      rw [(leaf_eq_some.1 hw).1]
      exact hr rfl
    obtain ⟨ph₂, hwalk⟩ := freewalk_ok (has_get_of_leaf_none fun u hu => by
      rw [hleaf u hu]
      split
      · rfl
      · exact hrest u hu (by omega)) (hacct.ram hfree hram houts).2 ph₁
    rw [← hcount] at hun
    exact ⟨ph₂, bind_eq_ok.2 ⟨_, hun, hwalk⟩⟩
  · rw [if_neg hpos]
    refine freewalk_ok (has_get_of_leaf_none fun u hu => hrest u hu ?_) hram ph
    obtain rfl : sz = 0 := by omega
    simp [npages, pgsize]

theorem uvmfree_zero_ok (hnull : pt.isNull = false) (hnone : ∀ u < nvpn, pt.leaf u = none)
    (hfree : ∀ f ∈ ph.freelist, RamPage f) (hram : ∀ f ∈ pt.pages, RamPage f) :
    ∃ ph', uvmfree pt ph 0 = .ok ph' :=
  uvmfree_ok hnull (Nat.zero_le _) (fun u hu => absurd hu (by simp [npages, pgsize]))
    (fun u hu _ => hnone u hu) hfree hram

/-! ## The page table of a process -/

/-- What `proc_pagetable` maps: the trampoline, and the trapframe in the page `tf`. -/
def fixedLeaf (tf u : Nat) : Option Nat :=
  if u = trampolineVpn then some (leafWord trampolineCode (pteR ||| pteX))
  else if u = trapframeVpn then some (leafWord tf (pteR ||| pteW)) else none

theorem fixedLeaf_trampoline (tf : Nat) :
    fixedLeaf tf trampolineVpn = some (leafWord trampolineCode (pteR ||| pteX)) := if_pos rfl

theorem fixedLeaf_trapframe (tf : Nat) :
    fixedLeaf tf trapframeVpn = some (leafWord tf (pteR ||| pteW)) := by
  rw [fixedLeaf, if_neg (by decide), if_pos rfl]

theorem fixedLeaf_heap {tf : Nat} (h : u < trapframeVpn) : fixedLeaf tf u = none := by
  have hlt : trapframeVpn < trampolineVpn := by decide
  rw [fixedLeaf, if_neg (by omega), if_neg (by omega)]

theorem unmappable_trampoline : Unmappable false (leafWord trampolineCode (pteR ||| pteX)) :=
  ⟨by decide, (nomatch ·)⟩

theorem uvmunmap_one (ph : Phys) {w : Nat} (hnull : pt.isNull = false) (hv : v < maxvpn)
    (hleaf : pt.leaf v = some w) (hw : Unmappable false w) :
    ∃ pt' ph', uvmunmap pt ph (v * pgsize) 1 false = .ok (pt', ph') ∧ Acct pt ph pt' ph' [] [] ∧
      ∀ u < nvpn, pt'.leaf u = if u = v then none else pt.leaf u := by
  obtain ⟨⟨pt', ph'⟩, hun⟩ := uvmunmap_ok false (v := v) (n := 1) ph hnull (by omega)
    fun u h1 h2 => ⟨w, by rwa [show u = v by omega], hw⟩
  have hroom : v * pgsize + 1 * pgsize < 2 ^ 64 := by
    have hlt := mul_lt_maxva hv
    have hmax := maxva_room
    omega
  obtain ⟨hacct, -, hl⟩ := uvmunmap_eq_ok hroom hun
  refine ⟨pt', ph', hun, hacct, fun u hu => ?_⟩
  rw [hl u hu]
  by_cases h : u = v
  · rw [if_pos h, if_pos (by omega)]
  · rw [if_neg h, if_neg (by omega)]

theorem procFreepagetable_ok {tf : Nat} (hnull : pt.isNull = false)
    (hsz : npages sz ≤ trapframeVpn) (hle : sz ≤ maxva) (hheap : ∀ u < npages sz, HeapPage pt u)
    (htf : RamPage tf) (hrest : ∀ u < nvpn, npages sz ≤ u → pt.leaf u = fixedLeaf tf u)
    (hfree : ∀ f ∈ ph.freelist, RamPage f) (hram : ∀ f ∈ pt.pages, RamPage f) :
    ∃ ph', procFreepagetable pt ph sz = .ok ph' := by
  have hlt : trapframeVpn < trampolineVpn := by decide
  have htram : pt.leaf trampolineVpn = some (leafWord trampolineCode (pteR ||| pteX)) := by
    rw [hrest _ (by decide) (by omega), fixedLeaf_trampoline]
  obtain ⟨pt₁, ph₁, h₁, hacct₁, hleaf₁⟩ := uvmunmap_one ph hnull (by decide) htram
    unmappable_trampoline
  have htrap : pt₁.leaf trapframeVpn = some (leafWord tf (pteR ||| pteW)) := by
    rw [hleaf₁ _ (by decide), if_neg (by omega), hrest _ (by decide) (by omega),
      fixedLeaf_trapframe]
  obtain ⟨pt₂, ph₂, h₂, hacct₂, hleaf₂⟩ := uvmunmap_one ph₁ (hacct₁.null.trans hnull) (by decide)
    htrap (unmappable_leafWord htf (by decide) (by decide))
  have hacct := hacct₁.trans hacct₂
  have hmax : maxvpn ≤ nvpn := by decide
  have hvpn := npages_le hle
  have hheap₂ : ∀ u < npages sz, HeapPage pt₂ u := by
    intro u hu
    obtain ⟨f, hf, hl⟩ := hheap u hu
    refine ⟨f, hf, ?_⟩
    rw [hleaf₂ u (by omega), if_neg (by omega), hleaf₁ u (by omega), if_neg (by omega), hl]
  have hrest₂ : ∀ u < nvpn, npages sz ≤ u → pt₂.leaf u = none := by
    intro u hu hge
    rw [hleaf₂ u hu]
    split
    · rfl
    rename_i hne
    rw [hleaf₁ u hu]
    split
    · rfl
    rename_i hne'
    rw [hrest u hu hge, fixedLeaf, if_neg hne', if_neg hne]
  obtain ⟨hfree₂, hram₂⟩ := hacct.ram hfree hram (by simp)
  obtain ⟨ph₃, h₃⟩ := uvmfree_ok (hacct.null.trans hnull) hle hheap₂ hrest₂ hfree₂ hram₂
  exact ⟨ph₃, bind_eq_ok.2 ⟨_, h₁, bind_eq_ok.2 ⟨_, h₂, h₃⟩⟩⟩

theorem procPagetable_ok (hfree : ∀ f ∈ ph.freelist, RamPage f) (tf : Nat) :
    ∃ r, procPagetable ph tf = .ok r := by
  unfold procPagetable
  cases hcreate : uvmcreate ph with
  | none => exact ⟨_, rfl⟩
  | some q =>
    obtain ⟨pt₀, ph₀⟩ := q
    obtain ⟨hnull, hnone, hcount⟩ := uvmcreate_eq_some hcreate
    have hsrc : ∀ f, 0 < ph₀.freelist.count f + pt₀.pages.count f → RamPage f := fun f hpos =>
      hfree f (count_pos_iff.1 (by rw [hcount f]; exact hpos))
    have hfree₀ : ∀ f ∈ ph₀.freelist, RamPage f := fun f hf =>
      hsrc f (by have := count_pos_iff.2 hf; omega)
    have hram₀ : ∀ f ∈ pt₀.pages, RamPage f := fun f hf =>
      hsrc f (by have := count_pos_iff.2 hf; omega)
    obtain ⟨⟨ok₁, pt₁, ph₁⟩, hmap₁⟩ := mappages_ok ph₀ trampolineCode (pteR ||| pteX) hnull
      (show trampolineVpn < maxvpn by decide) (hnone _)
    obtain ⟨-, -, hacct₁, -, hno₁⟩ := mappages_page (Nat.mul_mod_left _ _) (by decide) hmap₁
    obtain ⟨hfree₁, hram₁⟩ := hacct₁.ram hfree₀ hram₀ (by simp)
    have hnull₁ := hacct₁.null.trans hnull
    cases ok₁ with
    | false =>
      obtain ⟨ph₂, h₂⟩ := uvmfree_zero_ok hnull₁
        (fun u _ => (leaf_congr ((hno₁ rfl).2 u)).trans (hnone u)) hfree₁ hram₁
      exact ⟨_, bind_eq_ok.2 ⟨_, hmap₁, bind_eq_ok.2 ⟨_, h₂, rfl⟩⟩⟩
    | true =>
      obtain ⟨-, -, -, hleaf₁⟩ := mappages_leaf (by decide) hmap₁
      obtain ⟨⟨ok₂, pt₂, ph₂⟩, hmap₂⟩ := mappages_ok ph₁ tf (pteR ||| pteW) hnull₁
        (show trapframeVpn < maxvpn by decide)
        (by rw [hleaf₁ _ (by decide), if_neg (by decide), hnone])
      obtain ⟨-, -, hacct₂, -, hno₂⟩ := mappages_page (Nat.mul_mod_left _ _) (by decide) hmap₂
      obtain ⟨hfree₂, hram₂⟩ := hacct₂.ram hfree₁ hram₁ (by simp)
      cases ok₂ with
      | true => exact ⟨_, bind_eq_ok.2 ⟨_, hmap₁, bind_eq_ok.2 ⟨_, hmap₂, rfl⟩⟩⟩
      | false =>
        -- the trampoline is taken out again
        have hleaf₂ : ∀ u < nvpn, pt₂.leaf u = if u = trampolineVpn then
            some (leafWord trampolineCode (pteR ||| pteX)) else none := by
          intro u hu
          rw [leaf_congr ((hno₂ rfl).2 u), hleaf₁ u hu, hnone]
        obtain ⟨pt₃, ph₃, h₃, hacct₃, hleaf₃⟩ := uvmunmap_one ph₂
          (hacct₂.null.trans hnull₁) (show trampolineVpn < maxvpn by decide)
          ((hleaf₂ _ (by decide)).trans (if_pos rfl)) unmappable_trampoline
        obtain ⟨hfree₃, hram₃⟩ := hacct₃.ram hfree₂ hram₂ (by simp)
        obtain ⟨ph₄, h₄⟩ := uvmfree_zero_ok
          (hacct₃.null.trans (hacct₂.null.trans hnull₁)) (fun u hu => by
            rw [hleaf₃ u hu, hleaf₂ u hu]
            split
            · rfl
            · rfl) hfree₃ hram₃
        exact ⟨_, bind_eq_ok.2 ⟨_, hmap₁, bind_eq_ok.2 ⟨_, hmap₂, bind_eq_ok.2 ⟨_, h₃,
          bind_eq_ok.2 ⟨_, h₄, rfl⟩⟩⟩⟩⟩

end Xv6
