/-
Taking page tables down: `freewalk`, `uvmfree`, and the page table of a process from
`proc_pagetable` to `proc_freepagetable`.
-/
import Xv6.Lib.Listing
import Xv6.Vm.Spec

namespace Xv6

open PageTable List Radix.Table
open Run (bind_eq_ok)

variable {n sz tf : Nat} {t : Radix.Table Nat l}

variable {l : Nat} {pt : PageTable} {ph ph' : Phys}

/-! ## freewalk -/

theorem freewalkScan_eq_ok {e : Nat → Nat} :
    freewalkScan e n = .ok () ↔ ∀ i < n, has (e i) pteV = false := by
  induction n with
  | zero => simp [freewalkScan]
  | succ n ih =>
    rw [freewalkScan, bind_eq_ok]
    constructor
    · rintro ⟨_, hn, hlast⟩ i hi
      rcases Nat.lt_succ_iff_lt_or_eq.1 hi with hlt | rfl
      · exact ih.1 hn i hlt
      · by_contra hv
        rw [Bool.not_eq_false] at hv
        rw [if_pos hv] at hlast
        split at hlast <;> cases hlast
    · intro h
      refine ⟨(), ih.2 fun i hi => h i (by omega), ?_⟩
      rw [if_neg (by simp [h n (by omega)])]

theorem freewalkLoop_eq_ok {c : Nat → Radix.Table Nat l}
    (hc : ∀ i ph ph', freewalk (c i) ph = .ok ph' →
      (∀ f, ph'.freelist.count f = ph.freelist.count f + ((c i).pages 512).count f) ∧
        (∀ k, has ((c i).get 512 k) pteV = false) ∧ ∀ f ∈ (c i).pages 512, RamPage f)
    (h : freewalkLoop (fun i ph => freewalk (c i) ph) n ph = .ok ph') : (∀ f, ph'.freelist.count f =
      ph.freelist.count f + ((List.range n).flatMap fun i => (c i).pages 512).count f) ∧
      (∀ i < n, ∀ k, has ((c i).get 512 k) pteV = false) ∧
      ∀ i < n, ∀ f ∈ (c i).pages 512, RamPage f := by
  induction n generalizing ph' with
  | zero => cases h; simp
  | succ n ih =>
    obtain ⟨ph₁, h₁, h₂⟩ := bind_eq_ok.1 h
    obtain ⟨hcount, hval, hram⟩ := ih h₁
    obtain ⟨hcount', hval', hram'⟩ := hc n ph₁ ph' h₂
    refine ⟨fun f => ?_, fun i hi => ?_, fun i hi => ?_⟩
    · rw [hcount', hcount, range_succ, flatMap_append, count_append,
        flatMap_singleton, Nat.add_assoc]
    · rcases Nat.lt_succ_iff_lt_or_eq.1 hi with hlt | rfl
      · exact hval i hlt
      · exact hval'
    · rcases Nat.lt_succ_iff_lt_or_eq.1 hi with hlt | rfl
      · exact hram i hlt
      · exact hram'

theorem freewalk_eq_ok (h : freewalk t ph = .ok ph') :
    (∀ f, ph'.freelist.count f = ph.freelist.count f + (t.pages 512).count f) ∧
      (∀ k, has (t.get 512 k) pteV = false) ∧ ∀ f ∈ t.pages 512, RamPage f := by
  induction t generalizing ph ph' with
  | absent => cases h; simp [Radix.Table.pages, Radix.Table.get]
  | page f e =>
    obtain ⟨_, hscan, hfree⟩ := bind_eq_ok.1 h
    obtain ⟨hram, hlist⟩ := kfree_eq_ok hfree
    refine ⟨fun g => ?_, fun k => freewalkScan_eq_ok.1 hscan _ (Nat.mod_lt _ (by decide)), ?_⟩
    · rw [hlist]
      simp only [Radix.Table.pages, count_cons, count_nil, Nat.zero_add]
    · simpa [Radix.Table.pages] using hram
  | dir f c ih =>
    obtain ⟨ph₁, hloop, hfree⟩ := bind_eq_ok.1 h
    obtain ⟨hcount, hval, hram⟩ := freewalkLoop_eq_ok (fun i ph ph' hi => ih i hi) hloop
    obtain ⟨hroot, hlist⟩ := kfree_eq_ok hfree
    refine ⟨fun g => ?_, fun k => hval _ (Nat.mod_lt _ (by decide)) k, ?_⟩
    · rw [hlist, count_cons, hcount]
      simp only [Radix.Table.pages, count_append, count_cons, count_nil,
        Nat.zero_add, Nat.add_assoc]
    · intro g hg
      simp only [Radix.Table.pages, mem_append, mem_flatMap, mem_range,
        mem_singleton] at hg
      rcases hg with ⟨i, hi, hmem⟩ | rfl
      · exact hram i hi g hmem
      · exact hroot

theorem freewalk_ok (hval : ∀ k, has (t.get 512 k) pteV = false)
    (hram : ∀ f ∈ t.pages 512, RamPage f) (ph : Phys) : ∃ ph', freewalk t ph = .ok ph' := by
  induction t generalizing ph with
  | absent => exact ⟨ph, rfl⟩
  | page f e =>
    have hscan : freewalkScan e 512 = .ok () := by
      refine freewalkScan_eq_ok.2 fun i hi => ?_
      have := hval i
      rwa [Radix.Table.get, Radix.Table.digit, pow_zero, Nat.div_one, Nat.mod_eq_of_lt hi] at this
    exact ⟨_, bind_eq_ok.2 ⟨(), hscan, kfree_of_ram (hram f (by simp [Radix.Table.pages]))⟩⟩
  | @dir l f c ih =>
    have hchild : ∀ i < 512, ∀ ph, ∃ ph', freewalk (c i) ph = .ok ph' := by
      intro i hi ph
      refine ih i (fun k => ?_) (fun g hg => hram g ?_) ph
      · -- the key with digit `i` on top leads into this table
        have hpos : 0 < 512 ^ (l + 1) := Nat.pow_pos (by decide)
        have hkey := hval (k % 512 ^ (l + 1) + 512 ^ (l + 1) * i)
        have hdigit : Radix.Table.digit 512 (l + 1) (k % 512 ^ (l + 1) + 512 ^ (l + 1) * i) = i := by
          rw [Radix.Table.digit, Nat.add_mul_div_left _ _ hpos,
            Nat.div_eq_of_lt (Nat.mod_lt _ hpos), Nat.zero_add, Nat.mod_eq_of_lt hi]
        rw [Radix.Table.get, hdigit] at hkey
        have hsame : (c i).get 512 (k % 512 ^ (l + 1) + 512 ^ (l + 1) * i) = (c i).get 512 k :=
          get_congr 512 (c i) (by simp)
        rwa [hsame] at hkey
      · simp only [Radix.Table.pages, mem_append, mem_flatMap, mem_range]
        exact .inl ⟨i, hi, hg⟩
    have hloop : ∀ n ≤ 512, ∃ ph', freewalkLoop (fun i ph => freewalk (c i) ph) n ph = .ok ph' := by
      intro n
      induction n with
      | zero => exact fun _ => ⟨ph, rfl⟩
      | succ n ihn =>
        intro hn
        obtain ⟨ph₁, h₁⟩ := ihn (by omega)
        obtain ⟨ph₂, h₂⟩ := hchild n (by omega) ph₁
        exact ⟨ph₂, bind_eq_ok.2 ⟨ph₁, h₁, h₂⟩⟩
    obtain ⟨ph₁, h₁⟩ := hloop 512 le_rfl
    exact ⟨_, bind_eq_ok.2 ⟨ph₁, h₁, kfree_of_ram (hram f (by simp [Radix.Table.pages]))⟩⟩

theorem uvmfree_eq_ok (hsz : sz ≤ maxva) (h : uvmfree pt ph sz = .ok ph') :
    (∀ f, ph'.freelist.count f =
      ph.freelist.count f + (pt.frames (List.range' 0 (npages sz))).count f + pt.pages.count f) ∧
      (∀ u < npages sz, ∃ w, pt.leaf u = some w ∧ RamPage (pte2pa w)) ∧
      (∀ u < nvpn, npages sz ≤ u → pt.leaf u = none) ∧ ∀ f ∈ pt.pages, RamPage f := by
  unfold uvmfree at h
  by_cases hpos : sz > 0
  · rw [if_pos hpos] at h
    obtain ⟨⟨pt₁, ph₁⟩, hun, hwalk⟩ := bind_eq_ok.1 h
    have hmax := maxva_room
    rw [pgroundup_eq (by omega), Nat.mul_div_cancel _ (by decide : 0 < pgsize)] at hun
    have hroom : 0 * pgsize + npages sz * pgsize < 2 ^ 64 := by
      have hle := mul_le_maxva (npages_le hsz)
      omega
    obtain ⟨hacct, hpages, hleaf⟩ := uvmunmap_eq_ok hroom hun
    obtain ⟨hcount, hval, hram⟩ := freewalk_eq_ok hwalk
    rw [Nat.zero_add] at hpages hleaf
    have hsame : ∀ f, pt₁.pages.count f + ph₁.freelist.count f =
        ph.freelist.count f + (pt.frames (List.range' 0 (npages sz))).count f + pt.pages.count f := by
      intro f
      have := hacct.cons f
      rw [if_pos rfl, count_nil] at this
      omega
    refine ⟨fun f => ?_, fun u hu => ?_, fun u hu hge => ?_, fun f hf => ?_⟩
    · have h1 := hcount f
      have h2 := hsame f
      unfold PageTable.pages at h2 ⊢
      omega
    · obtain ⟨-, w, hw, -, hr⟩ := hpages u (Nat.zero_le _) hu
      exact ⟨w, hw, hr rfl⟩
    · have hnone := hleaf u hu
      rw [if_neg (by omega)] at hnone
      rw [← hnone, leaf_eq_none]
      exact hval u
    · apply hram f
      have hmono := hacct.mono f
      have := count_pos_iff.2 hf
      exact count_pos_iff.1 (by unfold PageTable.pages at *; omega)
  · rw [if_neg hpos] at h
    obtain rfl : sz = 0 := by omega
    obtain ⟨hcount, hval, hram⟩ := freewalk_eq_ok h
    refine ⟨fun f => ?_, fun u hu => ?_, fun u hu _ => ?_, hram⟩
    · simpa [PageTable.frames, npages, pgsize, PageTable.pages] using hcount f
    · exact absurd hu (by simp [npages, pgsize])
    · exact leaf_eq_none.2 (hval u)

/-! ## The page table of a process -/

/-- The page numbers of the trampoline and of the trapframe. -/
def trampolineVpn : Nat := vpn trampoline
def trapframeVpn : Nat := vpn trapframe

theorem trampoline_eq : trampoline = trampolineVpn * pgsize := by decide
theorem trapframe_eq : trapframe = trapframeVpn * pgsize := by decide

theorem ram_length_le {frames : List Nat} (hnd : frames.Nodup) (hram : ∀ f ∈ frames, RamPage f) :
    frames.length ≤ phystop / pgsize := by
  have hinj : (frames.map (· / pgsize)).Nodup := by
    refine List.Nodup.map_on (fun f hf g hg heq => ?_) hnd
    obtain ⟨hf', -, -⟩ := hram f hf
    obtain ⟨hg', -, -⟩ := hram g hg
    have h1 := Nat.div_add_mod f pgsize
    have h2 := Nat.div_add_mod g pgsize
    rw [heq] at h1
    omega
  have hlt : ∀ x ∈ frames.map (· / pgsize), x < phystop / pgsize := by
    intro x hx
    obtain ⟨f, hf, rfl⟩ := mem_map.1 hx
    obtain ⟨hmod, -, hhi⟩ := hram f hf
    unfold phystop kernbase pgsize at *
    omega
  have hle := Listing.length_le_of_lt hinj hlt
  rwa [length_map] at hle

theorem ram_le_trapframeVpn : phystop / pgsize ≤ trapframeVpn := by decide

theorem procFreepagetable_eq_ok (hsz : sz ≤ maxva) (h : procFreepagetable pt ph sz = .ok ph') :
    (∀ f, ph'.freelist.count f =
      ph.freelist.count f + (pt.frames (List.range' 0 (npages sz))).count f + pt.pages.count f) ∧
      (∀ u < npages sz, u < trapframeVpn ∧ ∃ w, pt.leaf u = some w ∧ RamPage (pte2pa w)) ∧
      (∀ u < nvpn, npages sz ≤ u → u ≠ trampolineVpn → u ≠ trapframeVpn → pt.leaf u = none) ∧
      ∀ f ∈ pt.pages, RamPage f := by
  obtain ⟨⟨pt₁, ph₁⟩, h₁, h⟩ := bind_eq_ok.1 h
  obtain ⟨⟨pt₂, ph₂⟩, h₂, h⟩ := bind_eq_ok.1 h
  rw [trampoline_eq] at h₁
  rw [trapframe_eq] at h₂
  obtain ⟨hacct₁, -, hleaf₁⟩ := uvmunmap_eq_ok (by decide) h₁
  obtain ⟨hacct₂, -, hleaf₂⟩ := uvmunmap_eq_ok (by decide) h₂
  obtain ⟨hcount, hheap, hrest, hram⟩ := uvmfree_eq_ok hsz h
  have hleaf : ∀ u < nvpn, pt₂.leaf u =
      if u = trampolineVpn ∨ u = trapframeVpn then none else pt.leaf u := by
    intro u hu
    rw [hleaf₂ u hu, hleaf₁ u hu]
    by_cases ha : u = trampolineVpn
    · rw [if_pos (Or.inl ha)]
      split
      · rfl
      · rw [if_pos (by omega)]
    · by_cases hb : u = trapframeVpn
      · rw [if_pos (Or.inr hb), if_pos (by omega)]
      · rw [if_neg (by omega), if_neg (by omega), if_neg (by omega)]
  have hno : ∀ u < nvpn, pt₂.leaf u ≠ none → pt₂.leaf u = pt.leaf u := by
    intro u hu hne
    rw [hleaf u hu] at hne ⊢
    split at hne
    · exact absurd rfl hne
    · rw [if_neg (by assumption)]
  have hheapvpn : ∀ u < npages sz, u < nvpn := by
    intro u hu
    exact lt_nvpn (lt_of_lt_of_le hu (npages_le hsz))
  have hframes : pt₂.frames (List.range' 0 (npages sz)) = pt.frames (List.range' 0 (npages sz)) := by
    apply map_congr_left
    intro u hu
    rw [mem_range', Nat.zero_add] at hu
    obtain ⟨w, hw, -⟩ := hheap u hu.2
    have hold := hno u (hheapvpn u hu.2) (by rw [hw]; simp)
    rw [hw] at hold
    rw [(leaf_eq_some.1 hw).1, (leaf_eq_some.1 hold.symm).1]
  refine ⟨fun f => ?_, fun u hu => ?_, fun u hu hge ht hf => ?_, fun f hf => ?_⟩
  · have hc := hcount f
    have hc₁ := hacct₁.cons f
    have hc₂ := hacct₂.cons f
    rw [hframes] at hc
    simp only [Bool.false_eq_true, if_false] at hc₁ hc₂
    omega
  · obtain ⟨w, hw, hr⟩ := hheap u hu
    refine ⟨?_, w, by rw [← hno u (hheapvpn u hu) (by rw [hw]; simp), hw], hr⟩
    -- the heap does not reach the pages that were unmapped first
    by_contra hge
    have hmem : trapframeVpn < npages sz := by omega
    obtain ⟨w', hw', -⟩ := hheap trapframeVpn hmem
    rw [hleaf _ (by decide)] at hw'
    cases hw'
  · have := hleaf u hu
    rw [if_neg (by tauto), hrest u hu hge] at this
    exact this.symm
  · apply hram f
    have h1 := hacct₁.mono f
    have h2 := hacct₂.mono f
    have := count_pos_iff.2 hf
    exact count_pos_iff.1 (by omega)

theorem uvmfree_zero_count (h : uvmfree pt ph 0 = .ok ph') (f : Nat) :
    ph'.freelist.count f = ph.freelist.count f + pt.pages.count f := by
  have hc := (uvmfree_eq_ok (Nat.zero_le _) h).1 f
  simpa [PageTable.frames, npages, pgsize] using hc

theorem uvmcreate_eq_some (h : uvmcreate ph = some (pt, ph')) :
    pt.isNull = false ∧ (∀ v, pt.leaf v = none) ∧
      ∀ f, ph.freelist.count f = ph'.freelist.count f + pt.pages.count f := by
  obtain ⟨⟨root, ph₁⟩, halloc, heq⟩ := Option.map_eq_some_iff.1 h
  cases heq
  refine ⟨rfl, fun v => leaf_eq_none.2 ?_, fun f => ?_⟩
  · rw [PageTable.entry, get_empty, has_zero]
  · rw [kalloc_eq_some halloc, PageTable.pages, pages_empty]
    simp only [count_cons, count_nil]
    omega

theorem procPagetable_eq_ok (h : procPagetable ph tf = .ok (pt, ph')) :
    (pt.isNull = true → pt = .absent ∧ ∀ f, ph'.freelist.count f = ph.freelist.count f) ∧
      (pt.isNull = false →
        (∀ f, ph.freelist.count f = ph'.freelist.count f + pt.pages.count f) ∧
        ∀ u < nvpn, pt.leaf u =
          if u = trampolineVpn then some (leafWord trampolineCode (pteR ||| pteX))
          else if u = trapframeVpn then some (leafWord tf (pteR ||| pteW)) else none) := by
  unfold procPagetable at h
  cases hcreate : uvmcreate ph with
  | none =>
    rw [hcreate] at h
    cases h
    exact ⟨fun _ => ⟨rfl, fun _ => rfl⟩, fun h => by simp [PageTable.isNull] at h⟩
  | some q =>
    rw [hcreate] at h
    obtain ⟨hnull₀, hleaf₀, hcount₀⟩ := uvmcreate_eq_some hcreate
    obtain ⟨⟨ok₁, pt₁, ph₁⟩, hmap₁, h⟩ := bind_eq_ok.1 h
    rw [trampoline_eq] at hmap₁
    have hacct₁ := (mappages_page (Nat.mul_mod_left _ _) (by decide) hmap₁).2.2.1
    cases ok₁ with
    | false =>
      obtain ⟨ph₂, hfree, h⟩ := bind_eq_ok.1 h
      cases h
      refine ⟨fun _ => ⟨rfl, fun f => ?_⟩, fun h => by simp [PageTable.isNull] at h⟩
      have h1 := hcount₀ f
      have h2 := hacct₁.cons f
      have h3 := uvmfree_zero_count hfree f
      omega
    | true =>
      obtain ⟨-, -, -, hleaf₁⟩ := mappages_leaf (by decide) hmap₁
      obtain ⟨⟨ok₂, pt₂, ph₂⟩, hmap₂, h⟩ := bind_eq_ok.1 h
      rw [trapframe_eq] at hmap₂
      have hacct₂ := (mappages_page (Nat.mul_mod_left _ _) (by decide) hmap₂).2.2.1
      cases ok₂ with
      | false =>
        obtain ⟨⟨pt₃, ph₃⟩, hun, h⟩ := bind_eq_ok.1 h
        obtain ⟨ph₄, hfree, h⟩ := bind_eq_ok.1 h
        cases h
        refine ⟨fun _ => ⟨rfl, fun f => ?_⟩, fun h => by simp [PageTable.isNull] at h⟩
        rw [trampoline_eq] at hun
        have hacct₃ := (uvmunmap_eq_ok (by decide) hun).1
        have h1 := hcount₀ f
        have h2 := hacct₁.cons f
        have h3 := hacct₂.cons f
        have h4 := hacct₃.cons f
        have h5 := uvmfree_zero_count hfree f
        simp only [Bool.false_eq_true, if_false] at h2 h3 h4
        omega
      | true =>
        cases h
        obtain ⟨-, -, -, hleaf₂⟩ := mappages_leaf (by decide) hmap₂
        refine ⟨fun hn => ?_, fun _ => ⟨fun f => ?_, fun u hu => ?_⟩⟩
        · rw [hacct₂.null, hacct₁.null, hnull₀] at hn
          cases hn
        · have h1 := hcount₀ f
          have h2 := hacct₁.cons f
          have h3 := hacct₂.cons f
          omega
        · rw [hleaf₂ u hu, hleaf₁ u hu, hleaf₀]
          by_cases ha : u = trapframeVpn
          · rw [if_pos ha, if_neg (by rw [ha]; decide), if_pos ha]
          · rw [if_neg ha, if_neg ha]

theorem procPagetable_room (h : procPagetable ph tf = .ok (pt, ph')) :
    (pt.isNull = false → ph.freelist.length = ph'.freelist.length + 3) ∧
      (pt.isNull = true → ph.freelist.length < 3) := by
  unfold procPagetable uvmcreate at h
  cases halloc : kalloc ph with
  | none =>
    rw [halloc] at h
    cases h
    rw [kalloc_eq_none.1 halloc]
    decide
  | some q =>
    obtain ⟨root, ph₀⟩ := q
    rw [halloc] at h
    have hlen := congrArg List.length (kalloc_eq_some halloc)
    rw [length_cons] at hlen
    obtain ⟨⟨ok₁, pt₁, ph₁⟩, hmap₁, h⟩ := bind_eq_ok.1 h
    obtain ⟨htrue₁, hfalse₁⟩ := mappages_room (by decide) (by decide) hmap₁
    have hmiss : PageTable.missing (Radix.Table.empty root 2) trampoline = 2 :=
      missing_empty 512 _ _ _
    dsimp only at htrue₁ hfalse₁
    cases ok₁ with
    | false =>
      obtain ⟨ph₂, -, h⟩ := bind_eq_ok.1 h
      cases h
      have := hfalse₁ rfl
      exact ⟨(nomatch ·), fun _ => by omega⟩
    | true =>
      obtain ⟨⟨ok₂, pt₂, ph₂⟩, hmap₂, h⟩ := bind_eq_ok.1 h
      obtain ⟨htrue₂, hfalse₂⟩ := mappages_room (by decide) (by decide) hmap₂
      -- both pages have their entries on the same page of the table
      have hmiss₂ : pt₁.missing trapframe = 0 :=
        (missing_congr 512 pt₁ (by decide)).trans (htrue₁ rfl).2
      have h1 := (htrue₁ rfl).1
      cases ok₂ with
      | false =>
        have := hfalse₂ rfl
        omega
      | true =>
        have h2 := (htrue₂ rfl).1
        cases h
        refine ⟨fun _ => by omega, fun hn => ?_⟩
        have hnull₁ := (mappages_page (by decide) (by decide) hmap₁).2.2.1.null
        have hnull₂ := (mappages_page (by decide) (by decide) hmap₂).2.2.1.null
        rw [hnull₂, hnull₁] at hn
        cases hn

end Xv6
