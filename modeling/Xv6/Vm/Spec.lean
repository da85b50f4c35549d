/-
What the functions of `vm.c` do when they return: the entries they change, and the account of
the frames they take from and give back to the free list.
-/
import Xv6.Lib.Run
import Xv6.Vm.Basic

namespace Xv6

open PageTable List
open Run (bind_eq_ok)

variable {fresh lent : List Nat} {a mem u w : Nat} {new₀ pt pt' : PageTable} {ph ph' ph₀ ph₂ : Phys}

variable {doFree ok shared : Bool} {f m n newsz oldsz pa sz v va : Nat} {new new' old : PageTable}

def maxvpn : Nat := maxva / pgsize

/-- The number of entries a table has room for; those from `maxvpn` on are never used. -/
def nvpn : Nat := 512 ^ 3

theorem lt_nvpn (h : v < maxvpn) : v < nvpn := lt_of_lt_of_le h (by decide)

theorem maxvpn_mul : maxvpn * pgsize = maxva := by decide

theorem maxva_room : maxva + 2 * pgsize < 2 ^ 64 := by decide

theorem mul_le_maxva (h : v ≤ maxvpn) : v * pgsize ≤ maxva := by
  rw [← maxvpn_mul]
  exact Nat.mul_le_mul_right _ h

theorem add_page (v n : Nat) : (v + n) * pgsize + pgsize = (v + (n + 1)) * pgsize := by
  rw [← Nat.add_assoc, Nat.succ_mul]

theorem vpn_mul (v : Nat) : vpn (v * pgsize) = v := Nat.mul_div_cancel _ (by decide)

theorem mul_lt_maxva (h : v < maxvpn) : v * pgsize < maxva := by
  exact Nat.mul_lt_mul_of_pos_right h (by decide)

theorem room_of_lt (h : va < maxva) : va + pgsize ≤ 2 ^ 64 := by
  have := maxva_room
  omega

theorem mul_room (h : v < maxvpn) : v * pgsize + pgsize ≤ 2 ^ 64 :=
  room_of_lt (mul_lt_maxva h)

namespace PageTable

def entry (pt : PageTable) (v : Nat) : Nat := Radix.Table.get 512 pt v

theorem pte_eq (pt : PageTable) (va : Nat) : pt.pte va = pt.entry (vpn va) := rfl

theorem vpn_lt (h : va < maxva) : vpn va < maxvpn := by
  unfold vpn maxvpn maxva pgsize at *
  omega

theorem present_of_isNull (h : pt.isNull = false) : Radix.Table.Present 512 pt := by
  cases pt with
  | absent => simp [isNull] at h
  | dir f c => intro k; simp [Radix.Table.reaches]

theorem isNull_of_present (h : Radix.Table.Present 512 pt) : pt.isNull = false := by
  cases pt with
  | absent => simpa [Radix.Table.reaches] using h 0
  | dir f c => rfl

theorem isNull_setPte (pt : PageTable) (va w : Nat) : (pt.setPte va w).isNull = pt.isNull := by
  cases pt <;> rfl

theorem pages_setPte (pt : PageTable) (va w : Nat) : (pt.setPte va w).pages = pt.pages :=
  Radix.Table.pages_set 512 pt (vpn va) w

theorem reaches_setPte (pt : PageTable) (va w a : Nat) :
    (pt.setPte va w).reaches a = pt.reaches a :=
  Radix.Table.reaches_set 512 pt (vpn va) w 0 (vpn a)

theorem entry_setPte (w : Nat) (hr : pt.reaches va = true) (hva : va < maxva) (hv : v < nvpn) :
    (pt.setPte va w).entry v = if v = vpn va then w else pt.entry v := by
  by_cases h : v = vpn va
  · rw [if_pos h, h]
    exact Radix.Table.get_set_self 512 w hr
  · rw [if_neg h]
    apply Radix.Table.get_set_of_ne
    have hva' : vpn va < 512 ^ (2 + 1) := lt_nvpn (vpn_lt hva)
    have hv' : v < 512 ^ (2 + 1) := hv
    rw [Nat.mod_eq_of_lt hva', Nat.mod_eq_of_lt hv']
    exact Ne.symm h

/-- The address space as a partial map: the valid entries by page number. -/
def leaf (pt : PageTable) (v : Nat) : Option Nat :=
  if has (pt.entry v) pteV then some (pt.entry v) else none

theorem leaf_eq_some : pt.leaf v = some w ↔ pt.entry v = w ∧ has w pteV = true := by
  unfold leaf
  constructor
  · intro h
    split at h
    · cases h
      exact ⟨rfl, by assumption⟩
    · cases h
  · rintro ⟨rfl, h⟩
    rw [if_pos h]

theorem leaf_eq_none : pt.leaf v = none ↔ has (pt.entry v) pteV = false := by
  unfold leaf
  split <;> simp_all

theorem leaf_congr (h : pt'.entry v = pt.entry v) : pt'.leaf v = pt.leaf v := by
  unfold leaf
  rw [h]

theorem reaches_of_has (h : has (pt.pte va) m = true) : pt.reaches va = true := by
  by_contra hn
  have h0 : pt.pte va = 0 := Radix.Table.get_eq_zero 512 (Bool.eq_false_iff.2 hn)
  rw [h0, has_zero] at h
  cases h

end PageTable

/-! ## Accounts -/

/-- The account of frames between two states of a table and of physical memory: the table's
pages only grow, `ins` are the frames taken for something else, `outs` those given back. -/
structure Acct (pt : PageTable) (ph : Phys) (pt' : PageTable) (ph' : Phys)
    (ins outs : List Nat) : Prop where
  null : pt'.isNull = pt.isNull
  mono : ∀ f, pt.pages.count f ≤ pt'.pages.count f
  cons : ∀ f, ph.freelist.count f + pt.pages.count f + outs.count f =
    ins.count f + ph'.freelist.count f + pt'.pages.count f

/-- How often the frame is free or a page of the table. -/
def Phys.held (ph : Phys) (pt : PageTable) (f : Nat) : Nat :=
  ph.freelist.count f + pt.pages.count f

namespace Acct

variable {pt pt' pt'' : PageTable} {ph ph' ph'' : Phys} {ins ins' outs outs' : List Nat}

theorem refl (pt : PageTable) (ph : Phys) : Acct pt ph pt ph [] [] :=
  ⟨rfl, fun _ => le_rfl, fun _ => by simp⟩

theorem trans (h : Acct pt ph pt' ph' ins outs) (h' : Acct pt' ph' pt'' ph'' ins' outs') :
    Acct pt ph pt'' ph'' (ins ++ ins') (outs ++ outs') := by
  refine ⟨h'.null.trans h.null, fun f => (h.mono f).trans (h'.mono f), fun f => ?_⟩
  have h1 := h.cons f
  have h2 := h'.cons f
  simp only [count_append]
  omega

theorem cancel {xs : List Nat} (h : Acct pt ph pt' ph' (ins ++ xs) (outs ++ xs)) :
    Acct pt ph pt' ph' ins outs := by
  refine ⟨h.null, h.mono, fun f => ?_⟩
  have := h.cons f
  simp only [count_append] at this
  omega

theorem congr (h : Acct pt ph pt' ph' ins outs) (hi : ∀ f, ins'.count f = ins.count f)
    (ho : ∀ f, outs'.count f = outs.count f) : Acct pt ph pt' ph' ins' outs' :=
  ⟨h.null, h.mono, fun f => by rw [hi, ho]; exact h.cons f⟩

theorem of_freelist (h : Acct pt ph pt' ph' ins outs) (hfree : ph''.freelist = ph'.freelist) :
    Acct pt ph pt' ph'' ins outs :=
  ⟨h.null, h.mono, fun f => by rw [hfree]; exact h.cons f⟩

theorem setPte (h : Acct pt ph pt' ph' ins outs) (va w : Nat) :
    Acct pt ph (pt'.setPte va w) ph' ins outs := by
  refine ⟨(pt'.isNull_setPte va w).trans h.null, fun f => ?_, fun f => ?_⟩
  · rw [pages_setPte]; exact h.mono f
  · rw [pages_setPte]; exact h.cons f

end Acct

theorem acct_kalloc (h : kalloc ph = some (pa, ph')) : Acct pt ph pt ph' [pa] [] := by
  refine ⟨rfl, fun _ => le_rfl, fun f => ?_⟩
  rw [kalloc_eq_some h]
  simp only [count_cons]
  omega

theorem acct_kfree (h : kfree ph pa = .ok ph') : Acct pt ph pt ph' [] [pa] := by
  refine ⟨rfl, fun _ => le_rfl, fun f => ?_⟩
  rw [(kfree_eq_ok h).2]
  simp only [count_cons]
  omega

theorem acct_kfreeIf (h : kfreeIf doFree ph pa = .ok ph') :
    Acct pt ph pt ph' [] (if doFree then [pa] else []) := by
  cases doFree with
  | false => cases h; exact Acct.refl pt ph
  | true => exact acct_kfree h

/-! ## walk and mappages -/

theorem walk_false_eq_ok {r : Bool × PageTable × Phys} (h : walk pt ph va false = .ok r) :
    va < maxva ∧ pt.isNull = false ∧ r = (pt.reaches va, pt, ph) := by
  unfold walk at h
  split at h
  · cases h
  · split at h
    · cases h
    · rename_i hlt hnull
      cases h
      exact ⟨by omega, by simpa using hnull, rfl⟩

/-- The number of page-table pages that the path to `va` lacks. -/
def PageTable.missing (pt : PageTable) (va : Nat) : Nat := Radix.Table.missing 512 pt (vpn va)

theorem walk_true_eq_ok {found : Bool} (h : walk pt ph va true = .ok (found, pt', ph')) :
    va < maxva ∧ pt.isNull = false ∧ Acct pt ph pt' ph' [] [] ∧
      (∀ v, pt'.entry v = pt.entry v) ∧ (∀ a, pt.reaches a = true → pt'.reaches a = true) ∧
      (found = true → pt'.reaches va = true ∧
        ph.freelist.length = pt.missing va + ph'.freelist.length) ∧
      (found = false → ph'.freelist = [] ∧ ph.freelist.length < pt.missing va ∧
        0 < pt'.missing va) := by
  unfold walk at h
  split at h
  · cases h
  split at h
  · cases h
  rename_i hlt hnull
  have hpres := present_of_isNull (Bool.eq_false_iff.2 hnull)
  simp only [if_true, Except.ok.injEq] at h
  obtain ⟨hpres', hget, hmono, hreach, new, htake, hperm, hlen, hfail⟩ :=
    Radix.Table.grow_spec 512 (by decide) hpres (vpn va) ph h
  have hfree := freelist_of_takes htake
  have hlength := congrArg List.length hfree
  rw [length_append] at hlength
  refine ⟨by omega, by simpa using hnull, ⟨?_, fun f => ?_, fun f => ?_⟩, hget,
    fun a ha => hmono 0 (vpn a) ha, fun hf => ⟨?_, ?_⟩, fun hf => ⟨?_, ?_, (hfail hf).2.2⟩⟩
  · rw [isNull_of_present hpres', Bool.eq_false_iff.2 hnull]
  · have := hperm.count_eq f
    rw [count_append] at this
    exact (Nat.le_add_left _ _).trans this.ge
  · have hc : pt'.pages.count f = new.count f + pt.pages.count f := by
      rw [← count_append]; exact hperm.count_eq f
    have hcf := congrArg (List.count f) hfree
    rw [count_append] at hcf
    dsimp only at hcf
    omega
  · exact (hreach hf 0 (vpn va)).trans (by simp [Radix.Table.meet])
  · rw [hlength, hlen hf]
    rfl
  · exact kalloc_eq_none.1 (hfail hf).1
  · have h0 : ph'.freelist = [] := kalloc_eq_none.1 (hfail hf).1
    have := (hfail hf).2.1
    rw [h0, length_nil] at hlength
    unfold PageTable.missing
    omega

theorem pagesTo_page (hva : va % pgsize = 0) (hlt : va + pgsize ≤ 2 ^ 64) :
    pagesTo va (pgrounddown (word (va + pgsize - 1))) = 0 := by
  unfold pagesTo wsub pgrounddown word pgsize at *
  omega

def leafWord (pa perm : Nat) : Nat := pa2pte (word pa) ||| sext perm ||| pteV

theorem mappages_eq_ok {perm : Nat} (hva : va % pgsize = 0) (hlt : va + pgsize ≤ 2 ^ 64)
    (h : mappages pt ph va pgsize pa perm = .ok (ok, pt', ph')) :
    ∃ pt₁, walk pt ph va true = .ok (ok, pt₁, ph') ∧ (ok = false → pt' = pt₁) ∧
      (ok = true → has (pt₁.pte va) pteV = false ∧ pt' = pt₁.setPte va (leafWord pa perm)) := by
  unfold mappages at h
  dsimp only at h
  rw [pgrounddown_of_mod hva, pagesTo_page hva hlt] at h
  obtain ⟨⟨found, pt₁, ph₁⟩, hwalk, h⟩ := bind_eq_ok.1 h
  cases found with
  | false =>
    cases h
    exact ⟨_, hwalk, fun _ => rfl, nofun⟩
  | true =>
    obtain ⟨_, hreq, h⟩ := bind_eq_ok.1 h
    rw [require_eq_ok, Bool.not_eq_true'] at hreq
    cases h
    exact ⟨pt₁, hwalk, nofun, fun _ => ⟨hreq, rfl⟩⟩

theorem mappages_page {perm : Nat} (hva : va % pgsize = 0) (hlt : va + pgsize ≤ 2 ^ 64)
    (h : mappages pt ph va pgsize pa perm = .ok (ok, pt', ph')) :
    va < maxva ∧ pt.isNull = false ∧ Acct pt ph pt' ph' [] [] ∧
      (ok = true → has (pt.pte va) pteV = false ∧ ∀ v < nvpn,
        pt'.entry v = if v = vpn va then leafWord pa perm else pt.entry v) ∧
      (ok = false → ph'.freelist = [] ∧ ∀ v, pt'.entry v = pt.entry v) := by
  obtain ⟨pt₁, hwalk, hsame, hset⟩ := mappages_eq_ok hva hlt h
  obtain ⟨hlt', hnull, hacct, hentry, -, hfound, hnot⟩ := walk_true_eq_ok hwalk
  cases ok with
  | false =>
    obtain rfl := hsame rfl
    exact ⟨hlt', hnull, hacct, nofun, fun _ => ⟨(hnot rfl).1, hentry⟩⟩
  | true =>
    obtain ⟨hold, rfl⟩ := hset rfl
    refine ⟨hlt', hnull, hacct.setPte _ _, fun _ => ⟨?_, fun v hv => ?_⟩, nofun⟩
    · rwa [pte_eq, hentry] at hold
    · rw [entry_setPte _ (hfound rfl).1 hlt' hv, hentry]

theorem has_leafWord (f perm : Nat) : has (leafWord f perm) pteV = true := by
  rw [leafWord, has_or, show has pteV pteV = true by decide, Bool.or_true]

theorem mappages_entry {perm : Nat} (hv : v * pgsize + pgsize ≤ 2 ^ 64)
    (h : mappages pt ph (v * pgsize) pgsize pa perm = .ok (true, pt', ph')) :
    v < maxvpn ∧ Acct pt ph pt' ph' [] [] ∧ has (pt.entry v) pteV = false ∧
      ∀ u < nvpn, pt'.entry u = if u = v then leafWord pa perm else pt.entry u := by
  have hvpn := vpn_mul v
  obtain ⟨hlt, -, hacct, hok, -⟩ := mappages_page (Nat.mul_mod_left _ _) hv h
  obtain ⟨hold, hentry⟩ := hok rfl
  rw [hvpn] at hentry
  rw [pte_eq, hvpn] at hold
  exact ⟨hvpn ▸ vpn_lt hlt, hacct, hold, hentry⟩

theorem mappages_leaf {perm : Nat} (hv : v * pgsize + pgsize ≤ 2 ^ 64)
    (h : mappages pt ph (v * pgsize) pgsize pa perm = .ok (true, pt', ph')) :
    v < maxvpn ∧ Acct pt ph pt' ph' [] [] ∧ pt.leaf v = none ∧
      ∀ u < nvpn, pt'.leaf u = if u = v then some (leafWord pa perm) else pt.leaf u := by
  obtain ⟨hv', hacct, hold, hentry⟩ := mappages_entry hv h
  refine ⟨hv', hacct, leaf_eq_none.2 hold, fun u hu => ?_⟩
  by_cases huv : u = v
  · rw [if_pos huv, leaf_eq_some]
    exact ⟨by rw [hentry u hu, if_pos huv], has_leafWord _ _⟩
  · rw [if_neg huv]
    exact leaf_congr (by rw [hentry u hu, if_neg huv])

theorem PageTable.missing_le (h : pt.isNull = false) (va : Nat) : pt.missing va ≤ 2 := by
  cases pt with
  | absent => simp [isNull] at h
  | dir f c => exact Radix.Table.missing_le 512 (c _) (vpn va)

theorem mappages_room {perm : Nat} (hva : va % pgsize = 0) (hlt : va + pgsize ≤ 2 ^ 64)
    (h : mappages pt ph va pgsize pa perm = .ok (ok, pt', ph')) :
    (ok = true → ph.freelist.length = pt.missing va + ph'.freelist.length ∧
        pt'.missing va = 0) ∧
      (ok = false → ph.freelist.length < pt.missing va ∧ 0 < pt'.missing va) := by
  obtain ⟨pt₁, hwalk, hsame, hset⟩ := mappages_eq_ok hva hlt h
  obtain ⟨-, -, -, -, -, hfound, hnot⟩ := walk_true_eq_ok hwalk
  refine ⟨fun ho => ⟨(hfound ho).2, ?_⟩, fun ho => hsame ho ▸ (hnot ho).2⟩
  rw [(hset ho).2]
  exact (Radix.Table.missing_eq_zero 512).2 ((reaches_setPte pt₁ va _ va).trans (hfound ho).1)

theorem mappages_two {perm : Nat} (hva : va % pgsize = 0) (hlt : va + pgsize ≤ 2 ^ 64)
    (h2 : 2 ≤ ph.freelist.length) (h : mappages pt ph va pgsize pa perm = .ok (ok, pt', ph')) :
    ok = true ∧ ph.freelist.length ≤ ph'.freelist.length + 2 := by
  obtain ⟨htrue, hfalse⟩ := mappages_room hva hlt h
  have hle := missing_le (mappages_page hva hlt h).2.1 va
  cases ok with
  | false =>
    have := hfalse rfl
    omega
  | true =>
    have := (htrue rfl).1
    exact ⟨rfl, by omega⟩

theorem mappages_takes {perm : Nat} (hva : va % pgsize = 0) (hlt : va + pgsize ≤ 2 ^ 64)
    (h : mappages pt ph va pgsize pa perm = .ok (ok, pt', ph')) :
    ∃ fs, Radix.Table.Takes kalloc ph fs ph' := by
  obtain ⟨pt₁, hwalk, -, -⟩ := mappages_eq_ok hva hlt h
  obtain ⟨hlt', hnull, -⟩ := walk_true_eq_ok hwalk
  rw [walk, if_neg (by omega), hnull] at hwalk
  obtain ⟨-, -, -, -, new, htakes, -⟩ := Radix.Table.grow_spec 512 (by decide)
    (present_of_isNull hnull) (vpn va) ph (Except.ok.inj hwalk)
  exact ⟨new, htakes⟩

/-! ## uvmunmap and uvmdealloc -/

def PageTable.frames (pt : PageTable) (vs : List Nat) : List Nat :=
  vs.map fun v => pte2pa (pt.entry v)

theorem vpn_add_page (a : Nat) : vpn (a + pgsize) = vpn a + 1 := by
  unfold vpn pgsize
  omega

theorem frames_congr {vs : List Nat} (h : ∀ u ∈ vs, pt'.entry u = pt.entry u) :
    pt'.frames vs = pt.frames vs :=
  map_congr_left fun u hu => by rw [h u hu]

theorem mem_range' : u ∈ List.range' v n ↔ v ≤ u ∧ u < v + n := mem_range'_1

theorem uvmunmapLoop_succ (h : uvmunmapLoop doFree (n + 1) a pt ph = .ok (pt', ph')) :
    a < maxva ∧ has (pt.pte a) pteV = true ∧ pteFlags (pt.pte a) ≠ pteV ∧
      ∃ ph₁, kfreeIf doFree ph (pte2pa (pt.pte a)) = .ok ph₁ ∧
        uvmunmapLoop doFree n (a + pgsize) (pt.setPte a 0) ph₁ = .ok (pt', ph') := by
  obtain ⟨⟨found, _, _⟩, hwalk, h⟩ := bind_eq_ok.1 h
  obtain ⟨_, -, h⟩ := bind_eq_ok.1 h
  obtain ⟨_, hvalid, h⟩ := bind_eq_ok.1 h
  obtain ⟨_, hleaf, h⟩ := bind_eq_ok.1 h
  rw [require_eq_ok] at hvalid hleaf
  exact ⟨(walk_false_eq_ok hwalk).1, hvalid, bne_iff_ne.1 hleaf, bind_eq_ok.1 h⟩

theorem uvmunmapLoop_eq_ok (h : uvmunmapLoop doFree n a pt ph = .ok (pt', ph')) :
    Acct pt ph pt' ph' [] (if doFree then pt.frames (List.range' (vpn a) n) else []) ∧
      (∀ u, vpn a ≤ u → u < vpn a + n → u < maxvpn ∧ has (pt.entry u) pteV = true ∧
        pteFlags (pt.entry u) ≠ pteV ∧ (doFree = true → RamPage (pte2pa (pt.entry u)))) ∧
      ∀ u < nvpn, pt'.entry u = if vpn a ≤ u ∧ u < vpn a + n then 0 else pt.entry u := by
  induction n generalizing a pt ph with
  | zero =>
    cases h
    refine ⟨?_, fun u h1 h2 => by omega, fun u _ => by rw [if_neg (by omega)]⟩
    simpa [PageTable.frames] using Acct.refl _ _
  | succ n ih =>
    obtain ⟨hlt, hvalid, hleaf, ph₂, hfree, h⟩ := uvmunmapLoop_succ h
    have hr : pt.reaches a = true := reaches_of_has hvalid
    have hset : ∀ u < nvpn, (pt.setPte a 0).entry u = if u = vpn a then 0 else pt.entry u :=
      fun u hu => entry_setPte 0 hr hlt hu
    obtain ⟨hacct, hpages, hentry⟩ := ih h
    rw [vpn_add_page] at hacct hpages hentry
    have hkfree : Acct pt ph pt ph₂ [] (if doFree then [pte2pa (pt.pte a)] else []) :=
      acct_kfreeIf hfree
    have hstep := hkfree.setPte a 0
    have hfr : (pt.setPte a 0).frames (List.range' (vpn a + 1) n) =
        pt.frames (List.range' (vpn a + 1) n) := by
      apply frames_congr
      intro u hu
      rw [mem_range'] at hu
      rw [hset u (lt_nvpn (hpages u hu.1 hu.2).1), if_neg (by omega)]
    refine ⟨?_, fun u h1 h2 => ?_, fun u hu => ?_⟩
    · refine (hstep.trans hacct).congr (fun f => rfl) (fun f => ?_)
      cases doFree with
      | false => rfl
      | true =>
        simp only [hfr]
        rfl
    · by_cases hua : u = vpn a
      · subst hua
        refine ⟨vpn_lt hlt, hvalid, hleaf, fun hd => ?_⟩
        rw [hd] at hfree
        exact (kfree_eq_ok hfree).1
      · have hnext := hpages u (by omega) (by omega)
        rwa [hset u (lt_nvpn hnext.1), if_neg hua] at hnext
    · rw [hentry u hu, hset u hu]
      by_cases hua : u = vpn a
      · rw [if_neg (by omega), if_pos hua, if_pos (by omega)]
      · rw [if_neg hua]
        by_cases hin : vpn a + 1 ≤ u ∧ u < vpn a + 1 + n
        · rw [if_pos hin, if_pos (by omega)]
        · rw [if_neg hin, if_neg (by omega)]

theorem pageCount_pages (h : va + n * pgsize < 2 ^ 64) :
    pageCount va (word (va + n * pgsize)) = n := by
  rw [word_of_lt h]
  unfold pageCount pgsize at *
  split <;> omega

theorem uvmunmap_eq_ok (hlt : v * pgsize + n * pgsize < 2 ^ 64)
    (h : uvmunmap pt ph (v * pgsize) n doFree = .ok (pt', ph')) :
    Acct pt ph pt' ph' [] (if doFree then pt.frames (List.range' v n) else []) ∧
      (∀ u, v ≤ u → u < v + n → u < maxvpn ∧ ∃ w, pt.leaf u = some w ∧ pteFlags w ≠ pteV ∧
        (doFree = true → RamPage (pte2pa w))) ∧
      ∀ u < nvpn, pt'.leaf u = if v ≤ u ∧ u < v + n then none else pt.leaf u := by
  have hmod : v * pgsize % pgsize = 0 := Nat.mul_mod_left _ _
  unfold uvmunmap at h
  rw [if_neg (not_not.2 hmod), pageCount_pages hlt] at h
  obtain ⟨hacct, hpages, hentry⟩ := uvmunmapLoop_eq_ok h
  rw [vpn_mul] at hacct hpages hentry
  refine ⟨hacct, fun u h1 h2 => ?_, fun u hu => ?_⟩
  · obtain ⟨hu, hv, hfl, hram⟩ := hpages u h1 h2
    exact ⟨hu, _, leaf_eq_some.2 ⟨rfl, hv⟩, hfl, hram⟩
  · by_cases hin : v ≤ u ∧ u < v + n
    · rw [if_pos hin, leaf_eq_none, hentry u hu, if_pos hin, has_zero]
    · rw [if_neg hin]
      exact leaf_congr (by rw [hentry u hu, if_neg hin])

/-! ## Pages mapped to new frames -/

/-- The table `pt₀` has been filled: the pages `fresh`, which were not mapped, got new frames
with the permissions `perm`, the pages `lent`, which were not mapped either, got the entries
`word`, and nothing else is mapped or unmapped. -/
structure Filled (pt₀ : PageTable) (ph₀ : Phys) (fresh : List Nat) (perm : Nat → Nat)
    (lent : List Nat) (word : Nat → Nat) (pt : PageTable) (ph : Phys) : Prop where
  acct : Acct pt₀ ph₀ pt ph (pt.frames fresh) []
  unmapped : ∀ u, u ∈ fresh ∨ u ∈ lent → u < maxvpn ∧ pt₀.leaf u = none
  new : ∀ u ∈ fresh, ∃ f, RamPage f ∧ pt.leaf u = some (leafWord f (perm u))
  shared : ∀ u ∈ lent, pt.leaf u = some (word u)
  other : ∀ u < nvpn, u ∉ fresh → u ∉ lent → pt.leaf u = pt₀.leaf u
  nodup : (fresh ++ lent).Nodup

theorem RamPage.lt (h : RamPage f) : f < 2 ^ 64 := by
  have := h.2.2
  unfold phystop kernbase at this
  omega

theorem leafWord_eq {perm : Nat} (hf : RamPage f) (hp : perm < 1024) :
    leafWord f perm = pa2pte f ||| (perm ||| pteV) := by
  rw [leafWord, word_of_lt hf.lt, sext_of_lt (by omega), Nat.or_assoc]

theorem perm_or_lt {perm : Nat} (hp : perm < 1024) : perm ||| pteV < 1024 :=
  Nat.or_lt_two_pow (n := 10) hp (by decide)

theorem pte2pa_leafWord {perm : Nat} (hf : RamPage f) (hp : perm < 1024) :
    pte2pa (leafWord f perm) = f := by
  rw [leafWord_eq hf hp, pte2pa_pa2pte_or hf.1 hf.lt (perm_or_lt hp)]

theorem pteFlags_leafWord (f : Nat) {perm : Nat} (hp : perm < 1024) :
    pteFlags (leafWord f perm) = perm ||| pteV := by
  rw [leafWord, sext_of_lt (by omega), Nat.or_assoc, pteFlags_pa2pte_or (perm_or_lt hp)]

namespace Filled

variable {pt₀ pt pt' : PageTable} {ph₀ ph ph₁ ph' : Phys} {fresh lent : List Nat}
  {perm word : Nat → Nat}

theorem nil (pt₀ : PageTable) (ph₀ : Phys) (perm word : Nat → Nat) :
    Filled pt₀ ph₀ [] perm [] word pt₀ ph₀ :=
  ⟨Acct.refl pt₀ ph₀, by simp, by simp, by simp, fun _ _ _ _ => rfl, .nil⟩

section

variable (h : Filled pt₀ ph₀ fresh perm lent word pt ph)

include h

theorem mem_of_mem (hf : f ∈ ph.freelist) : f ∈ ph₀.freelist := by
  have hc := h.acct.cons f
  have hm := h.acct.mono f
  rw [count_nil] at hc
  have := count_pos_iff.2 hf
  exact count_pos_iff.1 (by omega)

theorem mapped (hu : u ∈ fresh ∨ u ∈ lent) : pt.leaf u ≠ none := by
  rcases hu with hu | hu
  · obtain ⟨f, -, hl⟩ := h.new u hu
    simp [hl]
  · simp [h.shared u hu]

theorem frames_eq (hleaf : ∀ u, u ∈ fresh ∨ u ∈ lent → pt'.leaf u = pt.leaf u) :
    pt'.frames fresh = pt.frames fresh := by
  apply frames_congr
  intro u hu
  obtain ⟨f, -, hl⟩ := h.new u hu
  rw [(leaf_eq_some.1 hl).1, (leaf_eq_some.1 ((hleaf u (.inl hu)).trans hl)).1]

theorem of_update (hv : v < maxvpn) (hnone : pt.leaf v = none)
    (hleaf : ∀ u < nvpn, pt'.leaf u = if u = v then some w else pt.leaf u) :
    v ∉ fresh ∧ v ∉ lent ∧ pt₀.leaf v = none ∧
      ∀ u, u ∈ fresh ∨ u ∈ lent → pt'.leaf u = pt.leaf u := by
  have hvf : v ∉ fresh := fun hm => h.mapped (.inl hm) hnone
  have hvl : v ∉ lent := fun hm => h.mapped (.inr hm) hnone
  refine ⟨hvf, hvl, h.other v (lt_nvpn hv) hvf hvl ▸ hnone, fun u hu => ?_⟩
  rw [hleaf u (lt_nvpn (h.unmapped u hu).1), if_neg]
  rintro rfl
  exact hu.elim hvf hvl

theorem step (hram : ∀ f ∈ ph₀.freelist, RamPage f) (hperm : perm v < 1024)
    (halloc : kalloc ph = some (mem, ph₁)) (hlt : v * pgsize + pgsize ≤ 2 ^ 64)
    (hmap : mappages pt ph₂ (v * pgsize) pgsize mem (perm v) = .ok (true, pt', ph'))
    (hfree : ph₂.freelist = ph₁.freelist) :
    Filled pt₀ ph₀ (fresh ++ [v]) perm lent word pt' ph' := by
  obtain ⟨hv, hacct, hnone, hleaf⟩ := mappages_leaf hlt hmap
  have hmem : RamPage mem := hram mem (h.mem_of_mem (by rw [kalloc_eq_some halloc]; simp))
  have hself : pt'.leaf v = some (leafWord mem (perm v)) := by rw [hleaf v (lt_nvpn hv), if_pos rfl]
  obtain ⟨hvf, hvl, hnone₀, hkeep⟩ := h.of_update hv hnone hleaf
  refine ⟨?_, fun u hu => ?_, fun u hu => ?_, fun u hu => ?_, fun u hu hf hl => ?_, ?_⟩
  · -- the new frame is the last of the list
    have hlist : pt'.frames (fresh ++ [v]) = pt.frames fresh ++ [mem] := by
      rw [PageTable.frames, map_append, ← PageTable.frames, h.frames_eq hkeep,
        map_singleton, (leaf_eq_some.1 hself).1, pte2pa_leafWord hmem hperm]
    have hacct₁ := (h.acct.trans (acct_kalloc halloc)).of_freelist hfree
    refine (hacct₁.trans hacct).congr (fun f => ?_) (fun f => rfl)
    rw [hlist, append_nil]
  · by_cases huv : u = v
    · exact huv ▸ ⟨hv, hnone₀⟩
    · simp only [mem_append, mem_singleton, huv, or_false] at hu
      exact h.unmapped u hu
  · rcases mem_append.1 hu with hu | hu
    · rw [hkeep u (.inl hu)]
      exact h.new u hu
    · rw [mem_singleton.1 hu]
      exact ⟨mem, hmem, hself⟩
  · rw [hkeep u (.inr hu)]
    exact h.shared u hu
  · simp only [mem_append, mem_singleton, not_or] at hf
    rw [hleaf u hu, if_neg hf.2]
    exact h.other u hu hf.1 hl
  · rw [append_assoc]
    exact nodup_middle.2 (nodup_cons.2 ⟨by simp [hvf, hvl], h.nodup⟩)

theorem stepLent (hv : v < maxvpn) (hacct : Acct pt ph pt' ph' [] []) (hnone : pt.leaf v = none)
    (hleaf : ∀ u < nvpn, pt'.leaf u = if u = v then some (word v) else pt.leaf u) :
    Filled pt₀ ph₀ fresh perm (lent ++ [v]) word pt' ph' := by
  obtain ⟨hvf, hvl, hnone₀, hkeep⟩ := h.of_update hv hnone hleaf
  refine ⟨?_, fun u hu => ?_, fun u hu => ?_, fun u hu => ?_, fun u hu hf hl => ?_, ?_⟩
  · refine (h.acct.trans hacct).congr (fun f => ?_) (fun f => rfl)
    rw [h.frames_eq hkeep, append_nil]
  · by_cases huv : u = v
    · exact huv ▸ ⟨hv, hnone₀⟩
    · simp only [mem_append, mem_singleton, huv, or_false] at hu
      exact h.unmapped u hu
  · rw [hkeep u (.inl hu)]
    exact h.new u hu
  · rcases mem_append.1 hu with hu | hu
    · rw [hkeep u (.inr hu)]
      exact h.shared u hu
    · rw [mem_singleton] at hu
      rw [hleaf u (lt_nvpn (hu ▸ hv)), if_pos hu, hu]
  · simp only [mem_append, mem_singleton, not_or] at hl
    rw [hleaf u hu, if_neg hl.2]
    exact h.other u hu hf hl.1
  · rw [← append_assoc]
    exact nodup_middle.2 (nodup_cons.2 ⟨by simp [hvf, hvl], by simpa using h.nodup⟩)

theorem keep (hacct : Acct pt ph pt' ph' [] []) (hleaf : ∀ u < nvpn, pt'.leaf u = pt.leaf u) :
    Filled pt₀ ph₀ fresh perm lent word pt' ph' := by
  have hlt : ∀ u, u ∈ fresh ∨ u ∈ lent → pt'.leaf u = pt.leaf u := fun u hu =>
    hleaf u (lt_nvpn (h.unmapped u hu).1)
  refine ⟨?_, h.unmapped, fun u hu => ?_, fun u hu => ?_, fun u hu h1 h2 => ?_, h.nodup⟩
  · rw [h.frames_eq hlt]
    simpa using h.acct.trans hacct
  · rw [hlt u (.inl hu)]
    exact h.new u hu
  · rw [hlt u (.inr hu)]
    exact h.shared u hu
  · rw [hleaf u hu]
    exact h.other u hu h1 h2

theorem stepFail (halloc : kalloc ph = some (mem, ph₁)) (hlt : v * pgsize + pgsize ≤ 2 ^ 64)
    {perm' : Nat} (hmap : mappages pt ph₂ (v * pgsize) pgsize pa perm' = .ok (false, pt', ph'))
    (hfree : ph₂.freelist = ph₁.freelist) {ph₃ : Phys} (hkfree : kfree ph' mem = .ok ph₃) :
    Filled pt₀ ph₀ fresh perm lent word pt' ph₃ := by
  obtain ⟨-, -, hacct, -, hno⟩ := mappages_page (Nat.mul_mod_left _ _) hlt hmap
  have hback : Acct pt ph pt' ph₃ ([] ++ [mem]) ([] ++ [mem]) :=
    (((acct_kalloc halloc).of_freelist hfree).trans hacct).trans (acct_kfree hkfree)
  exact h.keep hback.cancel fun u _ => leaf_congr ((hno rfl).2 u)

theorem of_freelist (hfree : ph'.freelist = ph.freelist) :
    Filled pt₀ ph₀ fresh perm lent word pt ph' :=
  { h with acct := h.acct.of_freelist hfree }

end

theorem undone (h : Filled pt₀ ph₀ fresh perm [] word pt ph)
    (hacct : Acct pt ph pt' ph' [] (pt.frames fresh))
    (hleaf : ∀ u < nvpn, pt'.leaf u = if u ∈ fresh then none else pt.leaf u) :
    Acct pt₀ ph₀ pt' ph' [] [] ∧ ∀ u < nvpn, pt'.leaf u = pt₀.leaf u := by
  refine ⟨?_, fun u hu => ?_⟩
  · have hboth : Acct pt₀ ph₀ pt' ph' ([] ++ pt.frames fresh) ([] ++ pt.frames fresh) := by
      simpa using h.acct.trans hacct
    exact hboth.cancel
  · rw [hleaf u hu]
    by_cases hin : u ∈ fresh
    · rw [if_pos hin, (h.unmapped u (.inl hin)).2]
    · rw [if_neg hin]
      exact h.other u hu hin (by simp)

end Filled

/-! ## uvmalloc and uvmdealloc -/

def npages (sz : Nat) : Nat := (sz + (pgsize - 1)) / pgsize

theorem pgroundup_eq (h : sz + pgsize ≤ 2 ^ 64) : pgroundup sz = npages sz * pgsize := by
  unfold pgroundup npages
  rw [word_of_lt (by unfold pgsize at *; omega)]

theorem npages_mul (n : Nat) : npages (n * pgsize) = n := by
  unfold npages pgsize
  omega

theorem npages_mono {b : Nat} (h : a ≤ b) : npages a ≤ npages b := by
  exact Nat.div_le_div_right (by omega)

theorem npages_le (h : sz ≤ maxva) : npages sz ≤ maxvpn := by
  unfold npages maxvpn maxva pgsize at *
  omega

theorem uvmdealloc_eq (hold : oldsz ≤ maxva) : uvmdealloc pt ph oldsz newsz =
    if npages newsz < npages oldsz then do
      let (pt, ph) ← uvmunmap pt ph (npages newsz * pgsize) (npages oldsz - npages newsz) true
      return (min oldsz newsz, pt, ph)
    else .ok (min oldsz newsz, pt, ph) := by
  have hmax := maxva_room
  have hle := npages_le hold
  unfold uvmdealloc
  by_cases hge : newsz ≥ oldsz
  · rw [if_pos hge, if_neg (Nat.not_lt.2 (npages_mono hge)), Nat.min_eq_left hge]
  rw [if_neg hge, pgroundup_eq (by omega), pgroundup_eq (by omega), Nat.min_eq_right (by omega),
    ← Nat.sub_mul, Nat.mul_div_cancel _ (by decide)]
  by_cases hlt : npages newsz < npages oldsz
  · have hsext : npages oldsz - npages newsz < 2 ^ 31 := by
      unfold maxvpn maxva pgsize at hle
      omega
    rw [if_pos ((Nat.mul_lt_mul_right (by decide)).2 hlt), if_pos hlt, sext_of_lt hsext]
  · rw [if_neg fun hc => hlt (Nat.lt_of_mul_lt_mul_right hc), if_neg hlt]

theorem uvmdealloc_cases (hold : oldsz ≤ maxva)
    (h : uvmdealloc pt ph oldsz newsz = .ok (sz, pt', ph')) : sz = min oldsz newsz ∧
      (npages oldsz ≤ npages newsz ∧ pt' = pt ∧ ph' = ph ∨
        npages newsz < npages oldsz ∧ npages oldsz * pgsize < 2 ^ 64 ∧
          uvmunmap pt ph (npages newsz * pgsize) (npages oldsz - npages newsz) true =
            .ok (pt', ph')) := by
  rw [uvmdealloc_eq hold] at h
  split at h
  · rename_i hlt
    obtain ⟨⟨pt₁, ph₁⟩, hun, h⟩ := bind_eq_ok.1 h
    cases h
    have hle := mul_le_maxva (npages_le hold)
    have hmax := maxva_room
    exact ⟨rfl, .inr ⟨hlt, by omega, hun⟩⟩
  · cases h
    exact ⟨rfl, .inl ⟨by omega, rfl, rfl⟩⟩

theorem uvmdealloc_eq_ok (hold : oldsz ≤ maxva)
    (h : uvmdealloc pt ph oldsz newsz = .ok (sz, pt', ph')) : sz = min oldsz newsz ∧
      Acct pt ph pt' ph' []
        (pt.frames (List.range' (npages newsz) (npages oldsz - npages newsz))) ∧
      (∀ u, npages newsz ≤ u → u < npages oldsz → ∃ w, pt.leaf u = some w ∧
        RamPage (pte2pa w)) ∧
      ∀ u < nvpn, pt'.leaf u =
        if npages newsz ≤ u ∧ u < npages oldsz then none else pt.leaf u := by
  obtain ⟨hsz, ⟨hle, rfl, rfl⟩ | ⟨hlt, hroom, hun⟩⟩ := uvmdealloc_cases hold h
  · refine ⟨hsz, ?_, fun u h1 h2 => by omega, fun u _ => by rw [if_neg (by omega)]⟩
    rw [Nat.sub_eq_zero_of_le hle]
    simpa [PageTable.frames] using Acct.refl pt' ph'
  · have hend : npages newsz + (npages oldsz - npages newsz) = npages oldsz := by omega
    obtain ⟨hacct, hpages, hleaf⟩ := uvmunmap_eq_ok (by rwa [← Nat.add_mul, hend]) hun
    rw [hend] at hpages hleaf
    refine ⟨hsz, hacct, fun u h1 h2 => ?_, hleaf⟩
    obtain ⟨-, w, hw, -, hram⟩ := hpages u h1 h2
    exact ⟨w, hw, hram rfl⟩

def heapPerm : Nat := pteW ||| pteX ||| pteR ||| pteU

theorem uvmallocLoop_succ
    (h : uvmallocLoop oldsz newsz (m + 1) a pt ph = .ok (sz, pt', ph')) :
    (∃ mem ph₁ pt₂ ph₂, kalloc ph = some (mem, ph₁) ∧
      mappages pt { ph₁ with mem := memsetPage ph₁.mem mem 0 } a pgsize mem heapPerm =
        .ok (true, pt₂, ph₂) ∧
      uvmallocLoop oldsz newsz m (a + pgsize) pt₂ ph₂ = .ok (sz, pt', ph')) ∨
    sz = 0 ∧ ∃ pt₁ ph₁ r, uvmdealloc pt₁ ph₁ a oldsz = .ok (r, pt', ph') ∧
      (pt₁ = pt ∧ ph₁ = ph ∨ ∃ mem ph₂ ph₃, kalloc ph = some (mem, ph₂) ∧
        mappages pt { ph₂ with mem := memsetPage ph₂.mem mem 0 } a pgsize mem heapPerm =
          .ok (false, pt₁, ph₃) ∧ kfree ph₃ mem = .ok ph₁) := by
  unfold uvmallocLoop at h
  cases halloc : kalloc ph with
  | none =>
    rw [halloc] at h
    obtain ⟨⟨r, pt₁, ph₁⟩, hde, h⟩ := bind_eq_ok.1 h
    cases h
    exact .inr ⟨rfl, pt, ph, r, hde, .inl ⟨rfl, rfl⟩⟩
  | some q =>
    rw [halloc] at h
    obtain ⟨⟨ok, pt₂, ph₂⟩, hmap, h⟩ := bind_eq_ok.1 h
    cases ok with
    | true => exact .inl ⟨q.1, q.2, pt₂, ph₂, rfl, hmap, h⟩
    | false =>
      obtain ⟨ph₃, hkfree, h⟩ := bind_eq_ok.1 h
      obtain ⟨⟨r, pt₁, ph₄⟩, hde, h⟩ := bind_eq_ok.1 h
      cases h
      exact .inr ⟨rfl, pt₂, ph₃, r, hde, .inr ⟨q.1, q.2, ph₂, rfl, hmap, hkfree⟩⟩

theorem uvmallocLoop_eq_ok {pt₀ : PageTable}
    (hf : Filled pt₀ ph₀ (List.range' v n) (fun _ => heapPerm) [] (fun _ => 0) pt ph)
    (hram : ∀ f ∈ ph₀.freelist, RamPage f) (hv : v * pgsize + n * pgsize + pgsize ≤ 2 ^ 64)
    (h : uvmallocLoop (v * pgsize) newsz m ((v + n) * pgsize) pt ph = .ok (sz, pt', ph')) :
    (sz = newsz ∧ 
      Filled pt₀ ph₀ (List.range' v (n + m)) (fun _ => heapPerm) [] (fun _ => 0) pt' ph') ∨
      (sz = 0 ∧ Acct pt₀ ph₀ pt' ph' [] [] ∧ ∀ u < nvpn, pt'.leaf u = pt₀.leaf u) := by
  induction m generalizing n pt ph with
  | zero =>
    cases h
    exact .inl ⟨rfl, hf⟩
  | succ m ih =>
    have hmul : (v + n) * pgsize = v * pgsize + n * pgsize := Nat.add_mul _ _ _
    have hundo : ∀ {pt₁ pt₂ : PageTable} {ph₁ ph₂ : Phys} {r : Nat},
        Filled pt₀ ph₀ (List.range' v n) (fun _ => heapPerm) [] (fun _ => 0) pt₁ ph₁ →
        uvmdealloc pt₁ ph₁ ((v + n) * pgsize) (v * pgsize) = .ok (r, pt₂, ph₂) →
        Acct pt₀ ph₀ pt₂ ph₂ [] [] ∧ ∀ u < nvpn, pt₂.leaf u = pt₀.leaf u := by
      intro pt₁ pt₂ ph₁ ph₂ r hfill hde
      rcases Nat.eq_zero_or_pos n with rfl | hn
      · rw [uvmdealloc, if_pos (by simp)] at hde
        cases hde
        exact ⟨by simpa [PageTable.frames] using hfill.acct,
          fun u hu => hfill.other u hu (by simp) (by simp)⟩
      · -- the pages mapped so far end below MAXVA
        have hlast := (hf.unmapped (v + n - 1) (.inl (mem_range'.2 (by omega)))).1
        obtain ⟨-, hacct, -, hleaf⟩ := uvmdealloc_eq_ok (mul_le_maxva (by omega)) hde
        rw [npages_mul, npages_mul, Nat.add_sub_cancel_left] at hacct
        rw [npages_mul, npages_mul] at hleaf
        exact hfill.undone hacct fun u hu => by rw [hleaf u hu]; simp only [mem_range']
    rcases uvmallocLoop_succ h with ⟨mem, ph₁, pt₂, ph₂, halloc, hmap, h⟩ |
      ⟨rfl, pt₁, ph₁, r, hde, ⟨rfl, rfl⟩ | ⟨mem, ph₂, ph₃, halloc, hmap, hkfree⟩⟩
    · have hstep := hf.step hram (by decide) halloc (by omega) hmap rfl
      rw [← List.range'_1_concat] at hstep
      have hva := (mappages_page (Nat.mul_mod_left _ _) (by omega) hmap).1
      have hmax := maxva_room
      rw [add_page] at h
      have hroom : v * pgsize + (n + 1) * pgsize + pgsize ≤ 2 ^ 64 := by
        rw [Nat.succ_mul]
        omega
      rcases ih hstep hroom h with hdone | hfail
      · exact .inl (by rwa [Nat.add_right_comm, Nat.add_assoc] at hdone)
      · exact .inr hfail
    · exact .inr ⟨rfl, hundo hf hde⟩
    · exact .inr ⟨rfl, hundo (hf.stepFail halloc (by omega) hmap rfl hkfree) hde⟩

theorem pageCount_npages (h : oldsz ≤ newsz) :
    pageCount (npages oldsz * pgsize) newsz = npages newsz - npages oldsz := by
  unfold pageCount npages pgsize at *
  split <;> omega

theorem uvmalloc_eq (hold : oldsz ≤ maxva) : uvmalloc pt ph oldsz newsz =
    if newsz < oldsz then .ok (oldsz, pt, ph)
    else uvmallocLoop (npages oldsz * pgsize) newsz (npages newsz - npages oldsz)
      (npages oldsz * pgsize) pt ph := by
  have hmax := maxva_room
  unfold uvmalloc
  split
  · rfl
  · dsimp only
    rw [pgroundup_eq (by omega), pageCount_npages (by omega)]

theorem uvmalloc_eq_ok (hram : ∀ f ∈ ph.freelist, RamPage f) (hold : oldsz ≤ maxva)
    (h : uvmalloc pt ph oldsz newsz = .ok (sz, pt', ph')) :
    (newsz < oldsz ∧ sz = oldsz ∧ pt' = pt ∧ ph' = ph) ∨
      (oldsz ≤ newsz ∧ sz = newsz ∧
        Filled pt ph (List.range' (npages oldsz) (npages newsz - npages oldsz))
          (fun _ => heapPerm) [] (fun _ => 0) pt' ph' ∧ (npages oldsz < npages newsz → newsz ≤ maxva)) ∨
      (oldsz ≤ newsz ∧ sz = 0 ∧ Acct pt ph pt' ph' [] [] ∧
        ∀ u < nvpn, pt'.leaf u = pt.leaf u) := by
  rw [uvmalloc_eq hold] at h
  split at h
  · cases h
    exact .inl ⟨‹_›, rfl, rfl, rfl⟩
  have hmax := maxva_room
  have hroom : npages oldsz * pgsize + 0 * pgsize + pgsize ≤ 2 ^ 64 := by
    have hle := mul_le_maxva (npages_le hold)
    omega
  rcases uvmallocLoop_eq_ok (Filled.nil pt ph _ _) hram hroom h with
    ⟨hsz, hfill⟩ | ⟨hsz, hacct, hleaf⟩
  · rw [Nat.zero_add] at hfill
    refine .inr (.inl ⟨by omega, hsz, hfill, fun hgrow => ?_⟩)
    -- the last page is below MAXVA
    have hlast := (hfill.unmapped (npages newsz - 1) (.inl (mem_range'.2 (by omega)))).1
    have hle := mul_le_maxva (show npages newsz ≤ maxvpn by omega)
    have hsize : newsz ≤ npages newsz * pgsize := by
      unfold npages pgsize
      omega
    omega
  · exact .inr (.inr ⟨by omega, hsz, hacct, hleaf⟩)

/-! ## uvmcopy and uvmcopyshared -/

def copyPerm (old : PageTable) (u : Nat) : Nat := pteFlags (old.entry u)

def lentWord (old : PageTable) (u : Nat) : Nat :=
  leafWord (pte2pa (old.entry u)) (pteFlags (old.entry u))

theorem pte2pa_lentWord (old : PageTable) (v : Nat) :
    pte2pa (lentWord old v) = pte2pa (old.entry v) := by
  have hlt := word_lt (old.entry v >>> 10 <<< 12)
  have hperm : pteFlags (old.entry v) ||| pteV < 1024 := perm_or_lt (pteFlags_lt _)
  have hsext : sext (pteFlags (old.entry v)) = pteFlags (old.entry v) :=
    sext_of_lt (lt_trans (pteFlags_lt _) (by decide))
  rw [lentWord, leafWord, hsext, Nat.or_assoc, word_of_lt (by exact hlt)]
  exact pte2pa_pa2pte_or (pte2pa_mod _) hlt hperm

theorem has_user_leafWord (f : Nat) {perm : Nat} (hp : perm < 1024) :
    has (leafWord f perm) pteU = has perm pteU := by
  rw [leafWord, has_or, has_or, has_pa2pte _ (by decide), sext_of_lt (lt_trans hp (by decide)),
    show has pteV pteU = false by decide, Bool.or_false, Bool.false_or]

theorem frameFor_eq_none (h : frameFor shared ph pa = .ok (none, ph')) :
    shared = false ∧ kalloc ph = none ∧ ph' = ph := by
  unfold frameFor at h
  cases shared with
  | true => cases h
  | false =>
    cases hk : kalloc ph with
    | none =>
      rw [hk] at h
      cases h
      exact ⟨rfl, rfl, rfl⟩
    | some q =>
      rw [hk] at h
      obtain ⟨_, -, h⟩ := bind_eq_ok.1 h
      cases h

theorem frameFor_eq_some (h : frameFor shared ph pa = .ok (some mem, ph')) :
    (shared = true ∧ mem = pa ∧ ph' = ph) ∨ shared = false ∧ ∃ ph₁, kalloc ph = some (mem, ph₁) ∧
      kernelReads pa = true ∧ ph' = { ph₁ with mem := copyBytes ph₁.mem mem pa pgsize } := by
  unfold frameFor at h
  cases shared with
  | true =>
    cases h
    exact .inl ⟨rfl, rfl, rfl⟩
  | false =>
    cases hk : kalloc ph with
    | none =>
      rw [hk] at h
      cases h
    | some q =>
      rw [hk] at h
      obtain ⟨_, hreads, h⟩ := bind_eq_ok.1 h
      cases h
      exact .inr ⟨rfl, q.2, rfl, require_eq_ok.1 hreads, rfl⟩

/-- One page of the loop: it is copied and the loop goes on, or what was mapped below it goes. -/
theorem uvmcopyLoop_cases {i : Nat}
    (h : uvmcopyLoop shared old (m + 1) i new ph = .ok (ok, new', ph')) :
    i < maxva ∧ has (old.pte i) pteV = true ∧
    ((∃ mem ph₁ new₁ ph₂, frameFor shared ph (pte2pa (old.pte i)) = .ok (some mem, ph₁) ∧
        mappages new ph₁ i pgsize mem (pteFlags (old.pte i)) = .ok (true, new₁, ph₂) ∧
        uvmcopyLoop shared old m (i + pgsize) new₁ ph₂ = .ok (ok, new', ph')) ∨
      ok = false ∧ ∃ pt₁ ph₁, uvmunmap pt₁ ph₁ 0 (i / pgsize) true = .ok (new', ph') ∧
        (frameFor shared ph (pte2pa (old.pte i)) = .ok (none, ph₁) ∧ pt₁ = new ∨
          ∃ mem ph₂ ph₃, frameFor shared ph (pte2pa (old.pte i)) = .ok (some mem, ph₂) ∧
            mappages new ph₂ i pgsize mem (pteFlags (old.pte i)) = .ok (false, pt₁, ph₃) ∧
            kfreeIf (!shared) ph₃ mem = .ok ph₁)) := by
  obtain ⟨⟨found, _, _⟩, hwalk, h⟩ := bind_eq_ok.1 h
  obtain ⟨_, -, h⟩ := bind_eq_ok.1 h
  obtain ⟨_, hvalid, h⟩ := bind_eq_ok.1 h
  obtain ⟨⟨frame, ph₁⟩, hframe, h⟩ := bind_eq_ok.1 h
  refine ⟨(walk_false_eq_ok hwalk).1, require_eq_ok.1 hvalid, ?_⟩
  cases frame with
  | none =>
    obtain ⟨⟨new₁, ph₂⟩, hun, h⟩ := bind_eq_ok.1 h
    cases h
    exact .inr ⟨rfl, new, ph₁, hun, .inl ⟨hframe, rfl⟩⟩
  | some mem =>
    obtain ⟨⟨good, new₁, ph₂⟩, hmap, h⟩ := bind_eq_ok.1 h
    cases good with
    | true => exact .inl ⟨mem, ph₁, new₁, ph₂, hframe, hmap, h⟩
    | false =>
      obtain ⟨ph₃, hkfree, h⟩ := bind_eq_ok.1 h
      obtain ⟨⟨new₂, ph₄⟩, hun, h⟩ := bind_eq_ok.1 h
      cases h
      exact .inr ⟨rfl, new₁, ph₃, hun, .inr ⟨mem, ph₁, ph₂, hframe, hmap, hkfree⟩⟩

theorem uvmcopyLoop_eq_ok
    (hf : Filled new₀ ph₀ (fresh ++ List.range' v n) (copyPerm old) lent (lentWord old) new ph)
    (hram : ∀ f ∈ ph₀.freelist, RamPage f)
    (h : uvmcopyLoop false old m ((v + n) * pgsize) new ph = .ok (ok, new', ph')) : (ok = true →
      Filled new₀ ph₀ (fresh ++ List.range' v (n + m)) (copyPerm old) lent (lentWord old) new' ph' ∧
      ∀ u, v + n ≤ u → u < v + n + m → ∃ w, old.leaf u = some w ∧ kernelReads (pte2pa w) = true) ∧
    (ok = false → ∃ j pt₁ ph₁, j < n + m ∧
      Filled new₀ ph₀ (fresh ++ List.range' v j) (copyPerm old) lent (lentWord old) pt₁ ph₁ ∧
      (v + j) * pgsize < maxva ∧ uvmunmap pt₁ ph₁ 0 (v + j) true = .ok (new', ph')) := by
  induction m generalizing n new ph with
  | zero =>
    cases h
    exact ⟨fun _ => ⟨hf, fun u h1 h2 => by omega⟩, fun h => by simp at h⟩
  | succ m ih =>
    have hmax := maxva_room
    obtain ⟨hlt, hvalid, h⟩ := uvmcopyLoop_cases h
    rw [pte_eq, vpn_mul] at hvalid h
    rw [add_page, show (v + n) * pgsize / pgsize = v + n from vpn_mul _] at h
    rcases h with ⟨mem, ph₁, new₁, ph₂, hframe, hmap, h⟩ |
      ⟨rfl, pt₁, ph₁, hun, ⟨hframe, rfl⟩ | ⟨mem, ph₂, ph₃, hframe, hmap, hkfree⟩⟩
    · obtain ⟨hs, -⟩ | ⟨-, _, halloc, hreads, rfl⟩ := frameFor_eq_some hframe
      · cases hs
      have hstep := hf.step hram (pteFlags_lt _) halloc (by omega) hmap rfl
      rw [append_assoc, ← List.range'_1_concat] at hstep
      obtain ⟨hgood, hbad⟩ := ih hstep h
      rw [Nat.add_right_comm n 1 m] at hgood hbad
      refine ⟨fun ho => ?_, hbad⟩
      obtain ⟨hfill, hpages⟩ := hgood ho
      refine ⟨hfill, fun u h1 h2 => ?_⟩
      by_cases hu : u = v + n
      · subst hu
        exact ⟨_, leaf_eq_some.2 ⟨rfl, hvalid⟩, hreads⟩
      · exact hpages u (by omega) (by omega)
    · obtain ⟨-, -, rfl⟩ := frameFor_eq_none hframe
      exact ⟨fun h => by simp at h, fun _ => ⟨n, pt₁, ph₁, by omega, hf, hlt, hun⟩⟩
    · obtain ⟨hs, -⟩ | ⟨-, _, halloc, -, rfl⟩ := frameFor_eq_some hframe
      · cases hs
      have hback := hf.stepFail halloc (by omega) hmap rfl hkfree
      exact ⟨fun h => by simp at h, fun _ => ⟨n, pt₁, ph₁, by omega, hback, hlt, hun⟩⟩

theorem pageCount_zero (sz : Nat) : pageCount 0 sz = npages sz := by
  unfold pageCount npages pgsize
  split <;> omega

theorem uvmcopy_heap_eq_ok (hram : ∀ f ∈ ph.freelist, RamPage f)
    (h : uvmcopy old new ph 0 sz = .ok (ok, new', ph')) : (ok = true →
      Filled new ph (List.range' 0 (npages sz)) (copyPerm old) [] (lentWord old) new' ph' ∧
      ∀ u < npages sz, ∃ w, old.leaf u = some w ∧ kernelReads (pte2pa w) = true) ∧
    (ok = false → Acct new ph new' ph' [] [] ∧ ∀ u < nvpn, new'.leaf u = new.leaf u) := by
  unfold uvmcopy at h
  rw [pageCount_zero] at h
  have hnil : Filled new ph ([] ++ List.range' 0 0) (copyPerm old) [] (lentWord old) new ph :=
    Filled.nil new ph _ _
  obtain ⟨hgood, hbad⟩ := uvmcopyLoop_eq_ok hnil hram h
  refine ⟨fun ho => ?_, fun ho => ?_⟩
  · obtain ⟨hfill, hpages⟩ := hgood ho
    rw [Nat.zero_add] at hfill
    exact ⟨hfill, fun u hu => hpages u (by omega) (by omega)⟩
  · obtain ⟨j, pt₁, ph₁, -, hfill, hlt, hun⟩ := hbad ho
    rw [Nat.zero_add] at hun
    have hroom : 0 * pgsize + j * pgsize < 2 ^ 64 := by
      have hmax := maxva_room
      rw [Nat.zero_add] at hlt
      omega
    obtain ⟨hacct, -, hleaf⟩ := uvmunmap_eq_ok hroom hun
    rw [nil_append] at hfill
    exact hfill.undone hacct fun u hu => by rw [hleaf u hu]; simp only [mem_range']

theorem pageCount_page (a : Nat) : pageCount a (a + pgsize) = 1 := by
  unfold pageCount pgsize
  rw [if_pos (by omega)]
  omega

theorem uvmcopy_page_eq_ok (hf : Filled new₀ ph₀ fresh (copyPerm old) lent (lentWord old) new ph)
    (hram : ∀ f ∈ ph₀.freelist, RamPage f)
    (h : uvmcopy old new ph (v * pgsize) (v * pgsize + pgsize) = .ok (true, new', ph')) :
    Filled new₀ ph₀ (fresh ++ [v]) (copyPerm old) lent (lentWord old) new' ph' := by
  unfold uvmcopy at h
  rw [pageCount_page] at h
  have hf' : Filled new₀ ph₀ (fresh ++ List.range' v 0) (copyPerm old) lent (lentWord old) new ph := by
    simpa using hf
  simpa using ((uvmcopyLoop_eq_ok hf' hram h).1 rfl).1

theorem uvmcopyshared_page_eq_ok
    (h : uvmcopyshared old new ph (v * pgsize) (v * pgsize + pgsize) = .ok (true, new', ph')) :
    v < maxvpn ∧ Acct new ph new' ph' [] [] ∧ new.leaf v = none ∧
      ∀ u < nvpn, new'.leaf u = if u = v then some (lentWord old v) else new.leaf u := by
  unfold uvmcopyshared at h
  rw [pageCount_page] at h
  obtain ⟨hlt, -, ⟨mem, ph₁, new₁, ph₂, hframe, hmap, h⟩ | ⟨hfail, -⟩⟩ := uvmcopyLoop_cases h
  · cases hframe
    cases h
    rw [pte_eq, vpn_mul] at hmap
    exact ⟨vpn_mul v ▸ vpn_lt hlt, (mappages_leaf (room_of_lt hlt) hmap).2⟩
  · cases hfail

end Xv6
