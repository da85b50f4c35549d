/-
`uvmcopy` and `uvmcopyshared` of `kernel/vm.c` when memory runs out: where the copy stops, and
what the unmapping from address 0 on makes of the table.
-/
import Xv6.Vm.Total

namespace Xv6

open Run PageTable List

variable {pa v : Nat} {new₁ pt pt' : PageTable} {ph ph' ph₁ : Phys}

/-- The number of page-table pages that mapping the pages `vs` takes. -/
def PageTable.needs (pt : PageTable) (vs : List Nat) : Nat := Radix.Table.needs 512 pt vs

/-- The number of frames that copying or sharing `n` pages from page `v` on takes. -/
def copyNeed (shared : Bool) (new : PageTable) (v n : Nat) : Nat :=
  (if shared then 0 else n) + new.needs (List.range' v n)

/-- The pages are there in `old`, to be read by a copy, and not in `new`. -/
structure CopyRange (shared : Bool) (old new : PageTable) (ph : Phys) (v n : Nat) : Prop where
  nullOld : old.isNull = false
  null : new.isNull = false
  present : ∀ u, v ≤ u → u < v + n → u < maxvpn ∧ ∃ w, old.leaf u = some w ∧ pteFlags w ≠ pteV ∧
    (shared = false → kernelReads (pte2pa w) = true)
  absent : ∀ u, v ≤ u → u < v + n → new.leaf u = none
  ram : ∀ f ∈ ph.freelist, RamPage f

/-- The first `n` pages have been copied or shared. -/
def Copied (shared : Bool) (old new₀ : PageTable) (ph₀ : Phys) (v n : Nat) (new : PageTable)
    (ph : Phys) : Prop :=
  Filled new₀ ph₀ (if shared then [] else List.range' v n) (copyPerm old)
    (if shared then List.range' v n else []) (lentWord old) new ph

theorem walk_needs (hv : v < maxvpn) (h : walk pt ph (v * pgsize) true = .ok (true, pt', ph'))
    (vs : List Nat) : pt.needs (v :: vs) = pt.missing (v * pgsize) + pt'.needs vs := by
  have hlt := mul_lt_maxva hv
  have hnull := (walk_true_eq_ok h).2.1
  have hpres := present_of_isNull hnull
  rw [walk, if_neg (by omega), hnull, vpn_mul] at h
  have hgrow : Radix.Table.grow 512 kalloc pt v ph = (true, pt', ph') := Except.ok.inj h
  rw [PageTable.needs, Radix.Table.needs_cons 512 (by decide) hpres hgrow, PageTable.missing,
    vpn_mul]
  rfl

theorem mappages_needs {perm : Nat} (hv : v < maxvpn)
    (h : mappages pt ph (v * pgsize) pgsize pa perm = .ok (true, pt', ph')) (vs : List Nat) :
    pt.needs (v :: vs) = pt.missing (v * pgsize) + pt'.needs vs := by
  obtain ⟨pt₁, hwalk, -, hset⟩ := mappages_eq_ok (Nat.mul_mod_left _ _) (mul_room hv) h
  obtain ⟨-, hnull, hacct, -⟩ := walk_true_eq_ok hwalk
  have hpres₁ := present_of_isNull (hacct.null.trans hnull)
  rw [walk_needs hv hwalk, (hset rfl).2]
  congr 1
  exact (Radix.Table.needs_congr 512 (by decide) hpres₁ (.set 512 pt₁ _ _) vs).symm

/-! ## One page -/

section

variable {shared : Bool} {old new₀ new : PageTable} {ph₀ ph : Phys} {v n m : Nat}

theorem Copied.null (hc : Copied shared old new₀ ph₀ v n new ph)
    (hR : CopyRange shared old new₀ ph₀ v (n + m)) : new.isNull = false :=
  hc.acct.null.trans hR.null

theorem Copied.leaf_none (hc : Copied shared old new₀ ph₀ v n new ph)
    (hR : CopyRange shared old new₀ ph₀ v (n + (m + 1))) : new.leaf (v + n) = none := by
  have hu := (hR.present (v + n) (by omega) (by omega)).1
  rw [hc.other _ (lt_nvpn hu) (by split <;> simp) (by split <;> simp)]
  exact hR.absent _ (by omega) (by omega)

theorem uvmcopyLoop_succ (hR : CopyRange shared old new₀ ph₀ v (n + (m + 1))) :
    uvmcopyLoop shared old (m + 1) ((v + n) * pgsize) new ph = do
      let (frame, ph) ← frameFor shared ph (pte2pa (old.entry (v + n)))
      match frame with
      | none =>
        let (new, ph) ← uvmunmap new ph 0 (v + n) true
        return (false, new, ph)
      | some mem =>
        let (ok, new, ph) ← mappages new ph ((v + n) * pgsize) pgsize mem (copyPerm old (v + n))
        if ok then uvmcopyLoop shared old m ((v + (n + 1)) * pgsize) new ph
        else
          let ph ← kfreeIf (!shared) ph mem
          let (new, ph) ← uvmunmap new ph 0 (v + n) true
          return (false, new, ph) := by
  obtain ⟨hu, w, hw, -, -⟩ := hR.present (v + n) (by omega) (by omega)
  obtain ⟨hentry, hvalid⟩ := leaf_eq_some.1 hw
  have hpte : old.pte ((v + n) * pgsize) = old.entry (v + n) := by
    rw [pte_eq, vpn_mul]
  have hvalid' : has (old.pte ((v + n) * pgsize)) pteV = true := by rw [hpte, hentry, hvalid]
  have hlt := mul_lt_maxva hu
  have hwalk : walk old ph ((v + n) * pgsize) false = .ok (true, old, ph) := by
    rw [walk, if_neg (by omega), hR.nullOld, reaches_of_has hvalid']
    rfl
  have hdiv : (v + n) * pgsize / pgsize = v + n := vpn_mul (v + n)
  rw [uvmcopyLoop, hwalk, add_page, hdiv]
  rw [hvalid', hpte]
  rfl

theorem uvmcopyLoop_none (hR : CopyRange shared old new₀ ph₀ v (n + (m + 1)))
    (hframe : frameFor shared ph (pte2pa (old.entry (v + n))) = .ok (none, ph₁)) :
    uvmcopyLoop shared old (m + 1) ((v + n) * pgsize) new ph =
      (uvmunmap new ph₁ 0 (v + n) true).map fun r => (false, r) := by
  rw [uvmcopyLoop_succ hR, hframe, ok_bind]
  dsimp only
  cases uvmunmap new ph₁ 0 (v + n) true <;> rfl

theorem uvmcopyLoop_some {mem : Nat} {ph₂ : Phys} {ok : Bool}
    (hR : CopyRange shared old new₀ ph₀ v (n + (m + 1)))
    (hframe : frameFor shared ph (pte2pa (old.entry (v + n))) = .ok (some mem, ph₁))
    (hmap : mappages new ph₁ ((v + n) * pgsize) pgsize mem (copyPerm old (v + n)) =
      .ok (ok, new₁, ph₂)) :
    uvmcopyLoop shared old (m + 1) ((v + n) * pgsize) new ph =
      if ok then uvmcopyLoop shared old m ((v + (n + 1)) * pgsize) new₁ ph₂
      else kfreeIf (!shared) ph₂ mem >>= fun ph₃ =>
        (uvmunmap new₁ ph₃ 0 (v + n) true).map fun r => (false, r) := by
  rw [uvmcopyLoop_succ hR, hframe, ok_bind]
  dsimp only
  rw [hmap, ok_bind]
  refine if_congr Iff.rfl rfl (congrArg _ (funext fun ph₃ => ?_))
  cases uvmunmap new₁ ph₃ 0 (v + n) true <;> rfl

theorem copyNeed_one (shared : Bool) (new : PageTable) (v : Nat) :
    copyNeed shared new v 1 = (if shared then 0 else 1) + new.missing (v * pgsize) := by
  rw [PageTable.missing, vpn_mul]
  rfl

theorem copyNeed_le (shared : Bool) (new : PageTable) (v m : Nat) :
    copyNeed shared new v 1 ≤ copyNeed shared new v (m + 1) := by
  rw [copyNeed_one, copyNeed, List.range'_succ, PageTable.needs, Radix.Table.needs,
    PageTable.missing, vpn_mul]
  split <;> omega

theorem copyNeed_succ (shared : Bool) {new' : PageTable} {perm : Nat} (hv : v < maxvpn)
    (h : mappages new ph (v * pgsize) pgsize pa perm = .ok (true, new', ph')) (m : Nat) :
    copyNeed shared new v (m + 1) = copyNeed shared new v 1 + copyNeed shared new' (v + 1) m := by
  rw [copyNeed_one, copyNeed, copyNeed, List.range'_succ, mappages_needs hv h]
  cases shared
  · simp only [Bool.false_eq_true, if_false]
    omega
  · simp only [if_true]
    omega

theorem frameFor_cases (ph : Phys) (hreads : shared = false → kernelReads pa = true) :
    (shared = true ∧ frameFor shared ph pa = .ok (some pa, ph)) ∨
    (shared = false ∧ kalloc ph = none ∧ frameFor shared ph pa = .ok (none, ph)) ∨
    (shared = false ∧ ∃ mem ph₁ ph₂, kalloc ph = some (mem, ph₁) ∧ ph₂.freelist = ph₁.freelist ∧
      frameFor shared ph pa = .ok (some mem, ph₂)) := by
  cases shared with
  | true => exact .inl ⟨rfl, rfl⟩
  | false =>
    refine .inr ?_
    cases halloc : kalloc ph with
    | none => exact .inl ⟨rfl, rfl, by rw [frameFor, if_neg (by decide), halloc]⟩
    | some q =>
      obtain ⟨mem, ph₁⟩ := q
      refine .inr ⟨rfl, mem, ph₁, ⟨ph₁.freelist, copyBytes ph₁.mem mem pa pgsize⟩, rfl, rfl, ?_⟩
      rw [frameFor, halloc, hreads rfl]
      rfl

theorem Copied.share (hc : Copied true old new₀ ph₀ v n new ph) (hv : v + n < maxvpn)
    (hmap : mappages new ph ((v + n) * pgsize) pgsize
      (pte2pa (old.entry (v + n))) (copyPerm old (v + n)) = .ok (true, new₁, ph₁)) :
    Copied true old new₀ ph₀ v (n + 1) new₁ ph₁ := by
  have hlt := mul_lt_maxva hv
  have hmax := maxva_room
  obtain ⟨-, hacct, hnone, hleaf⟩ := mappages_leaf (by omega) hmap
  have hstep : Filled new₀ ph₀ [] (copyPerm old) (List.range' v n ++ [v + n]) (lentWord old)
      new₁ ph₁ := Filled.stepLent hc hv hacct hnone hleaf
  rwa [← List.range'_1_concat] at hstep

theorem Copied.copy (hc : Copied false old new₀ ph₀ v n new ph)
    (hram : ∀ f ∈ ph₀.freelist, RamPage f) (hv : v + n < maxvpn) {mem : Nat} {ph₂ ph₃ : Phys}
    (halloc : kalloc ph = some (mem, ph₁)) (hfree : ph₂.freelist = ph₁.freelist)
    (hmap : mappages new ph₂ ((v + n) * pgsize) pgsize mem
      (copyPerm old (v + n)) = .ok (true, new₁, ph₃)) :
    Copied false old new₀ ph₀ v (n + 1) new₁ ph₃ := by
  have hlt := mul_lt_maxva hv
  have hmax := maxva_room
  have hstep := Filled.step hc hram (pteFlags_lt _) halloc (by omega) hmap hfree
  rw [if_neg (by decide), ← List.range'_1_concat] at hstep
  exact hstep

theorem uvmcopyLoop_round (hR : CopyRange shared old new₀ ph₀ v (n + (m + 1)))
    (hc : Copied shared old new₀ ph₀ v n new ph) :
    (∃ new₁ ph₁, Copied shared old new₀ ph₀ v (n + 1) new₁ ph₁ ∧
      ph.freelist.length = copyNeed shared new (v + n) 1 + ph₁.freelist.length ∧
      copyNeed shared new (v + n) (m + 1) =
        copyNeed shared new (v + n) 1 + copyNeed shared new₁ (v + (n + 1)) m ∧
      uvmcopyLoop shared old (m + 1) ((v + n) * pgsize) new ph =
        uvmcopyLoop shared old m ((v + (n + 1)) * pgsize) new₁ ph₁) ∨
    (ph.freelist.length < copyNeed shared new (v + n) 1 ∧ ∃ pt₁ ph₁,
      Copied shared old new₀ ph₀ v n pt₁ ph₁ ∧
      uvmcopyLoop shared old (m + 1) ((v + n) * pgsize) new ph =
        (uvmunmap pt₁ ph₁ 0 (v + n) true).map fun r => (false, r)) := by
  obtain ⟨hv, w, hw, -, hreads⟩ := hR.present (v + n) (by omega) (by omega)
  rw [← (leaf_eq_some.1 hw).1] at hreads
  have hlt := mul_lt_maxva hv
  have hmax := maxva_room
  rw [copyNeed_one]
  rcases frameFor_cases ph hreads with ⟨rfl, hframe⟩ | ⟨rfl, halloc, hframe⟩ |
    ⟨rfl, mem, ph₁, ph₂, halloc, hfree, hframe⟩
  · obtain ⟨⟨ok, new₁, ph₁⟩, hmap⟩ := mappages_ok ph (pte2pa (old.entry (v + n)))
      (copyPerm old (v + n)) (hc.null hR) hv (hc.leaf_none hR)
    obtain ⟨hroom, hfew⟩ := mappages_room (Nat.mul_mod_left _ _) (by omega) hmap
    rw [if_pos rfl, Nat.zero_add]
    cases ok with
    | true =>
      have hneed := copyNeed_succ true hv hmap m
      rw [copyNeed_one, if_pos rfl, Nat.zero_add] at hneed
      exact .inl ⟨new₁, ph₁, hc.share hv hmap, (hroom rfl).1, hneed,
        uvmcopyLoop_some hR hframe hmap⟩
    | false =>
      obtain ⟨-, -, hacct, -, hno⟩ := mappages_page (Nat.mul_mod_left _ _) (by omega) hmap
      have hleaf : ∀ u < nvpn, new₁.leaf u = new.leaf u :=
        fun u _ => leaf_congr ((hno rfl).2 u)
      exact .inr ⟨(hfew rfl).1, new₁, ph₁, Filled.keep hc hacct hleaf,
        uvmcopyLoop_some hR hframe hmap⟩
  · -- no frame for the copy
    have hnil := kalloc_eq_none.1 halloc
    refine .inr ⟨?_, new, ph, hc, uvmcopyLoop_none hR hframe⟩
    rw [hnil, if_neg (by decide), length_nil]
    omega
  · obtain ⟨⟨ok, new₁, ph₃⟩, hmap⟩ := mappages_ok ph₂ mem
      (copyPerm old (v + n)) (hc.null hR) hv (hc.leaf_none hR)
    obtain ⟨hroom, hfew⟩ := mappages_room (Nat.mul_mod_left _ _) (by omega) hmap
    have hlen : ph.freelist.length = ph₂.freelist.length + 1 := by
      rw [kalloc_eq_some halloc, hfree, length_cons]
    rw [if_neg (by decide)]
    cases ok with
    | true =>
      have hone := (hroom rfl).1
      have hneed := copyNeed_succ false hv hmap m
      rw [copyNeed_one] at hneed
      exact .inl ⟨new₁, ph₃, hc.copy hR.ram hv halloc hfree hmap, by omega, hneed,
        uvmcopyLoop_some hR hframe hmap⟩
    | false =>
      have hone := hfew rfl
      have hmem : RamPage mem :=
        hR.ram mem (hc.mem_of_mem (by rw [kalloc_eq_some halloc]; exact mem_cons_self))
      have hkfree : kfree ph₃ mem = .ok _ := kfree_of_ram hmem
      refine .inr ⟨by omega, new₁, _, hc.stepFail halloc (by omega) hmap hfree hkfree, ?_⟩
      rw [uvmcopyLoop_some hR hframe hmap, if_neg (by decide)]
      change kfree ph₃ mem >>= _ = _
      rw [hkfree]
      rfl

/-! ## The whole range -/

theorem uvmcopyLoop_ends (m : Nat) {n : Nat} {new : PageTable}
    (hR : CopyRange shared old new₀ ph₀ v (n + m)) (hc : Copied shared old new₀ ph₀ v n new ph) :
    (copyNeed shared new (v + n) m ≤ ph.freelist.length ∧ ∃ new' ph',
      uvmcopyLoop shared old m ((v + n) * pgsize) new ph = .ok (true, new', ph')) ∨
    (ph.freelist.length < copyNeed shared new (v + n) m ∧ ∃ j pt₁ ph₁, j < m ∧
      (j = 0 ↔ ph.freelist.length < copyNeed shared new (v + n) 1) ∧
      Copied shared old new₀ ph₀ v (n + j) pt₁ ph₁ ∧
      uvmcopyLoop shared old m ((v + n) * pgsize) new ph =
        (uvmunmap pt₁ ph₁ 0 (v + (n + j)) true).map fun r => (false, r)) := by
  induction m generalizing n new ph with
  | zero =>
    have hzero : copyNeed shared new (v + n) 0 = 0 := by cases shared <;> rfl
    exact .inl ⟨by omega, new, ph, rfl⟩
  | succ m ih =>
    rcases uvmcopyLoop_round hR hc with ⟨new₁, ph₁, hc₁, hlen, hneed, hloop⟩ |
      ⟨hfew, pt₁, ph₁, hc₁, hloop⟩
    · rw [hloop]
      rw [show n + (m + 1) = n + 1 + m by omega] at hR
      rcases ih hR hc₁ with ⟨hle, hok⟩ | ⟨hlt, j, pt₂, ph₂, hj, -, hc₂, hun⟩
      · exact .inl ⟨by omega, hok⟩
      · rw [Nat.add_right_comm n 1 j] at hc₂ hun
        exact .inr ⟨by omega, j + 1, pt₂, ph₂, by omega, by omega, hc₂, hun⟩
    · have hle : copyNeed shared new (v + n) 1 ≤ copyNeed shared new (v + n) (m + 1) := by
        exact copyNeed_le _ _ _ _
      exact .inr ⟨by omega, 0, pt₁, ph₁, by omega, by omega, hc₁, hloop⟩

end

/-! ## What a failure leaves -/

/-- The call did not fail, or it failed without a panic and left the mappings of `new` as they
were; a copy has given back every frame it took, sharing has freed no frame that `old` maps. -/
def CleanOutcome (shared : Bool) (old new : PageTable) (ph : Phys) :
    Except Panic (Bool × PageTable × Phys) → Prop
  | .error _ => False
  | .ok (true, _, _) => True
  | .ok (false, new', ph') =>
    (∀ u < nvpn, new'.leaf u = new.leaf u) ∧
    if shared then ∀ u w, old.leaf u = some w → ph'.held new' (pte2pa w) ≤ ph.held new (pte2pa w)
    else ∀ f, ph'.held new' f = ph.held new f

def CleanFailure (shared : Bool) (old new : PageTable) (ph : Phys) (start stop : Nat) : Prop :=
  CleanOutcome shared old new ph
    (if shared then uvmcopyshared old new ph start stop else uvmcopy old new ph start stop)

section

variable {shared : Bool} {old new pt₁ : PageTable} {ph ph₁ : Phys} {v n m : Nat}

theorem CopyRange.le_maxvpn (hR : CopyRange shared old new ph v (n + m)) (hn : 0 < n) :
    v + n ≤ maxvpn := by
  have := (hR.present (v + n - 1) (by omega) (by omega)).1
  omega

theorem pages_lt (hv : v ≤ maxvpn) : 0 * pgsize + v * pgsize < 2 ^ 64 := by
  have hle := mul_le_maxva hv
  have hlt := maxva_room
  omega

theorem not_clean_above (hv : 0 < v) (hmax : v + n ≤ maxvpn)
    (hc : Copied shared old new ph v n pt₁ ph₁) :
    ¬ CleanOutcome shared old new ph
      ((uvmunmap pt₁ ph₁ 0 (v + n) true).map fun r => (false, r)) := by
  intro h
  cases hun : uvmunmap pt₁ ph₁ 0 (v + n) true with
  | error e =>
    rw [hun] at h
    exact h
  | ok r =>
    rw [hun] at h
    obtain ⟨-, hmapped, hleaf⟩ := uvmunmap_eq_ok (pages_lt hmax) hun
    obtain ⟨-, w, hw, -⟩ := hmapped 0 (by omega) (by omega)
    have hzero : (0 : Nat) < nvpn := by decide
    have hnot : 0 ∉ List.range' v n := by
      rw [mem_range']
      omega
    have hsame := hc.other 0 hzero (by split <;> simp [hnot]) (by split <;> simp [hnot])
    have hgone := h.1 0 hzero
    rw [hleaf 0 hzero, if_pos (by omega), ← hsame, hw] at hgone
    cases hgone

theorem clean_copy (hR : CopyRange false old new ph 0 (n + m))
    (hc : Copied false old new ph 0 n pt₁ ph₁) :
    CleanOutcome false old new ph ((uvmunmap pt₁ ph₁ 0 (0 + n) true).map fun r => (false, r)) := by
  have hf : Filled new ph (List.range' 0 n) (copyPerm old) [] (lentWord old) pt₁ ph₁ := hc
  have hmax : 0 + n ≤ maxvpn := by
    rcases Nat.eq_zero_or_pos n with rfl | hn
    · exact Nat.zero_le _
    · exact hR.le_maxvpn hn
  have hleaf : ∀ u, 0 ≤ u → u < 0 + n → ∃ w, pt₁.leaf u = some w ∧ Unmappable true w := by
    intro u hu hlt
    obtain ⟨f, hram, hw⟩ := hf.new u (mem_range'.2 ⟨hu, hlt⟩)
    obtain ⟨-, w, hold, hflags, -⟩ := hR.present u hu (by omega)
    obtain ⟨hentry, hvalid⟩ := leaf_eq_some.1 hold
    refine ⟨_, hw, unmappable_leafWord hram (pteFlags_lt _) ?_⟩
    rwa [copyPerm, hentry, or_pteV (by rwa [has_pteFlags w (by decide)])]
  obtain ⟨⟨pt', ph'⟩, hun⟩ := uvmunmap_ok true ph₁ (hf.acct.null.trans hR.null) hmax hleaf
  obtain ⟨hacct, -, hgone⟩ := uvmunmap_eq_ok (pages_lt (by omega)) hun
  obtain ⟨hsum, hsame⟩ := hf.undone hacct fun u hu => by
    rw [hgone u hu]
    simp only [mem_range']
  rw [Nat.zero_mul] at hun
  rw [Nat.zero_add, hun]
  refine ⟨hsame, fun f => ?_⟩
  have := hsum.cons f
  simp only [count_nil, Nat.zero_add] at this
  exact this.symm

theorem uvmcopy_ok {sz : Nat} (hram : ∀ f ∈ ph.freelist, RamPage f) (hnullo : old.isNull = false)
    (hnull : new.isNull = false) (hmax : npages sz ≤ maxvpn)
    (hold : ∀ u < npages sz, HeapPage old u) (hnone : ∀ u < npages sz, new.leaf u = none) :
    ∃ r, uvmcopy old new ph 0 sz = .ok r := by
  have hR : CopyRange false old new ph 0 (0 + npages sz) := by
    refine ⟨hnullo, hnull, fun u _ hu => ⟨by omega, ?_⟩, fun u _ hu => hnone u (by omega), hram⟩
    obtain ⟨f, hf, hl⟩ := hold u (by omega)
    refine ⟨_, hl, ?_, fun _ => ?_⟩
    · rw [pteFlags_leafWord f (by decide)]
      decide
    · rw [pte2pa_leafWord hf (by decide)]
      exact hf.kernelReads
  have hnil : Copied false old new ph 0 0 new ph := Filled.nil new ph _ _
  rw [uvmcopy, pageCount_zero, show 0 = (0 + 0) * pgsize by decide]
  rcases uvmcopyLoop_ends (npages sz) hR hnil with ⟨-, new', ph', h⟩ | ⟨-, j, pt₁, ph₁, hj, -, hc, h⟩
  · exact ⟨_, h⟩
  · -- the unmapping after a failure does not panic
    obtain ⟨m, hm⟩ := Nat.exists_eq_add_of_le (show 0 + j ≤ 0 + npages sz by omega)
    have hclean := clean_copy (hm ▸ hR) hc
    rw [← h] at hclean
    cases hres : uvmcopyLoop false old (npages sz) ((0 + 0) * pgsize) new ph with
    | error e =>
      rw [hres] at hclean
      exact hclean.elim
    | ok r => exact ⟨r, rfl⟩

theorem clean_share_none (hc : Copied true old new ph 0 0 pt₁ ph₁) :
    CleanOutcome true old new ph ((uvmunmap pt₁ ph₁ 0 (0 + 0) true).map fun r => (false, r)) := by
  have hf : Filled new ph [] (copyPerm old) [] (lentWord old) pt₁ ph₁ := hc
  refine ⟨fun u hu => hf.other u hu not_mem_nil not_mem_nil, fun u w _ => ?_⟩
  have := hf.acct.cons (pte2pa w)
  simp only [PageTable.frames, map_nil, count_nil, Nat.zero_add] at this
  exact this.ge

theorem not_clean_share (hn : 0 < n) (hR : CopyRange true old new ph 0 (n + m))
    (hc : Copied true old new ph 0 n pt₁ ph₁) :
    ¬ CleanOutcome true old new ph ((uvmunmap pt₁ ph₁ 0 (0 + n) true).map fun r => (false, r)) := by
  intro h
  cases hun : uvmunmap pt₁ ph₁ 0 (0 + n) true with
  | error e =>
    rw [hun] at h
    exact h
  | ok r =>
    obtain ⟨pt', ph'⟩ := r
    rw [hun] at h
    have hf : Filled new ph [] (copyPerm old) (List.range' 0 n) (lentWord old) pt₁ ph₁ := hc
    have hzero : 0 ∈ List.range' 0 n := mem_range'.2 ⟨le_rfl, by omega⟩
    obtain ⟨-, w, hw, -, -⟩ := hR.present 0 le_rfl (by omega)
    have hpa : pte2pa (pt₁.entry 0) = pte2pa w := by
      rw [(leaf_eq_some.1 (hf.shared 0 hzero)).1, pte2pa_lentWord,
        (leaf_eq_some.1 hw).1]
    obtain ⟨hacct, -, -⟩ := uvmunmap_eq_ok (pages_lt (hR.le_maxvpn hn)) hun
    have hfreed : 0 < (pt₁.frames (List.range' 0 n)).count (pte2pa w) :=
      count_pos_iff.2 (mem_map.2 ⟨0, hzero, hpa⟩)
    have hbefore := hf.acct.cons (pte2pa w)
    have hafter := hacct.cons (pte2pa w)
    have hle : ph'.held pt' (pte2pa w) ≤ ph.held new (pte2pa w) := h.2 0 w hw
    unfold Phys.held at hle
    simp only [PageTable.frames, map_nil]
      at hbefore
    simp only [if_true, count_nil, Nat.zero_add] at hafter
    omega

end

theorem pageCount_vpn {start stop : Nat} (hstart : start % pgsize = 0) (hstop : stop % pgsize = 0) :
    pageCount start stop = vpn stop - vpn start := by
  unfold pageCount vpn pgsize at *
  split <;> omega

/-- Both fail cleanly as long as memory suffices.  When it does not, `uvmcopy` does from address
0 on, and `uvmcopyshared` if, further, not even the first page could be shared. -/
theorem cleanFailure_iff {shared : Bool} {old new : PageTable} {ph : Phys} {start stop : Nat}
    (hstart : start % pgsize = 0) (hstop : stop % pgsize = 0)
    (hR : CopyRange shared old new ph (vpn start) (vpn stop - vpn start)) :
    CleanFailure shared old new ph start stop ↔
      copyNeed shared new (vpn start) (vpn stop - vpn start) ≤ ph.freelist.length ∨
      start = 0 ∧ (shared = false ∨ ph.freelist.length < new.missing start) := by
  have hcount := pageCount_vpn hstart hstop
  have hva : vpn start * pgsize = start := by
    unfold vpn pgsize at *
    omega
  have hcall : (if shared then uvmcopyshared old new ph start stop
      else uvmcopy old new ph start stop) =
        uvmcopyLoop shared old (vpn stop - vpn start) ((vpn start + 0) * pgsize) new ph := by
    rw [uvmcopyshared, uvmcopy, hcount, Nat.add_zero, hva]
    cases shared <;> rfl
  have hnil : Copied shared old new ph (vpn start) 0 new ph := by
    cases shared <;> exact Filled.nil new ph _ _
  have hstart' : start = 0 ↔ vpn start = 0 := by
    unfold vpn pgsize at *
    omega
  rw [CleanFailure, hcall, hstart']
  rw [show vpn stop - vpn start = 0 + (vpn stop - vpn start) by omega] at hR
  rcases uvmcopyLoop_ends _ hR hnil with ⟨hle, new', ph', hloop⟩ |
    ⟨hfew, j, pt₁, ph₁, hj, hfirst, hc, hloop⟩
  · rw [hloop]
    exact ⟨fun _ => .inl hle, fun _ => trivial⟩
  · rw [Nat.zero_add] at hc hloop
    rw [Nat.zero_add, show vpn stop - vpn start = j + (vpn stop - vpn start - j) by omega] at hR
    rw [Nat.add_zero] at hfew hfirst
    rw [hloop, or_iff_right (by omega)]
    rw [copyNeed_one, hva] at hfirst
    generalize vpn start = v at *
    rcases Nat.eq_zero_or_pos v with rfl | hv
    · cases shared with
      | false => exact ⟨fun _ => ⟨rfl, .inl rfl⟩, fun _ => clean_copy hR hc⟩
      | true =>
        rw [if_pos rfl, Nat.zero_add] at hfirst
        rw [← hfirst]
        rcases Nat.eq_zero_or_pos j with rfl | hpos
        · exact ⟨fun _ => ⟨rfl, .inr rfl⟩, fun _ => clean_share_none hc⟩
        · have hne : ¬ (true = false ∨ j = 0) := by simp; omega
          exact ⟨fun h => absurd h (not_clean_share hpos hR hc), fun h => absurd h.2 hne⟩
    · have hmax : v + j ≤ maxvpn := by
        have := (hR.present (v + j) (by omega) (by omega)).1
        omega
      exact ⟨fun h => absurd h (not_clean_above hv hmax hc), fun h => by omega⟩

/-- A table of three pages, in the frames from `f` on, in which page `v` of the first 512 has
the entry `w`. -/
def oneLeaf (f v w : Nat) : PageTable :=
  .dir f fun i => if i = 0 then
    .dir (f + pgsize) fun i => if i = 0 then
      .page (f + 2 * pgsize) fun i => if i = v then w else 0
    else .absent
  else .absent

/-- A parent with page 1 of a region, a child that has got page 0 of the heap, and no frame. -/
def regionOld : PageTable := oneLeaf kernelEnd 1 (leafWord (kernelEnd + 3 * pgsize) heapPerm)

def regionNew : PageTable :=
  oneLeaf (kernelEnd + 4 * pgsize) 0 (leafWord (kernelEnd + 7 * pgsize) heapPerm)

def noFrames : Phys := ⟨[], fun _ => 0⟩

theorem copyRange_region : CopyRange false regionOld regionNew noFrames 1 1 := by
  refine ⟨rfl, rfl, fun u h1 h2 => ?_, fun u h1 h2 => ?_, fun f hf => (nomatch hf)⟩
  · obtain rfl : u = 1 := by omega
    exact ⟨by decide, leafWord (kernelEnd + 3 * pgsize) heapPerm, by decide, by decide,
      fun _ => by decide⟩
  · obtain rfl : u = 1 := by omega
    decide

/-- The copy of the region fails, and the child has lost its heap. -/
theorem not_cleanFailure_region :
    CopyRange false regionOld regionNew noFrames (vpn pgsize) (vpn (2 * pgsize) - vpn pgsize) ∧
      ¬ CleanFailure false regionOld regionNew noFrames pgsize (2 * pgsize) := by
  refine ⟨copyRange_region, ?_⟩
  have hnil : Copied false regionOld regionNew noFrames 1 0 regionNew noFrames :=
    Filled.nil regionNew noFrames _ _
  have hclean := not_clean_above (by decide) (by decide) hnil
  exact hclean

theorem cleanFailure_iff_heap : CleanFailure false
    (oneLeaf kernelEnd 0 (leafWord (kernelEnd + 3 * pgsize) heapPerm))
    (Radix.Table.empty (kernelEnd + 4 * pgsize) 2) noFrames 0 pgsize := by
  refine (cleanFailure_iff (by decide) (by decide) ?_).2 (.inr ⟨rfl, .inl rfl⟩)
  refine ⟨rfl, rfl, fun u h1 h2 => ?_, fun u h1 h2 => ?_, fun f hf => (nomatch hf)⟩
  · obtain rfl : u = 0 := Nat.lt_one_iff.1 h2
    exact ⟨by decide, leafWord (kernelEnd + 3 * pgsize) heapPerm, by decide, by decide,
      fun _ => by decide⟩
  · obtain rfl : u = 0 := Nat.lt_one_iff.1 h2
    decide

end Xv6
