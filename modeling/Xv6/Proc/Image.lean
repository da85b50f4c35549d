/-
What `exec` does when it returns: the image it builds maps the pages below its size, and either
that image or the old address space is freed as a whole.
-/
import Xv6.Proc.Spec

namespace Xv6

open PageTable List
open Run (bind_eq_ok)

namespace Filled

variable {done ok : Bool} {k k' : Kernel} {file : List UInt8} {sz : Nat} {perm : Nat → Nat}
  {pt pt' pt₀ : PageTable} {ph ph' ph₀ : Phys}

variable {argv : List (List UInt8)}

variable {pt₀ pt pt' : PageTable} {ph₀ ph ph' : Phys} {fresh fresh' : List Nat}
  {perm word : Nat → Nat}

theorem trans (h : Filled pt₀ ph₀ fresh perm [] word pt ph)
    (h' : Filled pt ph fresh' perm [] word pt' ph') :
    Filled pt₀ ph₀ (fresh ++ fresh') perm [] word pt' ph' := by
  have hdisj : ∀ u ∈ fresh, u ∉ fresh' := by
    intro u hu hu'
    exact h.mapped (.inl hu) (h'.unmapped u (.inl hu')).2
  have hkeep : ∀ u ∈ fresh, pt'.leaf u = pt.leaf u := fun u hu =>
    h'.other u (lt_nvpn (h.unmapped u (.inl hu)).1) (hdisj u hu) (by simp)
  refine ⟨?_, fun u hu => ?_, fun u hu => ?_, by simp, fun u hu h1 h2 => ?_, ?_⟩
  · have hframes : pt'.frames fresh = pt.frames fresh := by
      apply frames_congr
      intro u hu
      obtain ⟨f, -, hw⟩ := h.new u hu
      rw [(leaf_eq_some.1 hw).1,
        (leaf_eq_some.1 ((hkeep u hu).trans hw)).1]
    have := h.acct.trans h'.acct
    rw [← hframes] at this
    simpa [PageTable.frames] using this
  · rcases hu with hu | hu
    · rcases mem_append.1 hu with hu | hu
      · exact h.unmapped u (.inl hu)
      · obtain ⟨hlt, hnone⟩ := h'.unmapped u (.inl hu)
        refine ⟨hlt, ?_⟩
        by_cases hmem : u ∈ fresh
        · exact absurd hu (hdisj u hmem)
        · rw [← h.other u (lt_nvpn hlt) hmem (by simp), hnone]
    · cases hu
  · rcases mem_append.1 hu with hu | hu
    · rw [hkeep u hu]
      exact h.new u hu
    · exact h'.new u hu
  · rw [mem_append, not_or] at h1
    rw [h'.other u hu h1.2 h2, h.other u hu h1.1 h2]
  · have hn := h.nodup
    have hn' := h'.nodup
    rw [append_nil] at hn hn' ⊢
    exact hn.append hn' fun u hu hu' => hdisj u hu hu'

end Filled

/-- The pages below `sz` have been added to `pt₀`, with the flags `perm`. -/
structure ImageOf (pt₀ : PageTable) (ph₀ : Phys) (perm : Nat → Nat) (pt : PageTable) (ph : Phys)
    (sz : Nat) : Prop where
  filled : Filled pt₀ ph₀ (List.range' 0 (npages sz)) perm [] (fun _ => 0) pt ph
  le : sz ≤ maxva

theorem range'_npages {a b : Nat} (h : a ≤ b) :
    List.range' 0 (npages a) ++ List.range' (npages a) (npages b - npages a) =
      List.range' 0 (npages b) := by
  have hle := npages_mono h
  rw [show npages b = npages a + (npages b - npages a) by omega, ← List.range'_append_1,
    Nat.zero_add, Nat.add_sub_cancel_left]

theorem le_npages_mul (sz : Nat) : sz ≤ npages sz * pgsize := by
  unfold npages pgsize
  omega

namespace ImageOf

variable {pt₀ pt pt' : PageTable} {ph₀ ph ph' : Phys} {sz sz' newsz : Nat}

theorem nil (pt₀ : PageTable) (ph₀ : Phys) : ImageOf pt₀ ph₀ (fun _ => heapPerm) pt₀ ph₀ 0 :=
  ⟨by rw [show npages 0 = 0 by decide]; exact Filled.nil pt₀ ph₀ _ _, Nat.zero_le _⟩

theorem of_freelist (h : ImageOf pt₀ ph₀ perm pt ph sz) (hfree : ph'.freelist = ph.freelist) :
    ImageOf pt₀ ph₀ perm pt ph' sz :=
  ⟨h.filled.of_freelist hfree, h.le⟩

theorem uvmalloc (h : ImageOf pt₀ ph₀ (fun _ => heapPerm) pt ph sz)
    (hram : ∀ f ∈ ph₀.freelist, RamPage f)
    (halloc : Xv6.uvmalloc pt ph sz newsz = .ok (sz', pt', ph')) :
    (sz' = max sz newsz ∧ ImageOf pt₀ ph₀ (fun _ => heapPerm) pt' ph' sz') ∨
      (sz' = 0 ∧ ImageOf pt₀ ph₀ (fun _ => heapPerm) pt' ph' sz) := by
  have hram' : ∀ f ∈ ph.freelist, RamPage f := fun f hf => hram f (h.filled.mem_of_mem hf)
  rcases uvmalloc_eq_ok hram' h.le halloc with ⟨hlt, rfl, rfl, rfl⟩ | ⟨hle, rfl, hfill, hmax⟩ |
    ⟨hle, rfl, hacct, hleaf⟩
  · exact .inl ⟨by omega, h⟩
  · refine .inl ⟨by omega, ?_, ?_⟩
    · rw [← range'_npages hle]
      exact h.filled.trans hfill
    · by_cases hnp : npages sz < npages sz'
      · exact hmax hnp
      · calc sz' ≤ npages sz' * pgsize := le_npages_mul sz'
          _ ≤ npages sz * pgsize := Nat.mul_le_mul_right _ (by omega)
          _ ≤ maxvpn * pgsize := Nat.mul_le_mul_right _ (npages_le h.le)
  · exact .inr ⟨rfl, h.filled.keep hacct hleaf, h.le⟩

end ImageOf

/-! ## The stages of exec -/

theorem loadsegLoop_eq_ok {va offset n i : Nat}
    (h : loadsegLoop pt file va offset sz n i ph = .ok (ok, ph')) : ph'.freelist = ph.freelist := by
  induction n generalizing i ph with
  | zero => cases h; rfl
  | succ n ih =>
    obtain ⟨pa, -, h⟩ := bind_eq_ok.1 h
    obtain ⟨-, -, h⟩ := bind_eq_ok.1 h
    obtain ⟨-, -, h⟩ := bind_eq_ok.1 h
    split at h
    · exact (ih h).trans rfl
    · cases h; rfl

theorem loadProgram_eq_ok {n off sz' : Nat} (hram : ∀ f ∈ ph₀.freelist, RamPage f)
    (hi : ImageOf pt₀ ph₀ (fun _ => heapPerm) pt ph sz)
    (h : loadProgram file n off pt ph sz = .ok (ok, pt', ph', sz')) :
    ImageOf pt₀ ph₀ (fun _ => heapPerm) pt' ph' sz' := by
  induction n generalizing off pt ph sz with
  | zero => cases h; exact hi
  | succ n ih =>
    unfold loadProgram at h
    dsimp only at h
    split at h
    · cases h; exact hi
    split at h
    · exact ih hi h
    split at h
    · cases h; exact hi
    split at h
    · cases h; exact hi
    obtain ⟨⟨sz₁, pt₁, ph₁⟩, halloc, h⟩ := bind_eq_ok.1 h
    rcases hi.uvmalloc hram halloc with ⟨hmax, hi₁⟩ | ⟨h0, hi₁⟩
    · split at h
      · rename_i h0
        cases h
        -- the segment and all before it end at address 0
        have hsz : sz₁ = sz' := by omega
        exact hsz ▸ hi₁
      split at h
      · cases h; exact hi₁
      obtain ⟨⟨ok', ph₂⟩, hload, h⟩ := bind_eq_ok.1 h
      have hi₂ := hi₁.of_freelist (loadsegLoop_eq_ok hload)
      split at h
      · exact ih hi₂ h
      · cases h; exact hi₂
    · rw [if_pos h0] at h
      cases h
      exact hi₁

def guardPerm : Nat := pteW ||| pteX ||| pteR

theorem leafWord_clear_user {f : Nat} (hf : RamPage f) :
    leafWord f heapPerm - (leafWord f heapPerm &&& pteU) = leafWord f guardPerm := by
  have hand : leafWord f heapPerm &&& pteU = 16 := by
    have h0 : pa2pte f &&& pteU = 0 := by
      simpa [has] using has_pa2pte f (show pteU < 1024 by decide)
    rw [leafWord_eq hf (by decide), Nat.and_or_distrib_right, h0]
    decide
  rw [hand, leafWord_eq hf (by decide), leafWord_eq hf (by decide), pa2pte_or (by decide),
    pa2pte_or (by decide)]
  simp only [show heapPerm ||| pteV = 31 by decide, show guardPerm ||| pteV = 15 by decide]
  omega

theorem ImageOf.uvmclear {v : Nat} (h : ImageOf pt₀ ph₀ (fun _ => heapPerm) pt ph sz)
    (hv : v < npages sz) (hclear : Xv6.uvmclear pt ph (v * pgsize) = .ok pt') :
    ImageOf pt₀ ph₀ (fun u => if u = v then guardPerm else heapPerm) pt' ph sz := by
  have hvpn := vpn_mul v
  have hmem : v ∈ List.range' 0 (npages sz) := by
    rw [mem_range']
    omega
  obtain ⟨⟨found, pt₁, ph₁⟩, hwalk, hclear⟩ := bind_eq_ok.1 hclear
  obtain ⟨hlt, -, hr⟩ := walk_false_eq_ok hwalk
  cases hr
  obtain ⟨_, hfound, hclear⟩ := bind_eq_ok.1 hclear
  rw [require_eq_ok] at hfound
  cases hclear
  obtain ⟨f, hf, hleaf⟩ := h.filled.new v hmem
  have hentry := (leaf_eq_some.1 hleaf).1
  have hset : ∀ u < nvpn, (pt.setPte (v * pgsize)
      (pt.pte (v * pgsize) - (pt.pte (v * pgsize) &&& pteU))).entry u =
        if u = v then leafWord f guardPerm else pt.entry u := by
    intro u hu
    rw [entry_setPte _ hfound hlt hu, pte_eq, hvpn, hentry,
      leafWord_clear_user hf]
  have hleaf' : ∀ u < nvpn, u ≠ v → (pt.setPte (v * pgsize)
      (pt.pte (v * pgsize) - (pt.pte (v * pgsize) &&& pteU))).leaf u = pt.leaf u := by
    intro u hu hne
    exact leaf_congr (by rw [hset u hu, if_neg hne])
  refine ⟨⟨?_, h.filled.unmapped, fun u hu => ?_, by simp, fun u hu h1 h2 => ?_,
    h.filled.nodup⟩, h.le⟩
  · have hframes : PageTable.frames (pt.setPte (v * pgsize)
        (pt.pte (v * pgsize) - (pt.pte (v * pgsize) &&& pteU))) (List.range' 0 (npages sz)) =
        pt.frames (List.range' 0 (npages sz)) := by
      apply map_congr_left
      intro u hu
      rw [hset u (lt_nvpn (h.filled.unmapped u (.inl hu)).1)]
      split
      · rename_i huv
        rw [huv, hentry, pte2pa_leafWord hf (by decide), pte2pa_leafWord hf (by decide)]
      · rfl
    rw [hframes]
    exact h.filled.acct.setPte _ _
  · have hlt := lt_nvpn (h.filled.unmapped u (.inl hu)).1
    by_cases huv : u = v
    · rw [if_pos huv, leaf_eq_some.2 ⟨(hset u hlt).trans (if_pos huv), has_leafWord _ _⟩]
      exact ⟨f, hf, rfl⟩
    · rw [if_neg huv, hleaf' u hlt huv]
      exact h.filled.new u hu
  · have hne : u ≠ v := fun he => h1 (he ▸ hmem)
    rw [hleaf' u hu hne]
    exact h.filled.other u hu h1 h2

theorem pushArgs_eq_ok {stackbase sp : Nat} {ustack : List Nat} {r : Option (Nat × List Nat)}
    (h : pushArgs pt stackbase argv sp ustack ph = .ok (r, ph')) : ph'.freelist = ph.freelist := by
  induction argv generalizing sp ustack ph with
  | nil => cases h; rfl
  | cons s argv ih =>
    unfold pushArgs at h
    split at h
    · cases h; rfl
    dsimp only at h
    split at h
    · cases h; rfl
    obtain ⟨⟨ok, ph₁⟩, hcopy, h⟩ := bind_eq_ok.1 h
    split at h
    · exact (ih h).trans (copyoutLoop_eq_ok hcopy)
    · cases h
      exact copyoutLoop_eq_ok hcopy

theorem pushArgv_eq_ok {r : Option Nat} (h : pushArgv pt ph sz argv = .ok (r, ph')) :
    ph'.freelist = ph.freelist := by
  obtain ⟨⟨pushed, ph₁⟩, hargs, h⟩ := bind_eq_ok.1 h
  have h₁ := pushArgs_eq_ok hargs
  cases pushed with
  | none => cases h; exact h₁
  | some s =>
    obtain ⟨-, -, h⟩ := bind_eq_ok.1 h
    dsimp only at h
    split at h
    · cases h; exact h₁
    · obtain ⟨⟨ok, ph₂⟩, hcopy, h⟩ := bind_eq_ok.1 h
      cases h
      exact (copyoutLoop_eq_ok hcopy).trans h₁

/-- The flags of the pages of an image of `n` pages: two of stack, the lower one a guard. -/
def imagePerm (n u : Nat) : Nat := if u + 2 = n then guardPerm else heapPerm

theorem execStack_eq_ok {sz' : Nat} {sp : Option Nat} (hram : ∀ f ∈ ph₀.freelist, RamPage f)
    (hi : ImageOf pt₀ ph₀ (fun _ => heapPerm) pt ph sz)
    (h : execStack pt ph sz argv = .ok (sp, pt', ph', sz')) :
    ∃ perm, ImageOf pt₀ ph₀ perm pt' ph' sz' ∧
      (sp ≠ none → perm = imagePerm (npages sz') ∧ sz' % pgsize = 0) := by
  have hroom : sz + pgsize ≤ 2 ^ 64 := by
    have hmax := maxva_room
    have := hi.le
    omega
  have hup : pgroundup sz = npages sz * pgsize := pgroundup_eq hroom
  have hi' : ImageOf pt₀ ph₀ (fun _ => heapPerm) pt ph (npages sz * pgsize) := by
    refine ⟨by rw [npages_mul]; exact hi.filled, ?_⟩
    exact Nat.mul_le_mul_right _ (npages_le hi.le)
  have hword : word (npages sz * pgsize + 2 * pgsize) = (npages sz + 2) * pgsize := by
    rw [word_of_lt, Nat.add_mul]
    have hmax := maxva_room
    have := hi'.le
    omega
  unfold execStack at h
  dsimp only at h
  rw [hup, hword] at h
  obtain ⟨⟨sz₁, pt₁, ph₁⟩, halloc, h⟩ := bind_eq_ok.1 h
  dsimp only at h
  rcases hi'.uvmalloc hram halloc with ⟨hmax, hi₁⟩ | ⟨h0, hi₁⟩
  · have hsz₁ : sz₁ = (npages sz + 2) * pgsize := by
      rw [hmax, max_eq_right]
      exact Nat.mul_le_mul_right _ (by omega)
    rw [if_neg (by rw [hsz₁]; exact Nat.mul_ne_zero (by omega) (by decide))] at h
    obtain ⟨pt₂, hclear, h⟩ := bind_eq_ok.1 h
    obtain ⟨⟨sp', ph₂⟩, hpush, h⟩ := bind_eq_ok.1 h
    cases h
    have hguard : wsub sz' (2 * pgsize) = npages sz * pgsize := by
      have hle := hi₁.le
      have hmax := maxva_room
      rw [hsz₁, Nat.add_mul] at hle ⊢
      rw [wsub_of_le (by omega) (by omega), Nat.add_sub_cancel]
    have hnp : npages sz' = npages sz + 2 := by rw [hsz₁, npages_mul]
    rw [hguard] at hclear
    have hi₂ := (hi₁.uvmclear (by omega) hclear).of_freelist (pushArgv_eq_ok hpush)
    refine ⟨_, hi₂, fun _ => ⟨?_, ?_⟩⟩
    · funext u
      rw [imagePerm, hnp]
      simp only [Nat.add_right_cancel_iff]
    · rw [hsz₁]
      exact Nat.mul_mod_left _ _
  · rw [if_pos h0] at h
    cases h
    exact ⟨_, hi₁, fun hne => absurd rfl hne⟩

/-! ## exec as a whole -/

theorem ImageOf.freed (h : ImageOf pt₀ ph₀ perm pt ph sz)
    (hfree : procFreepagetable pt ph sz = .ok ph') (f : Nat) :
    ph'.freelist.count f = ph₀.freelist.count f + pt₀.pages.count f := by
  have hcount := (procFreepagetable_eq_ok h.le hfree).1 f
  have hcons := h.filled.acct.cons f
  rw [count_nil] at hcons
  omega

theorem execBad_eq_ok (hi : ImageOf pt₀ ph₀ perm pt ph sz)
    (hcount : ∀ f, k.phys.freelist.count f = ph₀.freelist.count f + pt₀.pages.count f)
    (h : execBad k pt ph sz = .ok (done, k')) :
    done = false ∧ ∃ ph', (∀ f, ph'.freelist.count f = k.phys.freelist.count f) ∧
      k' = { k with phys := ph' } := by
  obtain ⟨ph', hfree, h⟩ := bind_eq_ok.1 h
  cases h
  exact ⟨rfl, ph', fun f => (hi.freed hfree f).trans (hcount f).symm, rfl⟩

theorem exec_eq_ok {p : Nat} {file : Option (List UInt8)}
    (hram : ∀ f ∈ k.phys.freelist, RamPage f) (h : exec k p file argv = .ok (done, k')) :
    (done = false ∧ ∃ ph, (∀ f, ph.freelist.count f = k.phys.freelist.count f) ∧
      k' = { k with phys := ph }) ∨
      (done = true ∧ ∃ tf pt₀ ph₀ pt ph sz ph', (k.proc p).trapframe = some tf ∧
        procPagetable k.phys tf = .ok (pt₀, ph₀) ∧ pt₀.isNull = false ∧
        ImageOf pt₀ ph₀ (imagePerm (npages sz)) pt ph sz ∧ sz % pgsize = 0 ∧
        procFreepagetable (k.proc p).pagetable ph (k.proc p).sz = .ok ph' ∧
        k' = k.resize p sz (pt, ph')) := by
  have hsame : ∀ f, k.phys.freelist.count f = k.phys.freelist.count f := fun _ => rfl
  unfold exec at h
  split at h
  · cases h
    exact .inl ⟨rfl, k.phys, hsame, rfl⟩
  · cases h
  · rename_i file tf htf
    dsimp only at h
    split at h
    · cases h
      exact .inl ⟨rfl, k.phys, hsame, rfl⟩
    obtain ⟨⟨pt₀, ph₀⟩, hpt, h⟩ := bind_eq_ok.1 h
    split at h
    · rename_i hnull
      cases h
      exact .inl ⟨rfl, ph₀, ((procPagetable_eq_ok hpt).1 hnull).2, rfl⟩
    · rename_i hnull
      have hnull' : pt₀.isNull = false := by simpa using hnull
      have hcount := ((procPagetable_eq_ok hpt).2 hnull').1
      have hram₀ : ∀ f ∈ ph₀.freelist, RamPage f := by
        intro f hf
        have := count_pos_iff.2 hf
        exact hram f (count_pos_iff.1 (by have := hcount f; omega))
      obtain ⟨⟨ok, pt₁, ph₁, sz₁⟩, hload, h⟩ := bind_eq_ok.1 h
      have hi₁ := loadProgram_eq_ok hram₀ (ImageOf.nil pt₀ ph₀) hload
      split at h
      · obtain ⟨⟨sp, pt₂, ph₂, sz₂⟩, hstack, h⟩ := bind_eq_ok.1 h
        obtain ⟨perm, hi₂, hperm⟩ := execStack_eq_ok hram₀ hi₁ hstack
        cases sp with
        | none => exact .inl (execBad_eq_ok hi₂ hcount h)
        | some sp =>
          obtain ⟨hp, halign⟩ := hperm (by simp)
          rw [hp] at hi₂
          obtain ⟨ph₃, hfree, h⟩ := bind_eq_ok.1 h
          cases h
          refine .inr ⟨rfl, tf, pt₀, ph₀, pt₂, _, sz₂, ph₃, htf, hpt, hnull', ?_, halign, hfree,
            rfl⟩
          exact hi₂.of_freelist rfl
      · exact .inl (execBad_eq_ok hi₁ hcount h)

end Xv6
