/-
The ids of `mmr_list`: in an orderly run the ids in use are those of the shared regions that
processes hold, one for each call of `mmap`.
-/
import Xv6.Mmr.Isolated

namespace Xv6

open Function Kernel
open Run (bind_eq_ok)

namespace Kernel

/-- The valid entries of `mmr_list` are the ids of the regions in `H` that are not private, and
two such regions have one id exactly when they come from one call of `mmap`. -/
structure Ids (k : Kernel) (H : Nat → Nat → Prop) : Prop where
  range : ∀ p i, H p i → ((k.proc p).mmr i).isPrivate = false →
    inMmrList ((k.proc p).mmr i).family.listid
  taken : ∀ j < nlist, k.mmrList j = true ↔ ∃ p i, H p i ∧
    ((k.proc p).mmr i).isPrivate = false ∧ ((k.proc p).mmr i).family.listid = j
  one : ∀ p q i j, H p i → H q j → ((k.proc p).mmr i).isPrivate = false →
    ((k.proc q).mmr j).isPrivate = false →
    (((k.proc p).mmr i).family.listid = ((k.proc q).mmr j).family.listid ↔
      ((k.proc p).mmr i).origin = ((k.proc q).mmr j).origin)

/-- What `Ids` looks at in an entry. -/
structure SameTag (r r' : Mmr) : Prop where
  priv : r'.isPrivate = r.isPrivate
  listid : r.isPrivate = false → r'.family.listid = r.family.listid
  origin : r'.origin = r.origin

variable {k k' : Kernel} {H H' : Nat → Nat → Prop} {p i : Nat}

theorem SameTag.refl (r : Mmr) : SameTag r r := ⟨rfl, fun _ => rfl, rfl⟩

theorem Ids.congr (h : k.Ids H) (hlist : k'.mmrList = k.mmrList) (hH : ∀ s j, H' s j ↔ H s j)
    (htag : ∀ s j, H s j → SameTag ((k.proc s).mmr j) ((k'.proc s).mmr j)) : k'.Ids H' := by
  refine ⟨fun s j hs hp => ?_, fun j hj => ?_, fun s t j l hs ht hps hpt => ?_⟩
  · rw [hH] at hs
    rw [(htag s j hs).priv] at hp
    rw [(htag s j hs).listid hp]
    exact h.range s j hs hp
  · rw [hlist, h.taken j hj]
    constructor
    · rintro ⟨s, l, hs, hp, hid⟩
      exact ⟨s, l, (hH s l).2 hs, by rw [(htag s l hs).priv, hp],
        by rw [(htag s l hs).listid hp, hid]⟩
    · rintro ⟨s, l, hs, hp, hid⟩
      rw [hH] at hs
      rw [(htag s l hs).priv] at hp
      rw [(htag s l hs).listid hp] at hid
      exact ⟨s, l, hs, hp, hid⟩
  · rw [hH] at hs ht
    rw [(htag s j hs).priv] at hps
    rw [(htag t l ht).priv] at hpt
    rw [(htag s j hs).listid hps, (htag t l ht).listid hpt, (htag s j hs).origin,
      (htag t l ht).origin]
    exact h.one s t j l hs ht hps hpt

theorem Ids.drop (h : k.Ids H) (hlist : k'.mmrList = k.mmrList)
    (htag : ∀ s j, H s j → SameTag ((k.proc s).mmr j) ((k'.proc s).mmr j))
    (hother : ((k.proc p).mmr i).isPrivate = false → ∃ q l, H q l ∧ ¬ (q = p ∧ l = i) ∧
      ((k.proc q).mmr l).isPrivate = false ∧
      ((k.proc q).mmr l).family.listid = ((k.proc p).mmr i).family.listid) :
    k'.Ids fun s j => H s j ∧ ¬ (s = p ∧ j = i) := by
  have hall : k'.Ids H := h.congr hlist (fun _ _ => Iff.rfl) htag
  refine ⟨fun s j hs => hall.range s j hs.1, fun j hj => ?_, fun s t j l hs ht =>
    hall.one s t j l hs.1 ht.1⟩
  rw [hall.taken j hj]
  constructor
  · rintro ⟨s, l, hs, hp, hid⟩
    by_cases hsame : s = p ∧ l = i
    · obtain ⟨rfl, rfl⟩ := hsame
      rw [(htag s l hs).priv] at hp
      rw [(htag s l hs).listid hp] at hid
      obtain ⟨q, m, hq, hne, hpq, hidq⟩ := hother hp
      exact ⟨q, m, ⟨hq, hne⟩, by rw [(htag q m hq).priv, hpq],
        by rw [(htag q m hq).listid hpq, hidq, hid]⟩
    · exact ⟨s, l, ⟨hs, hsame⟩, hp, hid⟩
  · rintro ⟨s, l, hs, hp, hid⟩
    exact ⟨s, l, hs.1, hp, hid⟩

theorem Ids.dropLast (h : k.Ids H) (hpi : H p i) (hpriv : ((k.proc p).mmr i).isPrivate = false)
    (hlist : k'.mmrList = update k.mmrList ((k.proc p).mmr i).family.listid.toNat false)
    (htag : ∀ s j, H s j → SameTag ((k.proc s).mmr j) ((k'.proc s).mmr j))
    (halone : ∀ q l, H q l → ((k.proc q).mmr l).isPrivate = false →
      ((k.proc q).mmr l).family.listid = ((k.proc p).mmr i).family.listid → q = p ∧ l = i) :
    k'.Ids fun s j => H s j ∧ ¬ (s = p ∧ j = i) := by
  obtain ⟨hlo, hhi⟩ := h.range p i hpi hpriv
  have hcast : (((k.proc p).mmr i).family.listid.toNat : Int) =
      ((k.proc p).mmr i).family.listid := Int.toNat_of_nonneg hlo
  have hall : ({ k' with mmrList := k.mmrList } : Kernel).Ids H :=
    h.congr rfl (fun _ _ => Iff.rfl) htag
  refine ⟨fun s j hs => hall.range s j hs.1, fun j hj => ?_, fun s t j l hs ht =>
    hall.one s t j l hs.1 ht.1⟩
  rw [hlist]
  by_cases hid : j = ((k.proc p).mmr i).family.listid.toNat
  · rw [hid, update_self]
    simp only [Bool.false_eq_true, false_iff]
    rintro ⟨s, l, ⟨hs, hne⟩, hp, hsl⟩
    rw [(htag s l hs).priv] at hp
    rw [(htag s l hs).listid hp, hcast] at hsl
    exact hne (halone s l hs hp hsl)
  · rw [update_of_ne hid]
    refine (hall.taken j hj).trans ⟨?_, fun ⟨s, l, hs, hp, hsl⟩ => ⟨s, l, hs.1, hp, hsl⟩⟩
    rintro ⟨s, l, hs, hp, hsl⟩
    refine ⟨s, l, ⟨hs, ?_⟩, hp, hsl⟩
    rintro ⟨rfl, rfl⟩
    have hsame : ((k'.proc s).mmr l).family.listid = j := hsl
    have := (htag s l hpi).listid hpriv
    exact hid (by omega)

theorem Ids.addPrivate (h : k.Ids H) (hlist : k'.mmrList = k.mmrList) (hnot : ¬ H p i)
    (htag : ∀ s j, H s j → SameTag ((k.proc s).mmr j) ((k'.proc s).mmr j))
    (hpriv : ((k'.proc p).mmr i).isPrivate = true) :
    k'.Ids fun s j => H s j ∨ s = p ∧ j = i := by
  have hall : k'.Ids H := h.congr hlist (fun _ _ => Iff.rfl) htag
  have hold : ∀ {s j}, (H s j ∨ s = p ∧ j = i) → ((k'.proc s).mmr j).isPrivate = false → H s j := by
    rintro s j (hs | ⟨rfl, rfl⟩) hp
    · exact hs
    · rw [hpriv] at hp
      cases hp
  refine ⟨fun s j hs hp => hall.range s j (hold hs hp) hp, fun j hj => ?_,
    fun s t j l hs ht hps hpt => hall.one s t j l (hold hs hps) (hold ht hpt) hps hpt⟩
  rw [hall.taken j hj]
  exact ⟨fun ⟨s, l, hs, hp, hid⟩ => ⟨s, l, .inl hs, hp, hid⟩,
    fun ⟨s, l, hs, hp, hid⟩ => ⟨s, l, hold hs hp, hp, hid⟩⟩

theorem Ids.addShared (h : k.Ids H) {id : Nat} (hid : id < nlist) (hfree : k.mmrList id = false)
    (hlist : k'.mmrList = update k.mmrList id true)
    (htag : ∀ s j, H s j → SameTag ((k.proc s).mmr j) ((k'.proc s).mmr j))
    (hnew : ((k'.proc p).mmr i).family.listid = id)
    (hpriv : ((k'.proc p).mmr i).isPrivate = false)
    (horigin : ∀ s j, H s j → ((k.proc s).mmr j).origin ≠ ((k'.proc p).mmr i).origin) :
    k'.Ids fun s j => H s j ∨ s = p ∧ j = i := by
  have hall : ({ k' with mmrList := k.mmrList } : Kernel).Ids H :=
    h.congr rfl (fun _ _ => Iff.rfl) htag
  -- no region had the id
  have hnone : ∀ {s j}, H s j → ((k'.proc s).mmr j).isPrivate = false →
      ((k'.proc s).mmr j).family.listid ≠ id := by
    intro s j hs hp he
    have : k.mmrList id = true := (hall.taken id hid).2 ⟨s, j, hs, hp, he⟩
    rw [hfree] at this
    cases this
  refine ⟨fun s j hs hp => ?_, fun j hj => ?_, fun s t j l hs ht hps hpt => ?_⟩
  · rcases hs with hs | ⟨rfl, rfl⟩
    · exact hall.range s j hs hp
    · rw [hnew]
      exact ⟨Int.natCast_nonneg _, by exact_mod_cast hid⟩
  · rw [hlist]
    by_cases he : j = id
    · rw [he, update_self]
      exact ⟨fun _ => ⟨p, i, .inr ⟨rfl, rfl⟩, hpriv, hnew⟩, fun _ => rfl⟩
    · rw [update_of_ne he]
      refine (hall.taken j hj).trans ⟨fun ⟨s, l, hs, h⟩ => ⟨s, l, .inl hs, h⟩, ?_⟩
      rintro ⟨s, l, hs | ⟨rfl, rfl⟩, hp, hsl⟩
      · exact ⟨s, l, hs, hp, hsl⟩
      · rw [hnew] at hsl
        exact absurd (Int.ofNat_inj.1 hsl).symm he
  · have hfar : ∀ {s j}, H s j → ((k'.proc s).mmr j).isPrivate = false →
        ((k'.proc s).mmr j).family.listid ≠ ((k'.proc p).mmr i).family.listid ∧
          ((k'.proc s).mmr j).origin ≠ ((k'.proc p).mmr i).origin := by
      intro s j hs hp
      rw [(htag s j hs).origin, hnew]
      exact ⟨hnone hs hp, horigin s j hs⟩
    rcases hs with hs | ⟨rfl, rfl⟩ <;> rcases ht with ht | ⟨rfl, rfl⟩
    · exact hall.one s t j l hs ht hps hpt
    · exact iff_of_false (hfar hs hps).1 (hfar hs hps).2
    · exact iff_of_false (Ne.symm (hfar ht hpt).1) (Ne.symm (hfar ht hpt).2)
    · exact iff_of_true rfl rfl

theorem SameTag.trans {a b c : Mmr} (h : SameTag a b) (h' : SameTag b c) : SameTag a c :=
  ⟨h'.priv.trans h.priv, fun ha => (h'.listid (h.priv.trans ha)).trans (h.listid ha),
    h'.origin.trans h.origin⟩

theorem SameTag.of_sameRegion {a b : Mmr} (h : a.SameRegion b)
    (hid : b.family.listid = a.family.listid) : SameTag a b :=
  ⟨h.isPrivate, fun _ => hid, by rw [h]⟩

theorem tag_setNode (k : Kernel) {n : NodePtr} {v : MmrNode} (hv : v.listid = (k.node n).listid)
    (s j : Nat) : SameTag ((k.proc s).mmr j) (((k.setNode n v).proc s).mmr j) := by
  refine .of_sameRegion (((k.relinked_setNode n v).procs s).regions j) ?_
  by_cases hs : s = n.proc
  · subst hs
    rw [proc_setNode_self]
    by_cases hj : j = n.idx
    · subst hj
      simp only [update_self]
      exact hv
    · simp only [update_of_ne hj]
  · rw [proc_setNode_of_ne k hs]

theorem tag_leaveFamily {alone : Bool} (h : leaveFamily k p i = .ok (alone, k')) (s j : Nat) :
    SameTag ((k.proc s).mmr j) ((k'.proc s).mmr j) := by
  rcases leaveFamily_eq_ok h with ⟨-, -, rfl⟩ | ⟨-, -, n, m, k₁, -, hk₁, -, hk'⟩
  · exact .refl _
  · have h₁ : SameTag ((k.proc s).mmr j) ((k₁.proc s).mmr j) := by
      rw [hk₁]
      exact k.tag_setNode (by rfl) s j
    refine h₁.trans ?_
    rw [hk']
    exact k₁.tag_setNode (by rfl) s j

theorem Ids.leave {r : Mmr} {k₁ : Kernel} {doFree : Bool} (h : k.Ids H) (hiso : k.Iso H)
    (hpi : H p i) (hr : r = { (k.proc p).mmr i with valid := r.valid })
    (hrel : Released (k.setMmr p i r) p i doFree k₁) (vm : PageTable × Phys) :
    (k₁.setVm p vm).Ids fun s j => H s j ∧ ¬ (s = p ∧ j = i) := by
  have hset : ∀ s j, SameTag ((k.proc s).mmr j) (((k.setMmr p i r).proc s).mmr j) := by
    intro s j
    by_cases hs : s = p
    · subst hs
      rw [setMmr, proc_setProc_self]
      by_cases hj : j = i
      · subst hj
        simp only [update_self]
        rw [hr]
        exact ⟨rfl, fun _ => rfl, rfl⟩
      · simp only [update_of_ne hj]
        exact .refl _
    · rw [setMmr, proc_setProc_of_ne _ hs]
      exact .refl _
  have hself : ((k.setMmr p i r).proc p).mmr i = r := by
    rw [setMmr, proc_setProc_self]
    exact update_self ..
  have hnode : (k.setMmr p i r).node ⟨p, i⟩ = k.node ⟨p, i⟩ := by
    rw [node, hself, hr]
    rfl
  have hvm : ∀ (x : Kernel) s j, SameTag ((x.proc s).mmr j) (((x.setVm p vm).proc s).mmr j) := by
    intro x s j
    by_cases hs : s = p
    · subst hs
      rw [proc_setVm_self]
      exact .refl _
    · rw [proc_setVm_of_ne _ hs]
      exact .refl _
  have hprivr : r.isPrivate = ((k.proc p).mmr i).isPrivate := by
    rw [hr]
    rfl
  cases hrel with
  | own hp =>
    rw [hself, hprivr] at hp
    refine h.drop rfl (fun s j _ => (hset s j).trans (hvm _ s j)) fun hpriv => ?_
    rw [hpriv] at hp
    cases hp
  | left hp hleave =>
    rw [hself, hprivr] at hp
    have htag : ∀ s j, H s j → SameTag ((k.proc s).mmr j) (((k₁.setVm p vm).proc s).mmr j) :=
      fun s j _ => ((hset s j).trans (tag_leaveFamily hleave s j)).trans (hvm _ s j)
    rcases leaveFamily_eq_ok hleave with ⟨-, hnext, hk₁⟩ | ⟨-, hnext, n, m, k₂, -, hk₂, -, hk₁⟩
    · rw [hnode] at hnext hk₁
      refine h.dropLast hpi hp ?_ htag fun q l hq hpq hid => ?_
      · rw [hk₁]
        rfl
      · -- regions with one id come from one call, and this one has no partner
        obtain ⟨rfl, rfl | hpair⟩ := hiso.one p q i l hpi hq hp
          ((h.one p q i l hpi hq hp hpq).1 hid.symm)
        · exact ⟨rfl, rfl⟩
        · have := hpair.fore.1
          rw [hnext] at this
          simp only [Option.some.injEq, NodePtr.mk.injEq] at this
          exact absurd this.1 hpair.ne
    · rw [hnode] at hnext
      refine h.drop (by rw [hk₁, hk₂]; rfl) htag fun _ => ?_
      rcases hiso.family p i hpi hp with hl | ⟨q, hpair⟩
      · exact absurd hl.1 hnext
      · have hpq : ((k.proc q).mmr i).isPrivate = false := hpair.symm.notPrivate
        refine ⟨q, i, hpair.right, fun he => hpair.ne he.1.symm, hpq, ?_⟩
        refine (h.one q p i i hpair.right hpi hpq hp).2 ?_
        rw [hpair.same]

end Kernel

section

variable {k k' : Kernel} {H : Nat → Nat → Prop} {p : Nat}

theorem ids_freeRegions {n : Nat} (h : k.Ids H) (hiso : k.Iso H) (hram : k.phys.Ram)
    (hH : ∀ i, ((k.proc p).mmr i).valid = true ↔ H p i)
    (hwf : ∀ i, ((k.proc p).mmr i).valid = true → ((k.proc p).mmr i).Wf)
    (hf : freeRegions k p n = .ok k') : k'.Ids fun s j => H s j ∧ ¬ (s = p ∧ j < n) := by
  induction n generalizing k' with
  | zero =>
    cases hf
    exact h.congr rfl (by simp) fun s j _ => .refl _
  | succ n ih =>
    obtain ⟨k₁, h₁, hstep⟩ := bind_eq_ok.1 hf
    have hregion : ((k.proc p).mmr n).SameRegion ((k₁.proc p).mmr n) :=
      (pruned_freeRegions h₁).self.regions n
    have hvalid : ((k₁.proc p).mmr n).valid = ((k.proc p).mmr n).valid := by rw [hregion]
    have hids := ih h₁
    have hiso₁ := iso_freeRegions hiso hram hH hwf h₁
    have hiff : ∀ s j, H s j ∧ ¬ (s = p ∧ j < n + 1) ↔
        (H s j ∧ ¬ (s = p ∧ j < n)) ∧ ¬ (s = p ∧ j = n) := by
      intro s j
      rw [and_assoc, ← not_or, ← and_or_left, Nat.lt_succ_iff_lt_or_eq]
    rcases freeRegion_eq_ok hstep with ⟨hv, rfl⟩ | ⟨hv, doFree, k₂, vm, hrel, -, rfl⟩
    · refine hids.congr rfl (fun s j => ?_) fun s j _ => .refl _
      rw [hiff, and_iff_left_iff_imp]
      rintro hs ⟨rfl, rfl⟩
      rw [hvalid, (hH j).2 hs.1] at hv
      cases hv
    · have hleft := hids.leave hiso₁ ⟨(hH n).1 (hvalid.symm.trans hv), by simp⟩ rfl
        (by rw [k₁.setMmr_eq_self p n]; exact releaseRegion_released hrel) vm
      exact hleft.congr rfl hiff fun s j _ => .refl _

section

variable (h : k.Ids k.Held)

include h

theorem ids_freeproc (hiso : k.Iso k.Held) (hb : k.Basic) (hlive : (k.proc p).state ≠ .unused)
    (hf : freeproc k p = .ok k') : k'.Ids k'.Held := by
  have hheld := held_freeproc hb hf
  obtain ⟨k₁, k₂, ph, htf, hreg, -, rfl⟩ := freeproc_eq_ok hf
  obtain ⟨hself₁, hothers₁⟩ := freeTrapframe_proc htf
  have hmmr₁ : ∀ s, (k₁.proc s).mmr = (k.proc s).mmr :=
    same_of_others hothers₁ (·.mmr) (by rw [hself₁])
  have hp := hb.sound p
  have h₁ : k₁.Ids k.Held := h.congr (by rw [(freeTrapframe_eq_ok htf).1]; rfl) (fun _ _ => Iff.rfl) fun s j _ => by
    rw [hmmr₁]
    exact .refl _
  have h₂ := ids_freeRegions h₁ (iso_freeTrapframe hiso hb.ram htf) (ram_freeTrapframe hb.ram htf)
    (fun i => by
      rw [hself₁]
      exact ⟨fun hv => ⟨hlive, hv⟩, And.right⟩)
    (fun i hv => by
      rw [hself₁] at hv ⊢
      exact (hp.region i hv).1) hreg
  refine h₂.congr rfl hheld fun s j _ => ?_
  have hsame : ((k₂.setProc p { k₂.proc p with
      pagetable := .absent, sz := 0, pid := 0, parent := none, killed := false, xstate := 0,
      state := .unused }).proc s).mmr j = (k₂.proc s).mmr j := by
    by_cases hs : s = p
    · subst hs
      rw [proc_setProc_self]
    · rw [proc_setProc_of_ne _ hs]
  exact hsame ▸ .refl _

theorem ids_munmap {addr length : Nat} {done : Bool} (hiso : k.Iso k.Held)
    (hlive : (k.proc p).state ≠ .unused) (hm : munmap k p addr length = .ok (done, k')) :
    k'.Ids k'.Held := by
  rcases munmap_eq_ok hm with ⟨-, -, rfl⟩ | ⟨i, doFree, k₁, vm, hfind, -, hdrop, -, rfl⟩
  · exact h
  have hv := (findMmr_eq_some hfind).2.1
  have hleft := h.leave (r := { (k.proc p).mmr i with valid := false }) hiso ⟨hlive, hv⟩ rfl
    (dropRegion_released hdrop) vm
  exact hleft.congr rfl (held_dropRegion hlive hdrop vm) fun s j _ => .refl _

theorem ids_mmap {length prot flags : Nat} {res : Option Nat} (hb : k.Basic)
    (hlive : (k.proc p).state ≠ .unused) (hkind : has flags mapShared = !has flags mapPrivate)
    (hid : has flags mapPrivate = true ∨ ∃ j < nlist, k.mmrList j = false)
    (hm : sysMmap k p length prot flags = .ok (res, k')) : k'.Ids k'.Held := by
  rcases sysMmap_eq_ok hm with ⟨-, -, rfl⟩ | ⟨i, r, ok, vm, hfree, hr, -, hfalse, htrue⟩
  · exact h
  have hnot := not_held_of_freeMmr hfree
  -- the entries that are held are not touched
  have hkeep : ∀ {e}, k.Mapped k' p i e vm → ∀ s j, k.Held s j →
      Kernel.SameTag ((k.proc s).mmr j) ((k'.proc s).mmr j) := fun hmd s j hs => by
    rw [hmd.kept fun he => hnot (he.1 ▸ he.2 ▸ hs)]
    exact .refl _
  cases ok with
  | false =>
    obtain ⟨-, rfl⟩ := hfalse rfl
    have hmd := k.mapped_mapFailed p i r vm
    refine h.congr rfl (fun s j => ?_) (hkeep hmd)
    rw [hmd.held hlive hnot]
    simp
  | true =>
    obtain ⟨-, id, l, rfl, hfrom⟩ := htrue rfl
    have hmd := k.mapped_mapRegion p i r id l vm
    have htag := hkeep hmd
    have hheld : ∀ s j, (k.mapRegion p i r id l vm).Held s j ↔
        k.Held s j ∨ s = p ∧ j = i := fun s j => by
      rw [hmd.held hlive hnot, hr]
      exact or_congr_right (and_congr_right fun _ => and_iff_left rfl)
    have hflags : (((k.mapRegion p i r id l vm).proc p).mmr i).isPrivate =
        has flags mapPrivate := by
      rw [hmd.entry, hr]
      rfl
    cases hpriv : has flags mapPrivate with
    | true =>
      rw [hpriv] at hkind
      cases hfrom with
      | kept _ =>
        exact (h.addPrivate (by rfl) hnot htag (by rw [hflags, hpriv])).congr rfl hheld
          fun _ _ _ => .refl _
      | none hshared _ => cases hshared.symm.trans hkind
      | new hshared _ _ => cases hshared.symm.trans hkind
    | false =>
      rw [hpriv] at hkind
      cases hfrom with
      | kept hno => cases hno.symm.trans hkind
      | none _ hfull =>
        obtain ⟨j, hj, hfree'⟩ := hid.resolve_left (by simp [hpriv])
        cases (hfull j hj).symm.trans hfree'
      | new _ hj hfree' =>
        refine (h.addShared hj hfree' (by rfl) htag (by rw [hmd.entry]) (by rw [hflags, hpriv])
          fun s j hs => ?_).congr rfl hheld fun _ _ _ => .refl _
        rw [hmd.entry, hr]
        exact Nat.ne_of_lt ((hb.sound s).region j hs.2).2

theorem ids_fork {np : Nat} (hlive : (k.proc p).state ≠ .unused) (hf : Forked k k' p np) :
    k'.Ids k'.Held := by
  have hunused := (freeSlot_eq_some hf.slot).2
  have htag : ∀ s j,
      Kernel.SameTag ((k.proc (forkSource p np s)).mmr j) ((k'.proc s).mmr j) := fun s j =>
    ⟨(hf.region s j).isPrivate, hf.listid s j, by rw [hf.region s j]⟩
  refine ⟨fun s j hs hp => ?_, fun j hj => ?_, fun s t j l hs ht hps hpt => ?_⟩
  · rw [hf.held hlive] at hs
    rw [(htag s j).priv] at hp
    rw [(htag s j).listid hp]
    exact h.range _ j hs hp
  · rw [hf.mmrList, h.taken j hj]
    constructor
    · rintro ⟨s, l, hs, hp, hid⟩
      have hne : s ≠ np := by
        rintro rfl
        exact hs.1 hunused
      have hsrc : forkSource p np s = s := if_neg hne
      have ht := htag s l
      rw [hsrc] at ht
      exact ⟨s, l, (hf.held hlive s l).2 (by rwa [hsrc]), by rw [ht.priv, hp],
        by rw [ht.listid hp, hid]⟩
    · rintro ⟨s, l, hs, hp, hid⟩
      rw [hf.held hlive] at hs
      rw [(htag s l).priv] at hp
      rw [(htag s l).listid hp] at hid
      exact ⟨_, l, hs, hp, hid⟩
  · rw [hf.held hlive] at hs ht
    rw [(htag s j).priv] at hps
    rw [(htag t l).priv] at hpt
    rw [(htag s j).listid hps, (htag t l).listid hpt, (htag s j).origin, (htag t l).origin]
    exact h.one _ _ j l hs ht hps hpt

theorem Kernel.Ids.of_same (hlist : k'.mmrList = k.mmrList)
    (hmmr : ∀ s, (k'.proc s).mmr = (k.proc s).mmr)
    (hstate : ∀ s, (k'.proc s).state = .unused ↔ (k.proc s).state = .unused) : k'.Ids k'.Held := by
  refine h.congr hlist (fun s j => ?_) fun s j _ => by rw [hmmr]; exact .refl _
  rw [Kernel.Held, hmmr, ne_eq, hstate]
  rfl

theorem ids_exit {status : Nat} (hlive : (k.proc p).state ≠ .unused) (he : exit k p status = .ok k')
    : k'.Ids k'.Held := by
  have hq := (exit_eq_ok hlive he).1
  exact h.of_same hq.mmrList hq.mmr fun s => (hq.procs s).live

end

theorem faultRegions_keeps {va n : Nat} {store : Bool} (hf : faultRegions k p store va n = .ok k') :
    k'.mmrList = k.mmrList ∧ ∀ s, (k'.proc s).mmr = (k.proc s).mmr ∧
      (k'.proc s).state = (k.proc s).state := by
  refine faultRegions_induction (I := fun x => x.mmrList = k.mmrList ∧
    ∀ s, (x.proc s).mmr = (k.proc s).mmr ∧ (x.proc s).state = (k.proc s).state)
    (fun i k₁ k₂ _ h hstep => ?_) ⟨rfl, fun _ => ⟨rfl, rfl⟩⟩ hf
  rcases faultRegion_eq_ok hstep with ⟨-, rfl⟩ | ⟨-, pa, ph, ok, vm, -, -, rfl⟩
  · exact h
  · refine ⟨h.1, fun s => ?_⟩
    by_cases hs : s = p
    · subst hs
      rw [proc_setVm_self]
      exact h.2 s
    · rw [proc_setVm_of_ne _ hs]
      exact h.2 s

theorem ids_access {va : Nat} {store : Bool} (h : k.Ids k.Held)
    (hlive : (k.proc p).state ≠ .unused) (ha : usertrapFault k p store va = .ok k') :
    k'.Ids k'.Held := by
  obtain ⟨k₁, hfault, hend⟩ := usertrapFault_eq_ok ha
  obtain ⟨hlist, hprocs⟩ := faultRegions_keeps hfault
  have h₁ : k₁.Ids k₁.Held := h.of_same hlist (fun s => (hprocs s).1) fun s => by
    rw [(hprocs s).2]
  rcases hend with rfl | hexit
  · exact h₁
  · exact ids_exit h₁ (by rw [(hprocs p).2]; exact hlive) hexit

theorem growproc_mmrList {n : Nat} {done : Bool} (hg : growproc k p n = .ok (done, k')) :
    k'.mmrList = k.mmrList := by
  rcases growproc_eq_ok hg with ⟨-, rfl⟩ | ⟨-, -, r, vm, -, rfl⟩ | ⟨-, r, vm, -, rfl⟩
  · rfl
  · split <;> rfl
  · rfl

theorem ids_exec {file : Option (List UInt8)} {argv : List (List UInt8)} {done : Bool}
    (h : k.Ids k.Held) (hb : k.Basic) (he : exec k p file argv = .ok (done, k')) :
    k'.Ids k'.Held := by
  rcases exec_eq_ok hb.ram he with ⟨-, ph, -, rfl⟩ | ⟨-, tf, pt₀, ph₀, pt, ph, sz, ph', -, -, -, -,
    -, -, rfl⟩
  · exact h.of_same rfl (fun _ => rfl) fun _ => Iff.rfl
  · have hself : (k.resize p sz (pt, ph')).proc p = { k.proc p with pagetable := pt, sz := sz } :=
      proc_setProc_self _ _ _
    have hothers : ∀ q, q ≠ p → (k.resize p sz (pt, ph')).proc q = k.proc q := fun q hq =>
      proc_setProc_of_ne _ hq _
    exact h.of_same rfl (same_of_others hothers (·.mmr) (by rw [hself])) fun s => by
      rw [same_of_others hothers (·.state) (by rw [hself]) s]

theorem ids_wait {addr : Nat} (h : k.Ids k.Held) (hiso : k.Iso k.Held) (hb : k.Basic)
    (hw : wait k p addr = .ok k') : k'.Ids k'.Held := by
  obtain ⟨ph, hfree, hcase⟩ := wait_eq_ok hw
  have hquiet := k.quiet_phys hfree
  have h₁ : ({ k with phys := ph } : Kernel).Ids (Kernel.Held { k with phys := ph }) :=
    h.of_same rfl (fun _ => rfl) fun _ => Iff.rfl
  rcases hcase with rfl | ⟨c, -, hzombie, -, hf⟩
  · exact h₁
  · exact ids_freeproc h₁ (hquiet.iso hiso hb.ram) (hb.of_quiet hquiet) (fun hu => by
      have hstate : (k.proc c).state = .unused := hu
      rw [hzombie] at hstate
      cases hstate) hf

end

/-! ## Runs -/

namespace Kernel

/-- The valid entries of `mmr_list` are the ids of the shared regions that processes hold: each
such region has an id in the table, which `get_mmr_list` finds, and regions with one id come from
one call of `mmap`. -/
structure ListidsExact (k : Kernel) : Prop where
  range : ∀ p i, k.Held p i → ((k.proc p).mmr i).isPrivate = false →
    inMmrList ((k.proc p).mmr i).family.listid
  taken : ∀ j < nlist, k.mmrList j = true ↔ ∃ p i, k.Held p i ∧
    ((k.proc p).mmr i).isPrivate = false ∧ ((k.proc p).mmr i).family.listid = j
  one : ∀ p q i j, k.Held p i → k.Held q j → ((k.proc p).mmr i).isPrivate = false →
    ((k.proc q).mmr j).isPrivate = false →
    ((k.proc p).mmr i).family.listid = ((k.proc q).mmr j).family.listid →
    ((k.proc p).mmr i).origin = ((k.proc q).mmr j).origin
  found : ∀ p i, k.Held p i → ((k.proc p).mmr i).isPrivate = false →
    getMmrList k ((k.proc p).mmr i).family.listid = true

theorem Ids.exact {k : Kernel} (h : k.Ids k.Held) : k.ListidsExact := by
  refine ⟨h.range, h.taken, fun p q i j hp hq hpp hqp => (h.one p q i j hp hq hpp hqp).1,
    fun p i hp hpriv => ?_⟩
  obtain ⟨hlo, hhi⟩ := h.range p i hp hpriv
  rw [getMmrList, Bool.and_eq_true, decide_eq_true_eq]
  exact ⟨⟨hlo, hhi⟩, (h.taken _ (by omega)).2 ⟨p, i, hp, hpriv, (Int.toNat_of_nonneg hlo).symm⟩⟩

/-- Steps in order, where `mmap` asks for one kind of mapping and not for both. -/
def SingleKind (k : Kernel) (e : Event) : Prop :=
  k.Orderly e ∧
    match e with
    | .mmap _ _ _ flags => has (flags % 2 ^ 32) mapShared = !has (flags % 2 ^ 32) mapPrivate
    | _ => True

end Kernel

theorem ids_step {k k' : Kernel} {e : Event} (hb : k.Basic) (hiso : k.Iso k.Held)
    (h : k.Ids k.Held) (hg : k.SingleKind e) (hs : k.step e = .ok k') : k'.Ids k'.Held := by
  obtain ⟨hord, hkind⟩ := hg
  rcases step_eq_ok hs with rfl | ⟨hruns, hdoes⟩
  · exact h
  have hlive := hruns.live
  cases hdoes with
  | fork hf =>
    cases hslot : freeSlot k with
    | none =>
      rw [fork_no_slot hb hlive hslot hf]
      exact h
    | some np =>
      rcases hord with hnone | ⟨hroom, -⟩
      · cases hslot.symm.trans hnone
      · exact ids_fork h hlive (fork_room hb hlive hslot hroom hf).2
  | exit hx => exact ids_exit h hlive hx
  | wait hw => exact ids_wait h hiso hb hw
  | sbrk hgrow =>
    exact h.of_same (growproc_mmrList hgrow) (fun s => (growproc_keeps hgrow s).2) fun s => by
      rw [(growproc_keeps hgrow s).1]
  | mmap hm => exact ids_mmap h hb hlive hkind hord.2.2 hm
  | munmap hm => exact ids_munmap h hiso hlive hm
  | hit _ => exact h
  | fault _ ha => exact ids_access h hlive ha
  | exec he => exact ids_exec h hb he

theorem ids_boot {ph : Phys} {k : Kernel} (h : Boots ph k) : k.Ids k.Held := by
  obtain ⟨tf, page, hb⟩ := h.booted
  have hnone : ∀ p i, ¬ k.Held p i := by
    rintro p i ⟨-, hv⟩
    by_cases hp : p = 0
    · rw [hp, hb.proc] at hv
      cases hv
    · rw [hb.others p hp] at hv
      cases hv
  refine ⟨fun p i hp => absurd hp (hnone p i), fun j _ => ?_,
    fun p q i j hp => absurd hp (hnone p i)⟩
  rw [hb.mmrList]
  exact ⟨nofun, fun ⟨p, i, hp, _⟩ => absurd hp (hnone p i)⟩

/-- In a run in which the calls are in order and every `mmap` asks for one kind of mapping, the
ids in use are those of the shared regions that processes hold. -/
theorem listids_exact_of_singleKind {ph : Phys} {k k' : Kernel} {es : List Event}
    (hboot : Boots ph k) (hg : Run.Guarded Kernel.step Kernel.SingleKind k es)
    (hrun : Run.exec Kernel.step k es = .ok k') : k'.ListidsExact := by
  have hinv := Run.inv_of_guarded (I := fun x => x.Basic ∧ x.Iso x.Held ∧ x.Ids x.Held)
    (fun _ _ _ hs hge hstep => ⟨basic_step hs.1 hstep, iso_step hs.1 hs.2.1 hge.1 hstep,
      ids_step hs.1 hs.2.1 hs.2.2 hge hstep⟩)
    ⟨basic_boot hboot, iso_boot hboot, ids_boot hboot⟩ hg hrun
  exact hinv.2.2.exact

/-- Region 0 of slot 0 is valid and not private, and no id is in use. -/
def Kernel.lostId (k : Kernel) : Bool :=
  decide ((k.proc 0).state ≠ .unused) && ((k.proc 0).mmr 0).valid &&
    !((k.proc 0).mmr 0).isPrivate && !getMmrList k ((k.proc 0).mmr 0).family.listid &&
    match k.step (.munmap 0 firstPage pgsize) with
    | .error .kerneltrap => true
    | _ => false

/-- A flags word with neither bit makes a region that is not private and has no id: `munmap` then
follows the null pointer that `get_mmr_list` returns. -/
theorem noFlags_listids_not_exact :
    ∃ ph k k', Boots ph k ∧ Run.exec Kernel.step k [.mmap 0 pgsize pteR 0] = .ok k' ∧
      ¬ k'.ListidsExact ∧ k'.step (.munmap 0 firstPage pgsize) = .error .kerneltrap := by
  have hends : bootRun.ends 32 [.mmap 0 pgsize pteR 0] Kernel.lostId = true := by decide +kernel
  obtain ⟨k, k', hboot, hrun, hcheck⟩ := bootRun.of_ends (by decide) (by decide) hends
  simp only [Kernel.lostId, Bool.and_eq_true, decide_eq_true_eq, Bool.not_eq_true'] at hcheck
  obtain ⟨⟨⟨⟨hlive, hvalid⟩, hpriv⟩, hnone⟩, htrap⟩ := hcheck
  refine ⟨_, k, k', hboot, hrun, fun h => ?_, ?_⟩
  · have hfound := h.found 0 0 ⟨hlive, hvalid⟩ hpriv
    rw [hnone] at hfound
    cases hfound
  · split at htrap
    · assumption
    · cases htrap

def Kernel.isSingleKind (k : Kernel) (e : Event) : Bool :=
  k.isOrderly e &&
    match e with
    | .mmap _ _ _ flags => has (flags % 2 ^ 32) mapShared == !has (flags % 2 ^ 32) mapPrivate
    | _ => true

theorem Kernel.singleKind_of_isSingleKind {k : Kernel} {e : Event} (hb : k.Basic)
    (h : k.isSingleKind e = true) : k.SingleKind e := by
  unfold isSingleKind at h
  rw [Bool.and_eq_true] at h
  refine ⟨orderly_of_isOrderly hb h.1, ?_⟩
  cases e with
  | mmap p length prot flags => exact eq_of_beq h.2
  | fork | exit | wait | sbrk | munmap | access | exec => trivial

/-- Slots 0 and 1 hold region 0 under one id, which is in use. -/
def Kernel.oneId (k : Kernel) : Bool :=
  decide ((k.proc 1).state ≠ .unused) && ((k.proc 1).mmr 0).valid &&
    ((k.proc 0).mmr 0).family.listid == ((k.proc 1).mmr 0).family.listid && k.mmrList 0

/-- A child inherits a shared region under the id of its parent. -/
theorem listids_exact_of_singleKind_fork :
    ∃ ph k k', Boots ph k ∧
      Run.Guarded Kernel.step Kernel.SingleKind k
        [.mmap 0 pgsize (pteR ||| pteW) mapShared, .fork 0] ∧
      Run.exec Kernel.step k [.mmap 0 pgsize (pteR ||| pteW) mapShared, .fork 0] = .ok k' ∧
      k'.oneId = true ∧ k'.ListidsExact := by
  have hends : bootRun.ends 32 [.mmap 0 pgsize (pteR ||| pteW) mapShared, .fork 0]
      Kernel.oneId = true := by decide +kernel
  have hpass : bootRun.passes 32 Kernel.isSingleKind
      [.mmap 0 pgsize (pteR ||| pteW) mapShared, .fork 0] = true := by decide +kernel
  obtain ⟨k, k', hboot, hrun, hcheck⟩ := bootRun.of_ends (by decide) (by decide) hends
  have hguard := hboot.guarded (fun _ _ hs => singleKind_of_isSingleKind hs) hpass
  exact ⟨_, k, k', hboot, hguard, hrun, hcheck, listids_exact_of_singleKind hboot hguard hrun⟩

end Xv6
