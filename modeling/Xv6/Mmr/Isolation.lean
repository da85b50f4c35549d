/-
Memory isolation.  Two processes map one frame only where one of them got a MAP_SHARED region
from the other by `fork` and both still have it.  The links of such a family are in order as
long as it has at most two members.
-/
import Xv6.Mmr.Coherence
import Xv6.Mmr.Frames
import Xv6.Mmr.Room

namespace Xv6

open Function Kernel PageTable
open Run (bind_eq_ok)

variable {k k' : Kernel} {fresh us : List Nat} {r : Mmr} {flags p s : Nat}

/-- The entry has been made with bits of a page-table entry as protection, and as a private
region or a shared one with an id. -/
structure Mmr.Proper (r : Mmr) : Prop where
  prot : r.prot < 1024
  flags : r.isPrivate = true ∨ has r.flags mapShared = true
  listid : r.isPrivate = true ∨ inMmrList r.family.listid

namespace Kernel

/-- The links of region `i` of `p` lead to `q` in both directions. -/
def Link (k : Kernel) (p q i : Nat) : Prop :=
  (k.node ⟨p, i⟩).next = some ⟨q, i⟩ ∧ (k.node ⟨p, i⟩).prev = some ⟨q, i⟩

/-- Region `i` of `p` and region `i` of `q` are a family of two. -/
structure Paired (k : Kernel) (H : Nat → Nat → Prop) (p q i : Nat) : Prop where
  ne : p ≠ q
  left : H p i
  right : H q i
  fore : k.Link p q i
  back : k.Link q p i
  notPrivate : ((k.proc p).mmr i).isPrivate = false
  same : ((k.proc p).mmr i).SameRegion ((k.proc q).mmr i)

/-- `u` is a usable page of region `i` of `p`, and of no other region that `p` holds. -/
structure OwnPage (k : Kernel) (H : Nat → Nat → Prop) (p i u : Nat) : Prop where
  page : u ∈ ((k.proc p).mmr i).pages
  only : ∀ j, H p j → u ∈ ((k.proc p).mmr j).pages → j = i
  heap : npages (k.proc p).sz ≤ u
  user : ∃ w, (k.proc p).pagetable.user u = some w

/-- `p` and `q` may map page `u` to one frame. -/
def SharedAt (k : Kernel) (H : Nat → Nat → Prop) (p q u : Nat) : Prop :=
  ∃ i, k.Paired H p q i ∧ k.OwnPage H p i u ∧ k.OwnPage H q i u

/-- The state when `H` says which process holds which of its regions. -/
structure Iso (k : Kernel) (H : Nat → Nat → Prop) : Prop where
  frames : k.Frames (k.SharedAt H)
  proper : ∀ p i, H p i → ((k.proc p).mmr i).Proper
  family : ∀ p i, H p i → ((k.proc p).mmr i).isPrivate = false →
    k.Link p p i ∨ ∃ q, k.Paired H p q i
  one : ∀ p q i j, H p i → H q j → ((k.proc p).mmr i).isPrivate = false →
    ((k.proc p).mmr i).origin = ((k.proc q).mmr j).origin → i = j ∧ (p = q ∨ k.Paired H p q i)

def Held (k : Kernel) (p i : Nat) : Prop :=
  (k.proc p).state ≠ .unused ∧ ((k.proc p).mmr i).valid = true

variable {k k' : Kernel} {H H' : Nat → Nat → Prop} {p q i u : Nat}

theorem Paired.symm (h : k.Paired H p q i) : k.Paired H q p i := by
  refine ⟨h.ne.symm, h.right, h.left, h.back, h.fore, ?_, h.same.symm⟩
  rw [h.same]
  exact h.notPrivate

theorem SharedAt.symm (h : k.SharedAt H p q u) : k.SharedAt H q p u := by
  obtain ⟨i, hpair, hp, hq⟩ := h
  exact ⟨i, hpair.symm, hq, hp⟩

theorem Link.not_paired (h : k.Link p p i) (hp : k.Paired H p q i) : False := by
  have hnext := hp.fore.1
  rw [h.1] at hnext
  simp only [Option.some.injEq, NodePtr.mk.injEq] at hnext
  exact hp.ne hnext.1

theorem Paired.transfer (h : k.Paired H p q i) (hp : H' p i) (hq : H' q i)
    (hm : (k'.proc p).mmr i = (k.proc p).mmr i) (hm' : (k'.proc q).mmr i = (k.proc q).mmr i) :
    k'.Paired H' p q i := by
  refine ⟨h.ne, hp, hq, ?_, ?_, ?_, ?_⟩
  · simpa [Link, node, hm] using h.fore
  · simpa [Link, node, hm'] using h.back
  · rw [hm]
    exact h.notPrivate
  · rw [hm, hm']
    exact h.same

theorem OwnPage.transfer (h : k.OwnPage H p i u)
    (hpages : ((k'.proc p).mmr i).pages = ((k.proc p).mmr i).pages)
    (hother : ∀ j, H' p j → u ∈ ((k'.proc p).mmr j).pages →
      H p j ∧ u ∈ ((k.proc p).mmr j).pages)
    (hheap : npages (k'.proc p).sz ≤ u)
    (huser : ∃ w, (k'.proc p).pagetable.user u = some w) : k'.OwnPage H' p i u :=
  ⟨hpages ▸ h.page, fun j hj hu => h.only j (hother j hj hu).1 (hother j hj hu).2, hheap, huser⟩

theorem SharedAt.transfer (h : k.SharedAt H p q u)
    (hmmr : ∀ s, (k'.proc s).mmr = (k.proc s).mmr)
    (hheap : ∀ s, s = p ∨ s = q → npages (k'.proc s).sz ≤ u)
    (huser : ∀ s, s = p ∨ s = q → (k'.proc s).pagetable.user u = (k.proc s).pagetable.user u) :
    k'.SharedAt H p q u := by
  obtain ⟨i, hpair, hp, hq⟩ := h
  refine ⟨i, hpair.transfer hpair.left hpair.right (by rw [hmmr]) (by rw [hmmr]), ?_, ?_⟩
  · exact hp.transfer (by rw [hmmr]) (fun j hj hu => ⟨hj, by rwa [hmmr] at hu⟩)
      (hheap p (.inl rfl)) (by rw [huser p (.inl rfl)]; exact hp.user)
  · exact hq.transfer (by rw [hmmr]) (fun j hj hu => ⟨hj, by rwa [hmmr] at hu⟩)
      (hheap q (.inr rfl)) (by rw [huser q (.inr rfl)]; exact hq.user)

theorem Iso.of_update (h : k.Iso H) (hram : k.phys.Ram) (hu : Frames.Update k k' p us fresh)
    (hmmr : ∀ s, (k'.proc s).mmr = (k.proc s).mmr)
    (hsz : ∀ s, s ≠ p → (k'.proc s).sz = (k.proc s).sz)
    (hkeep : ∀ q u f, (k'.proc p).LeafAt u f → (k.proc q).LeafAt u f → q ≠ p →
      (k.proc p).LeafAt u f ∧ (k.SharedAt H p q u → npages (k'.proc p).sz ≤ u ∧
        (k'.proc p).pagetable.user u = (k.proc p).pagetable.user u)) : k'.Iso H := by
  refine ⟨h.frames.update hram hu (fun q u f hq hl hl' => ?_)
    (fun q q' u f hq hq' hne hl hl' hs => ?_), fun s i hs => ?_, fun s i hs hp => ?_,
    fun s t i j hs ht hp ho => ?_⟩
  · obtain ⟨hl₀, hrest⟩ := hkeep q u f hl hl' hq
    have hs := (h.frames.shared p q u u f (fun he => hq he.symm) hl₀ hl').2
    obtain ⟨hheap, huser⟩ := hrest hs
    have hshared : k'.SharedAt H p q u := by
      refine hs.transfer hmmr (fun s hs' => ?_) (fun s hs' => ?_)
      · rcases hs' with rfl | rfl
        · exact hheap
        · rw [hsz s hq]
          obtain ⟨i, -, -, ho⟩ := hs
          exact ho.heap
      · rcases hs' with rfl | rfl
        · exact huser
        · rw [hu.table s hq]
    exact ⟨hshared, hshared.symm⟩
  · have hdata := hs
    obtain ⟨i, -, ho, ho'⟩ := hdata
    refine hs.transfer hmmr (fun s hs' => ?_) (fun s hs' => ?_)
    · rcases hs' with rfl | rfl
      · rw [hsz s hq]
        exact ho.heap
      · rw [hsz s hq']
        exact ho'.heap
    · rcases hs' with rfl | rfl
      · rw [hu.table s hq]
      · rw [hu.table s hq']
  · rw [hmmr]
    exact h.proper s i hs
  · rw [hmmr] at hp
    rcases h.family s i hs hp with hl | ⟨q, hpair⟩
    · exact .inl (by simpa [Link, node, hmmr] using hl)
    · exact .inr ⟨q, hpair.transfer hpair.left hpair.right (by rw [hmmr]) (by rw [hmmr])⟩
  · rw [hmmr] at hp
    rw [hmmr, hmmr] at ho
    obtain ⟨rfl, he | hpair⟩ := h.one s t i j hs ht hp ho
    · exact ⟨rfl, .inl he⟩
    · exact ⟨rfl, .inr (hpair.transfer hpair.left hpair.right (by rw [hmmr]) (by rw [hmmr]))⟩

theorem Iso.congr (h : k.Iso H) (hH : ∀ p i, H' p i ↔ H p i) : k.Iso H' := by
  obtain rfl : H' = H := by
    funext p i
    exact propext (hH p i)
  exact h

theorem Iso.of_same (h : k.Iso H) (hmmr : ∀ s, (k'.proc s).mmr = (k.proc s).mmr)
    (hsz : ∀ s, (k'.proc s).sz = (k.proc s).sz)
    (htable : ∀ s, (k'.proc s).pagetable = (k.proc s).pagetable)
    (htf : ∀ s, (k'.proc s).trapframe = (k.proc s).trapframe)
    (hfree : ∀ f, k'.phys.freelist.count f = k.phys.freelist.count f) (hram : k.phys.Ram) :
    k'.Iso H := by
  have hu : Frames.Update k k' 0 [] [] := by
    refine ⟨fun q _ => htable q, fun q _ => htf q, fun f => ?_, .nil, by simp, by simp, by simp,
      fun u f hl => .inr (.inl ⟨by simp, hl.congr (htable 0)⟩)⟩
    simp only [Proc.base, htable, htf, hfree]
    exact le_rfl
  refine h.of_update hram hu hmmr (fun s _ => hsz s)
    fun q u f hl _ _ => ⟨hl.congr (htable 0), fun hs => ⟨?_, by rw [htable]⟩⟩
  rw [hsz]
  obtain ⟨i, -, ho, -⟩ := hs
  exact ho.heap

theorem Quiet.iso (hq : k.Quiet k') (h : k.Iso H) (hram : k.phys.Ram) : k'.Iso H :=
  h.of_same hq.mmr (fun s => (hq.procs s).sz) (fun s => (hq.procs s).table)
    (fun s => (hq.procs s).trapframe) (fun f => by rw [hq.freelist]) hram

theorem Quiet.held (hq : k.Quiet k') (p i : Nat) : k'.Held p i ↔ k.Held p i := by
  rw [Held, Held, hq.mmr, ne_eq, (hq.procs p).live]

theorem same_of_others {α : Type} (hothers : ∀ q, q ≠ p → k'.proc q = k.proc q) (g : Proc → α)
    (hg : g (k'.proc p) = g (k.proc p)) (q : Nat) : g (k'.proc q) = g (k.proc q) := by
  by_cases hq : q = p
  · rw [hq, hg]
  · rw [hothers q hq]

section

variable (h : k.Iso H) (hram : k.phys.Ram) (hothers : ∀ q, q ≠ p → k'.proc q = k.proc q)
  (hmmr : (k'.proc p).mmr = (k.proc p).mmr) (htf : (k'.proc p).trapframe = (k.proc p).trapframe)

include h hram hothers hmmr htf

theorem Iso.of_filled {perm word : Nat → Nat}
    (hf : Filled (k.proc p).pagetable k.phys fresh perm [] word (k'.proc p).pagetable k'.phys)
    (hheap : ∀ u, npages (k.proc p).sz ≤ u → u ∉ fresh → npages (k'.proc p).sz ≤ u) : k'.Iso H := by
  have hu : Frames.Update k k' p [] fresh :=
    .of_filled (fun q hq => by rw [hothers q hq]) (same_of_others hothers (·.trapframe) htf) hf
  refine h.of_update hram hu (same_of_others hothers (·.mmr) hmmr) (fun s hs => by rw [hothers s hs])
    fun q u f hl hl' hq => ?_
  have hnot : u ∉ fresh := by
    intro hmem
    have := hu.taken u hmem
    rw [hl.frame] at this
    exact (h.frames.leaf q u f hl').2.1 this
  have hleaf := hf.other u hl.1 hnot (by simp)
  refine ⟨?_, fun hs => ⟨?_, user_congr hleaf⟩⟩
  · unfold Proc.LeafAt at hl ⊢
    rwa [hleaf] at hl
  · obtain ⟨i, -, ho, -⟩ := hs
    exact hheap u ho.heap hnot

theorem Iso.of_removed (hsz : npages (k'.proc p).sz ≤ npages (k.proc p).sz)
    (ha : Acct (k.proc p).pagetable k.phys (k'.proc p).pagetable k'.phys []
      ((k.proc p).pagetable.frames us)) (hn : us.Nodup) (hm : ∀ u ∈ us, ∃ f, (k.proc p).LeafAt u f)
    (hun : ∀ u ∈ us, ∀ q, ¬ k.SharedAt H p q u)
    (hleaf : ∀ u < nvpn, (k'.proc p).pagetable.leaf u = none ∨
      u ∉ us ∧ (k'.proc p).pagetable.leaf u = (k.proc p).pagetable.leaf u) : k'.Iso H := by
  have hkeep : ∀ u w, u < nvpn → (k'.proc p).pagetable.leaf u = some w →
      u ∉ us ∧ (k'.proc p).pagetable.leaf u = (k.proc p).pagetable.leaf u := by
    intro u w hu hw
    rcases hleaf u hu with hnone | hsame
    · rw [hnone] at hw
      cases hw
    · exact hsame
  have hu : Frames.Update k k' p us [] := by
    refine .of_removed (fun q hq => by rw [hothers q hq]) (same_of_others hothers (·.trapframe) htf) ha hn hm
      (fun u huu q u' f hq hl hl' => ?_) fun u w hlt hw => ?_
    · obtain ⟨rfl, hs⟩ := h.frames.shared p q u u' f (fun he => hq he.symm) hl hl'
      exact hun u huu q hs
    · obtain ⟨hnot, he⟩ := hkeep u w hlt hw
      exact ⟨hnot, he ▸ hw⟩
  refine h.of_update hram hu (same_of_others hothers (·.mmr) hmmr) (fun s hs => by rw [hothers s hs])
    fun q u f hl hl' hq => ?_
  obtain ⟨w, hw, -⟩ := hl.2.2.2
  have he := (hkeep u w hl.1 hw).2
  refine ⟨?_, fun hs => ⟨?_, user_congr he⟩⟩
  · unfold Proc.LeafAt at hl ⊢
    rwa [he] at hl
  · obtain ⟨i, -, ho, -⟩ := hs
    exact hsz.trans ho.heap

end

theorem SharedAt.not_heap (h : k.SharedAt H p q u) : npages (k.proc p).sz ≤ u := by
  obtain ⟨i, -, ho, -⟩ := h
  exact ho.heap

end Kernel

variable {H : Nat → Nat → Prop}

/-! ## sbrk and page faults -/

theorem iso_growproc {n : Nat} {done : Bool} (h : k.Iso H) (hb : k.Basic)
    (hg : growproc k p n = .ok (done, k')) : k'.Iso H := by
  have hle : ∀ x : Nat, x % 2 ^ 32 ≤ trapframe := fun x =>
    (Nat.mod_lt x (by decide)).le.trans (by decide)
  have hmax := (hle (k.proc p).sz).trans trapframe_le_maxva
  have hold : npages ((k.proc p).sz % 2 ^ 32) ≤ npages (k.proc p).sz :=
    npages_mono (Nat.mod_le _ _)
  rcases growproc_eq_ok hg with ⟨-, hk'⟩ | ⟨-, -, r, vm, halloc, hk'⟩ | ⟨-, r, vm, hdealloc, rfl⟩
  · have hfill : Filled (k.proc p).pagetable k.phys [] (fun _ => 0) [] (fun _ => 0)
        (k'.proc p).pagetable k'.phys := by
      simpa [hk', Kernel.resize] using Filled.nil _ _ _ _
    subst hk'
    refine h.of_filled (p := p) hb.ram (fun q hq => proc_setProc_of_ne _ hq _) ?_ ?_
      hfill ?_
    · simp [Kernel.resize]
    · simp [Kernel.resize]
    · intro u hu _
      simpa [Kernel.resize] using hold.trans hu
  · -- in each of the three cases the table has been filled
    obtain ⟨fresh, hfill, hsz⟩ : ∃ fresh, Filled (k.proc p).pagetable k.phys fresh
        (fun _ => heapPerm) [] (fun _ => 0) vm.1 vm.2 ∧
        ∀ u, npages (k.proc p).sz ≤ u → u ∉ fresh → npages (r % 2 ^ 32) ≤ u := by
      rcases uvmalloc_eq_ok hb.ram hmax halloc with ⟨-, hr, hpt, hph⟩ | ⟨-, hr, hfill, -⟩ |
        ⟨-, hr, hacct, hleaf⟩
      · refine ⟨[], by rw [hpt, hph]; exact .nil _ _ _ _, fun u hu _ => ?_⟩
        rw [hr, Nat.mod_mod]
        exact hold.trans hu
      · refine ⟨_, hfill, fun u hu hnot => ?_⟩
        rw [mem_range'] at hnot
        have := npages_mono (Nat.mod_le r (2 ^ 32))
        rw [hr] at this ⊢
        omega
      · refine ⟨[], (Filled.nil _ _ _ _).keep hacct hleaf, fun u _ _ => ?_⟩
        rw [hr]
        exact Nat.zero_le _
    rw [hk']
    split
    · exact h.of_filled (p := p) hb.ram (fun q hq => proc_setVm_of_ne _ hq _) (by simp)
        (by simp) (by simpa using hfill) (fun u hu _ => by simpa using hu)
    · exact h.of_filled (p := p) hb.ram (fun q hq => proc_setProc_of_ne _ hq _)
        (by simp [Kernel.resize]) (by simp [Kernel.resize])
        (by simpa [Kernel.resize] using hfill)
        (fun u hu hnot => by simpa [Kernel.resize] using hsz u hu hnot)
  · generalize ((k.proc p).sz % 2 ^ 32 + n) % 2 ^ 32 = newsz at hdealloc
    obtain ⟨hr, hacct, hmapped, hleaf⟩ := uvmdealloc_eq_ok hmax hdealloc
    have htop := npages_le_of_sz (hle (k.proc p).sz)
    have hlt := trapframeVpn_lt
    have htramp : trampolineVpn = trapframeVpn + 1 := by decide
    refine h.of_removed (p := p) hb.ram (fun q hq => proc_setProc_of_ne _ hq _)
      (by simp [Kernel.resize]) (by simp [Kernel.resize]) ?_
      (by simp only [Kernel.resize, proc_setProc_self]; exact hacct) List.nodup_range'
      (fun u hu => ?_)
      (fun u hu q hs => ?_) (fun u hu => ?_)
    · simp only [Kernel.resize, proc_setProc_self]
      refine npages_mono ((Nat.mod_le _ _).trans ?_)
      rw [hr]
      exact (Nat.min_le_left _ _).trans (Nat.mod_le _ _)
    · rw [mem_range'] at hu
      obtain ⟨w, hw, -⟩ := hmapped u hu.1 (by omega)
      exact ⟨_, by omega, by omega, by omega, w, hw, rfl⟩
    · rw [mem_range'] at hu
      have := hs.not_heap
      omega
    · simp only [Kernel.resize, proc_setProc_self]
      rw [hleaf u hu, mem_range']
      split
      · exact .inl rfl
      · exact .inr ⟨by omega, rfl⟩

theorem iso_faultRegions {va : Nat} {store : Bool} (h : k.Iso H) (hb : k.Basic)
    (hH : ∀ i, ((k.proc p).mmr i).valid = true → H p i)
    (hroom : (∃ i < maxMmr, ((k.proc p).mmr i).Serves store va) → 3 ≤ k.phys.freelist.length)
    (hf : faultRegions k p store va maxMmr = .ok k') : k'.Iso H ∧ Kernel.OnlyTable p k k' := by
  rcases faultRegions_eq_ok hb (fun i hi => (h.proper p i (hH i hi)).prot) hroom hf with
    ⟨-, rfl⟩ | ⟨i, -, -, vm, hfill, rfl⟩
  · exact ⟨h, .refl p _⟩
  · exact ⟨h.of_filled (p := p) hb.ram (fun q hq => proc_setVm_of_ne _ hq _) (by simp)
      (by simp) (by simpa using hfill) (fun u hu _ => by simpa using hu),
      (Kernel.OnlyTable.refl p k).setVm _⟩

/-! ## Regions come and go -/

section

variable {k k' : Kernel} {p q i u : Nat}

theorem Mmr.SameRegion.isPrivate {r' : Mmr} (h : r.SameRegion r') : r'.isPrivate = r.isPrivate := by
  rw [Mmr.isPrivate, h, Mmr.isPrivate]

theorem Kernel.Paired.unique {t : Nat} (hs : k.Paired H p s i) (ht : k.Paired H p t i) : s = t := by
  have h1 := hs.fore.1
  rw [ht.fore.1] at h1
  simp only [Option.some.injEq, NodePtr.mk.injEq] at h1
  exact h1.1.symm

/-- The change of entry `i` of `p` that takes the region out of its family.  If `p` holds the
region then none of its pages is mapped any more. -/
structure Kernel.Detached (k k' : Kernel) (H : Nat → Nat → Prop) (p i : Nat) : Prop where
  sz : ∀ s, (k'.proc s).sz = (k.proc s).sz
  table : ∀ s, (k'.proc s).pagetable = (k.proc s).pagetable
  trapframe : ∀ s, (k'.proc s).trapframe = (k.proc s).trapframe
  freelist : k'.phys.freelist = k.phys.freelist
  region : ∀ s j, ¬ (s = p ∧ j = i) → ((k.proc s).mmr j).SameRegion ((k'.proc s).mmr j)
  listid : ∀ s j, ¬ (s = p ∧ j = i) → (k'.node ⟨s, j⟩).listid = (k.node ⟨s, j⟩).listid
  partner : ∀ s, k.Paired H p s i → k'.Link s s i
  links : ∀ s j, ¬ (s = p ∧ j = i) → ¬ (k.Paired H p s i ∧ j = i) →
    k'.node ⟨s, j⟩ = k.node ⟨s, j⟩

theorem Kernel.Detached.paired (h : k.Detached k' H p i) {t j : Nat} (hp : k.Paired H s t j)
    (hs : ¬ (s = p ∧ j = i)) (ht : ¬ (t = p ∧ j = i)) :
    k'.Paired (fun s j => H s j ∧ ¬ (s = p ∧ j = i)) s t j := by
  have hs' : ¬ (k.Paired H p s i ∧ j = i) := by
    rintro ⟨hps, rfl⟩
    exact ht ⟨hp.unique hps.symm, rfl⟩
  have ht' : ¬ (k.Paired H p t i ∧ j = i) := by
    rintro ⟨hpt, rfl⟩
    exact hs ⟨hp.symm.unique hpt.symm, rfl⟩
  refine ⟨hp.ne, ⟨hp.left, hs⟩, ⟨hp.right, ht⟩, ?_, ?_, ?_, ?_⟩
  · rw [Kernel.Link, h.links s j hs hs']
    exact hp.fore
  · rw [Kernel.Link, h.links t j ht ht']
    exact hp.back
  · rw [(h.region s j hs).isPrivate]
    exact hp.notPrivate
  · exact ((h.region s j hs).symm.trans hp.same).trans (h.region t j ht)

theorem Kernel.Detached.ownPage (h : k.Detached k' H p i) {j : Nat} (ho : k.OwnPage H s j u)
    (hs : ¬ (s = p ∧ j = i)) : k'.OwnPage (fun s j => H s j ∧ ¬ (s = p ∧ j = i)) s j u := by
  refine ho.transfer (h.region s j hs).pages (fun j' hj' hu => ⟨hj'.1, ?_⟩) ?_ ?_
  · rwa [(h.region s j' hj'.2).pages] at hu
  · rw [h.sz]
    exact ho.heap
  · rw [h.table]
    exact ho.user

theorem Kernel.Iso.detach (h : k.Iso H) (hd : k.Detached k' H p i)
    (hun : H p i → ∀ u ∈ ((k.proc p).mmr i).pages, (k.proc p).pagetable.user u = none) :
    k'.Iso fun s j => H s j ∧ ¬ (s = p ∧ j = i) := by
  have hown : ∀ {s j u}, H s j → k.OwnPage H s j u → ¬ (s = p ∧ j = i) := by
    rintro s j u hH ho ⟨rfl, rfl⟩
    obtain ⟨w, hw⟩ := ho.user
    rw [hun hH u ho.page] at hw
    cases hw
  refine ⟨(h.frames.congr hd.table hd.trapframe hd.freelist).weaken
    fun s t u f _ _ _ ⟨j, hpair, ho, ho'⟩ => ?_, fun s j hs => ?_, fun s j hs hpriv => ?_,
    fun s t j j' hs ht hpriv ho => ?_⟩
  · have hs := hown hpair.left ho
    have ht := hown hpair.right ho'
    exact ⟨j, hd.paired hpair hs ht, hd.ownPage ho hs, hd.ownPage ho' ht⟩
  · have hreg := hd.region s j hs.2
    have hlist : ((k'.proc s).mmr j).family.listid = ((k.proc s).mmr j).family.listid :=
      hd.listid s j hs.2
    obtain ⟨h1, h2, h3⟩ := h.proper s j hs.1
    refine ⟨by rwa [hreg], by rwa [hreg], ?_⟩
    rw [hreg.isPrivate]
    exact h3.imp_right fun hin => by rwa [hlist]
  · rw [(hd.region s j hs.2).isPrivate] at hpriv
    rcases h.family s j hs.1 hpriv with hl | ⟨t, hpair⟩
    · refine .inl ?_
      rw [Kernel.Link, hd.links s j hs.2 fun hps => ?_]
      · exact hl
      · obtain ⟨hps, rfl⟩ := hps
        exact hl.not_paired hps.symm
    · by_cases ht : t = p ∧ j = i
      · obtain ⟨rfl, rfl⟩ := ht
        exact .inl (hd.partner s hpair.symm)
      · exact .inr ⟨t, hd.paired hpair hs.2 ht⟩
  · rw [(hd.region s j hs.2).isPrivate] at hpriv
    rw [hd.region s j hs.2, hd.region t j' ht.2] at ho
    obtain ⟨rfl, he | hpair⟩ := h.one s t j j' hs.1 ht.1 hpriv ho
    · exact ⟨rfl, .inl he⟩
    · exact ⟨rfl, .inr (hd.paired hpair hs.2 ht.2)⟩

theorem Kernel.Paired.mono {H' : Nat → Nat → Prop} (h : k.Paired H p q i)
    (hH : ∀ s j, H s j → H' s j) : k.Paired H' p q i :=
  { h with left := hH p i h.left, right := hH q i h.right }

theorem Kernel.Iso.attach (h : k.Iso H) (hnot : ¬ H p i) (hproper : ((k.proc p).mmr i).Proper)
    (hlink : k.Link p p i)
    (horigin : ∀ s j, H s j → ((k.proc s).mmr j).origin ≠ ((k.proc p).mmr i).origin)
    (hun : ∀ u ∈ ((k.proc p).mmr i).pages, (k.proc p).pagetable.user u = none) :
    k.Iso fun s j => H s j ∨ s = p ∧ j = i := by
  have hmono : ∀ s j, H s j → H s j ∨ s = p ∧ j = i := fun _ _ => .inl
  have hown : ∀ {s j u}, k.OwnPage H s j u →
      k.OwnPage (fun s j => H s j ∨ s = p ∧ j = i) s j u := by
    intro s j u ho
    refine ho.transfer rfl (fun j' hj' hu => ⟨?_, hu⟩) ho.heap ho.user
    rcases hj' with hj' | ⟨rfl, rfl⟩
    · exact hj'
    · obtain ⟨w, hw⟩ := ho.user
      rw [hun u hu] at hw
      cases hw
  refine ⟨h.frames.weaken fun s t u f _ _ _ ⟨j, hpair, ho, ho'⟩ =>
      ⟨j, hpair.mono hmono, hown ho, hown ho'⟩, fun s j hs => ?_, fun s j hs hpriv => ?_,
    fun s t j j' hs ht hpriv ho => ?_⟩
  · rcases hs with hs | ⟨rfl, rfl⟩
    · exact h.proper s j hs
    · exact hproper
  · rcases hs with hs | ⟨rfl, rfl⟩
    · exact (h.family s j hs hpriv).imp_right fun ⟨t, hpair⟩ => ⟨t, hpair.mono hmono⟩
    · exact .inl hlink
  · rcases hs with hs | ⟨rfl, rfl⟩
    · rcases ht with ht | ⟨rfl, rfl⟩
      · obtain ⟨rfl, he⟩ := h.one s t j j' hs ht hpriv ho
        exact ⟨rfl, he.imp_right fun hpair => hpair.mono hmono⟩
      · exact absurd ho (horigin s j hs)
    · rcases ht with ht | ⟨rfl, rfl⟩
      · exact absurd ho.symm (horigin t j' ht)
      · exact ⟨rfl, .inl rfl⟩

section

variable (hothers : ∀ q, q ≠ p → k'.proc q = k.proc q) (hsz : (k'.proc p).sz = (k.proc p).sz)
  (htable : (k'.proc p).pagetable = (k.proc p).pagetable)
  (htf : (k'.proc p).trapframe = (k.proc p).trapframe)
  (hmmr : (k'.proc p).mmr = update (k.proc p).mmr i r)
  (hfree : k'.phys.freelist = k.phys.freelist)

include hothers hsz htable htf hmmr hfree

theorem Kernel.detached_single (hno : ∀ s, ¬ k.Paired H p s i) : k.Detached k' H p i := by
  have hentry : ∀ s j, ¬ (s = p ∧ j = i) → (k'.proc s).mmr j = (k.proc s).mmr j := by
    intro s j hs
    by_cases hsp : s = p
    · subst hsp
      rw [hmmr, update_of_ne fun hj => hs ⟨rfl, hj⟩]
    · rw [hothers s hsp]
  refine ⟨same_of_others hothers (·.sz) hsz, same_of_others hothers (·.pagetable) htable,
    same_of_others hothers (·.trapframe) htf, hfree, fun s j hs => ?_, fun s j hs => ?_,
    fun s hp => absurd hp (hno s), fun s j hs _ => ?_⟩
  · rw [hentry s j hs]
    rfl
  · rw [Kernel.node, hentry s j hs, Kernel.node]
  · rw [Kernel.node, hentry s j hs, Kernel.node]

theorem Kernel.Iso.setEntry (h : k.Iso H) (hnot : ¬ H p i) : k'.Iso H := by
  have hd : k.Detached k' H p i :=
    detached_single hothers hsz htable htf hmmr hfree fun s hp => hnot hp.left
  refine (h.detach hd fun hp => absurd hp hnot).congr fun s j => ⟨fun hs => ⟨hs, ?_⟩, And.left⟩
  rintro ⟨rfl, rfl⟩
  exact hnot hs

end

theorem Kernel.held_setEntry (hothers : ∀ q, q ≠ p → k'.proc q = k.proc q)
    (hlive : (k.proc p).state ≠ .unused) (hstate : (k'.proc p).state = (k.proc p).state)
    (hmmr : (k'.proc p).mmr = update (k.proc p).mmr i r) (s j : Nat) :
    k'.Held s j ↔ (¬ (s = p ∧ j = i) ∧ k.Held s j) ∨ (s = p ∧ j = i ∧ r.valid = true) := by
  by_cases hs : s = p
  · subst hs
    rw [Kernel.Held, Kernel.Held, hstate, hmmr]
    by_cases hj : j = i
    · subst hj
      simp [hlive]
    · simp [hj]
  · rw [Kernel.Held, Kernel.Held, hothers s hs]
    simp [hs]

theorem user_eq_none_of_leaf {pt : PageTable} {u : Nat} (h : pt.leaf u = none) :
    pt.user u = none := by
  rw [PageTable.user, h]
  simp

theorem ListidFrom.inMmrList {old id : Int} {l l' : Nat → Bool} (h : ListidFrom flags old l id l')
    (hshared : has flags mapShared = true) (hfree : ∃ j < nlist, l j = false) :
    Xv6.inMmrList id := by
  cases h with
  | kept hno =>
    rw [hshared] at hno
    cases hno
  | none _ hfull =>
    obtain ⟨j, hj, hlj⟩ := hfree
    rw [hfull j hj] at hlj
    cases hlj
  | new _ hj _ => exact ⟨Int.natCast_nonneg _, by exact_mod_cast hj⟩

theorem not_held_of_freeMmr {i : Nat} (h : freeMmr k p = some i) : ¬k.Held p i :=
  fun hh => by
    have := (freeMmr_eq_some h).2
    rw [hh.2] at this
    cases this

theorem Kernel.Mapped.held {i : Nat} {e : Mmr} {vm : PageTable × Phys} (h : k.Mapped k' p i e vm)
    (hlive : (k.proc p).state ≠ .unused) (hnot : ¬k.Held p i) (s j : Nat) :
    k'.Held s j ↔ k.Held s j ∨ s = p ∧ j = i ∧ e.valid = true := by
  rw [held_setEntry h.others hlive (by rw [h.self]) (by rw [h.self])]
  refine or_congr_left ⟨And.right, fun hs => ⟨?_, hs⟩⟩
  rintro ⟨rfl, rfl⟩
  exact hnot hs

theorem iso_mmap {length prot : Nat} {res : Option Nat} (h : k.Iso k.Held) (hb : k.Basic)
    (hlive : (k.proc p).state ≠ .unused) (hprot : prot < 1024)
    (hflags : has flags mapPrivate = true ∨ has flags mapShared = true)
    (hid : has flags mapPrivate = true ∨ ∃ j < nlist, k.mmrList j = false)
    (hm : sysMmap k p length prot flags = .ok (res, k')) : k'.Iso k'.Held := by
  rcases sysMmap_eq_ok hm with ⟨-, -, rfl⟩ | ⟨i, r, ok, vm, hfree, hr, hmap, hfalse, htrue⟩
  · exact h
  have hnot := not_held_of_freeMmr hfree
  obtain ⟨-, -, hnull, hacct, hentry, -⟩ :=
    mapvpages_eq_ok (hr ▸ newMmr_addr k p i length prot flags) hmap
  have hfill : Filled (k.proc p).pagetable k.phys [] (fun _ => 0) [] (fun _ => 0) vm.1 vm.2 :=
    (Filled.nil _ _ _ _).keep hacct fun u _ => leaf_congr (hentry u)
  have hk₁ : (k.setVm p vm).Iso k.Held :=
    h.of_filled (p := p) hb.ram (fun q hq => proc_setVm_of_ne _ hq _) (by simp) (by simp)
      (by simpa using hfill) (fun u hu _ => by simpa using hu)
  have hk₂ : ∀ {e}, k.Mapped k' p i e vm → k'.Iso k.Held := fun hmd =>
    hk₁.setEntry (fun q hq => by rw [hmd.others q hq, proc_setVm_of_ne _ hq])
      (by rw [hmd.self]; simp) (by rw [hmd.self]; simp) (by rw [hmd.self]; simp)
      (by rw [hmd.self, proc_setVm_self]) (by rw [hmd.phys]; rfl) hnot
  cases ok with
  | false =>
    obtain ⟨-, rfl⟩ := hfalse rfl
    have hmd := k.mapped_mapFailed p i r vm
    refine (hk₂ hmd).congr fun s j => ?_
    rw [hmd.held hlive hnot]
    simp
  | true =>
    obtain ⟨-, id, l, rfl, hfrom⟩ := htrue rfl
    have hmd := k.mapped_mapRegion p i r id l vm
    refine Kernel.Iso.congr ((hk₂ hmd).attach hnot ?_ ?_ ?_ ?_) fun s j => ?_
    · rw [hmd.entry, hr]
      refine ⟨hprot, hflags, ?_⟩
      rcases hid with hpriv | hfree'
      · exact .inl hpriv
      · exact hflags.imp_right fun hsh => hfrom.inMmrList hsh hfree'
    · rw [Kernel.Link, Kernel.node, hmd.entry, hr]
      exact ⟨rfl, rfl⟩
    · intro s j hs
      rw [hmd.kept fun he => hnot (he.1 ▸ he.2 ▸ hs), hmd.entry, hr]
      exact Nat.ne_of_lt ((hb.sound s).region j hs.2).2
    · intro u hu
      rw [hmd.entry, hr] at hu
      rw [hr] at hmap
      have hleaf := newMmr_unmapped (hb.sound p).toPlaced ((hb.sound p).fixed hlive) hmap hu
      refine user_eq_none_of_leaf ?_
      rw [hmd.self]
      exact (leaf_congr (hentry u)).trans hleaf
    · rw [hmd.held hlive hnot, hr]
      exact or_congr_right (and_congr_right fun _ => and_iff_left rfl)

end

end Xv6
