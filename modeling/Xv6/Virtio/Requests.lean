/-
What relates `free`, the descriptors, `info`, both rings and the requests in flight, and that
each operation of the driver and of the device keeps it.
-/
import Xv6.Lib.Listing
import Xv6.Virtio.Basic

namespace Xv6.Virtio

open Function List

variable {d' : Disk} {h i i0 x : Nat} {φ : Nat → Phase} {p : Phase} {r : Req}

def Req.chain (h : Nat) (r : Req) : List Nat := [h, r.i1, r.i2]

def Phase.done : Phase → Bool
  | .posted | .clearing | .cleared => true
  | _ => false

def Phase.seen : Phase → Bool
  | .clearing | .cleared => true
  | _ => false

namespace Disk

variable (d : Disk)

/-- Descriptor `i` is in the chain of the request that starts at `h`. -/
def Has (h i : Nat) : Prop := ∃ r, d.req h = some r ∧ i ∈ r.chain h

/-- Every descriptor is free, held by the holder of the lock, or in one chain. -/
structure Owned : Prop where
  unique : ∀ h h' i, d.Has h i → d.Has h' i → h = h'
  apart : ∀ h i, i ∈ d.held → ¬ d.Has h i
  nodup : d.held.Nodup
  used : ∀ i, i < num ∧ d.free i = false ↔ i ∈ d.held ∨ ∃ h, d.Has h i

/-- The request at `h` is formatted, and is where its phase says. -/
structure Wired (h : Nat) (r : Req) : Prop where
  nodup : (r.chain h).Nodup
  first : d.desc h = ⟨.op h, 16, vringDescFNext, r.i1⟩
  second : (d.desc r.i1).flags &&& vringDescFNext ≠ 0 ∧ (d.desc r.i1).next = r.i2
  third : d.desc r.i2 = ⟨.status h, 1, vringDescFWrite, 0⟩
  info : (d.info h).b = some r.buf
  busy : d.bufDisk r.buf = !(d.phase h).seen
  locked : d.locked r.buf = some r.owner
  done : (d.phase h).done = true → (d.info h).status = 0 ∧ r.serial ∈ d.completed

def availQueue : List Nat := Ring.queue num d.availRing d.lastAvail d.availIdx

def usedQueue : List Nat := Ring.queue num d.usedRing d.usedSeen d.usedIdx

structure Inv : Prop where
  owned : d.Owned
  wired : ∀ h r, d.req h = some r → d.Wired h r
  idle : ∀ h, d.phase h = .idle ↔ d.req h = none
  bufs : ∀ h h' r r', d.req h = some r → d.req h' = some r' → r.buf = r'.buf → h = h'
  avail : Listing.Of d.availQueue fun h => d.phase h = .queued
  pending : Listing.Of d.pending fun h => d.phase h = .taken
  used : Listing.Of d.usedQueue fun h => d.phase h = .posted ∨ d.phase h = .clearing
  returned : ∀ s ∈ d.returned, s ∈ d.completed

variable {d}

theorem has_self (hr : d.req h = some r) : d.Has h h :=
  ⟨r, hr, mem_cons_self ..⟩

theorem Owned.lt (ho : d.Owned) (hh : d.Has h i) : i < num :=
  ((ho.used i).2 (.inr ⟨h, hh⟩)).1

theorem Owned.not_free (ho : d.Owned) (hh : d.Has h i) : d.free i = false :=
  ((ho.used i).2 (.inr ⟨h, hh⟩)).2

theorem Inv.request (hd : d.Inv) (hp : d.phase h ≠ .idle) : ∃ r, d.req h = some r := by
  refine Option.ne_none_iff_exists'.1 fun hn => hp ((hd.idle h).2 hn)

theorem Inv.lt (hd : d.Inv) (hp : d.phase h ≠ .idle) : h < num := by
  obtain ⟨r, hr⟩ := hd.request hp
  exact hd.owned.lt (has_self hr)

def entry (d : Disk) : Nat := d.usedRing (d.usedSeen.toNat % num)

def next (d : Disk) : Nat := d.availRing (d.lastAvail.toNat % num)

theorem usedQueue_pop (hne : d.usedSeen ≠ d.usedIdx) : d.usedQueue =
    d.entry :: Ring.queue num d.usedRing (d.usedSeen + 1) d.usedIdx :=
  Ring.queue_pop (by decide) hne

theorem availQueue_pop (hne : d.lastAvail ≠ d.availIdx) : d.availQueue =
    d.next :: Ring.queue num d.availRing (d.lastAvail + 1) d.availIdx :=
  Ring.queue_pop (by decide) hne

/-! ## Allocation -/

theorem allocDesc_eq_some (h : d.allocDesc = some (i, d')) : i < num ∧ d.free i = true ∧
      d' = { d with free := update d.free i false, held := d.held ++ [i] } := by
  obtain ⟨j, hj, he⟩ := Option.map_eq_some_iff.1 h
  cases he
  exact ⟨mem_range.1 (mem_of_find?_eq_some hj), List.find?_some hj, rfl⟩

theorem Owned.alloc (ho : d.Owned) (hi : i < num) (hf : d.free i = true) :
    Owned { d with free := update d.free i false, held := d.held ++ [i] } := by
  have hnot : ¬ (i ∈ d.held ∨ ∃ h, d.Has h i) := fun hm => by
    have := ((ho.used i).2 hm).2
    rw [hf] at this
    cases this
  rw [not_or, not_exists] at hnot
  refine ⟨ho.unique, fun h j hj => ?_, ?_, fun j => ?_⟩
  · rcases mem_append.1 hj with hj | hj
    · exact ho.apart h j hj
    · rw [mem_singleton.1 hj]
      exact hnot.2 h
  · exact Listing.nodup_append_singleton ho.nodup hnot.1
  · by_cases hji : j = i
    · subst hji
      simp [hi]
    · have := ho.used j
      simp only [update_of_ne hji, mem_append, mem_singleton, hji, or_false]
      exact this

theorem Inv.alloc (hd : d.Inv) (h : d.allocDesc = some (i, d')) : d'.Inv := by
  obtain ⟨hi, hf, rfl⟩ := allocDesc_eq_some h
  exact ⟨hd.owned.alloc hi hf, fun h r hr => let hw := hd.wired h r hr
    ⟨hw.nodup, hw.first, hw.second, hw.third, hw.info, hw.busy, hw.locked, hw.done⟩,
    hd.idle, hd.bufs, hd.avail, hd.pending, hd.used, hd.returned⟩

theorem Owned.freeDesc (ho : d.Owned) (hi : i ∈ d.held) (desc : Nat → Desc) :
    Owned { d with desc, free := update d.free i true, held := d.held.erase i } := by
  refine ⟨ho.unique, fun h j hj => ho.apart h j (mem_of_mem_erase hj), ho.nodup.erase i,
    fun j => ?_⟩
  have hj := ho.used j
  by_cases hji : j = i
  · subst hji
    have hmem : j ∉ d.held.erase j := fun hm => (ho.nodup.mem_erase_iff.1 hm).1 rfl
    have hhas : ¬ ∃ h, d.Has h j := fun ⟨h, hh⟩ => ho.apart h j hi hh
    simp only [update_self, Bool.true_eq_false, and_false, false_iff, not_or]
    exact ⟨hmem, hhas⟩
  · simp only [update_of_ne hji]
    rw [hj, mem_erase_of_ne hji]
    rfl

theorem freeDesc_of_held (ho : d.Owned) (hi : i ∈ d.held) : d.freeDesc i = .ok { d with
      desc := update d.desc i .zero
      free := update d.free i true
      held := d.held.erase i } := by
  obtain ⟨hlt, hf⟩ := (ho.used i).2 (.inl hi)
  unfold freeDesc
  rw [if_neg (by omega), hf]
  rfl

theorem Wired.congr (hw : d.Wired h r) (hdesc : ∀ i ∈ r.chain h, d'.desc i = d.desc i)
    (hinfo : d'.info h = d.info h) (hseen : (d'.phase h).seen = (d.phase h).seen)
    (hdone : (d'.phase h).done = true → (d.phase h).done = true)
    (hbuf : d'.bufDisk r.buf = d.bufDisk r.buf) (hlocked : d'.locked r.buf = d.locked r.buf)
    (hc : ∀ s ∈ d.completed, s ∈ d'.completed) : d'.Wired h r := by
  have h0 := hdesc h (by simp [Req.chain])
  have h1 := hdesc r.i1 (by simp [Req.chain])
  have h2 := hdesc r.i2 (by simp [Req.chain])
  refine ⟨hw.nodup, h0.trans hw.first, ?_, h2.trans hw.third, ?_, ?_, hlocked.trans hw.locked,
    fun hp => ?_⟩
  · rw [h1]
    exact hw.second
  · rw [hinfo]
    exact hw.info
  · rw [hbuf, hseen]
    exact hw.busy
  · rw [hinfo]
    exact (hw.done (hdone hp)).imp_right (hc _)

theorem Inv.freeDesc (hd : d.Inv) (hi : i ∈ d.held) (h : d.freeDesc i = .ok d') : d'.Inv := by
  rw [freeDesc_of_held hd.owned hi] at h
  cases h
  refine ⟨hd.owned.freeDesc hi _, fun h r hr => (hd.wired h r hr).congr (fun j hj => ?_)
    rfl rfl id rfl rfl fun _ => id, hd.idle, hd.bufs, hd.avail, hd.pending, hd.used, hd.returned⟩
  refine update_of_ne ?_ ..
  rintro rfl
  exact hd.owned.apart h j hi ⟨r, hr, hj⟩

/-! ## Requests come and go -/

theorem Owned.format (ho : d.Owned) (hheld : d.held = r.chain i0)
    (hreq : d'.req = update d.req i0 (some r)) (hheld' : d'.held = [])
    (hfree : d'.free = d.free) : d'.Owned := by
  have hself : ∀ i, d'.Has i0 i ↔ i ∈ d.held := by
    unfold Has
    rw [hreq, hheld]
    simp
  have hother : ∀ h i, h ≠ i0 → (d'.Has h i ↔ d.Has h i) := by
    intro h i hne
    unfold Has
    rw [hreq, update_of_ne hne]
  have hno : ∀ i, ¬ d.Has i0 i := by
    rintro i ⟨r', hr', -⟩
    refine ho.apart i0 i0 ?_ (has_self hr')
    rw [hheld]
    exact mem_cons_self ..
  refine ⟨fun h h' i hh hh' => ?_, fun h i hi => ?_, ?_, fun i => ?_⟩
  · by_cases hne : h = i0
    · subst hne
      by_cases hne' : h' = h
      · exact hne'.symm
      · exact absurd ((hother h' i hne').1 hh') (ho.apart h' i ((hself i).1 hh))
    · by_cases hne' : h' = i0
      · subst hne'
        exact absurd ((hother h i hne).1 hh) (ho.apart h i ((hself i).1 hh'))
      · exact ho.unique h h' i ((hother h i hne).1 hh) ((hother h' i hne').1 hh')
  · rw [hheld'] at hi
    cases hi
  · rw [hheld']
    exact nodup_nil
  · rw [hfree, ho.used i, hheld']
    constructor
    · rintro (hi | ⟨h, hh⟩)
      · exact .inr ⟨i0, (hself i).2 hi⟩
      · have hne : h ≠ i0 := fun he => hno i (he ▸ hh)
        exact .inr ⟨h, (hother h i hne).2 hh⟩
    · rintro (hi | ⟨h, hh⟩)
      · cases hi
      · by_cases hne : h = i0
        · exact .inl ((hself i).1 (hne ▸ hh))
        · exact .inr ⟨h, (hother h i hne).1 hh⟩

theorem Owned.retire (ho : d.Owned) (hr : d.req i0 = some r) (hnd : (r.chain i0).Nodup)
    (hheld : d.held = []) (hreq : d'.req = update d.req i0 none)
    (hheld' : d'.held = r.chain i0) (hfree : d'.free = d.free) : d'.Owned := by
  have hself : ∀ i, ¬ d'.Has i0 i := by
    rintro i ⟨r', hr', -⟩
    rw [hreq, update_self] at hr'
    cases hr'
  have hother : ∀ h i, h ≠ i0 → (d'.Has h i ↔ d.Has h i) := by
    intro h i hne
    unfold Has
    rw [hreq, update_of_ne hne]
  have hchain : ∀ i, d.Has i0 i ↔ i ∈ r.chain i0 := by
    unfold Has
    rw [hr]
    simp
  refine ⟨fun h h' i hh hh' => ?_, fun h i hi hh => ?_, ?_, fun i => ?_⟩
  · have hne : h ≠ i0 := fun he => hself i (he ▸ hh)
    have hne' : h' ≠ i0 := fun he => hself i (he ▸ hh')
    exact ho.unique h h' i ((hother h i hne).1 hh) ((hother h' i hne').1 hh')
  · have hne : h ≠ i0 := fun he => hself i (he ▸ hh)
    rw [hheld', ← hchain] at hi
    exact hne (ho.unique h i0 i ((hother h i hne).1 hh) hi)
  · rw [hheld']
    exact hnd
  · rw [hfree, ho.used i, hheld, hheld', ← hchain]
    constructor
    · rintro (hi | ⟨h, hh⟩)
      · cases hi
      · by_cases hne : h = i0
        · exact .inl (hne ▸ hh)
        · exact .inr ⟨h, (hother h i hne).2 hh⟩
    · rintro (hi | ⟨h, hh⟩)
      · exact .inr ⟨i0, hi⟩
      · have hne : h ≠ i0 := fun he => hself i (he ▸ hh)
        exact .inr ⟨h, (hother h i hne).1 hh⟩

theorem Inv.avail_lt (hd : d.Inv) (hh : h < num) (hp : d.phase h ≠ .queued) :
    d.availQueue.length < num :=
  hd.avail.length_lt (fun x hx => hd.lt (by rw [hx]; decide)) hp hh

theorem Inv.lists (hd : d.Inv) (hp : d.phase h = .idle ∨ d.phase h = .cleared)
    (hq : p = .idle ∨ p = .draft) :
    Listing.Of d.availQueue (fun x => update d.phase h p x = .queued) ∧
    Listing.Of d.pending (fun x => update d.phase h p x = .taken) ∧
    Listing.Of d.usedQueue (fun x => update d.phase h p x = .posted ∨
      update d.phase h p x = .clearing) := by
  refine ⟨hd.avail.congr fun x => ?_, hd.pending.congr fun x => ?_, hd.used.congr fun x => ?_⟩
  all_goals
    by_cases hx : x = h
    · subst hx
      rcases hp with hp | hp <;> rcases hq with rfl | rfl <;> simp [hp]
    · simp only [update_of_ne hx]

theorem Inv.format (hd : d.Inv) {t b i1 i2 : Nat} (write : Bool) (hheld : d.held = [i0, i1, i2])
    (hlocked : d.locked b = some t) (hnone : ∀ h r, d.req h = some r → r.buf ≠ b) :
    (d.format t b write i0 i1 i2).Inv := by
  have ho := hd.owned
  have hmem : ∀ i ∈ [i0, i1, i2], i ∈ d.held := fun i hi => hheld ▸ hi
  have hnd : [i0, i1, i2].Nodup := hheld ▸ ho.nodup
  have hreq : d.req i0 = none := by
    cases hr : d.req i0 with
    | none => rfl
    | some r => exact absurd (has_self hr) (ho.apart i0 i0 (hmem i0 (by simp)))
  have hidle : d.phase i0 = .idle := (hd.idle i0).2 hreq
  have hlt : i0 < num := ((ho.used i0).2 (.inl (hmem i0 (by simp)))).1
  have hqueue : (d.format t b write i0 i1 i2).availQueue = d.availQueue :=
    Ring.queue_update (by decide) (hd.avail_lt hlt (by rw [hidle]; decide)) i0
  obtain ⟨ha, hp, hu⟩ := hd.lists (p := .draft) (.inl hidle) (.inr rfl)
  have hcases : ∀ h r, (d.format t b write i0 i1 i2).req h = some r →
      h = i0 ∧ r = ⟨t, b, i1, i2, d.serials⟩ ∨ h ≠ i0 ∧ d.req h = some r := by
    intro h r hr
    by_cases hne : h = i0
    · subst hne
      simp only [Disk.format, update_self, Option.some.injEq] at hr
      exact .inl ⟨rfl, hr.symm⟩
    · simp only [Disk.format, update_of_ne hne] at hr
      exact .inr ⟨hne, hr⟩
  refine ⟨ho.format (r := ⟨t, b, i1, i2, d.serials⟩) hheld rfl rfl rfl, fun h r hr => ?_,
    fun h => ?_, fun h h' r r' hr hr' he => ?_, hqueue ▸ ha, hp, hu, hd.returned⟩
  · rcases hcases h r hr with ⟨rfl, rfl⟩ | ⟨hne, hr⟩
    · have hchain := hnd
      simp only [nodup_cons, mem_cons, not_mem_nil, or_false, not_or] at hnd
      refine ⟨hchain, ?_, ?_, ?_, ?_, ?_, hlocked, fun hdone => ?_⟩
      · simp [Disk.format, update_of_ne hnd.1.2, update_of_ne hnd.1.1]
      · simp only [Disk.format, update_of_ne hnd.2.1, update_self]
        cases write <;> decide
      · simp [Disk.format]
      · simp [Disk.format]
      · simp [Disk.format, Phase.seen]
      · simp [Disk.format, Phase.done] at hdone
    · have hw := hd.wired h r hr
      have hout : ∀ i ∈ r.chain h, ∀ j ∈ [i0, i1, i2], i ≠ j := fun i hi j hj he =>
        ho.apart h j (hmem j hj) ⟨r, hr, he ▸ hi⟩
      refine hw.congr (fun i hi => ?_) ?_ ?_ ?_ ?_ rfl fun _ => id
      · simp [Disk.format, update_of_ne (hout i hi i0 (by simp)),
          update_of_ne (hout i hi i1 (by simp)),
          update_of_ne (hout i hi i2 (by simp))]
      all_goals simp [Disk.format, update_of_ne hne, update_of_ne (hnone h r hr)]
  · by_cases hne : h = i0
    · subst hne
      simp [Disk.format]
    · simp only [Disk.format, update_of_ne hne]
      exact hd.idle h
  · rcases hcases h r hr with ⟨rfl, rfl⟩ | ⟨_, hold⟩ <;>
      rcases hcases h' r' hr' with ⟨rfl, rfl⟩ | ⟨_, hold'⟩
    · rfl
    · exact absurd he.symm (hnone h' r' hold')
    · exact absurd he (hnone h r hold)
    · exact hd.bufs h h' r r' hold hold' he

theorem Inv.retire (hd : d.Inv) (hr : d.req i0 = some r) (hp : d.phase i0 = .cleared)
    (hheld : d.held = []) : (d.retire i0).Inv := by
  have hw := hd.wired i0 r hr
  have hheld' : (d.retire i0).held = r.chain i0 := by
    simp only [Disk.retire, hr]
    rfl
  obtain ⟨ha, hpend, hu⟩ := hd.lists (p := .idle) (.inr hp) (.inl rfl)
  have hcases : ∀ h r, (d.retire i0).req h = some r → h ≠ i0 ∧ d.req h = some r := by
    intro h r hr
    by_cases hne : h = i0
    · subst hne
      simp [Disk.retire] at hr
    · simp only [Disk.retire, update_of_ne hne] at hr
      exact ⟨hne, hr⟩
  refine ⟨hd.owned.retire hr hw.nodup hheld rfl hheld' rfl, fun h r' hr' => ?_, fun h => ?_,
    fun h h' r₁ r₂ h₁ h₂ he => hd.bufs h h' r₁ r₂ (hcases h r₁ h₁).2 (hcases h' r₂ h₂).2 he, ha, hpend,
    hu, hd.returned⟩
  · obtain ⟨hne, hr'⟩ := hcases h r' hr'
    refine (hd.wired h r' hr').congr (fun _ _ => rfl) ?_ ?_ ?_ rfl rfl fun _ => id
    all_goals simp [Disk.retire, update_of_ne hne]
  · by_cases hne : h = i0
    · subst hne
      simp [Disk.retire]
    · simp only [Disk.retire, update_of_ne hne]
      exact hd.idle h

/-! ## A request moves on -/

theorem Inv.idle_update (hd : d.Inv) (hp : d.phase h ≠ .idle) (hq : p ≠ .idle) (x : Nat) :
    update d.phase h p x = .idle ↔ d.req x = none := by
  by_cases hx : x = h
  · subst hx
    rw [update_self, ← hd.idle]
    exact ⟨fun he => absurd he hq, fun he => absurd he hp⟩
  · rw [update_of_ne hx]
    exact hd.idle x

theorem update_ne_iff {q : Phase} (hq : q ≠ p) : update φ h q x = p ↔ φ x = p ∧ x ≠ h := by
  by_cases hx : x = h
  · subst hx
    simp [hq]
  · simp [hx]

theorem update_eq_iff : update φ h p x = p ↔ φ x = p ∨ x = h := by
  by_cases hx : x = h
  · subst hx
    simp
  · simp [hx]

theorem update_keep_iff {q : Phase} (hp : φ h ≠ p) (hq : q ≠ p) :
    update φ h q x = p ↔ φ x = p := by
  rw [update_ne_iff hq, and_iff_left_iff_imp]
  rintro hx rfl
  exact hp hx

theorem Inv.advance (hd : d.Inv) (hphase : d.phase h ≠ .idle) (hp : p ≠ .idle)
    (hphase' : d'.phase = update d.phase h p) (hreq : d'.req = d.req)
    (hheld : d'.held = d.held) (hfree : d'.free = d.free) (hdesc : d'.desc = d.desc)
    (hlocked : d'.locked = d.locked) (hinfo : ∀ x, x ≠ h → d'.info x = d.info x)
    (hbuf : ∀ x r r', x ≠ h → d.req x = some r → d.req h = some r' →
      d'.bufDisk r.buf = d.bufDisk r.buf) (hc : ∀ s ∈ d.completed, s ∈ d'.completed)
    (hret : d'.returned = d.returned)
    (hself : ∀ r, d.req h = some r → (d'.info h).b = (d.info h).b ∧ d'.bufDisk r.buf = !p.seen ∧
      (p.done = true → (d'.info h).status = 0 ∧ r.serial ∈ d'.completed))
    (ha : Listing.Of d'.availQueue fun x => d'.phase x = .queued)
    (hpend : Listing.Of d'.pending fun x => d'.phase x = .taken)
    (hu : Listing.Of d'.usedQueue fun x => d'.phase x = .posted ∨ d'.phase x = .clearing) :
    d'.Inv := by
  obtain ⟨r₀, hr₀⟩ := hd.request hphase
  have hhas : ∀ x i, d'.Has x i ↔ d.Has x i := fun x i => by
    unfold Has
    rw [hreq]
  refine ⟨⟨?_, ?_, ?_, ?_⟩, fun x r hr => ?_, fun x => ?_, ?_, ha, hpend, hu, ?_⟩
  · simp only [hhas]
    exact hd.owned.unique
  · simp only [hhas, hheld]
    exact hd.owned.apart
  · rw [hheld]
    exact hd.owned.nodup
  · simp only [hhas, hheld, hfree]
    exact hd.owned.used
  · rw [hreq] at hr
    have hw := hd.wired x r hr
    by_cases hx : x = h
    · subst hx
      obtain ⟨hb, hdisk, hdone⟩ := hself r hr
      refine ⟨hw.nodup, hdesc ▸ hw.first, hdesc ▸ hw.second, hdesc ▸ hw.third, hb ▸ hw.info, ?_,
        hlocked ▸ hw.locked, ?_⟩
      · rw [hphase', update_self]
        exact hdisk
      · rw [hphase', update_self]
        exact hdone
    · refine hw.congr (fun _ _ => by rw [hdesc]) (hinfo x hx) ?_ ?_ (hbuf x r r₀ hx hr hr₀)
        (by rw [hlocked]) hc
      · rw [hphase', update_of_ne hx]
      · rw [hphase', update_of_ne hx]
        exact id
  · rw [hphase', hreq]
    exact hd.idle_update hphase hp x
  · rw [hreq]
    exact hd.bufs
  · rw [hret]
    exact fun s hs => hc s (hd.returned s hs)

theorem Inv.publish (hd : d.Inv) (hp : d.phase i0 = .draft)
    (hslot : d.availRing (d.availIdx.toNat % num) = i0) :
    Inv { d.setPhase i0 .queued with availIdx := d.availIdx + 1 } := by
  have hne : d.phase i0 ≠ .idle := by rw [hp]; decide
  have hqueue : Ring.queue num d.availRing d.lastAvail (d.availIdx + 1) = d.availQueue ++ [i0] := by
    rw [Ring.queue_succ (by decide) (hd.avail_lt (hd.lt hne) (by rw [hp]; decide)) (by decide),
      hslot]
    rfl
  refine hd.advance hne (by decide) rfl rfl rfl rfl rfl rfl (fun _ _ => rfl)
    (fun _ _ _ _ _ _ => rfl) (fun _ => id) rfl (fun r hr => ⟨rfl, ?_, nofun⟩) ?_ ?_ ?_
  · exact (hd.wired i0 r hr).busy.trans (by rw [hp]; rfl)
  · show Listing.Of (Ring.queue num d.availRing d.lastAvail (d.availIdx + 1)) _
    rw [hqueue]
    exact hd.avail.push (by rw [hp]; decide) fun x => update_eq_iff
  · exact hd.pending.congr fun x => update_keep_iff (by rw [hp]; decide) (by decide)
  · exact hd.used.congr fun x => or_congr (update_keep_iff (by rw [hp]; decide) (by decide))
      (update_keep_iff (by rw [hp]; decide) (by decide))

theorem Inv.phase_next (hd : d.Inv) (hne : d.lastAvail ≠ d.availIdx) : d.phase d.next = .queued :=
  (hd.avail.mem d.next).1 (by rw [availQueue_pop hne]; exact mem_cons_self ..)

theorem Inv.phase_entry (hd : d.Inv) (hne : d.usedSeen ≠ d.usedIdx) :
    d.phase d.entry = .posted ∨ d.phase d.entry = .clearing :=
  (hd.used.mem d.entry).1 (by rw [usedQueue_pop hne]; exact mem_cons_self ..)

theorem Inv.take (hd : d.Inv) : d.take.Inv := by
  unfold Disk.take
  split
  · exact hd
  rename_i hne
  have hp := hd.phase_next hne
  refine hd.advance (h := d.next) (p := .taken) (by rw [hp]; decide) (by decide) rfl rfl rfl rfl rfl
    rfl (fun _ _ => rfl) (fun _ _ _ _ _ _ => rfl) (fun _ => id) rfl
    (fun r hr => ⟨rfl, ?_, nofun⟩) ?_ ?_ ?_
  · exact (hd.wired d.next r hr).busy.trans (by rw [hp]; rfl)
  · have ha := hd.avail
    rw [availQueue_pop hne] at ha
    exact ha.pop fun x => update_ne_iff (by decide)
  · exact hd.pending.push (a := d.next) (by rw [hp]; decide) fun x => update_eq_iff
  · exact hd.used.congr fun x => or_congr (update_keep_iff (hp.trans_ne (by decide)) (by decide))
      (update_keep_iff (hp.trans_ne (by decide)) (by decide))

theorem Wired.writeStatus (hw : d.Wired h r) :
    d.writeStatus h = update d.info h { d.info h with status := 0 } := by
  unfold Disk.writeStatus
  rw [hw.first, hw.second.2, hw.third]

theorem Inv.used_lt (hd : d.Inv) (hp : d.phase h = .taken) : d.usedQueue.length < num := by
  refine hd.used.length_lt (fun x hx => hd.lt ?_) (a := h) ?_ (hd.lt (by rw [hp]; decide))
  · rcases hx with hx | hx <;> rw [hx] <;> decide
  · rw [hp]
    decide

theorem Inv.post (hd : d.Inv) (k : Nat) : (d.post k).Inv := by
  unfold Disk.post
  split
  · exact hd
  rename_i h hk
  have hp : d.phase h = .taken := (hd.pending.mem h).1 (mem_of_getElem? hk)
  have hqueue := Ring.queue_push (by decide) (hd.used_lt hp) (by decide) h
  obtain ⟨r, hr⟩ := hd.request (h := h) (by rw [hp]; decide)
  have hw := hd.wired h r hr
  refine hd.advance (h := h) (p := .posted) (by rw [hp]; decide) (by decide) rfl rfl rfl rfl rfl
    rfl (fun x hx => ?_) (fun _ _ _ _ _ _ => rfl) (fun _ => mem_append_left _) rfl
    (fun r' hr' => ⟨?_, ?_, fun _ => ⟨?_, ?_⟩⟩) ?_ ?_ ?_
  · simp [hw.writeStatus, update_of_ne hx]
  · simp [hw.writeStatus]
  · exact (hd.wired h r' hr').busy.trans (by rw [hp]; rfl)
  · simp [hw.writeStatus]
  · simp [hr']
  · exact hd.avail.congr fun x => update_keep_iff (by rw [hp]; decide) (by decide)
  · exact hd.pending.eraseIdx hk fun x => update_ne_iff (by decide)
  · show Listing.Of (Ring.queue num _ d.usedSeen (d.usedIdx + 1)) _
    rw [hqueue]
    refine hd.used.push (a := h) (by rw [hp]; decide) fun x => ?_
    rw [Disk.setPhase, update_eq_iff, update_keep_iff (by rw [hp]; decide) (by decide)]
    exact or_right_comm

theorem Inv.clear (hd : d.Inv) (hr : d.req d.entry = some r) (hp : d.phase d.entry = .posted) :
    Inv { d.setPhase d.entry .clearing with
      bufDisk := update d.bufDisk r.buf false } := by
  have hw := hd.wired _ r hr
  refine hd.advance (by rw [hp]; decide) (by decide) rfl rfl rfl rfl rfl rfl (fun _ _ => rfl)
    (fun x r₁ r₂ hx h₁ h₂ => ?_) (fun _ => id) rfl (fun r' hr' => ⟨rfl, ?_, fun _ => ?_⟩) ?_ ?_ ?_
  · refine update_of_ne (fun he => hx ?_) ..
    exact hd.bufs x d.entry r₁ r h₁ hr he
  · cases hr.symm.trans hr'
    exact update_self ..
  · cases hr.symm.trans hr'
    exact hw.done (by rw [hp]; rfl)
  · exact hd.avail.congr fun x => update_keep_iff (by rw [hp]; decide) (by decide)
  · exact hd.pending.congr fun x => update_keep_iff (by rw [hp]; decide) (by decide)
  · refine hd.used.congr fun x => ?_
    rw [Disk.setPhase]
    by_cases hx : x = d.entry
    · subst hx
      simp [hp]
    · simp [hx]

theorem Inv.advanceUsed (hd : d.Inv) (hne : d.usedSeen ≠ d.usedIdx)
    (hp : d.phase d.entry = .clearing) :
    Inv { d.setPhase d.entry .cleared with usedSeen := d.usedSeen + 1 } := by
  refine hd.advance (by rw [hp]; decide) (by decide) rfl rfl rfl rfl rfl rfl (fun _ _ => rfl)
    (fun _ _ _ _ _ _ => rfl) (fun _ => id) rfl (fun r hr => ⟨rfl, ?_, fun _ => ?_⟩) ?_ ?_ ?_
  · exact (hd.wired _ r hr).busy.trans (by rw [hp]; rfl)
  · exact (hd.wired _ r hr).done (by rw [hp]; rfl)
  · exact hd.avail.congr fun x => update_keep_iff (by rw [hp]; decide) (by decide)
  · exact hd.pending.congr fun x => update_keep_iff (by rw [hp]; decide) (by decide)
  · have hu := hd.used
    rw [usedQueue_pop hne] at hu
    refine hu.pop fun x => ?_
    rw [Disk.setPhase, update_ne_iff (by decide), update_ne_iff (by decide), ← or_and_right]

theorem Inv.setLocked (hd : d.Inv) {b : Nat} (hnone : ∀ h r, d.req h = some r → r.buf ≠ b)
    (o : Option Nat) : Inv { d with locked := update d.locked b o } := by
  have ho := hd.owned
  refine ⟨⟨ho.unique, ho.apart, ho.nodup, ho.used⟩, fun h r hr => ?_, hd.idle, hd.bufs, hd.avail,
    hd.pending, hd.used, hd.returned⟩
  exact (hd.wired h r hr).congr (fun _ _ => rfl) rfl rfl id rfl
    (update_of_ne (hnone h r hr) ..) fun _ => id

end Disk

end Xv6.Virtio
