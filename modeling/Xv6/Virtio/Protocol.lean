/-
The disk driver under every interleaving of `virtio_disk_rw`, `virtio_disk_intr` and the
device: no descriptor is in two requests, no entry of the avail ring is overwritten before the
device has taken it, and a caller returns only after its own request is complete.
-/
import Xv6.Virtio.Requests

namespace Xv6.Virtio

open Function List

variable {k write : Bool} {e : Event} {l : List Nat} {ℓ : Loc} {b i i0 serial : Nat} {s : State}

/-- The descriptors are linked in this order, and the last one has no successor. -/
def Linked (desc : Nat → Desc) : List Nat → Prop
  | [] => False
  | [i] => (desc i).flags &&& vringDescFNext = 0
  | i :: j :: l => (desc i).flags &&& vringDescFNext ≠ 0 ∧ (desc i).next = j ∧ Linked desc (j :: l)

namespace Disk

variable (d : Disk)

/-- Caller `t` has buffer `b`, and there is no request for it. -/
def Mine (t b : Nat) : Prop := d.locked b = some t ∧ ∀ h r, d.req h = some r → r.buf ≠ b

/-- The request of caller `t` for buffer `b` starts at `i0`. -/
def Waits (t b i0 serial : Nat) : Prop :=
  ∃ r, d.req i0 = some r ∧ r.owner = t ∧ r.buf = b ∧ r.serial = serial

/-- Only requests in the list are being submitted or cleared. -/
def Quiet (l : List Nat) : Prop := ∀ h, h ∉ l → d.phase h ≠ .draft ∧ d.phase h ≠ .clearing

def Settled : Prop := d.held = [] ∧ d.Quiet []

end Disk

def outline : Monitor.Outline Disk Loc where
  always := Disk.Inv
  free := Disk.Settled
  out _ ℓ _ :=
    match ℓ with
    | .idle => True
    | _ => False
  wait t ℓ d :=
    match ℓ with
    | .rw b _ => d.Mine t b
    | .waitDisk b i0 serial => d.Waits t b i0 serial
    | .intr => True
    | _ => False
  hold t _ ℓ d :=
    match ℓ with
    | .rw b _ => d.Mine t b ∧ d.Settled
    | .undo b _ idx => d.Mine t b ∧ d.held = idx ∧ d.Quiet []
    | .publish b i0 serial => d.Waits t b i0 serial ∧ d.held = [] ∧ d.Quiet [i0] ∧
        d.phase i0 = .draft ∧ d.availRing (d.availIdx.toNat % num) = i0
    | .waitDisk b i0 serial => d.Waits t b i0 serial ∧ d.Settled
    | .freeChain b i serial => d.Mine t b ∧ d.Quiet [] ∧ serial ∈ d.completed ∧
        ∃ l, d.held = i :: l ∧ Linked d.desc (i :: l)
    | .rwDone b serial => d.Mine t b ∧ d.Settled ∧ serial ∈ d.completed
    | .intr => d.Settled
    | .intrNext id => d.held = [] ∧ d.Quiet [id] ∧ d.phase id = .clearing ∧
        d.usedSeen ≠ d.usedIdx ∧ d.entry = id
    | .idle => False

/-! ## What the other callers rely on -/

section

variable {d d' : Disk} {t : Nat}

theorem spares_of (hlocked : ∀ b q, q ≠ t → d.locked b = some q → d'.locked b = some q)
    (hkeep : ∀ h r, d.req h = some r → r.owner ≠ t → d'.req h = some r)
    (hnew : ∀ h r, d'.req h = some r → d.req h = some r ∨ d.locked r.buf = some t) :
    outline.Spares t d d' := by
  intro q ℓ hq
  refine ⟨id, fun hw => ?_⟩
  cases ℓ with
  | rw b write =>
    obtain ⟨hb, hnone⟩ := hw
    refine ⟨hlocked b q hq hb, fun h r hr he => ?_⟩
    rcases hnew h r hr with hold | hold
    · exact hnone h r hold he
    · rw [he, hb, Option.some.injEq] at hold
      exact hq hold
  | waitDisk b i0 serial =>
    obtain ⟨r, hr, ho, hrest⟩ := hw
    exact ⟨r, hkeep i0 r hr (ho ▸ hq), ho, hrest⟩
  | _ => exact hw

theorem spares_of_eq (hlocked : d'.locked = d.locked) (hreq : d'.req = d.req) :
    outline.Spares t d d' :=
  spares_of (fun _ _ _ hb => hlocked ▸ hb) (fun _ _ hr _ => hreq ▸ hr)
    fun _ _ hr => .inl (hreq ▸ hr)

theorem Linked.congr {desc desc' : Nat → Desc} (h : Linked desc l)
    (he : ∀ i ∈ l, desc' i = desc i) : Linked desc' l := by
  induction l with
  | nil => exact h
  | cons i l ih =>
    have hi := he i (mem_cons_self ..)
    cases l with
    | nil =>
      unfold Linked at h ⊢
      rwa [hi]
    | cons j l =>
      unfold Linked at h ⊢
      rw [hi]
      exact ⟨h.1, h.2.1, ih h.2.2 fun x hx => he x (mem_cons_of_mem _ hx)⟩

theorem Disk.Wired.linked {h : Nat} {r : Req} (hw : d.Wired h r) : Linked d.desc (r.chain h) := by
  unfold Req.chain Linked Linked Linked
  rw [hw.first, hw.third]
  exact ⟨by dsimp only; decide, rfl, hw.second.1, hw.second.2, by dsimp only; decide⟩

/-! ## The device -/

/-- What the device may change. -/
structure Device (d d' : Disk) : Prop where
  req : d'.req = d.req
  locked : d'.locked = d.locked
  held : d'.held = d.held
  desc : d'.desc = d.desc
  slot : d'.availRing (d'.availIdx.toNat % num) = d.availRing (d.availIdx.toNat % num)
  draft : ∀ h, d'.phase h = .draft ↔ d.phase h = .draft
  clearing : ∀ h, d'.phase h = .clearing ↔ d.phase h = .clearing
  entry : d.usedSeen ≠ d.usedIdx → d'.usedSeen ≠ d'.usedIdx ∧ d'.entry = d.entry
  completed : ∀ s ∈ d.completed, s ∈ d'.completed

theorem Device.refl (d : Disk) : Device d d :=
  ⟨rfl, rfl, rfl, rfl, rfl, fun _ => Iff.rfl, fun _ => Iff.rfl, fun h => ⟨h, rfl⟩, fun _ => id⟩

theorem Disk.Inv.device_take (hd : d.Inv) : Device d d.take := by
  unfold Disk.take
  split
  · exact .refl d
  rename_i hne
  have hp := hd.phase_next hne
  exact ⟨rfl, rfl, rfl, rfl, rfl,
    fun x => Disk.update_keep_iff (hp.trans_ne (by decide)) (by decide),
    fun x => Disk.update_keep_iff (hp.trans_ne (by decide)) (by decide), fun h => ⟨h, rfl⟩,
    fun _ => id⟩

theorem Disk.Inv.device_post (hd : d.Inv) (k : Nat) : Device d (d.post k) := by
  have hpost := hd.post k
  unfold Disk.post at hpost ⊢
  split at hpost
  · exact .refl d
  rename_i h hk
  have hp : d.phase h = .taken := (hd.pending.mem h).1 (mem_of_getElem? hk)
  refine ⟨rfl, rfl, rfl, rfl, rfl, fun x => Disk.update_keep_iff (hp.trans_ne (by decide)) (by decide),
    fun x => Disk.update_keep_iff (hp.trans_ne (by decide)) (by decide), fun hne => ?_,
    fun _ => mem_append_left _⟩
  have hqueue : Ring.queue num (update d.usedRing (d.usedIdx.toNat % num) h) d.usedSeen
      (d.usedIdx + 1) = d.usedQueue ++ [h] :=
    Ring.queue_push (by decide) (hd.used_lt hp) (by decide) h
  have hne' : d.usedSeen ≠ d.usedIdx + 1 := by
    intro he
    rw [← he, Ring.queue_self] at hqueue
    simp at hqueue
  refine ⟨hne', ?_⟩
  rw [Ring.queue_pop (by decide) hne', Disk.usedQueue_pop hne, cons_append,
    List.cons.injEq] at hqueue
  exact hqueue.1

section

variable (h : Device d d')

include h

theorem Device.quiet (hq : d.Quiet l) : d'.Quiet l := by
  intro x hx
  rw [Ne, Ne, h.draft, h.clearing]
  exact hq x hx

theorem Device.settled (hs : d.Settled) : d'.Settled :=
  ⟨h.held.trans hs.1, h.quiet hs.2⟩

theorem Device.mine (hm : d.Mine t b) : d'.Mine t b := by
  unfold Disk.Mine
  rw [h.locked, h.req]
  exact hm

theorem Device.waits (hw : d.Waits t b i0 serial) : d'.Waits t b i0 serial := by
  unfold Disk.Waits
  rw [h.req]
  exact hw

theorem Device.asserts {x : Monitor.Ctl Loc Chan} (ha : outline.Asserts t k d x) :
    outline.Asserts t k d' x := by
  have hwait : ∀ ℓ, outline.wait t ℓ d → outline.wait t ℓ d' := by
    intro ℓ hw
    cases ℓ with
    | rw => exact h.mine hw
    | waitDisk => exact h.waits hw
    | _ => exact hw
  have hhold : ∀ ℓ, outline.hold t k ℓ d → outline.hold t k ℓ d' := by
    intro ℓ hh
    cases ℓ with
    | rw => exact ⟨h.mine hh.1, h.settled hh.2⟩
    | undo => exact ⟨h.mine hh.1, h.held.trans hh.2.1, h.quiet hh.2.2⟩
    | publish b i0 =>
      obtain ⟨hw, hheld, hq, hp, hslot⟩ := hh
      exact ⟨h.waits hw, h.held.trans hheld, h.quiet hq, (h.draft i0).2 hp, h.slot.trans hslot⟩
    | waitDisk => exact ⟨h.waits hh.1, h.settled hh.2⟩
    | freeChain b i serial =>
      obtain ⟨hm, hq, hc, l, hl, hlink⟩ := hh
      exact ⟨h.mine hm, h.quiet hq, h.completed _ hc, l, h.held.trans hl, h.desc ▸ hlink⟩
    | rwDone b serial => exact ⟨h.mine hh.1, h.settled hh.2.1, h.completed _ hh.2.2⟩
    | intr => exact h.settled hh
    | intrNext id =>
      obtain ⟨hheld, hq, hp, hne, he⟩ := hh
      exact ⟨h.held.trans hheld, h.quiet hq, (h.clearing id).2 hp, (h.entry hne).1,
        (h.entry hne).2.trans he⟩
    | idle => exact hh
  cases x with
  | out ℓ => exact ha
  | spin ℓ | drowsy c ℓ | sleeping c ℓ => exact hwait ℓ ha
  | inside ℓ | waking c q ℓ => exact hhold ℓ ha

end

/-! ## The steps -/

theorem allocDesc_frame (h : d.allocDesc = some (i, d')) :
    d'.locked = d.locked ∧ d'.req = d.req ∧ d'.phase = d.phase ∧ d'.held = d.held ++ [i] := by
  obtain ⟨-, -, rfl⟩ := Disk.allocDesc_eq_some h
  exact ⟨rfl, rfl, rfl, rfl⟩

theorem quiet_of_phase (h : d'.phase = d.phase) (hq : d.Quiet l) : d'.Quiet l := by
  unfold Disk.Quiet
  rw [h]
  exact hq

theorem mine_of_eq (hlocked : d'.locked = d.locked) (hreq : d'.req = d.req) (hm : d.Mine t b) :
    d'.Mine t b := by
  unfold Disk.Mine
  rw [hlocked, hreq]
  exact hm

/-- The outline after a step of the holder of the lock. -/
def Follows (t : Nat) (k : Bool) (d : Disk) (a : Act) : Prop :=
  outline.always a.data ∧ outline.After t k a ∧ outline.Spares t d a.data

theorem follows_undo {idx : List Nat} (hd : d'.Inv) (hlocked : d'.locked = d.locked)
    (hreq : d'.req = d.req) (hphase : d'.phase = d.phase) (hm : d.Mine t b) (hq : d.Quiet [])
    (hheld : d'.held = idx) : Follows t k d (.goto d' (.undo b write idx)) :=
  ⟨hd, ⟨mine_of_eq hlocked hreq hm, hheld, quiet_of_phase hphase hq⟩, spares_of_eq hlocked hreq⟩

section

variable (hd : d.Inv)

include hd

theorem follows_rw (hh : outline.hold t k (.rw b write) d) :
    Follows t k d (virtioDiskRw d t b write) := by
  obtain ⟨hm, hheld, hq⟩ := hh
  unfold virtioDiskRw
  split
  · exact ⟨hd, ⟨⟨hheld, hq⟩, hm⟩, spares_of_eq rfl rfl⟩
  rename_i i0 d1 h0
  obtain ⟨hl1, hr1, hp1, hheld1⟩ := allocDesc_frame h0
  have hd1 := hd.alloc h0
  rw [hheld, nil_append] at hheld1
  split
  · exact follows_undo hd1 hl1 hr1 hp1 hm hq hheld1
  rename_i i1 d2 h1
  obtain ⟨hl2, hr2, hp2, hheld2⟩ := allocDesc_frame h1
  have hd2 := hd1.alloc h1
  rw [hheld1] at hheld2
  split
  · exact follows_undo hd2 (hl2.trans hl1) (hr2.trans hr1) (hp2.trans hp1) hm hq hheld2
  rename_i i2 d3 h2
  obtain ⟨hl3, hr3, hp3, hheld3⟩ := allocDesc_frame h2
  have hd3 := hd2.alloc h2
  rw [hheld2] at hheld3
  have hlocked : d3.locked = d.locked := hl3.trans (hl2.trans hl1)
  have hreq : d3.req = d.req := hr3.trans (hr2.trans hr1)
  have hq3 : d3.Quiet [] := quiet_of_phase (hp3.trans (hp2.trans hp1)) hq
  have hm3 : d3.Mine t b := mine_of_eq hlocked hreq hm
  have hnone : d3.req i0 = none := by
    cases hr : d3.req i0 with
    | none => rfl
    | some r => exact absurd (Disk.has_self hr) (hd3.owned.apart i0 i0 (by rw [hheld3]; simp))
  refine ⟨hd3.format write hheld3 hm3.1 hm3.2, ⟨⟨⟨t, b, i1, i2, d3.serials⟩, ?_, rfl, rfl, rfl⟩,
    rfl, fun x hx => ?_, ?_, ?_⟩, ?_⟩
  · exact update_self ..
  · have hne : x ≠ i0 := fun he => hx (mem_singleton.2 he)
    simp only [Disk.format, update_of_ne hne]
    exact hq3 x not_mem_nil
  · exact update_self ..
  · exact update_self ..
  · refine spares_of (fun _ _ _ hb => ?_) (fun h r hr _ => ?_) fun h r hr => ?_
    · exact (congrFun hlocked _).trans hb
    · have hne : h ≠ i0 := by
        rintro rfl
        rw [← hreq, hnone] at hr
        cases hr
      simp only [Monitor.Act.data, Disk.format, update_of_ne hne]
      rw [hreq]
      exact hr
    · by_cases hne : h = i0
      · subst hne
        simp only [Monitor.Act.data, Disk.format, update_self, Option.some.injEq] at hr
        subst hr
        exact .inr hm.1
      · simp only [Monitor.Act.data, Disk.format, update_of_ne hne] at hr
        exact .inl (hreq ▸ hr)

theorem follows_undoStep {idx : List Nat} (hh : outline.hold t k (.undo b write (i :: idx)) d) :
    ∃ d', d.freeDesc i = .ok d' ∧ Follows t k d (.wakeup .free d' (.undo b write idx)) := by
  obtain ⟨hm, hheld, hq⟩ := hh
  have hi : i ∈ d.held := by simp [hheld]
  have hfree := Disk.freeDesc_of_held hd.owned hi
  refine ⟨_, hfree, hd.freeDesc hi hfree, ⟨hm, ?_, hq⟩, spares_of_eq rfl rfl⟩
  simp [hheld]

theorem follows_publish (hh : outline.hold t k (.publish b i0 serial) d) :
    Follows t k d (.goto { d.setPhase i0 .queued with availIdx := d.availIdx + 1 }
      (.waitDisk b i0 serial)) := by
  obtain ⟨hw, hheld, hq, hp, hslot⟩ := hh
  refine ⟨hd.publish hp hslot, ⟨hw, hheld, fun x _ => ?_⟩, spares_of_eq rfl rfl⟩
  by_cases hx : x = i0
  · subst hx
    simp [Disk.setPhase]
  · simp only [Disk.setPhase, update_of_ne hx]
    exact hq x (by simpa using hx)

theorem follows_retire (hh : outline.hold t k (.waitDisk b i0 serial) d)
    (hbuf : d.bufDisk b = false) :
    Follows t k d (.goto (d.retire i0) (.freeChain b i0 serial)) := by
  obtain ⟨⟨r, hr, rfl, rfl, rfl⟩, hheld, hq⟩ := hh
  have hw := hd.wired i0 r hr
  have hseen : (d.phase i0).seen = true := by
    have := hw.busy.symm.trans hbuf
    simpa using this
  have hp : d.phase i0 = .cleared := by
    have hne := (hq i0 not_mem_nil).2
    cases hx : d.phase i0 with
    | cleared => rfl
    | clearing => exact absurd hx hne
    | _ =>
      rw [hx] at hseen
      cases hseen
  have hheld' : (d.retire i0).held = r.chain i0 := by
    simp only [Disk.retire, hr]
    rfl
  have hold : ∀ h r', (d.retire i0).req h = some r' → h ≠ i0 ∧ d.req h = some r' := by
    intro h r' hr'
    by_cases hne : h = i0
    · subst hne
      simp [Disk.retire] at hr'
    · simp only [Disk.retire, update_of_ne hne] at hr'
      exact ⟨hne, hr'⟩
  refine ⟨hd.retire hr hp hheld, ⟨⟨hw.locked, fun h r' hr' he => ?_⟩, fun x _ => ?_, ?_,
    [r.i1, r.i2], hheld', hw.linked⟩, ?_⟩
  · obtain ⟨hne, hr'⟩ := hold h r' hr'
    exact hne (hd.bufs h i0 r' r hr' hr he)
  · by_cases hx : x = i0
    · subst hx
      simp [Disk.retire]
    · simp only [Disk.retire, update_of_ne hx]
      exact hq x not_mem_nil
  · exact (hw.done (by rw [hp]; rfl)).2
  · refine spares_of (fun _ _ _ hb => hb) (fun h r' hr' ho => ?_) fun h r' hr' => .inl (hold h r' hr').2
    have hne : h ≠ i0 := by
      rintro rfl
      cases hr.symm.trans hr'
      exact ho rfl
    simp only [Monitor.Act.data, Disk.retire, update_of_ne hne]
    exact hr'

theorem follows_freeChain (hh : outline.hold t k (.freeChain b i serial) d) :
    ∃ d', d.freeDesc i = .ok d' ∧ Follows t k d (.wakeup .free d'
      (if (d.desc i).flags &&& vringDescFNext ≠ 0 then .freeChain b (d.desc i).next serial
        else .rwDone b serial)) := by
  obtain ⟨hm, hq, hc, l, hheld, hlink⟩ := hh
  have hi : i ∈ d.held := by simp [hheld]
  have hfree := Disk.freeDesc_of_held hd.owned hi
  refine ⟨_, hfree, hd.freeDesc hi hfree, ?_, spares_of_eq rfl rfl⟩
  have hrest : d.held.erase i = l := by simp [hheld]
  have hnd : i ∉ l := (nodup_cons.1 (hheld ▸ hd.owned.nodup)).1
  cases l with
  | nil =>
    have hflag : (d.desc i).flags &&& vringDescFNext = 0 := hlink
    rw [hflag]
    exact ⟨hm, ⟨hrest, hq⟩, hc⟩
  | cons j l =>
    obtain ⟨hflag, hnext, hlink⟩ := hlink
    rw [if_pos hflag]
    refine ⟨hm, hq, hc, l, ?_, ?_⟩
    · rw [hnext]
      exact hrest
    · rw [hnext]
      refine hlink.congr fun x hx => update_of_ne ?_ ..
      rintro rfl
      exact hnd hx

theorem follows_intr (hh : d.Settled) : ∃ a, virtioDiskIntr d = .ok a ∧ Follows t k d a := by
  obtain ⟨hheld, hq⟩ := hh
  unfold virtioDiskIntr
  split
  · exact ⟨_, rfl, hd, ⟨⟨hheld, hq⟩, trivial⟩, spares_of_eq rfl rfl⟩
  rename_i hne
  have hp : d.phase d.entry = .posted :=
    (hd.phase_entry hne).resolve_right (hq d.entry not_mem_nil).2
  obtain ⟨r, hr⟩ := hd.request (h := d.entry) (by rw [hp]; decide)
  have hw := hd.wired _ r hr
  have hstatus : (d.info (d.usedRing (d.usedSeen.toNat % num))).status = 0 :=
    (hw.done (by rw [hp]; rfl)).1
  have hb : (d.info (d.usedRing (d.usedSeen.toNat % num))).b = some r.buf := hw.info
  dsimp only
  rw [hstatus, hb]
  refine ⟨_, rfl, hd.clear hr hp, ⟨hheld, fun x hx => ?_, ?_, hne, rfl⟩, spares_of_eq rfl rfl⟩
  · have hx' : x ≠ d.usedRing (d.usedSeen.toNat % num) := by simpa using hx
    simp only [Disk.setPhase, update_of_ne hx']
    exact hq x not_mem_nil
  · exact update_self ..

theorem follows_intrNext {id : Nat} (hh : outline.hold t k (.intrNext id) d) :
    Follows t k d (.goto { d.setPhase id .cleared with usedSeen := d.usedSeen + 1 } .intr) := by
  obtain ⟨hheld, hq, hp, hne, rfl⟩ := hh
  refine ⟨hd.advanceUsed hne hp, ⟨hheld, fun x _ => ?_⟩, spares_of_eq rfl rfl⟩
  by_cases hx : x = d.entry
  · subst hx
    simp [Disk.setPhase]
  · simp only [Disk.setPhase, update_of_ne hx]
    exact hq x (by simpa using hx)

theorem follows_rwDone (hh : outline.hold t k (.rwDone b serial) d) :
    Follows t k d (.release { d with
      locked := update d.locked b none, returned := d.returned ++ [serial] } .idle) := by
  obtain ⟨hm, hs, hc⟩ := hh
  have hd' := hd.setLocked hm.2 none
  have hinv : Disk.Inv { d with
      locked := update d.locked b none, returned := d.returned ++ [serial] } := by
    refine ⟨⟨hd'.owned.unique, hd'.owned.apart, hd'.owned.nodup, hd'.owned.used⟩,
      fun h r hr => (hd'.wired h r hr).congr (fun _ _ => rfl) rfl rfl id rfl rfl fun _ => id,
      hd'.idle, hd'.bufs, hd'.avail, hd'.pending, hd'.used, fun x hx => ?_⟩
    rcases mem_append.1 hx with hx | hx
    · exact hd.returned x hx
    · rw [mem_singleton.1 hx]
      exact hc
  refine ⟨hinv, ⟨hs, trivial⟩, spares_of (fun b' q hq' hb => ?_) (fun _ _ hr _ => hr)
    fun _ _ hr => .inl hr⟩
  have hne : b' ≠ b := by
    rintro rfl
    rw [hm.1, Option.some.injEq] at hb
    exact hq' hb.symm
  exact (update_of_ne hne ..).trans hb

theorem outline_inside (hh : outline.hold t k ℓ d) :
    ∃ a, inside t ℓ d = .ok a ∧ Follows t k d a := by
  cases ℓ with
  | idle => exact hh.elim
  | rw b write => exact ⟨_, rfl, follows_rw hd hh⟩
  | undo b write idx =>
    cases idx with
    | nil =>
      obtain ⟨hm, hheld, hq⟩ := hh
      exact ⟨_, rfl, hd, ⟨⟨hheld, hq⟩, hm⟩, spares_of_eq rfl rfl⟩
    | cons i idx =>
      obtain ⟨d', hfree, hfollows⟩ := follows_undoStep hd hh
      exact ⟨_, by simp only [inside, hfree]; rfl, hfollows⟩
  | publish b i0 serial => exact ⟨_, rfl, follows_publish hd hh⟩
  | waitDisk b i0 serial =>
    simp only [inside]
    split
    · exact ⟨_, rfl, hd, ⟨hh.2, hh.1⟩, spares_of_eq rfl rfl⟩
    · rename_i hbuf
      exact ⟨_, rfl, follows_retire hd hh (by simpa using hbuf)⟩
  | freeChain b i serial =>
    obtain ⟨d', hfree, hfollows⟩ := follows_freeChain hd hh
    exact ⟨_, by simp only [inside, hfree]; rfl, hfollows⟩
  | rwDone b serial => exact ⟨_, rfl, follows_rwDone hd hh⟩
  | intr => exact follows_intr hd hh
  | intrNext id => exact ⟨_, rfl, follows_intrNext hd hh⟩

theorem outline_outside {inp : Input} (ho : outline.out t ℓ d) :
    outline.always ((outside t ℓ d inp).data d) ∧ outline.Moved t ℓ d (outside t ℓ d inp) ∧
      outline.Spares t d ((outside t ℓ d inp).data d) ∧
      (d.Settled → outline.free ((outside t ℓ d inp).data d)) ∧
      ∀ q k ℓ', q ≠ t → outline.hold q k ℓ' d → outline.hold q k ℓ' ((outside t ℓ d inp).data d) := by
  cases ℓ with
  | idle =>
    cases inp with
    | rw b write =>
      simp only [outside]
      split
      · rename_i hcall
        have hnone : ∀ h r, d.req h = some r → r.buf ≠ b := fun h r hr he => by
          have := (hd.wired h r hr).locked
          rw [he, hcall.2] at this
          cases this
        have hmine : ∀ q b', d.Mine q b' → b' ≠ b := by
          rintro q b' hm rfl
          cases hcall.2.symm.trans hm.1
        have hkeep : ∀ q b', d.Mine q b' →
            Disk.Mine { d with locked := update d.locked b (some t) } q b' :=
          fun q b' hm => ⟨(update_of_ne (hmine q b' hm) ..).trans hm.1, hm.2⟩
        refine ⟨hd.setLocked hnone _, ⟨update_self .., hnone⟩,
          spares_of (fun b' q _ hb => ?_) (fun _ _ hr _ => hr) fun _ _ hr => .inl hr,
          id, fun q k ℓ' _ hh => ?_⟩
        · have hne : b' ≠ b := by
            rintro rfl
            cases hcall.2.symm.trans hb
          exact (update_of_ne hne ..).trans hb
        · cases ℓ' with
          | rw => exact ⟨hkeep q _ hh.1, hh.2⟩
          | undo => exact ⟨hkeep q _ hh.1, hh.2⟩
          | freeChain => exact ⟨hkeep q _ hh.1, hh.2⟩
          | rwDone => exact ⟨hkeep q _ hh.1, hh.2⟩
          | _ => exact hh
      · exact ⟨hd, ho, spares_of_eq rfl rfl, id, fun _ _ _ _ => id⟩
    | intr =>
      simp only [outside]
      split
      · exact ⟨hd, ho, spares_of_eq rfl rfl, id, fun _ _ _ _ => id⟩
      · exact ⟨hd, trivial, spares_of_eq rfl rfl, id, fun _ _ _ _ => id⟩
    | take | post => exact ⟨hd, ho, spares_of_eq rfl rfl, id, fun _ _ _ _ => id⟩
  | _ => exact ho.elim

theorem outline_env {inp : Input} : (client.env d inp).Inv ∧ Device d (client.env d inp) := by
  cases inp with
  | take => exact ⟨hd.take, hd.device_take⟩
  | post k => exact ⟨hd.post k, hd.device_post k⟩
  | rw | intr => exact ⟨hd, .refl d⟩

end

theorem outline_valid : outline.Valid client := by
  refine ⟨fun ha hf hw => ?_, fun ha hh hact => ?_, fun ha ho hm => ?_, fun ha => ?_⟩
  · rename_i t k ℓ d
    cases ℓ with
    | rw => exact ⟨hw, hf⟩
    | waitDisk => exact ⟨hw, hf⟩
    | intr => exact hf
    | _ => exact hw.elim
  · obtain ⟨a', ha', hfollows⟩ := outline_inside ha hh
    cases ha'.symm.trans hact
    exact hfollows
  · cases hm
    exact outline_outside ha ho
  · obtain ⟨hinv, hdev⟩ := outline_env ha
    exact ⟨hinv, hdev.settled, fun _ _ _ => hdev.asserts⟩

end

theorem outline_step {s' : State} (h : outline.Holds s) (hs : step s e = .ok s') :
    outline.Holds s' :=
  outline_valid.step (Monitor.step_eq_ok hs) h fun _ _ _ _ hh => hh

theorem step_ne_error {x : Panic} (h : outline.Holds s) : step s e ≠ .error x := by
  intro herr
  obtain ⟨t, inp, ℓ, -, ⟨hc, ha⟩ | ⟨hc, hm⟩⟩ := Monitor.step_eq_error herr
  · obtain ⟨a, hok, -⟩ := outline_inside h.always (h.thread_of hc)
    cases hok.symm.trans ha
  · cases hm

theorem Start.holds (h : Start s) : outline.Holds s := by
  have hhas : ∀ x i, ¬ s.data.Has x i := by
    rintro x i ⟨r, hr, -⟩
    cases (h.req x).symm.trans hr
  have hlist : ∀ {l : List Nat} {P : Nat → Prop}, l = [] → (∀ x, ¬ P x) → Listing.Of l P := by
    rintro l P rfl hP
    exact ⟨nodup_nil, fun x => by simp [hP]⟩
  have hinv : s.data.Inv := by
    refine ⟨⟨fun x _ i hx => absurd hx (hhas x i), fun x i hi => ?_, ?_, fun i => ?_⟩,
      fun x r hr => ?_, fun x => ?_, fun x _ r _ hr => ?_, hlist ?_ fun x => ?_,
      hlist h.pending fun x => ?_, hlist ?_ fun x => ?_, ?_⟩
    · rw [h.held] at hi
      cases hi
    · rw [h.held]
      exact nodup_nil
    · simp [h.free, h.held, hhas]
    · cases (h.req x).symm.trans hr
    · simp [h.phase, h.req]
    · cases (h.req x).symm.trans hr
    · rw [Disk.availQueue, h.avail, Ring.queue_self]
    · simp [h.phase]
    · simp [h.phase]
    · rw [Disk.usedQueue, h.used, Ring.queue_self]
    · simp [h.phase]
    · simp [h.returned]
  refine ⟨hinv, fun _ => ⟨h.held, fun x _ => by simp [h.phase]⟩, fun t => ?_, fun t => ?_⟩
  · simp [h.ctl, h.holder, Monitor.Ctl.holds]
  · rw [h.ctl]
    trivial

/-! ## Which steps write the avail ring and `b->disk` -/

section

variable {d d' : Disk} {t : Nat}

theorem freeDesc_frame (h : d.freeDesc i = .ok d') :
    d'.availRing = d.availRing ∧ d'.bufDisk = d.bufDisk := by
  unfold Disk.freeDesc at h
  split at h
  · cases h
  · split at h
    · cases h
    · cases h
      exact ⟨rfl, rfl⟩

theorem virtioDiskRw_frame (hd : d.Inv) (b : Nat) (write : Bool) :
    (virtioDiskRw d t b write).data.availRing = d.availRing ∧
      (virtioDiskRw d t b write).data.bufDisk = d.bufDisk ∨
    d.availQueue.length < num ∧ ∃ i0, (virtioDiskRw d t b write).data.availRing =
        update d.availRing (d.availIdx.toNat % num) i0 ∧
      (virtioDiskRw d t b write).data.bufDisk = update d.bufDisk b true := by
  unfold virtioDiskRw
  split
  · exact .inl ⟨rfl, rfl⟩
  rename_i i0 d1 h0
  obtain ⟨hlt, hfree, rfl⟩ := Disk.allocDesc_eq_some h0
  split
  · exact .inl ⟨rfl, rfl⟩
  rename_i i1 d2 h1
  obtain ⟨-, -, rfl⟩ := Disk.allocDesc_eq_some h1
  split
  · exact .inl ⟨rfl, rfl⟩
  rename_i i2 d3 h2
  obtain ⟨-, -, rfl⟩ := Disk.allocDesc_eq_some h2
  have hp : d.phase i0 = .idle := by
    rw [hd.idle]
    cases hr : d.req i0 with
    | none => rfl
    | some r =>
      have := hd.owned.not_free (Disk.has_self hr)
      rw [hfree] at this
      cases this
  exact .inr ⟨hd.avail_lt hlt (by rw [hp]; decide), i0, rfl, rfl⟩

theorem virtioDiskIntr_frame {a : Act} (hd : d.Inv) (hs : d.Settled)
    (ha : virtioDiskIntr d = .ok a) :
    a.data.availRing = d.availRing ∧
      (d.usedSeen = d.usedIdx ∧ a.data.bufDisk = d.bufDisk ∨ d.usedSeen ≠ d.usedIdx ∧
        ∃ r, d.req d.entry = some r ∧ d.bufDisk r.buf = true ∧
          a.data.bufDisk = update d.bufDisk r.buf false) := by
  unfold virtioDiskIntr at ha
  split at ha
  · cases ha
    exact ⟨rfl, .inl ⟨‹_›, rfl⟩⟩
  rename_i hne
  have hp : d.phase d.entry = .posted :=
    (hd.phase_entry hne).resolve_right (hs.2 d.entry not_mem_nil).2
  obtain ⟨r, hr⟩ := hd.request (h := d.entry) (by rw [hp]; decide)
  have hw := hd.wired _ r hr
  dsimp only at ha
  split at ha
  · cases ha
  split at ha
  · cases ha
  · rename_i b hb
    cases ha
    cases hw.info.symm.trans hb
    exact ⟨rfl, .inr ⟨hne, r, hr, hw.busy.trans (by rw [hp]; rfl), rfl⟩⟩

theorem inside_frame {a : Act} (hd : d.Inv) (hh : outline.hold t k ℓ d)
    (ha : inside t ℓ d = .ok a) : (a.data.availRing = d.availRing ∨ d.availQueue.length < num ∧
      ∃ i0, a.data.availRing = update d.availRing (d.availIdx.toNat % num) i0) ∧
    ∀ b, d.bufDisk b = true → a.data.bufDisk b = false → ℓ = .intr := by
  have hsame : ∀ d' : Disk, d'.availRing = d.availRing → d'.bufDisk = d.bufDisk →
      (d'.availRing = d.availRing ∨ d.availQueue.length < num ∧
        ∃ i0, d'.availRing = update d.availRing (d.availIdx.toNat % num) i0) ∧
      ∀ b, d.bufDisk b = true → d'.bufDisk b = false → ℓ = .intr := by
    intro d' hring hbuf
    refine ⟨.inl hring, fun b hb hb' => ?_⟩
    rw [hbuf, hb] at hb'
    cases hb'
  cases ℓ with
  | idle => exact hh.elim
  | rw b write =>
    cases ha
    rcases virtioDiskRw_frame (t := t) hd b write with ⟨hring, hbuf⟩ | ⟨hlen, i0, hring, hbuf⟩
    · exact hsame _ hring hbuf
    · refine ⟨.inr ⟨hlen, i0, hring⟩, fun b' hb' hb'' => ?_⟩
      rw [hbuf] at hb''
      by_cases hne : b' = b
      · rw [hne, update_self] at hb''
        cases hb''
      · rw [update_of_ne hne, hb'] at hb''
        cases hb''
  | undo b write idx =>
    cases idx with
    | nil =>
      cases ha
      exact hsame _ rfl rfl
    | cons i idx =>
      obtain ⟨d', hfree, hret⟩ := Run.bind_eq_ok.1 ha
      cases hret
      exact hsame _ (freeDesc_frame hfree).1 (freeDesc_frame hfree).2
  | freeChain b i serial =>
    obtain ⟨d', hfree, hret⟩ := Run.bind_eq_ok.1 ha
    cases hret
    exact hsame _ (freeDesc_frame hfree).1 (freeDesc_frame hfree).2
  | waitDisk b i0 serial =>
    simp only [inside] at ha
    split at ha
    · cases ha
      exact hsame _ rfl rfl
    · cases ha
      exact hsame _ rfl rfl
  | intr => exact ⟨.inl (virtioDiskIntr_frame hd hh ha).1, fun _ _ _ => rfl⟩
  | publish | rwDone | intrNext =>
    cases ha
    exact hsame _ rfl rfl

theorem outside_frame (ℓ : Loc) (inp : Input) :
    ((outside t ℓ d inp).data d).availRing = d.availRing ∧
      ((outside t ℓ d inp).data d).bufDisk = d.bufDisk := by
  unfold outside
  split
  · split <;> exact ⟨rfl, rfl⟩
  · split <;> exact ⟨rfl, rfl⟩
  · exact ⟨rfl, rfl⟩

theorem env_frame (inp : Input) :
    (client.env d inp).availRing = d.availRing ∧ (client.env d inp).bufDisk = d.bufDisk := by
  cases inp with
  | take =>
    simp only [client, Disk.take]
    split <;> exact ⟨rfl, rfl⟩
  | post k =>
    simp only [client, Disk.post]
    split <;> exact ⟨rfl, rfl⟩
  | rw | intr => exact ⟨rfl, rfl⟩

end

theorem step_frame {s' : State} (hs : step s e = .ok s') :
    s'.data.availRing = s.data.availRing ∧ s'.data.bufDisk = s.data.bufDisk ∨
    ∃ t inp ℓ a, e = .run t inp ∧ s.ctl t = .inside ℓ ∧ inside t ℓ s.data = .ok a ∧
      s'.data = a.data := by
  cases Monitor.step_eq_ok hs with
  | outside hc hm =>
    cases hm
    rw [Monitor.State.move_data]
    exact .inl (outside_frame _ _)
  | inside hc ha =>
    rw [Monitor.State.act_data]
    exact .inr ⟨_, _, _, _, rfl, hc, ha, rfl⟩
  | env inp => exact .inl (env_frame inp)
  | idle | acquire | visit | woken | doze | kill | fresh => exact .inl ⟨rfl, rfl⟩

/-- The protocol of the driver, in one state and in the steps from it. -/
structure Protocol (s : State) : Prop where
  /-- Every chain that a ring or the device has is that of a request. -/
  inFlight : ∀ h, h ∈ s.data.availQueue ∨ h ∈ s.data.pending ∨ h ∈ s.data.usedQueue →
    ∃ r, s.data.req h = some r
  /-- A request has three descriptors, linked by `next`. -/
  chain : ∀ h r, s.data.req h = some r → (r.chain h).Nodup ∧
    (s.data.desc h).next = r.i1 ∧ (s.data.desc r.i1).next = r.i2
  disjoint : ∀ h h' r r', s.data.req h = some r → s.data.req h' = some r' → h ≠ h' →
    List.Disjoint (r.chain h) (r'.chain h')
  free : s.holder = none → ∀ i < num,
    s.data.free i = true ↔ ∀ h r, s.data.req h = some r → i ∉ r.chain h
  /-- No step writes an entry of the avail ring that the device has not taken. -/
  slots : ∀ e s', step s e = .ok s' → ∀ k < (s.data.availIdx - s.data.lastAvail).toNat,
    s'.data.availRing ((s.data.lastAvail.toNat + k) % num) =
      s.data.availRing ((s.data.lastAvail.toNat + k) % num)
  /-- The handler clears `b->disk` of the buffer whose request the entry is about, and of no
  other buffer. -/
  handler : ∀ t inp s', step s (.run t inp) = .ok s' → s.ctl t = .inside .intr →
    s.data.usedSeen ≠ s.data.usedIdx → ∃ r, s.data.req s.data.entry = some r ∧
      s.data.bufDisk r.buf = true ∧ s'.data.bufDisk = update s.data.bufDisk r.buf false
  /-- Nothing else clears `b->disk`. -/
  clears : ∀ e s' b, step s e = .ok s' → s.data.bufDisk b = true → s'.data.bufDisk b = false →
    ∃ t inp, e = .run t inp ∧ s.ctl t = .inside .intr ∧ s.data.usedSeen ≠ s.data.usedIdx
  /-- The requests whose callers have returned are complete. -/
  returned : ∀ x ∈ s.data.returned, x ∈ s.data.completed

theorem Disk.Inv.free_iff {d : Disk} (hd : d.Inv) (hheld : d.held = []) (hi : i < num) :
    d.free i = true ↔ ∀ h r, d.req h = some r → i ∉ r.chain h := by
  have hused := hd.owned.used i
  simp only [hheld, not_mem_nil, false_or, hi, true_and] at hused
  rw [← Bool.not_eq_false, hused]
  unfold Disk.Has
  push Not
  rfl

theorem protocol_of_holds (h : outline.Holds s) : Protocol s := by
  have hd := h.always
  refine ⟨fun x hx => hd.request ?_, fun x r hr => ?_, fun x x' r r' hr hr' hne i hi hi' => ?_,
    fun hfree i hi => hd.free_iff (h.free hfree).1 hi, fun e s' hs k hk => ?_,
    fun t inp s' hs hc hne => ?_, fun e s' b hs hb hb' => ?_, hd.returned⟩
  · rcases hx with hx | hx | hx
    · exact ((hd.avail.mem x).1 hx).trans_ne (by decide)
    · exact ((hd.pending.mem x).1 hx).trans_ne (by decide)
    · rcases (hd.used.mem x).1 hx with hp | hp <;> exact hp.trans_ne (by decide)
  · have hw := hd.wired x r hr
    exact ⟨hw.nodup, by rw [hw.first], hw.second.2⟩
  · exact hne (hd.owned.unique x x' i ⟨r, hr, hi⟩ ⟨r', hr', hi'⟩)
  · rcases step_frame hs with ⟨hring, -⟩ | ⟨t, inp, ℓ, a, -, hc, ha, hdata⟩
    · rw [hring]
    · rw [hdata]
      rcases (inside_frame hd (h.thread_of hc) ha).1 with hring | ⟨hlen, i0, hring⟩
      · rw [hring]
      · rw [Disk.availQueue, Ring.queue_length] at hlen
        rw [hring, ← Ring.cell_eq (r := s.data.lastAvail) (by decide)]
        exact update_of_ne (Ring.cell_ne hk hlen) ..
  · simp only [step, Monitor.step, Monitor.runThread, hc] at hs
    obtain ⟨a, ha, rfl⟩ := Run.map_eq_ok.1 hs
    rw [Monitor.State.act_data]
    exact (virtioDiskIntr_frame hd (h.thread_of hc) ha).2.elim (fun he => absurd he.1 hne) And.right
  · rcases step_frame hs with ⟨-, hbuf⟩ | ⟨t, inp, ℓ, a, he, hc, ha, hdata⟩
    · rw [hbuf, hb] at hb'
      cases hb'
    · rw [hdata] at hb'
      have hℓ := (inside_frame hd (h.thread_of hc) ha).2 b hb hb'
      subst hℓ
      refine ⟨t, inp, he, hc, fun hseen => ?_⟩
      rcases (virtioDiskIntr_frame hd (h.thread_of hc) ha).2 with ⟨-, hbuf⟩ | ⟨hne, -⟩
      · rw [hbuf, hb] at hb'
        cases hb'
      · exact hne hseen

/-- Whatever the callers, the interrupts and the device do, the driver does not panic and
follows the protocol. -/
theorem driver_protocol {s : State} (hs : Start s) (es : List Event) :
    (∀ x, Run.exec step s es ≠ .error x) ∧
      ∀ s', Run.exec step s es = .ok s' → Protocol s' := by
  refine ⟨fun x => ?_, fun s' hrun => protocol_of_holds ?_⟩
  · exact Run.ne_error_of_exec (I := outline.Holds) (fun _ _ _ => outline_step)
      (fun _ _ h => step_ne_error h) hs.holds
  · exact Run.inv_of_exec (I := outline.Holds) (fun _ _ _ => outline_step) hs.holds hrun

/-- A driver that is about to use the last index before the rings wrap. -/
def fresh : State :=
  { data :=
      { desc := fun _ => .zero, availIdx := 65535, availRing := fun _ => 0, usedIdx := 65535
        usedRing := fun _ => 0, free := fun _ => true, usedSeen := 65535
        info := fun _ => ⟨none, 0⟩, ops := fun _ => ⟨0, 0, 0⟩, blockno := fun b => b
        bufDisk := fun _ => false, lastAvail := 65535, pending := [], locked := fun _ => none
        req := fun _ => none, phase := fun _ => .idle, held := [], serials := 0, completed := []
        returned := [] }
    holder := none, ctl := fun _ => .out .idle, killed := fun _ => false }

theorem start_fresh : Start fresh :=
  ⟨rfl, rfl, fun _ => rfl, rfl, fun _ => rfl, fun _ => rfl, fun _ => rfl, rfl, rfl, rfl, rfl,
    fun _ => rfl⟩

def twoWrites : List Event :=
  .run 0 (.rw 3 true) :: List.replicate 5 (.run 0 .take) ++
  .run 1 (.rw 4 true) :: List.replicate 5 (.run 1 .take) ++
  [.env .take, .env .take, .env (.post 1), .run 64 .intr] ++
  List.replicate 70 (.run 64 .take) ++ List.replicate 201 (.run 1 .take)

theorem driver_protocol_twoWrites :
    Start fresh ∧ ∃ s', Run.exec step fresh twoWrites = .ok s' ∧ Protocol s' ∧
      s'.data.returned = [1] ∧ s'.data.completed = [1] ∧ s'.data.pending = [0] := by
  have hends : Run.ends step fresh twoWrites (fun s => decide (s.data.returned = [1] ∧
      s.data.completed = [1] ∧ s.data.pending = [0])) = true := by decide +kernel
  obtain ⟨s', hrun, hcheck⟩ := Run.of_ends hends
  exact ⟨start_fresh, s', hrun, (driver_protocol start_fresh twoWrites).2 s' hrun,
    of_decide_eq_true hcheck⟩

end Xv6.Virtio
