/-
Files as arrays of bytes: what `readi` returns and what `writei` changes.
-/
import Xv6.Fs.Alloc

namespace Xv6.Fs

open Bytes Run Volume List

namespace Volume

variable {l : List UInt8} {i j s : Nat} {e : Panic}

variable {bn k m o tot : Nat} {f g : Nat → Option UInt8}

variable {v v' : Volume} {i : Nat}

/-- The byte of file `i` at offset `o`, where the file has a block there. -/
def content (v : Volume) (i o : Nat) : UInt8 :=
  byteAt (v.block (v.fileBlock i (o / bsize))) (o % bsize)

def fileBytes (v : Volume) (i o n : Nat) : List UInt8 :=
  (List.range n).map fun k => v.content i (o + k)

@[simp] theorem length_fileBytes (v : Volume) (i o n : Nat) : (v.fileBytes i o n).length = n := by
  simp [fileBytes]

theorem fileBytes_add (v : Volume) (i o m n : Nat) :
    v.fileBytes i o (m + n) = v.fileBytes i o m ++ v.fileBytes i (o + m) n := by
  simp only [fileBytes, range_add, map_append, map_map]
  congr 1
  exact map_congr_left fun k _ => by simp [Nat.add_assoc]

theorem load_fileBlock (v : Volume) (i : Nat) (h : o % bsize + m ≤ bsize) :
    load (v.block (v.fileBlock i (o / bsize))) (o % bsize) m = v.fileBytes i o m := by
  refine map_congr_left fun k hk => ?_
  have hk' := mem_range.1 hk
  have hb : 0 < bsize := by decide
  have ho := Nat.div_add_mod o bsize
  have hmod : (o + k) % bsize = o % bsize + k := by
    rw [Nat.add_mod, Nat.mod_eq_of_lt (a := k) (by omega), Nat.mod_eq_of_lt (by omega)]
  have hdiv : (o + k) / bsize = o / bsize := by
    have := Nat.div_add_mod (o + k) bsize
    exact Nat.eq_of_mul_eq_mul_left hb (by omega)
  rw [content, hmod, hdiv]

/-- From `v` to `v'` file `i` has got the bytes `f` says; every file keeps the blocks it had
and what is in them otherwise. -/
structure Wrote (v v' : Volume) (i : Nat) (f : Nat → Option UInt8) : Prop where
  lo : v'.lo = v.lo
  hi : v'.hi = v.hi
  grows : ∀ i' j, v.place i' j ≠ 0 → v'.place i' j = v.place i' j
  inodes : ∀ i', i' ≠ i → v'.inode i' = v.inode i'
  others : ∀ i', i' ≠ i → ∀ j, v'.place i' j = v.place i' j
  elsewhere : ∀ i' j, i' ≠ i → j ≠ ndirect → v.place i' j ≠ 0 →
    v'.block (v.place i' j) = v.block (v.place i' j)
  kept : ∀ o, f o = none → v.fileBlock i (o / bsize) ≠ 0 → v'.content i o = v.content i o
  put : ∀ o x, f o = some x → v'.fileBlock i (o / bsize) ≠ 0 ∧ v'.content i o = x

theorem Extends.wrote (h : Extends v v' i) : Wrote v v' i fun _ => none := by
  refine ⟨h.lo, h.hi, h.grows, h.inodes, h.others,
    fun i' j _ hj hp => h.contents i' j hj hp, fun o _ hp => ?_, fun o x hx => (nomatch hx)⟩
  have hb : v'.fileBlock i (o / bsize) = v.fileBlock i (o / bsize) := h.grows i _ hp
  have hc : v'.block (v.fileBlock i (o / bsize)) = v.block (v.fileBlock i (o / bsize)) :=
    h.contents i _ (slot_ne _) hp
  rw [content, content, hb, hc]

theorem Wrote.trans {v₁ v₂ v₃ : Volume} (h : Wrote v₁ v₂ i f) (h' : Wrote v₂ v₃ i g) :
    Wrote v₁ v₃ i fun o => (g o).or (f o) := by
  have hgrows : ∀ i' j, v₁.place i' j ≠ 0 → v₂.place i' j ≠ 0 ∧ v₃.place i' j = v₁.place i' j :=
    fun i' j hp => by
      have e := h.grows i' j hp
      exact ⟨e ▸ hp, (h'.grows i' j (e ▸ hp)).trans e⟩
  refine ⟨h'.lo.trans h.lo, h'.hi.trans h.hi, fun i' j hp => (hgrows i' j hp).2,
    fun i' hi => (h'.inodes i' hi).trans (h.inodes i' hi),
    fun i' hi j => (h'.others i' hi j).trans (h.others i' hi j),
    fun i' j hi hj hp => ?_, fun o ho hp => ?_, fun o x ho => ?_⟩
  · have e := h.grows i' j hp
    have := h'.elsewhere i' j hi hj (e ▸ hp)
    rw [e] at this
    exact this.trans (h.elsewhere i' j hi hj hp)
  · obtain ⟨hg, hf⟩ := Option.or_eq_none_iff.1 ho
    exact (h'.kept o hg (hgrows i _ hp).1).trans (h.kept o hf hp)
  · cases hg : g o with
    | some y =>
      rw [hg] at ho
      cases ho
      exact h'.put o x hg
    | none =>
      rw [hg] at ho
      obtain ⟨hp, hx⟩ := h.put o x ho
      exact ⟨by rw [fileBlock, h'.grows i _ hp]; exact hp, (h'.kept o hg hp).trans hx⟩

theorem Wrote.fileBytes_kept (h : Wrote v v' i f) {n : Nat}
    (hk : ∀ k, k < n → f (o + k) = none ∧ v.fileBlock i ((o + k) / bsize) ≠ 0) :
    v'.fileBytes i o n = v.fileBytes i o n := by
  refine map_congr_left fun k hkn => ?_
  obtain ⟨hf, hp⟩ := hk k (mem_range.1 hkn)
  exact h.kept _ hf hp

theorem Wrote.fileBytes_put (h : Wrote v v' i f) (hk : ∀ k, k < l.length → f (o + k) = l[k]?) :
    v'.fileBytes i o l.length = l := by
  refine ext_getElem (length_fileBytes ..) fun k hk' hk'' => ?_
  have hf := hk k hk''
  rw [List.getElem?_eq_getElem hk''] at hf
  simpa [fileBytes] using (h.put _ _ hf).2

section

variable (h : v.Exclusive) (hp : v.fileBlock i bn ≠ 0)

include h hp

theorem Exclusive.block_setBlock {i' : Nat} (blk : Block) (hor : i' ≠ i ∨ j ≠ slot bn) :
    (v.setBlock (v.fileBlock i bn) blk).block (v.place i' j) = v.block (v.place i' j) := by
  refine block_setBlock_ne _ _ fun e => ?_
  obtain ⟨rfl, rfl⟩ := h.inj i (slot bn) i' j hp e.symm
  exact hor.elim (fun h => h rfl) fun h => h rfl

theorem Exclusive.place_setBlock (blk : Block) (i' j : Nat) :
    (v.setBlock (v.fileBlock i bn) blk).place i' j = v.place i' j := by
  have hinode : (v.setBlock (v.fileBlock i bn) blk).inode i' = v.inode i' := rfl
  exact place_congr hinode (fun _ => h.block_setBlock hp blk (.inr (slot_ne bn).symm)) j

theorem Exclusive.wrote_store :
    Wrote v (v.setBlock (v.fileBlock i bn) (store (v.block (v.fileBlock i bn)) o l)) i
      fun x => if x / bsize = bn ∧ o ≤ x % bsize then l[x % bsize - o]? else none := by
  have hbs : 0 < bsize := by decide
  let w := v.setBlock (v.fileBlock i bn) (store (v.block (v.fileBlock i bn)) o l)
  have hblk : ∀ i' j, i' ≠ i ∨ j ≠ slot bn → w.block (v.place i' j) = v.block (v.place i' j) :=
    fun i' j hor => h.block_setBlock hp _ hor
  have hplace : ∀ i' j, w.place i' j = v.place i' j := h.place_setBlock hp _
  have hcontent : ∀ x, w.content i x = if x / bsize = bn then
      byteAt (store (v.block (v.fileBlock i bn)) o l) (x % bsize) else v.content i x := fun x => by
    have hf : w.fileBlock i (x / bsize) = v.fileBlock i (x / bsize) := hplace i _
    rw [content, hf]
    split
    · rename_i hx
      rw [hx, block_setBlock_self]
    · rename_i hx
      rw [content, fileBlock, hblk i _ (.inr fun e => hx (slot_inj e))]
  refine ⟨rfl, rfl, fun i' j _ => hplace i' j, fun _ _ => rfl, fun i' _ j => hplace i' j,
    fun i' j hi _ _ => hblk i' j (.inl hi), fun x hx _ => ?_, fun x y hx => ?_⟩
  · rw [hcontent]
    by_cases hb : x / bsize = bn
    · rw [if_pos hb]
      have hout : x % bsize < o ∨ o + l.length ≤ x % bsize := by
        by_cases hle : o ≤ x % bsize
        · rw [if_pos ⟨hb, hle⟩, List.getElem?_eq_none_iff] at hx
          omega
        · omega
      rw [byteAt_store_out _ (Nat.mod_lt _ hbs) hout, content, hb]
    · rw [if_neg hb]
  · by_cases hc : x / bsize = bn ∧ o ≤ x % bsize
    · rw [if_pos hc] at hx
      obtain ⟨hlt, hy⟩ := List.getElem?_eq_some_iff.1 hx
      refine ⟨by rw [fileBlock, hplace, hc.1]; exact hp, ?_⟩
      have hx' : x % bsize = o + (x % bsize - o) := by omega
      have hlt' : o + (x % bsize - o) < bsize := by rw [← hx']; exact Nat.mod_lt _ hbs
      rw [hcontent, if_pos hc.1, hx', byteAt_store_in _ hlt hlt', hy]
    · rw [if_neg hc] at hx
      cases hx

end

/-- From `v` to `v'` file `i` has got the bytes `f` says; otherwise all contents are the same. -/
def Overlay (v v' : Volume) (i : Nat) (f : Nat → Option UInt8) : Prop :=
  ∀ i' o, v'.content i' o = if i' = i then (f o).getD (v.content i' o) else v.content i' o

theorem Overlay.trans {v₁ v₂ v₃ : Volume} (h : Overlay v₁ v₂ i f) (h' : Overlay v₂ v₃ i g) :
    Overlay v₁ v₃ i fun o => (g o).or (f o) := by
  intro i' o
  rw [h' i' o, h i' o]
  by_cases hi : i' = i
  · simp only [if_pos hi]
    cases g o <;> rfl
  · simp only [if_neg hi]

theorem Wrote.overlay (h : Wrote v v' i f) (hplace : ∀ i' j, v'.place i' j = v.place i' j)
    (hzero : v'.block 0 = v.block 0) : Overlay v v' i f := by
  intro i' o
  have hfile : v'.fileBlock i' (o / bsize) = v.fileBlock i' (o / bsize) := hplace i' _
  have hhole : v.fileBlock i' (o / bsize) = 0 → v'.content i' o = v.content i' o := fun h0 => by
    rw [content, content, hfile, h0, hzero]
  by_cases h0 : v.fileBlock i' (o / bsize) = 0
  · rw [hhole h0]
    split
    · rename_i hi
      subst hi
      cases hf : f o with
      | none => rfl
      | some x => exact absurd (hfile.trans h0) (h.put o x hf).1
    · rfl
  · split
    · rename_i hi
      subst hi
      cases hf : f o with
      | none => exact h.kept o hf h0
      | some x => exact (h.put o x hf).2
    · rename_i hi
      rw [content, hfile]
      exact congrArg (byteAt · _) (h.elsewhere i' _ hi (slot_ne _) h0)

end Volume

/-! ## Copying from and to the caller -/

theorem length_fetch_le (src : Nat → Option UInt8) (k m : Nat) : (fetch src k m).length ≤ m := by
  induction m generalizing k with
  | zero => simp [fetch]
  | succ m ih =>
    rw [fetch]
    split
    · simp
    · have := ih (k + 1)
      simp only [length_cons]
      omega

theorem getElem?_fetch (src : Nat → Option UInt8) {t : Nat} (ht : t < (fetch src k m).length) :
    (fetch src k m)[t]? = src (k + t) := by
  induction m generalizing k t with
  | zero => simp [fetch] at ht
  | succ m ih =>
    rw [fetch] at ht ⊢
    split at ht
    · simp at ht
    · rename_i b hb
      cases t with
      | zero => simpa using hb.symm
      | succ t =>
        have := ih (k := k + 1) (t := t) (by simpa using ht)
        rw [List.getElem?_cons_succ, this]
        congr 1
        omega

theorem fetch_stops (src : Nat → Option UInt8) (h : (fetch src k m).length < m) :
    src (k + (fetch src k m).length) = none := by
  induction m generalizing k with
  | zero => omega
  | succ m ih =>
    rw [fetch] at h ⊢
    cases hk : src k with
    | none => simpa using hk
    | some b =>
      rw [hk] at h
      simp only [length_cons] at h ⊢
      rw [← ih (k := k + 1) (by omega)]
      congr 1
      omega

theorem length_deliver_le (dst : Nat → Bool) (k : Nat) (l : List UInt8) :
    (deliver dst k l).length ≤ l.length := by
  induction l generalizing k with
  | nil => simp [deliver]
  | cons b l ih =>
    rw [deliver]
    split
    · simpa using ih (k + 1)
    · simp

theorem deliver_append (dst : Nat → Bool) (k : Nat) (xs ys : List UInt8) :
    deliver dst k (xs ++ ys) = if (deliver dst k xs).length < xs.length then deliver dst k xs
      else deliver dst k xs ++ deliver dst (k + xs.length) ys := by
  induction xs generalizing k with
  | nil => simp [deliver]
  | cons x xs ih =>
    rw [cons_append, deliver, deliver]
    by_cases hk : dst k
    · rw [if_pos hk, if_pos hk, ih (k + 1)]
      have e : k + 1 + xs.length = k + (xs.length + 1) := by omega
      simp only [length_cons, Nat.add_lt_add_iff_right, e]
      split <;> simp
    · simp [hk]

/-! ## Holes -/

section
variable {d d' : Disk} {inum b : Nat} {ip ip' : Dinode} {off n : Nat}

theorem Disk.Wf.block_zero (h : d.Wf) : d.volume.block 0 = zeroes := by
  have := h.pos
  exact if_neg (by omega)

theorem content_of_hole (h : d.Wf) (h0 : (d.view inum ip).fileBlock i (o / bsize) = 0) :
    (d.view inum ip).content i o = 0 := by
  rw [Volume.content, h0, Disk.view_block, h.block_zero, byteAt_zeroes]

theorem Placed.content (h : Placed d d' inum ip ip' j b) (hw : d.Wf) (i o : Nat) :
    (d'.view inum ip').content i o = (d.view inum ip).content i o := by
  by_cases hj : i = inum ∧ Volume.slot (o / bsize) = j
  · obtain ⟨rfl, hj⟩ := hj
    have hold : (d.view i ip).fileBlock i (o / bsize) = 0 := by
      rw [Volume.fileBlock, hj, h.assigned.empty]
    rw [content_of_hole hw hold, Volume.content, Volume.fileBlock, hj, h.assigned.self, h.zero,
      byteAt_zeroes]
  · have hsame : (d'.view inum ip').fileBlock i (o / bsize) =
        (d.view inum ip).fileBlock i (o / bsize) := by
      refine h.assigned.ne i _ ?_
      by_cases hi : i = inum
      · exact .inr fun hs => hj ⟨hi, hs⟩
      · exact .inl hi
    by_cases h0 : (d.view inum ip).fileBlock i (o / bsize) = 0
    · rw [content_of_hole hw h0, content_of_hole h.good.wf (hsame.trans h0)]
    · rw [Volume.content, hsame]
      exact congrArg (byteAt · _) (h.ext.contents i _ (slot_ne _) h0)

/-- A block is put at place `j` of the inode. -/
def PlaceStep (inum : Nat) (J : Nat → Prop) (s s' : Disk × Dinode) : Prop :=
  ∃ j b, J j ∧ Good s.1 inum s.2 ∧ Placed s.1 s'.1 inum s.2 s'.2 j b

theorem bmap_steps (hg : Good d inum ip) (h : bmap d ip bn = .ok (b, ip', d')) :
    Relation.ReflTransGen (PlaceStep inum fun j => j = Volume.slot bn ∨ j = ndirect)
      (d, ip) (d', ip') := by
  have haddr : ∀ {j b ip' d'}, (j = Volume.slot bn ∨ j = ndirect) → j ≤ ndirect →
      bmapAddr d ip j = .ok (b, ip', d') → Relation.ReflTransGen
        (PlaceStep inum fun j => j = Volume.slot bn ∨ j = ndirect) (d, ip) (d', ip') := by
    intro j b ip' d' hJ hj h
    unfold bmapAddr at h
    split at h
    · rename_i h0
      obtain ⟨⟨b₀, d₀⟩, hb, hret⟩ := bind_eq_ok.1 h
      cases hret
      exact .single ⟨j, b, hJ, hg, bmapAddr_placed hg hj h0 hb⟩
    · cases h
      exact .refl
  unfold bmap at h
  by_cases hdir : bn < ndirect
  · rw [if_pos hdir] at h
    exact haddr (.inl (slot_of_lt hdir).symm) (by omega) h
  rw [if_neg hdir] at h
  by_cases hlt : bn - ndirect < nindirect
  · rw [if_pos hlt] at h
    obtain ⟨⟨ind, ip₁, d₁⟩, h₁, hrest⟩ := bind_eq_ok.1 h
    obtain ⟨⟨b₂, d₂⟩, h₂, hret⟩ := bind_eq_ok.1 hrest
    cases hret
    obtain ⟨hgrown, hind, hind0⟩ := bmapAddr_spec hg le_rfl h₁
    refine (haddr (.inr rfl) le_rfl h₁).trans ?_
    unfold bmapEntry at h₂
    split at h₂
    · rename_i h0
      obtain ⟨⟨b₀, d₀⟩, hb, hrest⟩ := bind_eq_ok.1 h₂
      obtain ⟨d₂, hlog, hret⟩ := bind_eq_ok.1 hrest
      cases hret
      obtain ⟨-, rfl⟩ := logWrite_eq_ok.1 hlog
      exact .single ⟨_, b, .inl (slot_of_ge hdir).symm, hgrown.good,
        bmapEntry_placed hgrown.good hind hind0 hlt h0 hb⟩
    · cases h₂
      exact .refl
  · rw [if_neg hlt] at h
    cases h

theorem bmap_keeps {α : Type} {F : Disk × Dinode → α}
    (hF : ∀ s s', PlaceStep inum (fun j => j = Volume.slot bn ∨ j = ndirect) s s' → F s' = F s)
    (hg : Good d inum ip) (h : bmap d ip bn = .ok (b, ip', d')) : F (d', ip') = F (d, ip) := by
  have hsteps := bmap_steps hg h
  generalize (d', ip') = s' at hsteps ⊢
  induction hsteps with
  | refl => rfl
  | tail _ hlast ih => exact (hF _ _ hlast).trans ih

theorem bmap_content (hg : Good d inum ip) (h : bmap d ip bn = .ok (b, ip', d')) (i o : Nat) :
    (d'.view inum ip').content i o = (d.view inum ip).content i o :=
  bmap_keeps (F := fun s => (s.1.view inum s.2).content i o)
    (fun _ _ ⟨_, _, _, hg, hplaced⟩ => hplaced.content hg.wf i o) hg h

theorem bmap_place (hg : Good d inum ip) (h : bmap d ip bn = .ok (b, ip', d'))
    (hk : i ≠ inum ∨ k ≠ Volume.slot bn ∧ k ≠ ndirect) :
    (d'.view inum ip').place i k = (d.view inum ip).place i k :=
  bmap_keeps (F := fun s => (s.1.view inum s.2).place i k) (fun _ _ ⟨_, _, hJ, _, hplaced⟩ =>
    hplaced.assigned.ne i k (hk.imp_right fun hk => hJ.elim (fun e => e ▸ hk.1) fun e => e ▸ hk.2))
    hg h

/-! ## readi -/

/-- The number of bytes `readi` is to return. -/
def readLen (ip : Dinode) (off n : Nat) : Nat := if off + n > ip.size then ip.size - off else n

/-! ## writei -/

/-- The bytes of a source put at offset `off` of a file, the first `w` of them. -/
def span (src : Nat → Option UInt8) (off w : Nat) : Nat → Option UInt8 :=
  fun o => if off ≤ o ∧ o < off + w then src (o - off) else none

/-- Of the first `n` bytes of the source, `w` can be read before one cannot. -/
structure Readable (src : Nat → Option UInt8) (n w : Nat) : Prop where
  le : w ≤ n
  some : ∀ k, k < w → src k ≠ none
  stops : w < n → src w = none

/-- The inode has got the bytes `f` says, and nothing else has changed. -/
structure Written (d d' : Disk) (inum : Nat) (ip ip' : Dinode) (f : Nat → Option UInt8) :
    Prop where
  good : Good d' inum ip'
  sb : d'.sb = d.sb
  fields : ip' = { ip with addrs := ip'.addrs }
  wrote : Volume.Wrote (d.view inum ip) (d'.view inum ip') inum f

theorem Written.record (h : Written d d' inum ip ip' f) (b : Nat) :
    Written d (d'.record b) inum ip ip' f := ⟨h.good.setLog _ _, h.sb, h.fields, h.wrote⟩

theorem Written.congr (h : Written d d' inum ip ip' f) (hfg : ∀ o, f o = g o) :
    Written d d' inum ip ip' g := (funext hfg : f = g) ▸ h

variable {src : Nat → Option UInt8}

theorem Good.view_store (hg : Good d inum ip) {b : Nat}
    (hfile : (d.view inum ip).fileBlock inum bn = b) (hb : b ≠ 0) (o : Nat) (l : List UInt8) :
    (d.setBlock b (store (d.blocks b) o l)).view inum ip =
      (d.view inum ip).setBlock ((d.view inum ip).fileBlock inum bn)
        (store ((d.view inum ip).block ((d.view inum ip).fileBlock inum bn)) o l) := by
  have hp : (d.view inum ip).fileBlock inum bn ≠ 0 := by rwa [hfile]
  have hdata : d.volume.Data b := hfile ▸ hg.excl.data inum _ hp
  rw [hfile, Disk.view_block, d.volume_block hdata, Disk.view, Disk.volume_setBlock hg.wf hdata]
  rfl

/-- The bytes `l` stored in one block, from offset `pos` of the file on. -/
def stored (pos : Nat) (l : List UInt8) : Nat → Option UInt8 := fun x =>
  if x / bsize = pos / bsize ∧ pos % bsize ≤ x % bsize then l[x % bsize - pos % bsize]? else none

theorem writeRound_spec (hg : Good d inum ip) {d₁ : Disk} {pos : Nat}
    (hb : bmap d ip (pos / bsize) = .ok (b, ip', d₁)) (l : List UInt8) :
    Written d (d₁.setBlock b (store (d₁.blocks b) (pos % bsize) l)) inum ip ip' (stored pos l) ∧
    Volume.Overlay (d.view inum ip) ((d₁.setBlock b (store (d₁.blocks b) (pos % bsize) l)).view
      inum ip') inum (stored pos l) := by
  obtain ⟨hgrown, hfile, hb0⟩ := bmap_spec hg hb
  have hg₁ := hgrown.good
  have hp : (d₁.view inum ip').fileBlock inum (pos / bsize) ≠ 0 := by rwa [hfile]
  have hstore : Volume.Wrote _ _ inum (stored pos l) := hg₁.excl.wrote_store hp
  refine ⟨⟨⟨hg₁.wf.setBlock (bmap_data hg hb) _, hg₁.fits, hg₁.type, ?_⟩, hgrown.sb,
    hgrown.fields, ?_⟩, ?_⟩
  · rw [hg₁.view_store hfile hb0]
    exact hg₁.excl.congr rfl rfl (hg₁.excl.place_setBlock hp _) fun _ => rfl
  · rw [hg₁.view_store hfile hb0]
    simpa using hgrown.ext.wrote.trans hstore
  · rw [hg₁.view_store hfile hb0]
    intro i o
    rw [hstore.overlay (hg₁.excl.place_setBlock hp _) (block_setBlock_ne _ _ hp.symm) i o,
      bmap_content hg hb]

theorem span_round (hm : m ≤ bsize - (off + tot) % bsize) (x : Nat) :
    (stored (off + tot) (fetch src tot m) x).or (span src off tot x) =
      span src off (tot + (fetch src tot m).length) x := by
  have hbs : 0 < bsize := by decide
  have hlen := length_fetch_le src tot m
  have hx := Nat.div_add_mod x bsize
  have hp := Nat.div_add_mod (off + tot) bsize
  by_cases hin : off + tot ≤ x ∧ x < off + tot + (fetch src tot m).length
  · -- `x` is one of the bytes of this round, and these lie in one block
    have hdiv : x / bsize = (off + tot) / bsize := by
      rw [Nat.div_eq_iff hbs]
      have := Nat.div_add_mod (off + tot) bsize
      rw [Nat.mul_comm] at this
      omega
    rw [hdiv] at hx
    have hidx : x % bsize - (off + tot) % bsize = x - (off + tot) := by omega
    have hlt : x - (off + tot) < (fetch src tot m).length := by omega
    rw [stored, if_pos ⟨hdiv, by omega⟩, hidx, List.getElem?_eq_getElem hlt, Option.some_or,
      ← List.getElem?_eq_getElem hlt, getElem?_fetch src hlt, span, if_pos (by omega)]
    congr 1
    omega
  · have hnone : stored (off + tot) (fetch src tot m) x = none := by
      unfold stored
      split
      · rename_i hc
        rw [hc.1] at hx
        exact List.getElem?_eq_none (by omega)
      · rfl
    rw [hnone]
    exact if_congr (by omega) rfl rfl

/-- What the loop of `writei` writes: the bytes that can be read, up to the first that cannot;
the chunk in which the copy stopped is not counted. -/
theorem writeLoop_spec {d₀ : Disk} {ip₀ : Dinode} (k : Nat) {tot' : Nat} (hk : n ≤ tot + k)
    (htot : tot ≤ n) (hw : Written d₀ d inum ip₀ ip (span src off tot))
    (hover : Volume.Overlay (d₀.view inum ip₀) (d.view inum ip) inum (span src off tot))
    (hsome : ∀ t, t < tot → src t ≠ none)
    (h : writeLoop src off n k d ip tot = .ok (tot', ip', d')) :
    ∃ w, Readable src n w ∧ tot' ≤ w ∧ (w = n → tot' = n) ∧
      Written d₀ d' inum ip₀ ip' (span src off w) ∧
      Volume.Overlay (d₀.view inum ip₀) (d'.view inum ip') inum (span src off w) := by
  have hbs : 0 < bsize := by decide
  induction k generalizing d ip tot with
  | zero =>
    cases h
    exact ⟨tot', ⟨htot, hsome, fun h => by omega⟩, le_rfl, fun h => h, hw, hover⟩
  | succ k ih =>
    rw [writeLoop] at h
    by_cases hlt : tot < n
    · rw [if_pos hlt] at h
      obtain ⟨⟨b, ip₁, d₁⟩, hb, hrest⟩ := bind_eq_ok.1 h
      dsimp only at hrest
      have hmod := Nat.mod_lt (off + tot) hbs
      generalize hm : min (n - tot) (bsize - (off + tot) % bsize) = m at hrest
      have hlen := length_fetch_le src tot m
      obtain ⟨hround, hround'⟩ := writeRound_spec hw.good hb (fetch src tot m)
      have hspan : ∀ x, _ = span src off (tot + (fetch src tot m).length) x :=
        span_round (by omega)
      have hover' := hover.trans hround'
      rw [funext hspan] at hover'
      have hw' : Written d₀ (d₁.setBlock b (store (d₁.blocks b) ((off + tot) % bsize)
          (fetch src tot m))) inum ip₀ ip₁ (span src off (tot + (fetch src tot m).length)) :=
        Written.congr ⟨hround.good, hround.sb.trans hw.sb, by rw [hround.fields, hw.fields],
          hw.wrote.trans hround.wrote⟩ hspan
      have hsome' : ∀ t, t < tot + (fetch src tot m).length → src t ≠ none := fun t ht => by
        by_cases hlo : t < tot
        · exact hsome t hlo
        · have hi : t - tot < (fetch src tot m).length := by omega
          have := getElem?_fetch src hi
          rw [show tot + (t - tot) = t by omega, List.getElem?_eq_getElem hi] at this
          rw [← this]
          exact Option.some_ne_none _
      by_cases hfail : (fetch src tot m).length < m
      · rw [if_pos hfail] at hrest
        cases hrest
        exact ⟨tot' + (fetch src tot' m).length, ⟨by omega, hsome', fun _ => fetch_stops src hfail⟩,
          by omega, fun h => by omega, hw', hover'⟩
      · rw [if_neg hfail] at hrest
        obtain ⟨d₂, hlog, hloop⟩ := bind_eq_ok.1 hrest
        obtain ⟨-, rfl⟩ := logWrite_eq_ok.1 hlog
        have he : (fetch src tot m).length = m := by omega
        rw [he] at hw' hover' hsome'
        exact ih (by omega) (by omega) (hw'.record b) hover' hsome' hloop
    · rw [if_neg hlt] at h
      cases h
      exact ⟨tot', ⟨htot, hsome, fun h => by omega⟩, le_rfl, fun h => h, hw, hover⟩

/-- How many blocks of a file the `n` bytes from `off` on lie in. -/
def blocksIn (off n : Nat) : Nat := if n = 0 then 0 else (off + n - 1) / bsize + 1 - off / bsize

theorem blocksIn_round (off : Nat) {n : Nat} (h : 0 < n) :
    blocksIn (off + min n (bsize - off % bsize)) (n - min n (bsize - off % bsize)) + 1 ≤
      blocksIn off n := by
  have hbs : bsize = 1024 := rfl
  unfold blocksIn
  rw [if_neg (by omega : n ≠ 0), hbs]
  split <;> omega

theorem writeLoop_spends (hn : off + n ≤ maxfile * bsize) (k : Nat) (d : Disk) (ip : Dinode)
    (tot : Nat) : Spends d (6 * blocksIn (off + tot) (n - tot)) Full (·.2.2)
      (writeLoop src off n k d ip tot) := by
  induction k generalizing d ip tot with
  | zero => exact .ret _ rfl
  | succ k ih =>
    rw [writeLoop]
    split
    · rename_i hlt
      have hcost := blocksIn_round (off + tot) (n := n - tot) (by omega)
      rw [Nat.add_assoc, Nat.sub_sub] at hcost
      generalize min (n - tot) (bsize - (off + tot) % bsize) = m at hcost ⊢
      have hbmap : Spends d 5 Full (·.2.2) (bmap d ip ((off + tot) / bsize)) := by
        refine (bmap_spends d ip _).mono le_rfl fun e he => he.resolve_right fun hr => ?_
        have := (Nat.div_lt_iff_lt_mul (k := bsize) (by decide)).2
          (show off + tot < maxfile * bsize by omega)
        omega
      refine Spends.mono (hbmap.bind (n := 1 + 6 * blocksIn (off + (tot + m)) (n - (tot + m)))
        fun x _ => ?_) (by omega) fun _ h => h
      obtain ⟨b, ip₁, d₁⟩ := x
      dsimp only
      split
      · exact .ret _ rfl
      · exact (logWrite_spends rfl b).bind fun d₂ _ => ih d₂ ip₁ _
    · exact .ret _ rfl

theorem Written.start (hg : Good d inum ip) (src : Nat → Option UInt8) (off : Nat) :
    Written d d inum ip ip (span src off 0) :=
  Written.congr ⟨hg, rfl, rfl, (Volume.Extends.refl _ _).wrote⟩ fun o => by
    rw [span, if_neg (by omega)]

theorem Volume.Overlay.start (v : Volume) (i : Nat) (src : Nat → Option UInt8) (off : Nat) :
    Volume.Overlay v v i (span src off 0) := fun i' o => by
  rw [show span src off 0 o = none from if_neg (by omega)]
  split <;> rfl

theorem writeLoop_result (hg : Good d inum ip)
    (h : writeLoop src off n n d ip 0 = .ok (tot, ip', d')) :
    ∃ w, Readable src n w ∧ tot ≤ w ∧ (w = n → tot = n) ∧
      Written d d' inum ip ip' (span src off w) ∧
      Volume.Overlay (d.view inum ip) (d'.view inum ip') inum (span src off w) :=
  writeLoop_spec n (Nat.le_add_left n 0) (Nat.zero_le n) (.start hg src off) (.start _ _ src off)
    (fun t ht => absurd ht (Nat.not_lt_zero t)) h

def Accepts (ip : Dinode) (off n : Nat) : Prop := off ≤ ip.size ∧ off + n ≤ maxfile * bsize

def Dinode.setSize (ip : Dinode) (s : Nat) : Dinode := { ip with size := s }

theorem Volume.place_setSize (v : Volume) (i s i' j : Nat) :
    (v.setInode i ((v.inode i).setSize s)).place i' j = v.place i' j := by
  by_cases hi : i' = i
  · subst hi
    simp only [Volume.place, inode_setInode_self, Volume.placeOf, block_setInode,
      Dinode.setSize]
  · exact place_setInode_ne hi j

theorem Volume.content_setSize (v : Volume) (i s i' o : Nat) :
    (v.setInode i ((v.inode i).setSize s)).content i' o = v.content i' o := by
  simp only [Volume.content, Volume.fileBlock, v.place_setSize i s, block_setInode]

theorem Volume.Wrote.setSize {v v' : Volume} (h : Wrote v v' i f) (s : Nat) :
    Wrote v (v'.setInode i ((v'.inode i).setSize s)) i f := by
  have hplace := v'.place_setSize i s
  have hcontent := v'.content_setSize i s i
  refine ⟨h.lo, h.hi, fun i' j hp => (hplace i' j).trans (h.grows i' j hp), fun i' hi => ?_,
    fun i' hi j => (hplace i' j).trans (h.others i' hi j), h.elsewhere,
    fun o ho hp => (hcontent o).trans (h.kept o ho hp), fun o x ho => ?_⟩
  · rw [inode_setInode_ne _ _ hi, h.inodes i' hi]
  · rw [Volume.fileBlock, hplace, hcontent]
    exact h.put o x ho

theorem Dinode.setSize_max (ip : Dinode) (s : Nat) :
    (if s > ip.size then { ip with size := s } else ip) = ip.setSize (max ip.size s) := by
  rw [Dinode.setSize]
  split
  · rw [max_eq_right (by omega)]
  · rw [max_eq_left (by omega)]

theorem Dinode.Fits.setSize (h : ip.Fits) (hs : s < 2 ^ 32) : (ip.setSize s).Fits :=
  ⟨h.type, h.major, h.minor, h.nlink, hs, h.addrs, h.rest⟩

theorem Good.volume_setSize (hg : Good d inum ip) (hi : inum < d.sb.ninodes) (hs : s < 2 ^ 32) :
    (d.setDinode inum (ip.setSize s)).volume =
      (d.view inum ip).setInode inum (((d.view inum ip).inode inum).setSize s) := by
  rw [Disk.volume_setDinode hg.wf hi (hg.fits.setSize hs), view_inode, Disk.view,
    setInode_setInode]

theorem writei_spec (hg : Good d inum ip) (hi : inum < d.sb.ninodes) {r : Int}
    (h : writei d inum ip src off n = .ok (r, ip', d')) :
    (¬Accepts ip off n ∧ r = -1 ∧ ip' = ip ∧ d' = d) ∨
    (Accepts ip off n ∧ ∃ tot w : Nat, r = tot ∧ Readable src n w ∧ tot ≤ w ∧ (w = n → tot = n) ∧
      ip' = { ip with addrs := ip'.addrs, size := max ip.size (off + tot) } ∧
      Good d' inum ip' ∧ d'.volume.inode inum = ip' ∧ d'.sb = d.sb ∧
      Volume.Wrote (d.view inum ip) d'.volume inum (span src off w) ∧
      Volume.Overlay (d.view inum ip) d'.volume inum (span src off w)) := by
  have hmax : maxfile * bsize = 274432 := by decide
  unfold writei at h
  split at h
  · rename_i hc
    cases h
    refine .inl ⟨fun ha => ?_, rfl, rfl, rfl⟩
    have := ha.1
    have := ha.2
    omega
  split at h
  · rename_i hc
    cases h
    exact .inl ⟨fun ha => absurd ha.2 (by omega), rfl, rfl, rfl⟩
  obtain ⟨⟨tot, ip₁, d₁⟩, hloop, hrest⟩ := bind_eq_ok.1 h
  obtain ⟨d₂, hupd, hret⟩ := bind_eq_ok.1 hrest
  cases hret
  obtain ⟨-, rfl⟩ := logWrite_eq_ok.1 hupd
  obtain ⟨w, hread, hle, hall, hw, hover⟩ := writeLoop_result hg hloop
  have hsize : ip₁.size = ip.size := by rw [hw.fields]
  rw [Dinode.setSize_max, hsize]
  have hw₁ := hw.good
  have hlt : inum < d₁.sb.ninodes := by rw [hw.sb]; exact hi
  have hs : max ip.size (off + tot) < 2 ^ 32 := by
    have hlen := hread.le
    exact max_lt hg.fits.size (by omega)
  have hvol := hw₁.volume_setSize hlt hs
  have hinode : (d₁.setDinode inum (ip₁.setSize (max ip.size (off + tot)))).volume.inode inum =
      ip₁.setSize (max ip.size (off + tot)) := by
    rw [hvol, inode_setInode_self, view_inode]
  refine .inr ⟨⟨by omega, by omega⟩, tot, w, rfl, hread, hle, hall, ?_,
    Good.setLog ⟨hw₁.wf.setDinode hlt _, hw₁.fits.setSize hs, hw₁.type, ?_⟩ _ _, hinode, hw.sb, ?_,
    ?_⟩
  · rw [Dinode.setSize, hw.fields]
  · have hself : ∀ (v : Volume) (q : Dinode), v.inode inum = q → v.setInode inum q = v := by
      rintro v q rfl
      exact v.setInode_eq_self inum
    rw [Disk.view, hself _ _ hinode, hvol]
    exact hw₁.excl.congr rfl rfl ((d₁.view inum ip₁).place_setSize inum _) fun _ => rfl
  · show Volume.Wrote _ (d₁.setDinode inum _).volume inum _
    rw [hvol]
    exact hw.wrote.setSize _
  · show Volume.Overlay _ (d₁.setDinode inum _).volume inum _
    rw [hvol]
    exact fun i o => (content_setSize ..).trans (hover i o)

theorem writei_spends (d : Disk) (inum : Nat) (ip : Dinode) (src : Nat → Option UInt8)
    (off n : Nat) : Spends d (6 * blocksIn off n + 1) Full (·.2.2) (writei d inum ip src off n) := by
  unfold writei
  split
  · exact .ret _ rfl
  split
  · exact .ret _ rfl
  refine (writeLoop_spends (by omega) n d ip 0).bind fun x _ => ?_
  exact (logWrite_spends rfl _).bind (n := 0) fun _ _ => .ret 0 rfl

end

end Xv6.Fs
