/-
Files as arrays of bytes, those with holes too: where a file has no block it reads as zeros.
Calls of `readi` and `writei` on an inode behave as on an array; `readi` gives back nothing where
the end of the range overflows.
-/
import Xv6.Fs.Content
import Xv6.Lib.Listing

namespace Xv6.Fs

open Bytes Volume List

variable {r : Int} {l : List UInt8} {tot : Nat} {dst : Nat → Bool} {e : Panic}

variable {d d' : Disk} {inum b off n : Nat} {ip ip' : Dinode}

/-! ## readi -/

/-- The inode may have got blocks, but what the files hold is the same. -/
structure Kept (d d' : Disk) (inum : Nat) (ip ip' : Dinode) : Prop extends
    Grown d d' inum ip ip' where
  content : ∀ i o, (d'.view inum ip').content i o = (d.view inum ip).content i o

theorem Kept.refl (h : Good d inum ip) : Kept d d inum ip ip := ⟨.refl h, fun _ _ => rfl⟩

theorem Kept.trans {d₁ d₂ d₃ : Disk} {ip₁ ip₂ ip₃ : Dinode} (h : Kept d₁ d₂ inum ip₁ ip₂)
    (h' : Kept d₂ d₃ inum ip₂ ip₃) : Kept d₁ d₃ inum ip₁ ip₃ :=
  ⟨h.toGrown.trans h'.toGrown, fun i o => (h'.content i o).trans (h.content i o)⟩

theorem Kept.fileBytes (h : Kept d d' inum ip ip') (i o m : Nat) :
    (d'.view inum ip').fileBytes i o m = (d.view inum ip).fileBytes i o m :=
  map_congr_left fun _ _ => h.content i _

section

variable (hg : Good d inum ip)

include hg

theorem bmap_kept {bn : Nat} (h : bmap d ip bn = .ok (b, ip', d')) : Kept d d' inum ip ip' :=
  ⟨(bmap_spec hg h).1, bmap_content hg h⟩

theorem readLoop_kept (k : Nat) {acc : List UInt8} (hk : n ≤ tot + k) (htot : tot ≤ n)
    (h : readLoop dst off n k d ip tot acc = .ok (r, l, ip', d')) : Kept d d' inum ip ip' ∧
      l = acc ++ deliver dst tot ((d.view inum ip).fileBytes inum (off + tot) (n - tot)) ∧
      r = if (deliver dst tot ((d.view inum ip).fileBytes inum (off + tot) (n - tot))).length <
        n - tot then -1 else (n : Int) := by
  have hbs : 0 < bsize := by decide
  induction k generalizing d ip tot acc with
  | zero =>
    have he : tot = n := by omega
    subst he
    cases h
    exact ⟨.refl hg, by simp [deliver, Volume.fileBytes], by simp⟩
  | succ k ih =>
    rw [readLoop] at h
    by_cases hlt : tot < n
    · rw [if_pos hlt] at h
      obtain ⟨⟨b, ip₁, d₁⟩, hb, hrest⟩ := Run.bind_eq_ok.1 h
      dsimp only at hrest
      have hmod := Nat.mod_lt (off + tot) hbs
      generalize hm : min (n - tot) (bsize - (off + tot) % bsize) = m at hrest
      have hkept := bmap_kept hg hb
      have hfile := (bmap_spec hg hb).2.1
      have hload : load (d₁.blocks b) ((off + tot) % bsize) m =
          (d.view inum ip).fileBytes inum (off + tot) m := by
        rw [← hkept.fileBytes, ← load_fileBlock _ _ (by omega), hfile, Disk.view_block,
          d₁.volume_block (bmap_data hg hb)]
      have hsplit : (d.view inum ip).fileBytes inum (off + tot) (n - tot) =
          (d.view inum ip).fileBytes inum (off + tot) m ++
            (d.view inum ip).fileBytes inum (off + (tot + m)) (n - (tot + m)) := by
        rw [← Nat.add_assoc off tot m, ← fileBytes_add]
        congr 1
        omega
      rw [hload] at hrest
      rw [hsplit, deliver_append, length_fileBytes]
      by_cases hfail : (deliver dst tot
          ((d.view inum ip).fileBytes inum (off + tot) m)).length < m
      · rw [if_pos hfail] at hrest ⊢
        cases hrest
        exact ⟨hkept, rfl, (if_pos (by omega)).symm⟩
      · have hlen := length_deliver_le dst tot ((d.view inum ip).fileBytes inum (off + tot) m)
        rw [length_fileBytes] at hlen
        rw [if_neg hfail] at hrest ⊢
        obtain ⟨hkept', hl, hr⟩ := ih hkept.good (by omega) (by omega) hrest
        rw [hkept.fileBytes] at hl hr
        refine ⟨hkept.trans hkept', by rw [hl, append_assoc], hr.trans ?_⟩
        rw [length_append]
        exact if_congr (by omega) rfl rfl
    · have he : tot = n := by omega
      subst he
      rw [if_neg hlt] at h
      cases h
      exact ⟨.refl hg, by simp [deliver, Volume.fileBytes], by simp⟩

theorem readi_kept (h : readi d ip dst off n = .ok (r, l, ip', d')) :
    ((ip.size < off ∨ (off + n) % 2 ^ 32 < off) ∧ r = 0 ∧ l = [] ∧ ip' = ip ∧ d' = d) ∨
    ((off ≤ ip.size ∧ off ≤ (off + n) % 2 ^ 32) ∧ Kept d d' inum ip ip' ∧
      l = deliver dst 0 ((d.view inum ip).fileBytes inum off (readLen ip off n)) ∧
      r = if (deliver dst 0 ((d.view inum ip).fileBytes inum off (readLen ip off n))).length <
        readLen ip off n then -1 else (readLen ip off n : Int)) := by
  unfold readi at h
  split at h
  · rename_i hc
    cases h
    exact .inl ⟨hc, rfl, rfl, rfl, rfl⟩
  · rename_i hc
    have hloop := readLoop_kept hg _ (Nat.le_add_left _ 0) (Nat.zero_le _) h
    exact .inr ⟨by omega, hloop⟩

end

theorem blocksIn_mono {m : Nat} (h : n ≤ m) : blocksIn off n ≤ blocksIn off m := by
  unfold blocksIn
  have := Nat.div_le_div_right (c := bsize) (show off + n - 1 ≤ off + m - 1 by omega)
  split
  · exact Nat.zero_le _
  · rw [if_neg (by omega)]
    omega

theorem readLoop_spends (k : Nat) (d : Disk) (ip : Dinode) (tot : Nat) (acc : List UInt8) :
    Spends d (5 * blocksIn (off + tot) (n - tot))
      (fun e => Full e ∨ (e = .bmapOutOfRange ∧ maxfile * bsize < off + n)) (·.2.2.2)
      (readLoop dst off n k d ip tot acc) := by
  induction k generalizing d ip tot acc with
  | zero => exact .ret _ rfl
  | succ k ih =>
    rw [readLoop]
    split
    · rename_i hlt
      have hcost := blocksIn_round (off + tot) (n := n - tot) (by omega)
      rw [Nat.add_assoc, Nat.sub_sub] at hcost
      generalize min (n - tot) (bsize - (off + tot) % bsize) = m at hcost ⊢
      have hbmap := (bmap_spends d ip ((off + tot) / bsize)).mono
        (F := fun e => Full e ∨ (e = .bmapOutOfRange ∧ maxfile * bsize < off + n)) le_rfl
        fun e => Or.imp_right fun hr => ⟨hr.1, by
          have := (Nat.le_div_iff_mul_le (k := bsize) (by decide)).1 hr.2
          omega⟩
      refine Spends.mono (hbmap.bind (n := 5 * blocksIn (off + (tot + m)) (n - (tot + m)))
        fun x _ => ?_) (by omega) fun _ h => h
      obtain ⟨b, ip₁, d₁⟩ := x
      dsimp only
      split
      · exact .ret _ rfl
      · exact ih d₁ ip₁ _ _
    · exact .ret _ rfl

/-- Why `readi` can panic: a hole cannot be filled, or the file is longer than a file can be. -/
theorem readi_spends (d : Disk) (ip : Dinode) (dst : Nat → Bool) (off n : Nat) :
    Spends d (5 * blocksIn off n)
      (fun e => Full e ∨ (e = .bmapOutOfRange ∧ maxfile * bsize < ip.size)) (·.2.2.2)
      (readi d ip dst off n) := by
  unfold readi
  split
  · exact .ret _ rfl
  · refine (readLoop_spends _ d ip 0 []).mono ?_ fun e => Or.imp_right fun hr => ⟨hr.1, ?_⟩
    · exact Nat.mul_le_mul_left 5 (blocksIn_mono (by split <;> omega))
    · have := hr.2
      split at this <;> omega

/-! ## writei -/

variable {src : Nat → Option UInt8} {w : Nat}

theorem Readable.fetch (h : Readable src n w) {m : Nat} (hle : tot ≤ w) (hm : tot + m ≤ n) :
    tot + (fetch src tot m).length ≤ w ∧
      ((fetch src tot m).length < m → tot + (fetch src tot m).length = w) := by
  have hlen := length_fetch_le src tot m
  have hlo : tot + (Fs.fetch src tot m).length ≤ w := by
    by_contra hlt
    have hi : w - tot < (Fs.fetch src tot m).length := by omega
    have hget := getElem?_fetch src hi
    rw [show tot + (w - tot) = w by omega, h.stops (by omega), List.getElem?_eq_getElem hi] at hget
    cases hget
  refine ⟨hlo, fun hfail => ?_⟩
  by_contra hne
  exact h.some _ (by omega) (fetch_stops src hfail)

/-! ## Files as arrays -/

def fileOf (d : Disk) (inum : Nat) (ip : Dinode) : List UInt8 :=
  (d.view inum ip).fileBytes inum 0 ip.size

@[simp] theorem length_fileOf (d : Disk) (inum : Nat) (ip : Dinode) :
    (fileOf d inum ip).length = ip.size := length_fileBytes ..

theorem Volume.getElem?_fileBytes (v : Volume) (i o n k : Nat) :
    (v.fileBytes i o n)[k]? = if k < n then some (v.content i (o + k)) else none := by
  rw [fileBytes, List.getElem?_map]
  split
  · rename_i hk
    rw [List.getElem?_range hk]
    rfl
  · rename_i hk
    rw [List.getElem?_eq_none (by simpa using hk)]
    rfl

/-- A call on an inode; a write has a source, a read a destination for its bytes. -/
inductive Call
  | write (src : Nat → Option UInt8) (off n : Nat)
  | read (dst : Nat → Bool) (off n : Nat)

/-- What a call returns, and for a read the bytes that it has delivered. -/
structure Reply where
  value : Int
  bytes : List UInt8

def Call.exec (inum : Nat) : Call → Disk × Dinode → Except Panic (Reply × Disk × Dinode)
  | .write src off n, (d, ip) => do
      let (r, ip, d) ← writei d inum ip src off n
      return (⟨r, []⟩, d, ip)
  | .read dst off n, (d, ip) => do
      let (r, bytes, ip, d) ← readi d ip dst off n
      return (⟨r, bytes⟩, d, ip)

def execAll (inum : Nat) : List Call → Disk × Dinode → Except Panic (List Reply × Disk × Dinode)
  | [], s => return ([], s)
  | x :: xs, s => do
      let (r, s) ← x.exec inum s
      let (rs, s) ← execAll inum xs s
      return (r :: rs, s)

/-- The arguments are 32 bits wide and the copies of the call succeed. -/
def Call.Copies : Call → Prop
  | .write src off n => off < 2 ^ 32 ∧ n < 2 ^ 32 ∧ ∀ k, k < n → src k ≠ none
  | .read dst off n => off < 2 ^ 32 ∧ n < 2 ^ 32 ∧ ∀ k, k < n → dst k = true

def bytesOf (src : Nat → Option UInt8) (n : Nat) : List UInt8 :=
  (List.range n).map fun k => (src k).getD 0

/-- The call on an array of bytes. -/
def Call.onArray : Call → List UInt8 → Reply × List UInt8
  | .write src off n, f =>
    if off ≤ f.length ∧ off + n ≤ maxfile * bsize then
      (⟨n, []⟩, f.take off ++ bytesOf src n ++ f.drop (off + n))
    else (⟨-1, []⟩, f)
  | .read _ off n, f =>
    let l := if off + n < 2 ^ 32 then (f.drop off).take n else []
    (⟨l.length, l⟩, f)

def onArrayAll : List Call → List UInt8 → List Reply × List UInt8
  | [], f => ([], f)
  | x :: xs, f =>
    let (r, f) := x.onArray f
    let (rs, f) := onArrayAll xs f
    (r :: rs, f)

/-- The other files keep their inodes and contents. -/
structure Untouched (d d' : Disk) (inum : Nat) : Prop where
  inodes : ∀ i, i ≠ inum → d'.volume.inode i = d.volume.inode i
  contents : ∀ i, i ≠ inum → ∀ o, d'.volume.content i o = d.volume.content i o

theorem Untouched.trans {d₁ d₂ d₃ : Disk} (h : Untouched d₁ d₂ inum) (h' : Untouched d₂ d₃ inum) :
    Untouched d₁ d₃ inum :=
  ⟨fun i hi => (h'.inodes i hi).trans (h.inodes i hi),
    fun i hi o => (h'.contents i hi o).trans (h.contents i hi o)⟩

theorem content_view_ne {i : Nat} (hi : i ≠ inum) (o : Nat) :
    (d.view inum ip).content i o = d.volume.content i o := by
  have hfile : (d.view inum ip).fileBlock i (o / bsize) = d.volume.fileBlock i (o / bsize) :=
    place_setInode_ne hi _
  rw [Volume.content, hfile]
  rfl

theorem Readable.eq_of_all (h : Readable src n w) (hall : ∀ k, k < n → src k ≠ none) : w = n := by
  by_contra hne
  have := h.le
  exact hall w (by omega) (h.stops (by omega))

theorem Readable.unique {w' : Nat} (h : Readable src n w) (h' : Readable src n w') : w = w' := by
  have hle := h.le
  have hle' := h'.le
  rcases Nat.lt_trichotomy w w' with hlt | heq | hgt
  · exact absurd (h.stops (by omega)) (h'.some w hlt)
  · exact heq
  · exact absurd (h'.stops (by omega)) (h.some w' hgt)

theorem deliver_all {k : Nat} (h : ∀ j, j < l.length → dst (k + j) = true) :
    deliver dst k l = l := by
  induction l generalizing k with
  | nil => rfl
  | cons x l ih =>
    have hk : dst k = true := h 0 (Nat.succ_pos _)
    rw [deliver, if_pos hk, ih fun j hj => ?_]
    have := h (j + 1) (Nat.succ_lt_succ hj)
    rwa [show k + 1 + j = k + (j + 1) by omega]

theorem Disk.view_eq (h : d.volume.inode inum = ip) : d.view inum ip = d.volume := by
  rw [← h]
  exact d.volume.setInode_eq_self inum

theorem fileOf_writei (hg : Good d inum ip) (hi : inum < d.sb.ninodes)
    (hall : ∀ k, k < n → src k ≠ none) (ha : Accepts ip off n)
    (h : writei d inum ip src off n = .ok (r, ip', d')) :
    fileOf d' inum ip' = (fileOf d inum ip).take off ++ bytesOf src n ++
      (fileOf d inum ip).drop (off + n) := by
  obtain ⟨hna, -⟩ | ⟨-, tot, w, -, hread, -, htot, hfields, -, hinode, -, -, hover⟩ :=
    writei_spec hg hi h
  · exact absurd ha hna
  obtain rfl := hread.eq_of_all hall
  have hsize : ip'.size = max ip.size (off + w) := by rw [hfields, htot rfl]
  have hoff := ha.1
  have hlen : (bytesOf src w).length = w := by simp [bytesOf]
  refine ext_getElem? fun k => ?_
  have hsplice := Listing.getElem?_splice (f := fileOf d inum ip) (l := bytesOf src w) (o := off)
    (by rw [length_fileOf]; exact ha.1) k
  rw [hlen] at hsplice
  rw [hsplice, fileOf, Disk.view_eq hinode, Volume.getElem?_fileBytes, Nat.zero_add]
  have hk := hover inum k
  rw [if_pos rfl] at hk
  rw [hk, span]
  by_cases hin : off ≤ k ∧ k < off + w
  · obtain ⟨x, hx⟩ := Option.ne_none_iff_exists'.1 (hall (k - off) (by omega))
    have hidx : k - off < w := by omega
    rw [if_pos (by omega), if_pos hin, if_pos hin, bytesOf, List.getElem?_map,
      List.getElem?_range hidx, Option.map_some, hx]
    rfl
  · rw [if_neg hin, if_neg hin, fileOf, Volume.getElem?_fileBytes, Nat.zero_add]
    exact if_congr (by omega) rfl rfl

theorem Volume.take_drop_fileBytes (v : Volume) (i m off n : Nat) :
    ((v.fileBytes i 0 m).drop off).take n = v.fileBytes i off (min n (m - off)) := by
  refine ext_getElem? fun k => ?_
  rw [List.getElem?_take, List.getElem?_drop, getElem?_fileBytes, getElem?_fileBytes, Nat.zero_add]
  by_cases hk : k < n
  · rw [if_pos hk]
    exact if_congr (by omega) rfl rfl
  · rw [if_neg hk, if_neg (by omega)]

theorem fileOf_readi (hg : Good d inum ip) (hoff : off < 2 ^ 32) (hn : n < 2 ^ 32)
    (hall : ∀ k, k < n → dst k = true) (h : readi d ip dst off n = .ok (r, l, ip', d')) :
    l = (if off + n < 2 ^ 32 then ((fileOf d inum ip).drop off).take n else []) ∧ r = l.length ∧
      Kept d d' inum ip ip' := by
  obtain ⟨hc, rfl, rfl, rfl, rfl⟩ | ⟨hc, hkept, rfl, rfl⟩ := readi_kept hg h
  · refine ⟨?_, rfl, .refl hg⟩
    split
    · have hmod : (off + n) % 2 ^ 32 = off + n := Nat.mod_eq_of_lt (by assumption)
      rw [drop_eq_nil_of_le (by rw [length_fileOf]; omega), take_nil]
    · rfl
  · have hlt : off + n < 2 ^ 32 := by
      omega
    have hlen : readLen ip off n = min n (ip.size - off) := by
      unfold readLen
      split <;> omega
    have hdel : deliver dst 0 ((d.view inum ip).fileBytes inum off (min n (ip.size - off))) =
        (d.view inum ip).fileBytes inum off (min n (ip.size - off)) := by
      refine deliver_all fun j hj => ?_
      rw [length_fileBytes] at hj
      rw [Nat.zero_add]
      exact hall j (by omega)
    rw [hlen, hdel, if_pos hlt, fileOf, take_drop_fileBytes, length_fileBytes,
      if_neg (lt_irrefl _)]
    exact ⟨rfl, rfl, hkept⟩

theorem Kept.fileOf (h : Kept d d' inum ip ip') : fileOf d' inum ip' = fileOf d inum ip := by
  have hsize : ip'.size = ip.size := by rw [h.fields]
  rw [Fs.fileOf, Fs.fileOf, hsize, h.fileBytes]

theorem Kept.untouched (h : Kept d d' inum ip ip') : Untouched d d' inum := by
  refine ⟨fun i hi => ?_, fun i hi o => ?_⟩
  · have := h.ext.inodes i hi
    rwa [Disk.view, Disk.view, inode_setInode_ne _ _ hi, inode_setInode_ne _ _ hi]
      at this
  · rw [← content_view_ne hi, h.content, content_view_ne hi]

/-- What a call leaves: the inode fit for the next one, the other files as they were, and the
file as the array is. -/
structure Call.Did (x : Call) (inum : Nat) (s s' : Disk × Dinode) (r : Reply) : Prop where
  good : Good s'.1 inum s'.2
  sb : s'.1.sb = s.1.sb
  short : s.2.size ≤ maxfile * bsize → s'.2.size ≤ maxfile * bsize
  others : Untouched s.1 s'.1 inum
  array : x.onArray (fileOf s.1 inum s.2) = (r, fileOf s'.1 inum s'.2)

theorem Call.exec_spec (hg : Good d inum ip) (hi : inum < d.sb.ninodes) {x : Call}
    (hx : x.Copies) {r : Reply} (h : x.exec inum (d, ip) = .ok (r, d', ip')) :
    x.Did inum (d, ip) (d', ip') r := by
  cases x with
  | write src off n =>
    obtain ⟨⟨r, ip₁, d₁⟩, hw, hret⟩ := Run.bind_eq_ok.1 h
    cases hret
    obtain ⟨hna, rfl, rfl, rfl⟩ | ⟨ha, tot, w, rfl, hread, -, htot, hfields, hgood, hinode, hsb,
      hwrote, hover⟩ := writei_spec hg hi hw
    · refine ⟨hg, rfl, id, ⟨fun _ _ => rfl, fun _ _ _ => rfl⟩, ?_⟩
      rw [Call.onArray, if_neg (by rw [length_fileOf]; exact hna)]
    · have hwn := hread.eq_of_all hx.2.2
      subst hwn
      have hsize : ip'.size = max ip.size (off + w) := by rw [hfields, htot rfl]
      have hend := ha.2
      refine ⟨hgood, hsb, fun hs => ?_, ⟨fun i hi' => ?_, fun i hi' o => ?_⟩, ?_⟩
      · rw [hsize]
        exact max_le hs hend
      · rw [hwrote.inodes i hi', Disk.view, inode_setInode_ne _ _ hi']
      · have := hover i o
        rwa [if_neg hi', content_view_ne hi'] at this
      · rw [Call.onArray, if_pos (by rw [length_fileOf]; exact ha),
          fileOf_writei hg hi hx.2.2 ha hw, htot rfl]
  | read dst off n =>
    obtain ⟨⟨r, l, ip₁, d₁⟩, hrd, hret⟩ := Run.bind_eq_ok.1 h
    cases hret
    obtain ⟨hl, rfl, hkept⟩ := fileOf_readi hg hx.1 hx.2.1 hx.2.2 hrd
    refine ⟨hkept.good, hkept.sb, fun hs => ?_, hkept.untouched, ?_⟩
    · have hsize : ip'.size = ip.size := by rw [hkept.fields]
      rwa [hsize]
    · rw [Call.onArray, ← hl, hkept.fileOf]

/-- What a call gives to `log_write` at most: for each block of its range the block itself, its
block of the free map and its entry in the indirect block, the same for the indirect block, and
for a write the block again and the inode. -/
def Call.cost : Call → Nat
  | .write _ off n => 6 * blocksIn off n + 1
  | .read _ off n => 5 * blocksIn off n

theorem Call.exec_spends (x : Call) (d : Disk) (inum : Nat) (ip : Dinode) :
    Spends d x.cost (fun e => Full e ∨ (e = .bmapOutOfRange ∧ maxfile * bsize < ip.size)) (·.2.1)
      (x.exec inum (d, ip)) := by
  cases x with
  | write src off n =>
    exact ((writei_spends d inum ip src off n).mono le_rfl fun _ => .inl).bind (n := 0)
      fun _ _ => .ret 0 rfl
  | read dst off n => exact (readi_spends d ip dst off n).bind (n := 0) fun _ _ => .ret 0 rfl

theorem execAll_spends (hg : Good d inum ip) (hi : inum < d.sb.ninodes) {xs : List Call}
    (hx : ∀ x ∈ xs, x.Copies) : Spends d (xs.map Call.cost).sum
      (fun e => Full e ∨ (e = .bmapOutOfRange ∧ maxfile * bsize < ip.size)) (·.2.1)
      (execAll inum xs (d, ip)) := by
  induction xs generalizing d ip with
  | nil => exact .ret _ rfl
  | cons x xs ih =>
    rw [map_cons, sum_cons]
    refine (x.exec_spends d inum ip).bind fun out hex => ?_
    obtain ⟨r, d₁, ip₁⟩ := out
    have hdid := Call.exec_spec hg hi (hx x mem_cons_self) hex
    refine ((ih hdid.good (hdid.sb ▸ hi) fun y hy => hx y (mem_cons_of_mem _ hy)).mono le_rfl
      fun e => Or.imp_right (And.imp_right fun h => ?_)).bind (n := 0) fun _ _ => .ret 0 rfl
    exact Nat.lt_of_not_le fun hs => Nat.not_lt.2 (hdid.short hs) h

theorem writei_refuses (ha : ¬Accepts ip off n) :
    writei d inum ip src off n = .ok (-1, ip, d) := by
  unfold writei
  split
  · rfl
  · rename_i hc
    rw [if_pos]
    · rfl
    · by_contra hle
      exact ha ⟨by omega, by omega⟩

/-- A file is an array of bytes as long as its size: whatever calls come, they return what the
array gives and leave the file as the array, and the other files are untouched.  A write that is
refused changes nothing at all.  The calls end early only in a panic: no block is left, the file
was longer than a file can be, a block is needed outside a transaction, or the log has no room for
what the calls may cost. -/
theorem execAll_array (hg : Good d inum ip) (hi : inum < d.sb.ninodes) (xs : List Call)
    (hx : ∀ x ∈ xs, x.Copies) :
    (∀ src off n, ¬Accepts ip off n → writei d inum ip src off n = .ok (-1, ip, d)) ∧
    match execAll inum xs (d, ip) with
    | .ok (rs, d', ip') =>
      onArrayAll xs (fileOf d inum ip) = (rs, fileOf d' inum ip') ∧
        ip'.size = (onArrayAll xs (fileOf d inum ip)).2.length ∧
        Good d' inum ip' ∧ Untouched d d' inum
    | .error e =>
      (e = .ballocOutOfBlocks ∨ (e = .bmapOutOfRange ∧ maxfile * bsize < ip.size)) ∨
        (e = .logWriteOutsideOfTrans ∧ d.log.outstanding < 1) ∨
        (e = .tooBigATransaction ∧ ¬d.log.Spare (xs.map Call.cost).sum) := by
  refine ⟨fun src off n => writei_refuses, ?_⟩
  have hspends := execAll_spends hg hi hx
  cases hall : execAll inum xs (d, ip) with
  | error e =>
    rw [hall] at hspends
    exact hspends
  | ok out =>
    clear hspends
    induction xs generalizing d ip out with
    | nil =>
      cases hall
      exact ⟨rfl, (length_fileOf ..).symm, hg, ⟨fun _ _ => rfl, fun _ _ _ => rfl⟩⟩
    | cons x xs ih =>
      obtain ⟨⟨r, d₁, ip₁⟩, hex, h⟩ := Run.bind_eq_ok.1 hall
      obtain ⟨⟨rs, d₂, ip₂⟩, hrun, hret⟩ := Run.bind_eq_ok.1 h
      cases hret
      have hdid := Call.exec_spec hg hi (hx x mem_cons_self) hex
      obtain ⟨harr, hsize, hgood, hunt⟩ := ih hdid.good (hdid.sb ▸ hi)
        (fun y hy => hx y (mem_cons_of_mem _ hy)) _ hrun
      have hcons : onArrayAll (x :: xs) (fileOf d inum ip) = (r :: rs, fileOf d₂ inum ip₂) := by
        rw [onArrayAll, hdid.array]
        dsimp only
        rw [harr]
      exact ⟨hcons, by rw [hcons, length_fileOf], hgood, hdid.others.trans hunt⟩

def twoBytes : Dinode := { Dinode.zero with type := tFile, nlink := 1, size := 2 }

theorem good_twoBytes : Good Disk.blank 1 twoBytes :=
  good_blank ⟨by decide, by decide, by decide, by decide, by decide, fun _ => Nat.two_pow_pos 32,
    fun _ _ => rfl⟩ (by decide) fun _ => rfl

/-- At offset 1 of a file of two bytes there is a byte to read, but a count so large that the
end of the range overflows gets none. -/
theorem readi_overflow :
    ¬∀ (d : Disk) (inum : Nat) (ip : Dinode) (dst : Nat → Bool) (off n : Nat),
      Good d inum ip → inum < d.sb.ninodes → (Call.read dst off n).Copies →
      ∀ r l ip' d', readi d ip dst off n = .ok (r, l, ip', d') →
        l = (d.view inum ip).fileBytes inum off (min (off + n) ip.size - off) := by
  intro h
  have hl := h Disk.blank 1 twoBytes kernelDst 1 (2 ^ 32 - 1) good_twoBytes (by decide)
    ⟨by decide, by decide, fun _ _ => rfl⟩ 0 [] twoBytes Disk.blank rfl
  exact absurd (congrArg List.length hl) (by rw [length_fileBytes]; decide)

def twoCalls : List Call := [.write (kernelSrc [104, 105]) 1 2, .read kernelDst 0 8]

theorem execAll_array_twoBytes : ∃ rs d' ip',
    execAll 1 twoCalls (Disk.begun, twoBytes) = .ok (rs, d', ip') ∧
      onArrayAll twoCalls (fileOf Disk.begun 1 twoBytes) = (rs, fileOf d' 1 ip') := by
  have hcopies : ∀ x ∈ twoCalls, x.Copies := by
    simp only [twoCalls, forall_mem_cons, not_mem_nil, false_implies, implies_true,
      and_true]
    exact ⟨⟨by decide, by decide, fun _ _ => nofun⟩, by decide, by decide, fun _ _ => rfl⟩
  have hg : Good Disk.begun 1 twoBytes := good_twoBytes.setLog Disk.begun.log ∅
  have hrun := execAll_array hg (by decide) twoCalls hcopies
  have hok : (execAll 1 twoCalls (Disk.begun, twoBytes)).isOk = true := by decide +kernel
  -- from here on the outcome is opaque, so that nothing evaluates the run again
  generalize execAll 1 twoCalls (Disk.begun, twoBytes) = out at hrun hok ⊢
  cases out with
  | error e => cases hok
  | ok out =>
    obtain ⟨rs, d', ip'⟩ := out
    exact ⟨rs, d', ip', rfl, hrun.2.1⟩

end Xv6.Fs
