/-
A user copy that fails in the middle of `writei`.  What it had copied before stays in the buffer,
which is released without `log_write`.
-/
import Xv6.Fs.Fileread
import Xv6.Fs.Journal

namespace Xv6.Fs

open Bytes Option

variable {d : Disk} {bn tot : Nat}

/-- How many of the first `n` bytes of the source can be read. -/
def readableLen (src : Nat → Option UInt8) (n : Nat) : Nat := (fetch src 0 n).length

theorem readable_readableLen (src : Nat → Option UInt8) (n : Nat) :
    Readable src n (readableLen src n) := by
  refine ⟨length_fetch_le src 0 n, fun k hk => ?_, fun h => ?_⟩
  · have hget := getElem?_fetch src (k := 0) hk
    rw [List.getElem?_eq_getElem hk, Nat.zero_add] at hget
    rw [← hget]
    exact some_ne_none _
  · have := fetch_stops src h
    rwa [Nat.zero_add] at this

/-- Where the chunk begins in which a copy of `w` bytes to offset `off` stops. -/
def faultStart (off w : Nat) : Nat := max off ((off + w) / bsize * bsize)

variable {d' : Disk} {b inum off n w : Nat} {ip ip' : Dinode} {S : Finset Nat}
  {src : Nat → Option UInt8} {home : Nat → Block}

/-- Every buffer whose block is not in the log is as on the disk. -/
def Clean (home : Nat → Block) (d : Disk) : Prop :=
  ∀ x, x ∉ d.log.lh.blocks → d.blocks x = home x

theorem Clean.logs (h : Clean home d) (hl : Logs d d' S) : Clean home d' := by
  intro x hx
  rw [hl.lh, not_or] at hx
  rw [hl.same x hx.2]
  exact h x hx.1

theorem Touched.mem (h : Touched d ip ip' b S) : (S = ∅ ∧ ip' = ip) ∨ b ∈ S := by
  cases h with
  | none he => exact .inl ⟨rfl, he⟩
  | direct => exact .inr (by simp)
  | entry => exact .inr (by simp)
  | both => exact .inr (by simp)

theorem Touched.spares {d₁ : Disk} (hg : Good d inum ip) {k : Nat}
    (hb : bmap d ip bn = .ok (b, ip', d₁)) (h : Touched d ip ip' b S)
    (hk : k ≠ ndirect ∧ k ≠ Volume.slot bn) (hx : (d.view inum ip).place inum k ≠ 0) :
    (d.view inum ip).place inum k ∉ S ∪ {b} := by
  have hdata := hg.excl.data inum k hx
  have hused : ∀ y, d.Free y → (d.view inum ip).place inum k ≠ y := fun y hy =>
    hg.excl.place_ne hy.1 hy.2 inum k
  have hbit : ∀ y, d.Free y → (d.view inum ip).place inum k ≠ d.sb.bblock y := fun y hy e => by
    have hlt := hg.wf.bits y hy.1.2
    have hlo : d.sb.datastart ≤ (d.view inum ip).place inum k := hdata.1
    omega
  have hind : ip.addrs ndirect ≠ 0 → (d.view inum ip).place inum k ≠ ip.addrs ndirect :=
    fun h0 e => by
      rw [← hg.place_le le_rfl] at e
      exact hk.1 (hg.excl.inj inum k inum ndirect hx e).2
  have hself : (d.view inum ip).place inum k ≠ b := fun e => by
    obtain ⟨hgrown, hfile, -⟩ := bmap_spec hg hb
    have hgrow := hgrown.ext.grows inum k hx
    rw [← e, ← hgrow] at hfile
    exact hk.2 (hgrown.good.excl.inj inum k inum (Volume.slot bn) (by rwa [hgrow])
      hfile.symm).2
  cases h with
  | none => simpa using hself
  | direct _ hfree => simp [hself, hbit b hfree]
  | entry he h0 hfree =>
    subst he
    simp [hself, hbit b hfree, hind h0]
  | both i _ _ _ hfi hfree => simp [hself, hbit b hfree, hused i hfi, hbit i hfi]

/-- What a copy that fails leaves: all but the block of the chunk in which it stopped is as on the
disk or in the log, and that block is in the log if it was before or if it is new. -/
structure Faulted (home : Nat → Block) (d d' : Disk) (inum : Nat) (ip ip' : Dinode)
    (bn : Nat) : Prop where
  ne : (d'.view inum ip').fileBlock inum bn ≠ 0
  rest : ∀ x, x ∉ d'.log.lh.blocks → x ≠ (d'.view inum ip').fileBlock inum bn →
    d'.blocks x = home x
  logged : (d'.view inum ip').fileBlock inum bn ∉ d'.log.lh.blocks ↔
    (d.view inum ip).fileBlock inum bn ≠ 0 ∧
      (d.view inum ip).fileBlock inum bn ∉ d.log.lh.blocks

theorem place_copied (hg : Good d inum ip)
    (hfile : (d.view inum ip).fileBlock inum ((off + tot) / bsize) = b) (hb : b ≠ 0) (i k : Nat) :
    ((copied d b src off n tot).view inum ip).place i k = (d.view inum ip).place i k := by
  have hp : (d.view inum ip).fileBlock inum ((off + tot) / bsize) ≠ 0 := by rwa [hfile]
  rw [copied, hg.view_store hfile hb]
  exact hg.excl.place_setBlock hp _ i k

theorem faulted_round (hg : Good d inum ip) (hclean : Clean home d) {d₁ : Disk}
    (hb : bmap d ip ((off + tot) / bsize) = .ok (b, ip', d₁)) (hlogs : Logs d d₁ S)
    (htouch : Touched d ip ip' b S) (hsame : S = ∅ → d₁ = d) :
    Faulted home d (copied d₁ b src off n tot) inum ip ip' ((off + tot) / bsize) := by
  obtain ⟨hgrown, hfile, hb0⟩ := bmap_spec hg hb
  have hplace : ((copied d₁ b src off n tot).view inum ip').fileBlock inum
      ((off + tot) / bsize) = b := (place_copied hgrown.good hfile hb0 inum _).trans hfile
  refine ⟨by rwa [hplace], fun x hx hne => ?_, ?_⟩
  · rw [hplace] at hne
    exact (setBlock_ne _ hne).trans (hclean.logs hlogs x hx)
  · rw [hplace]
    by_cases h0 : (d.view inum ip).fileBlock inum ((off + tot) / bsize) = 0
    · -- the block is new
      have hmem : b ∈ S := htouch.mem.resolve_left fun ⟨he, hip⟩ => by
        rw [hsame he, hip, h0] at hfile
        exact hb0 hfile.symm
      exact iff_of_false (not_not_intro ((hlogs.lh b).2 (.inr hmem))) fun h => h.1 h0
    · obtain ⟨rfl, rfl⟩ := htouch.eq_none hg h0 hb
      obtain rfl := hsame rfl
      rw [hfile]
      exact ⟨fun h => ⟨hb0, h⟩, fun h => h.2⟩

theorem Faulted.round (hg : Good d inum ip) {ip₁ : Dinode} {d₁ : Disk}
    (hb : bmap d ip ((off + tot) / bsize) = .ok (b, ip₁, d₁))
    (htouch : Touched d ip ip₁ b S)
    (hlogs : Logs d ((copied d₁ b src off n tot).record b) (S ∪ {b}))
    (hbn : bn ≠ (off + tot) / bsize)
    (h : Faulted home ((copied d₁ b src off n tot).record b) d' inum ip₁ ip' bn) :
    Faulted home d d' inum ip ip' bn := by
  obtain ⟨hgrown, hfile, hb0⟩ := bmap_spec hg hb
  have hslot : Volume.slot bn ≠ Volume.slot ((off + tot) / bsize) := fun e =>
    hbn (Volume.slot_inj e)
  have hplace : (((copied d₁ b src off n tot).record b).view inum ip₁).fileBlock inum bn =
      (d.view inum ip).fileBlock inum bn :=
    (place_copied hgrown.good hfile hb0 inum _).trans
      (bmap_place hg hb (.inr ⟨hslot, Volume.slot_ne bn⟩))
  refine ⟨h.ne, h.rest, ?_⟩
  rw [h.logged, hplace, hlogs.lh, not_or]
  refine and_congr_right fun h0 => and_iff_left ?_
  exact htouch.spares hg hb ⟨Volume.slot_ne bn, hslot⟩ h0

theorem faultStart_eq (hal : tot = 0 ∨ (off + tot) % bsize = 0) (hle : tot ≤ w)
    (hlt : (off + tot) % bsize + (w - tot) < bsize) : off + tot = faultStart off w := by
  have hbs : 0 < bsize := by decide
  have hdiv : (off + w) / bsize = (off + tot) / bsize := by
    have hp := Nat.div_add_mod (off + tot) bsize
    rw [Nat.div_eq_iff hbs]
    rw [Nat.mul_comm] at hp
    omega
  have hp := Nat.div_add_mod (off + tot) bsize
  rw [faultStart, hdiv, Nat.mul_comm]
  obtain rfl | hal := hal
  · rw [max_eq_left (by omega), Nat.add_zero]
  · rw [max_eq_right (by omega)]
    omega

theorem le_faultStart {x : Nat} (hal : x % bsize = 0) (hle : x ≤ off + w) :
    x ≤ faultStart off w := by
  have hx := Nat.div_add_mod x bsize
  have hmono : x / bsize * bsize ≤ (off + w) / bsize * bsize :=
    Nat.mul_le_mul_right _ (Nat.div_le_div_right hle)
  rw [Nat.mul_comm] at hx
  exact le_trans (by omega) (le_max_right off _)

theorem writeLoop_fault (hw : Readable src n w) (hwn : w < n) {k tot' : Nat}
    (hg : Good d inum ip) (hclean : Clean home d) (hk : n ≤ tot + k) (htot : tot ≤ w)
    (hal : tot = 0 ∨ (off + tot) % bsize = 0)
    (h : writeLoop src off n k d ip tot = .ok (tot', ip', d')) :
    off + tot' = faultStart off w ∧ Faulted home d d' inum ip ip' ((off + tot') / bsize) := by
  have hbs : 0 < bsize := by decide
  induction k generalizing d ip tot with
  | zero => omega
  | succ k ih =>
    obtain ⟨b, ip₁, d₁, S, hb, hlogs, htouch, hsame, hcase⟩ :=
      writeLoop_round hg.wf (show tot < n by omega) h
    have hmod := Nat.mod_lt (off + tot) hbs
    have hchunk : chunk off n tot ≤ n - tot ∧ chunk off n tot ≤ bsize - (off + tot) % bsize :=
      ⟨Nat.min_le_left .., Nat.min_le_right ..⟩
    obtain ⟨hle, hstop⟩ := hw.fetch htot (show tot + chunk off n tot ≤ n by omega)
    obtain ⟨hfail, rfl, rfl, rfl⟩ | ⟨he, hlogs₂, hloop⟩ := hcase
    · have hend := hstop hfail
      exact ⟨faultStart_eq hal htot (by omega), faulted_round hg hclean hb hlogs htouch hsame⟩
    · have hpos : 0 < chunk off n tot := by
        unfold chunk
        omega
      have halign : (off + (tot + chunk off n tot)) % bsize = 0 := chunk_aligned (by omega)
      obtain ⟨hstart, hfault⟩ := ih (good_copied hg hb) (hclean.logs hlogs₂) (by omega)
        (by omega) (.inr halign) hloop
      refine ⟨hstart, hfault.round hg hb htouch hlogs₂ fun e => ?_⟩
      -- the fault is in a later block
      have hlater : off + (tot + chunk off n tot) ≤ off + tot' := by
        rw [hstart]
        exact le_faultStart halign (by omega)
      have hp := Nat.div_add_mod (off + tot) bsize
      have hp' := Nat.div_add_mod (off + tot') bsize
      have hmod' := Nat.mod_lt (off + tot') hbs
      have hfull : chunk off n tot = bsize - (off + tot) % bsize := by
        have hlt : chunk off n tot < n - tot := by omega
        unfold chunk at hlt ⊢
        omega
      rw [e] at hp'
      omega

/-! ## When nothing is left behind -/

/-- A call that returned `r < n` has replaced the first `r` bytes of the range and nothing else of
the file, and the buffers that are not in the log are as on the disk. -/
def NoTrace (home : Nat → Block) (d d' : Disk) (inum : Nat) (ip ip' : Dinode)
    (src : Nat → Option UInt8) (off n : Nat) (r : Int) : Prop :=
  r < n →
    fileOf d' inum ip' = (fileOf d inum ip).take off ++ bytesOf src r.toNat ++
        (fileOf d inum ip).drop (off + r.toNat) ∧
      Clean home d'

/-- The condition: `writei` refuses, all of the source can be read, or the bytes that are copied
before the fault into the block in which it comes are those the file has there, at least where the
file has bytes and where the block is neither in the log nor new. -/
def FaultHarmless (d : Disk) (inum : Nat) (ip : Dinode) (src : Nat → Option UInt8)
    (off n : Nat) : Prop :=
  ¬Accepts ip off n ∨ readableLen src n = n ∨
    ∀ o, faultStart off (readableLen src n) ≤ o → o < off + readableLen src n →
      (o < ip.size ∨ (d.view inum ip).fileBlock inum (o / bsize) ≠ 0 ∧
        (d.view inum ip).fileBlock inum (o / bsize) ∉ d.log.lh.blocks) →
      src (o - off) = some ((d.view inum ip).content inum o)

theorem div_of_faultStart {o : Nat} (hlo : faultStart off w ≤ o) (hhi : o < off + w) :
    o / bsize = faultStart off w / bsize := by
  have hbs : 0 < bsize := by decide
  have hstart : (off + w) / bsize * bsize ≤ faultStart off w := le_max_right ..
  have hle := Nat.div_add_mod (off + w) bsize
  have hmod := Nat.mod_lt (off + w) hbs
  rw [Nat.mul_comm] at hle
  rw [(Nat.div_eq_iff hbs).2 (show _ ∧ _ from ⟨by omega, by omega⟩ :
      (off + w) / bsize * bsize ≤ o ∧ o ≤ (off + w) / bsize * bsize + bsize - 1),
    (Nat.div_eq_iff hbs).2 (show _ ∧ _ from ⟨by omega, by omega⟩ :
      (off + w) / bsize * bsize ≤ faultStart off w ∧
        faultStart off w ≤ (off + w) / bsize * bsize + bsize - 1)]

/-- All that is known after a `writei` in which the copy failed. -/
structure AfterFault (home : Nat → Block) (d d' : Disk) (inum : Nat) (ip ip' : Dinode)
    (src : Nat → Option UInt8) (off w tot : Nat) : Prop where
  start : off + tot = faultStart off w
  le : tot ≤ w
  good : Good d' inum ip'
  size : ip'.size = max ip.size (off + tot)
  content : ∀ o, (d'.view inum ip').content inum o =
    (span src off w o).getD ((d.view inum ip).content inum o)
  grows : ∀ bn, (d.view inum ip).fileBlock inum bn ≠ 0 →
    (d'.view inum ip').fileBlock inum bn = (d.view inum ip).fileBlock inum bn
  fault : Faulted home d d' inum ip ip' ((off + tot) / bsize)

theorem writei_afterFault (hg : Good d inum ip) (hi : inum < d.sb.ninodes)
    (hclean : Clean home d) (ha : Accepts ip off n) (hw : Readable src n w) (hwn : w < n) {r : Int}
    (h : writei d inum ip src off n = .ok (r, ip', d')) :
    ∃ tot : Nat, r = tot ∧ AfterFault home d d' inum ip ip' src off w tot := by
  obtain ⟨hna, -⟩ | ⟨-, tot, ip₁, d₁, rfl, hloop, hip, hd⟩ := writei_cases h
  · exact absurd ha hna
  obtain ⟨hna, -⟩ | ⟨-, tot', w', hr, hread, hle, -, hfields, hgood, hinode, hsb, hwrote,
      hover⟩ := writei_spec hg hi h
  · exact absurd ha hna
  obtain rfl : tot = tot' := by omega
  obtain rfl := hw.unique hread
  obtain ⟨hstart, hfault⟩ := writeLoop_fault hw hwn hg hclean (by omega) (Nat.zero_le w)
    (.inl rfl) hloop
  obtain ⟨_, -, -, -, hwr, -⟩ := writeLoop_result hg hloop
  have hlogs : Logs d₁ d' {d₁.sb.iblock inum} := hd ▸ logs_record ..
  have hsize : ip'.size = max ip.size (off + tot) := by rw [hfields]
  have hplace : ∀ bn, (d'.view inum ip').fileBlock inum bn =
      (d₁.view inum ip₁).fileBlock inum bn := fun bn => by
    have hs : max ip₁.size (off + tot) < 2 ^ 32 := by
      have := hgood.fits.size
      rw [hip] at this
      exact this
    have hvol : d'.volume = (d₁.setDinode inum ip').volume := by
      rw [hd]
      rfl
    rw [Disk.view_eq hinode, hvol, hip, hwr.good.volume_setSize (hwr.sb ▸ hi) hs]
    exact Volume.place_setSize ..
  refine ⟨tot, rfl, hstart, hle, hgood, hsize, fun o => ?_, fun bn hbn => ?_, ?_, fun x hx hne => ?_, ?_⟩
  · have := hover inum o
    rw [if_pos rfl] at this
    rw [Disk.view_eq hinode, this]
  · rw [Disk.view_eq hinode]
    exact hwrote.grows inum _ hbn
  · rw [hplace]
    exact hfault.ne
  · rw [hlogs.lh, not_or] at hx
    rw [hlogs.same x hx.2]
    exact hfault.rest x hx.1 (hplace _ ▸ hne)
  · have hib : (d₁.view inum ip₁).fileBlock inum ((off + tot) / bsize) ≠
        d₁.sb.iblock inum := fun e => by
      have hlt := hwr.good.wf.iblock_lt (hwr.sb ▸ hi)
      have hlo : d₁.sb.datastart ≤
          (d₁.view inum ip₁).fileBlock inum ((off + tot) / bsize) :=
        (hwr.good.excl.data inum _ hfault.ne).1
      omega
    rw [← hfault.logged, hplace, hlogs.lh, not_or, Finset.mem_singleton]
    exact and_iff_left hib

theorem AfterFault.fileOf_iff (h : AfterFault home d d' inum ip ip' src off w tot)
    (hoff : off ≤ ip.size) (hsome : ∀ k, k < w → src k ≠ none) :
    fileOf d' inum ip' = (fileOf d inum ip).take off ++ bytesOf src tot ++
        (fileOf d inum ip).drop (off + tot) ↔
      ∀ o, off + tot ≤ o → o < off + w → o < ip.size →
        src (o - off) = some ((d.view inum ip).content inum o) := by
  have hle := h.le
  have hlen : (bytesOf src tot).length = tot := by simp [bytesOf]
  have hsplice := fun k => Listing.getElem?_splice (f := fileOf d inum ip)
    (l := bytesOf src tot) (o := off) (by rw [length_fileOf]; exact hoff) k
  rw [hlen] at hsplice
  have hget : ∀ k, (fileOf d' inum ip')[k]? = if k < max ip.size (off + tot) then
      some ((span src off w k).getD ((d.view inum ip).content inum k)) else none := fun k => by
    rw [fileOf, Volume.getElem?_fileBytes, h.size, Nat.zero_add, h.content]
  have hold : ∀ k, (fileOf d inum ip)[k]? =
      if k < ip.size then some ((d.view inum ip).content inum k) else none := fun k => by
    rw [fileOf, Volume.getElem?_fileBytes, Nat.zero_add]
  constructor
  · intro heq o hlo hhi hsize
    have hk := hget o
    rw [heq, hsplice, if_neg (by omega), hold, if_pos hsize, if_pos (by omega), span,
      if_pos (by omega)] at hk
    obtain ⟨x, hx⟩ := ne_none_iff_exists'.1 (hsome (o - off) (by omega))
    rw [hx] at hk ⊢
    exact hk.symm
  · intro hsame
    refine List.ext_getElem? fun k => ?_
    rw [hget, hsplice]
    by_cases hin : off ≤ k ∧ k < off + tot
    · obtain ⟨x, hx⟩ := ne_none_iff_exists'.1 (hsome (k - off) (by omega))
      have hidx : k - off < tot := by omega
      rw [if_pos (by omega), if_pos hin, span, if_pos (by omega), bytesOf, List.getElem?_map,
        List.getElem?_range hidx, map_some, hx]
      rfl
    · rw [if_neg hin, hold]
      by_cases hsize : k < ip.size
      · rw [if_pos (by omega), if_pos hsize, span]
        by_cases hlate : off ≤ k ∧ k < off + w
        · rw [if_pos hlate, hsame k (by omega) hlate.2 hsize]
          rfl
        · rw [if_neg hlate]
          rfl
      · rw [if_neg (by omega), if_neg hsize]

theorem content_of_fileBlock (hg : Good d inum ip) {o : Nat} (ho : o / bsize = bn)
    (hb : (d.view inum ip).fileBlock inum bn = b) (hb0 : b ≠ 0) :
    (d.view inum ip).content inum o = byteAt (d.blocks b) (o % bsize) := by
  have hdata : d.volume.Data b := hb ▸ hg.excl.data inum _ (by rw [← Volume.fileBlock, hb]; exact hb0)
  rw [Volume.content, ho, hb, Disk.view_block, d.volume_block hdata]

theorem blocks_eq_iff {d' : Disk} (hg : Good d inum ip) (hg' : Good d' inum ip')
    (hb : (d.view inum ip).fileBlock inum bn = b) (hb' : (d'.view inum ip').fileBlock inum bn = b)
    (hb0 : b ≠ 0) : d'.blocks b = d.blocks b ↔
      ∀ o, o / bsize = bn → (d'.view inum ip').content inum o = (d.view inum ip).content inum o := by
  have hbs : 0 < bsize := by decide
  constructor
  · intro heq o ho
    rw [content_of_fileBlock hg' ho hb' hb0, content_of_fileBlock hg ho hb hb0, heq]
  · intro hall
    funext x
    have hdiv : (bn * bsize + x.val) / bsize = bn := by
      rw [Nat.mul_comm, Nat.mul_add_div hbs, Nat.div_eq_of_lt x.isLt, Nat.add_zero]
    have hmod : (bn * bsize + x.val) % bsize = x.val := by
      rw [Nat.mul_comm, Nat.mul_add_mod, Nat.mod_eq_of_lt x.isLt]
    have := hall _ hdiv
    rwa [content_of_fileBlock hg' hdiv hb' hb0, content_of_fileBlock hg hdiv hb hb0, hmod,
      byteAt_eq _ x.isLt, byteAt_eq _ x.isLt] at this

theorem AfterFault.clean_iff (h : AfterFault home d d' inum ip ip' src off w tot)
    (hg : Good d inum ip) (hclean : Clean home d) (hsome : ∀ k, k < w → src k ≠ none) :
    Clean home d' ↔
      ((d.view inum ip).fileBlock inum ((off + tot) / bsize) ≠ 0 ∧
          (d.view inum ip).fileBlock inum ((off + tot) / bsize) ∉ d.log.lh.blocks →
        ∀ o, off + tot ≤ o → o < off + w →
          src (o - off) = some ((d.view inum ip).content inum o)) := by
  constructor
  · intro hclean' hold o hlo hhi
    have hgrows := h.grows _ hold.1
    have hsame : d'.blocks _ = d.blocks _ :=
      (hclean' _ (hgrows ▸ h.fault.logged.2 hold)).trans (hclean _ hold.2).symm
    have hdiv : o / bsize = (off + tot) / bsize := by
      rw [h.start]
      exact div_of_faultStart (h.start ▸ hlo) hhi
    have hcontent := (blocks_eq_iff hg h.good rfl hgrows hold.1).1 hsame o hdiv
    obtain ⟨x, hx⟩ := ne_none_iff_exists'.1 (hsome (o - off) (by omega))
    rw [h.content, span, if_pos (by omega), hx] at hcontent
    rw [hx]
    exact congrArg some hcontent
  · intro hcopied x hx
    by_cases hne : x = (d'.view inum ip').fileBlock inum ((off + tot) / bsize)
    · have hold := h.fault.logged.1 (hne ▸ hx)
      have hgrows := h.grows _ hold.1
      rw [hne, hgrows, ← hclean _ hold.2]
      refine (blocks_eq_iff hg h.good rfl hgrows hold.1).2 fun o ho => ?_
      rw [h.content, span]
      by_cases hin : off ≤ o ∧ o < off + w
      · have hlo : off + tot ≤ o := by
          -- the chunk begins with its block unless it is the first
          by_contra hlt
          have hstart : off + tot = (off + w) / bsize * bsize := by
            rw [h.start, faultStart] at hlt ⊢
            obtain hc | hc := max_choice off ((off + w) / bsize * bsize)
            · rw [hc] at hlt
              omega
            · exact hc
          have hle := Nat.div_mul_le_self o bsize
          rw [ho, hstart, Nat.mul_div_cancel _ (show 0 < bsize by decide), ← hstart] at hle
          exact hlt hle
        rw [if_pos hin, hcopied hold o hlo hin.2]
        rfl
      · rw [if_neg hin]
        rfl
    · exact h.fault.rest x hx hne

/-- A failed copy leaves no trace just under the condition above. -/
theorem noTrace_iff (hg : Good d inum ip) (hi : inum < d.sb.ninodes)
    (hclean : Clean home d) {r : Int} (h : writei d inum ip src off n = .ok (r, ip', d')) :
    NoTrace home d d' inum ip ip' src off n r ↔ FaultHarmless d inum ip src off n := by
  have hread := readable_readableLen src n
  by_cases ha : Accepts ip off n
  · rcases Nat.lt_or_ge (readableLen src n) n with hwn | hge
    · obtain ⟨tot, rfl, hafter⟩ := writei_afterFault hg hi hclean ha hread hwn h
      have hle := hafter.le
      have hlt : ((tot : Nat) : Int) < n := by omega
      have hnt : NoTrace home d d' inum ip ip' src off n tot ↔ _ ∧ _ :=
        ⟨fun hno => hno hlt, fun hno _ => hno⟩
      rw [hnt, Int.toNat_natCast, hafter.fileOf_iff ha.1 hread.some,
        hafter.clean_iff hg hclean hread.some]
      have hdiv : ∀ o, off + tot ≤ o → o < off + readableLen src n →
          o / bsize = (off + tot) / bsize := fun o hlo hhi => by
        rw [hafter.start] at hlo ⊢
        exact div_of_faultStart hlo hhi
      constructor
      · rintro ⟨hbytes, hblock⟩
        refine .inr (.inr fun o hlo hhi hor => ?_)
        rw [← hafter.start] at hlo
        obtain hsize | hold := hor
        · exact hbytes o hlo hhi hsize
        · rw [hdiv o hlo hhi] at hold
          exact hblock hold o hlo hhi
      · intro hharmless
        have hall := (hharmless.resolve_left (not_not_intro ha)).resolve_left (by omega)
        rw [← hafter.start] at hall
        refine ⟨fun o hlo hhi hsize => hall o hlo hhi (.inl hsize), fun hold o hlo hhi => ?_⟩
        exact hall o hlo hhi (.inr (by rwa [hdiv o hlo hhi]))
    · -- all of the source can be read, so the call returns `n`
      have hw : readableLen src n = n := by
        have := hread.le
        omega
      obtain ⟨hna, -⟩ | ⟨-, tot, w, rfl, hread', -, htot, -⟩ :=
        writei_spec hg hi h
      · exact absurd ha hna
      · have htotn := htot ((hread'.unique hread).trans hw)
        exact iff_of_true (fun hlt => absurd hlt (by omega)) (.inr (.inl hw))
  · obtain ⟨-, rfl, rfl, rfl⟩ | ⟨ha', -⟩ := writei_cases h
    · refine iff_of_true (fun _ => ⟨?_, hclean⟩) (.inl ha)
      simp [bytesOf]
    · exact absurd ha' ha

/-- The file of two bytes in a transaction whose log is empty, and a source of which the first byte
can be read and the second cannot. -/
def shortDisk : Disk := { shortFile.1 with log := Disk.begun.log, wrote := ∅ }

def oneByte : Nat → Option UInt8 := fun k => if k = 0 then some 120 else none

/-- The call returns 0, but the first byte of the file has changed, and so has its block, which is
not in the log. -/
theorem writei_leaves_trace : ∃ ip' d', writei shortDisk 1 shortFile.2 oneByte 0 2 =
      .ok (0, ip', d') ∧ fileOf shortDisk 1 shortFile.2 = [104, 105] ∧
    fileOf d' 1 ip' = [120, 105] ∧ 46 ∉ d'.log.lh.blocks ∧
    d'.blocks 46 ≠ shortDisk.blocks 46 ∧
    ¬NoTrace shortDisk.blocks shortDisk d' 1 shortFile.2 ip' oneByte 0 2 0 := by
  have hold : fileOf shortDisk 1 shortFile.2 = [104, 105] := by decide +kernel
  have hrun : (writei shortDisk 1 shortFile.2 oneByte 0 2).toOption.any (fun x =>
      decide (x.1 = 0 ∧ fileOf x.2.2 1 x.2.1 = [120, 105] ∧ 46 ∉ x.2.2.log.lh.blocks ∧
        byteAt (x.2.2.blocks 46) 0 ≠ byteAt (shortDisk.blocks 46) 0)) = true := by decide +kernel
  generalize writei shortDisk 1 shortFile.2 oneByte 0 2 = out at hrun ⊢
  cases out with
  | error _ => cases hrun
  | ok x =>
    obtain ⟨r, ip', d'⟩ := x
    obtain ⟨rfl, hnew, hlog, hbyte⟩ := of_decide_eq_true hrun
    refine ⟨ip', d', rfl, hold, hnew, hlog, fun he => hbyte (by rw [he]), fun hno => ?_⟩
    have hsame := (hno (by decide)).1
    rw [hnew, hold] at hsame
    exact absurd hsame (by decide)

theorem noTrace_iff_short : ∃ r ip' d', writei shortDisk 1 shortFile.2 oneByte 0 2 =
      .ok (r, ip', d') ∧
    (NoTrace shortDisk.blocks shortDisk d' 1 shortFile.2 ip' oneByte 0 2 r ↔
      FaultHarmless shortDisk 1 shortFile.2 oneByte 0 2) := by
  have hg : Good shortDisk 1 shortFile.2 := good_shortFile.setLog _ _
  have hi : 1 < shortDisk.sb.ninodes := by decide +kernel
  have hiff : ∀ r ip' d', writei shortDisk 1 shortFile.2 oneByte 0 2 = .ok (r, ip', d') →
      (NoTrace shortDisk.blocks shortDisk d' 1 shortFile.2 ip' oneByte 0 2 r ↔
        FaultHarmless shortDisk 1 shortFile.2 oneByte 0 2) := fun _ _ _ h =>
    noTrace_iff hg hi (fun _ _ => rfl) h
  have hok : (writei shortDisk 1 shortFile.2 oneByte 0 2).isOk = true := by decide +kernel
  generalize writei shortDisk 1 shortFile.2 oneByte 0 2 = out at hiff hok ⊢
  match out, hok with
  | .ok (r, ip', d'), _ => exact ⟨r, ip', d', rfl, hiff r ip' d' rfl⟩

end Xv6.Fs
