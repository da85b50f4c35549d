/-
The log space of `filewrite`: between `begin_op` and `end_op` it gives `log_write` at most
MAXOPBLOCKS different blocks.

Each chunk of at most three blocks of data costs two blocks for each block of the file it touches,
the new block and its block of the free map, and two for the indirect block and its block of the
free map.  A chunk that is not aligned touches four blocks, but the first of them is there.
-/
import Xv6.Fs.Journal
import Xv6.Fs.Shared

namespace Xv6

open List
namespace Fs

def Solid (d : Disk) (inum : Nat) (ip : Dinode) : Prop :=
  ∀ bn, bn * bsize < ip.size → (d.view inum ip).fileBlock inum bn ≠ 0

variable {d d' : Disk} {b inum off n : Nat} {ip ip' : Dinode} {S T W : Finset Nat}

/-- What is still to be paid for the indirect block. -/
def slack (ip : Dinode) (W : Finset Nat) : Nat :=
  if ip.addrs ndirect ≠ 0 ∧ ip.addrs ndirect ∈ W then 0 else 2

theorem slack_union (ip : Dinode) (W T : Finset Nat) : slack ip (W ∪ T) ≤ slack ip W := by
  unfold slack
  by_cases hW : ip.addrs ndirect ≠ 0 ∧ ip.addrs ndirect ∈ W
  · rw [if_pos hW, if_pos ⟨hW.1, Finset.mem_union_left T hW.2⟩]
  · rw [if_neg hW]
    split <;> omega

theorem slack_of_mem (h0 : ip.addrs ndirect ≠ 0) (h : ip.addrs ndirect ∈ W) : slack ip W = 0 :=
  if_pos ⟨h0, h⟩

theorem slack_le (ip : Dinode) (W : Finset Nat) : slack ip W ≤ 2 := by
  unfold slack
  split <;> omega

theorem cost_none (ip : Dinode) (W : Finset Nat) (hT : T ⊆ {b}) :
    (W ∪ T).card + slack ip (W ∪ T) ≤ W.card + slack ip W + 1 := by
  have hcard : (W ∪ T).card ≤ W.card + 1 := by
    calc (W ∪ T).card ≤ W.card + T.card := Finset.card_union_le ..
      _ ≤ W.card + 1 := by
          have := Finset.card_le_card hT
          rw [Finset.card_singleton] at this
          omega
  have := slack_union ip W T
  omega

/-- A round that maps a block and logs it, or does not come to log it, costs two blocks, counting
the indirect block and its block of the free map as paid in advance. -/
theorem Touched.cost {d : Disk} (h : Touched d ip ip' b S) (hS : S ⊆ T) (hT : T ⊆ S ∪ {b})
    (W : Finset Nat) : (W ∪ T).card + slack ip' (W ∪ T) ≤ W.card + slack ip W + 2 := by
  have hcard : ∀ l : List Nat, (∀ x ∈ T, x ∈ W ∨ x ∈ l) → (W ∪ T).card ≤ W.card + l.length := by
    intro l hl
    have hsub : W ∪ T ⊆ W ∪ l.toFinset := by
      intro x hx
      rw [Finset.mem_union, mem_toFinset]
      exact (Finset.mem_union.1 hx).elim .inl (hl x)
    calc (W ∪ T).card ≤ (W ∪ l.toFinset).card := Finset.card_le_card hsub
      _ ≤ W.card + l.toFinset.card := Finset.card_union_le ..
      _ ≤ W.card + l.length := Nat.add_le_add_left l.toFinset_card_le _
  have hmem : ∀ x ∈ T, x ∈ S ∨ x = b := fun x hx =>
    (Finset.mem_union.1 (hT hx)).imp_right Finset.mem_singleton.1
  cases h with
  | none he =>
    subst he
    have := cost_none ip' W (by simpa using hT)
    omega
  | direct hind hfree =>
    have hle := hcard [d.sb.bblock b, b] fun x hx => by
      have := hmem x hx
      simp only [Finset.mem_insert, Finset.mem_singleton] at this
      simp only [mem_cons]
      tauto
    have hslack : slack ip' (W ∪ T) ≤ slack ip W := by
      have := slack_union ip' W T
      unfold slack at this ⊢
      rwa [hind] at this ⊢
    simp only [length_cons, length_nil] at hle
    omega
  | entry he h0 hfree =>
    subst he
    have hi : ip'.addrs ndirect ∈ W ∪ T :=
      Finset.mem_union_right _ (hS (Finset.mem_union_right _ (Finset.mem_singleton_self _)))
    rw [slack_of_mem h0 hi]
    by_cases hW : ip'.addrs ndirect ∈ W
    · have hle := hcard [d.sb.bblock b, b] fun x hx => by
        have := hmem x hx
        simp only [Finset.mem_union, Finset.mem_insert, Finset.mem_singleton] at this
        simp only [mem_cons, not_mem_nil, or_false]
        obtain (h | rfl) | h := this
        · exact .inr h
        · exact .inl hW
        · exact .inr (.inr h)
      simp only [length_cons, length_nil] at hle
      omega
    · have hle := hcard [d.sb.bblock b, b, ip'.addrs ndirect] fun x hx => by
        have := hmem x hx
        simp only [Finset.mem_union, Finset.mem_insert, Finset.mem_singleton] at this
        simp only [mem_cons]
        tauto
      have hpaid : slack ip' W = 2 := if_neg fun hc => hW hc.2
      simp only [length_cons, length_nil] at hle
      omega
  | both i h0 hi hi0 _ _ =>
    subst hi
    have hi : ip'.addrs ndirect ∈ W ∪ T := by
      refine Finset.mem_union_right _ (hS ?_)
      simp
    have hle := hcard [d.sb.bblock (ip'.addrs ndirect), ip'.addrs ndirect, d.sb.bblock b, b]
      fun x hx => by
        have := hmem x hx
        simp only [Finset.mem_union, Finset.mem_insert, Finset.mem_singleton] at this
        simp only [mem_cons]
        tauto
    have hpaid : slack ip W = 2 := if_neg fun hc => hc.1 h0
    rw [slack_of_mem hi0 hi]
    simp only [length_cons, length_nil] at hle
    omega

variable {src : Nat → Option UInt8}

theorem writeLoop_cost (hg : Good d inum ip) {k tot tot' : Nat} (q : Nat)
    (hal : tot < n → (off + tot) % bsize = 0) (hq : n ≤ tot + q * bsize)
    (h : writeLoop src off n k d ip tot = .ok (tot', ip', d')) :
    d'.wrote.card + slack ip' d'.wrote ≤ d.wrote.card + slack ip d.wrote + 2 * q := by
  induction k generalizing d ip tot q with
  | zero =>
    cases h
    omega
  | succ k ih =>
    by_cases hlt : tot < n
    · obtain ⟨q, rfl⟩ : ∃ q', q = q' + 1 := Nat.exists_eq_succ_of_ne_zero (by rintro rfl; omega)
      obtain ⟨b, ip₁, d₁, S, hb, hlogs, htouch, -, hcase⟩ := writeLoop_round hg.wf hlt h
      obtain ⟨-, -, rfl, rfl⟩ | ⟨-, hlogs₂, hloop⟩ := hcase
      · have := htouch.cost (Finset.Subset.refl S) Finset.subset_union_left d.wrote
        rw [← hlogs.wrote] at this
        exact this.trans (by omega)
      · have hcost := htouch.cost Finset.subset_union_left (Finset.Subset.refl _) d.wrote
        rw [← hlogs₂.wrote] at hcost
        have hchunk : chunk off n tot = min (n - tot) bsize := by
          rw [chunk, hal hlt, Nat.sub_zero]
        have hrest := ih (good_copied hg hb) q chunk_aligned (by rw [Nat.add_mul] at hq; omega)
          hloop
        omega
    · rw [writeLoop, if_neg hlt] at h
      cases h
      omega

theorem writei_cost (hg : Good d inum ip) (hsolid : Solid d inum ip)
    (hn : n ≤ 3 * bsize) (hwrote : d.wrote = ∅) {r : Int}
    (h : writei d inum ip src off n = .ok (r, ip', d')) : d'.wrote.card ≤ maxopblocks := by
  have hmax : maxopblocks = 10 := rfl
  have hempty : d.wrote.card + slack ip d.wrote ≤ 2 := by
    have := slack_le ip d.wrote
    rw [hwrote, Finset.card_empty] at *
    omega
  obtain ⟨-, -, -, rfl⟩ | ⟨ha, tot, ip₁, d₁, -, hloop, -, rfl⟩ := writei_cases h
  · omega
  have hinode : ((d₁.setDinode inum ip').record (d₁.sb.iblock inum)).wrote.card ≤
      d₁.wrote.card + 1 := Finset.card_insert_le ..
  suffices hcost : d₁.wrote.card + slack ip₁ d₁.wrote ≤ 9 by omega
  by_cases hal : off % bsize = 0
  · have := writeLoop_cost hg 3 (fun _ => hal) (by omega) hloop
    omega
  · -- the first block has a byte of the file before `off`
    by_cases hpos : 0 < n
    · obtain ⟨n', rfl⟩ : ∃ n', n = n' + 1 := Nat.exists_eq_succ_of_ne_zero (by omega)
      obtain ⟨b, ip₂, d₂, S, hb, hlogs₂, htouch, hsame, hcase⟩ := writeLoop_round hg.wf hpos hloop
      have hp : (d.view inum ip).fileBlock inum (off / bsize) ≠ 0 := by
        refine hsolid _ ?_
        have := Nat.div_add_mod off bsize
        have hoff := ha.1
        rw [Nat.mul_comm] at this
        omega
      obtain ⟨rfl, rfl⟩ := htouch.eq_none hg hp hb
      obtain ⟨-, -, rfl, rfl⟩ | ⟨-, hlogs₃, hrest⟩ := hcase
      · have hw₂ : (copied d₂ b src off (n' + 1) 0).wrote = d.wrote := by
          rw [hsame rfl]
          rfl
        rw [hw₂]
        omega
      · have hfirst := cost_none ip₂ d.wrote (Finset.Subset.refl {b})
        have hw₃ := hlogs₃.wrote
        rw [Finset.empty_union] at hw₃
        rw [← hw₃] at hfirst
        have := writeLoop_cost (good_copied hg hb) 3 chunk_aligned (by omega) hrest
        omega
    · obtain rfl : n = 0 := by omega
      cases hloop
      omega

theorem writei_solid (hg : Good d inum ip) (hi : inum < d.sb.ninodes)
    (hsolid : Solid d inum ip) {r : Int} (h : writei d inum ip src off n = .ok (r, ip', d')) :
    Good d' inum ip' ∧ d'.sb = d.sb ∧ Solid d' inum ip' := by
  obtain ⟨-, -, rfl, rfl⟩ | ⟨ha, tot, w, -, hread, hle, -, hfields, hgood, hinode, hsb, hwrote,
      -⟩ := writei_spec hg hi h
  · exact ⟨hg, rfl, hsolid⟩
  refine ⟨hgood, hsb, fun bn hbn => ?_⟩
  have hbs : 0 < bsize := by decide
  have hoff := ha.1
  rw [Disk.view_eq hinode]
  by_cases hold : bn * bsize < ip.size
  · have := hsolid bn hold
    rw [Volume.fileBlock] at this ⊢
    rwa [hwrote.grows inum _ this]
  · -- the block begins in what has been written
    have hsize : ip'.size = max ip.size (off + tot) := by rw [hfields]
    have hin : off ≤ bn * bsize ∧ bn * bsize < off + w := by omega
    obtain ⟨x, hx⟩ := Option.ne_none_iff_exists'.1
      (hread.some (bn * bsize - off) (by omega))
    have hput := (hwrote.put (bn * bsize) x (by rw [span, if_pos hin, hx])).1
    rwa [Nat.mul_div_cancel _ hbs] at hput

/-! ## filewrite -/

/-- The critical section of `begin_op` once there is room. -/
def beginOp (d : Disk) : Disk :=
  { d with log := { d.log with outstanding := d.log.outstanding + 1 }, wrote := ∅ }

/-- `end_op`; the last operation to leave commits, after which the log is empty. -/
def endOp (d : Disk) : Disk :=
  { d with log := { d.log with
      outstanding := d.log.outstanding - 1
      lh := if d.log.outstanding = 1 then { d.log.lh with n := 0 } else d.log.lh } }

/-- An inode, its file's offset and the disk. -/
structure Writing where
  disk : Disk
  ip : Dinode
  off : Nat

/-- The loop of `filewrite` on inode `inum`.  Before each chunk, while the inode is not locked,
other processes may change everything: `env` says what they do.  The result is the return value,
the offset and the blocks logged by each transaction. -/
def filewriteLoop (env : Nat → Writing → Writing) (inum : Nat) (src : Nat → Option UInt8) (n : Int) :
    Nat → Writing → Nat → List (Finset Nat) → Except Panic (Int × Nat × List (Finset Nat))
  | 0, s, _, l => .ok (-1, s.off, l)
  | k + 1, s, i, l =>
    if (i : Int) < n then do
      let n1 := min (n - i).toNat Shared.chunkMax
      let s := env i s
      let (r, ip, d) ← writei (beginOp s.disk) inum s.ip (fun x => src (i + x)) s.off n1
      let off := if r > 0 then s.off + r.toNat else s.off
      if r ≠ n1 then return (-1, off, l ++ [d.wrote])
      else filewriteLoop env inum src n k ⟨endOp d, ip, off⟩ (i + n1) (l ++ [d.wrote])
    else return (if (i : Int) = n then n else -1, s.off, l)

/-- Each round writes at least one byte, so `n` rounds and the last test are enough. -/
def filewrite (env : Nat → Writing → Writing) (inum : Nat) (src : Nat → Option UInt8) (n : Int)
    (s : Writing) : Except Panic (Int × Nat × List (Finset Nat)) :=
  filewriteLoop env inum src n (n.toNat + 1) s 0 []

/-- The file has no holes, and the state of the disk is consistent. -/
structure Writing.Ready (inum : Nat) (s : Writing) : Prop where
  good : Good s.disk inum s.ip
  lt : inum < s.disk.sb.ninodes
  solid : Solid s.disk inum s.ip

theorem filewriteLoop_wrote {env : Nat → Writing → Writing}
    (henv : ∀ i s, Writing.Ready inum s → Writing.Ready inum (env i s)) {N : Int} {k i : Nat}
    {s : Writing} (hs : s.Ready inum) {l l' : List (Finset Nat)} {r : Int} {off' : Nat}
    (hl : ∀ S ∈ l, S.card ≤ maxopblocks)
    (h : filewriteLoop env inum src N k s i l = .ok (r, off', l')) :
    ∀ S ∈ l', S.card ≤ maxopblocks := by
  induction k generalizing s i l with
  | zero =>
    cases h
    exact hl
  | succ k ih =>
    rw [filewriteLoop] at h
    by_cases hlt : (i : Int) < N
    · rw [if_pos hlt] at h
      obtain ⟨⟨r₁, ip₁, d₁⟩, hw, h⟩ := Run.bind_eq_ok.1 h
      dsimp only at h
      have hready := henv i s hs
      have hgood : Good (beginOp (env i s).disk) inum (env i s).ip := hready.good.setLog _ _
      have hcost := writei_cost hgood hready.solid
        (Nat.min_le_right (N - i).toNat Shared.chunkMax) rfl hw
      have hl' : ∀ S ∈ l ++ [d₁.wrote], S.card ≤ maxopblocks := fun S hS =>
        (mem_append.1 hS).elim (hl S) fun hS => by rwa [mem_singleton.1 hS]
      split at h
      · cases h
        exact hl'
      · obtain ⟨hg₁, hsb, hsolid⟩ := writei_solid hgood hready.lt hready.solid hw
        refine ih ⟨hg₁.setLog _ _, ?_, hsolid⟩ hl' h
        have hsb' : d₁.sb = (env i s).disk.sb := hsb
        exact hsb' ▸ hready.lt
    · rw [if_neg hlt] at h
      cases h
      exact hl

/-- `filewrite` keeps to the log space it has reserved: between `begin_op` and `end_op` it logs at
most MAXOPBLOCKS different blocks. -/
theorem filewrite_wrote {env : Nat → Writing → Writing}
    (henv : ∀ i s, Writing.Ready inum s → Writing.Ready inum (env i s)) {N : Int} {s : Writing}
    (hs : s.Ready inum) {l : List (Finset Nat)} {r : Int} {off' : Nat}
    (h : filewrite env inum src N s = .ok (r, off', l)) : ∀ S ∈ l, S.card ≤ maxopblocks :=
  filewriteLoop_wrote henv hs (fun _ hS => absurd hS not_mem_nil) h

def newWriting : Writing where
  disk := Disk.blank
  ip := Shared.emptyInode
  off := 0

theorem ready_newWriting : newWriting.Ready 1 :=
  ⟨good_blank Shared.fits_emptyInode (by decide) fun _ => rfl, by decide, fun _ h =>
    absurd h (Nat.not_lt_zero _)⟩

theorem filewrite_wrote_new :
    ∃ r off l, filewrite (fun _ s => s) 1 (kernelSrc [104, 105]) 2 newWriting = .ok (r, off, l) ∧
      ∀ S ∈ l, S.card ≤ maxopblocks := by
  have hall : ∀ r off l, filewrite (fun _ s => s) 1 (kernelSrc [104, 105]) 2 newWriting =
      .ok (r, off, l) → ∀ S ∈ l, S.card ≤ maxopblocks := fun r off l h =>
    filewrite_wrote (fun _ _ h => h) ready_newWriting h
  have hok : (filewrite (fun _ s => s) 1 (kernelSrc [104, 105]) 2 newWriting).isOk = true := by
    decide +kernel
  generalize filewrite (fun _ s => s) 1 (kernelSrc [104, 105]) 2 newWriting = out at hall hok ⊢
  cases out with
  | error e => cases hok
  | ok out =>
    obtain ⟨r, off, l⟩ := out
    exact ⟨r, off, l, rfl, hall r off l rfl⟩

end Fs
end Xv6
