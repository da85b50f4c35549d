/-
Which blocks the functions of `kernel/fs.c` give to `log_write`, and that they change no other.
-/
import Mathlib.Data.Finset.Card
import Xv6.Fs.Array

namespace Xv6.Fs

open Bytes Run Finset

variable {d d' : Disk} {b : Nat} {ip ip' : Dinode} {S T : Finset Nat}

/-- From `d` to `d'` the blocks `S` have been logged, and no other block has changed. -/
structure Logs (d d' : Disk) (S : Finset Nat) : Prop where
  wrote : d'.wrote = d.wrote ∪ S
  lh : ∀ x, x ∈ d'.log.lh.blocks ↔ x ∈ d.log.lh.blocks ∨ x ∈ S
  same : ∀ x, x ∉ S → d'.blocks x = d.blocks x

theorem Logs.refl (d : Disk) : Logs d d ∅ :=
  ⟨(union_empty _).symm, fun _ => by simp, fun _ _ => rfl⟩

theorem Logs.trans {d₁ d₂ d₃ : Disk} (h : Logs d₁ d₂ S) (h' : Logs d₂ d₃ T) :
    Logs d₁ d₃ (S ∪ T) := by
  refine ⟨by rw [h'.wrote, h.wrote, union_assoc], fun x => ?_, fun x hx => ?_⟩
  · rw [h'.lh, h.lh, mem_union, or_assoc]
  · rw [mem_union, not_or] at hx
    exact (h'.same x hx.2).trans (h.same x hx.1)

theorem setBlock_ne (blk : Block) {x : Nat} (h : x ≠ b) :
    (d.setBlock b blk).blocks x = d.blocks x := Function.update_of_ne h ..

theorem logs_record (d : Disk) (b : Nat) (blk : Block) :
    Logs d ((d.setBlock b blk).record b) {b} := by
  refine ⟨?_, fun x => ?_, fun x hx => ?_⟩
  · rw [union_comm, ← insert_eq]
    rfl
  · rw [mem_singleton]
    exact d.log.lh.mem_blocks_record b x
  · exact setBlock_ne blk fun e => hx (mem_singleton.2 e)

theorem balloc_logs (hw : d.Wf) (h : balloc d = .ok (b, d')) :
    Logs d d' {d.sb.bblock b, b} := by
  obtain ⟨-, -, rfl⟩ := (balloc_eq_ok hw).1 h
  rw [insert_eq]
  exact (logs_record d ..).trans (logs_record ..)

theorem bmapAddr_cases {k : Nat} (h : bmapAddr d ip k = .ok (b, ip', d')) :
    (ip.addrs k ≠ 0 ∧ ip' = ip ∧ d' = d) ∨
      (ip.addrs k = 0 ∧ ip' = ip.setAddr k b ∧ balloc d = .ok (b, d')) := by
  unfold bmapAddr at h
  split at h
  · rename_i h0
    obtain ⟨⟨b₁, d₁⟩, hb, hret⟩ := bind_eq_ok.1 h
    cases hret
    exact .inr ⟨h0, rfl, hb⟩
  · rename_i h0
    cases h
    exact .inl ⟨h0, rfl, rfl⟩

theorem bmapEntry_logs (hw : d.Wf) {ind k : Nat} (h : bmapEntry d ind k = .ok (b, d')) :
    (u32At (d.blocks ind) (4 * k) ≠ 0 ∧ d' = d) ∨
      (d.Free b ∧ Logs d d' ({d.sb.bblock b, b} ∪ {ind})) := by
  unfold bmapEntry at h
  split at h
  · obtain ⟨⟨b₁, d₁⟩, hb, h⟩ := bind_eq_ok.1 h
    obtain ⟨d₂, hlog, hret⟩ := bind_eq_ok.1 h
    cases hret
    obtain ⟨-, rfl⟩ := logWrite_eq_ok.1 hlog
    exact .inr ⟨(balloc_spec hw hb).1, (balloc_logs hw hb).trans (logs_record ..)⟩
  · rename_i h0
    cases h
    exact .inl ⟨h0, rfl⟩

/-- The blocks that `bmap` logs, by what it has to allocate: nothing, the block, the block with an
entry in the indirect block, or the indirect block as well. -/
inductive Touched (d : Disk) (ip ip' : Dinode) (b : Nat) : Finset Nat → Prop
  | none : ip' = ip → Touched d ip ip' b ∅
  | direct : ip'.addrs ndirect = ip.addrs ndirect → d.Free b →
      Touched d ip ip' b {d.sb.bblock b, b}
  | entry : ip' = ip → ip.addrs ndirect ≠ 0 → d.Free b →
      Touched d ip ip' b ({d.sb.bblock b, b} ∪ {ip'.addrs ndirect})
  | both (i : Nat) : ip.addrs ndirect = 0 → ip'.addrs ndirect = i → i ≠ 0 → d.Free i →
      d.Free b → Touched d ip ip' b ({d.sb.bblock i, i} ∪ ({d.sb.bblock b, b} ∪ {i}))

theorem bmap_logs (hw : d.Wf) {bn : Nat} (h : bmap d ip bn = .ok (b, ip', d')) :
    ∃ S, Logs d d' S ∧ Touched d ip ip' b S ∧ (S = ∅ → d' = d) := by
  unfold bmap at h
  by_cases hdir : bn < ndirect
  · rw [if_pos hdir] at h
    obtain ⟨-, rfl, rfl⟩ | ⟨-, rfl, hb⟩ := bmapAddr_cases h
    · exact ⟨_, .refl _, .none rfl, fun _ => rfl⟩
    · exact ⟨_, balloc_logs hw hb, .direct (ip.setAddr_ne b (by omega)) (balloc_spec hw hb).1,
        fun h => by simp at h⟩
  rw [if_neg hdir] at h
  by_cases hind : bn - ndirect < nindirect
  · rw [if_pos hind] at h
    obtain ⟨⟨i, ip₁, d₁⟩, h₁, h⟩ := bind_eq_ok.1 h
    obtain ⟨⟨b₂, d₂⟩, h₂, hret⟩ := bind_eq_ok.1 h
    cases hret
    obtain ⟨h0, rfl, rfl⟩ | ⟨h0, rfl, hi⟩ := bmapAddr_cases h₁
    · -- the indirect block is there
      have hi : i = ip'.addrs ndirect := by
        unfold bmapAddr at h₁
        rw [if_neg h0] at h₁
        cases h₁
        rfl
      subst hi
      obtain ⟨-, rfl⟩ | ⟨hfree, hlogs⟩ := bmapEntry_logs hw h₂
      · exact ⟨_, .refl _, .none rfl, fun _ => rfl⟩
      · exact ⟨_, hlogs, .entry rfl h0 hfree, fun h => by simp at h⟩
    · -- it is new, so it has no entry yet
      obtain ⟨hfree, hvol, hw₁, hsb⟩ := balloc_spec hw hi
      obtain ⟨hne, -⟩ | ⟨hfree', hlogs⟩ := bmapEntry_logs hw₁ h₂
      · rw [balloc_zero hw hi] at hne
        exact absurd rfl hne
      · have hi0 : i ≠ 0 := by
          have := hw.pos
          have hlo : d.sb.datastart ≤ i := hfree.1.1
          omega
        rw [hsb] at hlogs
        exact ⟨_, (balloc_logs hw hi).trans hlogs,
          .both i h0 (ip.setAddr_self ..) hi0 hfree ((balloc_free hw hi b).1 hfree').2,
          fun h => by simp at h⟩
  · rw [if_neg hind] at h
    cases h

theorem Touched.eq_none {d d₁ : Disk} {inum bn : Nat} (hg : Good d inum ip)
    (hp : (d.view inum ip).fileBlock inum bn ≠ 0) (hb : bmap d ip bn = .ok (b, ip', d₁))
    (h : Touched d ip ip' b S) : ip' = ip ∧ S = ∅ := by
  rw [bmap_of_fileBlock hg hp] at hb
  cases hb
  have hused : ¬d.Free ((d.view inum ip).fileBlock inum bn) := fun hfree =>
    hg.excl.place_ne hfree.1 hfree.2 inum _ rfl
  cases h with
  | none _ => exact ⟨rfl, rfl⟩
  | direct _ hfree => exact absurd hfree hused
  | entry _ _ hfree => exact absurd hfree hused
  | both _ _ _ _ _ hfree => exact absurd hfree hused

variable {src : Nat → Option UInt8} {inum off n : Nat}

def chunk (off n tot : Nat) : Nat := min (n - tot) (bsize - (off + tot) % bsize)

/-- The blocks after a copy of the next chunk into block `b`. -/
def copied (d : Disk) (b : Nat) (src : Nat → Option UInt8) (off n tot : Nat) : Disk :=
  d.setBlock b (store (d.blocks b) ((off + tot) % bsize) (fetch src tot (chunk off n tot)))

theorem chunk_aligned {tot : Nat} (h : tot + chunk off n tot < n) :
    (off + (tot + chunk off n tot)) % bsize = 0 := by
  have hbs : 0 < bsize := by decide
  have hmod := Nat.mod_lt (off + tot) hbs
  have hdiv := Nat.div_add_mod (off + tot) bsize
  have hfull : chunk off n tot = bsize - (off + tot) % bsize := by
    unfold chunk at h ⊢
    omega
  have hend : off + (tot + chunk off n tot) = bsize * ((off + tot) / bsize + 1) := by
    rw [Nat.mul_add]
    omega
  rw [hend, Nat.mul_mod_right]

theorem writeLoop_round (hw : d.Wf) {k tot tot' : Nat} (hlt : tot < n)
    (h : writeLoop src off n (k + 1) d ip tot = .ok (tot', ip', d')) :
    ∃ b ip₁ d₁ S, bmap d ip ((off + tot) / bsize) = .ok (b, ip₁, d₁) ∧
      Logs d d₁ S ∧ Touched d ip ip₁ b S ∧ (S = ∅ → d₁ = d) ∧
      (((fetch src tot (chunk off n tot)).length < chunk off n tot ∧ tot' = tot ∧ ip' = ip₁ ∧
          d' = copied d₁ b src off n tot) ∨
        ((fetch src tot (chunk off n tot)).length = chunk off n tot ∧
          Logs d ((copied d₁ b src off n tot).record b) (S ∪ {b}) ∧
          writeLoop src off n k ((copied d₁ b src off n tot).record b) ip₁
            (tot + chunk off n tot) = .ok (tot', ip', d'))) := by
  rw [writeLoop, if_pos hlt] at h
  obtain ⟨⟨b, ip₁, d₁⟩, hb, h⟩ := bind_eq_ok.1 h
  obtain ⟨S, hlogs, htouch, hsame⟩ := bmap_logs hw hb
  refine ⟨b, ip₁, d₁, S, hb, hlogs, htouch, hsame, ?_⟩
  dsimp only at h
  have hlen := length_fetch_le src tot (chunk off n tot)
  by_cases hfail : (fetch src tot (chunk off n tot)).length < chunk off n tot
  · unfold chunk at hfail
    rw [if_pos hfail] at h
    cases h
    exact .inl ⟨hfail, rfl, rfl, rfl⟩
  · have he : (fetch src tot (chunk off n tot)).length = chunk off n tot := by omega
    unfold chunk at hfail
    rw [if_neg hfail] at h
    obtain ⟨d₂, hlog, h⟩ := bind_eq_ok.1 h
    obtain ⟨-, rfl⟩ := logWrite_eq_ok.1 hlog
    exact .inr ⟨he, hlogs.trans (logs_record ..), h⟩

theorem good_copied (hg : Good d inum ip) {d₁ : Disk} {tot : Nat}
    (hb : bmap d ip ((off + tot) / bsize) = .ok (b, ip', d₁)) :
    Good ((copied d₁ b src off n tot).record b) inum ip' :=
  (writeRound_spec hg hb (fetch src tot (chunk off n tot))).1.good.setLog _ _

/-- `writei` refuses and leaves everything as it is, or it runs its loop and writes the inode
back. -/
theorem writei_cases {r : Int} (h : writei d inum ip src off n = .ok (r, ip', d')) :
    (¬Accepts ip off n ∧ r = -1 ∧ ip' = ip ∧ d' = d) ∨
      Accepts ip off n ∧ ∃ (tot : Nat) (ip₁ : Dinode) (d₁ : Disk), r = tot ∧
        writeLoop src off n n d ip 0 = .ok (tot, ip₁, d₁) ∧
        ip' = ip₁.setSize (max ip₁.size (off + tot)) ∧
        d' = (d₁.setDinode inum ip').record (d₁.sb.iblock inum) := by
  have hmax : maxfile * bsize = 274432 := by decide
  by_cases ha : Accepts ip off n
  · have hoff := ha.1
    have hend := ha.2
    unfold writei at h
    rw [if_neg (by rw [Nat.mod_eq_of_lt (by omega)]; omega), if_neg (by omega)] at h
    obtain ⟨⟨tot, ip₁, d₁⟩, hloop, h⟩ := bind_eq_ok.1 h
    obtain ⟨d₂, hupd, hret⟩ := bind_eq_ok.1 h
    cases hret
    exact .inr ⟨ha, tot, ip₁, d₁, rfl, hloop, Dinode.setSize_max .., (logWrite_eq_ok.1 hupd).2⟩
  · rw [writei_refuses ha] at h
    cases h
    exact .inl ⟨ha, rfl, rfl, rfl⟩

end Xv6.Fs
