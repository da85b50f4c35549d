/-
`fileread` of `kernel/file.c` on pipes and inodes.  Its count is an int, which `readi` takes for
an unsigned number: a negative count can read to the end of the file.
-/
import Xv6.Fs.Array
import Xv6.Pipe.Basic

namespace Xv6

open List
namespace Fs

variable {ip : Dinode} {d : Disk} {acc : List UInt8} {inum : Nat}

/-- The second loop of `piperead` to its end, by a process that keeps the lock: the pipe, the
value returned and the bytes delivered. -/
def copyLoop (dst : Nat → Bool) (n : Int) :
    Nat → Pipe → Nat → List UInt8 → Pipe × Nat × List UInt8
  | 0, pi, i, acc => (pi, i, acc)
  | k + 1, pi, i, acc =>
    match pi.pipereadCopy n i (.copyout (dst i)) with
    | .goto pi' (.copy _ i') =>
      copyLoop dst n k pi' i' (acc ++ [pi.data (pi.nread.toNat % pipesize)])
    | .wakeup _ pi' (.readDone i') => (pi', i', acc)
    | _ => (pi, i, acc)

/-- What a file reads from: a pipe as the process finds it when it tests the condition of the
first loop of `piperead`, with its flag `killed`; or a locked inode. -/
inductive Target
  | pipe (pi : Pipe) (killed : Bool)
  | inode (d : Disk) (inum : Nat) (ip : Dinode)

/-- The fields of `struct file` that `fileread` uses, for the two types. -/
structure OpenFile where
  readable : Bool
  off : Nat
  target : Target

/-- What a call returns, the bytes it has stored and the file after it. -/
structure Done where
  value : Int
  stored : List UInt8
  file : OpenFile

def uint (n : Int) : Nat := (n % 2 ^ 32).toNat

/-- `fileread`; `none` is a process that goes to sleep in `piperead`. -/
def fileread (f : OpenFile) (dst : Nat → Bool) (n : Int) : Except Panic (Option Done) :=
  if f.readable = false then return some ⟨-1, [], f⟩
  else
    match f.target with
    | .pipe pi killed =>
      match pi.piperead killed n with
      | .goto pi (.copy n i) =>
        let (pi, r, bytes) := copyLoop dst n (n.toNat + 1) pi i []
        return some ⟨r, bytes, { f with target := .pipe pi killed }⟩
      | .release pi (.idle r) => return some ⟨r, [], { f with target := .pipe pi killed }⟩
      | _ => return none
    | .inode d inum ip => do
        let (r, bytes, ip, d) ← readi d ip dst f.off (uint n)
        let off := if r > 0 then (f.off + r.toNat) % 2 ^ 32 else f.off
        return some ⟨r, bytes, { f with off := off, target := .inode d inum ip }⟩

/-- `readi` as far as `k` rounds of its loop. -/
def readRounds (k : Nat) (d : Disk) (ip : Dinode) (dst : Nat → Bool) (off n : Nat) :
    Except Panic (Int × List UInt8 × Dinode × Disk) :=
  if off > ip.size ∨ (off + n) % 2 ^ 32 < off then return (0, [], ip, d)
  else readLoop dst off (readLen ip off n) k d ip 0 []

/-- At no time, not even before a panic, has a call with count `n` stored more than `n` bytes, and
none if `n` is negative.  It returns -1 or the number of bytes it has stored, and moves the
offset of an inode file by what it returns, but not by -1. -/
structure CountKept (f : OpenFile) (dst : Nat → Bool) (n : Int) : Prop where
  stored : ∀ d inum ip, f.target = .inode d inum ip → f.readable = true → ∀ k r l ip' d',
    readRounds k d ip dst f.off (uint n) = .ok (r, l, ip', d') → (l.length : Int) ≤ max n 0
  result : ∀ x, fileread f dst n = .ok (some x) →
    (x.stored.length : Int) ≤ max n 0 ∧ (x.value = -1 ∨ x.value = x.stored.length)
  offset : ∀ d inum ip x, f.target = .inode d inum ip → fileread f dst n = .ok (some x) →
    (x.file.off : Int) = f.off + max x.value 0

/-! ## Pipes -/

theorem copyLoop_spec (dst : Nat → Bool) {n : Int} (k : Nat) (pi : Pipe) {i : Nat}
    (hacc : acc.length = i) (hi : (i : Int) ≤ max n 0) :
    (copyLoop dst n k pi i acc).2.2.length = (copyLoop dst n k pi i acc).2.1 ∧
      ((copyLoop dst n k pi i acc).2.1 : Int) ≤ max n 0 := by
  induction k generalizing pi i acc with
  | zero => exact ⟨hacc, hi⟩
  | succ k ih =>
    rw [copyLoop]
    unfold Pipe.pipereadCopy
    by_cases hlt : (i : Int) < n
    · rw [if_pos hlt]
      by_cases hempty : pi.isEmpty = true
      · rw [if_pos hempty]
        exact ⟨hacc, hi⟩
      · rw [if_neg hempty]
        cases dst i with
        | true =>
          refine ih _ ?_ (by omega)
          rw [length_append, hacc]
          rfl
        | false => exact ⟨hacc, hi⟩
    · rw [if_neg hlt]
      exact ⟨hacc, hi⟩

/-! ## Inodes -/

section
variable {d d' : Disk} {ip ip' : Dinode} {dst : Nat → Bool} {off n k : Nat} {r : Int}
  {l : List UInt8}

theorem readLoop_length {tot : Nat} (hacc : acc.length = tot) (htot : tot ≤ n)
    (h : readLoop dst off n k d ip tot acc = .ok (r, l, ip', d')) :
    l.length ≤ n ∧ (r = -1 ∨ r = l.length) := by
  induction k generalizing d ip tot acc with
  | zero =>
    cases h
    exact ⟨by omega, .inr (by rw [hacc])⟩
  | succ k ih =>
    rw [readLoop] at h
    by_cases hlt : tot < n
    · rw [if_pos hlt] at h
      obtain ⟨⟨b, ip₁, d₁⟩, -, h⟩ := Run.bind_eq_ok.1 h
      dsimp only at h
      generalize hm : min (n - tot) (bsize - (off + tot) % bsize) = m at h
      have hlen := length_deliver_le dst tot (Bytes.load (d₁.blocks b) ((off + tot) % bsize) m)
      rw [Bytes.length_load] at hlen
      split at h
      · cases h
        exact ⟨by rw [length_append]; omega, .inl rfl⟩
      · exact ih (by rw [length_append]; omega) (by omega) h
    · rw [if_neg hlt] at h
      cases h
      exact ⟨by omega, .inr (by rw [hacc])⟩

theorem readRounds_length (h : readRounds k d ip dst off n = .ok (r, l, ip', d')) :
    l.length ≤ readLen ip off n ∧ (r = -1 ∨ r = l.length) ∧
      (off + l.length ≤ ip.size ∨ l = []) := by
  unfold readRounds at h
  split at h
  · cases h
    exact ⟨Nat.zero_le _, .inr rfl, .inr rfl⟩
  · obtain ⟨hlen, hr⟩ := readLoop_length length_nil (Nat.zero_le _) h
    have hsize : off + readLen ip off n ≤ ip.size := by
      unfold readLen
      split <;> omega
    exact ⟨hlen, hr, .inl (by omega)⟩

theorem readRounds_nothing (hw : d.Wf)
    (hfirst : dst 0 = false ∨ ¬Mappable d ip (off / bsize))
    (h : readRounds k d ip dst off n = .ok (r, l, ip', d')) : l = [] := by
  unfold readRounds at h
  split at h
  · cases h
    rfl
  cases k with
  | zero =>
    cases h
    rfl
  | succ k =>
    rw [readLoop] at h
    by_cases hpos : 0 < readLen ip off n
    · rw [if_pos hpos] at h
      obtain ⟨⟨b, ip₁, d₁⟩, hb, h⟩ := Run.bind_eq_ok.1 h
      dsimp only [Nat.add_zero] at h hb
      have hdst := hfirst.resolve_right fun hnot => hnot ((bmap_ok_iff hw _).1 ⟨_, hb⟩)
      have hnone : ∀ xs : List UInt8, deliver dst 0 xs = [] := fun xs => by
        cases xs with
        | nil => rfl
        | cons x xs => rw [deliver, hdst]; rfl
      have hmod := Nat.mod_lt off (show 0 < bsize by decide)
      rw [hnone, if_pos (by simp only [length_nil]; omega)] at h
      cases h
      rfl
    · rw [if_neg hpos] at h
      cases h
      rfl

theorem readRounds_something (hw : d.Wf) (hdst : dst 0 = true)
    (hmap : Mappable d ip (off / bsize)) (hlt : off < ip.size)
    (hwrap : off < (off + n) % 2 ^ 32) :
    ∃ r l ip' d', readRounds 1 d ip dst off n = .ok (r, l, ip', d') ∧ l ≠ [] := by
  have hpos : 0 < readLen ip off n := by
    unfold readLen
    split
    · omega
    · by_contra h0
      omega
  obtain ⟨⟨b, ip₁, d₁⟩, hb⟩ := (bmap_ok_iff hw _).2 hmap
  have hmod := Nat.mod_lt off (show 0 < bsize by decide)
  rw [readRounds, if_neg (by omega), readLoop, if_pos hpos, Nat.add_zero, hb, Run.ok_bind]
  dsimp only
  generalize hm : min (readLen ip off n - 0) (bsize - off % bsize) = m
  have hne : deliver dst 0 (Bytes.load (d₁.blocks b) (off % bsize) m) ≠ [] := by
    cases hl : Bytes.load (d₁.blocks b) (off % bsize) m with
    | nil =>
      have := congrArg List.length hl
      rw [Bytes.length_load, length_nil] at this
      omega
    | cons x xs => simp [deliver, hdst]
  split
  · exact ⟨_, _, _, _, rfl, by simpa using hne⟩
  · exact ⟨_, _, _, _, rfl, by simpa using hne⟩

end

/-! ## The count -/

/-- The calls that keep to their count.  A negative count is harmless on a pipe, and on an inode
if the file is not read at all: the sum of offset and count wraps around below the offset, the
offset is at the end of the file or behind it, the destination of the first byte cannot be
written, or `bmap` has no block for the first byte or no room in the log to allocate one. -/
def CountOk (f : OpenFile) (dst : Nat → Bool) (n : Int) : Prop :=
  f.readable = false ∨ 0 ≤ n ∨
    match f.target with
    | .pipe _ _ => True
    | .inode d _ ip =>
      0 ≤ f.off + n ∨ ip.size ≤ f.off ∨ dst 0 = false ∨ ¬Mappable d ip (f.off / bsize)

/-- The values the fields of the file can have. -/
structure OpenFile.Ok (f : OpenFile) : Prop where
  off : f.off < 2 ^ 32
  inode : ∀ d inum ip, f.target = .inode d inum ip → Good d inum ip

variable {f : OpenFile} {dst : Nat → Bool} {n : Int}

theorem uint_of_nonneg (h : 0 ≤ n) (hn : n < 2 ^ 31) : (uint n : Int) = n := by
  unfold uint
  omega

theorem uint_of_neg (h : n < 0) (hn : -2 ^ 31 ≤ n) : (uint n : Int) = n + 2 ^ 32 := by
  unfold uint
  omega

theorem readRounds_count (hf : f.Ok) (hlo : -2 ^ 31 ≤ n) (hhi : n < 2 ^ 31)
    (hr : f.readable = true) (hok : CountOk f dst n) (ht : f.target = .inode d inum ip) {k : Nat}
    {r : Int} {l : List UInt8} {ip' : Dinode} {d' : Disk}
    (h : readRounds k d ip dst f.off (uint n) = .ok (r, l, ip', d')) :
    (l.length : Int) ≤ max n 0 := by
  have hg := hf.inode d inum ip ht
  obtain ⟨hlen, -, hend⟩ := readRounds_length h
  rcases le_or_gt 0 n with hpos | hneg
  · have hle : readLen ip f.off (uint n) ≤ uint n := by
      unfold readLen
      split <;> omega
    have := uint_of_nonneg hpos hhi
    omega
  · have hu := uint_of_neg hneg hlo
    have hcond := (hok.resolve_left (by rw [hr]; decide)).resolve_left (by omega)
    rw [ht] at hcond
    have hnil : l = [] := by
      obtain hwrap | hsize | hfirst := hcond
      · -- the sum wraps around, so `readi` returns at once
        unfold readRounds at h
        rw [if_pos (by omega)] at h
        cases h
        rfl
      · exact hend.elim (fun hle => eq_nil_of_length_eq_zero (by omega)) id
      · exact readRounds_nothing hg.wf hfirst h
    rw [hnil, length_nil]
    omega

theorem countKept_pipe {pi : Pipe} {killed : Bool} (ht : f.target = .pipe pi killed) :
    CountKept f dst n := by
  refine ⟨fun d inum ip h => ?_, fun x h => ?_, fun d inum ip x h => ?_⟩
  · rw [ht] at h
    cases h
  · unfold fileread at h
    split at h
    · cases h
      exact ⟨le_max_right n 0, .inl rfl⟩
    · rw [ht] at h
      dsimp only at h
      unfold Pipe.piperead at h
      by_cases hwait : pi.isEmpty ∧ pi.writeopen = true
      · rw [if_pos hwait] at h
        cases killed with
        | true =>
          cases h
          exact ⟨le_max_right n 0, .inl rfl⟩
        | false => cases h
      · rw [if_neg hwait] at h
        cases h
        obtain ⟨hlen, hle⟩ := copyLoop_spec dst (n.toNat + 1) pi length_nil
          (le_max_right n 0)
        exact ⟨hlen ▸ hle, .inr (congrArg Nat.cast hlen.symm)⟩
  · rw [ht] at h
    cases h

theorem fileread_inode (ht : f.target = .inode d inum ip) {x : Done}
    (h : fileread f dst n = .ok (some x)) : (f.readable = false ∧ x = ⟨-1, [], f⟩) ∨
      f.readable = true ∧ ∃ ip' d', readi d ip dst f.off (uint n) =
        .ok (x.value, x.stored, ip', d') ∧
        x.file.off = if x.value > 0 then (f.off + x.value.toNat) % 2 ^ 32 else f.off := by
  unfold fileread at h
  split at h
  · rename_i hr
    cases h
    exact .inl ⟨hr, rfl⟩
  · rename_i hr
    rw [ht] at h
    obtain ⟨⟨r, l, ip', d'⟩, hread, hret⟩ := Run.bind_eq_ok.1 h
    cases hret
    exact .inr ⟨by simpa using hr, ip', d', hread, rfl⟩

theorem countKept_inode (hf : f.Ok) (hlo : -2 ^ 31 ≤ n) (hhi : n < 2 ^ 31) (hok : CountOk f dst n)
    (ht : f.target = .inode d inum ip) : CountKept f dst n := by
  refine ⟨fun d' inum' ip' ht' hr k r l ip₁ d₁ h => ?_, fun x h => ?_, fun d' inum' ip' x ht' h => ?_⟩
  · exact readRounds_count hf hlo hhi hr hok ht' h
  · obtain ⟨-, rfl⟩ | ⟨hr, ip', d', hread, -⟩ := fileread_inode ht h
    · exact ⟨le_max_right n 0, .inl rfl⟩
    · exact ⟨readRounds_count hf hlo hhi hr hok ht hread, (readRounds_length hread).2.1⟩
  · obtain ⟨-, rfl⟩ | ⟨hr, ip', d', hread, hoff⟩ := fileread_inode ht h
    · simp
    · obtain ⟨-, hval, hend⟩ := readRounds_length hread
      have hsize := (hf.inode d inum ip ht).fits.size
      rw [hoff]
      obtain hval | hval := hval
      · rw [if_neg (by omega)]
        omega
      · obtain hend | hnil := hend
        · split
          · rw [Nat.mod_eq_of_lt (by omega)]
            omega
          · omega
        · rw [hnil, length_nil] at hval
          rw [if_neg (by omega)]
          omega

/-- A call keeps to its count just if it is one of those above. -/
theorem countKept_iff (hf : f.Ok) (hlo : -2 ^ 31 ≤ n) (hhi : n < 2 ^ 31) :
    CountKept f dst n ↔ CountOk f dst n := by
  cases ht : f.target with
  | pipe pi killed =>
    refine ⟨fun _ => .inr (.inr ?_), fun _ => countKept_pipe ht⟩
    rw [ht]
    trivial
  | inode d inum ip =>
    refine ⟨fun hkept => ?_, fun hok => countKept_inode hf hlo hhi hok ht⟩
    by_contra hnot
    have hg := hf.inode d inum ip ht
    unfold CountOk at hnot
    rw [ht] at hnot
    simp only [not_or, not_not, not_le, Bool.not_eq_false] at hnot
    obtain ⟨hr, hneg, hsum, hlt, hdst, hmap⟩ := hnot
    have hu := uint_of_neg hneg hlo
    obtain ⟨r, l, ip', d', hread, hne⟩ := readRounds_something (n := uint n) hg.wf hdst hmap hlt
      (by omega)
    have hcount := hkept.stored d inum ip ht hr 1 r l ip' d' hread
    have hpos := length_pos_of_ne_nil hne
    omega

/-- A new file, and the image and its inode after two bytes have been written to it. -/
def newFile : Dinode := { twoBytes with size := 0 }

def shortFile : Disk × Dinode :=
  match writei Disk.begun 1 newFile (kernelSrc [104, 105]) 0 2 with
  | .ok (_, ip, d) => ({ d with log := Disk.blank.log, wrote := ∅ }, ip)
  | .error _ => (Disk.blank, newFile)

theorem good_newFile : Good Disk.blank 1 newFile :=
  good_blank (good_twoBytes.fits.setSize (s := 0) (by decide)) (by decide) fun _ => rfl

theorem good_shortFile : Good shortFile.1 1 shortFile.2 := by
  unfold shortFile
  cases h : writei Disk.begun 1 newFile (kernelSrc [104, 105]) 0 2 with
  | error e => exact good_newFile
  | ok out =>
    obtain ⟨hna, -⟩ | ⟨-, tot, w, -, -, -, -, -, hg, -⟩ :=
      writei_spec (good_newFile.setLog Disk.begun.log ∅) (by decide) h
    · exact absurd ⟨by decide, by decide⟩ hna
    · exact hg.setLog _ _

def shortOpen : OpenFile where
  readable := true
  off := 0
  target := .inode shortFile.1 1 shortFile.2

theorem ok_shortOpen : shortOpen.Ok := by
  refine ⟨by decide, fun d inum ip h => ?_⟩
  obtain ⟨hd, hinum, hip⟩ := Target.inode.inj h
  rw [← hd, ← hinum, ← hip]
  exact good_shortFile

/-- A count of -1 reads the whole file. -/
theorem fileread_negative : ∃ x, fileread shortOpen kernelDst (-1) = .ok (some x) ∧
    x.value = 2 ∧ x.stored = [104, 105] ∧ x.file.off = 2 ∧
      ¬CountKept shortOpen kernelDst (-1) := by
  have hrun : ((fileread shortOpen kernelDst (-1)).map
      (Option.map fun x => (x.value, x.stored, x.file.off))).toOption =
        some (some (2, [104, 105], 2)) := by decide +kernel
  have hkept : CountKept shortOpen kernelDst (-1) → ∀ x,
      fileread shortOpen kernelDst (-1) = .ok (some x) → x.stored.length = 0 := fun h x hx => by
    have := (h.result x hx).1
    omega
  generalize fileread shortOpen kernelDst (-1) = out at hrun hkept ⊢
  obtain e | x | x := out
  · cases hrun
  · cases hrun
  · simp only [Except.map, Option.map_some, Except.toOption, Option.some.injEq,
      Prod.mk.injEq] at hrun
    obtain ⟨hval, hst, hoff⟩ := hrun
    refine ⟨x, rfl, hval, hst, hoff, fun h => ?_⟩
    have := hkept h x rfl
    rw [hst] at this
    cases this

theorem countKept_iff_shortOpen :
    (CountKept shortOpen kernelDst 1 ↔ CountOk shortOpen kernelDst 1) ∧
      (CountKept shortOpen kernelDst (-1) ↔ CountOk shortOpen kernelDst (-1)) :=
  ⟨countKept_iff ok_shortOpen (by decide) (by decide),
    countKept_iff ok_shortOpen (by decide) (by decide)⟩

end Fs
end Xv6
