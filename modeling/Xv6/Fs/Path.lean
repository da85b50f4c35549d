/-
Paths: `skipelem` of `kernel/fs.c`, and the segments of a path that repeated calls of it find.
-/
import Mathlib.Data.List.TakeWhile
import Xv6.Fs.Layout

namespace Xv6.Fs

open List

variable {path rest name : List UInt8}

/-- `skipelem`: the next element, cut at `DIRSIZ` bytes, and the path behind it. -/
def skipelem (path : List UInt8) : Option (List UInt8 × List UInt8) :=
  let s := path.dropWhile (· = 47)
  if s.headD 0 = 0 then none
  else
    let path := s.dropWhile fun c => c ≠ 47 ∧ c ≠ 0
    some ((s.take (s.length - path.length)).take dirsiz, path.dropWhile (· = 47))

/-- The caller's buffer after `skipelem` has put the element into it. -/
def setName (name elem : List UInt8) : List UInt8 :=
  if elem.length < dirsiz then elem ++ 0 :: name.drop (elem.length + 1)
  else elem ++ name.drop elem.length

/-- The name in a field of `DIRSIZ` bytes: what stands before its first zero, if it has one. -/
def nameOf (s : List UInt8) : List UInt8 := (s.take dirsiz).takeWhile (· ≠ 0)

/-- The names that `skipelem` leaves in the buffer, call after call until it returns 0; `none` if
it has not after so many calls. -/
def skipelems : Nat → List UInt8 → List UInt8 → Option (List (List UInt8))
  | 0, _, _ => none
  | k + 1, path, name =>
    match skipelem path with
    | none => some []
    | some (elem, rest) =>
      (skipelems k rest (setName name elem)).map (nameOf (setName name elem) :: ·)

/-- The parts of the string between slashes that are not empty. -/
def segments (path : List UInt8) : List (List UInt8) :=
  ((path.takeWhile (· ≠ 0)).splitOn 47).filter (· ≠ [])

theorem segments_slash (path : List UInt8) : segments (47 :: path) = segments path := by
  unfold segments
  rw [takeWhile_cons_of_pos (by decide), splitOn_cons_eq_if_modifyHead, if_pos (by decide),
    filter_cons_of_neg (by simp)]

theorem segments_slashes {l : List UInt8} (hl : ∀ c ∈ l, c = 47) (path : List UInt8) :
    segments (l ++ path) = segments path := by
  induction l with
  | nil => rfl
  | cons c l ih =>
    obtain ⟨hc, hl⟩ := forall_mem_cons.1 hl
    rw [cons_append, hc, segments_slash, ih hl]

theorem segments_of_headD (h : path.headD 0 = 0) : segments path = [] := by
  cases path with
  | nil => decide
  | cons c path =>
    unfold segments
    rw [takeWhile_cons_of_neg (by simpa using h)]
    decide

/-- The element in front, when what follows it starts with a slash or is empty. -/
theorem segments_append {elem : List UInt8} (hne : elem ≠ [])
    (hmem : ∀ c ∈ elem, c ≠ 47 ∧ c ≠ 0) (hrest : rest.headD 0 = 47 ∨ rest.headD 0 = 0) :
    segments (elem ++ rest) = elem :: segments rest := by
  have h47 : 47 ∉ elem := fun h => (hmem _ h).1 rfl
  have hcut : (elem ++ rest).takeWhile (· ≠ 0) = elem ++ rest.takeWhile (· ≠ 0) :=
    takeWhile_append_of_pos fun c hc => by simpa using (hmem c hc).2
  rcases hrest with h | h
  · cases rest with
    | nil => cases h
    | cons c rest =>
      cases (show c = 47 from h)
      rw [segments_slash]
      unfold segments
      rw [hcut, takeWhile_cons_of_pos (by decide), splitOn_append_cons_self_of_not_mem h47,
        filter_cons_of_pos (by simpa using hne)]
  · rw [segments_of_headD h]
    unfold segments
    have hnil : rest.takeWhile (· ≠ 0) = [] := by
      cases rest with
      | nil => rfl
      | cons c rest => exact takeWhile_cons_of_neg (by simpa using h)
    rw [hcut, hnil, append_nil, splitOn_eq_singleton h47, filter_cons_of_pos (by simpa using hne),
      filter_nil]

theorem exists_dropWhile (p : UInt8 → Bool) (path : List UInt8) :
    ∃ a s, path.dropWhile p = s ∧ path = a ++ s ∧ (∀ c ∈ a, p c = true) ∧
      (s.headD 0 = 0 ∨ p (s.headD 0) = false) := by
  induction path with
  | nil => exact ⟨[], [], rfl, rfl, nofun, .inl rfl⟩
  | cons c path ih =>
    by_cases hc : p c = true
    · obtain ⟨a, s, hs, he, ha, hhead⟩ := ih
      exact ⟨c :: a, s, (dropWhile_cons_of_pos hc).trans hs, congrArg (c :: ·) he,
        forall_mem_cons.2 ⟨hc, ha⟩, hhead⟩
    · exact ⟨[], c :: path, dropWhile_cons_of_neg hc, rfl, nofun, .inr (Bool.eq_false_iff.2 hc)⟩

/-- What a call finds: slashes, an element, slashes and the rest. -/
theorem skipelem_split (path : List UInt8) :
    (skipelem path = none ∧ segments path = []) ∨
      ∃ seg rest, skipelem path = some (seg.take dirsiz, rest) ∧ 0 ∉ seg ∧
        segments path = seg :: segments rest ∧ rest.length < path.length ∧ rest.headD 0 ≠ 47 := by
  obtain ⟨a, s, hs, hpath, ha, hhead⟩ := exists_dropWhile (· = 47) path
  obtain ⟨seg, r, hr, hseg, hmem, hr0⟩ := exists_dropWhile (fun c => c ≠ 47 ∧ c ≠ 0) s
  obtain ⟨b, rest, hrest, hb, hbmem, hrest0⟩ := exists_dropWhile (· = 47) r
  simp only [decide_eq_true_eq, decide_eq_false_iff_not] at ha hhead hmem hr0 hbmem hrest0
  unfold skipelem
  dsimp only
  rw [hs, hr, hrest, hpath, segments_slashes ha]
  by_cases h0 : s.headD 0 = 0
  · exact .inl ⟨if_pos h0, segments_of_headD h0⟩
  have hne : seg ≠ [] := by
    rintro rfl
    rw [hseg, nil_append] at h0 hhead
    exact hr0.elim h0 fun h => h ⟨hhead.resolve_left h0, h0⟩
  have htake : s.take (s.length - r.length) = seg := by
    rw [hseg, length_append, Nat.add_sub_cancel, take_left]
  refine .inr ⟨seg, rest, ?_, fun h => (hmem 0 h).2 rfl, ?_, ?_, ?_⟩
  · rw [if_neg h0, htake]
  · have h47 : r.headD 0 = 47 ∨ r.headD 0 = 0 := by
      by_contra hc
      rw [not_or] at hc
      exact hr0.elim hc.2 fun h => h hc
    rw [hseg, segments_append hne hmem h47, hb, segments_slashes hbmem]
  · have := length_pos_iff.2 hne
    rw [hseg, hb]
    simp only [length_append]
    omega
  · intro h47
    exact hrest0.elim (fun h0 => by rw [h0] at h47; cases h47) fun h => h h47

theorem nameOf_setName {elem : List UInt8} (h0 : 0 ∉ elem) (hlen : elem.length ≤ dirsiz) :
    nameOf (setName name elem) = elem := by
  have hall : ∀ c ∈ elem, decide (c ≠ 0) = true := fun c hc =>
    decide_eq_true fun h => h0 (h ▸ hc)
  unfold nameOf setName
  split
  · next h =>
    obtain ⟨k, hk⟩ := Nat.exists_eq_add_of_lt h
    rw [hk, Nat.add_assoc, take_length_add_append, take_succ_cons,
      takeWhile_append_of_pos hall, takeWhile_cons_of_neg (by decide), append_nil]
  · next h =>
    rw [show dirsiz = elem.length by omega, take_left, takeWhile_eq_self_iff.2 hall]

theorem setName_keeps {elem : List UInt8} (hlen : elem.length ≤ dirsiz)
    (hname : dirsiz ≤ name.length) :
    (setName name elem).length = name.length ∧
      (setName name elem).drop dirsiz = name.drop dirsiz := by
  unfold setName
  split
  · next h =>
    refine ⟨by simp; omega, ?_⟩
    obtain ⟨k, hk⟩ := Nat.exists_eq_add_of_lt h
    rw [hk, Nat.add_assoc, drop_length_add_append, drop_succ_cons, drop_drop]
    congr 1
    omega
  · next h =>
    rw [show dirsiz = elem.length by omega, drop_left]
    exact ⟨by simp; omega, rfl⟩

theorem skipelem_rest {name : List UInt8} (h : skipelem path = some (name, rest)) :
    rest.length < path.length ∧ (skipelem rest = none ↔ rest.headD 0 = 0) := by
  rcases skipelem_split path with ⟨hnone, -⟩ | ⟨seg, rest, hsome, -, -, hlt, h47⟩
  · rw [hnone] at h
    cases h
  rw [hsome] at h
  cases h
  refine ⟨hlt, ?_⟩
  have hself : rest.dropWhile (· = 47) = rest := by
    cases rest with
    | nil => rfl
    | cons c rest => exact dropWhile_cons_of_neg (by simpa using h47)
  unfold skipelem
  dsimp only
  rw [hself]
  split
  · next h0 => exact iff_of_true rfl h0
  · next h0 => exact iff_of_false nofun h0

theorem skipelem_eq_none_iff : skipelem path = none ↔ segments path = [] := by
  rcases skipelem_split path with ⟨hnone, hs⟩ | ⟨seg, rest, hsome, -, hs, -⟩
  · exact iff_of_true hnone hs
  · rw [hsome, hs]
    exact iff_of_false nofun nofun

theorem skipelems_eq {k : Nat} (hk : path.length < k) (name : List UInt8) :
    skipelems k path name = some ((segments path).map (take dirsiz)) := by
  induction k generalizing path name with
  | zero => cases hk
  | succ k ih =>
    rw [skipelems]
    rcases skipelem_split path with ⟨hnone, hs⟩ | ⟨seg, rest, hsome, h0, hs, hlt, -⟩
    · rw [hnone, hs]
      rfl
    · rw [hsome, hs]
      dsimp only
      rw [ih (by omega), nameOf_setName (fun h => h0 (mem_of_mem_take h)) (length_take_le ..)]
      rfl

/-- Calling `skipelem` until it returns 0 leaves the segments of the path in the buffer, one after
the other and cut to `DIRSIZ` bytes.  A call returns 0 when there is none.  Otherwise it leaves
the bytes behind those of the name alone, and returns a path without a slash in front, which is
empty after the last segment. -/
theorem skipelem_segments (path : List UInt8) {name : List UInt8} (hname : dirsiz ≤ name.length) :
    skipelems (path.length + 1) path name = some ((segments path).map (take dirsiz)) ∧
      (skipelem path = none ↔ segments path = []) ∧
      ∀ elem rest, skipelem path = some (elem, rest) →
        segments rest = (segments path).tail ∧ rest.headD 0 ≠ 47 ∧
        (rest.headD 0 = 0 ↔ segments rest = []) ∧
        (setName name elem).length = name.length ∧
        (setName name elem).drop dirsiz = name.drop dirsiz := by
  refine ⟨skipelems_eq (Nat.lt_succ_self _) name, skipelem_eq_none_iff, fun elem rest h => ?_⟩
  have hlast := (skipelem_rest h).2.symm.trans skipelem_eq_none_iff
  rcases skipelem_split path with ⟨hnone, -⟩ | ⟨seg, rest', hsome, h0, hs, -, h47⟩
  · rw [hnone] at h
    cases h
  · rw [hsome] at h
    cases h
    rw [hs]
    exact ⟨rfl, h47, hlast, setName_keeps (length_take_le ..) hname⟩

/-- The path "/a//bb/c", of which the last call leaves an empty rest. -/
theorem skipelem_segments_abc :
    skipelems 9 [47, 97, 47, 47, 98, 98, 47, 99] (replicate 14 1) = some [[97], [98, 98], [99]] ∧
      segments [98, 98, 47, 99] = (segments [47, 97, 47, 47, 98, 98, 47, 99]).tail ∧
      (setName (replicate 14 1) [97]).length = 14 := by
  obtain ⟨hall, -, hnext⟩ := skipelem_segments [47, 97, 47, 47, 98, 98, 47, 99]
    (show dirsiz ≤ (replicate 14 1).length by decide)
  obtain ⟨htail, -, -, hlen, -⟩ := hnext [97] [98, 98, 47, 99] (by decide)
  exact ⟨hall.trans (by decide), htail, hlen⟩

end Xv6.Fs
