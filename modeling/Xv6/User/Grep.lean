/-
`user/grep.c`: the matcher against the language of a pattern, and the lines that get to it
through a buffer of 1024 bytes.
-/
import Mathlib.Computability.Language

namespace Xv6.Grep

open List Computability

variable {c t : Char} {re text w : List Char}

/-! ## The matcher -/

/-- The loop of `matchstar`; `here` is `matchhere` of the rest of the pattern. -/
def matchstar (c : Char) (here : List Char → Bool) : List Char → Bool
  | [] => here []
  | t :: text => here (t :: text) || ((t = c || c = '.') && matchstar c here text)

/-- `matchhere`; the end of a list is its NUL. -/
def matchhere : List Char → List Char → Bool
  | [], _ => true
  | c :: '*' :: re, text => matchstar c (matchhere re) text
  | ['$'], text => text.isEmpty
  | _ :: _, [] => false
  | c :: re, t :: text => (c = '.' || c = t) && matchhere re text

/-- The loop of `match`. -/
def matchFrom (re : List Char) : List Char → Bool
  | [] => matchhere re []
  | t :: text => matchhere re (t :: text) || matchFrom re text

def matchRe (re text : List Char) : Bool :=
  match re with
  | '^' :: re => matchhere re text
  | re => matchFrom re text

/-! ## The language of a pattern -/

/-- The one-character words that `c` matches. -/
def single (c : Char) : Language Char := {w | ∃ t, w = [t] ∧ (c = '.' ∨ c = t)}

/-- What a pattern matches, and whether it has to be at the end of the text. -/
def lang : List Char → Language Char × Bool
  | [] => (1, false)
  | c :: '*' :: re => ((single c)∗ * (lang re).1, (lang re).2)
  | ['$'] => (1, true)
  | c :: re => (single c * (lang re).1, (lang re).2)

/-- The text begins with a word of the language, which is all of it if it has to be. -/
def Begins (re text : List Char) : Prop :=
  ∃ w rest, text = w ++ rest ∧ w ∈ (lang re).1 ∧ ((lang re).2 = true → rest = [])

theorem mem_kstar_single : w ∈ (single c)∗ ↔ ∀ t ∈ w, c = '.' ∨ c = t := by
  induction w with
  | nil => simp [Language.nil_mem_kstar]
  | cons t w ih =>
    rw [← Language.one_add_self_mul_kstar_eq_kstar, forall_mem_cons, ← ih]
    constructor
    · rintro (h | ⟨_, ⟨t', rfl, ht⟩, v, hv, he⟩)
      · cases h
      · obtain ⟨rfl, rfl⟩ := cons.inj he
        exact ⟨ht, hv⟩
    · rintro ⟨ht, hw⟩
      exact .inr ⟨[t], ⟨t, rfl, ht⟩, w, hw, rfl⟩

theorem matchstar_iff {here : List Char → Bool} : matchstar c here text = true ↔
    ∃ w rest, text = w ++ rest ∧ w ∈ (single c)∗ ∧ here rest = true := by
  simp only [mem_kstar_single]
  induction text with
  | nil =>
    refine ⟨fun h => ⟨[], [], rfl, nofun, h⟩, fun ⟨w, rest, he, _, h⟩ => ?_⟩
    rwa [(append_eq_nil_iff.1 he.symm).2] at h
  | cons t text ih =>
    have ht : (decide (t = c) || decide (c = '.')) = true ↔ c = '.' ∨ c = t := by
      rw [Bool.or_eq_true, decide_eq_true_eq, decide_eq_true_eq, or_comm, eq_comm (a := t)]
    rw [matchstar, Bool.or_eq_true, Bool.and_eq_true, ih, ht]
    constructor
    · rintro (h | ⟨ht, w, rest, rfl, hw, h⟩)
      · exact ⟨[], _, rfl, nofun, h⟩
      · exact ⟨t :: w, rest, rfl, forall_mem_cons.2 ⟨ht, hw⟩, h⟩
    · rintro ⟨w, rest, he, hw, h⟩
      cases w with
      | nil => exact .inl (he ▸ h)
      | cons t' w =>
        obtain ⟨rfl, rfl⟩ := cons.inj he
        obtain ⟨ht, hw⟩ := forall_mem_cons.1 hw
        exact .inr ⟨ht, w, rest, rfl, hw, h⟩

theorem begins_mul {l : Language Char} {re' : List Char}
    (hl : lang re' = (l * (lang re).1, (lang re).2)) :
    Begins re' text ↔ ∃ u rest, text = u ++ rest ∧ u ∈ l ∧ Begins re rest := by
  unfold Begins
  rw [hl]
  constructor
  · rintro ⟨_, rest, rfl, ⟨u, hu, v, hv, rfl⟩, h⟩
    exact ⟨u, v ++ rest, append_assoc .., hu, v, rest, rfl, hv, h⟩
  · rintro ⟨u, _, rfl, hu, v, rest, rfl, hv, h⟩
    exact ⟨u ++ v, rest, (append_assoc ..).symm, ⟨u, hu, v, hv, rfl⟩, h⟩

theorem matchhere_iff : matchhere re text = true ↔ Begins re text := by
  induction re using lang.induct generalizing text with
  | case1 => exact iff_of_true rfl ⟨[], text, rfl, rfl, nofun⟩
  | case2 c re ih =>
    rw [matchhere, matchstar_iff, begins_mul (lang.eq_2 c re)]
    simp only [ih]
  | case3 =>
    rw [matchhere, List.isEmpty_iff]
    refine ⟨fun h => ⟨[], [], h, rfl, fun _ => rfl⟩, fun ⟨w, rest, he, hw, h⟩ => ?_⟩
    rw [he, h rfl, show w = [] from hw, append_nil]
  | case4 c re hstar hend ih =>
    rw [begins_mul (lang.eq_4 c re hstar hend)]
    cases text with
    | nil =>
      rw [matchhere.eq_4 _ _ hstar hend]
      refine iff_of_false nofun ?_
      rintro ⟨_, rest, he, ⟨t, rfl, -⟩, -⟩
      cases he
    | cons t text =>
      rw [matchhere.eq_5 _ _ _ _ hstar hend, Bool.and_eq_true, Bool.or_eq_true, decide_eq_true_eq,
        decide_eq_true_eq, ih]
      constructor
      · rintro ⟨ht, h⟩
        exact ⟨[t], text, rfl, ⟨t, rfl, ht⟩, h⟩
      · rintro ⟨_, rest, he, ⟨t', rfl, ht⟩, h⟩
        obtain ⟨rfl, rfl⟩ := cons.inj he
        exact ⟨ht, h⟩

theorem matchFrom_iff :
    matchFrom re text = true ↔ ∃ before rest, text = before ++ rest ∧ Begins re rest := by
  induction text with
  | nil =>
    rw [matchFrom, matchhere_iff]
    refine ⟨fun h => ⟨[], [], rfl, h⟩, fun ⟨before, rest, he, h⟩ => ?_⟩
    rwa [(append_eq_nil_iff.1 he.symm).2] at h
  | cons t text ih =>
    rw [matchFrom, Bool.or_eq_true, matchhere_iff, ih]
    constructor
    · rintro (h | ⟨before, rest, rfl, h⟩)
      · exact ⟨[], _, rfl, h⟩
      · exact ⟨t :: before, rest, rfl, h⟩
    · rintro ⟨before, rest, he, h⟩
      cases before with
      | nil => exact .inl (he ▸ h)
      | cons t' before => exact .inr ⟨before, rest, (cons.inj he).2, h⟩

/-- A text matches if a word of the pattern's language is in it, at its start after a `^`. -/
theorem matchRe_iff (re text : List Char) : matchRe re text = true ↔
    ∃ before rest, text = before ++ rest ∧
      if re.head? = some '^' then before = [] ∧ Begins re.tail rest else Begins re rest := by
  unfold matchRe
  split
  · next re =>
    rw [matchhere_iff]
    exact ⟨fun h => ⟨[], text, rfl, rfl, h⟩, fun ⟨_, rest, he, hb, h⟩ => by rwa [he, hb]⟩
  · next hre =>
    have hhead : re.head? ≠ some '^' := fun h => by
      cases re with
      | nil => cases h
      | cons c re => exact hre re (congrArg (· :: re) (Option.some.inj h))
    simp only [if_neg hhead]
    exact matchFrom_iff

/-! ## The lines -/

/-- A line, when it matches, and its newline. -/
def emit (re line : List Char) : List Char := if matchRe re line then line ++ ['\n'] else []

/-- The inner loop of `grep`, with `line` between `p` and the next byte that `strchr` looks at:
what is written, and what is left in the buffer. -/
def scan (re : List Char) : List Char → List Char → List Char × List Char
  | line, [] => ([], line)
  | line, c :: text =>
    if c = '\n' then (emit re line ++ (scan re [] text).1, (scan re [] text).2)
    else scan re (line ++ [c]) text

/-- What `read(fd, buf + m, sizeof(buf) - m - 1)` returns when `size + 1` bytes are ready. -/
def readSize (size : Nat) (buf input : List Char) : Nat :=
  min (size + 1) (min (1023 - buf.length) input.length)

/-- `grep`, from the `k`th `read` on, with `buf` before the place that it reads to. -/
def grep (re : List Char) (size : Nat → Nat) (k : Nat) (buf input : List Char) : List Char :=
  let n := readSize (size k) buf input
  if n = 0 then []
  else
    let r := scan re [] (buf ++ input.take n)
    r.1 ++ grep re size (k + 1) r.2 (input.drop n)
termination_by input.length
decreasing_by
  have : readSize (size k) buf input ≤ input.length := by
    unfold readSize
    omega
  rw [length_drop]
  omega

/-- The lines of the input that end in a newline. -/
def complete (input : List Char) : List (List Char) := (input.splitOn '\n').dropLast

/-- What follows the last newline, if anything does. -/
def unfinished (input : List Char) : List (List Char) :=
  [(input.splitOn '\n').getLast (splitOn_ne_nil _ _)].filter (· ≠ [])

def short (line : List Char) : Bool := decide (line.length < 1023)

/-- The lines that are looked at: those before the first that does not fit into the buffer. -/
def seen (re input : List Char) : List Char := ((complete input).takeWhile short).flatMap (emit re)

variable {line s : List Char}

theorem seen_line (h : '\n' ∉ line) (hlen : line.length < 1023) :
    seen re (line ++ '\n' :: s) = emit re line ++ seen re s := by
  unfold seen complete
  rw [splitOn_append_cons_self_of_not_mem h, dropLast_cons_of_ne_nil (splitOn_ne_nil _ _),
    takeWhile_cons_of_pos (show short line = true from decide_eq_true hlen), flatMap_cons]

theorem seen_unfinished (h : '\n' ∉ line) : seen re line = [] := by
  unfold seen complete
  rw [splitOn_eq_singleton h]
  rfl

theorem seen_full (h : '\n' ∉ line) (hlen : 1023 ≤ line.length) : seen re (line ++ s) = [] := by
  by_cases hs : '\n' ∈ s
  · obtain ⟨a, b, rfl, ha⟩ := eq_append_cons_of_mem hs
    unfold seen complete
    rw [← append_assoc, splitOn_append_cons_self_of_not_mem (by simp [h, ha]),
      dropLast_cons_of_ne_nil (splitOn_ne_nil _ _), takeWhile_cons_of_neg, flatMap_nil]
    rw [short, decide_eq_true_eq, length_append]
    omega
  · exact seen_unfinished (by simp [h, hs])

theorem scan_spec (h : '\n' ∉ line) (text : List Char) (hlen : line.length + text.length ≤ 1023) :
    '\n' ∉ (scan re line text).2 ∧ (scan re line text).2.length ≤ 1023 ∧
      ∀ s, seen re (line ++ (text ++ s))
        = (scan re line text).1 ++ seen re ((scan re line text).2 ++ s) := by
  induction text generalizing line with
  | nil => exact ⟨h, hlen, fun s => rfl⟩
  | cons c text ih =>
    rw [length_cons] at hlen
    unfold scan
    by_cases hc : c = '\n'
    · subst hc
      rw [if_pos rfl]
      obtain ⟨hn, hl, he⟩ := @ih [] nofun (by rw [length_nil]; omega)
      refine ⟨hn, hl, fun s => ?_⟩
      rw [cons_append, seen_line h (by omega), append_assoc, ← he]
      rfl
    · rw [if_neg hc]
      obtain ⟨hn, hl, he⟩ := @ih (line ++ [c]) (by simp [h, Ne.symm hc])
        (by rw [length_append, length_singleton]; omega)
      refine ⟨hn, hl, fun s => ?_⟩
      rw [← he, append_assoc]
      rfl

theorem grep_eq (size : Nat → Nat) {k : Nat} {buf input : List Char} (h : '\n' ∉ buf)
    (hlen : buf.length ≤ 1023) : grep re size k buf input = seen re (buf ++ input) := by
  induction hm : input.length using Nat.strong_induction_on generalizing k buf input with
  | _ m ih =>
    rw [grep]
    by_cases h0 : readSize (size k) buf input = 0
    · rw [if_pos h0]
      unfold readSize at h0
      rcases Nat.lt_or_ge buf.length 1023 with hlt | hge
      · rw [length_eq_zero_iff.1 (show input.length = 0 by omega), append_nil, seen_unfinished h]
      · rw [seen_full h hge]
    · rw [if_neg h0]
      have hn : readSize (size k) buf input ≤ 1023 - buf.length ∧
          readSize (size k) buf input ≤ input.length := by
        unfold readSize
        omega
      obtain ⟨hnl, hl, he⟩ := @scan_spec re [] not_mem_nil
        (buf ++ input.take (readSize (size k) buf input))
        (by rw [length_append, length_take, length_nil]; omega)
      dsimp only
      rw [ih _ (by rw [length_drop]; omega) hnl hl rfl, ← he, nil_append, append_assoc,
        take_append_drop]

theorem grep_seen (size : Nat → Nat) (input : List Char) :
    grep re size 0 [] input = seen re input :=
  grep_eq size not_mem_nil (Nat.zero_le _)

/-- However the input comes, the lines that match are written, up to the first that does not fit. -/
theorem grep_writes (re : List Char) (size : Nat → Nat) (input : List Char) :
    grep re size 0 [] input = ((complete input).takeWhile short).flatMap (emit re) :=
  grep_seen size input

theorem seen_seen (input : List Char) : seen re (seen re input) = seen re input := by
  induction hm : input.length using Nat.strong_induction_on generalizing input with
  | _ m ih =>
    by_cases hnl : '\n' ∈ input
    · obtain ⟨line, s, rfl, hline⟩ := eq_append_cons_of_mem hnl
      rcases Nat.lt_or_ge line.length 1023 with hlt | hge
      · have hs : seen re (seen re s) = seen re s := by
          refine ih _ ?_ s rfl
          rw [← hm, length_append, length_cons]
          omega
        rw [seen_line hline hlt]
        by_cases hmatch : matchRe re line = true
        · rw [emit, if_pos hmatch, append_assoc, singleton_append, seen_line hline hlt, hs, emit,
            if_pos hmatch, append_assoc, singleton_append]
        · rw [emit, if_neg hmatch, nil_append, hs]
      · rw [seen_full hline hge]
        rfl
    · rw [seen_unfinished hnl]
      rfl

/-- `grep` finds its own output whole. -/
theorem grep_grep (re : List Char) (size size' : Nat → Nat) (input : List Char) :
    grep re size' 0 [] (grep re size 0 [] input) = grep re size 0 [] input := by
  rw [grep_seen, grep_seen, seen_seen]

/-- The output that is meant: all lines that match. -/
def matching (re input : List Char) : List Char :=
  (complete input ++ unfinished input).flatMap (emit re)

/-- The lines that are not looked at: those from the first that is too long on, and the last
one if no newline ends it. -/
def missed (input : List Char) : List (List Char) :=
  (complete input).dropWhile short ++ unfinished input

/-- The output is right exactly when no line matches that is not looked at. -/
theorem grep_matching_iff (re : List Char) (size : Nat → Nat) (input : List Char) :
    grep re size 0 [] input = matching re input ↔
      ∀ line ∈ missed input, matchRe re line = false := by
  have hemit : ∀ line, emit re line = [] ↔ matchRe re line = false := by
    intro line
    unfold emit
    cases matchRe re line with
    | false => exact iff_of_true rfl rfl
    | true => exact iff_of_false (by simp) nofun
  have hsplit : matching re input = seen re input ++ (missed input).flatMap (emit re) := by
    unfold matching missed seen
    rw [← flatMap_append, ← append_assoc, takeWhile_append_dropWhile]
  rw [grep_seen, hsplit, self_eq_append_right, flatMap_eq_nil_iff]
  exact forall₂_congr fun line _ => hemit line

/-- A last line without a newline is not written. -/
theorem grep_unfinished : grep ['a'] (fun _ => 0) 0 [] ['a'] ≠ matching ['a'] ['a'] := by
  rw [grep_seen]
  decide

end Xv6.Grep
