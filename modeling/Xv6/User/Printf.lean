/-
`vprintf` of `user/printf.c`, and the numerals that `%d`, `%x` and `%l` write.
-/
import Xv6.Riscv

namespace Xv6.User

variable {base k w x : Nat} {c : Char} {v : Int}

/-- `digits[x]` -/
def digit (x : Nat) : Char := "0123456789ABCDEF".toList.getD x '\x00'

/-- The digits of `x` from the last one on, in a buffer with `k` free bytes; `none` when they
do not fit. -/
def digitLoop (base : Nat) : Nat → Nat → Option (List Char)
  | 0, _ => none
  | k + 1, x => do
    let buf ← (if x / base ≠ 0 then digitLoop base k (x / base) else some [])
    return digit (x % base) :: buf

/-- `printint` with the 32-bit word of its `int`; `none` is an overrun of `buf`. -/
def printint (xx base : Nat) (sgn : Bool) : Option (List Char) := do
  let neg := sgn && decide (2 ^ 31 ≤ xx)
  let buf ← digitLoop base 16 (if neg then 2 ^ 32 - xx else xx)
  let buf ← (if neg then if buf.length < 16 then some (buf ++ ['-']) else none else some buf)
  return buf.reverse

/-- The loop of `printptr`. -/
def printptrLoop : Nat → Nat → List Char
  | 0, _ => []
  | k + 1, x => digit (x >>> 60) :: printptrLoop k (word (x <<< 4))

/-- What `vprintf` writes for `%` and `c`, and the arguments it leaves. -/
def conversion (str : Nat → List Char) (c : Char) (ap : List Nat) :
    Option (List Char) × List Nat :=
  let arg := ap.headD 0
  -- the parameter of `printint` is an `int`: of a `uint64` the lower half gets there
  if c = 'd' then (printint (arg % 2 ^ 32) 10 true, ap.tail)
  else if c = 'l' then (printint (arg % 2 ^ 32) 10 false, ap.tail)
  else if c = 'x' then (printint (arg % 2 ^ 32) 16 false, ap.tail)
  else if c = 'p' then (some ('0' :: 'x' :: printptrLoop 16 arg), ap.tail)
  else if c = 's' then (some (if arg = 0 then "(null)".toList else str arg), ap.tail)
  else if c = 'c' then (some [Char.ofNat (arg % 256)], ap.tail)
  else if c = '%' then (some [c], ap)
  else (some ['%', c], ap)

/-- `vprintf` in state 0 or, after a `%`, in state `'%'`; `str` gives the strings in memory and
`ap` the words of the arguments. -/
def vprintf (str : Nat → List Char) : Bool → List Char → List Nat → Option (List Char)
  | _, [], _ => some []
  | false, c :: fmt, ap =>
    if c = '%' then vprintf str true fmt ap else (vprintf str false fmt ap).map (c :: ·)
  | true, c :: fmt, ap => do
    let out ← (conversion str c ap).1
    let rest ← vprintf str false fmt (conversion str c ap).2
    return out ++ rest

/-! ## Numerals -/

/-- The numeral of `x`, in capitals as `digits` has them. -/
def numeral (base x : Nat) : List Char := (Nat.toDigits base x).map Char.toUpper

/-- `v` as it is written: no zeros in front, and a sign only if it is negative. -/
def canonical (base : Nat) (v : Int) : List Char :=
  (if v < 0 then ['-'] else []) ++ numeral base v.natAbs

theorem numeral_eq (hb : 1 < base) (h16 : base ≤ 16) (x : Nat) : numeral base x =
    (if x / base = 0 then [] else numeral base (x / base)) ++ [digit (x % base)] := by
  have hdigit : ∀ d < 16, (Nat.digitChar d).toUpper = digit d := by decide
  have hmod : x % base < base := Nat.mod_lt _ (by omega)
  unfold numeral
  rw [Nat.toDigits_eq_if hb, ← hdigit (x % base) (by omega)]
  by_cases hx : x < base
  · rw [if_pos hx, if_pos (Nat.div_eq_of_lt hx), Nat.mod_eq_of_lt hx]
    rfl
  · have hq : x / base ≠ 0 := (Nat.div_pos (by omega) (by omega)).ne'
    rw [if_neg hx, if_neg hq, List.map_append]
    rfl

theorem numeral_ten (x : Nat) : numeral 10 x = Nat.toDigits 10 x := by
  refine (List.map_congr_left fun c hc => ?_).trans (List.map_id _)
  have hd := Nat.isDigit_of_mem_toDigits (by decide) (by decide) hc
  rw [Char.isDigit, Bool.and_eq_true, decide_eq_true_eq, decide_eq_true_eq] at hd
  exact dif_neg fun hlower => absurd (UInt32.le_trans hlower.1 hd.2) (by decide)

theorem numeral_ten_inj {y : Nat} (h : numeral 10 x = numeral 10 y) : x = y := by
  rw [numeral_ten, numeral_ten] at h
  have hval := congrArg (Nat.ofDigitChars 10 · 0) h
  simpa using hval

theorem digitLoop_eq (hb : 1 < base) (h16 : base ≤ 16) (hk : 0 < k) (hx : x < base ^ k) :
    digitLoop base k x = some (numeral base x).reverse := by
  induction k generalizing x with
  | zero => cases hk
  | succ k ih =>
    rw [digitLoop, numeral_eq hb h16, List.reverse_append]
    by_cases hq : x / base = 0
    · rw [if_neg (not_not.2 hq), if_pos hq]
      rfl
    · have hk : 0 < k := by
        refine Nat.pos_of_ne_zero fun h0 => hq ?_
        rw [h0, Nat.zero_add, Nat.pow_one] at hx
        exact Nat.div_eq_of_lt hx
      rw [if_pos hq, if_neg hq, ih hk (Nat.div_lt_of_lt_mul (by rwa [Nat.pow_succ'] at hx))]
      rfl

/-- What the 32-bit word `x` is as an `int` or as a `uint`. -/
def ofWord (sgn : Bool) (x : Nat) : Int :=
  if sgn = true ∧ 2 ^ 31 ≤ x then (x : Int) - 2 ^ 32 else x

/-- `printint` writes the value of its word, in base 10 and in base 16. -/
theorem printint_eq (sgn : Bool) (hb : base = 10 ∨ base = 16) (hx : x < 2 ^ 32) :
    printint x base sgn = some (canonical base (ofWord sgn x)) := by
  have hbase : 1 < base ∧ base ≤ 16 := by omega
  have hloop : ∀ y < 2 ^ 32, digitLoop base 16 y = some (numeral base y).reverse ∧
      (numeral base y).reverse.length < 16 := by
    intro y hy
    have h15 : y < base ^ 15 := by rcases hb with rfl | rfl <;> exact hy.trans (by decide)
    refine ⟨digitLoop_eq hbase.1 hbase.2 (by decide) ?_, ?_⟩
    · exact h15.trans (Nat.pow_lt_pow_right hbase.1 (by decide))
    · rw [List.length_reverse, numeral, List.length_map]
      exact Nat.lt_succ_of_le ((Nat.length_toDigits_le_iff hbase.1 (by decide)).2 h15)
  unfold printint canonical ofWord
  by_cases hneg : sgn = true ∧ 2 ^ 31 ≤ x
  · obtain ⟨hl, hlen⟩ := hloop (2 ^ 32 - x) (by omega)
    have habs : ((x : Int) - 2 ^ 32).natAbs = 2 ^ 32 - x := by omega
    rw [if_pos hneg, if_pos (by omega), habs, hneg.1, decide_eq_true hneg.2]
    simp only [Bool.and_self, if_true, hl, Option.bind_eq_bind, Option.bind_some, hlen]
    rw [List.reverse_append, List.reverse_reverse]
    rfl
  · have hpos : (sgn && decide (2 ^ 31 ≤ x)) = false := by
      rwa [Bool.eq_false_iff, ne_eq, Bool.and_eq_true, decide_eq_true_eq]
    rw [if_neg hneg, if_neg (by omega), Int.natAbs_natCast]
    simp only [hpos, Bool.false_eq_true, if_false, (hloop x hx).1, Option.bind_eq_bind,
      Option.bind_some]
    rw [List.reverse_reverse]
    rfl

/-- The values that `%d`, `%x` and `%l` are for. -/
def InRange (c : Char) (v : Int) : Prop :=
  c = 'd' ∧ -2 ^ 31 ≤ v ∧ v < 2 ^ 31 ∨ c = 'x' ∧ 0 ≤ v ∧ v < 2 ^ 32 ∨
    c = 'l' ∧ 0 ≤ v ∧ v < 2 ^ 64

/-- `w` is the word of the argument `v`: an `int` is its lower half. -/
def Passed (c : Char) (v : Int) (w : Nat) : Prop :=
  (w : Int) % 2 ^ 32 = v % 2 ^ 32 ∧ (c = 'l' → w = v)

/-- `%` and `c` write the numeral of `v` where `w` is the next argument. -/
def Prints (c : Char) (w : Nat) (v : Int) : Prop :=
  ∀ str fmt ap, vprintf str false ('%' :: c :: fmt) (w :: ap)
    = (vprintf str false fmt ap).map (canonical (if c = 'x' then 16 else 10) v ++ ·)

theorem prints_iff_printint (sgn : Bool) (h : ∀ str ap, conversion str c (w :: ap) =
    (printint (w % 2 ^ 32) (if c = 'x' then 16 else 10) sgn, ap)) : Prints c w v ↔
      printint (w % 2 ^ 32) (if c = 'x' then 16 else 10) sgn =
        some (canonical (if c = 'x' then 16 else 10) v) := by
  constructor
  · intro hp
    have hout := hp (fun _ => []) [] []
    simpa [vprintf, h] using hout
  · intro hp str fmt ap
    rw [vprintf, if_pos rfl, vprintf, h, hp]
    cases vprintf str false fmt ap <;> rfl

theorem prints_l_iff :
    Prints 'l' w v ↔ printint (w % 2 ^ 32) 10 false = some (canonical 10 v) :=
  prints_iff_printint false fun _ _ => rfl

/-- `%d` and `%x` write the numeral of every value, `%l` that of the values below `2 ^ 32`. -/
theorem prints_iff (hv : InRange c v) (hw : Passed c v w) :
    Prints c w v ↔ (c = 'l' → v < 2 ^ 32) := by
  obtain ⟨hmod, hw⟩ := hw
  have hlt : w % 2 ^ 32 < 2 ^ 32 := Nat.mod_lt _ (by decide)
  rcases hv with ⟨rfl, hlo, hhi⟩ | ⟨rfl, hlo, hhi⟩ | ⟨rfl, hlo, hhi⟩
  · have hval : ofWord true (w % 2 ^ 32) = v := by
      simp only [ofWord, true_and]
      split <;> omega
    rw [prints_iff_printint true fun _ _ => rfl]
    exact iff_of_true (hval ▸ printint_eq true (.inl rfl) hlt) nofun
  · have hval : ofWord false (w % 2 ^ 32) = v := (if_neg (by simp)).trans (by omega)
    rw [prints_iff_printint false fun _ _ => rfl]
    exact iff_of_true (hval ▸ printint_eq false (.inr rfl) hlt) nofun
  · have hw := hw rfl
    have hval : ofWord false (w % 2 ^ 32) = (w % 2 ^ 32 : Nat) := if_neg (by simp)
    rw [prints_l_iff, printint_eq false (.inl rfl) hlt, hval, Option.some.injEq]
    constructor
    · intro hnum _
      rw [canonical, canonical, if_neg (by omega), if_neg (by omega)] at hnum
      have hsame := numeral_ten_inj hnum
      omega
    · intro h
      have hlt := h rfl
      rw [show ((w % 2 ^ 32 : Nat) : Int) = v by omega]

/-- The least `int`, which is its own negative in `printint`. -/
theorem prints_min : Prints 'd' (2 ^ 31) (-2 ^ 31) := by
  have hv : InRange 'd' (-2 ^ 31) := .inl (by decide)
  have hw : Passed 'd' (-2 ^ 31) (2 ^ 31) := ⟨by decide, nofun⟩
  exact (prints_iff hv hw).2 nofun

/-- `%l` writes "0" for `2 ^ 32`. -/
theorem not_prints_l : ¬ Prints 'l' (2 ^ 32) (2 ^ 32) := by
  rw [prints_l_iff, Nat.mod_self]
  intro h
  have hzero : printint 0 10 false = some (numeral 10 0) := by decide
  have hnum := numeral_ten_inj (Option.some.inj (hzero.symm.trans h))
  revert hnum
  decide

end Xv6.User
