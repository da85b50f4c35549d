/-
Byte strings in blocks: the little-endian bytes of a number, loading and storing a run of
bytes of a block, and arrays of records of one width.
-/
import Mathlib.Data.List.Basic
import Mathlib.Data.List.GetD
import Xv6.Lib.Block

namespace Bytes

open List

variable {l : List UInt8} {j k o w : Nat}

/-! ## Numbers -/

/-- The number with the given bytes, lowest first. -/
def ofLe : List UInt8 → Nat
  | [] => 0
  | b :: bs => b.toNat + 256 * ofLe bs

/-- The low `n` bytes of a number, lowest first. -/
def toLe : Nat → Nat → List UInt8
  | 0, _ => []
  | n + 1, v => UInt8.ofNat v :: toLe n (v / 256)

@[simp] theorem length_toLe (n v : Nat) : (toLe n v).length = n := by
  induction n generalizing v with
  | zero => rfl
  | succ n ih => simp [toLe, ih]

theorem ofLe_toLe (n v : Nat) : ofLe (toLe n v) = v % 256 ^ n := by
  induction n generalizing v with
  | zero => simp [toLe, ofLe, Nat.mod_one]
  | succ n ih =>
    have hb : (UInt8.ofNat v).toNat = v % 256 := by simp
    rw [toLe, ofLe, ih, hb, pow_succ', Nat.mod_mul]

/-- The `w`-byte number at offset `k` of a byte string. -/
def wordAt (l : List UInt8) (k w : Nat) : Nat := ofLe ((l.drop k).take w)

theorem wordAt_toLe (xs ys : List UInt8) {v : Nat} (hk : k = xs.length) (hv : v < 256 ^ w) :
    wordAt (xs ++ (toLe w v ++ ys)) k w = v := by
  subst hk
  rw [wordAt, drop_left, take_append_of_le_length (by rw [length_toLe]),
    take_of_length_le (by rw [length_toLe]), ofLe_toLe, Nat.mod_eq_of_lt hv]

theorem wordAt_append_right (xs ys : List UInt8) (k w : Nat) :
    wordAt (xs ++ ys) (xs.length + k) w = wordAt ys k w := by
  rw [wordAt, wordAt, ← drop_drop, drop_left]

/-! ## Arrays of records -/

theorem take_drop_flatMap {α : Type} (f : α → List UInt8) (as : List α)
    (hw : ∀ a ∈ as, (f a).length = w) (hj : j < as.length) :
    ((as.flatMap f).drop (w * j)).take w = f as[j] := by
  induction as generalizing j with
  | nil => cases hj
  | cons a as ih =>
    have ha := hw a mem_cons_self
    cases j with
    | zero =>
      rw [flatMap_cons, Nat.mul_zero, drop_zero,
        take_append_of_le_length ha.ge, take_of_length_le ha.le]
      rfl
    | succ j =>
      have hd : (f a ++ as.flatMap f).drop (w * (j + 1)) = (as.flatMap f).drop (w * j) := by
        rw [Nat.mul_succ, Nat.add_comm, ← ha]
        simp
      rw [flatMap_cons, hd,
        ih (fun b hb => hw b (mem_cons_of_mem _ hb)) (Nat.lt_of_succ_lt_succ hj)]
      rfl

/-! ## Runs of bytes of a block -/

variable {size : Nat} [NeZero size]

/-- The `n` bytes of the block from offset `o` on. -/
def load (b : Block size) (o n : Nat) : List UInt8 := (List.range n).map fun k => byteAt b (o + k)

/-- The block with the bytes put at offset `o`; what does not fit is dropped. -/
def store (b : Block size) (o : Nat) (l : List UInt8) : Block size :=
  fun i => if o ≤ i.val then l.getD (i.val - o) (b i) else b i

def zeroes : Block size := fun _ => 0

section

variable (b : Block size)

include b

@[simp] theorem length_load (o n : Nat) : (load b o n).length = n := by
  simp [load]

theorem getElem?_load {n : Nat} (hk : k < n) : (load b o n)[k]? = some (byteAt b (o + k)) := by
  simp [load, hk]

theorem byteAt_eq (ho : o < size) : byteAt b o = b ⟨o, ho⟩ := by
  unfold byteAt
  congr 1
  exact Fin.ext (Nat.mod_eq_of_lt ho)

theorem byteAt_store (o : Nat) (l : List UInt8) (hj : j < size) :
    byteAt (store b o l) j = if o ≤ j then l.getD (j - o) (byteAt b j) else byteAt b j := by
  rw [byteAt_eq _ hj, byteAt_eq _ hj]
  rfl

theorem byteAt_store_in (hj : j < l.length) (hs : o + j < size) :
    byteAt (store b o l) (o + j) = l[j] := by
  rw [byteAt_store b o l hs, if_pos (Nat.le_add_right o j), Nat.add_sub_cancel_left,
    getD_eq_getElem _ _ hj]

theorem byteAt_store_out (hj : j < size) (h : j < o ∨ o + l.length ≤ j) :
    byteAt (store b o l) j = byteAt b j := by
  rw [byteAt_store b o l hj]
  split
  · rw [getD_eq_default _ _ (by omega)]
  · rfl

/-- What was stored is what is loaded. -/
theorem load_store {n : Nat} (ho : o + l.length ≤ size) (hk : k + n ≤ l.length) :
    load (store b o l) (o + k) n = (l.drop k).take n := by
  refine ext_getElem? fun j => ?_
  by_cases hj : j < n
  · rw [getElem?_load _ hj, List.getElem?_take_of_lt hj, List.getElem?_drop, Nat.add_assoc,
      byteAt_store_in b (by omega) (by omega), ← List.getElem?_eq_getElem]
  · rw [List.getElem?_eq_none (by simp; omega), List.getElem?_eq_none (by simp; omega)]

theorem load_store_ne {o' n : Nat} (ho : o' + n ≤ size) (h : o' + n ≤ o ∨ o + l.length ≤ o') :
    load (store b o l) o' n = load b o' n := by
  refine map_congr_left fun k hk => ?_
  have := mem_range.1 hk
  exact byteAt_store_out b (by omega) (by omega)

end

@[simp] theorem byteAt_zeroes (o : Nat) : byteAt (zeroes : Block size) o = 0 := rfl

@[simp] theorem u32At_zeroes (o : Nat) : u32At (zeroes : Block size) o = 0 := rfl

/-! ## Bits of a byte -/

theorem testBit_byte_or (x : UInt8) (hk : k < 8) :
    (x ||| UInt8.ofNat (2 ^ k)).toNat.testBit j = (x.toNat.testBit j || decide (j = k)) := by
  have h : (UInt8.ofNat (2 ^ k)).toNat = 2 ^ k := by
    have : 2 ^ k < 2 ^ 8 := Nat.pow_lt_pow_right (by decide) hk
    simpa using this
  rw [UInt8.toNat_or, Nat.testBit_or, h, Nat.testBit_two_pow]
  simp only [eq_comm]

theorem testBit_byte_and_not (x : UInt8) (hk : k < 8) :
    (x &&& ~~~UInt8.ofNat (2 ^ k)).toNat.testBit j = (x.toNat.testBit j && !decide (j = k)) := by
  have hlt : 2 ^ k < 2 ^ 8 := Nat.pow_lt_pow_right (by decide) hk
  have h : (UInt8.ofNat (2 ^ k)).toNat = 2 ^ k := by simpa using hlt
  have hn : (~~~UInt8.ofNat (2 ^ k)).toNat = 2 ^ 8 - (2 ^ k + 1) := by
    rw [UInt8.toNat_not, h]
    simp [UInt8.size]
  rw [UInt8.toNat_and, Nat.testBit_and, hn, Nat.testBit_two_pow_sub_succ hlt, Nat.testBit_two_pow]
  by_cases hj : j < 8
  · simp [hj, eq_comm]
  · have : x.toNat.testBit j = false := by
      apply Nat.testBit_lt_two_pow
      exact lt_of_lt_of_le x.toNat_lt (Nat.pow_le_pow_right (by decide) (by omega))
    simp [this]

end Bytes
