/-
Machine words and page-table entries, from `kernel/riscv.h`.  A `uint64` is a natural number
below `2 ^ 64`; a C `int` is kept as its 32-bit word and sign-extended where the code
converts it.
-/
import Mathlib.Data.Nat.Bitwise
import Xv6.Param

namespace Xv6

variable {m pa w x : Nat}

def word (x : Nat) : Nat := x % 2 ^ 64

def wsub (x y : Nat) : Nat := word (x + 2 ^ 64 - y)

/-- Conversion of a 32-bit `int`, given as its word, to `uint64`. -/
def sext (w : Nat) : Nat := if w % 2 ^ 32 < 2 ^ 31 then w % 2 ^ 32 else w % 2 ^ 32 + (2 ^ 64 - 2 ^ 32)

def pgroundup (sz : Nat) : Nat := word (sz + (pgsize - 1)) / pgsize * pgsize

def pgrounddown (a : Nat) : Nat := a / pgsize * pgsize

def pteV : Nat := 1
def pteR : Nat := 2
def pteW : Nat := 4
def pteX : Nat := 8
def pteU : Nat := 16

/-- Some bit of the mask `m` is set in `w`: the C condition `w & m`. -/
def has (w m : Nat) : Bool := w &&& m != 0

def pa2pte (pa : Nat) : Nat := pa >>> 12 <<< 10

def pte2pa (pte : Nat) : Nat := word (pte >>> 10 <<< 12)

def pteFlags (pte : Nat) : Nat := pte &&& 0x3ff

/-- The number of the page that holds `va`; the digits of it in base 512 are the indices
`PX(2, va)`, `PX(1, va)` and `PX(0, va)`. -/
def vpn (va : Nat) : Nat := va / pgsize

/-! ## Words -/

theorem word_lt (x : Nat) : word x < 2 ^ 64 := Nat.mod_lt _ (by decide)

theorem word_of_lt (h : x < 2 ^ 64) : word x = x := Nat.mod_eq_of_lt h

theorem wsub_of_le {y : Nat} (h : y ≤ x) (hx : x < 2 ^ 64) : wsub x y = x - y := by
  unfold wsub word
  omega

theorem sext_of_lt (h : w < 2 ^ 31) : sext w = w := by
  unfold sext
  rw [Nat.mod_eq_of_lt (by omega), if_pos h]

theorem pgrounddown_mod (a : Nat) : pgrounddown a % pgsize = 0 := Nat.mul_mod_left _ _

theorem pgrounddown_of_mod {a : Nat} (h : a % pgsize = 0) : pgrounddown a = a := by
  unfold pgrounddown pgsize at *
  omega

/-! ## Entries -/

@[simp] theorem has_zero (m : Nat) : has 0 m = false := by simp [has]

theorem has_or (x y m : Nat) : has (x ||| y) m = (has x m || has y m) := by
  have h : (x ||| y) &&& m = (x &&& m) ||| (y &&& m) := Nat.and_or_distrib_right ..
  have h0 : (x &&& m) ||| (y &&& m) = 0 ↔ x &&& m = 0 ∧ y &&& m = 0 := Nat.or_eq_zero_iff
  rw [Bool.eq_iff_iff]
  simp only [has, h, bne_iff_ne, Bool.or_eq_true]
  tauto

theorem pa2pte_or (hw : w < 1024) : pa2pte pa ||| w = pa / 4096 * 1024 + w := by
  unfold pa2pte
  rw [← Nat.shiftLeft_add_eq_or_of_lt (by exact hw), Nat.shiftLeft_eq, Nat.shiftRight_eq_div_pow]

theorem has_pa2pte (pa : Nat) (hm : m < 1024) : has (pa2pte pa) m = false := by
  have h : pa2pte pa &&& m = 0 := by
    apply Nat.eq_of_testBit_eq
    intro i
    rw [Nat.testBit_and, pa2pte, Nat.zero_testBit]
    by_cases hi : 10 ≤ i
    · have hpow : 2 ^ 10 ≤ 2 ^ i := Nat.pow_le_pow_right (by decide) hi
      rw [Nat.testBit_lt_two_pow (lt_of_lt_of_le hm hpow), Bool.and_false]
    · simp [hi]
  simp [has, h]

theorem pte2pa_mod (w : Nat) : pte2pa w % pgsize = 0 := by
  unfold pte2pa word pgsize
  omega

theorem pte2pa_pa2pte_or (hpa : pa % pgsize = 0) (hlt : pa < 2 ^ 64) (hw : w < 1024) :
    pte2pa (pa2pte pa ||| w) = pa := by
  rw [pa2pte_or hw]
  unfold pte2pa word pgsize at *
  omega

theorem pteFlags_pa2pte_or (hw : w < 1024) : pteFlags (pa2pte pa ||| w) = w := by
  rw [pa2pte_or hw]
  unfold pteFlags
  rw [show (0x3ff : Nat) = 2 ^ 10 - 1 by decide, Nat.and_two_pow_sub_one_eq_mod]
  omega

theorem pteFlags_lt (w : Nat) : pteFlags w < 1024 :=
  lt_of_le_of_lt Nat.and_le_right (by decide)

theorem or_pteV (h : has x pteV = true) : x ||| pteV = x := by
  have hodd : x % 2 = 1 := by
    have hne : x &&& 1 ≠ 0 := by simpa [has, pteV] using h
    rw [Nat.and_one_is_mod] at hne
    omega
  rw [show pteV = 1 by decide]
  refine Nat.eq_of_testBit_eq fun i => ?_
  rw [Nat.testBit_or]
  cases i with
  | zero => simp [hodd]
  | succ i => simp [Nat.testBit_succ]

theorem has_pteFlags (w : Nat) (hm : m &&& 0x3ff = m) : has (pteFlags w) m = has w m := by
  unfold has pteFlags
  rw [Nat.and_assoc, Nat.and_comm 0x3ff m, hm]

end Xv6
