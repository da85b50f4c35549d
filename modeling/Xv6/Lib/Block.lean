/-
Fixed-size blocks of bytes and the little-endian words stored in them.

A block of `size` bytes is a function on `Fin size`.  Offsets are natural
numbers taken modulo the size, so that reading and writing need no bound proof
and the accessors stay computable.
-/
import Mathlib.Data.Fin.Basic
import Mathlib.Tactic.Ring

namespace Bytes

abbrev Block (size : Nat) := Fin size → UInt8

variable {size : Nat} [NeZero size]

def byteAt (b : Block size) (o : Nat) : UInt8 := b (Fin.ofNat size o)

def setByte (b : Block size) (o : Nat) (v : UInt8) : Block size :=
  Function.update b (Fin.ofNat size o) v

theorem ofNat_eq_iff {x y : Nat} (hx : x < size) (hy : y < size) :
    Fin.ofNat size x = Fin.ofNat size y ↔ x = y := by
  simp only [Fin.ext_iff, Fin.ofNat, Nat.mod_eq_of_lt hx, Nat.mod_eq_of_lt hy]

theorem byteAt_setByte_self (b : Block size) (o : Nat) (v : UInt8) :
    byteAt (setByte b o v) o = v := by
  simp [byteAt, setByte]

theorem byteAt_setByte_ne (b : Block size) {o o' : Nat} (v : UInt8)
    (ho : o < size) (ho' : o' < size) (h : o' ≠ o) :
    byteAt (setByte b o v) o' = byteAt b o' := by
  have hne : Fin.ofNat size o' ≠ Fin.ofNat size o :=
    fun e => h ((ofNat_eq_iff ho' ho).mp e)
  simp only [byteAt, setByte, Function.update_of_ne hne]

/-- The 32-bit little-endian word whose lowest byte is at offset `o`. -/
def u32At (b : Block size) (o : Nat) : Nat :=
  (byteAt b o).toNat + 2 ^ 8 * (byteAt b (o + 1)).toNat +
    2 ^ 16 * (byteAt b (o + 2)).toNat + 2 ^ 24 * (byteAt b (o + 3)).toNat

/-- Store the low 32 bits of `v` at offset `o`. -/
def setU32 (b : Block size) (o v : Nat) : Block size :=
  setByte (setByte (setByte (setByte b o (UInt8.ofNat v)) (o + 1) (UInt8.ofNat (v / 2 ^ 8)))
    (o + 2) (UInt8.ofNat (v / 2 ^ 16))) (o + 3) (UInt8.ofNat (v / 2 ^ 24))

theorem byteAt_setU32_ne (b : Block size) {o o' v : Nat} (ho : o + 3 < size) (ho' : o' < size)
    (h : o' < o ∨ o + 3 < o') : byteAt (setU32 b o v) o' = byteAt b o' := by
  unfold setU32
  rw [byteAt_setByte_ne _ _ (by omega) ho' (by omega),
    byteAt_setByte_ne _ _ (by omega) ho' (by omega),
    byteAt_setByte_ne _ _ (by omega) ho' (by omega),
    byteAt_setByte_ne _ _ (by omega) ho' (by omega)]

theorem u32At_setU32_self (b : Block size) {o v : Nat} (ho : o + 3 < size) (hv : v < 2 ^ 32) :
    u32At (setU32 b o v) o = v := by
  have h3 : byteAt (setU32 b o v) (o + 3) = UInt8.ofNat (v / 2 ^ 24) := by
    rw [setU32, byteAt_setByte_self]
  have h2 : byteAt (setU32 b o v) (o + 2) = UInt8.ofNat (v / 2 ^ 16) := by
    rw [setU32, byteAt_setByte_ne _ _ (by omega) (by omega) (by omega), byteAt_setByte_self]
  have h1 : byteAt (setU32 b o v) (o + 1) = UInt8.ofNat (v / 2 ^ 8) := by
    rw [setU32, byteAt_setByte_ne _ _ (by omega) (by omega) (by omega),
      byteAt_setByte_ne _ _ (by omega) (by omega) (by omega), byteAt_setByte_self]
  have h0 : byteAt (setU32 b o v) o = UInt8.ofNat v := by
    rw [setU32, byteAt_setByte_ne _ _ (by omega) (by omega) (by omega),
      byteAt_setByte_ne _ _ (by omega) (by omega) (by omega),
      byteAt_setByte_ne _ _ (by omega) (by omega) (by omega), byteAt_setByte_self]
  rw [u32At, h0, h1, h2, h3]
  simp only [UInt8.toNat_ofNat']
  omega

theorem u32At_setU32_ne (b : Block size) {o o' v : Nat} (ho : o + 3 < size) (ho' : o' + 3 < size)
    (h : o' + 3 < o ∨ o + 3 < o') : u32At (setU32 b o v) o' = u32At b o' := by
  unfold u32At
  rw [byteAt_setU32_ne b ho (by omega) (by omega), byteAt_setU32_ne b ho (by omega) (by omega),
    byteAt_setU32_ne b ho (by omega) (by omega), byteAt_setU32_ne b ho ho' (by omega)]

end Bytes
