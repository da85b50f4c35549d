/-
The user library: `memmove` of `user/ulib.c` beside the one of `kernel/string.c`, and the sizes
that `malloc` of `user/umalloc.c` asks for.
-/
import Xv6.Riscv

namespace Xv6.User

open Function

variable {d s n : Nat} {m : Nat → UInt8}

/-! ## memmove of the kernel and of the library -/

/-- `while(n-- > 0) *d++ = *s++` on the bytes of memory -/
def copyUp : Nat → Nat → Nat → (Nat → UInt8) → Nat → UInt8
  | 0, _, _, m => m
  | n + 1, d, s, m => copyUp n (word (d + 1)) (word (s + 1)) (update m d (m s))

/-- `while(n-- > 0) *--d = *--s` -/
def copyDown : Nat → Nat → Nat → (Nat → UInt8) → Nat → UInt8
  | 0, _, _, m => m
  | n + 1, d, s, m => copyDown n (wsub d 1) (wsub s 1) (update m (wsub d 1) (m (wsub s 1)))

/-- `memmove` of `kernel/string.c`, which takes an unsigned length -/
def kernelMemmove (dst src n : Nat) (m : Nat → UInt8) : Nat → UInt8 :=
  if n = 0 then m
  else if src < dst ∧ word (src + n) > dst then copyDown n (word (dst + n)) (word (src + n)) m
  else copyUp n dst src m

/-- `memmove` of `user/ulib.c`, which takes a signed one -/
def userMemmove (dst src : Nat) (n : Int) (m : Nat → UInt8) : Nat → UInt8 :=
  if src > dst then copyUp n.toNat dst src m
  else copyDown n.toNat ((dst + n) % 2 ^ 64).toNat ((src + n) % 2 ^ 64).toNat m

/-- The memory `m` with the bytes of `[s, s + n)` also at `[d, d + n)`. -/
def moved (d s n : Nat) (m : Nat → UInt8) (a : Nat) : UInt8 :=
  if d ≤ a ∧ a < d + n then m (s + (a - d)) else m a

theorem moved_zero (d s : Nat) (m : Nat → UInt8) : moved d s 0 m = m :=
  funext fun _ => if_neg (by omega)

theorem wsub_word_succ (h : n < 2 ^ 64) : wsub (word (n + 1)) 1 = n := by
  unfold wsub word
  omega

theorem copyUp_eq (hd : d + n ≤ 2 ^ 64) (hs : s + n ≤ 2 ^ 64) (h : d ≤ s ∨ s + n ≤ d) :
    copyUp n d s m = moved d s n m := by
  induction n generalizing d s m with
  | zero => rw [copyUp, moved_zero]
  | succ n ih =>
    have hrest : copyUp n (word (d + 1)) (word (s + 1)) (update m d (m s))
        = moved (d + 1) (s + 1) n (update m d (m s)) := by
      rcases n.eq_zero_or_pos with rfl | hn
      · rw [copyUp, moved_zero]
      · rw [word_of_lt (by omega), word_of_lt (by omega)]
        exact ih (by omega) (by omega) (by omega)
    rw [copyUp, hrest]
    funext a
    unfold moved
    by_cases ha : a = d
    · subst ha
      rw [if_neg (by omega), update_self, if_pos (by omega), Nat.sub_self, Nat.add_zero]
    · by_cases hin : d + 1 ≤ a ∧ a < d + 1 + n
      · rw [if_pos hin, if_pos (by omega), update_of_ne (by omega),
          show s + 1 + (a - (d + 1)) = s + (a - d) by omega]
      · rw [if_neg hin, if_neg (by omega), update_of_ne ha]

theorem copyDown_eq (hd : d + n ≤ 2 ^ 64) (hs : s + n ≤ 2 ^ 64) (h : s ≤ d ∨ d + n ≤ s) :
    copyDown n (word (d + n)) (word (s + n)) m = moved d s n m := by
  induction n generalizing m with
  | zero => rw [copyDown, moved_zero]
  | succ n ih =>
    rw [copyDown, ← Nat.add_assoc, ← Nat.add_assoc, wsub_word_succ (by omega),
      wsub_word_succ (by omega)]
    have hrest := ih (m := update m (d + n) (m (s + n))) (by omega) (by omega) (by omega)
    rw [word_of_lt (by omega), word_of_lt (by omega)] at hrest
    rw [hrest]
    funext a
    unfold moved
    by_cases ha : a = d + n
    · subst ha
      rw [if_neg (by omega), update_self, if_pos (by omega), Nat.add_sub_cancel_left]
    · by_cases hin : d ≤ a ∧ a < d + n
      · rw [if_pos hin, if_pos (by omega), update_of_ne (by omega)]
      · rw [if_neg hin, if_neg (by omega), update_of_ne ha]

theorem kernelMemmove_eq (hd : d + n ≤ 2 ^ 64) (hs : s + n ≤ 2 ^ 64) :
    kernelMemmove d s n m = moved d s n m := by
  unfold kernelMemmove
  split
  · next h0 => rw [h0, moved_zero]
  · split
    · next h => exact copyDown_eq hd hs (by omega)
    · next h =>
      refine copyUp_eq hd hs ?_
      -- a source that starts before the destination ends before 2^64
      by_contra hc
      exact h ⟨by omega, by rw [word_of_lt (by omega)]; omega⟩

theorem userMemmove_eq (hd : d + n ≤ 2 ^ 64) (hs : s + n ≤ 2 ^ 64) :
    userMemmove d s n m = moved d s n m := by
  unfold userMemmove
  rw [Int.toNat_natCast]
  split
  · next h => exact copyUp_eq hd hs (by omega)
  · next h =>
    have hword : ∀ x : Nat, ((x + n : Int) % 2 ^ 64).toNat = word (x + n) := fun x => by
      unfold word
      omega
    rw [hword, hword]
    exact copyDown_eq hd hs (by omega)

/-- Both functions leave the source's bytes at the destination and every other byte as it was,
however the ranges overlap. -/
theorem memmove_moves (m : Nat → UInt8) (hd : d + n ≤ 2 ^ 64) (hs : s + n ≤ 2 ^ 64) :
    (∀ i < n, kernelMemmove d s n m (d + i) = m (s + i)) ∧
      (∀ a, a < d ∨ d + n ≤ a → kernelMemmove d s n m a = m a) ∧
      userMemmove d s n m = kernelMemmove d s n m := by
  rw [kernelMemmove_eq hd hs, userMemmove_eq hd hs]
  refine ⟨fun i hi => ?_, fun a ha => if_neg (by omega), rfl⟩
  rw [moved, if_pos (by omega), Nat.add_sub_cancel_left]

theorem memmove_moves_overlap :
    (∀ i < 3, kernelMemmove 1 0 3 (fun a => a.toUInt8) (1 + i) = (0 + i).toUInt8) ∧
      (∀ a, a < 1 ∨ 1 + 3 ≤ a → kernelMemmove 1 0 3 (fun a => a.toUInt8) a = a.toUInt8) ∧
      userMemmove 1 0 (3 : Nat) (fun a => a.toUInt8) = kernelMemmove 1 0 3 fun a => a.toUInt8 :=
  memmove_moves _ (by decide) (by decide)

/-! ## The sizes in malloc -/

/-- `nunits` of `malloc`: units of `sizeof(Header)`, which is 16, as a `uint` -/
def nunits (nbytes : Nat) : Nat := word (word (nbytes + 16 - 1) / 16 + 1) % 2 ^ 32

/-- `morecore`: what it asks `sbrk` for, converted to `int`, and the block that it puts into the
free list, by address and units. -/
def morecore (sbrk : Int → Nat) (nu : Nat) : Int × Option (Nat × Nat) :=
  let nu := if nu < 4096 then 4096 else nu
  let n := Int.bmod (word (nu * 16)) (2 ^ 32)
  let p := sbrk n
  (n, if p = 2 ^ 64 - 1 then none else some (p, nu))

/-- A block that is put into the free list is no larger than what was asked for. -/
def Covered (nbytes : Nat) : Prop :=
  ∀ sbrk p nu, (morecore sbrk (nunits nbytes)).2 = some (p, nu) →
    (nu * 16 : Int) ≤ (morecore sbrk (nunits nbytes)).1

theorem morecore_eq (sbrk : Int → Nat) {nbytes : Nat} (h : nbytes < 2 ^ 32) :
    ∃ nu, nu = max 4096 ((nbytes + 15) / 16 + 1) ∧ morecore sbrk (nunits nbytes)
      = (Int.bmod (nu * 16 : Nat) (2 ^ 32),
        if sbrk (Int.bmod (nu * 16 : Nat) (2 ^ 32)) = 2 ^ 64 - 1 then none
        else some (sbrk (Int.bmod (nu * 16 : Nat) (2 ^ 32)), nu)) := by
  have hn : nunits nbytes = (nbytes + 15) / 16 + 1 := by
    unfold nunits word
    omega
  have hmax : (if nunits nbytes < 4096 then 4096 else nunits nbytes)
      = max 4096 ((nbytes + 15) / 16 + 1) := by
    rw [hn]
    split <;> omega
  refine ⟨_, rfl, ?_⟩
  unfold morecore
  dsimp only
  rw [hmax, word_of_lt (by omega)]

/-- The request is large enough as long as its number of bytes is an `int`. -/
theorem covered_iff {nbytes : Nat} (h : nbytes < 2 ^ 32) :
    Covered nbytes ↔ nbytes ≤ 2 ^ 31 - 32 := by
  constructor
  · intro hc
    obtain ⟨nu, hnu, he⟩ := morecore_eq (fun _ => 0) h
    rw [if_neg (by decide)] at he
    have hle := hc (fun _ => 0) 0 nu (by rw [he])
    rw [he] at hle
    have hlt : Int.bmod (nu * 16 : Nat) (2 ^ 32) < (2 ^ 32 + 1) / 2 := Int.bmod_lt (by decide)
    omega
  · intro hle sbrk p nu' hrec
    obtain ⟨nu, hnu, he⟩ := morecore_eq sbrk h
    rw [he] at hrec ⊢
    have hreq : Int.bmod (nu * 16 : Nat) (2 ^ 32) = (nu * 16 : Nat) :=
      Int.bmod_eq_of_le (by omega) (by omega)
    dsimp only at hrec
    split at hrec
    · cases hrec
    · cases hrec
      rw [hreq]
      exact Int.le_of_eq (by push_cast; rfl)

theorem covered_one : Covered 1 ↔ 1 ≤ 2 ^ 31 - 32 := covered_iff (by decide)

/-- For the largest size 16 bytes are asked for, and `2 ^ 28 + 1` units are recorded. -/
theorem not_covered_max : ¬ Covered (2 ^ 32 - 1) := by
  intro h
  have := h (fun _ => 0) 0 (2 ^ 28 + 1) (by decide)
  revert this
  decide

end Xv6.User
