/-
The memory that a user sees through a page table, and what `copyout`, `copyin` and `copyinstr` of
`kernel/vm.c` do to it and learn of it.
-/
import Xv6.Vm.Copy

namespace Xv6

open Run Function

variable {store ok : Bool} {src bytes : List UInt8} {a b i k max n : Nat} {pt : PageTable}
  {ph ph' : Phys}

def userMapped (pt : PageTable) (a : Nat) : Bool :=
  a < maxva && has (pt.pte a) pteV && has (pt.pte a) pteU

def view (pt : PageTable) (ph : Phys) (a : Nat) : Option UInt8 :=
  if userMapped pt a then some (ph.mem (physOf pt a)) else none

/-- A page table that is there, and whose user pages are frames that the kernel maps itself, for
reading or also for writing.  The copies take a page with frame 0 for none, and on one that the
kernel does not map they trap. -/
structure Backed (store : Bool) (pt : PageTable) : Prop where
  root : pt.isNull = false
  frames : ∀ a, userMapped pt a = true → direct store (pte2pa (pt.pte a)) = true

theorem Backed.reach_eq (h : Backed store pt) (a : Nat) : reach store pt a = userMapped pt a := by
  show (userMapped pt a && direct store (pte2pa (pt.pte a))) = userMapped pt a
  cases hm : userMapped pt a with
  | false => rfl
  | true => exact h.frames a hm

theorem Backed.userByte_eq (h : Backed store pt) (a : Nat) : userByte (direct store) pt a =
    .ok (if userMapped pt a then some (physOf pt a) else none) := by
  by_cases hm : userMapped pt a = true
  · rw [if_pos hm]
    exact (userByte_eq_some store).2 ⟨(h.reach_eq a).trans hm, rfl⟩
  rw [if_neg hm]
  apply userByte_of_none
  unfold walkaddr
  by_cases hge : pgrounddown a ≥ maxva
  · rw [if_pos hge]
  have hlt : a < maxva := by
    have := (pgrounddown_ge (a := a)).2
    omega
  simp only [userMapped, hlt, Bool.and_eq_true, not_and] at hm
  rw [if_neg hge, h.root, if_neg (by decide), pte_pgrounddown]
  split
  · rfl
  split
  · rfl
  rename_i hv
  rw [Bool.eq_false_iff.2 (hm (by simpa using hv))]
  rfl

theorem lt_of_userMapped (h : userMapped pt a = true) : a < maxva := by
  simp only [userMapped, Bool.and_eq_true, decide_eq_true_eq] at h
  exact h.1.1

theorem view_eq_some (h : userMapped pt a = true) : view pt ph a = some (ph.mem (physOf pt a)) :=
  if_pos h

theorem view_eq_none (h : ¬userMapped pt a = true) : view pt ph a = none := if_neg h

theorem copyin_view (hb : Backed false pt) (ph : Phys) (a n : Nat) : ∃ bytes : List UInt8,
    copyin pt ph (word a) n = .ok (bytes.length == n, bytes) ∧ bytes.length ≤ n ∧
      ∀ i < n, i ≤ bytes.length → bytes[i]? = view pt ph (word (a + i)) := by
  rw [copyin_eq_bytes]
  induction n generalizing a with
  | zero => exact ⟨[], rfl, le_rfl, nofun⟩
  | succ n ih =>
    have hbyte : userByte kernelReads pt (word a) = _ := hb.userByte_eq (word a)
    unfold copyinBytes
    rw [hbyte, word_add_word]
    by_cases hm : userMapped pt (word a) = true
    · obtain ⟨bytes, hrest, hle, hview⟩ := ih (a + 1)
      refine ⟨ph.mem (physOf pt (word a)) :: bytes, ?_, Nat.succ_le_succ hle, fun i hi hlen => ?_⟩
      · rw [if_pos hm]
        refine bind_eq_ok.2 ⟨_, rfl, bind_eq_ok.2 ⟨_, hrest, ?_⟩⟩
        simp [pure, Except.pure]
      · cases i with
        | zero => exact (view_eq_some hm).symm
        | succ i =>
          rw [List.getElem?_cons_succ, hview i (by omega) (Nat.le_of_succ_le_succ hlen),
            ← Nat.add_assoc, Nat.add_right_comm]
    · refine ⟨[], ?_, Nat.zero_le _, fun i _ hlen => ?_⟩
      · rw [if_neg hm]
        rfl
      · obtain rfl := Nat.le_zero.1 hlen
        exact (view_eq_none hm).symm

/-- The copies are what they are for: all bytes or a prefix, and no others. -/
structure Copies (pt : PageTable) (ph : Phys) (a : Nat) (src : List UInt8) (ok : Bool)
    (ph' : Phys) : Prop where
  succeeds : ok = true ↔ ∀ i < src.length, userMapped pt (word (a + i)) = true
  stored : ok = true → ∀ i < src.length, view pt ph' (word (a + i)) = src[i]?
  kept : ok = true → ∀ b, (∀ i < src.length, b ≠ word (a + i)) → view pt ph' b = view pt ph b
  before : ok = false → ∀ b, view pt ph' b ≠ view pt ph b →
    ∃ i < src.length, b = word (a + i) ∧ ∀ j ≤ i, userMapped pt (word (a + j)) = true

/-- A page table with one user page, at 0, in the frame `pa`. -/
def onePage (pa : Nat) : PageTable :=
  .dir 0x80100000 fun i => .dir 0x80101000 fun j => .page 0x80102000 fun k =>
    if i = 0 ∧ j = 0 ∧ k = 0 then pa2pte pa ||| (pteV ||| pteR ||| pteW ||| pteU) else 0

theorem onePage_mapped {pa : Nat} (h : userMapped (onePage pa) a = true) :
    vpn a = 0 ∧ (onePage pa).pte a = pa2pte pa ||| (pteV ||| pteR ||| pteW ||| pteU) := by
  have hlt := lt_of_userMapped h
  have hpte : (onePage pa).pte a = if vpn a / 512 ^ 2 % 512 = 0 ∧ vpn a / 512 ^ 1 % 512 = 0 ∧
      vpn a / 512 ^ 0 % 512 = 0 then _ else 0 := rfl
  split at hpte
  · refine ⟨?_, hpte⟩
    unfold vpn maxva pgsize at *
    omega
  · rw [userMapped, hpte, has_zero, Bool.and_false] at h
    cases h

theorem backed_onePage : Backed store (onePage 0x80103000) := ⟨rfl, fun a h => by
  rw [(onePage_mapped h).2]
  cases store <;> decide⟩

/-- The inner loop of `copyinstr` on the bytes that it finds in a page: what it stores, and whether
that ends with a NUL. -/
def copyinstrChunk : List UInt8 → Bool × List UInt8
  | [] => (false, [])
  | b :: bytes =>
    if b = 0 then (true, [0])
    else ((copyinstrChunk bytes).1, b :: (copyinstrChunk bytes).2)

/-- `copyinstr`; whether it found the NUL, and the bytes that it stored from `dst` on.  The first
argument bounds the number of pages. -/
def copyinstrLoop (pt : PageTable) (ph : Phys) :
    Nat → Nat → Nat → Except Panic (Bool × List UInt8)
  | 0, _, _ => .ok (false, [])
  | fuel + 1, srcva, max =>
    if max = 0 then .ok (false, [])
    else do
      let va0 := pgrounddown srcva
      let pa0 ← walkaddr pt va0
      if pa0 = 0 then return (false, [])
      else
        let n := min (pgsize - (srcva - va0)) max
        let p := pa0 + (srcva - va0)
        require (kernelReads p) .kerneltrap
        let (gotNull, bytes) := copyinstrChunk ((List.range n).map fun i => ph.mem (p + i))
        if gotNull then return (true, bytes)
        else
          let (ok, rest) ← copyinstrLoop pt ph fuel (word (va0 + pgsize)) (max - n)
          return (ok, bytes ++ rest)

def copyinstr (pt : PageTable) (ph : Phys) (srcva max : Nat) : Except Panic (Bool × List UInt8) :=
  copyinstrLoop pt ph max srcva max

theorem copyinstrChunk_append (l r : List UInt8) : copyinstrChunk (l ++ r) =
    if (copyinstrChunk l).1 then (true, (copyinstrChunk l).2)
    else ((copyinstrChunk r).1, (copyinstrChunk l).2 ++ (copyinstrChunk r).2) := by
  induction l with
  | nil => rfl
  | cons b l ih =>
    rw [List.cons_append, copyinstrChunk, copyinstrChunk]
    by_cases hb : b = 0
    · rw [if_pos hb, if_pos hb]
      rfl
    · rw [if_neg hb, if_neg hb, ih]
      cases (copyinstrChunk l).1 <;> rfl

theorem copyinstrLoop_eq {fuel : Nat} (h : copyinLoop pt ph fuel a max = .ok (ok, bytes)) :
    copyinstrLoop pt ph fuel a max = .ok (copyinstrChunk bytes) := by
  induction fuel generalizing a max ok bytes with
  | zero => cases h; rfl
  | succ fuel ih =>
    unfold copyinLoop at h
    unfold copyinstrLoop
    split at h
    · rename_i h0
      cases h
      rw [if_pos h0]
      rfl
    · rename_i h0
      obtain ⟨pa0, hwalk, h⟩ := bind_eq_ok.1 h
      rw [if_neg h0]
      refine bind_eq_ok.2 ⟨_, hwalk, ?_⟩
      split at h
      · rename_i hpa
        cases h
        rw [if_pos hpa]
        rfl
      · rename_i hpa
        obtain ⟨_, hreq, h⟩ := bind_eq_ok.1 h
        obtain ⟨⟨ok', rest⟩, hrest, h⟩ := bind_eq_ok.1 h
        cases h
        rw [if_neg hpa]
        refine bind_eq_ok.2 ⟨_, hreq, ?_⟩
        rw [copyinstrChunk_append]
        dsimp only
        split
        · rfl
        · exact bind_eq_ok.2 ⟨_, ih hrest, rfl⟩

theorem length_copyinstrChunk (l : List UInt8) : (copyinstrChunk l).2.length ≤ l.length := by
  induction l with
  | nil => exact le_rfl
  | cons b l ih =>
    unfold copyinstrChunk
    split
    · exact Nat.le_add_left ..
    · exact Nat.succ_le_succ ih

def FirstNul (bytes : Nat → Option UInt8) (k : Nat) : Prop :=
  ∀ i ≤ k, ∃ b, bytes i = some b ∧ (b = 0 ↔ i = k)

theorem copyinstrChunk_of_firstNul {l : List UInt8} (h : FirstNul (l[·]?) k) :
    copyinstrChunk l = (true, l.take (k + 1)) := by
  induction l generalizing k with
  | nil =>
    obtain ⟨b, hb, -⟩ := h 0 (Nat.zero_le k)
    cases hb
  | cons b l ih =>
    obtain ⟨c, hc, hnul⟩ := h 0 (Nat.zero_le k)
    cases hc
    unfold copyinstrChunk
    cases k with
    | zero =>
      obtain rfl : b = 0 := hnul.2 rfl
      rfl
    | succ k =>
      have hrest : FirstNul (l[·]?) k := fun i hi => by
        obtain ⟨c, hc, hnul⟩ := h (i + 1) (Nat.succ_le_succ hi)
        exact ⟨c, hc, hnul.trans Nat.succ_inj⟩
      rw [if_neg fun he => absurd (hnul.1 he) (Nat.succ_ne_zero k).symm, ih hrest]
      rfl

theorem exists_firstNul {l : List UInt8} (h : (copyinstrChunk l).1 = true) :
    ∃ k, FirstNul (l[·]?) k := by
  induction l with
  | nil => cases h
  | cons b l ih =>
    unfold copyinstrChunk at h
    split at h
    · rename_i hb
      refine ⟨0, fun i hi => ?_⟩
      obtain rfl := Nat.le_zero.1 hi
      exact ⟨b, rfl, by simp [hb]⟩
    · rename_i hb
      obtain ⟨k, hk⟩ := ih h
      refine ⟨k + 1, fun i hi => ?_⟩
      cases i with
      | zero => exact ⟨b, rfl, by simp [hb]⟩
      | succ i =>
        obtain ⟨c, hc, hnul⟩ := hk i (Nat.le_of_succ_le_succ hi)
        exact ⟨c, hc, hnul.trans Nat.succ_inj.symm⟩

/-- `copyinstr` returns 0 exactly if the user sees a NUL among the first `max` bytes, with a page at
each byte up to it; it has then stored the bytes up to the NUL.  It never stores more than `max`. -/
theorem copyinstr_spec (hb : Backed false pt) (ph : Phys) (a max : Nat) :
    ∃ ok dst, copyinstr pt ph (word a) max = .ok (ok, dst) ∧ dst.length ≤ max ∧
      (ok = true ↔ ∃ k < max, FirstNul (fun i => view pt ph (word (a + i))) k) ∧
      ∀ k < max, FirstNul (fun i => view pt ph (word (a + i))) k →
        dst.length = k + 1 ∧ ∀ i ≤ k, dst[i]? = view pt ph (word (a + i)) := by
  obtain ⟨bytes, hin, hle, hview⟩ := copyin_view hb ph a max
  -- the user's bytes up to a NUL are those that `copyin` reads
  have hfirst : ∀ k < max, FirstNul (fun i => view pt ph (word (a + i))) k →
      k < bytes.length ∧ FirstNul (bytes[·]?) k := by
    intro k hk h
    have hlt : k < bytes.length := by
      by_contra hge
      obtain ⟨b, hb, -⟩ := h bytes.length (by omega)
      dsimp only at hb
      rw [← hview bytes.length (by omega) le_rfl, List.getElem?_eq_none le_rfl] at hb
      cases hb
    refine ⟨hlt, fun i hi => ?_⟩
    show ∃ b, bytes[i]? = some b ∧ (b = 0 ↔ i = k)
    rw [hview i (by omega) (by omega)]
    exact h i hi
  refine ⟨_, _, copyinstrLoop_eq hin, (length_copyinstrChunk bytes).trans hle, ⟨fun h => ?_, ?_⟩,
    fun k hk h => ?_⟩
  · obtain ⟨k, hk⟩ := exists_firstNul h
    have hlt : k < bytes.length := by
      obtain ⟨b, hb, -⟩ := hk k le_rfl
      exact (List.getElem?_eq_some_iff.1 hb).1
    refine ⟨k, by omega, fun i hi => ?_⟩
    show ∃ b, view pt ph (word (a + i)) = some b ∧ (b = 0 ↔ i = k)
    rw [← hview i (by omega) (by omega)]
    exact hk i hi
  · rintro ⟨k, hk, h⟩
    rw [copyinstrChunk_of_firstNul (hfirst k hk h).2]
  · obtain ⟨hlt, hk⟩ := hfirst k hk h
    rw [copyinstrChunk_of_firstNul hk]
    refine ⟨List.length_take_of_le hlt, fun i hi => ?_⟩
    rw [List.getElem?_take_of_lt (by omega), hview i (by omega) (by omega)]

theorem copyinstr_onePage :
    copyinstr (onePage 0x80103000) ⟨[], fun _ => 0⟩ (word 4095) 16 = .ok (true, [0]) := by
  obtain ⟨ok, dst, hstr, -, hok, hdst⟩ := copyinstr_spec backed_onePage ⟨[], fun _ => 0⟩ 4095 16
  have hnul : FirstNul (fun i => view (onePage 0x80103000) ⟨[], fun _ => 0⟩ (word (4095 + i))) 0 :=
    fun i hi => ⟨0, by obtain rfl := Nat.le_zero.1 hi; decide, by simp [Nat.le_zero.1 hi]⟩
  obtain rfl := hok.2 ⟨0, by decide, hnul⟩
  obtain ⟨hlen, hget⟩ := hdst 0 (by decide) hnul
  obtain ⟨b, rfl⟩ := List.length_eq_one_iff.1 hlen
  obtain rfl : b = 0 := Option.some.inj (hget 0 le_rfl)
  exact hstr

/-- A NUL that the user sees, on a page in frame 0. -/
theorem copyinstr_frame_zero :
    FirstNul (fun i => view (onePage 0) ⟨[], fun _ => 0⟩ (word (0 + i))) 0 ∧
      copyinstr (onePage 0) ⟨[], fun _ => 0⟩ (word 0) 16 = .ok (false, []) :=
  ⟨fun i hi => ⟨0, by obtain rfl := Nat.le_zero.1 hi; decide, by simp [Nat.le_zero.1 hi]⟩, rfl⟩

end Xv6
