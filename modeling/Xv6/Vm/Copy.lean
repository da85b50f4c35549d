/-
Copies between the kernel and a user range, `copyin` and `copyout` of `kernel/vm.c`.  The loops
go page by page; they do what a loop over the bytes would do.
-/
import Xv6.Lib.Run
import Xv6.Vm.Basic

namespace Xv6

open Run Function List

variable {ok : Bool} {src : List UInt8} {a n pa pa0 va0 : Nat} {pt : PageTable} {ph ph' : Phys}

/-- `copyin`; whether all bytes were read, and those that were.  The first argument bounds the
number of pages. -/
def copyinLoop (pt : PageTable) (ph : Phys) : Nat → Nat → Nat → Except Panic (Bool × List UInt8)
  | 0, _, len => .ok (len == 0, [])
  | fuel + 1, srcva, len =>
    if len = 0 then .ok (true, [])
    else do
      let va0 := pgrounddown srcva
      let pa0 ← walkaddr pt va0
      if pa0 = 0 then return (false, [])
      else
        let n := min (pgsize - (srcva - va0)) len
        let src := pa0 + (srcva - va0)
        require (kernelReads src) .kerneltrap
        let (ok, rest) ← copyinLoop pt ph fuel (word (va0 + pgsize)) (len - n)
        return (ok, (List.range n).map (fun i => ph.mem (src + i)) ++ rest)

def copyin (pt : PageTable) (ph : Phys) (srcva len : Nat) : Except Panic (Bool × List UInt8) :=
  copyinLoop pt ph len srcva len

/-! ## Byte by byte -/

/-- Where the kernel finds the byte at user address `a`, if `walkaddr` finds its page; it traps
on a page that its own table does not map. -/
def userByte (direct : Nat → Bool) (pt : PageTable) (a : Nat) : Except Panic (Option Nat) := do
  let pa0 ← walkaddr pt (pgrounddown a)
  if pa0 = 0 then return none
  else
    require (direct (pa0 + a % pgsize)) .kerneltrap
    return some (pa0 + a % pgsize)

def copyoutBytes (pt : PageTable) : Nat → List UInt8 → Phys → Except Panic (Bool × Phys)
  | _, [], ph => .ok (true, ph)
  | a, b :: src, ph => do
      match ← userByte kernelWrites pt a with
      | none => return (false, ph)
      | some pa => copyoutBytes pt (word (a + 1)) src { ph with mem := update ph.mem pa b }

def copyinBytes (pt : PageTable) (ph : Phys) : Nat → Nat → Except Panic (Bool × List UInt8)
  | _, 0 => .ok (true, [])
  | a, n + 1 => do
      match ← userByte kernelReads pt a with
      | none => return (false, [])
      | some pa =>
        let (ok, rest) ← copyinBytes pt ph (word (a + 1)) n
        return (ok, ph.mem pa :: rest)

/-- A property of physical addresses that is the same on all of a page. -/
def PageWise (direct : Nat → Bool) : Prop :=
  ∀ pa, pa % pgsize = 0 → ∀ i < pgsize, direct (pa + i) = direct pa

theorem isDevice_add {i : Nat} (hpa : pa % pgsize = 0) (hi : i < pgsize) :
    isDevice (pa + i) = isDevice pa := by
  unfold isDevice uart0 virtio0 plic pgsize at *
  rw [Bool.eq_iff_iff]
  simp only [Bool.or_eq_true, Bool.and_eq_true, decide_eq_true_eq]
  omega

theorem pageWise_kernelReads : PageWise kernelReads := by
  intro pa hpa i hi
  unfold kernelReads
  rw [isDevice_add hpa hi]
  congr 1
  unfold phystop kernbase pgsize at *
  rw [Bool.eq_iff_iff]
  simp only [Bool.and_eq_true, decide_eq_true_eq]
  omega

theorem pageWise_kernelWrites : PageWise kernelWrites := by
  intro pa hpa i hi
  unfold kernelWrites
  rw [isDevice_add hpa hi]
  congr 1
  unfold etext phystop kernbase pgsize at *
  rw [Bool.eq_iff_iff]
  simp only [Bool.and_eq_true, decide_eq_true_eq]
  omega

theorem walkaddr_page {va : Nat} (h : walkaddr pt va = .ok pa) :
    pa % pgsize = 0 ∧ (pa ≠ 0 → va < maxva) := by
  unfold walkaddr at h
  by_cases hge : va ≥ maxva
  · rw [if_pos hge] at h
    cases h
    exact ⟨by decide, fun h => absurd rfl h⟩
  · refine ⟨?_, fun _ => by omega⟩
    rw [if_neg hge] at h
    split at h
    · cases h
    · split at h
      · cases h; decide
      · split at h
        · cases h; decide
        · split at h
          · cases h; decide
          · cases h; exact pte2pa_mod _

theorem userByte_of_page {direct : Nat → Bool} (hd : PageWise direct)
    (hwalk : walkaddr pt va0 = .ok pa0) (h0 : pa0 ≠ 0) (ha : pgrounddown a = va0) :
    userByte direct pt a = if direct pa0 then .ok (some (pa0 + a % pgsize))
      else .error .kerneltrap := by
  unfold userByte
  rw [ha, hwalk]
  have hpage := hd pa0 (walkaddr_page hwalk).1 (a % pgsize) (Nat.mod_lt _ (by decide))
  change (if pa0 = 0 then _ else _) = _
  rw [if_neg h0, hpage]
  cases direct pa0 <;> rfl

theorem userByte_of_none {direct : Nat → Bool} (hwalk : walkaddr pt (pgrounddown a) = .ok 0) :
    userByte direct pt a = .ok none := by
  unfold userByte
  rw [hwalk]
  rfl

theorem pgrounddown_next (h : n + 1 ≤ pgsize - (a - pgrounddown a)) (hn : 0 < n) :
    pgrounddown (a + 1) = pgrounddown a ∧ n ≤ pgsize - (a + 1 - pgrounddown (a + 1)) ∧
      (a + 1) % pgsize = a % pgsize + 1 := by
  unfold pgrounddown pgsize at *
  omega

def storeList (mem : Nat → UInt8) (dst : Nat) (src : List UInt8) : Nat → UInt8 :=
  fun a => if dst ≤ a ∧ a < dst + src.length then src.getD (a - dst) 0 else mem a

theorem storeList_cons (mem : Nat → UInt8) (dst : Nat) (b : UInt8) (src : List UInt8) :
    storeList mem dst (b :: src) = storeList (update mem dst b) (dst + 1) src := by
  funext a
  unfold storeList
  simp only [length_cons]
  by_cases h : a = dst
  · subst h
    rw [if_pos (by omega), if_neg (by omega), Nat.sub_self, update_self]
    rfl
  · by_cases hin : dst + 1 ≤ a ∧ a < dst + 1 + src.length
    · rw [if_pos (by omega), if_pos hin, show a - dst = a - (dst + 1) + 1 by omega]
      rfl
    · rw [if_neg (by omega), if_neg hin, update_of_ne h]

theorem copyoutBytes_chunk {chunk : List UInt8} (rest : List UInt8) (ph : Phys)
    (hwalk : walkaddr pt va0 = .ok pa0) (h0 : pa0 ≠ 0) (hk : kernelWrites pa0 = true)
    (ha : pgrounddown a = va0) (hlen : chunk.length ≤ pgsize - (a - va0)) (hne : chunk ≠ []) :
    copyoutBytes pt a (chunk ++ rest) ph = copyoutBytes pt (word (a + chunk.length)) rest
      { ph with mem := storeList ph.mem (pa0 + a % pgsize) chunk } := by
  induction chunk generalizing a ph with
  | nil => exact absurd rfl hne
  | cons b chunk ih =>
    have hmax := (walkaddr_page hwalk).2 h0
    have hbyte : userByte kernelWrites pt a = .ok (some (pa0 + a % pgsize)) := by
      rw [userByte_of_page pageWise_kernelWrites hwalk h0 ha, if_pos hk]
    have hlt : a + 1 < 2 ^ 64 := by
      unfold pgrounddown pgsize maxva at *
      omega
    rw [cons_append, copyoutBytes, hbyte, storeList_cons]
    change copyoutBytes pt (word (a + 1)) (chunk ++ rest) _ = _
    rw [word_of_lt hlt]
    rw [length_cons] at hlen ⊢
    cases chunk with
    | nil =>
      rw [length_nil, word_of_lt hlt]
      congr 2
      funext x
      rw [storeList, length_nil, if_neg (by omega)]
    | cons c chunk =>
      obtain ⟨hpage, hroom, hmod⟩ := pgrounddown_next (by rw [ha]; exact hlen)
        (show 0 < (c :: chunk).length by simp)
      rw [ih _ (hpage.trans ha) (by rwa [hpage, ha] at hroom) (by simp), hmod]
      congr 2
      rw [show a + 1 + (c :: chunk).length = a + ((c :: chunk).length + 1) by omega]

theorem storeList_take (mem : Nat → UInt8) (dst n : Nat) (src : List UInt8)
    (h : n ≤ src.length) : storeList mem dst (src.take n) = fun a =>
      if dst ≤ a ∧ a < dst + n then src.getD (a - dst) 0 else mem a := by
  funext a
  rw [storeList, length_take, Nat.min_eq_left h]
  by_cases hin : dst ≤ a ∧ a < dst + n
  · rw [if_pos hin, if_pos hin, getD_eq_getElem?_getD, getD_eq_getElem?_getD,
      List.getElem?_take, if_pos (by omega)]
  · rw [if_neg hin, if_neg hin]

theorem chunk_cases {len : Nat} (hlen : 0 < len) (hn : n = min (pgsize - (a - pgrounddown a)) len) :
    0 < n ∧ n ≤ len ∧ n ≤ pgsize - (a - pgrounddown a) ∧
      (a + n = pgrounddown a + pgsize ∨ n = len) := by
  unfold pgrounddown pgsize at *
  omega

theorem sub_pgrounddown (a : Nat) : a - pgrounddown a = a % pgsize := by
  unfold pgrounddown pgsize
  omega

theorem userByte_error {direct : Nat → Bool} {e : Panic}
    (hwalk : walkaddr pt (pgrounddown a) = .error e) : userByte direct pt a = .error e := by
  unfold userByte
  rw [hwalk]
  rfl

theorem copyoutLoop_eq_bytes {fuel : Nat} (h : src.length ≤ fuel) :
    copyoutLoop pt fuel a src ph = copyoutBytes pt a src ph := by
  induction fuel generalizing a src ph with
  | zero =>
    obtain rfl : src = [] := length_eq_zero_iff.1 (by omega)
    rfl
  | succ fuel ih =>
    cases src with
    | nil => rfl
    | cons b src =>
      obtain ⟨n, hn⟩ : ∃ n, n = min (pgsize - (a - pgrounddown a)) (b :: src).length :=
        ⟨_, rfl⟩
      obtain ⟨hpos, hle, hroom, hend⟩ := chunk_cases (by simp) hn
      unfold copyoutLoop
      dsimp only
      rw [← hn]
      cases hwalk : walkaddr pt (pgrounddown a) with
      | error e =>
        rw [copyoutBytes, userByte_error hwalk]
        rfl
      | ok pa0 =>
        change (if pa0 = 0 then _ else _) = _
        by_cases h0 : pa0 = 0
        · rw [if_pos h0, copyoutBytes, userByte_of_none (hwalk.trans (by rw [h0]))]
          rfl
        rw [if_neg h0, sub_pgrounddown, pageWise_kernelWrites pa0 (walkaddr_page hwalk).1
          (a % pgsize) (Nat.mod_lt _ (by decide))]
        cases hk : kernelWrites pa0 with
        | false =>
          rw [copyoutBytes, userByte_of_page pageWise_kernelWrites hwalk h0 rfl, hk]
          rfl
        | true =>
          change copyoutLoop pt fuel _ _ _ = _
          have hchunk : ((b :: src).take n).length = n := by
            rw [length_take, Nat.min_eq_left hle]
          have hbytes := copyoutBytes_chunk ((b :: src).drop n) ph hwalk h0
            hk rfl (show ((b :: src).take n).length ≤ _ by omega)
            (fun he => by rw [he] at hchunk; simp at hchunk; omega)
          rw [take_append_drop, storeList_take _ _ _ _ hle, hchunk] at hbytes
          rw [hbytes, ih (by rw [length_drop]; omega)]
          rcases hend with hend | hend
          · rw [hend]
          · -- the last chunk: no byte is left
            rw [hend, drop_length, copyoutBytes, copyoutBytes]

theorem copyout_eq_bytes (pt : PageTable) (ph : Phys) (a : Nat) (src : List UInt8) :
    copyout pt ph a src = copyoutBytes pt a src ph := copyoutLoop_eq_bytes le_rfl

theorem copyinBytes_chunk (ph : Phys) (rest : Nat) (hwalk : walkaddr pt va0 = .ok pa0)
    (h0 : pa0 ≠ 0) (hk : kernelReads pa0 = true) (ha : pgrounddown a = va0)
    (hlen : n ≤ pgsize - (a - va0)) (hne : 0 < n) : copyinBytes pt ph a (n + rest) = do
      let (ok, bytes) ← copyinBytes pt ph (word (a + n)) rest
      return (ok, (List.range n).map (fun i => ph.mem (pa0 + a % pgsize + i)) ++ bytes) := by
  induction n generalizing a with
  | zero => omega
  | succ n ih =>
    have hmax := (walkaddr_page hwalk).2 h0
    have hbyte : userByte kernelReads pt a = .ok (some (pa0 + a % pgsize)) := by
      rw [userByte_of_page pageWise_kernelReads hwalk h0 ha, if_pos hk]
    have hlt : a + 1 < 2 ^ 64 := by
      unfold pgrounddown pgsize maxva at *
      omega
    rw [Nat.add_right_comm, copyinBytes, hbyte]
    change (do
      let (ok, bytes) ← copyinBytes pt ph (word (a + 1)) (n + rest)
      return (ok, ph.mem (pa0 + a % pgsize) :: bytes)) = _
    rw [word_of_lt hlt]
    rcases Nat.eq_zero_or_pos n with rfl | hn
    · rw [word_of_lt hlt]
      simp
    · obtain ⟨hpage, hroom, hmod⟩ := pgrounddown_next (by rw [ha]; exact hlen) hn
      rw [ih (hpage.trans ha) (by rwa [hpage, ha] at hroom) hn, hmod, Nat.add_right_comm a 1 n,
        range_succ_eq_map]
      cases copyinBytes pt ph (word (a + n + 1)) rest with
      | error e => rfl
      | ok r =>
        simp [Nat.add_assoc, Nat.add_comm 1]

theorem copyinLoop_eq_bytes {fuel len : Nat} (h : len ≤ fuel) :
    copyinLoop pt ph fuel a len = copyinBytes pt ph a len := by
  induction fuel generalizing a len with
  | zero =>
    obtain rfl : len = 0 := by omega
    rfl
  | succ fuel ih =>
    cases len with
    | zero => rfl
    | succ len =>
      obtain ⟨n, hn⟩ : ∃ n, n = min (pgsize - (a - pgrounddown a)) (len + 1) := ⟨_, rfl⟩
      obtain ⟨hpos, hle, hroom, hend⟩ := chunk_cases (Nat.succ_pos len) hn
      unfold copyinLoop
      dsimp only
      rw [← hn]
      cases hwalk : walkaddr pt (pgrounddown a) with
      | error e =>
        rw [copyinBytes, userByte_error hwalk]
        rfl
      | ok pa0 =>
        change (if pa0 = 0 then _ else _) = _
        by_cases h0 : pa0 = 0
        · rw [if_pos h0, copyinBytes, userByte_of_none (hwalk.trans (by rw [h0]))]
          rfl
        rw [if_neg h0, sub_pgrounddown, pageWise_kernelReads pa0 (walkaddr_page hwalk).1
          (a % pgsize) (Nat.mod_lt _ (by decide))]
        cases hk : kernelReads pa0 with
        | false =>
          rw [copyinBytes, userByte_of_page pageWise_kernelReads hwalk h0 rfl, hk]
          rfl
        | true =>
          have hbytes := copyinBytes_chunk ph (len + 1 - n) hwalk h0 hk rfl hroom hpos
          rw [Nat.add_sub_cancel' hle] at hbytes
          rw [hbytes, ih (by omega)]
          rcases hend with hend | hend
          · rw [hend]
            rfl
          · rw [hend, Nat.sub_self]
            rfl

theorem copyin_eq_bytes (pt : PageTable) (ph : Phys) (a len : Nat) :
    copyin pt ph a len = copyinBytes pt ph a len := copyinLoop_eq_bytes le_rfl

/-! ## Which bytes a copy reaches -/

/-- The kernel's own way to physical memory, for reading or for writing. -/
def direct (store : Bool) : Nat → Bool := if store then kernelWrites else kernelReads

theorem pageWise_direct (store : Bool) : PageWise (direct store) := by
  cases store with
  | false => exact pageWise_kernelReads
  | true => exact pageWise_kernelWrites

/-- The copy gets at the byte at `a`: its page is mapped for the user, and the kernel maps its
frame too. -/
def reach (store : Bool) (pt : PageTable) (a : Nat) : Bool :=
  a < maxva && has (pt.pte a) pteV && has (pt.pte a) pteU && direct store (pte2pa (pt.pte a))

def physOf (pt : PageTable) (a : Nat) : Nat := pte2pa (pt.pte a) + a % pgsize

theorem kernelReads_of_direct {store : Bool} (h : direct store pa = true) : kernelReads pa = true := by
  cases store with
  | false => exact h
  | true =>
    have hle : kernbase ≤ etext := by decide
    simp only [direct, if_true, kernelWrites, kernelReads, Bool.or_eq_true, Bool.and_eq_true,
      decide_eq_true_eq] at h ⊢
    exact h.imp_left fun h => ⟨by omega, h.2⟩

theorem pte_pgrounddown (pt : PageTable) (a : Nat) : pt.pte (pgrounddown a) = pt.pte a := by
  have hvpn : vpn (pgrounddown a) = vpn a := Nat.mul_div_cancel _ (by decide)
  rw [PageTable.pte, hvpn, PageTable.pte]

theorem direct_zero (store : Bool) : direct store 0 = false := by
  cases store <;> decide

theorem pte_of_not_reaches (h : pt.reaches a = false) :
    pt.pte a = 0 := Radix.Table.get_eq_zero 512 h

theorem pgrounddown_ge : pgrounddown a ≥ maxva ↔ a ≥ maxva := by
  unfold pgrounddown maxva pgsize
  omega

theorem userByte_eq_some (store : Bool) :
    userByte (direct store) pt a = .ok (some pa) ↔ reach store pt a = true ∧ pa = physOf pt a := by
  constructor
  · intro h
    obtain ⟨pa0, hwalk, h⟩ := bind_eq_ok.1 h
    split at h
    · cases h
    · rename_i h0
      obtain ⟨_, hreq, h⟩ := bind_eq_ok.1 h
      rw [require_eq_ok, pageWise_direct store pa0 (walkaddr_page hwalk).1 _
        (Nat.mod_lt _ (by decide))] at hreq
      cases h
      have hlt := (walkaddr_page hwalk).2 h0
      unfold walkaddr at hwalk
      rw [if_neg (by omega), pte_pgrounddown] at hwalk
      split at hwalk
      · cases hwalk
      split at hwalk
      · cases hwalk; exact absurd rfl h0
      split at hwalk
      · cases hwalk; exact absurd rfl h0
      split at hwalk
      · cases hwalk; exact absurd rfl h0
      rename_i hv hu
      cases hwalk
      have hlt' : a < maxva := by
        have := (pgrounddown_ge (a := a)).2
        omega
      refine ⟨?_, rfl⟩
      simp only [Bool.not_eq_true'] at hv hu
      simp only [reach, hlt', hv, hu, hreq, decide_true, Bool.and_self]
  · rintro ⟨hr, rfl⟩
    simp only [reach, Bool.and_eq_true, decide_eq_true_eq] at hr
    obtain ⟨⟨⟨hlt, hv⟩, hu⟩, hd⟩ := hr
    have hreach : pt.reaches (pgrounddown a) = true := by
      by_contra hn
      rw [← pte_pgrounddown, pte_of_not_reaches (Bool.eq_false_iff.2 hn)] at hv
      cases hv
    have hnull : pt.isNull = false := by
      cases pt with
      | absent => cases hreach
      | dir f c => rfl
    have hne : pte2pa (pt.pte a) ≠ 0 := fun he => by
      rw [he, direct_zero] at hd
      cases hd
    have hwalk : walkaddr pt (pgrounddown a) = .ok (pte2pa (pt.pte a)) := by
      have hge := (pgrounddown_ge (a := a)).1
      rw [walkaddr, if_neg (by omega), hnull, hreach, pte_pgrounddown, hv, hu]
      rfl
    rw [userByte_of_page (pageWise_direct store) hwalk hne rfl, if_pos hd, physOf]

theorem reach_of_none (h : userByte kernelWrites pt a = .ok none) : reach true pt a = false := by
  by_contra hr
  have hbyte : userByte kernelWrites pt a = _ :=
    (userByte_eq_some true).2 ⟨Bool.eq_true_of_not_eq_false hr, rfl⟩
  cases h.symm.trans hbyte

theorem word_add_word (a b : Nat) : word (word a + b) = word (a + b) := Nat.mod_add_mod _ _ _

theorem reach_lt_succ {store : Bool} : (∀ i < n + 1, reach store pt (word (a + i)) = true) ↔
    reach store pt (word a) = true ∧ ∀ i < n, reach store pt (word (a + 1 + i)) = true := by
  simp only [Nat.add_right_comm a 1]
  exact Nat.forall_lt_succ_left

theorem reach_le_succ {store : Bool} : (∀ i ≤ n + 1, reach store pt (word (a + i)) = true) ↔
    reach store pt (word a) = true ∧ ∀ i ≤ n, reach store pt (word (a + 1 + i)) = true := by
  simp only [← Nat.lt_succ_iff]
  exact reach_lt_succ

theorem copyinBytes_true : (∃ bytes, copyinBytes pt ph (word a) n = .ok (true, bytes)) ↔
      ∀ i < n, reach false pt (word (a + i)) = true := by
  induction n generalizing a with
  | zero => exact ⟨fun _ i hi => (nomatch hi), fun _ => ⟨[], rfl⟩⟩
  | succ n ih =>
    rw [reach_lt_succ, copyinBytes, word_add_word]
    constructor
    · rintro ⟨bytes, h⟩
      obtain ⟨found, hbyte, h⟩ := bind_eq_ok.1 h
      cases found with
      | none => cases h
      | some pa =>
        obtain ⟨⟨ok, rest⟩, hrest, h⟩ := bind_eq_ok.1 h
        cases h
        exact ⟨((userByte_eq_some false).1 hbyte).1, ih.1 ⟨rest, hrest⟩⟩
    · rintro ⟨hfirst, hrest⟩
      obtain ⟨rest, hrest⟩ := ih.2 hrest
      exact ⟨_, bind_eq_ok.2
        ⟨_, (userByte_eq_some false).2 ⟨hfirst, rfl⟩, bind_eq_ok.2 ⟨_, hrest, rfl⟩⟩⟩

/-- The kernel traps on the byte at `a`: the user has a page there that the kernel cannot write. -/
def traps (pt : PageTable) (a : Nat) : Bool :=
  match userByte kernelWrites pt a with
  | .error _ => true
  | .ok _ => false

/-- The first bytes are reached and the next one traps. -/
def Trapped (pt : PageTable) (a n : Nat) : Prop :=
  ∃ i < n, (∀ j < i, reach true pt (word (a + j)) = true) ∧ traps pt (word (a + i)) = true

theorem trapped_succ : Trapped pt a (n + 1) ↔
    traps pt (word a) = true ∨ reach true pt (word a) = true ∧ Trapped pt (a + 1) n := by
  have hnext : ∀ i, a + 1 + i = a + (i + 1) := Nat.add_right_comm a 1
  constructor
  · rintro ⟨i, hi, hbefore, htrap⟩
    cases i with
    | zero => exact .inl htrap
    | succ i =>
      obtain ⟨hfirst, hrest⟩ := reach_lt_succ.1 hbefore
      exact .inr ⟨hfirst, i, by omega, hrest, (hnext i).symm ▸ htrap⟩
  · rintro (htrap | ⟨hfirst, i, hi, hbefore, htrap⟩)
    · exact ⟨0, by omega, fun j hj => (nomatch hj), htrap⟩
    · exact ⟨i + 1, by omega, reach_lt_succ.2 ⟨hfirst, hbefore⟩, hnext i ▸ htrap⟩

theorem Trapped.exists_not_reach (h : Trapped pt a n) :
    ∃ i < n, ¬reach true pt (word (a + i)) = true := by
  obtain ⟨i, hi, -, htrap⟩ := h
  refine ⟨i, hi, fun hr => ?_⟩
  have hbyte : userByte kernelWrites pt (word (a + i)) = _ := (userByte_eq_some true).2 ⟨hr, rfl⟩
  rw [traps, hbyte] at htrap
  cases htrap

/-! ## What a copy leaves in memory -/

/-- Memory with the bytes stored that `copyout` reaches before the first one it does not. -/
def putBytes (pt : PageTable) : Nat → List UInt8 → (Nat → UInt8) → Nat → UInt8
  | _, [], mem => mem
  | a, b :: src, mem =>
    if reach true pt a then putBytes pt (word (a + 1)) src (update mem (physOf pt a) b)
    else mem

theorem copyout_cases (pt : PageTable) (ph : Phys) (a : Nat) (src : List UInt8) :
    (Trapped pt a src.length ∧ ∃ e, copyout pt ph (word a) src = .error e) ∨
    ¬Trapped pt a src.length ∧ copyout pt ph (word a) src =
      .ok (decide (∀ i < src.length, reach true pt (word (a + i)) = true),
        { ph with mem := putBytes pt (word a) src ph.mem }) := by
  rw [copyout_eq_bytes]
  induction src generalizing a ph with
  | nil => exact .inr ⟨fun ⟨_, hi, _⟩ => (nomatch hi), by simp [copyoutBytes, putBytes]⟩
  | cons b src ih =>
    simp only [length_cons, trapped_succ, reach_lt_succ]
    unfold copyoutBytes putBytes
    rw [word_add_word, traps]
    cases hbyte : userByte kernelWrites pt (word a) with
    | error e => exact .inl ⟨.inl rfl, e, rfl⟩
    | ok found =>
      cases found with
      | none =>
        rw [reach_of_none hbyte]
        exact .inr ⟨by simp, by simp [bind, Except.bind, pure, Except.pure]⟩
      | some pa =>
        obtain ⟨hr, rfl⟩ := (userByte_eq_some true).1 hbyte
        rw [hr]
        simpa [bind, Except.bind] using ih { ph with mem := update ph.mem _ b } (a + 1)

/-- Byte `i` of what is copied to `a` goes to the physical address `x`. -/
def Lands (pt : PageTable) (a i x : Nat) : Prop :=
  (∀ j ≤ i, reach true pt (word (a + j)) = true) ∧ physOf pt (word (a + i)) = x

theorem lands_succ {i x : Nat} :
    Lands pt a (i + 1) x ↔ reach true pt (word a) = true ∧ Lands pt (a + 1) i x := by
  unfold Lands
  rw [reach_le_succ, and_assoc, Nat.add_right_comm a 1, Nat.add_assoc]

/-- Where bytes land on one address the last of them stays. -/
theorem putBytes_cases (pt : PageTable) (a : Nat) (src : List UInt8) (mem : Nat → UInt8) (x : Nat) :
    (∀ i < src.length, ¬Lands pt a i x) ∧ putBytes pt (word a) src mem x = mem x ∨
      ∃ i, Lands pt a i x ∧ src[i]? = some (putBytes pt (word a) src mem x) := by
  induction src generalizing a mem with
  | nil => exact .inl ⟨fun i hi => (nomatch hi), rfl⟩
  | cons b src ih =>
    unfold putBytes
    rw [word_add_word]
    by_cases hr : reach true pt (word a) = true
    · rw [if_pos hr]
      have hfirst : ∀ {x}, physOf pt (word a) = x → Lands pt a 0 x := fun he =>
        ⟨fun j hj => by rwa [Nat.le_zero.1 hj], he⟩
      rcases ih (a + 1) (update mem (physOf pt (word a)) b) with ⟨hno, hmem⟩ | ⟨i, hlands, hget⟩
      · by_cases hx : physOf pt (word a) = x
        · exact .inr ⟨0, hfirst hx, by rw [hmem, hx, update_self]; rfl⟩
        · refine .inl ⟨fun i hi hlands => ?_, by rw [hmem, update_of_ne (Ne.symm hx)]⟩
          cases i with
          | zero => exact hx hlands.2
          | succ i => exact hno i (Nat.lt_of_succ_lt_succ hi) (lands_succ.1 hlands).2
      · exact .inr ⟨i + 1, lands_succ.2 ⟨hr, hlands⟩, hget⟩
    · rw [if_neg hr]
      exact .inl ⟨fun i _ hlands => hr (hlands.1 0 (Nat.zero_le i)), rfl⟩

end Xv6
