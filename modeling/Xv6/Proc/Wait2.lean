/-
`wait` and `wait2` of `kernel/proc.c`, side by side.

Both scan the table for a child that has exited, and both free the child they find.  What they
return and what they store is decided before that, so the comparison is that of one scan, from
any state of the table; a caller that finds no such child goes to sleep in both or in neither.
-/
import Xv6.Proc.Hygiene
import Xv6.Vm.Copy

namespace Xv6

open Run

variable {addr raddr : Nat}

def haveKids (k : Kernel) (p : Nat) : Bool :=
  (List.range nproc).any fun c => (k.proc c).parent = some p

/-- The end of a scan: the value that is returned, if the caller does not go to sleep, the child
that is freed next, and memory. -/
structure Scan where
  value : Option Int
  reaped : Option Nat
  phys : Phys

def Scan.idle (k : Kernel) (p : Nat) : Scan where
  value := if !haveKids k p || (k.proc p).killed then some (-1) else none
  reaped := none
  phys := k.phys

def Scan.found (k : Kernel) (c : Nat) (ok : Bool) (ph : Phys) : Scan where
  value := some (if ok then (k.proc c).pid else -1)
  reaped := if ok then some c else none
  phys := ph

def waitScan (k : Kernel) (p addr : Nat) : Except Panic Scan :=
  match zombieChild k p with
  | none => .ok (.idle k p)
  | some c =>
    if addr = 0 then .ok (.found k c true k.phys)
    else do
      let (ok, ph) ← copyout (k.proc p).pagetable k.phys addr (intBytes (k.proc c).xstate)
      return .found k c ok ph

/-- `wait2` stores `cputime` first and does not look at the result, and copies the status out
whatever `addr` is. -/
def wait2Scan (m : Machine) (p addr raddr : Nat) : Except Panic Scan :=
  let k := m.kernel
  match zombieChild k p with
  | none => .ok (.idle k p)
  | some c => do
      let (_, ph) ← copyout (k.proc p).pagetable k.phys raddr (wordBytes (m.sched c).cputime)
      let (ok, ph) ← copyout (k.proc p).pagetable ph addr (intBytes (k.proc c).xstate)
      return .found k c ok ph

def Scan.reap (k : Kernel) (r : Scan) : Except Panic Kernel :=
  match r.reaped with
  | none => .ok { k with phys := r.phys }
  | some c => freeproc { k with phys := r.phys } c

theorem wait_eq_scan (k : Kernel) (p addr : Nat) :
    wait k p addr = waitScan k p addr >>= Scan.reap k := by
  unfold wait waitScan
  change (match zombieChild k p with | none => _ | some c => _) = _
  cases zombieChild k p with
  | none => rfl
  | some c =>
    dsimp only
    split
    · rfl
    · cases copyout (k.proc p).pagetable k.phys addr (intBytes (k.proc c).xstate) with
      | error e => rfl
      | ok r =>
        obtain ⟨ok, ph⟩ := r
        cases ok <;> rfl

/-- The state in which the `cputime` of child `c` has been stored at `raddr`. -/
def storeCputime (m : Machine) (p c raddr : Nat) : Kernel :=
  { m.kernel with phys := { m.kernel.phys with
      mem := putBytes (m.kernel.proc p).pagetable raddr (wordBytes (m.sched c).cputime)
        m.kernel.phys.mem } }

/-- What one would want of `wait2`: it returns what `wait` returns and reaps what `wait` reaps.
Memory is what `wait` makes of it after the `cputime` of the child that is reaped has been
stored, or what `wait` makes of it if there is none; and -1 means that none has been reaped. -/
def Wait2Extends (m : Machine) (p addr raddr : Nat) : Prop :=
  match waitScan m.kernel p addr, wait2Scan m p addr raddr with
  | .ok r, .ok r₂ =>
    r₂.value = r.value ∧ r₂.reaped = r.reaped ∧ (r₂.value = some (-1) → r₂.reaped = none) ∧
    match r.reaped with
    | none => r₂.phys = r.phys
    | some c => waitScan (storeCputime m p c raddr) p addr = .ok r₂
  | .error _, .error _ => True
  | _, _ => False

/-- All bytes of the status can be stored. -/
def StatusFits (m : Machine) (p addr : Nat) : Prop :=
  ∀ i < 4, reach true (m.kernel.proc p).pagetable (word (addr + i)) = true

/-- Each byte of the status of child `c` is at `addr` already and no byte of `cputime` overwrites
it, or it equals the byte of `cputime` that does. -/
def StatusThere (m : Machine) (p addr raddr c : Nat) : Prop :=
  let pt := (m.kernel.proc p).pagetable
  ∀ i b, (intBytes (m.kernel.proc c).xstate)[i]? = some b →
    (∃ o, Lands pt raddr o (physOf pt (word (addr + i))) ∧
      (wordBytes (m.sched c).cputime)[o]? = some b) ∨
    (∀ o < 8, ¬Lands pt raddr o (physOf pt (word (addr + i)))) ∧
      m.kernel.phys.mem (physOf pt (word (addr + i))) = b

/-- Each byte of `cputime` that is stored is at its place already, or a byte of the status is
stored over it. -/
def CputimeHidden (m : Machine) (p addr raddr c : Nat) : Prop :=
  let pt := (m.kernel.proc p).pagetable
  ∀ o b x, (wordBytes (m.sched c).cputime)[o]? = some b → Lands pt raddr o x →
    m.kernel.phys.mem x = b ∨ ∃ i < 4, Lands pt addr i x

/-- The cases in which `wait2` does what `wait` does with child `c`.  It stores the status at
address 0 too, and it stores `cputime` even where the status cannot be stored. -/
def Wait2Agrees (m : Machine) (p addr raddr c : Nat) : Prop :=
  StatusFits m p addr ∧ (m.kernel.proc c).pid ≠ -1 ∧ (addr = 0 → StatusThere m p addr raddr c) ∨
  ¬StatusFits m p addr ∧ addr ≠ 0 ∧ CputimeHidden m p addr raddr c

/-! ## Bytes in memory

A range of less than a page has no two bytes at one physical address, whatever the page table. -/

section

variable {pt : PageTable} {a i j x : Nat} {src first : List UInt8}

theorem Lands.inj (h : Lands pt a i x) (h' : Lands pt a j x) (hi : i < pgsize) (hj : j < pgsize) :
    i = j := by
  have he := h.2.trans h'.2.symm
  have h₁ := pte2pa_mod (pt.pte (word (a + i)))
  have h₂ := pte2pa_mod (pt.pte (word (a + j)))
  unfold physOf at he
  unfold word pgsize at *
  omega

theorem putBytes_eq_iff (pt : PageTable) (a : Nat) (mem : Nat → UInt8) (x : Nat) (b : UInt8)
    (hlen : src.length ≤ pgsize) :
    putBytes pt (word a) src mem x = b ↔ (∃ i, Lands pt a i x ∧ src[i]? = some b) ∨
      (∀ i < src.length, ¬Lands pt a i x) ∧ mem x = b := by
  have hlt : ∀ {i b}, src[i]? = some b → i < src.length := fun h =>
    (List.getElem?_eq_some_iff.1 h).1
  rcases putBytes_cases pt a src mem x with ⟨hno, hmem⟩ | ⟨i, hlands, hget⟩
  · rw [hmem]
    refine ⟨fun h => .inr ⟨hno, h⟩, ?_⟩
    rintro (⟨i, hlands, hget⟩ | ⟨-, h⟩)
    · exact absurd hlands (hno i (hlt hget))
    · exact h
  · constructor
    · rintro rfl
      exact .inl ⟨i, hlands, hget⟩
    · rintro (⟨j, hlands', hget'⟩ | ⟨hno, -⟩)
      · obtain rfl := hlands.inj hlands' ((hlt hget).trans_le hlen) ((hlt hget').trans_le hlen)
        exact Option.some.inj (hget.symm.trans hget')
      · exact absurd hlands (hno i (hlt hget))

theorem putBytes_eq_self (mem : Nat → UInt8) (hlen : src.length ≤ pgsize)
    (hfits : ∀ i < src.length, reach true pt (word (a + i)) = true) :
    putBytes pt (word a) src mem = mem ↔
      ∀ i b, src[i]? = some b → mem (physOf pt (word (a + i))) = b := by
  constructor
  · intro h i b hget
    have hi := (List.getElem?_eq_some_iff.1 hget).1
    rw [← h]
    exact (putBytes_eq_iff pt a mem _ b hlen).2
      (.inl ⟨i, ⟨fun j hj => hfits j (by omega), rfl⟩, hget⟩)
  · intro h
    funext x
    rcases putBytes_cases pt a src mem x with ⟨-, hmem⟩ | ⟨i, hlands, hget⟩
    · exact hmem
    · exact (h i _ hget).symm.trans (congrArg mem hlands.2)

theorem putBytes_after_iff (pt : PageTable) (a r : Nat) (mem : Nat → UInt8)
    (hlen : src.length ≤ pgsize) (hfirst : first.length ≤ pgsize) :
    putBytes pt (word a) src (putBytes pt (word r) first mem) = putBytes pt (word a) src mem ↔
      ∀ o b x, first[o]? = some b → Lands pt r o x →
        mem x = b ∨ ∃ i < src.length, Lands pt a i x := by
  have hskip : ∀ {mem x}, (¬∃ i < src.length, Lands pt a i x) →
      putBytes pt (word a) src mem x = mem x := fun hno =>
    (putBytes_eq_iff pt a _ _ _ hlen).2 (.inr ⟨fun i hi hlands => hno ⟨i, hi, hlands⟩, rfl⟩)
  constructor
  · intro h o b x hget hlands
    by_contra hno
    rw [not_or] at hno
    have hx := congrFun h x
    rw [hskip hno.2, hskip hno.2,
      (putBytes_eq_iff pt r mem x b hfirst).2 (.inl ⟨o, hlands, hget⟩)] at hx
    exact hno.1 hx.symm
  · intro h
    funext x
    by_cases hover : ∃ i < src.length, Lands pt a i x
    · obtain ⟨i, hi, hlands⟩ := hover
      have hput : ∀ mem, putBytes pt (word a) src mem x = src[i] := fun _ =>
        (putBytes_eq_iff pt a _ x _ hlen).2 (.inl ⟨i, hlands, List.getElem?_eq_getElem hi⟩)
      rw [hput, hput]
    · rw [hskip hover, hskip hover]
      rcases putBytes_cases pt r first mem x with ⟨-, hmem⟩ | ⟨o, hlands, hget⟩
      · exact hmem
      · exact ((h o _ x hget hlands).resolve_right hover).symm

end

section

variable {m : Machine} {p c : Nat}

/-- The end of both scans, once child `c` has been found: its status is copied out. -/
def statusScan (m : Machine) (p c addr : Nat) (ph : Phys) : Except Panic Scan := do
  let (ok, ph) ← copyout (m.kernel.proc p).pagetable ph addr (intBytes (m.kernel.proc c).xstate)
  return .found m.kernel c ok ph

theorem statusScan_cases (p c addr : Nat) (ph : Phys) :
    (Trapped (m.kernel.proc p).pagetable (word addr) 4 ∧
      ∃ e, statusScan m p c (word addr) ph = .error e) ∨
    ¬Trapped (m.kernel.proc p).pagetable (word addr) 4 ∧
      ∃ ok, (ok = true ↔ StatusFits m p (word addr)) ∧
        statusScan m p c (word addr) ph = .ok (.found m.kernel c ok ⟨ph.freelist,
          putBytes (m.kernel.proc p).pagetable (word addr) (intBytes (m.kernel.proc c).xstate)
            ph.mem⟩) := by
  unfold statusScan
  rcases copyout_cases (m.kernel.proc p).pagetable ph (word addr)
    (intBytes (m.kernel.proc c).xstate) with ⟨ht, e, he⟩ | ⟨ht, he⟩ <;>
    rw [word_of_lt (word_lt addr)] at he <;> rw [he]
  · exact .inl ⟨ht, e, rfl⟩
  · exact .inr ⟨ht, _, by simp [StatusFits, intBytes], rfl⟩

theorem length_intBytes_le (w : Nat) : (intBytes w).length ≤ pgsize := by simp [intBytes, pgsize]

theorem length_wordBytes (w : Nat) : (wordBytes w).length = 8 := by simp [wordBytes]

theorem length_wordBytes_le (w : Nat) : (wordBytes w).length ≤ pgsize := by
  rw [length_wordBytes]
  decide

theorem statusThere_iff (addr raddr : Nat) (h : StatusFits m p (word addr)) :
    putBytes (m.kernel.proc p).pagetable (word addr) (intBytes (m.kernel.proc c).xstate)
        (storeCputime m p c (word raddr)).phys.mem = (storeCputime m p c (word raddr)).phys.mem ↔
      StatusThere m p (word addr) (word raddr) c := by
  have hput := putBytes_eq_self (storeCputime m p c (word raddr)).phys.mem
    (length_intBytes_le (m.kernel.proc c).xstate) h
  rw [word_of_lt (word_lt addr)] at hput
  rw [hput]
  refine forall_congr' fun i => forall_congr' fun b => imp_congr_right fun _ => ?_
  have hbyte := putBytes_eq_iff (m.kernel.proc p).pagetable (word raddr) m.kernel.phys.mem
    (physOf (m.kernel.proc p).pagetable (word (word addr + i))) b
    (length_wordBytes_le (m.sched c).cputime)
  rwa [word_of_lt (word_lt raddr), length_wordBytes] at hbyte

theorem cputimeHidden_iff (addr raddr : Nat) :
    putBytes (m.kernel.proc p).pagetable (word addr) (intBytes (m.kernel.proc c).xstate)
        (storeCputime m p c (word raddr)).phys.mem =
      putBytes (m.kernel.proc p).pagetable (word addr) (intBytes (m.kernel.proc c).xstate)
        m.kernel.phys.mem ↔ CputimeHidden m p (word addr) (word raddr) c := by
  have hput := putBytes_after_iff (m.kernel.proc p).pagetable (word addr) (word raddr)
    m.kernel.phys.mem (length_intBytes_le (m.kernel.proc c).xstate)
    (length_wordBytes_le (m.sched c).cputime)
  rwa [word_of_lt (word_lt addr), word_of_lt (word_lt raddr)] at hput

theorem waitScan_eq (hchild : zombieChild m.kernel p = some c) (addr : Nat) :
    waitScan m.kernel p addr = if addr = 0 then .ok (.found m.kernel c true m.kernel.phys)
      else statusScan m p c addr m.kernel.phys := by
  rw [waitScan, hchild]
  rfl

theorem waitScan_storeCputime (hchild : zombieChild m.kernel p = some c) (addr raddr : Nat) :
    waitScan (storeCputime m p c raddr) p addr =
      if addr = 0 then .ok (.found m.kernel c true (storeCputime m p c raddr).phys)
      else statusScan m p c addr (storeCputime m p c raddr).phys := by
  rw [waitScan, show zombieChild (storeCputime m p c raddr) p = some c from hchild]
  rfl

theorem not_statusFits (h : Trapped (m.kernel.proc p).pagetable (word addr) 4) :
    ¬StatusFits m p (word addr) := by
  obtain ⟨i, hi, hno⟩ := h.exists_not_reach
  exact fun hfits => hno (hfits i hi)

theorem wait2Scan_cases (addr raddr : Nat) (hchild : zombieChild m.kernel p = some c) :
    (Trapped (m.kernel.proc p).pagetable (word raddr) 8 ∧
      ∃ e, wait2Scan m p (word addr) (word raddr) = .error e) ∨
    ¬Trapped (m.kernel.proc p).pagetable (word raddr) 8 ∧
      wait2Scan m p (word addr) (word raddr) =
        statusScan m p c (word addr) (storeCputime m p c (word raddr)).phys := by
  have hscan : wait2Scan m p (word addr) (word raddr) =
      copyout (m.kernel.proc p).pagetable m.kernel.phys (word raddr)
        (wordBytes (m.sched c).cputime) >>= fun r => statusScan m p c (word addr) r.2 := by
    rw [wait2Scan]
    rw [hchild]
    rfl
  rcases copyout_cases (m.kernel.proc p).pagetable m.kernel.phys (word raddr)
    (wordBytes (m.sched c).cputime) with ⟨htrap, e, he⟩ | ⟨hnot, he⟩ <;>
    rw [word_of_lt (word_lt raddr)] at he <;> rw [hscan, he]
  · exact .inl ⟨htrap, e, rfl⟩
  · exact .inr ⟨hnot, rfl⟩

theorem wait2Extends_of_error {e : Panic} (h₂ : wait2Scan m p addr raddr = .error e) :
    Wait2Extends m p addr raddr ↔ ∃ e, waitScan m.kernel p addr = .error e := by
  rw [Wait2Extends, h₂]
  cases waitScan m.kernel p addr <;> simp

/-- Both find child `c` and get to the end of the scan. -/
theorem wait2Extends_of_found {ok ok₂ : Bool} {ph ph₂ : Phys}
    (h : waitScan m.kernel p addr = .ok (.found m.kernel c ok ph))
    (h₂ : wait2Scan m p addr raddr = .ok (.found m.kernel c ok₂ ph₂)) :
    Wait2Extends m p addr raddr ↔ ok₂ = ok ∧ (ok = true → (m.kernel.proc c).pid ≠ -1 ∧
      waitScan (storeCputime m p c raddr) p addr = .ok (.found m.kernel c ok₂ ph₂)) ∧
      (ok = false → ph₂ = ph) := by
  rw [Wait2Extends, h, h₂]
  cases ok <;> cases ok₂ <;> simp [Scan.found]

theorem waitScan_error_iff (hchild : zombieChild m.kernel p = some c) (addr : Nat) :
    (∃ e, waitScan m.kernel p (word addr) = .error e) ↔
      word addr ≠ 0 ∧ Trapped (m.kernel.proc p).pagetable (word addr) 4 := by
  rw [waitScan_eq hchild]
  by_cases h0 : word addr = 0
  · simp [h0]
  rw [if_neg h0]
  rcases statusScan_cases p c addr m.kernel.phys with ⟨ht, he⟩ | ⟨hnot, ok, -, he⟩
  · exact iff_of_true he ⟨h0, ht⟩
  · rw [he]
    exact iff_of_false (by simp) fun h => hnot h.2

theorem wait2Extends_child (addr raddr : Nat) (hchild : zombieChild m.kernel p = some c) :
    Wait2Extends m p (word addr) (word raddr) ↔
      word addr ≠ 0 ∧ Trapped (m.kernel.proc p).pagetable (word addr) 4 ∨
      ¬Trapped (m.kernel.proc p).pagetable (word raddr) 8 ∧
        Wait2Agrees m p (word addr) (word raddr) c := by
  rcases wait2Scan_cases addr raddr hchild with ⟨htrap, e, hscan⟩ | ⟨hnot₂, hscan⟩
  · rw [wait2Extends_of_error hscan, waitScan_error_iff hchild]
    exact (or_iff_left fun h => h.1 htrap).symm
  rcases statusScan_cases p c addr (storeCputime m p c (word raddr)).phys with
    ⟨htrap, e, hstat⟩ | ⟨hnot, ok, hok, hstat⟩ <;> rw [hstat] at hscan
  · rw [wait2Extends_of_error hscan, waitScan_error_iff hchild]
    refine ⟨.inl, fun h => h.elim id ?_⟩
    rintro ⟨-, ⟨hfits, -⟩ | ⟨-, hne, -⟩⟩
    · exact absurd hfits (not_statusFits htrap)
    · exact ⟨hne, htrap⟩
  have hstored := waitScan_storeCputime hchild (word addr) (word raddr)
  by_cases h0 : word addr = 0
  · rw [wait2Extends_of_found ((waitScan_eq hchild _).trans (if_pos h0)) hscan, hstored, if_pos h0]
    cases ok with
    | false =>
      refine iff_of_false (fun h => by cases h.1) ?_
      rintro (⟨hne, -⟩ | ⟨-, ⟨hfits, -⟩ | ⟨-, hne, -⟩⟩)
      · exact hne h0
      · cases hok.2 hfits
      · exact hne h0
    | true =>
      have hthere := statusThere_iff (c := c) addr raddr (hok.1 rfl)
      constructor
      · rintro ⟨-, h, -⟩
        have hph := congrArg Scan.phys (Except.ok.inj (h rfl).2)
        exact .inr ⟨hnot₂, .inl ⟨hok.1 rfl, (h rfl).1, fun _ =>
          hthere.1 (congrArg Phys.mem hph).symm⟩⟩
      · rintro (⟨hne, -⟩ | ⟨-, ⟨-, hpid, h⟩ | ⟨hno, -⟩⟩)
        · exact absurd h0 hne
        · refine ⟨rfl, fun _ => ⟨hpid, ?_⟩, fun h => by cases h⟩
          rw [hthere.2 (h h0)]
        · exact absurd (hok.1 rfl) hno
  · obtain ⟨-, ok', hok', hstat'⟩ :=
      (statusScan_cases p c addr m.kernel.phys).resolve_left fun h => hnot h.1
    obtain rfl : ok' = ok := Bool.eq_iff_iff.2 (hok'.trans hok.symm)
    rw [wait2Extends_of_found (((waitScan_eq hchild _).trans (if_neg h0)).trans hstat') hscan,
      hstored, if_neg h0, hstat]
    cases ok' with
    | true =>
      refine ⟨fun h => .inr ⟨hnot₂, .inl ⟨hok.1 rfl, (h.2.1 rfl).1, fun h => absurd h h0⟩⟩, ?_⟩
      rintro (⟨-, htrap⟩ | ⟨-, ⟨-, hpid, -⟩ | ⟨hno, -⟩⟩)
      · exact absurd htrap hnot
      · exact ⟨rfl, fun _ => ⟨hpid, rfl⟩, fun h => by cases h⟩
      · exact absurd (hok.1 rfl) hno
    | false =>
      have hhidden := cputimeHidden_iff (m := m) (p := p) (c := c) addr raddr
      have hno : ¬StatusFits m p (word addr) := fun hfits => by cases hok.2 hfits
      refine ⟨fun h => .inr ⟨hnot₂, .inr ⟨hno, h0, hhidden.1 (congrArg Phys.mem (h.2.2 rfl))⟩⟩, ?_⟩
      rintro (⟨-, htrap⟩ | ⟨-, ⟨hfits, -⟩ | ⟨-, -, h⟩⟩)
      · exact absurd htrap hnot
      · exact absurd hfits hno
      · exact ⟨rfl, (by cases ·), fun _ =>
          congrArg (Phys.mk m.kernel.phys.freelist) (hhidden.2 h)⟩

end

/-- `wait2` is `wait` that stores `cputime` in addition, unless `addr` is 0 or the copies fail. -/
theorem wait2Extends_iff (m : Machine) (p addr raddr : Nat) :
    Wait2Extends m p (word addr) (word raddr) ↔ ∀ c, zombieChild m.kernel p = some c →
      word addr ≠ 0 ∧ Trapped (m.kernel.proc p).pagetable (word addr) 4 ∨
      ¬Trapped (m.kernel.proc p).pagetable (word raddr) 8 ∧
        Wait2Agrees m p (word addr) (word raddr) c := by
  cases hchild : zombieChild m.kernel p with
  | none =>
    have h1 : waitScan m.kernel p (word addr) = .ok (.idle m.kernel p) := by
      rw [waitScan, hchild]
    have h2 : wait2Scan m p (word addr) (word raddr) = .ok (.idle m.kernel p) := by
      rw [wait2Scan]
      rw [hchild]
    rw [Wait2Extends, h1, h2]
    exact ⟨nofun, fun _ => ⟨rfl, rfl, fun _ => rfl, rfl⟩⟩
  | some c =>
    simp only [Option.some.injEq, forall_eq']
    exact wait2Extends_child addr raddr hchild

/-- `wait2(0, raddr)` by process `p` changes its first byte, and not by storing `cputime`. -/
def Machine.clobbers (p c raddr : Nat) (m : Machine) : Bool :=
  let first := physOf (m.kernel.proc p).pagetable 0
  zombieChild m.kernel p == some c &&
    match wait2Scan m p 0 raddr with
    | .ok r => r.phys.mem first != (storeCputime m p c raddr).phys.mem first
    | .error _ => false

theorem Machine.not_extends_of_clobbers {p c : Nat} {m : Machine} (h : m.clobbers p c raddr = true) :
    ¬Wait2Extends m p 0 raddr := by
  simp only [clobbers, Bool.and_eq_true, beq_iff_eq] at h
  obtain ⟨hchild, h⟩ := h
  cases hscan : wait2Scan m p 0 raddr with
  | error e =>
    rw [hscan] at h
    cases h
  | ok r =>
    rw [hscan] at h
    rw [Wait2Extends, waitScan_eq hchild, hscan]
    rintro ⟨-, -, -, hstored⟩
    change waitScan (storeCputime m p c raddr) p 0 = .ok r at hstored
    rw [waitScan_storeCputime hchild] at hstored
    cases hstored
    simp [Scan.found] at h

/-- A child of the first process has exited, and the process calls `wait2(0, 1024)`: the status
goes to address 0, where its code is. -/
theorem not_wait2Extends_zero : ∃ ph k m, Boots ph k ∧
    Run.exec Machine.step (.start k) [.call (.fork 0), .call (.exit 1 0)] = .ok m ∧
      ¬Wait2Extends m 0 0 1024 := by
  have hends : bootRun.ends 32 [] (fun k => Run.ends Machine.step (.start k)
      [.call (.fork 0), .call (.exit 1 0)] (Machine.clobbers 0 1 1024)) = true := by decide +kernel
  obtain ⟨k, k', hboot, hrun, hcheck⟩ := bootRun.of_ends (by decide) (by decide) hends
  cases hrun
  obtain ⟨m, hexec, hm⟩ := Run.of_ends hcheck
  exact ⟨_, k, m, hboot, hexec, m.not_extends_of_clobbers hm⟩

end Xv6
