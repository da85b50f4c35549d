/-
The process tree under every interleaving of `fork`, `exit`, `wait`, `wait2` and `kill`: parents
are alive, an exit is returned once, to the parent, and no `wait` sleeps through one.
-/
import Xv6.Tree.Basic

namespace Xv6.Tree

namespace Table

variable {hk : Bool} {e : Event} {status : Int} {c : Nat} {par : Option Nat} {s' : State}
  {d' : Table}

variable {k : Bool} {inp : Input} {ℓ : Loc} {pp : Nat} {ch : Option Nat} {s : State}

def Live (d : Table) (t : Nat) : Prop := (d.proc t).state = .live

/-- The `fork` of `t` is filling slot `np`. -/
structure Filling (d : Table) (t np : Nat) (parent : Option Nat) : Prop where
  live : d.Live t
  used : (d.proc np).state = .used
  forker : (d.proc np).forker = some t
  parent : (d.proc np).parent = parent

/-- `t` has exited and still holds its own lock. -/
def Leaving (d : Table) (t : Nat) : Prop :=
  (d.proc t).state = .zombie ∧ (d.proc t).switching = true

end Table

def outline : Monitor.Outline Table Loc where
  always d := d.Rooted ∧ d.Recorded
  free _ := True
  out t ℓ d :=
    match ℓ with
    | .parked => True
    | .user _ => d.Live t
    | .fork np => d.Filling t np none
    | .forked np => d.Filling t np (some t)
    | .switch => d.Leaving t
    | _ => False
  wait t ℓ d :=
    match ℓ with
    | .link np => d.Filling t np none
    | .exit _ pp => pp = 0 ∧ d.Live t ∧ t ≠ d.initproc
    | .scan _ np => np = 0 ∧ d.Live t
    | _ => False
  hold t _ ℓ d :=
    match ℓ with
    | .link np => d.Filling t np none
    | .exit _ pp => d.Live t ∧ t ≠ d.initproc ∧ ∀ c < pp, (d.proc c).parent ≠ some t
    | .bury _ => d.Live t ∧ t ≠ d.initproc ∧ ∀ c, (d.proc c).parent ≠ some t
    | .buried => d.Leaving t
    | .scan _ np => d.Live t ∧
        ∀ c < np, (d.proc c).parent = some t → (d.proc c).state ≠ .zombie
    | _ => False

/-- `t` changes slot `x` in a way that does not concern the calls of other processes. -/
structure Table.Minds (d d' : Table) (t x : Nat) : Prop where
  initproc : d'.initproc = d.initproc
  others : ∀ y, y ≠ x → d'.proc y = d.proc y
  live : x ≠ t → d.Live x → d'.Live x
  filling : ∀ q, q ≠ t → ¬ d.Filling q x none ∧ ¬ d.Filling q x (some q)
  leaving : x ≠ t → d.Leaving x → d'.Leaving x

namespace Table.Minds

variable {d d' : Table} {t x q : Nat}

section

variable (h : d.Minds d' t x)

include h

theorem keeps_live (hq : q ≠ t) (hl : d.Live q) : d'.Live q := by
  by_cases hqx : q = x
  · subst hqx
    exact h.live hq hl
  · unfold Table.Live at hl ⊢
    rwa [h.others q hqx]

theorem keeps_filling {np : Nat} (hq : q ≠ t) (hpar : par = none ∨ par = some q)
    (hf : d.Filling q np par) : d'.Filling q np par := by
  have hnp : np ≠ x := by
    rintro rfl
    rcases hpar with rfl | rfl
    · exact (h.filling q hq).1 hf
    · exact (h.filling q hq).2 hf
  refine ⟨h.keeps_live hq hf.live, ?_, ?_, ?_⟩ <;> rw [h.others np hnp]
  · exact hf.used
  · exact hf.forker
  · exact hf.parent

theorem keeps_leaving (hq : q ≠ t) (hl : d.Leaving q) : d'.Leaving q := by
  by_cases hqx : q = x
  · subst hqx
    exact h.leaving hq hl
  · unfold Table.Leaving at hl ⊢
    rwa [h.others q hqx]

theorem spares : outline.Spares t d d' := by
  intro q ℓ hq
  constructor
  · intro ho
    cases ℓ with
    | user => exact h.keeps_live hq ho
    | fork => exact h.keeps_filling hq (.inl rfl) ho
    | forked => exact h.keeps_filling hq (.inr rfl) ho
    | switch => exact h.keeps_leaving hq ho
    | _ => exact ho
  · intro hw
    cases ℓ with
    | link => exact h.keeps_filling hq (.inl rfl) hw
    | exit => exact ⟨hw.1, h.keeps_live hq hw.2.1, by rw [h.initproc]; exact hw.2.2⟩
    | scan => exact ⟨hw.1, h.keeps_live hq hw.2⟩
    | _ => exact hw

theorem hold (hq : q ≠ t) (hparent : ∀ p, (d'.proc x).parent = some p → (d.proc x).parent = some p)
    (hzombie : (d'.proc x).state = .zombie → (d.proc x).state = .zombie) (hh : outline.hold q k ℓ d)
    : outline.hold q k ℓ d' := by
  have hpar : ∀ c p, (d'.proc c).parent = some p → (d.proc c).parent = some p := by
    intro c p hp
    by_cases hc : c = x
    · subst hc
      exact hparent p hp
    · rwa [h.others c hc] at hp
  cases ℓ with
  | link => exact h.keeps_filling hq (.inl rfl) hh
  | exit =>
    exact ⟨h.keeps_live hq hh.1, by rw [h.initproc]; exact hh.2.1,
      fun c hc hp => hh.2.2 c hc (hpar c q hp)⟩
  | bury =>
    exact ⟨h.keeps_live hq hh.1, by rw [h.initproc]; exact hh.2.1,
      fun c hp => hh.2.2 c (hpar c q hp)⟩
  | buried => exact h.keeps_leaving hq hh
  | scan =>
    refine ⟨h.keeps_live hq hh.1, fun c hc hp hz => hh.2 c hc (hpar c q hp) ?_⟩
    by_cases hcx : c = x
    · subst hcx
      exact hzombie hz
    · rwa [h.others c hcx] at hz
  | _ => exact hh

end

end Table.Minds

/-! ## The steps -/

section

variable {d : Table} {t np : Nat}

theorem Table.minds_of_state {x : Nat} (hinit : d'.initproc = d.initproc)
    (hothers : ∀ y, y ≠ x → d'.proc y = d.proc y) (hlive : x ≠ t → ¬ d.Live x)
    (hfill : (d.proc x).state = .used → (d.proc x).forker = some t)
    (hleave : x ≠ t → ¬ d.Leaving x) : d.Minds d' t x := by
  have hnot : ∀ q par, q ≠ t → ¬ d.Filling q x par := by
    intro q par hq hf
    have := hfill hf.used
    rw [hf.forker, Option.some.injEq] at this
    exact hq this
  exact ⟨hinit, hothers, fun hx hl => absurd hl (hlive hx), fun q hq => ⟨hnot q _ hq, hnot q _ hq⟩,
    fun hx hl => absurd hl (hleave hx)⟩

theorem minds_allocproc (hu : (d.proc np).state = .unused) : d.Minds (d.allocproc np t) t np := by
  refine Table.minds_of_state rfl (fun y hy => Table.setEntry_of_ne d hy _) (fun _ hl => ?_)
    (fun hused => ?_) fun _ hl => ?_
  · cases hu.symm.trans hl
  · cases hu.symm.trans hused
  · cases hu.symm.trans hl.1

theorem minds_filling (h : d.Filling t np par) (e : Entry) : d.Minds (d.setEntry np e) t np := by
  refine Table.minds_of_state rfl (fun y hy => Table.setEntry_of_ne d hy _) (fun _ hl => ?_)
    (fun _ => h.forker) fun _ hl => ?_
  · cases h.used.symm.trans hl
  · cases h.used.symm.trans hl.1

theorem minds_reparent (hp : (d.proc pp).parent = some t) (p : Nat) :
    d.Minds (d.setParent pp p) t pp := by
  have hself : (d.setParent pp p).proc pp = { d.proc pp with parent := some p } :=
    Table.setEntry_self ..
  refine ⟨rfl, fun y hy => Table.setEntry_of_ne d hy _, fun _ hl => ?_, fun q hq => ⟨fun hf => ?_,
    fun hf => ?_⟩, fun _ hl => ?_⟩
  · unfold Table.Live
    rw [hself]
    exact hl
  · cases hp.symm.trans hf.parent
  · have := hp.symm.trans hf.parent
    rw [Option.some.injEq] at this
    exact hq this.symm
  · unfold Table.Leaving
    rw [hself]
    exact hl

theorem minds_self (hinit : d'.initproc = d.initproc)
    (hothers : ∀ y, y ≠ t → d'.proc y = d.proc y) (hs : (d.proc t).state ≠ .used) :
    d.Minds d' t t :=
  Table.minds_of_state hinit hothers (fun h => absurd rfl h) (fun h => absurd h hs)
    fun h => absurd rfl h

theorem minds_reap (hz : (d.proc np).state = .zombie) (hs : (d.proc np).switching = false) :
    d.Minds (d.reap np) t np := by
  refine Table.minds_of_state rfl (fun y hy => Table.setEntry_of_ne d hy _) (fun _ hl => ?_)
    (fun hu => ?_) fun _ hl => ?_
  · cases hz.symm.trans hl
  · cases hz.symm.trans hu
  · cases hs.symm.trans hl.2

theorem spares_refl (t : Nat) (d : Table) : outline.Spares t d d := fun _ _ _ => ⟨id, id⟩

section

variable (ha : outline.always d)

include ha

theorem outline_exit (hh : outline.hold t k (.exit status pp) d) :
    outline.always (exit d t status pp).data ∧ outline.After t k (exit d t status pp) ∧
      outline.Spares t d (exit d t status pp).data := by
  obtain ⟨hlive, hne, hnone⟩ := hh
  unfold exit
  split
  · split
    · rename_i hp
      have hminds := minds_reparent hp d.initproc
      have hused : (d.proc pp).state ≠ .unused := fun hu => by
        cases (ha.1.empty pp hu).symm.trans hp
      have hchild : pp ≠ d.initproc := by
        rintro rfl
        cases ha.1.init.2.symm.trans hp
      refine ⟨⟨ha.1.setParent hused hchild ha.1.init.1, ha.2.setEntry rfl rfl rfl rfl⟩,
        ⟨(d.state_setParent pp d.initproc t).trans hlive, hne, fun c hc => ?_⟩, hminds.spares⟩
      by_cases hcp : c = pp
      · rw [hcp, Table.setParent, Table.setEntry_self]
        exact fun he => hne (Option.some.inj he).symm
      · rw [Table.setParent, Table.setEntry_of_ne d hcp]
        exact hnone c (by omega)
    · rename_i hp
      refine ⟨ha, ⟨hlive, hne, fun c hc => ?_⟩, spares_refl t d⟩
      rcases Nat.lt_succ_iff_lt_or_eq.1 hc with hc | rfl
      · exact hnone c hc
      · exact hp
  · rename_i hpp
    refine ⟨ha, ⟨hlive, hne, fun c hp => ?_⟩, spares_refl t d⟩
    have hc : c < nproc := ha.1.slot c fun hu => by
      cases (ha.1.empty c hu).symm.trans hp
    exact hnone c (by omega) hp

theorem outline_wait {havekids : Bool} (hh : outline.hold t k (.scan havekids np) d) :
    outline.always (wait d t k havekids np inp).data ∧
      outline.After t k (wait d t k havekids np inp) ∧
      outline.Spares t d (wait d t k havekids np inp).data := by
  obtain ⟨hlive, hnone⟩ := hh
  have hnext : ((d.proc np).parent = some t → (d.proc np).state ≠ .zombie) →
      ∀ c < np + 1, (d.proc c).parent = some t → (d.proc c).state ≠ .zombie := by
    intro hnp c hc
    rcases Nat.lt_succ_iff_lt_or_eq.1 hc with hc | rfl
    · exact hnone c hc
    · exact hnp
  unfold wait
  split
  · split
    · rename_i hp
      split
      · exact ⟨ha, ⟨hlive, hnone⟩, spares_refl t d⟩
      · rename_i hs
        rw [Bool.not_eq_true] at hs
        split
        · rename_i hz
          split
          · exact ⟨ha, ⟨trivial, hlive⟩, spares_refl t d⟩
          · have hne : np ≠ d.initproc := by
              rintro rfl
              cases hz.symm.trans ha.1.init.1
            have hdead : (d.proc np).state ≠ .live := by
              rw [hz]
              decide
            have hnt : t ≠ np := fun he => hdead (he ▸ hlive)
            have hlive' : (d.reap np).Live t := by
              unfold Table.Live
              rw [Table.reap, Table.freeproc, Table.setEntry_of_ne d hnt]
              exact hlive
            have hrooted := ha.1.freeproc hne hdead
            exact ⟨⟨⟨hrooted.slot, hrooted.empty, hrooted.init, hrooted.parent, hrooted.orphan⟩,
              ha.2.reap hz⟩, ⟨trivial, hlive'⟩, (minds_reap hz hs).spares⟩
        · rename_i hz
          exact ⟨ha, ⟨hlive, hnext fun _ => hz⟩, spares_refl t d⟩
    · rename_i hp
      exact ⟨ha, ⟨hlive, hnext fun he => absurd he hp⟩, spares_refl t d⟩
  · split
    · exact ⟨ha, ⟨trivial, hlive⟩, spares_refl t d⟩
    · exact ⟨ha, ⟨trivial, rfl, hlive⟩, spares_refl t d⟩

theorem outline_inside (hh : outline.hold t k ℓ d) :
    outline.always (inside t k ℓ d inp).data ∧ outline.After t k (inside t k ℓ d inp) ∧
      outline.Spares t d (inside t k ℓ d inp).data := by
  cases ℓ with
  | link np =>
    have hf : d.Filling t np none := hh
    have hused : (d.proc np).state ≠ .unused := by
      rw [hf.used]
      decide
    have hne : np ≠ d.initproc := by
      rintro rfl
      cases hf.used.symm.trans ha.1.init.1
    have hself : (d.setParent np t).proc np = { d.proc np with parent := some t } :=
      Table.setEntry_self ..
    refine ⟨⟨ha.1.setParent hused hne hf.live, ha.2.setEntry rfl rfl rfl rfl⟩, ⟨trivial, ?_⟩,
      (minds_filling hf _).spares⟩
    refine ⟨(d.state_setParent np t t).trans hf.live, (d.state_setParent np t np).trans hf.used,
      ?_, ?_⟩
    · rw [hself]
      exact hf.forker
    · rw [hself]
  | exit status pp => exact outline_exit ha hh
  | bury status =>
    obtain ⟨hlive, hne, hnone⟩ := hh
    have hself : (d.setZombie t status).proc t =
        { d.proc t with state := .zombie, xstate := status, switching := true } :=
      Table.setEntry_self ..
    have hminds : d.Minds (d.setZombie t status) t t :=
      minds_self rfl (fun y hy => Table.setEntry_of_ne d hy _) fun hu => by
        cases hu.symm.trans hlive
    refine ⟨⟨ha.1.setZombie hlive hne hnone status, ha.2.setZombie hlive status⟩, ?_,
      hminds.spares⟩
    show Table.Leaving _ t
    unfold Table.Leaving
    rw [hself]
    exact ⟨rfl, rfl⟩
  | buried => exact ⟨ha, ⟨trivial, hh⟩, spares_refl t d⟩
  | scan havekids np => exact outline_wait ha hh
  | parked | user | fork | forked | switch => exact hh.elim

theorem outline_outside {m : Monitor.Move Table Loc} (ho : outline.out t ℓ d)
    (hm : outside t ℓ d inp = .ok m) : outline.always (m.data d) ∧ outline.Moved t ℓ d m ∧
      (m.data d = d ∨ ∃ x, d.Minds (m.data d) t x ∧
        (∀ p, ((m.data d).proc x).parent = some p → (d.proc x).parent = some p) ∧
        (((m.data d).proc x).state = .zombie ↔ (d.proc x).state = .zombie)) := by
  cases ℓ with
  | parked =>
    simp only [outside, Except.ok.injEq] at hm
    subst hm
    split
    · exact ⟨ha, ‹_›, .inl rfl⟩
    · exact ⟨ha, trivial, .inl rfl⟩
  | user ret =>
    have hlive : d.Live t := ho
    cases inp with
    | fork np =>
      cases np with
      | none => cases hm; exact ⟨ha, hlive, .inl rfl⟩
      | some np =>
        simp only [outside, Except.ok.injEq] at hm
        subst hm
        split
        · rename_i hnp
          have hself : (d.allocproc np t).proc np = { d.proc np with
              state := .used, pid := d.nextpid, serial := d.serials, forker := some t } :=
            Table.setEntry_self ..
          have hne : t ≠ np := by
            rintro rfl
            cases hnp.2.symm.trans hlive
          refine ⟨⟨ha.1.allocproc hnp.1 hnp.2 t, ha.2.allocproc hnp.2 t⟩, ⟨?_, ?_, ?_, ?_⟩,
            .inr ⟨np, minds_allocproc hnp.2, fun p hp => ?_, ?_⟩⟩
          · unfold Table.Live
            rw [Table.allocproc, Table.setEntry_of_ne d hne]
            exact hlive
          · rw [hself]
          · rw [hself]
          · rw [hself]
            exact ha.1.empty np hnp.2
          · simp only [Monitor.Move.data, hself] at hp
            exact hp
          · simp [Monitor.Move.data, hself, hnp.2]
        · exact ⟨ha, hlive, .inl rfl⟩
    | exit status =>
      simp only [outside] at hm
      split at hm
      · cases hm
      · rename_i hne
        cases hm
        exact ⟨ha, ⟨rfl, hlive, hne⟩, .inl rfl⟩
    | wait => cases hm; exact ⟨ha, ⟨rfl, hlive⟩, .inl rfl⟩
    | built | copyout => cases hm; exact ⟨ha, hlive, .inl rfl⟩
  | fork np =>
    have hf : d.Filling t np none := ho
    cases inp with
    | built done =>
      cases done with
      | true => cases hm; exact ⟨ha, hf, .inl rfl⟩
      | false =>
        cases hm
        have hself : (d.freeproc np).proc np = Table.cleared (d.proc np) :=
          Table.setEntry_self ..
        have hne : np ≠ d.initproc := by
          rintro rfl
          cases hf.used.symm.trans ha.1.init.1
        have hdead : (d.proc np).state ≠ .live := by
          rw [hf.used]
          decide
        have hnt : t ≠ np := fun he => hdead (he ▸ hf.live)
        refine ⟨⟨ha.1.freeproc hne hdead, ha.2.freeproc np⟩, ?_,
          .inr ⟨np, minds_filling hf _, fun p hp => ?_, ?_⟩⟩
        · show Table.Live _ t
          unfold Table.Live
          rw [Table.freeproc, Table.setEntry_of_ne d hnt]
          exact hf.live
        · simp only [Monitor.Move.data, hself] at hp
          cases hp
        · simp [Monitor.Move.data, hself, Table.cleared, hf.used]
    | fork | exit | wait | copyout => cases hm; exact ⟨ha, hf, .inl rfl⟩
  | forked np =>
    have hf : d.Filling t np (some t) := ho
    cases hm
    have hself : (d.setRunnable np).proc np =
        { d.proc np with state := .live, forker := none } := Table.setEntry_self ..
    have hnt : t ≠ np := by
      rintro rfl
      cases hf.used.symm.trans hf.live
    refine ⟨⟨ha.1.setRunnable hf.used (by rw [hf.parent]; simp), ha.2.setRunnable hf.used⟩, ?_,
      .inr ⟨np, minds_filling hf _, fun p hp => ?_, ?_⟩⟩
    · show Table.Live _ t
      unfold Table.Live
      rw [Table.setRunnable, Table.setEntry_of_ne d hnt]
      exact hf.live
    · simp only [Monitor.Move.data, hself] at hp
      exact hp
    · simp [Monitor.Move.data, hself, hf.used]
  | switch =>
    have hl : d.Leaving t := ho
    cases hm
    have hself : (d.switched t).proc t = { d.proc t with switching := false } :=
      Table.setEntry_self ..
    have hminds : d.Minds (d.switched t) t t :=
      minds_self rfl (fun y hy => Table.setEntry_of_ne d hy _) fun hu => by
        cases hu.symm.trans hl.1
    refine ⟨⟨ha.1.switched t, ha.2.setEntry rfl rfl rfl rfl⟩, trivial,
      .inr ⟨t, hminds, fun p hp => ?_, ?_⟩⟩
    · simp only [Monitor.Move.data, hself] at hp
      exact hp
    · simp only [Monitor.Move.data, hself]
  | link | exit | bury | buried | scan => exact ho.elim

end

theorem outline_valid : outline.Valid client := by
  refine ⟨fun ha hf hw => ?_, fun ha hh hact => ?_, fun ha ho hm => ?_,
    fun ha => ⟨ha, fun _ => trivial, fun _ _ _ => id⟩⟩
  · rename_i t k ℓ d
    cases ℓ with
    | link => exact hw
    | exit status pp =>
      obtain ⟨rfl, hlive, hne⟩ := hw
      exact ⟨hlive, hne, fun c hc => absurd hc (Nat.not_lt_zero c)⟩
    | scan hk np =>
      obtain ⟨rfl, hlive⟩ := hw
      exact ⟨hlive, fun c hc => absurd hc (Nat.not_lt_zero c)⟩
    | _ => exact hw.elim
  · cases hact
    exact outline_inside ha hh
  · obtain ⟨halways, hmoved, hdata⟩ := outline_outside ha ho hm
    rcases hdata with hsame | ⟨x, hminds, hparent, hzombie⟩
    · rw [hsame]
      exact ⟨ha, hmoved, spares_refl _ _, fun _ => trivial, fun _ _ _ _ => id⟩
    · exact ⟨halways, hmoved, hminds.spares, fun _ => trivial,
        fun q k ℓ hq => hminds.hold hq hparent hzombie.1⟩

theorem outline_step (h : outline.Holds s) (hs : step s e = .ok s') : outline.Holds s' :=
  outline_valid.step (Monitor.step_eq_ok hs) h fun _ _ _ _ hh => hh

theorem Start.rooted (h : Start s) : s.data.Rooted := by
  have hothers : ∀ c, (s.data.proc c).state ≠ .unused → c = s.data.initproc := by
    intro c hc
    by_contra hne
    exact hc (h.others c hne).1
  have hparent : ∀ c, (s.data.proc c).parent = none := by
    intro c
    by_cases hc : c = s.data.initproc
    · rw [hc]
      exact h.root
    · exact (h.others c hc).2
  refine ⟨fun c hc => ?_, fun c _ => hparent c, ⟨h.first, h.root⟩, fun c p hp => ?_,
    fun c hc hne => ?_⟩
  · rw [hothers c hc]
    exact h.init
  · cases (hparent c).symm.trans hp
  · exact absurd (hothers c (by rcases hc with hc | hc <;> rw [hc] <;> decide)) hne

theorem Start.recorded (h : Start s) : s.data.Recorded := by
  have hothers : ∀ c, (s.data.proc c).state ≠ .unused → c = s.data.initproc := by
    intro c hc
    by_contra hne
    exact hc (h.others c hne).1
  refine ⟨fun c hc => ?_, fun c x hc hx _ => ?_, fun c hc => ?_, ?_, ?_, ?_, ?_, ?_, ?_⟩
  · rw [hothers c hc]
    exact h.serial
  · rw [hothers c hc, hothers x hx]
  · have := hothers c (by rw [hc]; decide)
    rw [this, h.first] at hc
    cases hc
  all_goals simp [h.exits, h.returned]

theorem Start.holds (h : Start s) : outline.Holds s := by
  refine ⟨⟨h.rooted, h.recorded⟩, fun _ => trivial, fun t => ?_, fun t => ?_⟩
  · simp [h.ctl, h.holder, Monitor.Ctl.holds]
  · rw [h.ctl]
    trivial

/-! ## Exit statuses -/

theorem exit_state (d : Table) (t : Nat) (status : Int) (pp c : Nat) :
    ((exit d t status pp).data.proc c).state = (d.proc c).state := by
  unfold exit
  split
  · split
    · exact Table.state_setParent ..
    · rfl
  · rfl

theorem wait_frees (hz : (d.proc c).state = .zombie)
    (hfreed : ((wait d t k hk np inp).data.proc c).state ≠ .zombie) :
    np = c ∧ (d.proc c).parent = some t ∧
      wait d t k hk np inp = .release (d.reap c) (.user (d.proc c).pid) := by
  unfold wait at hfreed ⊢
  split at hfreed
  · split at hfreed
    · split at hfreed
      · exact absurd hz hfreed
      · split at hfreed
        · split at hfreed
          · exact absurd hz hfreed
          · rename_i hnp hp hs hznp x hx
            by_cases hc : c = np
            · subst hc
              rw [if_pos hnp, if_pos hp, if_neg hs, if_pos hznp]
              exact ⟨rfl, hp, rfl⟩
            · rw [Monitor.Act.data, Table.reap, Table.freeproc, Table.setEntry_of_ne d hc] at hfreed
              exact absurd hz hfreed
        · exact absurd hz hfreed
    · exact absurd hz hfreed
  · split at hfreed <;> exact absurd hz hfreed

theorem reaped_step (hO : outline.Holds s) (hs : step s e = .ok s')
    (hz : (s.data.proc c).state = .zombie) (hfreed : (s'.data.proc c).state ≠ .zombie) :
    ∃ p inp, e = .run p inp ∧ (s.data.proc c).parent = some p ∧
      (∃ hk np, s.ctl p = .inside (.scan hk np)) ∧
      s'.ctl p = .out (.user (s.data.proc c).pid) ∧
      s'.data.returned = s.data.returned ++ [s.data.exited c] := by
  cases Monitor.step_eq_ok hs with
  | inside hc ha =>
    rename_i t inp ℓ a
    cases ha
    have hh : outline.hold t (s.killed t) ℓ s.data := hO.thread_of hc
    rw [Monitor.State.act_data] at hfreed
    cases ℓ with
    | scan hk np =>
      obtain ⟨rfl, hp, hret⟩ := wait_frees hz hfreed
      refine ⟨t, inp, rfl, hp, ⟨hk, np, hc⟩, ?_, ?_⟩
      · simp only [inside, hret]
        exact Monitor.State.setCtl_self ..
      · rw [Monitor.State.act_data]
        simp only [inside, hret]
        rfl
    | link np => exact absurd ((Table.state_setParent ..).trans hz) hfreed
    | exit status pp => exact absurd ((exit_state ..).trans hz) hfreed
    | bury status =>
      have hct : c ≠ t := by
        rintro rfl
        cases hz.symm.trans hh.1
      refine absurd ?_ hfreed
      show ((s.data.setZombie t status).proc c).state = .zombie
      rw [Table.setZombie, Table.setEntry_of_ne _ hct]
      exact hz
    | buried => exact absurd hz hfreed
    | parked | user | fork | forked | switch => exact hh.elim
  | outside hc hm =>
    rw [Monitor.State.move_data] at hfreed
    rcases (outline_outside hO.always (hO.thread_of hc) hm).2.2 with
      hsame | ⟨x, hminds, -, hzombie⟩
    · rw [hsame] at hfreed
      exact absurd hz hfreed
    · by_cases hcx : c = x
      · subst hcx
        exact absurd (hzombie.2 hz) hfreed
      · rw [hminds.others c hcx] at hfreed
        exact absurd hz hfreed
  | idle | acquire | visit | woken | doze | kill | fresh | env => exact absurd hz hfreed

/-- Processes have parents that are alive; a zombie is freed only by a `wait` of its parent,
which returns its pid and status; and every exit is returned at most once. -/
theorem tree_sound {s s' : State} {es : List Event} (hs : Start s)
    (hrun : Run.exec step s es = .ok s') :
    (s'.holder = none → ∀ c, (s'.data.proc c).state = .live ∨ (s'.data.proc c).state = .zombie →
      c ≠ s'.data.initproc →
      ∃ p, (s'.data.proc c).parent = some p ∧ (s'.data.proc p).state ≠ .unused ∧
        (s'.data.proc p).state ≠ .zombie) ∧
    (∀ e s'' c, step s' e = .ok s'' → (s'.data.proc c).state = .zombie →
      (s''.data.proc c).state ≠ .zombie →
      ∃ p inp, e = .run p inp ∧ (s'.data.proc c).parent = some p ∧
        (∃ hk np, s'.ctl p = .inside (.scan hk np)) ∧
        s''.ctl p = .out (.user (s'.data.proc c).pid) ∧
        s''.data.returned = s'.data.returned ++ [s'.data.exited c] ∧
        s'.data.exited c ∈ s'.data.exits) ∧
    (s'.data.exits.map (·.serial)).Nodup ∧ (s'.data.returned.map (·.serial)).Nodup ∧
    ∀ x ∈ s'.data.returned, x ∈ s'.data.exits := by
  have hO : outline.Holds s' :=
    Run.inv_of_exec (I := outline.Holds) (fun _ _ _ => outline_step) hs.holds hrun
  obtain ⟨hroot, hrec⟩ := hO.always
  refine ⟨fun _ c hc hne => ?_, fun e s'' c hstep hz hfreed => ?_, hrec.once, hrec.returnedOnce,
    hrec.subset⟩
  · obtain ⟨p, hp⟩ := Option.ne_none_iff_exists'.1 (hroot.orphan c hc hne)
    have hlive := hroot.parent c p hp
    refine ⟨p, hp, ?_, ?_⟩ <;> rw [hlive] <;> decide
  · obtain ⟨p, inp, he, hp, hloc, hret, hrec'⟩ := reaped_step hO hstep hz hfreed
    exact ⟨p, inp, he, hp, hloc, hret, hrec', hrec.zombie c hz⟩

def fresh : State :=
  { data :=
      { proc := fun c =>
          { state := if c = 0 then .live else .unused, parent := none
            pid := if c = 0 then 1 else 0, xstate := 0, serial := 0, forker := none
            switching := false }
        initproc := 0, nextpid := 2, serials := 1, exits := [], returned := [] }
    holder := none, ctl := fun _ => .out .parked, killed := fun _ => false }

theorem start_fresh : Start fresh := by
  refine ⟨by decide, rfl, rfl, by decide, fun c hc => ⟨if_neg hc, rfl⟩, fun _ => rfl, rfl, rfl, rfl,
    fun _ => rfl⟩

def oneFork : List Event :=
  [.run 0 .wait, .run 0 (.fork (some 1)), .run 0 (.built true), .run 0 .wait, .run 0 .wait,
    .run 0 .wait]

def oneExit : List Event :=
  oneFork ++ .run 1 .wait :: .run 1 (.exit 7) :: List.replicate 134 (.run 1 .wait) ++
    List.replicate 4 (.run 0 .wait)

theorem tree_sound_oneExit :
    Start fresh ∧ ∃ s', Run.exec step fresh oneExit = .ok s' ∧
      (s'.data.returned.map (·.serial)).Nodup ∧ s'.data.returned = [⟨1, 2, 7⟩] := by
  have hends : Run.ends step fresh oneExit
      (fun s => decide (s.data.returned = [⟨1, 2, 7⟩])) = true := by decide +kernel
  obtain ⟨s', hrun, hcheck⟩ := Run.of_ends hends
  exact ⟨start_fresh, s', hrun, (tree_sound start_fresh hrun).2.2.2.1, of_decide_eq_true hcheck⟩

/-! ## No lost wakeup -/

/-- The process that sleeps on the channel has a child to return. -/
def Ready (ch : Option Nat) (d : Table) : Prop :=
  ∃ p c, ch = some p ∧ (d.proc c).parent = some p ∧ (d.proc c).state = .zombie

/-- At the point at which it becomes a zombie, a process has woken its parent already. -/
def MayWait (t : Nat) (ℓ : Loc) (d : Table) (ch : Option Nat) : Prop :=
  ¬ Ready ch d ∧
    match ℓ with
    | .bury _ => ch ≠ (d.proc t).parent
    | _ => True

theorem attends_exit (hw : ¬ Ready ch d) :
    Monitor.OkAfter Ready MayWait t ch (exit d t status pp) := by
  unfold exit
  split
  · split
    · rename_i hp
      intro hch
      refine ⟨?_, trivial⟩
      rintro ⟨p, c, rfl, hpar, hz⟩
      rw [Table.state_setParent] at hz
      by_cases hcp : c = pp
      · rw [hcp, Table.setParent, Table.setEntry_self] at hpar
        exact hch hpar.symm
      · rw [Table.setParent, Table.setEntry_of_ne d hcp] at hpar
        exact hw ⟨p, c, rfl, hpar, hz⟩
    · exact ⟨hw, trivial⟩
  · exact fun hch => ⟨hw, hch⟩

theorem attends_wait (hw : ¬ Ready ch d) :
    Monitor.OkAfter Ready MayWait t ch (wait d t k hk np inp) := by
  unfold wait
  split
  · split
    · split
      · exact ⟨hw, trivial⟩
      · split
        · split
          · exact hw
          · rintro ⟨p, c, rfl, hpar, hz⟩
            by_cases hc : c = np
            · rw [hc, Table.reap, Table.freeproc, Table.setEntry_self] at hz
              cases hz
            · rw [Table.reap, Table.freeproc, Table.setEntry_of_ne d hc] at hpar hz
              exact hw ⟨p, c, rfl, hpar, hz⟩
        · exact ⟨hw, trivial⟩
    · exact ⟨hw, trivial⟩
  · split
    · exact hw
    · exact hw

theorem attends_inside (hh : outline.hold t k ℓ d) (hok : MayWait t ℓ d ch) :
    Monitor.OkAfter Ready MayWait t ch (inside t k ℓ d inp) := by
  obtain ⟨hw, hloc⟩ := hok
  cases ℓ with
  | link np =>
    rintro ⟨p, c, rfl, hpar, hz⟩
    rw [Table.state_setParent] at hz
    have hc : c ≠ np := by
      rintro rfl
      have hf : d.Filling t c none := hh
      cases hf.used.symm.trans hz
    rw [Table.setParent, Table.setEntry_of_ne d hc] at hpar
    exact hw ⟨p, c, rfl, hpar, hz⟩
  | exit status pp => exact attends_exit hw
  | bury status =>
    refine ⟨?_, trivial⟩
    rintro ⟨p, c, rfl, hpar, hz⟩
    by_cases hc : c = t
    · rw [hc, Table.setZombie] at hpar
      simp only [Table.setEntry_self] at hpar
      exact hloc hpar.symm
    · rw [Table.setZombie] at hpar hz
      simp only [Table.setEntry_of_ne d hc] at hpar hz
      exact hw ⟨p, c, rfl, hpar, hz⟩
  | buried => exact hw
  | scan hk np => exact attends_wait hw
  | parked | user | fork | forked | switch => exact hh.elim

theorem attends_sleep {ℓ' : Loc} (ha : outline.always d) (hh : outline.hold t k ℓ d)
    (hact : inside t k ℓ d inp = .sleep ch d' ℓ') : t < nproc ∧ ¬ Ready ch d' := by
  cases ℓ with
  | scan hk np =>
    obtain ⟨hlive, hnone⟩ := hh
    simp only [inside, wait] at hact
    split at hact
    · split at hact
      · split at hact
        · cases hact
        · split at hact
          · split at hact <;> cases hact
          · cases hact
      · cases hact
    · rename_i hnp
      split at hact
      · cases hact
      · cases hact
        refine ⟨ha.1.slot t (by rw [hlive]; decide), ?_⟩
        rintro ⟨p, c, he, hpar, hz⟩
        cases he
        have hc := ha.1.slot c (by rw [hz]; decide)
        exact hnone c (by omega) hpar hz
  | exit status pp =>
    simp only [inside, exit] at hact
    split at hact
    · split at hact <;> cases hact
    · cases hact
  | link | bury | buried => cases hact
  | parked | user | fork | forked | switch => exact hh.elim

theorem attends : Monitor.Attends Ready MayWait client nproc outline := by
  refine ⟨fun ha hf hw hr => ?_, fun ha hh hact hok => ?_, fun ha hh hact => ?_,
    fun ha ho hm => ?_, fun _ => ⟨fun _ => id, fun _ _ _ _ _ => id⟩⟩
  · rename_i t ℓ d ch
    cases ℓ with
    | bury => exact hw.elim
    | _ => trivial
  · cases hact
    exact attends_inside hh hok
  · exact attends_sleep ha hh (Except.ok.inj hact)
  · rename_i t k ℓ d inp m
    have hkeep : ∀ ch, ¬ Ready ch d → ¬ Ready ch (m.data d) := by
      rintro ch hr ⟨p, c, rfl, hpar, hz⟩
      rcases (outline_outside ha ho hm).2.2 with hsame | ⟨x, hminds, hparent, hzombie⟩
      · rw [hsame] at hpar hz
        exact hr ⟨p, c, rfl, hpar, hz⟩
      · by_cases hcx : c = x
        · subst hcx
          exact hr ⟨p, c, rfl, hparent p hpar, hzombie.1 hz⟩
        · rw [hminds.others c hcx] at hpar hz
          exact hr ⟨p, c, rfl, hpar, hz⟩
    refine ⟨hkeep, fun q k' ℓ' ch hq hh hok => ⟨hkeep ch hok.1, ?_⟩⟩
    cases ℓ' with
    | bury status =>
      obtain ⟨-, hne⟩ := hok
      obtain ⟨halways, -, hsame | ⟨x, hminds, hparent, -⟩⟩ := outline_outside ha ho hm
      · rw [hsame]
        exact hne
      · by_cases hqx : q = x
        · subst hqx
          have hsome := halways.1.orphan q (.inl (hminds.keeps_live hq hh.1))
            (by rw [hminds.initproc]; exact hh.2.1)
          obtain ⟨p, hp⟩ := Option.ne_none_iff_exists'.1 hsome
          simp only [hp]
          rintro rfl
          exact hne (hparent p hp).symm
        · simp only [hminds.others q hqx]
          exact hne
    | _ => trivial

theorem Start.awaited (h : Start s) : s.Awaited Ready MayWait nproc := by
  rintro q c ⟨ℓ, hsleep⟩
  simp [h.ctl] at hsleep

/-- With `wait_lock` free, no process that sleeps in `wait` has a zombie child. -/
theorem wait_no_lost_wakeup {s s' : State} {es : List Event} (hs : Start s)
    (hrun : Run.exec step s es = .ok s') (hfree : s'.holder = none) {p c : Nat}
    (hsleep : s'.Asleep p (some p)) (hchild : (s'.data.proc c).parent = some p) :
    (s'.data.proc c).state ≠ .zombie := by
  have hinv : outline.Holds s' ∧ s'.Awaited Ready MayWait nproc :=
    Run.inv_of_exec (I := fun x => outline.Holds x ∧ x.Awaited Ready MayWait nproc)
      (fun _ _ _ hx hstep => ⟨outline_step hx.1 hstep,
        (Monitor.step_eq_ok hstep).awaited attends hx.1 hx.2⟩)
      ⟨hs.holds, hs.awaited⟩ hrun
  exact fun hz => hinv.2.of_free hfree hsleep ⟨p, c, rfl, hchild, hz⟩

/-- The first process waits for a child that runs. -/
theorem wait_no_lost_wakeup_oneFork :
    Start fresh ∧ ∃ s', Run.exec step fresh (oneFork ++ List.replicate 68 (.run 0 .wait)) = .ok s' ∧
      s'.holder = none ∧ s'.Asleep 0 (some 0) ∧ (s'.data.proc 1).parent = some 0 ∧
      (s'.data.proc 1).state ≠ .zombie := by
  have hends : Run.ends step fresh (oneFork ++ List.replicate 68 (.run 0 .wait))
      (fun s => s.holder.isNone && decide ((s.data.proc 1).parent = some 0) &&
        s.sleeps 0 (some 0)) = true := by decide +kernel
  obtain ⟨s', hrun, hcheck⟩ := Run.of_ends hends
  simp only [Bool.and_eq_true, decide_eq_true_eq, Option.isNone_iff_eq_none] at hcheck
  obtain ⟨⟨hfree, hparent⟩, hsleep⟩ := hcheck
  have hasleep := Monitor.State.asleep_of_sleeps hsleep
  exact ⟨start_fresh, s', hrun, hfree, hasleep, hparent,
    wait_no_lost_wakeup start_fresh hrun hfree hasleep hparent⟩

end

end Xv6.Tree
