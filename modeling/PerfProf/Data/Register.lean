import PerfProf.Data.Transition

namespace PerfProf.Data

/-! A register that holds at most one item for each key.  An item that is used
is dropped at once. -/

universe u v w

inductive RegisterOp (ε : Type u) where
  | put (item : ε)
  | drop (item : ε)
  | use (item : ε)

structure Register (κ : Type v) (ε : Type u) where
  held : κ → Option ε
  busy : Option ε
  bound : Nat

def Register.empty (κ : Type v) (ε : Type u) : Register κ ε where
  held _ := none
  busy := none
  bound := 0

section Accept

variable {α : Type w} {κ : Type v} {ε : Type u} [DecidableEq κ] [DecidableEq ε]
  (view : α → Option (RegisterOp ε)) (key : ε → κ) (rank : ε → Nat)

def Register.accept (act : α) (register : Register κ ε) :
    Option (Register κ ε) :=
  match view act with
  | none => if register.busy = none then some register else none
  | some (.put item) =>
    if register.busy = none ∧ register.held (key item) = none ∧ register.bound ≤ rank item then
      some ⟨Function.update register.held (key item) (some item), none, rank item + 1⟩
    else none
  | some (.drop item) =>
    if (register.busy = none ∨ register.busy = some item) ∧
        register.held (key item) = some item then
      some ⟨Function.update register.held (key item) none, none, register.bound⟩
    else none
  | some (.use item) =>
    if register.busy = none ∧ register.held (key item) = some item then
      some { register with busy := some item }
    else none

end Accept

namespace Register

variable {α : Type w} {κ : Type v} {ε : Type u} [DecidableEq κ] [DecidableEq ε]
  {view : α → Option (RegisterOp ε)} {key : ε → κ} {rank : ε → Nat} {act : α}
  {log : List α} {register next : Register κ ε} {item : ε}

theorem accept_none (hview : view act = none) :
    register.accept view key rank act = some next ↔
      register.busy = none ∧ next = register := by
  simp only [accept, hview, Option.ite_none_right_eq_some, Option.some.injEq]
  exact and_congr_right fun _ => eq_comm

theorem accept_put (hview : view act = some (.put item)) :
    register.accept view key rank act = some next ↔
      (register.busy = none ∧
        register.held (key item) = none ∧
        register.bound ≤ rank item) ∧
      next =
        ⟨Function.update register.held (key item) (some item), none,
          rank item + 1⟩ := by
  simp only [accept, hview, Option.ite_none_right_eq_some, Option.some.injEq]
  exact and_congr_right fun _ => eq_comm

theorem accept_drop (hview : view act = some (.drop item)) :
    register.accept view key rank act = some next ↔
      ((register.busy = none ∨ register.busy = some item) ∧
        register.held (key item) = some item) ∧
      next =
        ⟨Function.update register.held (key item) none, none,
          register.bound⟩ := by
  simp only [accept, hview, Option.ite_none_right_eq_some, Option.some.injEq]
  exact and_congr_right fun _ => eq_comm

theorem accept_use (hview : view act = some (.use item)) :
    register.accept view key rank act = some next ↔
      (register.busy = none ∧ register.held (key item) = some item) ∧
      next = { register with busy := some item } := by
  simp only [accept, hview, Option.ite_none_right_eq_some, Option.some.injEq]
  exact and_congr_right fun _ => eq_comm

def Put (view : α → Option (RegisterOp ε)) (key : ε → κ) (item : ε)
    (log : List α) : Prop :=
  ∃ early act late, log = early ++ act :: late ∧ view act = some (.put item) ∧
    ∀ other ∈ late, view other ≠ some (.drop item) ∧
      ∀ new, view other = some (.put new) → key new ≠ key item

omit [DecidableEq κ] [DecidableEq ε] in
theorem Put.append (put : Put view key item log)
    (hdrop : view act ≠ some (.drop item))
    (hput : ∀ new, view act = some (.put new) → key new ≠ key item) :
    Put view key item (log ++ [act]) := by
  obtain ⟨early, first, late, rfl, hfirst, hlate⟩ := put
  refine ⟨early, first, late ++ [act], by simp, hfirst, ?_⟩
  intro other member
  rcases List.mem_append.mp member with member | member
  · exact hlate other member
  · rw [List.mem_singleton.mp member]
    exact ⟨hdrop, hput⟩

structure Kept (view : α → Option (RegisterOp ε)) (key : ε → κ)
    (rank : ε → Nat) (log : List α) (register : Register κ ε) : Prop where
  keyed : ∀ slot item, register.held slot = some item → key item = slot
  put : ∀ slot item, register.held slot = some item → Put view key item log
  ranked : ∀ slot item, register.held slot = some item → rank item < register.bound
  used : ∀ act ∈ log, ∀ item, view act = some (.use item) → rank item < register.bound
  unused : ∀ slot item, register.held slot = some item →
    register.busy ≠ some item → ∀ act ∈ log, view act ≠ some (.use item)

omit [DecidableEq κ] [DecidableEq ε] in
theorem Kept.empty : Kept view key rank [] (Register.empty κ ε) where
  keyed := fun _ _ held => by cases held
  put := fun _ _ held => by cases held
  ranked := fun _ _ held => by cases held
  used := fun _ member => by cases member
  unused := fun _ _ held => by cases held

section

variable (kept : Kept view key rank log register)

include kept

omit [DecidableEq κ] [DecidableEq ε] in
theorem Kept.used_snoc (hview : view act = op)
    (hother : ∀ item, op ≠ some (.use item)) (hle : register.bound ≤ limit)
    (other : α) (member : other ∈ log ++ [act]) (item : ε)
    (huse : view other = some (.use item)) :
    other ∈ log ∧ rank item < limit := by
  rcases List.mem_append.mp member with member | member
  · exact ⟨member, (kept.used other member item huse).trans_le hle⟩
  · rw [List.mem_singleton.mp member, hview] at huse
    exact absurd huse (hother item)

omit [DecidableEq κ] [DecidableEq ε] in
theorem Kept.skip (hview : view act = none) :
    Kept view key rank (log ++ [act]) register where
  keyed := kept.keyed
  put := fun slot item held => (kept.put slot item held).append (by simp [hview]) (by simp [hview])
  ranked := kept.ranked
  used := fun other member item huse =>
    (kept.used_snoc hview (by simp) le_rfl other member item huse).2
  unused := by
    intro slot item held idle other member huse
    have hold := (kept.used_snoc hview (by simp) le_rfl other member item huse).1
    exact kept.unused slot item held idle other hold huse

omit [DecidableEq ε] in
theorem Kept.put_step (hview : view act = some (.put item))
    (hfree : register.held (key item) = none)
    (hrank : register.bound ≤ rank item) (idle : register.busy = none) :
    Kept view key rank (log ++ [act])
      ⟨Function.update register.held (key item) (some item), none,
        rank item + 1⟩ := by
  have hused := kept.used_snoc hview (by simp) (Nat.le_succ_of_le hrank)
  have hcases : ∀ slot other,
      Function.update register.held (key item) (some item) slot = some other →
      slot = key item ∧ other = item ∨ slot ≠ key item ∧ register.held slot = some other := by
    intro slot other held
    by_cases same : slot = key item
    · subst same
      rw [Function.update_self] at held
      exact .inl ⟨rfl, (Option.some.inj held).symm⟩
    · rw [Function.update_of_ne same] at held
      exact .inr ⟨same, held⟩
  refine ⟨?_, ?_, ?_, ?_, ?_⟩
  · intro slot other held
    rcases hcases slot other held with ⟨rfl, rfl⟩ | ⟨_, held⟩
    · rfl
    · exact kept.keyed slot other held
  · intro slot other held
    rcases hcases slot other held with ⟨rfl, rfl⟩ | ⟨different, held⟩
    · exact ⟨log, act, [], rfl, hview, by simp⟩
    · refine (kept.put slot other held).append (by simp [hview]) ?_
      intro new hnew
      rw [hview] at hnew
      cases hnew
      rw [kept.keyed slot other held]
      exact Ne.symm different
  · intro slot other held
    rcases hcases slot other held with ⟨rfl, rfl⟩ | ⟨_, held⟩
    · exact Nat.lt_succ_self _
    · have := kept.ranked slot other held
      change rank other < rank item + 1
      omega
  · exact fun other member used huse => (hused other member used huse).2
  · intro slot other held _ before member huse
    have hold := (hused before member other huse).1
    rcases hcases slot other held with ⟨rfl, rfl⟩ | ⟨_, held⟩
    · have := kept.used before hold other huse
      omega
    · exact kept.unused slot other held (by simp [idle]) before hold huse

omit [DecidableEq ε] in
theorem Kept.drop_step (hview : view act = some (.drop item))
    (hheld : register.held (key item) = some item)
    (hbusy : register.busy = none ∨ register.busy = some item) :
    Kept view key rank (log ++ [act])
      ⟨Function.update register.held (key item) none, none,
        register.bound⟩ := by
  have hcases : ∀ slot other, Function.update register.held (key item) none slot = some other →
      slot ≠ key item ∧ register.held slot = some other := by
    intro slot other held
    by_cases same : slot = key item
    · subst same
      rw [Function.update_self] at held
      cases held
    · rw [Function.update_of_ne same] at held
      exact ⟨same, held⟩
  have hother : ∀ slot other, Function.update register.held (key item) none slot = some other →
      other ≠ item := by
    rintro slot other held rfl
    obtain ⟨different, held⟩ := hcases slot other held
    exact different (kept.keyed slot other held).symm
  have hused := kept.used_snoc hview (by simp) le_rfl
  refine ⟨?_, ?_, ?_, fun other member used huse => (hused other member used huse).2, ?_⟩
  · intro slot other held
    exact kept.keyed slot other (hcases slot other held).2
  · intro slot other held
    refine (kept.put slot other (hcases slot other held).2).append ?_ ?_
    · rw [hview]
      intro same
      cases same
      exact hother slot _ held rfl
    · simp [hview]
  · intro slot other held
    exact kept.ranked slot other (hcases slot other held).2
  · intro slot other held _ before member huse
    have hold := (hused before member other huse).1
    refine kept.unused slot other (hcases slot other held).2 ?_ before hold huse
    intro same
    rcases hbusy with hnone | hsome
    · simp [hnone] at same
    · rw [hsome] at same
      exact hother slot other held (Option.some.inj same).symm

omit [DecidableEq κ] [DecidableEq ε] in
theorem Kept.use_step (hview : view act = some (.use item))
    (hheld : register.held (key item) = some item)
    (idle : register.busy = none) :
    Kept view key rank (log ++ [act]) { register with busy := some item } := by
  refine ⟨kept.keyed, ?_, kept.ranked, ?_, ?_⟩
  · intro slot other held
    exact (kept.put slot other held).append (by simp [hview]) (by simp [hview])
  · intro other member used huse
    rcases List.mem_append.mp member with member | member
    · exact kept.used other member used huse
    · rw [List.mem_singleton.mp member, hview] at huse
      cases huse
      exact kept.ranked _ _ hheld
  · intro slot other held hbusy before member huse
    rcases List.mem_append.mp member with member | member
    · exact kept.unused slot other held (by simp [idle]) before member huse
    · rw [List.mem_singleton.mp member, hview] at huse
      cases huse
      exact hbusy rfl

theorem Kept.step (accepted : register.accept view key rank act = some next) :
    Kept view key rank (log ++ [act]) next := by
  cases hview : view act with
  | none =>
    obtain ⟨_, rfl⟩ := (accept_none hview).mp accepted
    exact kept.skip hview
  | some op =>
    cases op with
    | put item =>
      obtain ⟨⟨idle, hfree, hrank⟩, rfl⟩ := (accept_put hview).mp accepted
      exact kept.put_step hview hfree hrank idle
    | drop item =>
      obtain ⟨⟨hbusy, hheld⟩, rfl⟩ := (accept_drop hview).mp accepted
      exact kept.drop_step hview hheld hbusy
    | use item =>
      obtain ⟨⟨idle, hheld⟩, rfl⟩ := (accept_use hview).mp accepted
      exact kept.use_step hview hheld idle

end

theorem run_snoc :
    run (accept view key rank) (log ++ [act]) start = some next ↔
      ∃ register, run (accept view key rank) log start = some register ∧
        register.accept view key rank act = some next := by
  rw [run_append]
  simp [run_cons]

theorem kept_of_run
    (accepted : run (accept view key rank) log (.empty κ ε) = some register) :
    Kept view key rank log register := by
  induction log using List.reverseRecOn generalizing register with
  | nil =>
    cases accepted
    exact Kept.empty
  | append_singleton log act ih =>
    obtain ⟨middle, hrun, hstep⟩ := run_snoc.mp accepted
    exact (ih hrun).step hstep

section

variable {before after : List α} {act : α}
  (accepted : run (accept view key rank) (before ++ act :: after) (.empty κ ε) =
    some register)
  (idle : register.busy = none) (hview : view act = some (.use item))

include accepted idle hview

theorem used_spec :
    Put view key item before ∧
    (∃ next rest, after = next :: rest ∧ view next = some (.drop item)) ∧
    ∀ other ∈ before, view other ≠ some (.use item) := by
  obtain ⟨middle, hbefore, hafter⟩ := run_append.mp accepted
  obtain ⟨busy, hact, hafter⟩ := run_cons.mp hafter
  obtain ⟨⟨hidle, hheld⟩, rfl⟩ := (accept_use hview).mp hact
  have kept := kept_of_run hbefore
  refine ⟨kept.put _ _ hheld, ?_, kept.unused _ _ hheld (by simp [hidle])⟩
  cases after with
  | nil =>
    cases hafter
    cases idle
  | cons next rest =>
    obtain ⟨last, hnext, _⟩ := run_cons.mp hafter
    refine ⟨next, rest, rfl, ?_⟩
    cases hop : view next with
    | none =>
      have := ((accept_none hop).mp hnext).1
      cases this
    | some op =>
      cases op with
      | put other =>
        have := ((accept_put hop).mp hnext).1.1
        cases this
      | use other =>
        have := ((accept_use hop).mp hnext).1.1
        cases this
      | drop other =>
        rcases ((accept_drop hop).mp hnext).1.1 with hnone | hsame
        · cases hnone
        · cases hsame
          rfl

theorem used_once :
    ∀ other ∈ before ++ after, view other ≠ some (.use item) := by
  intro other member huse
  rcases List.mem_append.mp member with member | member
  · exact (used_spec accepted idle hview).2.2 other member huse
  · obtain ⟨first, second, rfl⟩ := List.append_of_mem member
    have hsplit : run (accept view key rank)
        ((before ++ act :: first) ++ other :: second) (.empty κ ε) =
          some register := by
      simpa using accepted
    exact (used_spec hsplit idle huse).2.2 act (by simp) hview

end

theorem held_until_drop
    (accepted : run (accept view key rank) log start = some register)
    (hheld : start.held (key item) = some item)
    (hdrop : ∀ act ∈ log, view act ≠ some (.drop item)) :
    register.held (key item) = some item := by
  induction log generalizing start with
  | nil =>
    cases accepted
    exact hheld
  | cons act rest ih =>
    obtain ⟨middle, hstep, hrest⟩ := run_cons.mp accepted
    refine ih hrest ?_ fun other member => hdrop other (.tail act member)
    cases hview : view act with
    | none =>
      obtain ⟨_, rfl⟩ := (accept_none hview).mp hstep
      exact hheld
    | some op =>
      cases op with
      | put new =>
        obtain ⟨⟨_, hfree, _⟩, rfl⟩ := (accept_put hview).mp hstep
        have different : key item ≠ key new := by
          intro same
          rw [← same, hheld] at hfree
          cases hfree
        simpa [Function.update_of_ne different]
      | drop old =>
        obtain ⟨⟨_, hold⟩, rfl⟩ := (accept_drop hview).mp hstep
        have different : key item ≠ key old := by
          intro same
          rw [← same, hheld] at hold
          cases hold
          exact hdrop act (.head rest) hview
        simpa [Function.update_of_ne different]
      | use _ =>
        obtain ⟨_, rfl⟩ := (accept_use hview).mp hstep
        exact hheld

theorem dropped_between
    (accepted : run (accept view key rank)
      (before ++ first :: (middle ++ second :: after)) (.empty κ ε) =
      some register)
    (hfirst : view first = some (.put one))
    (hsecond : view second = some (.put two)) (same : key one = key two) :
    ∃ act ∈ middle, view act = some (.drop one) := by
  obtain ⟨start, hbefore, hrest⟩ := run_append.mp accepted
  obtain ⟨holding, hput, hrest⟩ := run_cons.mp hrest
  obtain ⟨later, hmiddle, hrest⟩ := run_append.mp hrest
  obtain ⟨last, hnext, _⟩ := run_cons.mp hrest
  obtain ⟨_, hstart⟩ := (accept_put hfirst).mp hput
  by_contra hnone
  have hdrop : ∀ act ∈ middle, view act ≠ some (.drop one) :=
    fun act member found => hnone ⟨act, member, found⟩
  have hone : holding.held (key one) = some one := by simp [hstart]
  have hheld := held_until_drop hmiddle hone hdrop
  obtain ⟨⟨_, hfree, _⟩, _⟩ := (accept_put hsecond).mp hnext
  rw [← same, hheld] at hfree
  cases hfree

end Register

end PerfProf.Data
