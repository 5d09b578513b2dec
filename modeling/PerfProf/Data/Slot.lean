import Mathlib.Algebra.Order.BigOperators.Group.Finset
import Mathlib.Algebra.Order.Ring.Int

namespace PerfProf.Data

/-! Several sources share one slot for what is found and not yet reported. -/

universe u v

variable {ι : Type u} {α : Type v}

@[ext] structure Slot (ι : Type u) (α : Type v) where
  found : ι → List α
  reported : ι → List α
  waiting : List α
  reading : Option ι

namespace Slot

variable [DecidableEq ι]

inductive Move : Bool → Slot ι α → Slot ι α → Prop
  | keep {s : Slot ι α} : Move true s s
  | enter {s : Slot ι α} (source : ι) (closed : s.reading = none) :
      Move true s { s with reading := some source }
  | clear {s : Slot ι α} (closed : s.reading = none) :
      Move true s { s with waiting := [] }
  | take {s : Slot ι α} (source : ι) (items : List α)
      (reading : s.reading = some source) :
      Move s.waiting.isEmpty s { s with
          found := Function.update s.found source (s.found source ++ items)
          waiting := items }
  | report {s : Slot ι α} (source : ι) (reading : s.reading = some source) :
      Move true s { s with
          reported :=
            Function.update s.reported source (s.reported source ++ s.waiting)
          waiting := []
          reading := none }
  | leave {s : Slot ι α} (source : ι) (reading : s.reading = some source) :
      Move s.waiting.isEmpty s { s with reading := none }
  | discard {s : Slot ι α} (source : ι) (reading : s.reading = some source) :
      Move s.waiting.isEmpty s { s with waiting := [], reading := none }

structure Balanced (s : Slot ι α) : Prop where
  found : ∀ source, s.found source =
    s.reported source ++ if s.reading = some source then s.waiting else []
  closed : s.reading = none → s.waiting = []

variable {s : Slot ι α}

theorem Balanced.found_of_closed (balanced : Balanced s)
    (closed : s.reading = none) (source : ι) :
    s.found source = s.reported source := by
  rw [balanced.found source, closed, if_neg (by simp), List.append_nil]

theorem Balanced.found_reading (balanced : Balanced s)
    (reading : s.reading = some source) :
    s.found source = s.reported source ++ s.waiting := by
  rw [balanced.found source, if_pos reading]

theorem Balanced.found_other (balanced : Balanced s)
    (reading : s.reading = some source) (different : other ≠ source) :
    s.found other = s.reported other := by
  rw [balanced.found other, reading, if_neg, List.append_nil]
  intro same
  exact different (Option.some.inj same).symm

theorem Balanced.of_closed (closed : s.reading = none) (empty : s.waiting = [])
    (same : ∀ source, s.found source = s.reported source) : Balanced s where
  found := by
    intro source
    rw [closed, if_neg (by simp), List.append_nil]
    exact same source
  closed := fun _ => empty

theorem Move.balanced (move : Move true s next) (balanced : Balanced s) :
    Balanced next := by
  generalize hflag : true = flag at move
  cases move with
  | keep => exact balanced
  | enter source closed =>
    refine ⟨fun other => ?_, fun absurd => nomatch absurd⟩
    dsimp only
    rw [balanced.found_of_closed closed, balanced.closed closed, ite_self, List.append_nil]
  | clear closed => exact .of_closed closed rfl (balanced.found_of_closed closed)
  | take source items reading =>
    have hempty := List.isEmpty_iff.mp hflag.symm
    refine ⟨fun other => ?_, fun closed => ?_⟩
    · dsimp only
      by_cases same : other = source
      · rw [same, Function.update_self, if_pos reading,
          balanced.found_reading reading, hempty, List.append_nil]
      · rw [Function.update_of_ne same, reading, if_neg, List.append_nil]
        · exact balanced.found_other reading same
        · intro equal
          exact same (Option.some.inj equal).symm
    · cases reading.symm.trans closed
  | report source reading =>
    refine .of_closed rfl rfl fun other => ?_
    dsimp only
    by_cases same : other = source
    · rw [same, Function.update_self, balanced.found_reading reading]
    · rw [Function.update_of_ne same]
      exact balanced.found_other reading same
  | leave source reading =>
    have hempty := List.isEmpty_iff.mp hflag.symm
    refine .of_closed rfl hempty fun other => ?_
    rw [balanced.found other, hempty, ite_self, List.append_nil]
  | discard source reading =>
    have hempty := List.isEmpty_iff.mp hflag.symm
    refine .of_closed rfl rfl fun other => ?_
    dsimp only
    rw [balanced.found other, hempty, ite_self, List.append_nil]

section Weight

variable (weight : α → Nat)

def heaviness (items : List α) : Nat := (items.map weight).sum

@[simp] theorem heaviness_nil : heaviness weight ([] : List α) = 0 := rfl

@[simp] theorem heaviness_append (left right : List α) :
    heaviness weight (left ++ right) =
      heaviness weight left + heaviness weight right := by
  simp [heaviness]

theorem heaviness_pos (positive : ∀ item ∈ items, 0 < weight item)
    (filled : items ≠ []) : 0 < heaviness weight items := by
  cases items with
  | nil => exact absurd rfl filled
  | cons head tail =>
    have hhead := positive head (by simp)
    simp only [heaviness, List.map_cons, List.sum_cons]
    omega

def Short (s : Slot ι α) (source : ι) : Prop :=
  heaviness weight (s.reported source) < heaviness weight (s.found source)

variable (sources : Finset ι)

def Behind (s : Slot ι α) : Prop :=
  ∑ source ∈ sources, heaviness weight (s.reported source) + heaviness weight s.waiting <
    ∑ source ∈ sources, heaviness weight (s.found source)

variable {weight sources}

variable {source : ι} {s : Slot ι α}

theorem sum_update {f : ι → List α} (member : source ∈ sources)
    (items : List α) :
    ∑ other ∈ sources,
      heaviness weight (Function.update f source (f source ++ items) other) =
        ∑ other ∈ sources, heaviness weight (f other) +
          heaviness weight items := by
  rw [← Finset.add_sum_erase sources _ member, ← Finset.add_sum_erase sources (fun other =>
    heaviness weight (f other)) member, Function.update_self, heaviness_append]
  have hrest : ∑ other ∈ sources.erase source, heaviness weight
      (Function.update f source (f source ++ items) other) =
      ∑ other ∈ sources.erase source, heaviness weight (f other) := by
    apply Finset.sum_congr rfl
    intro other hother
    rw [Function.update_of_ne (Finset.ne_of_mem_erase hother)]
  omega

theorem Move.behind (move : Move flag s next)
    (member : ∀ source, s.reading = some source → source ∈ sources)
    (behind : Behind weight sources s) : Behind weight sources next := by
  unfold Behind at behind ⊢
  cases move with
  | keep => exact behind
  | enter source closed => exact behind
  | clear closed =>
    simp only [heaviness_nil]
    omega
  | take source items reading =>
    simp only [sum_update (member source reading)]
    omega
  | report source reading =>
    simp only [sum_update (member source reading), heaviness_nil]
    omega
  | leave source reading => exact behind
  | discard source reading =>
    simp only [heaviness_nil]
    omega

theorem Move.short (move : Move flag s next) (other : s.reading ≠ some source)
    (short : Short weight s source) : Short weight next source := by
  unfold Short at short ⊢
  cases move with
  | keep => exact short
  | enter opened closed => exact short
  | clear closed => exact short
  | take opened items reading =>
    have different : source ≠ opened := fun same => other (same ▸ reading)
    simp only [Function.update_of_ne different]
    exact short
  | report opened reading =>
    have different : source ≠ opened := fun same => other (same ▸ reading)
    simp only [Function.update_of_ne different]
    exact short
  | leave opened reading => exact short
  | discard opened reading => exact short

section

variable (balanced : Balanced s) (reading : s.reading = some source)

include balanced reading

theorem Balanced.total (member : source ∈ sources) :
    ∑ other ∈ sources, heaviness weight (s.found other) =
      ∑ other ∈ sources, heaviness weight (s.reported other) +
        heaviness weight s.waiting := by
  rw [← sum_update member]
  apply Finset.sum_congr rfl
  intro other _
  by_cases same : other = source
  · rw [same, Function.update_self, balanced.found_reading reading]
  · rw [Function.update_of_ne same, balanced.found_other reading same]

theorem Balanced.behind_take (member : source ∈ sources)
    (waits : 0 < heaviness weight s.waiting) (items : List α) :
    Behind weight sources { s with
        found := Function.update s.found source (s.found source ++ items)
        waiting := items } := by
  unfold Behind
  simp only [sum_update member]
  rw [balanced.total reading member]
  omega

theorem Balanced.behind_discard (member : source ∈ sources)
    (waits : 0 < heaviness weight s.waiting) :
    Behind weight sources { s with waiting := [], reading := none } := by
  unfold Behind
  dsimp only
  rw [balanced.total reading member, heaviness_nil]
  omega

theorem Balanced.short_leave (waits : 0 < heaviness weight s.waiting) :
    Short weight { s with reading := none } source := by
  unfold Short
  dsimp only
  rw [balanced.found_reading reading, heaviness_append]
  omega

end

omit [DecidableEq ι] in
theorem not_behind (enough : ∀ source ∈ sources, ¬ Short weight s source) :
    ¬ Behind weight sources s := by
  intro behind
  have hsum : ∑ source ∈ sources, heaviness weight (s.found source) ≤
      ∑ source ∈ sources, heaviness weight (s.reported source) :=
    Finset.sum_le_sum fun source member => Nat.le_of_not_lt (enough source member)
  unfold Behind at behind
  omega

end Weight

end Slot

end PerfProf.Data
