import PerfProf.Data.Segment
import PerfProf.Sql.Value

namespace PerfProf.Sql

open PerfProf.Data

/-! `query_op_boundary`: the next segment of index keys from the constraints on
the index column. -/

/-- Operator codes; the `TEXT` bit is the kind of the value. -/
inductive Op where
  | eq
  | gt
  | le
  | lt
  | ge
  | ne
  | glob
  deriving DecidableEq, Repr

def opHolds (left : Value) (op : Op) (right : Value) : Bool :=
  match op with
  | .eq => left = right
  | .gt => right < left
  | .le => left ≤ right
  | .lt => left < right
  | .ge => right ≤ left
  | .ne => left ≠ right
  | .glob => false

/-- `struct one_op` with its runtime value. -/
structure OneOp where
  field : Nat
  op : Op
  value : Value
  deriving DecidableEq, Repr

structure Boundary where
  value : Value
  op : Op
  valid : Bool
  deriving DecidableEq, Repr

def tighten (cmp op : Op) (value : Value) (old : Boundary) : Boundary :=
  if !old.valid || opHolds value cmp old.value then ⟨value, op, true⟩ else old

def establishLeft (left : Boundary) (one : OneOp) : Boundary :=
  match one.op with
  | .eq | .ge => tighten .gt .ge one.value left
  | .gt => tighten .ge .gt one.value left
  | _ => left

def establishRight (right : Boundary) (one : OneOp) : Boundary :=
  match one.op with
  | .eq | .le => tighten .lt .le one.value right
  | .lt => tighten .le .lt one.value right
  | _ => right

/-- The `conflict_detect` label: the range is empty. -/
def conflict (left right : Boundary) : Bool :=
  left.valid && right.valid && (right.value < left.value ||
      (left.value = right.value && (left.op != .ge || right.op != .le)))

/-- Pass 2 along one direction: `outside` says that a value is in front of the
near boundary, `within` that it is not behind the far one. -/
def cutSegment (outside within nearOp farOp : Op) :
    List OneOp → Boundary → Boundary → Boundary × Boundary
  | [], near, far => (near, far)
  | one :: rest, near, far =>
    if one.op ≠ .ne then cutSegment outside within nearOp farOp rest near far
    else if near.valid && opHolds one.value outside near.value then
      cutSegment outside within nearOp farOp rest near far
    else if near.valid && one.value = near.value then
      cutSegment outside within nearOp farOp rest { near with op := nearOp } far
    else (near, tighten within farOp one.value far)

def cutAscending (table : List OneOp) (left right : Boundary) :
    Boundary × Boundary :=
  cutSegment .lt .le .gt .lt table left right

def cutDescending (table : List OneOp) (left right : Boundary) :
    Boundary × Boundary :=
  (cutSegment .gt .ge .lt .gt table.reverse right left).swap

def cutToward (table : List OneOp) (desc : Bool) (left right : Boundary) :
    Boundary × Boundary :=
  if desc then cutDescending table left right else cutAscending table left right

def queryOpBoundary (table : List OneOp) (desc : Bool) (left right : Boundary) :
    Option (Boundary × Boundary) :=
  let left := table.foldl establishLeft left
  let right := table.foldl establishRight right
  if conflict left right then none
  else if table.all (·.op ≠ .ne) then some (left, right)
  else
    let (left, right) := cutToward table desc left right
    if conflict left right then none else some (left, right)

def dir (desc : Bool) (first second : Value) : Prop :=
  if desc then second < first else first < second

instance (desc : Bool) : DecidableRel (dir desc) := fun first second =>
  inferInstanceAs (Decidable (if desc then second < first else first < second))

instance (desc : Bool) : IsStrictTotalOrder Value (dir desc) := by
  cases desc with
  | false =>
    change IsStrictTotalOrder Value (fun first second => first < second)
    infer_instance
  | true =>
    change IsStrictTotalOrder Value (fun first second => second < first)
    infer_instance

@[simp] theorem dir_false (first second : Value) :
    dir false first second ↔ first < second := Iff.rfl

@[simp] theorem dir_true (first second : Value) :
    dir true first second ↔ second < first := Iff.rfl

theorem dir_not (desc : Bool) (first second : Value) :
    dir (!desc) first second ↔ dir desc second first := by
  cases desc <;> exact Iff.rfl

theorem until_dir (desc : Bool) (cut : Option (Cut Value)) (key : Value) :
    Until (dir desc) cut key ↔ After (dir (!desc)) cut key := by
  simp only [Until, After, dir_not]

def Op.strict (op : Op) : Bool := op = .gt || op = .lt

def Boundary.cut (boundary : Boundary) : Option (Cut Value) :=
  if boundary.valid then some ⟨boundary.value, boundary.op.strict⟩ else none

theorem Boundary.cut_valid (boundary : Boundary) (valid : boundary.valid) :
    boundary.cut = some ⟨boundary.value, boundary.op.strict⟩ := by
  simp [cut, valid]

theorem Boundary.cut_invalid (boundary : Boundary)
    (invalid : boundary.valid = false) : boundary.cut = none := by
  simp [cut, invalid]

section Tighten

variable {r : Value → Value → Prop} [IsStrictTotalOrder Value r] {cmp op : Op}

def Compares (r : Value → Value → Prop) (cmp op : Op) : Prop :=
  ∀ value old, opHolds value cmp old ↔
    if op.strict then ¬ r value old else r old value

section

variable (value : Value) (old : Boundary) (compares : Compares r cmp op)

include value old compares

theorem tighten_cases :
    ((tighten cmp op value old).cut = some ⟨value, op.strict⟩ ∧
      Tighter r old.cut (some ⟨value, op.strict⟩)) ∨
    (tighten cmp op value old = old ∧
      Tighter r (some ⟨value, op.strict⟩) old.cut) := by
  cases hvalid : old.valid with
  | false =>
    refine .inl ⟨by simp [tighten, hvalid, Boundary.cut], ?_⟩
    simp [old.cut_invalid hvalid, Tighter]
  | true =>
    have hcompare := compares value old.value
    have hcut := old.cut_valid hvalid
    cases hholds : opHolds value cmp old.value with
    | true =>
      refine .inl ⟨by simp [tighten, hholds, Boundary.cut], ?_⟩
      rw [hholds] at hcompare
      rw [hcut]
      rintro start ⟨rfl⟩
      refine ⟨_, rfl, ?_⟩
      cases hstrict : op.strict with
      | true =>
        simp only [hstrict, if_true, true_iff] at hcompare
        rcases trichotomous_of r value old.value with less | same | greater
        · exact absurd less hcompare
        · exact .inr ⟨same.symm, fun _ => rfl⟩
        · exact .inl greater
      | false =>
        simp only [hstrict, true_iff] at hcompare
        exact .inl (by simpa using hcompare)
    | false =>
      refine .inr ⟨by simp [tighten, hvalid, hholds], ?_⟩
      rw [hholds] at hcompare
      rw [hcut]
      rintro start ⟨rfl⟩
      refine ⟨_, rfl, ?_⟩
      cases hstrict : op.strict with
      | true =>
        simp only [hstrict, if_true] at hcompare
        exact .inl (by simpa using hcompare)
      | false =>
        have hback : ¬ r old.value value := by simpa [hstrict] using hcompare
        rcases trichotomous_of r value old.value with less | same | greater
        · exact .inl less
        · exact .inr ⟨same, by simp⟩
        · exact absurd greater hback

theorem tighten_after (key : Value) :
    After r (tighten cmp op value old).cut key ↔
      After r old.cut key ∧ After r (some ⟨value, op.strict⟩) key := by
  rcases tighten_cases value old compares with
    ⟨hcut, htighter⟩ | ⟨hsame, htighter⟩
  · rw [hcut]
    exact ⟨fun inside => ⟨htighter.after inside, inside⟩, fun inside => inside.2⟩
  · rw [hsame]
    exact ⟨fun inside => ⟨inside, htighter.after inside⟩, fun inside => inside.1⟩

theorem tighten_tighter : Tighter r old.cut (tighten cmp op value old).cut := by
  rcases tighten_cases value old compares with
    ⟨hcut, htighter⟩ | ⟨hsame, _⟩
  · rw [hcut]
    exact htighter
  · rw [hsame]
    exact Tighter.refl r old.cut

end

omit [IsStrictTotalOrder Value r] in
theorem tighten_eq (cmp op : Op) (value : Value) (old : Boundary) :
    tighten cmp op value old = old ∨
    tighten cmp op value old = ⟨value, op, true⟩ := by
  unfold tighten
  split
  · exact .inr rfl
  · exact .inl rfl

end Tighten

theorem compares_ge : Compares (dir false) .gt .ge := by
  intro value old
  simp [opHolds, Op.strict]

theorem compares_gt : Compares (dir false) .ge .gt := by
  intro value old
  simp [opHolds, Op.strict]

theorem compares_le : Compares (dir true) .lt .le := by
  intro value old
  simp [opHolds, Op.strict]

theorem compares_lt : Compares (dir true) .le .lt := by
  intro value old
  simp [opHolds, Op.strict]

def lowerCut (one : OneOp) : Option (Cut Value) :=
  match one.op with
  | .eq | .ge => some ⟨one.value, false⟩
  | .gt => some ⟨one.value, true⟩
  | _ => none

def upperCut (one : OneOp) : Option (Cut Value) :=
  match one.op with
  | .eq | .le => some ⟨one.value, false⟩
  | .lt => some ⟨one.value, true⟩
  | _ => none

theorem opHolds_iff (ordered : one.op ≠ .glob) (key : Value) :
    opHolds key one.op one.value ↔
      After (dir false) (lowerCut one) key ∧
      After (dir true) (upperCut one) key ∧
      (one.op = .ne → key ≠ one.value) := by
  cases hop : one.op with
  | eq =>
    simp only [opHolds, lowerCut, upperCut, hop, after_some, dir_false, dir_true]
    constructor
    · intro same
      simp at same
      simp [same]
    · rintro ⟨lower, upper, _⟩
      simp at lower upper ⊢
      rcases lower with lower | lower
      · rcases upper with upper | upper
        · exact absurd upper (asymm lower)
        · exact upper.symm
      · exact lower.symm
  | gt => simp [opHolds, lowerCut, upperCut, hop, after_some]
  | le =>
    have hle : key ≤ one.value ↔ key < one.value ∨ one.value = key := by
      rw [le_iff_lt_or_eq, @eq_comm _ key]
    simp [opHolds, lowerCut, upperCut, hop, after_some, hle]
  | lt => simp [opHolds, lowerCut, upperCut, hop, after_some]
  | ge => simp [opHolds, lowerCut, upperCut, hop, after_some, le_iff_lt_or_eq]
  | ne => simp [opHolds, lowerCut, upperCut, hop]
  | glob => exact absurd hop ordered

structure SideStep (r : Value → Value → Prop)
    (step : Boundary → OneOp → Boundary) (ask : OneOp → Option (Cut Value)) :
    Prop where
  after : ∀ old one key, After r (step old one).cut key ↔
    After r old.cut key ∧ After r (ask one) key
  tighter : ∀ old one, Tighter r old.cut (step old one).cut
  value : ∀ old one, step old one = old ∨ (step old one).value = one.value

theorem SideStep.of_tighten {r : Value → Value → Prop}
    [IsStrictTotalOrder Value r] {step : Boundary → OneOp → Boundary}
    {ask : OneOp → Option (Cut Value)}
    (steps : ∀ old one, step old one = old ∧ ask one = none ∨
      ∃ cmp op, Compares r cmp op ∧
        step old one = tighten cmp op one.value old ∧
        ask one = some ⟨one.value, op.strict⟩) : SideStep r step ask where
  after := by
    intro old one key
    rcases steps old one with ⟨same, none⟩ | ⟨cmp, op, compares, new, some⟩
    · simp [same, none]
    · rw [new, some]
      exact tighten_after one.value old compares key
  tighter := by
    intro old one
    rcases steps old one with ⟨same, _⟩ | ⟨cmp, op, compares, new, _⟩
    · rw [same]
      exact Tighter.refl _ _
    · exact new ▸ tighten_tighter one.value old compares
  value := by
    intro old one
    rcases steps old one with ⟨same, _⟩ | ⟨cmp, op, _, new, _⟩
    · exact .inl same
    · rw [new]
      exact (tighten_eq cmp op one.value old).imp_right fun new => by rw [new]

theorem establishLeft_side : SideStep (dir false) establishLeft lowerCut := by
  refine .of_tighten fun old one => ?_
  cases hop : one.op <;> simp only [establishLeft, lowerCut, hop]
  case eq => exact .inr ⟨_, _, compares_ge, rfl, rfl⟩
  case ge => exact .inr ⟨_, _, compares_ge, rfl, rfl⟩
  case gt => exact .inr ⟨_, _, compares_gt, rfl, rfl⟩
  all_goals simp

theorem establishRight_side : SideStep (dir true) establishRight upperCut := by
  refine .of_tighten fun old one => ?_
  cases hop : one.op <;> simp only [establishRight, upperCut, hop]
  case eq => exact .inr ⟨_, _, compares_le, rfl, rfl⟩
  case le => exact .inr ⟨_, _, compares_le, rfl, rfl⟩
  case lt => exact .inr ⟨_, _, compares_lt, rfl, rfl⟩
  all_goals simp

namespace SideStep

variable {r : Value → Value → Prop} [IsStrictTotalOrder Value r]
  {step : Boundary → OneOp → Boundary} {ask : OneOp → Option (Cut Value)}

section

variable (side : SideStep r step ask) (table : List OneOp) (old : Boundary)

include side table old

omit [IsStrictTotalOrder Value r] in
theorem foldl_after (key : Value) : After r (table.foldl step old).cut key ↔
      After r old.cut key ∧ ∀ one ∈ table, After r (ask one) key := by
  induction table generalizing old with
  | nil => simp
  | cons head tail ih =>
    rw [List.foldl_cons, ih, side.after]
    simp [and_assoc]

theorem foldl_tighter : Tighter r old.cut (table.foldl step old).cut := by
  induction table generalizing old with
  | nil => exact Tighter.refl r old.cut
  | cons head tail ih => exact (side.tighter old head).trans (ih (step old head))

omit [IsStrictTotalOrder Value r] in
theorem foldl_value : table.foldl step old = old ∨
      (table.foldl step old).value ∈ table.map OneOp.value := by
  induction table generalizing old with
  | nil => exact .inl rfl
  | cons head tail ih =>
    rw [List.foldl_cons]
    rcases ih (step old head) with same | member
    · rw [same]
      rcases side.value old head with equal | equal
      · exact .inl equal
      · exact .inr (by simp [equal])
    · exact .inr (by simpa using .inr (by simpa using member))

end

end SideStep

structure CutOps (r : Value → Value → Prop) (outside within nearOp farOp : Op) :
    Prop where
  outside : ∀ value old, opHolds value outside old ↔ r value old
  within : ∀ value old, opHolds value within old ↔ ¬ r old value
  near : nearOp.strict = true
  far : farOp.strict = true

theorem ascending_ops : CutOps (dir false) .lt .le .gt .lt where
  outside := by simp [opHolds]
  within := by simp [opHolds]
  near := rfl
  far := rfl

theorem descending_ops : CutOps (dir true) .gt .ge .lt .gt where
  outside := by simp [opHolds]
  within := by simp [opHolds]
  near := rfl
  far := rfl

structure CutSpec (r : Value → Value → Prop) (table : List OneOp)
    (near far near' far' : Boundary) : Prop where
  valid : near'.valid = near.valid
  value : near'.value = near.value
  tighter : Tighter r near.cut near'.cut
  complete : ∀ key, After r near.cut key →
    (∀ one ∈ table, one.op = .ne → key ≠ one.value) → After r near'.cut key
  sound : ∀ key, After r near'.cut key → Until r far'.cut key →
    Until r far.cut key ∧ ∀ one ∈ table, one.op = .ne → key ≠ one.value
  ends : far' = far ∨ far'.value ∈ table.map OneOp.value ∧ (near'.valid → r near'.value far'.value)

theorem CutSpec.skip {r : Value → Value → Prop} [IsStrictTotalOrder Value r]
    (spec : CutSpec r tail opened far near' far')
    (hvalid : opened.valid = near.valid) (hvalue : opened.value = near.value)
    (htighter : Tighter r near.cut opened.cut)
    (hcomplete : ∀ key, After r near.cut key →
      (head.op = .ne → key ≠ head.value) →
      After r opened.cut key)
    (hfree : ∀ key, After r opened.cut key → head.op = .ne → key ≠ head.value) :
    CutSpec r (head :: tail) near far near' far' where
  valid := spec.valid.trans hvalid
  value := spec.value.trans hvalue
  tighter := htighter.trans spec.tighter
  complete := by
    intro key inside free
    apply spec.complete key (hcomplete key inside (free head (.head tail)))
    intro one member
    exact free one (.tail head member)
  sound := by
    intro key hafter huntil
    obtain ⟨hfar, htail⟩ := spec.sound key hafter huntil
    refine ⟨hfar, ?_⟩
    intro one member hne
    rcases List.mem_cons.mp member with rfl | member
    · exact hfree key (spec.tighter.after hafter) hne
    · exact htail one member hne
  ends := by
    rcases spec.ends with same | ⟨member, hless⟩
    · exact .inl same
    · exact .inr ⟨.tail _ member, hless⟩

section Cut

variable {desc : Bool} {outside within nearOp farOp : Op}

section

variable (ops : CutOps (dir desc) outside within nearOp farOp)

include ops

theorem CutOps.compares : Compares (dir (!desc)) within farOp := by
  intro value old
  rw [ops.within, ops.far, if_pos rfl, dir_not]

theorem cutSegment_stop (sorted : ∀ one ∈ tail, ¬ dir desc one.value head.value)
    (hinside : ¬ (near.valid && opHolds head.value outside near.value) = true)
    (hdifferent : ¬ (near.valid && head.value = near.value) = true) :
    CutSpec (dir desc) (head :: tail) near far near
      (tighten within farOp head.value far) where
  valid := rfl
  value := rfl
  tighter := Tighter.refl _ _
  complete := fun _ inside _ => inside
  sound := by
    intro key _ huntil
    rw [until_dir, tighten_after head.value far ops.compares, ← until_dir,
      ← until_dir, until_some, ops.far] at huntil
    have hbefore : dir desc key head.value := by simpa using huntil.2
    refine ⟨huntil.1, ?_⟩
    rintro one member _ rfl
    rcases List.mem_cons.mp member with rfl | member
    · exact irrefl_of (dir desc) _ hbefore
    · exact sorted one member hbefore
  ends := by
    rcases tighten_eq within farOp head.value far with same | new
    · exact .inl same
    · refine .inr ⟨by simp [new], ?_⟩
      intro valid
      rw [new]
      rw [valid, Bool.true_and, ops.outside] at hinside
      simp only [valid, Bool.true_and, decide_eq_true_iff] at hdifferent
      rcases trichotomous_of (dir desc) near.value head.value with
        less | same | greater
      · exact less
      · exact absurd same.symm hdifferent
      · exact absurd greater hinside

theorem cutSegment_spec
    (sorted : table.Pairwise fun first second =>
      ¬ dir desc second.value first.value)
    (near far : Boundary) :
    CutSpec (dir desc) table near far
      (cutSegment outside within nearOp farOp table near far).1
      (cutSegment outside within nearOp farOp table near far).2 := by
  induction table generalizing near with
  | nil =>
    exact ⟨rfl, rfl, Tighter.refl _ _, fun _ inside _ => inside,
      fun _ _ inside => ⟨inside, by simp⟩, .inl rfl⟩
  | cons head tail ih =>
    rw [List.pairwise_cons] at sorted
    have hrest := ih sorted.2
    rw [cutSegment]
    split
    · rename_i hop
      exact (hrest near).skip rfl rfl (Tighter.refl _ _)
        (fun _ inside _ => inside) (fun _ _ hne => absurd hne hop)
    · rename_i hop
      have hne : head.op = .ne := by simpa using hop
      split
      · rename_i houtside
        rw [Bool.and_eq_true, ops.outside] at houtside
        refine (hrest near).skip rfl rfl (Tighter.refl _ _) (fun _ inside _ => inside) ?_
        rintro key inside _ rfl
        rw [near.cut_valid houtside.1, after_some] at inside
        rcases inside with inside | ⟨_, same⟩
        · exact asymm_of (dir desc) houtside.2 inside
        · exact irrefl_of (dir desc) near.value (by simpa [← same] using houtside.2)
      · rename_i hinside
        split
        · rename_i hequal
          rw [Bool.and_eq_true, decide_eq_true_iff] at hequal
          have hcut := near.cut_valid hequal.1
          have hopened : ({ near with op := nearOp } : Boundary).cut = some ⟨near.value, true⟩ := by
            simp [Boundary.cut, hequal.1, ops.near]
          refine (hrest { near with op := nearOp }).skip rfl rfl ?_ ?_ ?_
          · rw [hcut, hopened]
            rintro start ⟨rfl⟩
            exact ⟨_, rfl, .inr ⟨rfl, fun _ => rfl⟩⟩
          · intro key inside free
            rw [hcut, after_some] at inside
            rw [hopened, after_some]
            rcases inside with inside | ⟨_, same⟩
            · exact .inl inside
            · exact absurd (same.symm.trans hequal.2.symm) (free hne)
          · intro key inside _ same
            rw [hopened, after_some] at inside
            rcases inside with inside | ⟨absurd, _⟩
            · exact irrefl_of (dir desc) near.value (by simpa [same, hequal.2] using inside)
            · cases absurd
        · rename_i hdifferent
          exact cutSegment_stop ops sorted.1 hinside hdifferent

end

end Cut

def Boundary.Lower (boundary : Boundary) : Prop :=
  boundary.valid → boundary.op = .ge ∨ boundary.op = .gt

def Boundary.Upper (boundary : Boundary) : Prop :=
  boundary.valid → boundary.op = .le ∨ boundary.op = .lt

theorem tighten_op {motive : Boundary → Prop} {cmp op : Op} {value : Value}
    {old : Boundary} (hold : motive old) (hnew : motive ⟨value, op, true⟩) :
    motive (tighten cmp op value old) := by
  rcases tighten_eq cmp op value old with same | new
  · rw [same]
    exact hold
  · rw [new]
    exact hnew

theorem establishLeft_lower (table : List OneOp) (lower : left.Lower) :
    (table.foldl establishLeft left).Lower := by
  refine List.foldlRecOn table establishLeft lower fun left lower one _ => ?_
  cases hop : one.op <;> simp only [establishLeft, hop]
  case eq => exact tighten_op lower (fun _ => .inl rfl)
  case ge => exact tighten_op lower (fun _ => .inl rfl)
  case gt => exact tighten_op lower (fun _ => .inr rfl)
  all_goals exact lower

theorem establishRight_upper (table : List OneOp) (upper : right.Upper) :
    (table.foldl establishRight right).Upper := by
  refine List.foldlRecOn table establishRight upper fun right upper one _ => ?_
  cases hop : one.op <;> simp only [establishRight, hop]
  case eq => exact tighten_op upper (fun _ => .inl rfl)
  case le => exact tighten_op upper (fun _ => .inl rfl)
  case lt => exact tighten_op upper (fun _ => .inr rfl)
  all_goals exact upper

theorem cutSegment_op {nearMotive farMotive : Boundary → Prop}
    (table : List OneOp) (hnear : nearMotive near) (hfar : farMotive far)
    (hopen : ∀ boundary : Boundary, nearMotive { boundary with op := nearOp })
    (hend : ∀ value, farMotive ⟨value, farOp, true⟩) :
    nearMotive (cutSegment outside within nearOp farOp table near far).1 ∧
      farMotive (cutSegment outside within nearOp farOp table near far).2 := by
  induction table generalizing near with
  | nil => exact ⟨hnear, hfar⟩
  | cons head tail ih =>
    rw [cutSegment]
    split
    · exact ih hnear
    · split
      · exact ih hnear
      · split
        · exact ih (hopen near)
        · exact ⟨hnear, tighten_op hfar (hend head.value)⟩

theorem cut_mem {boundary : Boundary} {point : Cut Value}
    (member : point ∈ boundary.cut) :
    boundary.valid ∧ point = ⟨boundary.value, boundary.op.strict⟩ := by
  cases hvalid : boundary.valid with
  | false =>
    rw [boundary.cut_invalid hvalid] at member
    cases member
  | true =>
    rw [boundary.cut_valid hvalid] at member
    cases member
    exact ⟨rfl, rfl⟩

theorem ordered_of_not_conflict {left right : Boundary}
    (clear : conflict left right = false) :
    ∀ first ∈ left.cut, ∀ last ∈ right.cut, first.value < last.value ∨
      first.value = last.value ∧
        first.strict = false ∧
        last.strict = false := by
  intro first hfirst last hlast
  obtain ⟨hleft, rfl⟩ := cut_mem hfirst
  obtain ⟨hright, rfl⟩ := cut_mem hlast
  simp only [conflict, hleft, hright, Bool.true_and, Bool.or_eq_false_iff,
    decide_eq_false_iff_not, not_lt, Bool.and_eq_false_iff] at clear
  rcases lt_or_eq_of_le clear.1 with less | same
  · exact .inl less
  · refine .inr ⟨same, ?_⟩
    have hclosed := clear.2.resolve_left (fun different => different same)
    simp only [bne_eq_false_iff_eq] at hclosed
    simp [hclosed.1, hclosed.2, Op.strict]

theorem empty_of_conflict (lower : left.Lower) (upper : right.Upper)
    (clash : conflict left right = true) (key : Value)
    (above : After (dir false) left.cut key)
    (below : After (dir true) right.cut key) : False := by
  simp only [conflict, Bool.and_eq_true, Bool.or_eq_true, decide_eq_true_iff, bne_iff_ne] at clash
  obtain ⟨⟨hleft, hright⟩, hclash⟩ := clash
  rw [left.cut_valid hleft, after_some, dir_false] at above
  rw [right.cut_valid hright, after_some, dir_true] at below
  have hfrom : left.value ≤ key := above.elim le_of_lt (fun closed => le_of_eq closed.2)
  have hto : key ≤ right.value := below.elim le_of_lt (fun closed => le_of_eq closed.2.symm)
  rcases hclash with less | ⟨same, hopen⟩
  · exact absurd (lt_of_lt_of_le less (hfrom.trans hto)) (lt_irrefl _)
  · have hleftKey : left.value = key := le_antisymm hfrom (same ▸ hto)
    have hclosedLeft := (above.resolve_left (by simp [hleftKey])).1
    have hclosedRight := (below.resolve_left (by simp [← same, hleftKey])).1
    rcases hopen with open_ | open_
    · rcases lower hleft with closed | strict
      · exact open_ closed
      · simp [strict, Op.strict] at hclosedLeft
    · rcases upper hright with closed | strict
      · exact open_ closed
      · simp [strict, Op.strict] at hclosedRight

def nearOf (desc : Bool) (left right : Boundary) : Boundary :=
  if desc then right else left

def farOf (desc : Bool) (left right : Boundary) : Boundary :=
  if desc then left else right

def IndexHolds (table : List OneOp) (key : Value) : Prop :=
  ∀ one ∈ table, opHolds key one.op one.value

theorem inside_iff (desc : Bool) (left right : Boundary) (key : Value) :
    After (dir desc) (nearOf desc left right).cut key ∧
    Until (dir desc) (farOf desc left right).cut key ↔
      After (dir false) left.cut key ∧ After (dir true) right.cut key := by
  rw [until_dir]
  cases desc with
  | false => exact Iff.rfl
  | true => exact and_comm

theorem ordered_dir (clear : conflict left right = false) :
    ∀ first ∈ (nearOf desc left right).cut,
      ∀ last ∈ (farOf desc left right).cut, dir desc first.value last.value ∨
        first.value = last.value ∧
          first.strict = false ∧
          last.strict = false := by
  have hordered := ordered_of_not_conflict clear
  cases desc with
  | false => exact hordered
  | true =>
    intro first hfirst last hlast
    rcases hordered last hlast first hfirst with less | ⟨same, hlast, hfirst⟩
    · exact .inl less
    · exact .inr ⟨same.symm, hfirst, hlast⟩

structure Query (table : List OneOp) (desc : Bool) (left right : Boundary) :
    Prop where
  compared : ∀ one ∈ table, one.op ≠ .glob
  sorted : table.Pairwise (·.value ≤ ·.value)
  lower : left.Lower
  upper : right.Upper
  fresh : (farOf desc left right).valid = false

namespace Query

section

variable (query : Query table desc left right)

include query

theorem holds_iff (key : Value) :
    IndexHolds table key ↔
      (∀ one ∈ table, After (dir false) (lowerCut one) key) ∧
      (∀ one ∈ table, After (dir true) (upperCut one) key) ∧
      ∀ one ∈ table, one.op = .ne → key ≠ one.value := by
  constructor
  · intro holds
    refine ⟨?_, ?_, ?_⟩
    · exact fun one member =>
        ((opHolds_iff (query.compared one member) key).mp (holds one member)).1
    · exact fun one member =>
        ((opHolds_iff (query.compared one member) key).mp (holds one member)).2.1
    · exact fun one member =>
        ((opHolds_iff (query.compared one member) key).mp (holds one member)).2.2
  · rintro ⟨hlower, hupper, hne⟩ one member
    exact (opHolds_iff (query.compared one member) key).mpr
      ⟨hlower one member, hupper one member, hne one member⟩

theorem established (key : Value) :
    After (dir false) (table.foldl establishLeft left).cut key ∧
    After (dir true) (table.foldl establishRight right).cut key ↔
      After (dir desc) (nearOf desc left right).cut key ∧
      (∀ one ∈ table, After (dir false) (lowerCut one) key) ∧
      ∀ one ∈ table, After (dir true) (upperCut one) key := by
  have hfar := Boundary.cut_invalid _ query.fresh
  rw [establishLeft_side.foldl_after, establishRight_side.foldl_after]
  cases desc with
  | false =>
    change right.cut = none at hfar
    simp only [hfar, after_none, true_and, nearOf]
    exact and_assoc
  | true =>
    change left.cut = none at hfar
    simp only [hfar, after_none, true_and, nearOf]
    exact and_left_comm

theorem tighter :
    Tighter (dir desc) (nearOf desc left right).cut (nearOf desc
      (table.foldl establishLeft left)
      (table.foldl establishRight right)).cut := by
  cases desc with
  | false => exact establishLeft_side.foldl_tighter table left
  | true => exact establishRight_side.foldl_tighter table right

end

end Query

theorem CutSpec.of_reverse {r : Value → Value → Prop}
    (spec : CutSpec r table.reverse near far near' far') :
    CutSpec r table near far near' far' where
  valid := spec.valid
  value := spec.value
  tighter := spec.tighter
  complete := by simpa using spec.complete
  sound := by simpa using spec.sound
  ends := by simpa using spec.ends

theorem CutSpec.of_all {r : Value → Value → Prop}
    (free : table.all (·.op ≠ .ne) = true) (near far : Boundary) :
    CutSpec r table near far near far where
  valid := rfl
  value := rfl
  tighter := Tighter.refl _ _
  complete := fun _ inside _ => inside
  sound := by
    intro key _ inside
    refine ⟨inside, ?_⟩
    intro one member hne
    simpa [hne] using List.all_eq_true.mp free one member
  ends := .inl rfl

theorem cutToward_spec (sorted : table.Pairwise (·.value ≤ ·.value))
    (desc : Bool) (left right : Boundary) :
    CutSpec (dir desc) table (nearOf desc left right) (farOf desc left right)
      (nearOf desc (cutToward table desc left right).1
        (cutToward table desc left right).2) (farOf desc
        (cutToward table desc left right).1
        (cutToward table desc left right).2) := by
  cases desc with
  | false => exact cutSegment_spec ascending_ops (by simpa using sorted) left right
  | true =>
    exact (cutSegment_spec descending_ops
      (by simpa [List.pairwise_reverse] using sorted) right left).of_reverse

theorem cutToward_op (table : List OneOp) (desc : Bool) (lower : left.Lower)
    (upper : right.Upper) :
    (cutToward table desc left right).1.Lower ∧
    (cutToward table desc left right).2.Upper := by
  cases desc with
  | false => exact cutSegment_op table lower upper (fun _ _ => .inr rfl) (fun _ _ => .inr rfl)
  | true =>
    exact (cutSegment_op table.reverse upper lower (fun _ _ => .inr rfl) (fun _ _ => .inr rfl)).symm

def boundaries (table : List OneOp) (desc : Bool) (left right : Boundary) :
    Boundary × Boundary :=
  let left := table.foldl establishLeft left
  let right := table.foldl establishRight right
  if table.all (·.op ≠ .ne) then (left, right)
  else cutToward table desc left right

theorem queryOpBoundary_eq (table : List OneOp) (desc : Bool)
    (left right : Boundary) :
    queryOpBoundary table desc left right =
      if conflict (table.foldl establishLeft left)
            (table.foldl establishRight right) then
        none
      else if conflict (boundaries table desc left right).1
            (boundaries table desc left right).2 then
        none
      else some (boundaries table desc left right) := by
  unfold queryOpBoundary boundaries
  by_cases clash : conflict (table.foldl establishLeft left)
      (table.foldl establishRight right) = true
  · simp only [clash, if_true]
  · by_cases free : table.all (·.op ≠ .ne) = true
    · simp only [clash, free, if_true, Bool.false_eq_true, if_false]
    · simp only [clash, free, Bool.false_eq_true, if_false]

namespace Query

variable {table : List OneOp} {desc : Bool} {left right : Boundary}

section

variable (query : Query table desc left right)

include query

theorem cut_spec :
    CutSpec (dir desc) table (nearOf desc (table.foldl establishLeft left)
        (table.foldl establishRight right)) (farOf desc
        (table.foldl establishLeft left) (table.foldl establishRight right))
      (nearOf desc (boundaries table desc left right).1
        (boundaries table desc left right).2) (farOf desc
        (boundaries table desc left right).1
        (boundaries table desc left right).2) := by
  unfold boundaries
  by_cases free : table.all (·.op ≠ .ne) = true
  · simp only [free, if_true]
    exact CutSpec.of_all free _ _
  · simp only [free]
    exact cutToward_spec query.sorted desc _ _

theorem boundaries_op : (boundaries table desc left right).1.Lower ∧
      (boundaries table desc left right).2.Upper := by
  have lower := establishLeft_lower table query.lower
  have upper := establishRight_upper table query.upper
  unfold boundaries
  by_cases free : table.all (·.op ≠ .ne) = true
  · simp only [free, if_true]
    exact ⟨lower, upper⟩
  · simp only [free]
    exact cutToward_op table desc lower upper

theorem segment
    (clear : conflict (boundaries table desc left right).1
      (boundaries table desc left right).2 = false) :
    NextSegment (dir desc) (IndexHolds table) (nearOf desc left right).cut
      (nearOf desc (boundaries table desc left right).1
        (boundaries table desc left right).2).cut (farOf desc
        (boundaries table desc left right).1
        (boundaries table desc left right).2).cut where
  sound := by
    intro key hafter huntil
    obtain ⟨hfar, hne⟩ := query.cut_spec.sound key hafter huntil
    have hnear := query.cut_spec.tighter.after hafter
    obtain ⟨_, hlower, hupper⟩ :=
      (query.established key).mp ((inside_iff desc _ _ key).mp ⟨hnear, hfar⟩)
    exact (query.holds_iff key).mpr ⟨hlower, hupper, hne⟩
  complete := by
    intro key inside holds
    obtain ⟨hlower, hupper, hne⟩ := (query.holds_iff key).mp holds
    have hboth := (query.established key).mpr ⟨inside, hlower, hupper⟩
    exact query.cut_spec.complete key ((inside_iff desc _ _ key).mpr hboth).1 hne
  tighter := query.tighter.trans query.cut_spec.tighter
  ordered := ordered_dir clear

theorem far_value
    (valid : (farOf desc (boundaries table desc left right).1
      (boundaries table desc left right).2).valid) :
    (farOf desc (boundaries table desc left right).1
      (boundaries table desc left right).2).value ∈
      table.map OneOp.value := by
  rcases query.cut_spec.ends with same | ⟨member, _⟩
  · rw [same] at valid ⊢
    have hfresh := query.fresh
    cases desc with
    | false =>
      rcases establishRight_side.foldl_value table right with same | member
      · change (table.foldl establishRight right).valid = true at valid
        rw [same] at valid
        cases valid.symm.trans hfresh
      · exact member
    | true =>
      rcases establishLeft_side.foldl_value table left with same | member
      · change (table.foldl establishLeft left).valid = true at valid
        rw [same] at valid
        cases valid.symm.trans hfresh
      · exact member
  · exact member

theorem empty_of_established (clash : conflict (table.foldl establishLeft left)
      (table.foldl establishRight right) = true) (key : Value)
    (inside : After (dir desc) (nearOf desc left right).cut key) :
    ¬ IndexHolds table key := by
  intro holds
  obtain ⟨hlower, hupper, _⟩ := (query.holds_iff key).mp holds
  have hboth := (query.established key).mpr ⟨inside, hlower, hupper⟩
  exact empty_of_conflict (establishLeft_lower table query.lower)
    (establishRight_upper table query.upper) clash key hboth.1 hboth.2

theorem empty_of_cut
    (clash : conflict (boundaries table desc left right).1
      (boundaries table desc left right).2 = true)
    (key : Value) (inside : After (dir desc) (nearOf desc left right).cut key) :
    ¬ IndexHolds table key := by
  intro holds
  obtain ⟨hlower, hupper, hne⟩ := (query.holds_iff key).mp holds
  have hboth := (inside_iff desc _ _ key).mpr ((query.established key).mpr ⟨inside, hlower, hupper⟩)
  have hnear := query.cut_spec.complete key hboth.1 hne
  rcases query.cut_spec.ends with same | ⟨_, hless⟩
  · have hfar := hboth.2
    rw [← same] at hfar
    have hinside := (inside_iff desc _ _ key).mp ⟨hnear, hfar⟩
    exact empty_of_conflict query.boundaries_op.1 query.boundaries_op.2 clash
      key hinside.1 hinside.2
  · simp only [conflict, Bool.and_eq_true, Bool.or_eq_true, decide_eq_true_iff] at clash
    obtain ⟨⟨hleft, hright⟩, hclash⟩ := clash
    have hle : (boundaries table desc left right).2.value ≤ (boundaries table desc left
        right).1.value := hclash.elim le_of_lt (fun same => le_of_eq same.1.symm)
    cases desc with
    | false => exact absurd (hless hleft) (not_lt_of_ge hle)
    | true => exact absurd (hless hright) (not_lt_of_ge hle)

end

theorem result_some
    (found : queryOpBoundary table desc left right = some result) :
    result = boundaries table desc left right ∧
    conflict result.1 result.2 = false := by
  rw [queryOpBoundary_eq] at found
  split at found
  · cases found
  · split at found
    · cases found
    · rename_i clear
      cases found
      exact ⟨rfl, by simpa using clear⟩

theorem result_none (query : Query table desc left right)
    (hnone : queryOpBoundary table desc left right = none) (key : Value)
    (inside : After (dir desc) (nearOf desc left right).cut key) :
    ¬ IndexHolds table key := by
  rw [queryOpBoundary_eq] at hnone
  split at hnone
  · rename_i clash
    exact query.empty_of_established clash key inside
  · split at hnone
    · rename_i clash
      exact query.empty_of_cut clash key inside
    · cases hnone

end Query

end PerfProf.Sql
