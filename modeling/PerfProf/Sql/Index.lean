import PerfProf.Sql.Cursor

namespace PerfProf.Sql

open PerfProf.Data

universe u

variable {ε : Type u}

structure Indexed (lib : Library ε) (priv : TpPrivate ε) : Prop where
  sorted : priv.indexTree.Pairwise (·.value < ·.value)
  filled : ∀ node ∈ priv.indexTree, node.eventList ≠ []
  keyed : ∀ node ∈ priv.indexTree, ∀ event ∈ node.eventList,
    lib.perfTpField event priv.indexField = node.value
  perm : priv.haveIndex = true → (priv.indexTree.flatMap IndexNode.eventList).Perm priv.eventList

variable {value : Value} {event : ε} {lib : Library ε} {priv : TpPrivate ε}

theorem mem_getIndexNode
    (member : node ∈ getIndexNode value (·.addTail event) tree) :
    node ∈ tree ∨
    ∃ old : IndexNode ε, (old = ⟨value, []⟩ ∨ old ∈ tree) ∧
      old.value = value ∧
      node = old.addTail event := by
  induction tree with
  | nil =>
    rw [getIndexNode, List.mem_singleton] at member
    exact .inr ⟨_, .inl rfl, rfl, member⟩
  | cons head tail ih =>
    rw [getIndexNode] at member
    split at member
    · rcases List.mem_cons.mp member with rfl | member
      · exact .inr ⟨_, .inl rfl, rfl, rfl⟩
      · exact .inl member
    · split at member
      · rcases List.mem_cons.mp member with rfl | member
        · exact .inl (.head tail)
        · rcases ih member with member | ⟨old, horigin, hvalue, rfl⟩
          · exact .inl (.tail head member)
          · exact .inr ⟨old, horigin.imp_right (.tail head), hvalue, rfl⟩
      · rename_i hle hge
        rcases List.mem_cons.mp member with rfl | member
        · refine .inr ⟨head, .inr (.head tail), ?_, rfl⟩
          exact le_antisymm (not_lt.mp hle) (not_lt.mp hge)
        · exact .inl (.tail head member)

theorem getIndexNode_sorted (sorted : tree.Pairwise (·.value < ·.value)) :
    (getIndexNode value (·.addTail event) tree).Pairwise
      (·.value < ·.value) := by
  induction tree with
  | nil => exact List.pairwise_singleton _ _
  | cons head tail ih =>
    have hall := List.pairwise_cons.mp sorted
    rw [getIndexNode]
    split
    · rename_i less
      refine List.pairwise_cons.mpr ⟨?_, sorted⟩
      intro node member
      rcases List.mem_cons.mp member with rfl | member
      · exact less
      · exact less.trans (hall.1 node member)
    · split_ifs with less
      · refine List.pairwise_cons.mpr ⟨?_, ih hall.2⟩
        intro node member
        rcases mem_getIndexNode member with member | ⟨old, _, hvalue, rfl⟩
        · exact hall.1 node member
        · exact less.trans_eq hvalue.symm
      · exact List.pairwise_cons.mpr hall

theorem getIndexNode_perm (value : Value) (event : ε)
    (tree : List (IndexNode ε)) :
    ((getIndexNode value (·.addTail event) tree).flatMap
        IndexNode.eventList).Perm
      (tree.flatMap IndexNode.eventList ++ [event]) := by
  induction tree with
  | nil => exact List.Perm.refl _
  | cons head tail ih =>
    rw [getIndexNode]
    split
    · exact (List.perm_append_comm : ([event] ++ _).Perm _)
    · split
      · rw [List.flatMap_cons, List.flatMap_cons, List.append_assoc]
        exact ih.append_left head.eventList
      · rw [List.flatMap_cons, List.flatMap_cons, List.append_assoc]
        change (head.eventList ++ [event] ++ _).Perm _
        rw [List.append_assoc]
        exact (List.perm_append_comm).append_left head.eventList

theorem Indexed.store_one (indexed : Indexed lib priv) (event : ε) :
    Indexed lib (sqlTpMemSample lib priv event) := by
  unfold sqlTpMemSample
  split_ifs with hindex
  · refine ⟨getIndexNode_sorted indexed.sorted, ?_, ?_, ?_⟩
    · intro node member
      rcases mem_getIndexNode member with member | ⟨old, _, _, rfl⟩
      · exact indexed.filled node member
      · simp [IndexNode.addTail]
    · intro node member other hother
      rcases mem_getIndexNode member with member | ⟨old, horigin, hvalue, rfl⟩
      · exact indexed.keyed node member other hother
      · rcases List.mem_append.mp hother with hother | hother
        · rcases horigin with rfl | member
          · cases hother
          · exact indexed.keyed old member other hother
        · rw [List.mem_singleton.mp hother]
          exact hvalue.symm
    · intro hindex
      exact (getIndexNode_perm _ event priv.indexTree).trans
        ((indexed.perm hindex).append_right [event])
  · exact ⟨indexed.sorted, indexed.filled, indexed.keyed, fun hhave => absurd hhave hindex⟩

theorem foldl_sqlTpMemSample (events : List ε) (indexed : Indexed lib priv) :
    Indexed lib (events.foldl (sqlTpMemSample lib) priv) ∧
    (events.foldl (sqlTpMemSample lib) priv).haveIndex = priv.haveIndex ∧
    (events.foldl (sqlTpMemSample lib) priv).indexField = priv.indexField ∧
    (events.foldl (sqlTpMemSample lib) priv).eventList =
      priv.eventList ++ events := by
  induction events generalizing priv with
  | nil => exact ⟨indexed, rfl, rfl, by simp⟩
  | cons head tail ih =>
    obtain ⟨hindexed, hhave, hfield, hlist⟩ := ih (indexed.store_one head)
    refine ⟨hindexed, hhave, hfield, ?_⟩
    rw [List.foldl_cons, hlist]
    simp [sqlTpMemSample]

theorem store_spec (lib : Library ε) (haveIndex : Bool) (indexField : Nat)
    (events : List ε) :
    Indexed lib (TpPrivate.store lib haveIndex indexField events) ∧
    (TpPrivate.store lib haveIndex indexField events).haveIndex = haveIndex ∧
    (TpPrivate.store lib haveIndex indexField events).indexField = indexField ∧
    (TpPrivate.store lib haveIndex indexField events).eventList = events := by
  apply foldl_sqlTpMemSample
  exact ⟨List.Pairwise.nil, by simp, by simp, fun _ => List.Perm.refl _⟩

def positionAt (tree : List (IndexNode ε)) (index : Nat) : Option Nat :=
  if index < tree.length then some index else none

section Find

variable {tree : List (IndexNode ε)}
  (sorted : tree.Pairwise (·.value < ·.value))

include sorted

theorem value_lt_iff (hfirst : first < tree.length)
    (hsecond : second < tree.length) :
    tree[first].value < tree[second].value ↔ first < second := by
  have hpairs := List.pairwise_iff_getElem.mp sorted
  constructor
  · intro less
    by_contra hle
    rcases Nat.lt_or_eq_of_le (Nat.le_of_not_lt hle) with before | rfl
    · exact asymm less (hpairs second first hsecond hfirst before)
    · exact lt_irrefl _ less
  · exact hpairs first second hfirst hsecond

theorem value_lt_position (value : Value) (index : Nat)
    (bound : index < tree.length) :
    tree[index].value < value ↔ index < tree.countP (·.value < value) := by
  rw [← lt_countP_iff sorted _ index bound]
  · simp
  · intro first second before less
    simp only [decide_eq_true_iff] at less ⊢
    exact before.trans less

theorem value_le_position (value : Value) (index : Nat)
    (bound : index < tree.length) :
    tree[index].value ≤ value ↔ index < tree.countP (·.value ≤ value) := by
  rw [← lt_countP_iff sorted _ index bound]
  · simp
  · intro first second before le
    simp only [decide_eq_true_iff] at le ⊢
    exact before.le.trans le

theorem counts_of_found (found : tree.findIdx? (·.value = value) = some index) :
    index < tree.length ∧
    tree.countP (·.value < value) = index ∧
    tree.countP (·.value ≤ value) = index + 1 := by
  rw [List.findIdx?_eq_some_iff_getElem] at found
  obtain ⟨bound, hvalue, _⟩ := found
  simp only [decide_eq_true_iff] at hvalue
  refine ⟨bound, ?_, ?_⟩
  · have hbelow := value_lt_position sorted value
    apply le_antisymm
    · by_contra hless
      have := (hbelow index bound).mpr (by omega)
      exact lt_irrefl _ (hvalue ▸ this)
    · by_contra hless
      have hshort : tree.countP (·.value < value) < tree.length := by omega
      have hnot := (hbelow _ hshort).not.mpr (lt_irrefl _)
      have hless := (value_lt_iff sorted hshort bound).mpr (by omega)
      exact hnot (hless.trans_eq hvalue)
  · have hupto := value_le_position sorted value
    have hin := (hupto index bound).mp hvalue.le
    by_contra hmore
    have hlength : tree.countP (·.value ≤ value) ≤ tree.length := List.countP_le_length
    have hnext : index + 1 < tree.length := by omega
    have hle := (hupto (index + 1) hnext).mpr (by omega)
    rw [← hvalue] at hle
    have hless := (value_lt_iff sorted bound hnext).mpr (Nat.lt_succ_self index)
    exact absurd hless (not_lt_of_ge hle)

omit sorted in
theorem counts_of_missing (missing : tree.findIdx? (·.value = value) = none) :
    tree.countP (·.value < value) = tree.countP (·.value ≤ value) := by
  rw [List.findIdx?_eq_none_iff] at missing
  apply List.countP_congr
  intro node member
  have hne := missing node member
  simp only [decide_eq_false_iff_not] at hne
  simp [lt_iff_le_and_ne, hne]

theorem findIdx?_gt (value : Value) : tree.findIdx? (value < ·.value) =
      positionAt tree (tree.countP (·.value ≤ value)) := by
  apply findIdx?_eq_of_position
  intro index bound
  rw [decide_eq_true_iff, ← not_le, value_le_position sorted value index bound, not_lt]

theorem findIndexNode_ge (value : Value) : findIndexNode tree .ge value =
      positionAt tree (tree.countP (·.value < value)) := by
  unfold findIndexNode
  cases found : tree.findIdx? (·.value = value) with
  | none =>
    rw [counts_of_missing found]
    exact findIdx?_gt sorted value
  | some index =>
    obtain ⟨bound, hcount, _⟩ := counts_of_found sorted found
    simp [positionAt, hcount, bound]

theorem findIndexNode_gt (value : Value) : findIndexNode tree .gt value =
      positionAt tree (tree.countP (·.value ≤ value)) := by
  unfold findIndexNode
  cases found : tree.findIdx? (·.value = value) with
  | none => exact findIdx?_gt sorted value
  | some index =>
    obtain ⟨_, _, hcount⟩ := counts_of_found sorted found
    rw [hcount]
    rfl

theorem findIndexNode_le (value : Value) : findIndexNode tree .le value =
      rbPrev (tree.countP (·.value ≤ value)) := by
  unfold findIndexNode
  cases found : tree.findIdx? (·.value = value) with
  | none => exact congrArg rbPrev (counts_of_missing found)
  | some index =>
    obtain ⟨_, _, hcount⟩ := counts_of_found sorted found
    rw [hcount]
    rfl

theorem findIndexNode_lt (value : Value) : findIndexNode tree .lt value =
      rbPrev (tree.countP (·.value < value)) := by
  unfold findIndexNode
  cases found : tree.findIdx? (·.value = value) with
  | none => rfl
  | some index =>
    obtain ⟨_, hcount, _⟩ := counts_of_found sorted found
    rw [hcount]

theorem leftmost_position (lower : left.Lower) (right : Boundary) :
    ∃ first, (segmentNodes tree left right).1 = positionAt tree first ∧
      ∀ index (bound : index < tree.length),
        After (dir false) left.cut tree[index].value ↔ first ≤ index := by
  unfold segmentNodes
  cases hvalid : left.valid with
  | false =>
    refine ⟨0, ?_, ?_⟩
    · cases tree <;> simp [rbFirst, positionAt]
    · simp [left.cut_invalid hvalid]
  | true =>
    simp only [if_true, left.cut_valid hvalid, after_some, dir_false]
    rcases lower hvalid with hop | hop <;> rw [hop]
    · refine ⟨_, findIndexNode_ge sorted left.value, ?_⟩
      intro index bound
      rw [← not_lt, ← value_lt_position sorted left.value index bound]
      simp [Op.strict, le_iff_lt_or_eq]
    · refine ⟨_, findIndexNode_gt sorted left.value, ?_⟩
      intro index bound
      rw [← not_lt, ← value_le_position sorted left.value index bound]
      simp [Op.strict]

theorem rightmost_position (left : Boundary) (upper : right.Upper) :
    ∃ last, (segmentNodes tree left right).2 = rbPrev last ∧
      last ≤ tree.length ∧
      ∀ index (bound : index < tree.length),
        After (dir true) right.cut tree[index].value ↔ index < last := by
  unfold segmentNodes
  cases hvalid : right.valid with
  | false =>
    refine ⟨tree.length, rfl, le_rfl, ?_⟩
    intro index bound
    simp [right.cut_invalid hvalid, bound]
  | true =>
    simp only [if_true, right.cut_valid hvalid, after_some, dir_true]
    rcases upper hvalid with hop | hop <;> rw [hop]
    · refine ⟨_, findIndexNode_le sorted right.value, List.countP_le_length, ?_⟩
      intro index bound
      rw [← value_le_position sorted right.value index bound,
        le_iff_lt_or_eq, @eq_comm _ tree[index].value]
      simp [Op.strict]
    · refine ⟨_, findIndexNode_lt sorted right.value, List.countP_le_length, ?_⟩
      intro index bound
      rw [← value_lt_position sorted right.value index bound]
      simp [Op.strict]

theorem hasNodes_iff (first : Nat) (hlast : last ≤ tree.length) :
    hasNodes tree (positionAt tree first) (rbPrev last) = true ↔
      first < last := by
  cases last with
  | zero => simp [hasNodes, rbPrev]
  | succ last =>
    have hbound : last < tree.length := hlast
    by_cases bound : first < tree.length
    · simp only [hasNodes, positionAt, bound, if_true, rbPrev, Option.bind_some,
        List.getElem?_eq_getElem hbound, List.getElem?_eq_getElem bound, opHolds,
        decide_eq_true_iff, ← not_lt, value_lt_iff sorted hbound bound]
      omega
    · simp only [hasNodes, positionAt, bound, if_false, Option.bind_none,
        Bool.false_eq_true, false_iff]
      omega

end Find

end PerfProf.Sql
