import PerfProf.Sql.Index

namespace PerfProf.Sql

open PerfProf.Data
open Classical

universe u

variable {ε : Type u}

def ordered {α : Type u} (desc : Bool) (nodes : List α) : List α :=
  if desc then nodes.reverse else nodes

theorem filter_ordered {α : Type u} (desc : Bool) (nodes : List α)
    (p : α → Bool) :
    (ordered desc nodes).filter p = ordered desc (nodes.filter p) := by
  cases desc with
  | false => rfl
  | true => exact List.filter_reverse

theorem ordered_sorted {tree : List (IndexNode ε)} (desc : Bool)
    (sorted : tree.Pairwise (·.value < ·.value)) :
    (ordered desc tree).Pairwise fun first second =>
      dir desc first.value second.value := by
  cases desc with
  | false => exact sorted
  | true => exact List.pairwise_reverse.mpr sorted

def Cursor.window (desc : Bool) (cursor : Cursor ε) : Option (Cut Value) :=
  (nearOf desc cursor.left cursor.right).cut

noncomputable def later (tree : List (IndexNode ε)) (desc : Bool)
    (cursor : Cursor ε) : List (IndexNode ε) :=
  if cursor.indexDone then []
  else (ordered desc tree).filter fun node =>
    decide (After (dir desc) (cursor.window desc) node.value ∧ IndexHolds cursor.opIndex node.value)

def Cursor.Ready (desc : Bool) (cursor : Cursor ε) : Prop :=
  cursor.indexDone = false → Query cursor.opIndex desc cursor.left cursor.right

theorem nextWindow_cut (desc : Bool) (lower : left.Lower)
    (upper : right.Upper) :
    (nearOf desc (nextWindow desc left right).1
      (nextWindow desc left right).2).cut =
      (farOf desc left right).cut.map Cut.flip := by
  cases desc with
  | false =>
    simp only [nextWindow, nearOf, farOf, Bool.false_eq_true, if_false]
    cases hvalid : right.valid with
    | false => simp [Boundary.cut, hvalid]
    | true =>
      rcases upper hvalid with hop | hop <;> simp [Boundary.cut, hvalid, hop, Op.strict, Cut.flip]
  | true =>
    simp only [nextWindow, nearOf, farOf, if_true]
    cases hvalid : left.valid with
    | false => simp [Boundary.cut, hvalid]
    | true =>
      rcases lower hvalid with hop | hop <;> simp [Boundary.cut, hvalid, hop, Op.strict, Cut.flip]

theorem nextWindow_done (desc : Bool) (left right : Boundary) :
    (!(nextWindow desc left right).1.valid &&
      !(nextWindow desc left right).2.valid) =
      !(farOf desc left right).valid := by
  cases desc <;> simp [nextWindow, farOf]

theorem nextWindow_query (old : Query table desc left right)
    (left' right' : Boundary) :
    Query table desc (nextWindow desc left' right').1
      (nextWindow desc left' right').2 where
  compared := old.compared
  sorted := old.sorted
  lower := by
    cases desc with
    | false =>
      intro _
      simp only [nextWindow, Bool.false_eq_true, if_false]
      split <;> simp
    | true =>
      intro valid
      simp [nextWindow] at valid
  upper := by
    cases desc with
    | false =>
      intro valid
      simp [nextWindow] at valid
    | true =>
      intro _
      simp only [nextWindow, if_true]
      split <;> simp
  fresh := by cases desc <;> rfl

section Segment

variable {tree : List (IndexNode ε)} {desc : Bool} {cursor : Cursor ε}
  {left right : Boundary}

theorem takeSegment_window (lower : left.Lower) (upper : right.Upper) :
    (takeSegment tree desc left right cursor).window desc =
      (farOf desc left right).cut.map Cut.flip :=
  nextWindow_cut desc lower upper

theorem takeSegment_done : (takeSegment tree desc left right cursor).indexDone =
      !(farOf desc left right).valid :=
  nextWindow_done desc left right

theorem takeSegment_fixed (lower : left.Lower) (upper : right.Upper) :
    (takeSegment tree desc left right cursor).indexDone = false →
    (takeSegment tree desc left right cursor).window desc ≠ none := by
  rw [takeSegment_done, takeSegment_window lower upper]
  intro hdone
  rw [Boundary.cut_valid _ (by simpa using hdone)]
  simp

theorem takeSegment_ready
    (query : Query cursor.opIndex desc cursor.left cursor.right) :
    (takeSegment tree desc left right cursor).Ready desc :=
  fun _ => nextWindow_query query left right

theorem later_takeSegment (lower : left.Lower) (upper : right.Upper) :
    later tree desc (takeSegment tree desc left right cursor) =
      (ordered desc tree).filter fun node =>
        decide (¬ Until (dir desc) (farOf desc left right).cut node.value ∧
          IndexHolds cursor.opIndex node.value) := by
  rw [later, takeSegment_done, takeSegment_window lower upper]
  cases hvalid : (farOf desc left right).valid with
  | false => simp [Boundary.cut_invalid _ hvalid]
  | true =>
    rw [Boundary.cut_valid _ hvalid]
    simp only [Bool.not_true, Bool.false_eq_true, if_false, not_until_iff, Option.map_some]
    rfl

theorem later_split (sorted : tree.Pairwise (·.value < ·.value))
    (open_ : cursor.indexDone = false) (lower : left.Lower)
    (upper : right.Upper)
    (segment :
      NextSegment (dir desc) (IndexHolds cursor.opIndex) (cursor.window desc)
        (nearOf desc left right).cut (farOf desc left right).cut) :
    later tree desc cursor =
      ordered desc (tree.filter fun node =>
        decide (After (dir false) left.cut node.value ∧
          After (dir true) right.cut node.value)) ++
        later tree desc (takeSegment tree desc left right cursor) := by
  rw [later_takeSegment lower upper, ← filter_ordered, later]
  simp only [open_, Bool.false_eq_true, if_false, ← inside_iff desc]
  apply filter_eq_append_of_before (ordered_sorted desc sorted)
  · intro node _
    rw [← Bool.decide_or, decide_eq_decide]
    exact segment.split node.value
  · intro node _ hfirst
    simp only [decide_eq_true_iff] at hfirst
    simp [hfirst.2]
  · intro second _ first _ hsecond hfirst
    simp only [decide_eq_true_iff] at hsecond hfirst
    exact asymm_of (dir desc) (NextSegment.before _ hfirst.2 hsecond.1)

theorem segment_nodes (desc : Bool) (cursor : Cursor ε)
    (sorted : tree.Pairwise (·.value < ·.value)) (lower : left.Lower)
    (upper : right.Upper) :
    ∃ first last, (takeSegment tree desc left right cursor).leftmost =
        positionAt tree first ∧
      (takeSegment tree desc left right cursor).rightmost = rbPrev last ∧
      last ≤ tree.length ∧
      (tree.filter fun node => decide (After (dir false) left.cut node.value ∧
        After (dir true) right.cut node.value)) =
        (tree.take last).drop first := by
  obtain ⟨first, hleftmost, hfirst⟩ := leftmost_position sorted lower right
  obtain ⟨last, hrightmost, hbound, hlast⟩ := rightmost_position sorted left upper
  refine ⟨first, last, hleftmost, hrightmost, hbound, ?_⟩
  apply filter_eq_drop_take
  intro index bound
  rw [decide_eq_true_iff, hfirst index bound, hlast index bound]

end Segment

def Cursor.work (desc : Bool) (cursor : Cursor ε) : Nat :=
  if cursor.indexDone then 0
  else rank (dir desc) (cursor.opIndex.map OneOp.value) (cursor.window desc) + 1

theorem rank_le (desc : Bool) (values : List Value)
    (window : Option (Cut Value)) :
    rank (dir desc) values window ≤ 2 * values.length + 2 := by
  cases window with
  | none => exact Nat.le_refl _
  | some cut =>
    have hcount : values.countP (fun value => dir desc cut.value value) ≤
        values.length := List.countP_le_length
    have hbit := (!cut.strict).toNat_le
    rw [rank]
    omega

theorem Cursor.work_le (desc : Bool) (cursor : Cursor ε) :
    cursor.work desc ≤ 2 * cursor.opIndex.length + 3 := by
  have hrank := rank_le desc (cursor.opIndex.map OneOp.value) (cursor.window desc)
  rw [List.length_map] at hrank
  unfold work
  split <;> omega

structure SameScan (cursor next : Cursor ε) : Prop where
  filterOps : next.filterOps = cursor.filterOps
  opIndex : next.opIndex = cursor.opIndex
  scanList : next.scanList = cursor.scanList

structure Walking (tree : List (IndexNode ε)) (desc : Bool)
    (cursor : Cursor ε) (first last : Nat) : Prop where
  leftmost : cursor.leftmost = some first
  rightmost : cursor.rightmost = some last
  le : first ≤ last
  bound : last < tree.length
  ready : cursor.Ready desc
  fixed : cursor.indexDone = false → cursor.window desc ≠ none

def IndexSpec (tree : List (IndexNode ε)) (info : IndexInfo)
    (cursor : Cursor ε) : IndexResult → Cursor ε → Prop
  | .done, _ => later tree info.desc cursor = []
  | .allNode, _ => info.orderBy = false ∧ cursor.indexDone = false ∧
      cursor.window info.desc = none ∧ ∀ key, IndexHolds cursor.opIndex key
  | .cont, next => ∃ first last, Walking tree info.desc next first last ∧
      later tree info.desc cursor = ordered info.desc ((tree.take (last + 1)).drop first) ++
          later tree info.desc next

section Loop

variable {tree : List (IndexNode ε)} {info : IndexInfo} {cursor : Cursor ε}
  {left right : Boundary}

theorem later_of_none
    (query : Query cursor.opIndex info.desc cursor.left cursor.right)
    (hnone : queryOpBoundary cursor.opIndex info.desc cursor.left cursor.right =
      none) :
    later tree info.desc cursor = [] := by
  unfold later
  split
  · rfl
  · rw [List.filter_eq_nil_iff]
    intro node _ htrue
    simp only [decide_eq_true_iff] at htrue
    exact query.result_none hnone node.value htrue.1 htrue.2

section

variable (open_ : cursor.indexDone = false)
  (segment : NextSegment (dir info.desc) (IndexHolds cursor.opIndex)
    (cursor.window info.desc) (nearOf info.desc left right).cut
    (farOf info.desc left right).cut)

include open_ segment

theorem allNode_spec
    (hall : (!info.orderBy && !left.valid && !right.valid) = true)
    (next : Cursor ε) : IndexSpec tree info cursor .allNode next := by
  simp only [Bool.and_eq_true, Bool.not_eq_true'] at hall
  obtain ⟨⟨horder, hleft⟩, hright⟩ := hall
  have hnear : (nearOf info.desc left right).cut = none := by
    unfold nearOf
    split
    · exact right.cut_invalid hright
    · exact left.cut_invalid hleft
  have hfar : (farOf info.desc left right).cut = none := by
    unfold farOf
    split
    · exact left.cut_invalid hleft
    · exact right.cut_invalid hright
  rw [hnear, hfar] at segment
  refine ⟨horder, open_, ?_, ?_⟩
  · cases hwindow : cursor.window info.desc with
    | none => rfl
    | some start =>
      obtain ⟨_, habsurd, _⟩ := segment.tighter start hwindow
      cases habsurd
  · intro key
    exact segment.sound key (after_none _ _) (until_none _ _)

theorem work_takeSegment (tree : List (IndexNode ε)) (lower : left.Lower)
    (upper : right.Upper)
    (member : (farOf info.desc left right).valid →
      (farOf info.desc left right).value ∈ cursor.opIndex.map OneOp.value) :
    (takeSegment tree info.desc left right cursor).work info.desc <
      cursor.work info.desc := by
  unfold Cursor.work
  rw [takeSegment_done, takeSegment_window lower upper, open_]
  cases hvalid : (farOf info.desc left right).valid with
  | false => simp
  | true =>
    rw [Boundary.cut_valid _ hvalid] at segment ⊢
    have hless := segment.rank_lt (member hvalid)
    simp only [Bool.not_true, Bool.false_eq_true, if_false, Option.map_some]
    exact Nat.succ_lt_succ hless

end

theorem walking_takeSegment
    (query : Query cursor.opIndex info.desc cursor.left cursor.right)
    (lower : left.Lower) (upper : right.Upper) (hfirst : first ≤ last)
    (hlast : last < tree.length)
    (hleftmost :
      (takeSegment tree info.desc left right cursor).leftmost = some first)
    (hrightmost :
      (takeSegment tree info.desc left right cursor).rightmost = some last) :
    Walking tree info.desc (takeSegment tree info.desc left right cursor) first
      last where
  leftmost := hleftmost
  rightmost := hrightmost
  le := hfirst
  bound := hlast
  ready := takeSegment_ready query
  fixed := takeSegment_fixed lower upper

theorem takeSegment_spec (sorted : tree.Pairwise (·.value < ·.value))
    (query : Query cursor.opIndex info.desc cursor.left cursor.right)
    (lower : left.Lower) (upper : right.Upper)
    (hsplit : later tree info.desc cursor =
      ordered info.desc (tree.filter fun node =>
        decide (After (dir false) left.cut node.value ∧
          After (dir true) right.cut node.value)) ++
        later tree info.desc (takeSegment tree info.desc left right cursor)) :
    if hasNodes tree (takeSegment tree info.desc left right cursor).leftmost
          (takeSegment tree info.desc left right cursor).rightmost then
      IndexSpec tree info cursor .cont
        (takeSegment tree info.desc left right cursor)
    else
      later tree info.desc cursor =
        later tree info.desc
          (takeSegment tree info.desc left right cursor) := by
  obtain ⟨first, last, hleftmost, hrightmost, hbound, hnodes⟩ :=
    segment_nodes info.desc cursor sorted lower upper
  have hhas := hasNodes_iff sorted first hbound
  rw [← hleftmost, ← hrightmost] at hhas
  rw [hnodes] at hsplit
  split
  · rename_i htrue
    have hless := hhas.mp htrue
    obtain ⟨last, rfl⟩ : ∃ before, last = before + 1 := ⟨last - 1, by omega⟩
    refine ⟨first, last, ?_, hsplit⟩
    apply walking_takeSegment query lower upper (by omega) hbound
    · rw [hleftmost, positionAt, if_pos (by omega)]
    · exact hrightmost
  · rename_i hfalse
    have hempty : (tree.take last).drop first = [] := by
      rw [List.drop_eq_nil_iff, List.length_take]
      have := hhas.not.mp hfalse
      omega
    rw [hsplit, hempty]
    cases info.desc <;> rfl

theorem IndexSpec.skip (spec : IndexSpec tree info skipped result next)
    (fixed : skipped.indexDone = false → skipped.window info.desc ≠ none)
    (same : later tree info.desc cursor = later tree info.desc skipped) :
    IndexSpec tree info cursor result next := by
  cases result with
  | done => exact same.trans spec
  | allNode => exact absurd spec.2.2.1 (fixed spec.2.1)
  | cont =>
    obtain ⟨first, last, walking, hlater⟩ := spec
    exact ⟨first, last, walking, same.trans hlater⟩

theorem perfTpDoIndex_spec (sorted : tree.Pairwise (·.value < ·.value))
    (ready : cursor.Ready info.desc) (fuel : Nat)
    (enough : cursor.work info.desc < fuel) :
    ∃ result next, perfTpDoIndex tree info fuel cursor = some (result, next) ∧
      SameScan cursor next ∧
      IndexSpec tree info cursor result next := by
  induction fuel generalizing cursor with
  | zero => cases enough
  | succ fuel ih =>
    rw [perfTpDoIndex]
    by_cases hend : (tree.isEmpty || cursor.indexDone) = true
    · refine ⟨.done, cursor, by rw [if_pos hend], ⟨rfl, rfl, rfl⟩, ?_⟩
      rw [Bool.or_eq_true, List.isEmpty_iff] at hend
      rcases hend with rfl | hdone
      · cases hdesc : info.desc <;> simp [IndexSpec, later, ordered, hdesc]
      · simp [IndexSpec, later, hdone]
    · rw [if_neg hend]
      simp only [Bool.or_eq_true, not_or, Bool.not_eq_true] at hend
      have query := ready hend.2
      cases hquery : queryOpBoundary cursor.opIndex info.desc cursor.left cursor.right with
      | none => exact ⟨.done, cursor, rfl, ⟨rfl, rfl, rfl⟩, later_of_none query hquery⟩
      | some pair =>
        obtain ⟨left, right⟩ := pair
        obtain ⟨hpair, hclear⟩ := Query.result_some hquery
        have hop := query.boundaries_op
        have segment := query.segment (hpair ▸ hclear)
        have member := query.far_value
        rw [← hpair] at hop segment member
        dsimp only at hop segment member
        by_cases hall : (!info.orderBy && !left.valid && !right.valid) = true
        · simp only [hall, if_true]
          exact ⟨_, _, rfl, ⟨rfl, rfl, rfl⟩, allNode_spec hend.2 segment hall _⟩
        · simp only [hall]
          have hspec := takeSegment_spec sorted query hop.1 hop.2
            (later_split sorted hend.2 hop.1 hop.2 segment)
          have hless := work_takeSegment hend.2 segment tree hop.1 hop.2 member
          by_cases hhas : hasNodes tree (takeSegment tree info.desc left right cursor).leftmost
              (takeSegment tree info.desc left right cursor).rightmost = true
          · rw [if_pos hhas] at hspec
            exact ⟨.cont, takeSegment tree info.desc left right cursor,
              by simp [hhas], ⟨rfl, rfl, rfl⟩, hspec⟩
          · rw [if_neg hhas] at hspec
            have hready : (takeSegment tree info.desc left right
              cursor).Ready info.desc := takeSegment_ready query
            obtain ⟨result, next, hrun, hsame, hnext⟩ := ih hready (by omega)
            refine ⟨result, next, by simpa [hhas] using hrun,
              ⟨hsame.1, hsame.2, hsame.3⟩, hnext.skip ?_ hspec⟩
            exact takeSegment_fixed hop.1 hop.2

end Loop

end PerfProf.Sql
