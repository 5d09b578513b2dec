import Mathlib.Data.List.Sort
import PerfProf.Sql.Segments

namespace PerfProf.Sql

open PerfProf.Data
open Classical

universe u

variable {ε : Type u}

def nodesAhead (tree : List (IndexNode ε)) (desc : Bool) (first last : Nat) :
    List (IndexNode ε) :=
  if desc then ((tree.take last).drop first).reverse
  else (tree.take (last + 1)).drop (first + 1)

inductive Ahead (tree : List (IndexNode ε)) (desc : Bool) (cursor : Cursor ε) :
    List ε → Prop where
  | list (scanList : cursor.scanList = true) : Ahead tree desc cursor cursor.rest
  | index {first last : Nat} (scanList : cursor.scanList = false)
      (walking : Walking tree desc cursor first last) :
      Ahead tree desc cursor (cursor.rest ++
        (nodesAhead tree desc first last ++ later tree desc cursor).flatMap IndexNode.eventList)

theorem drop_take_succ {α : Type u} {tree : List α} {first last : Nat}
    (hfirst : first ≤ last) (bound : last < tree.length) :
    (tree.take (last + 1)).drop first =
      (tree.take last).drop first ++ [tree[last]] := by
  rw [List.take_succ_eq_append_getElem bound, List.drop_append_of_le_length]
  rw [List.length_take]
  omega

theorem ordered_segment {tree : List (IndexNode ε)} (desc : Bool)
    {first last : Nat} (hfirst : first ≤ last) (bound : last < tree.length) :
    ∃ node, tree[if desc then last else first]? = some node ∧
      ordered desc ((tree.take (last + 1)).drop first) =
        node :: nodesAhead tree desc first last := by
  cases desc with
  | true =>
    refine ⟨tree[last], by simp [bound], ?_⟩
    simp [ordered, nodesAhead, drop_take_succ hfirst bound]
  | false =>
    have hlength : first < (tree.take (last + 1)).length := by
      rw [List.length_take]
      omega
    refine ⟨tree[first], ?_, ?_⟩
    · simp [show first < tree.length by omega]
    · simp only [ordered, nodesAhead, Bool.false_eq_true, if_false]
      rw [List.drop_eq_getElem_cons hlength, List.getElem_take]

section Walk

variable {tree : List (IndexNode ε)} {desc : Bool}

variable {first last : Nat}

theorem Walking.entry (walking : Walking tree desc cursor first last) :
    (if desc then cursor.rightmost else cursor.leftmost) =
      some (if desc then last else first) := by
  cases desc with
  | true => exact walking.rightmost
  | false => exact walking.leftmost

theorem openNode_ahead (filled : ∀ node ∈ tree, node.eventList ≠ [])
    (scanList : cursor.scanList = false)
    (walking : Walking tree desc cursor first last) :
    ∃ event rest, (ordered desc ((tree.take (last + 1)).drop first) ++
          later tree desc cursor).flatMap IndexNode.eventList = event :: rest ∧
      (openNode tree desc cursor).curr = some event ∧
      SameScan cursor (openNode tree desc cursor) ∧
      Ahead tree desc (openNode tree desc cursor) rest := by
  obtain ⟨node, hnode, hsegment⟩ := ordered_segment desc walking.le walking.bound
  obtain ⟨value, eventList⟩ := node
  cases eventList with
  | nil => exact absurd rfl (filled _ (List.mem_of_getElem? hnode))
  | cons event rest =>
    have hopen : openNode tree desc cursor = { cursor with curr := some event, rest := rest } := by
      rw [openNode, walking.entry, Option.bind_some, hnode]
    rw [hopen, hsegment]
    refine ⟨event, _, rfl, rfl, ⟨rfl, rfl, rfl⟩, ?_⟩
    exact .index scanList ⟨walking.leftmost, walking.rightmost, walking.le,
      walking.bound, walking.ready, walking.fixed⟩

def Follows (tree : List (IndexNode ε)) (desc : Bool) (next : Cursor ε) :
    List ε → Prop
  | [] => next.curr = none
  | event :: rest => next.curr = some event ∧ Ahead tree desc next rest

theorem nodesAhead_self (desc : Bool) (position : Nat) :
    nodesAhead tree desc position position = [] := by
  cases desc with
  | true => simp [nodesAhead]
  | false => simp [nodesAhead]

theorem nextNode_follows (filled : ∀ node ∈ tree, node.eventList ≠ [])
    (scanList : cursor.scanList = false)
    (walking : Walking tree desc cursor first last) (more : first ≠ last) :
    SameScan cursor (nextNode tree desc cursor) ∧
    Follows tree desc (nextNode tree desc cursor)
      ((nodesAhead tree desc first last ++ later tree desc cursor).flatMap
        IndexNode.eventList) := by
  have hless := lt_of_le_of_ne walking.le more
  have hbound := walking.bound
  cases desc with
  | true =>
    obtain ⟨before, rfl⟩ : ∃ before, last = before + 1 := ⟨last - 1, by omega⟩
    have hmove : cursor.rightmost.bind rbPrev = some before := by
      rw [walking.rightmost]
      rfl
    have hwalking : Walking tree true { cursor with rightmost := cursor.rightmost.bind rbPrev }
        first before :=
      ⟨walking.leftmost, hmove, by omega, by omega, walking.ready, walking.fixed⟩
    obtain ⟨event, rest, hevents, hcurr, hsame, hahead⟩ :=
      openNode_ahead filled (by exact scanList) hwalking
    refine ⟨⟨hsame.1, hsame.2, hsame.3⟩, ?_⟩
    change (nodesAhead tree true first (before + 1) ++
      later tree true cursor).flatMap IndexNode.eventList = _ at hevents
    rw [hevents]
    exact ⟨hcurr, hahead⟩
  | false =>
    have hmove : cursor.leftmost.bind (rbNext tree) = some (first + 1) := by
      rw [walking.leftmost, Option.bind_some, rbNext, if_pos (by omega)]
    have hwalking : Walking tree false
        { cursor with leftmost := cursor.leftmost.bind (rbNext tree) }
        (first + 1) last :=
      ⟨hmove, walking.rightmost, by omega, by omega, walking.ready, walking.fixed⟩
    obtain ⟨event, rest, hevents, hcurr, hsame, hahead⟩ :=
      openNode_ahead filled (by exact scanList) hwalking
    refine ⟨⟨hsame.1, hsame.2, hsame.3⟩, ?_⟩
    change (nodesAhead tree false first last ++
      later tree false cursor).flatMap IndexNode.eventList = _ at hevents
    rw [hevents]
    exact ⟨hcurr, hahead⟩

theorem nextSegment_follows (sorted : tree.Pairwise (·.value < ·.value))
    (filled : ∀ node ∈ tree, node.eventList ≠ [])
    (scanList : cursor.scanList = false)
    (walking : Walking tree info.desc cursor position position)
    (enough : 2 * cursor.opIndex.length + 3 < fuel) :
    ∃ next, (match perfTpDoIndex tree info fuel cursor with
        | none => none
        | some (.done, cursor) => some { cursor with curr := none }
        | some (_, cursor) => some (openNode tree info.desc cursor)) =
        some next ∧ SameScan cursor next ∧
      Follows tree info.desc next ((later tree info.desc cursor).flatMap IndexNode.eventList) := by
  obtain ⟨result, found, hrun, hsame, hspec⟩ := perfTpDoIndex_spec sorted
    walking.ready fuel (Nat.lt_of_le_of_lt (cursor.work_le info.desc) enough)
  rw [hrun]
  cases result with
  | done =>
    refine ⟨_, rfl, ⟨hsame.1, hsame.2, hsame.3⟩, ?_⟩
    rw [show later tree info.desc cursor = [] from hspec]
    rfl
  | allNode => exact absurd hspec.2.2.1 (walking.fixed hspec.2.1)
  | cont =>
    obtain ⟨first, last, hwalking, hlater⟩ := hspec
    obtain ⟨event, rest, hevents, hcurr, hopen, hahead⟩ :=
      openNode_ahead filled (hsame.scanList.trans scanList) hwalking
    refine ⟨_, rfl, ⟨hopen.1.trans hsame.1, hopen.2.trans hsame.2, hopen.3.trans hsame.3⟩, ?_⟩
    rw [hlater, hevents]
    exact ⟨hcurr, hahead⟩

theorem followingEvent_spec (sorted : tree.Pairwise (·.value < ·.value))
    (filled : ∀ node ∈ tree, node.eventList ≠ [])
    (ahead : Ahead tree info.desc cursor events)
    (enough : 2 * cursor.opIndex.length + 3 < fuel) :
    ∃ next, followingEvent tree info fuel cursor = some next ∧
      SameScan cursor next ∧
      Follows tree info.desc next events := by
  unfold followingEvent
  cases hrest : cursor.rest with
  | cons event rest =>
    refine ⟨_, rfl, ⟨rfl, rfl, rfl⟩, ?_⟩
    cases ahead with
    | list scanList =>
      rw [hrest]
      exact ⟨rfl, .list scanList⟩
    | index scanList walking =>
      rw [hrest]
      exact ⟨rfl, .index scanList ⟨walking.leftmost, walking.rightmost,
        walking.le, walking.bound, walking.ready, walking.fixed⟩⟩
  | nil =>
    cases ahead with
    | list scanList =>
      rw [hrest]
      exact ⟨_, if_pos scanList, ⟨rfl, rfl, rfl⟩, rfl⟩
    | @index first last scanList walking =>
      rw [hrest, List.nil_append]
      dsimp only
      rw [if_neg (by simp [scanList])]
      by_cases same : first = last
      · subst same
        rw [if_neg (by simp [walking.leftmost, walking.rightmost]),
          nodesAhead_self, List.nil_append]
        exact nextSegment_follows sorted filled scanList walking enough
      · have hdiffer : cursor.leftmost ≠ cursor.rightmost := by
          rw [walking.leftmost, walking.rightmost]
          exact fun equal => same (Option.some.inj equal)
        rw [if_pos hdiffer]
        exact ⟨_, rfl, nextNode_follows filled scanList walking same⟩

end Walk

def Cursor.passes (lib : Library ε) (cursor : Cursor ε) (event : ε) : Bool :=
  cursor.filterOps.all (filterHolds lib event)

theorem Cursor.passes_congr (lib : Library ε) {cursor next : Cursor ε}
    (same : next.filterOps = cursor.filterOps) :
    next.passes lib = cursor.passes lib := by
  unfold passes
  rw [same]

section Rows

variable {tree : List (IndexNode ε)} {info : IndexInfo} {cursor : Cursor ε}

def Stops (lib : Library ε) (tree : List (IndexNode ε)) (desc : Bool)
    (cursor next : Cursor ε) (events : List ε) : Prop :=
  match events.filter (cursor.passes lib) with
  | [] => next.curr = none
  | event :: rows => next.curr = some event ∧ ∃ rest,
      Ahead tree desc next rest ∧ rest.length < events.length ∧
        rest.filter (cursor.passes lib) = rows

theorem perfTpXNext_spec (lib : Library ε)
    (sorted : tree.Pairwise (·.value < ·.value))
    (filled : ∀ node ∈ tree, node.eventList ≠ [])
    (ahead : Ahead tree info.desc cursor events)
    (enough : events.length + 2 * cursor.opIndex.length + 4 < fuel) :
    ∃ next, perfTpXNext lib tree info fuel cursor = some next ∧
      SameScan cursor next ∧
      Stops lib tree info.desc cursor next events := by
  induction events generalizing cursor fuel with
  | nil =>
    obtain ⟨fuel, rfl⟩ : ∃ less, fuel = less + 1 := ⟨fuel - 1, by omega⟩
    obtain ⟨next, hnext, hsame, hfollows⟩ := followingEvent_spec sorted filled
      ahead (show _ < fuel by simp at enough; omega)
    rw [perfTpXNext, hnext]
    have hcurr : next.curr = none := hfollows
    simp only [hcurr]
    exact ⟨next, rfl, hsame, hcurr⟩
  | cons event events ih =>
    obtain ⟨fuel, rfl⟩ : ∃ less, fuel = less + 1 := ⟨fuel - 1, by omega⟩
    rw [List.length_cons] at enough
    obtain ⟨next, hnext, hsame, hcurr, hahead⟩ :=
      followingEvent_spec sorted filled ahead (show _ < fuel by omega)
    rw [perfTpXNext, hnext]
    simp only [hcurr]
    have hcheck : (next.filterOps.isEmpty || next.filterOps.all (filterHolds lib event)) =
          cursor.passes lib event := by
      rw [hsame.filterOps, Cursor.passes]
      cases cursor.filterOps <;> simp
    cases hpasses : cursor.passes lib event with
    | true =>
      refine ⟨next, by rw [hcheck, hpasses, if_pos rfl], hsame, ?_⟩
      rw [Stops, List.filter_cons_of_pos hpasses]
      exact ⟨hcurr, events, hahead, by simp, rfl⟩
    | false =>
      have hfuel : events.length + 2 * next.opIndex.length + 4 < fuel := by
        rw [hsame.opIndex]
        omega
      obtain ⟨stop, hstop, hfinal, hstops⟩ := ih hahead hfuel
      refine ⟨stop, by rw [hcheck, hpasses, if_neg (by simp), hstop],
        ⟨hfinal.1.trans hsame.1, hfinal.2.trans hsame.2, hfinal.3.trans hsame.3⟩, ?_⟩
      rw [Stops, Cursor.passes_congr lib hsame.filterOps] at hstops
      rw [Stops, List.filter_cons_of_neg (by simp [hpasses])]
      split at hstops
      · exact hstops
      · obtain ⟨hcurr, rest, hahead, hlength, hrows⟩ := hstops
        exact ⟨hcurr, rest, hahead, by simp; omega, hrows⟩

theorem rows_spec (lib : Library ε) {priv : TpPrivate ε}
    (sorted : priv.indexTree.Pairwise (·.value < ·.value))
    (filled : ∀ node ∈ priv.indexTree, node.eventList ≠ [])
    (ahead : Ahead priv.indexTree info.desc cursor events)
    (enough : events.length + 2 * cursor.opIndex.length + 4 < fuel) :
    (perfTpXNext lib priv.indexTree info fuel cursor).bind
      (visitRows lib priv info fuel) =
      some (events.filter (cursor.passes lib)) := by
  induction fuel generalizing cursor events with
  | zero => cases enough
  | succ fuel ih =>
    obtain ⟨next, hnext, hsame, hstops⟩ := perfTpXNext_spec lib sorted filled ahead enough
    rw [hnext, Option.bind_some]
    rw [Stops] at hstops
    split at hstops
    · rename_i hempty
      simp [visitRows, hstops, hempty]
    · rename_i row rows hrows
      obtain ⟨hrow, rest, hahead, hless, hrest⟩ := hstops
      have hrun := ih hahead (by rw [hsame.opIndex]; omega)
      rw [Cursor.passes_congr lib hsame.filterOps, hrest] at hrun
      obtain ⟨stop, hstop, hvisit⟩ := Option.bind_eq_some_iff.mp hrun
      simp only [visitRows, hrow, hstop, hvisit, hrows, Option.map_some]

end Rows

def satisfies (lib : Library ε) (info : IndexInfo) (event : ε) : Bool :=
  info.opTable.all (filterHolds lib event)

section Filter

variable (lib : Library ε) (priv : TpPrivate ε) (info : IndexInfo)

theorem filterHolds_eq (compared : one.op ≠ .glob) (event : ε) :
    filterHolds lib event one =
      opHolds (lib.perfTpField event one.field) one.op one.value := by
  unfold filterHolds
  cases hop : one.op <;> first | rfl | exact absurd hop compared

theorem mem_opIndex (one : OneOp) : one ∈ (resetCursor lib priv info).opIndex ↔
      one ∈ info.opTable ∧ isIndexOp priv one = true := by
  rw [resetCursor, (lib.qsort_perm _).mem_iff]
  simp

theorem satisfies_iff (event : ε) :
    satisfies lib info event = true ↔
      (resetCursor lib priv info).passes lib event = true ∧
      IndexHolds (resetCursor lib priv info).opIndex
        (lib.perfTpField event priv.indexField) := by
  have hone : ∀ one, isIndexOp priv one = true → (filterHolds lib event one = true ↔
        opHolds (lib.perfTpField event priv.indexField) one.op one.value) := by
    intro one hindex
    simp only [isIndexOp, Bool.and_eq_true, decide_eq_true_iff] at hindex
    rw [filterHolds_eq lib hindex.2, hindex.1.2]
  simp only [satisfies, Cursor.passes, List.all_eq_true, IndexHolds, mem_opIndex]
  constructor
  · intro hall
    refine ⟨?_, ?_⟩
    · intro one member
      exact hall one (List.mem_filter.mp member).1
    · intro one member
      exact (hone one member.2).mp (hall one member.1)
  · rintro ⟨hfilter, hindex⟩ one member
    by_cases hcase : isIndexOp priv one = true
    · exact (hone one hcase).mpr (hindex one ⟨member, hcase⟩)
    · exact hfilter one (List.mem_filter.mpr ⟨member, by simpa using hcase⟩)

theorem resetCursor_query : Query (resetCursor lib priv info).opIndex info.desc
      (resetCursor lib priv info).left (resetCursor lib priv info).right where
  compared := by
    intro one member
    have hindex := ((mem_opIndex lib priv info one).mp member).2
    simp only [isIndexOp, Bool.and_eq_true, decide_eq_true_iff] at hindex
    exact hindex.2
  sorted := lib.qsort_sorted _
  lower := fun valid => by cases valid
  upper := fun valid => by cases valid
  fresh := by cases info.desc <;> rfl

end Filter

section Nodes

variable {lib : Library ε} {priv : TpPrivate ε}

theorem flatMap_filter {tree : List (IndexNode ε)} {p : IndexNode ε → Bool}
    (q : ε → Bool)
    (same : ∀ node ∈ tree, ∀ event ∈ node.eventList, q event = p node) :
    (tree.filter p).flatMap IndexNode.eventList =
      (tree.flatMap IndexNode.eventList).filter q := by
  induction tree with
  | nil => rfl
  | cons head tail ih =>
    have htail := ih (fun node member => same node (.tail head member))
    have hhead := same head (.head tail)
    rw [List.flatMap_cons, List.filter_append, ← htail]
    cases hp : p head with
    | true =>
      have hall : head.eventList.filter q = head.eventList :=
        List.filter_eq_self.mpr fun event member => (hhead event member).trans hp
      rw [List.filter_cons_of_pos hp, List.flatMap_cons, hall]
    | false =>
      have hnone : head.eventList.filter q = [] :=
        List.filter_eq_nil_iff.mpr fun event member => by simp [hhead event member, hp]
      rw [List.filter_cons_of_neg (by simp [hp]), hnone, List.nil_append]

theorem Indexed.nodes_perm (indexed : Indexed lib priv)
    (have_ : priv.haveIndex = true) (desc : Bool) (holds : Value → Prop) :
    ((ordered desc (priv.indexTree.filter fun node =>
      decide (holds node.value))).flatMap IndexNode.eventList).Perm
        (priv.eventList.filter fun event =>
          decide (holds (lib.perfTpField event priv.indexField))) := by
  have hperm : (ordered desc (priv.indexTree.filter fun node =>
      decide (holds node.value))).Perm
        (priv.indexTree.filter fun node => decide (holds node.value)) := by
    cases desc with
    | false => exact List.Perm.refl _
    | true => exact List.reverse_perm _
  refine (hperm.flatMap_right _).trans ?_
  rw [flatMap_filter fun event => decide (holds (lib.perfTpField event priv.indexField))]
  · exact (indexed.perm have_).filter _
  · intro node member event hevent
    rw [indexed.keyed node member event hevent]

theorem Indexed.nodes_sorted (indexed : Indexed lib priv) (desc : Bool)
    (p : IndexNode ε → Bool) :
    ((ordered desc (priv.indexTree.filter p)).flatMap
        IndexNode.eventList).Pairwise fun first second => ¬ dir desc
      (lib.perfTpField second priv.indexField)
      (lib.perfTpField first priv.indexField) := by
  rw [← filter_ordered, List.pairwise_flatMap]
  have hmem : ∀ node ∈ (ordered desc priv.indexTree).filter p, node ∈ priv.indexTree := by
    intro node member
    have horder := (List.mem_filter.mp member).1
    cases desc with
    | false => exact horder
    | true => exact List.mem_reverse.mp horder
  constructor
  · intro node member
    apply List.pairwise_of_forall_mem_list
    intro first hfirst second hsecond
    rw [indexed.keyed node (hmem node member) first hfirst,
      indexed.keyed node (hmem node member) second hsecond]
    exact irrefl_of (dir desc) node.value
  · refine ((ordered_sorted desc indexed.sorted).filter p).imp_of_mem ?_
    intro before behind hbefore hbehind less first hfirst second hsecond
    rw [indexed.keyed before (hmem before hbefore) first hfirst,
      indexed.keyed behind (hmem behind hbehind) second hsecond]
    exact asymm_of (dir desc) less

end Nodes

structure SameOps (cursor next : Cursor ε) : Prop where
  filterOps : next.filterOps = cursor.filterOps
  opIndex : next.opIndex = cursor.opIndex

section Decide

variable {lib : Library ε} {priv : TpPrivate ε} {info : IndexInfo}

def Selected (lib : Library ε) (priv : TpPrivate ε) (info : IndexInfo) :
    Option (Cursor ε) → Prop
  | none => ∀ event ∈ priv.eventList, satisfies lib info event = false
  | some cursor => SameOps (resetCursor lib priv info) cursor ∧
      ∃ events, Ahead priv.indexTree info.desc cursor events ∧
        events.length ≤ priv.eventList.length ∧
        (events.filter (cursor.passes lib)).Perm (priv.eventList.filter (satisfies lib info)) ∧
        (priv.haveIndex = true → info.orderBy = true →
          events.Pairwise fun first second =>
            ¬ dir info.desc (lib.perfTpField second priv.indexField)
              (lib.perfTpField first priv.indexField))

theorem list_selected (unordered : priv.haveIndex = true → info.orderBy = false)
    (hall :
      ∀ event ∈ priv.eventList, IndexHolds (resetCursor lib priv info).opIndex
        (lib.perfTpField event priv.indexField)) :
    Selected lib priv info (some (resetCursor lib priv info)) := by
  refine ⟨⟨rfl, rfl⟩, priv.eventList, .list rfl, Nat.le_refl _, ?_, ?_⟩
  · have hsame : priv.eventList.filter ((resetCursor lib priv info).passes lib) =
        priv.eventList.filter (satisfies lib info) := by
      apply List.filter_congr
      intro event member
      rw [Bool.eq_iff_iff, satisfies_iff lib priv info event]
      exact ⟨fun passes => ⟨passes, hall event member⟩, And.left⟩
    rw [hsame]
  · intro have_ order
    rw [unordered have_] at order
    cases order

theorem later_resetCursor :
    later priv.indexTree info.desc (resetCursor lib priv info) =
      ordered info.desc (priv.indexTree.filter fun node => decide
        (IndexHolds (resetCursor lib priv info).opIndex node.value)) := by
  have hwindow : (resetCursor lib priv info).window info.desc = none := by
    cases hdesc : info.desc <;> rfl
  rw [later, if_neg (by simp [resetCursor]), filter_ordered, hwindow]
  simp only [after_none, true_and]

section

variable (indexed : Indexed lib priv) (have_ : priv.haveIndex = true)

include indexed have_

theorem Indexed.mem_node (member : event ∈ priv.eventList) :
    ∃ node ∈ priv.indexTree,
      node.value = lib.perfTpField event priv.indexField := by
  rw [← (indexed.perm have_).mem_iff, List.mem_flatMap] at member
  obtain ⟨node, hnode, hevent⟩ := member
  exact ⟨node, hnode, (indexed.keyed node hnode event hevent).symm⟩

theorem done_selected
    (hnone : later priv.indexTree info.desc (resetCursor lib priv info) = []) :
    Selected lib priv info none := by
  intro event member
  rw [Bool.eq_false_iff]
  intro hsatisfies
  have hholds := ((satisfies_iff lib priv info event).mp hsatisfies).2
  have hperm := indexed.nodes_perm have_ info.desc (IndexHolds (resetCursor lib priv info).opIndex)
  rw [← later_resetCursor, hnone, List.flatMap_nil, List.nil_perm, List.filter_eq_nil_iff] at hperm
  exact hperm event member (by simpa using hholds)

theorem whole_selected (unordered : info.orderBy = false)
    (hsplit : later priv.indexTree info.desc (resetCursor lib priv info) =
      ordered info.desc priv.indexTree ++ later priv.indexTree info.desc next) :
    Selected lib priv info (some (resetCursor lib priv info)) := by
  apply list_selected (fun _ => unordered)
  intro event member
  obtain ⟨node, hnode, hvalue⟩ := indexed.mem_node have_ member
  have hordered : node ∈ ordered info.desc priv.indexTree := by
    unfold ordered
    split
    · exact List.mem_reverse.mpr hnode
    · exact hnode
  have hlater := List.mem_append_left (later priv.indexTree info.desc next) hordered
  rw [← hsplit, later_resetCursor, ← filter_ordered, List.mem_filter, decide_eq_true_iff] at hlater
  exact hvalue ▸ hlater.2

theorem walk_selected {next : Cursor ε} {first last : Nat}
    (same : SameScan (resetCursor lib priv info) next)
    (walking : Walking priv.indexTree info.desc next first last)
    (hsplit : later priv.indexTree info.desc (resetCursor lib priv info) =
      ordered info.desc ((priv.indexTree.take (last + 1)).drop first) ++
        later priv.indexTree info.desc next) :
    Selected lib priv info
      (some (enterSegment priv.indexTree info.desc next)) := by
  obtain ⟨node, hnode, hsegment⟩ := ordered_segment info.desc walking.le walking.bound
  have hrest : (enterSegment priv.indexTree info.desc next).rest =
      node.eventList := by
    simp [enterSegment, walking.entry, hnode]
  have hahead : Ahead priv.indexTree info.desc (enterSegment priv.indexTree info.desc next)
      ((later priv.indexTree info.desc (resetCursor lib priv info)).flatMap
        IndexNode.eventList) := by
    rw [hsplit, hsegment, List.cons_append, List.flatMap_cons, ← hrest]
    exact .index rfl ⟨walking.leftmost, walking.rightmost, walking.le,
      walking.bound, walking.ready, walking.fixed⟩
  have hperm := indexed.nodes_perm have_ info.desc (IndexHolds (resetCursor lib priv info).opIndex)
  rw [later_resetCursor] at hahead
  refine ⟨⟨same.filterOps, same.opIndex⟩, _, hahead, ?_, ?_, ?_⟩
  · rw [hperm.length_eq]
    exact List.length_filter_le _ _
  · refine (hperm.filter _).trans ?_
    rw [List.filter_filter]
    have hsame : (fun event =>
        (enterSegment priv.indexTree info.desc next).passes lib event && decide (IndexHolds
          (resetCursor lib priv info).opIndex (lib.perfTpField event priv.indexField))) =
        satisfies lib info := by
      funext event
      rw [Bool.eq_iff_iff, satisfies_iff lib priv info event, Bool.and_eq_true, decide_eq_true_iff]
      rw [show (enterSegment priv.indexTree info.desc next).passes lib =
        (resetCursor lib priv info).passes lib from
          Cursor.passes_congr lib same.filterOps]
    rw [hsame]
  · intro _ _
    exact indexed.nodes_sorted info.desc _

end

theorem rbFirst_eq_some (found : rbFirst tree = some index) : index = 0 := by
  unfold rbFirst at found
  split at found
  · cases found
  · exact (Option.some.inj found).symm

theorem rbPrev_eq_some (found : rbPrev position = some index) :
    position = index + 1 := by
  cases position with
  | zero => cases found
  | succ position => exact congrArg Nat.succ (Option.some.inj found)

theorem perfTpDoFilter_spec (info : IndexInfo) (indexed : Indexed lib priv)
    (enough : 2 * (resetCursor lib priv info).opIndex.length + 3 < fuel) :
    ∃ outcome,
      perfTpDoFilter priv info fuel (resetCursor lib priv info) = some outcome ∧
      Selected lib priv info outcome := by
  unfold perfTpDoFilter
  split
  · rename_i hlist
    simp only [Bool.or_eq_true, Bool.not_eq_true', Bool.and_eq_true, List.isEmpty_iff] at hlist
    refine ⟨_, rfl, list_selected ?_ ?_⟩
    · intro have_
      rcases hlist with hnone | ⟨horder, _⟩
      · cases have_.symm.trans hnone
      · exact horder
    · intro event _ one member
      rcases hlist with hnone | ⟨_, hempty⟩
      · have hindex := ((mem_opIndex lib priv info one).mp member).2
        simp [isIndexOp, hnone] at hindex
      · rw [hempty] at member
        cases member
  · rename_i hindex
    simp only [Bool.or_eq_true, Bool.not_eq_true', not_or, Bool.not_eq_false] at hindex
    obtain ⟨result, next, hrun, hsame, hspec⟩ := perfTpDoIndex_spec indexed.sorted (fun _ =>
      resetCursor_query lib priv info) fuel (Nat.lt_of_le_of_lt (Cursor.work_le info.desc _) enough)
    rw [hrun]
    cases result with
    | done => exact ⟨none, rfl, done_selected indexed hindex.1 hspec⟩
    | allNode =>
      refine ⟨_, rfl, list_selected (fun _ => hspec.1) ?_⟩
      intro event _
      exact hspec.2.2.2 _
    | cont =>
      obtain ⟨first, last, walking, hsplit⟩ := hspec
      dsimp only
      split_ifs with hwhole
      · simp only [Bool.and_eq_true, Bool.not_eq_true', decide_eq_true_iff,
          walking.leftmost, walking.rightmost] at hwhole
        obtain ⟨⟨horder, hfirst⟩, hlast⟩ := hwhole
        have hstart : first = 0 := rbFirst_eq_some hfirst.symm
        have hend : priv.indexTree.length = last + 1 := rbPrev_eq_some hlast.symm
        rw [hstart, ← hend, List.take_length, List.drop_zero] at hsplit
        exact ⟨_, rfl, whole_selected indexed hindex.1 horder hsplit⟩
      · exact ⟨_, rfl, walk_selected indexed hindex.1 hsame walking hsplit⟩

def scanBound (lib : Library ε) (priv : TpPrivate ε) (info : IndexInfo) : Nat :=
  priv.eventList.length + 2 * (resetCursor lib priv info).opIndex.length + 5

theorem scan_spec (info : IndexInfo) (indexed : Indexed lib priv)
    (enough : scanBound lib priv info ≤ fuel) :
    ∃ visited, scan lib priv info fuel = some visited ∧
      visited.Perm (priv.eventList.filter (satisfies lib info)) ∧
      (priv.haveIndex = true →
        info.orderBy = true →
        visited.Pairwise fun first second =>
          ¬ dir info.desc (lib.perfTpField second priv.indexField)
            (lib.perfTpField first priv.indexField)) := by
  unfold scanBound at enough
  obtain ⟨outcome, hrun, hselected⟩ := perfTpDoFilter_spec info indexed (show _ < fuel by omega)
  cases outcome with
  | none =>
    obtain ⟨fuel, rfl⟩ : ∃ less, fuel = less + 1 := ⟨fuel - 1, by omega⟩
    refine ⟨[], ?_, ?_, fun _ _ => List.Pairwise.nil⟩
    · simp only [scan, perfTpXFilter, hrun, Option.bind_some]
      rfl
    · rw [List.filter_eq_nil_iff.mpr]
      intro event member
      simp [hselected event member]
  | some cursor =>
    obtain ⟨hops, events, hahead, hlength, hperm, horder⟩ := hselected
    refine ⟨_, ?_, hperm, fun have_ order => (horder have_ order).filter _⟩
    simp only [scan, perfTpXFilter, hrun]
    apply rows_spec lib indexed.sorted indexed.filled hahead
    rw [hops.opIndex]
    omega

theorem scan_list (info : IndexInfo) (indexed : Indexed lib priv)
    (hnone : priv.haveIndex = false) (enough : scanBound lib priv info ≤ fuel) :
    scan lib priv info fuel =
      some (priv.eventList.filter (satisfies lib info)) := by
  unfold scanBound at enough
  have hops : (resetCursor lib priv info).filterOps = info.opTable := by
    simp [resetCursor, isIndexOp, hnone]
  have hpasses : (resetCursor lib priv info).passes lib = satisfies lib info := by
    unfold Cursor.passes satisfies
    rw [hops]
  have hahead : Ahead priv.indexTree info.desc (resetCursor lib priv info)
      priv.eventList := .list rfl
  have hrows := rows_spec lib indexed.sorted indexed.filled hahead (Nat.lt_of_succ_le enough)
  rw [hpasses] at hrows
  simpa [scan, perfTpXFilter, perfTpDoFilter, hnone] using hrows

end Decide

/-- A scan through the index visits the stored events that satisfy all the
constraints, each of them once, as a scan of the list of all events does; if
the index is to serve `ORDER BY`, the keys come in that order. -/
theorem index_scan_visits_matching_events (lib : Library ε) (indexField : Nat)
    (events : List ε) (info : IndexInfo) :
    ∃ bound, ∀ fuel, bound ≤ fuel →
      ∃ visited,
        scan lib (TpPrivate.store lib true indexField events) info fuel =
          some visited ∧
        scan lib (TpPrivate.store lib false indexField events) info fuel =
          some (events.filter (satisfies lib info)) ∧
        visited.Perm (events.filter (satisfies lib info)) ∧
        (info.orderBy = true →
          visited.Pairwise fun first second => if info.desc then
            lib.perfTpField second indexField ≤ lib.perfTpField first indexField
          else
            lib.perfTpField first indexField ≤
              lib.perfTpField second indexField) := by
  obtain ⟨indexed, hhave, hfield, hlist⟩ := store_spec lib true indexField events
  obtain ⟨plain, hplain, _, hplainList⟩ := store_spec lib false indexField events
  refine ⟨max (scanBound lib (TpPrivate.store lib true indexField events) info)
    (scanBound lib (TpPrivate.store lib false indexField events) info), ?_⟩
  intro fuel enough
  obtain ⟨visited, hscan, hperm, horder⟩ :=
    scan_spec info indexed (le_trans (le_max_left _ _) enough)
  have hlisted := scan_list info plain hplain (le_trans (le_max_right _ _) enough)
  rw [hlist] at hperm
  rw [hplainList] at hlisted
  refine ⟨visited, hscan, hlisted, hperm, ?_⟩
  intro order
  rw [hfield] at horder
  refine (horder hhave order).imp ?_
  intro first second hdir
  cases hdesc : info.desc with
  | false => simpa [hdesc] using hdir
  | true => simpa [hdesc] using hdir

theorem valueSort_perm (ops : List OneOp) :
    (ops.insertionSort (·.value ≤ ·.value)).Perm ops :=
  List.perm_insertionSort _ ops

theorem valueSort_sorted (ops : List OneOp) :
    (ops.insertionSort (·.value ≤ ·.value)).Pairwise (·.value ≤ ·.value) :=
  List.pairwise_insertionSort (fun first second : OneOp => first.value ≤ second.value) ops

def numberLibrary : Library Int where
  perfTpField event _ := .int event
  strglob _ _ := false
  qsort := List.insertionSort (·.value ≤ ·.value)
  qsort_perm := valueSort_perm
  qsort_sorted := valueSort_sorted

example : scan numberLibrary (TpPrivate.store numberLibrary true 0 [5, 1, 7, 3, 5, 9])
      ⟨[⟨0, .ne, .int 5⟩, ⟨0, .gt, .int 1⟩], true, true⟩ 20 = some [9, 7, 3] := by
  decide +kernel

end PerfProf.Sql
