import Mathlib.Algebra.Order.Ring.Int
import Mathlib.Data.List.Basic

namespace PerfProf.Data

/-! Binary search trees whose nodes are found by a probe.  Balancing is any
rearrangement that keeps the order of the items. -/

universe u v

inductive SearchTree (δ : Type u) (α : Type v) where
  | leaf
  | node (mark : δ) (left : SearchTree δ α) (item : α) (right : SearchTree δ α)

namespace SearchTree

variable {δ : Type u} {α : Type v}

def toList : SearchTree δ α → List α
  | .leaf => []
  | .node _ left item right => left.toList ++ item :: right.toList

@[simp] theorem toList_leaf : (leaf : SearchTree δ α).toList = [] := rfl

@[simp] theorem toList_node (mark : δ) (left right : SearchTree δ α)
    (item : α) :
    (node mark left item right).toList = left.toList ++ item :: right.toList :=
  rfl

def find (probe : α → Ordering) : SearchTree δ α → Option α
  | .leaf => none
  | .node _ left item right =>
    match probe item with
    | .gt => left.find probe
    | .lt => right.find probe
    | .eq => some item

def update (probe : α → Ordering) (set : α → α) :
    SearchTree δ α → SearchTree δ α
  | .leaf => .leaf
  | .node mark left item right =>
    match probe item with
    | .gt => .node mark (left.update probe set) item right
    | .lt => .node mark left item (right.update probe set)
    | .eq => .node mark left (set item) right

def link (probe : α → Ordering) (fresh : δ) (new : α) :
    SearchTree δ α → SearchTree δ α
  | .leaf => .node fresh .leaf new .leaf
  | .node mark left item right =>
    match probe item with
    | .gt => .node mark (left.link probe fresh new) item right
    | .lt => .node mark left item (right.link probe fresh new)
    | .eq => .node mark left item right

def takeFirst : SearchTree δ α → Option (α × SearchTree δ α)
  | .leaf => none
  | .node mark left item right =>
    match left.takeFirst with
    | none => some (item, right)
    | some (first, left) => some (first, .node mark left item right)

def join (mark : δ) (left right : SearchTree δ α) : SearchTree δ α :=
  match right.takeFirst with
  | none => left
  | some (first, right) => .node mark left first right

def unlink (probe : α → Ordering) : SearchTree δ α → SearchTree δ α
  | .leaf => .leaf
  | .node mark left item right =>
    match probe item with
    | .gt => .node mark (left.unlink probe) item right
    | .lt => .node mark left item (right.unlink probe)
    | .eq => join mark left right

def remove (gone : α → Bool) : SearchTree δ α → SearchTree δ α
  | .leaf => .leaf
  | .node mark left item right =>
    if gone item then join mark (left.remove gone) (right.remove gone)
    else .node mark (left.remove gone) item (right.remove gone)

def map (set : α → α) : SearchTree δ α → SearchTree δ α
  | .leaf => .leaf
  | .node mark left item right => .node mark (left.map set) (set item) (right.map set)

def Guides (probe : α → Ordering) (items : List α) : Prop :=
  items.Pairwise fun first second =>
    (probe first = .gt → probe second = .gt) ∧
      (probe second = .lt → probe first = .lt)

theorem takeFirst_toList (tree : SearchTree δ α) :
    tree.toList =
      match tree.takeFirst with
      | none => []
      | some (first, rest) => first :: rest.toList := by
  induction tree with
  | leaf => rfl
  | node mark left item right inductionLeft _ =>
    rw [takeFirst, toList_node, inductionLeft]
    cases left.takeFirst with
    | none => rfl
    | some taken => rfl

theorem join_toList (mark : δ) (left right : SearchTree δ α) :
    (join mark left right).toList = left.toList ++ right.toList := by
  rw [takeFirst_toList right, join]
  cases right.takeFirst with
  | none => exact (List.append_nil _).symm
  | some taken => rfl

theorem remove_toList (gone : α → Bool) (tree : SearchTree δ α) :
    (tree.remove gone).toList = tree.toList.filter fun item => !gone item := by
  induction tree with
  | leaf => rfl
  | node mark left item right inductionLeft inductionRight =>
    rw [remove]
    cases hitem : gone item with
    | true =>
      rw [if_pos rfl, join_toList, inductionLeft, inductionRight]
      simp [hitem]
    | false => simp [inductionLeft, inductionRight, hitem]

theorem map_toList (set : α → α) (tree : SearchTree δ α) :
    (tree.map set).toList = tree.toList.map set := by
  induction tree with
  | leaf => rfl
  | node mark left item right inductionLeft inductionRight =>
    simp [map, inductionLeft, inductionRight]

variable {probe : α → Ordering} {tree : SearchTree δ α} {item : α}

theorem find_split (hfind : tree.find probe = some found) :
    probe found = .eq ∧ ∃ before after, tree.toList = before ++ found :: after ∧
      (∀ set, (tree.update probe set).toList = before ++ set found :: after) ∧
      (tree.unlink probe).toList = before ++ after := by
  induction tree with
  | leaf => cases hfind
  | node mark left item right inductionLeft inductionRight =>
    rw [find] at hfind
    cases hprobe : probe item with
    | gt =>
      rw [hprobe] at hfind
      obtain ⟨hitem, before, after, hlist, hset, hout⟩ :=
        inductionLeft hfind
      refine ⟨hitem, before, after ++ item :: right.toList, ?_, ?_, ?_⟩
      · simp [hlist]
      · intro set
        simp [update, hprobe, hset]
      · simp [unlink, hprobe, hout]
    | lt =>
      rw [hprobe] at hfind
      obtain ⟨hitem, before, after, hlist, hset, hout⟩ :=
        inductionRight hfind
      refine ⟨hitem, left.toList ++ item :: before, after, ?_, ?_, ?_⟩
      · simp [hlist]
      · intro set
        simp [update, hprobe, hset]
      · simp [unlink, hprobe, hout]
    | eq =>
      rw [hprobe] at hfind
      cases hfind
      refine ⟨hprobe, left.toList, right.toList, rfl, ?_, ?_⟩
      · intro set
        simp [update, hprobe]
      · simp only [unlink, hprobe]
        exact join_toList mark left right

theorem mem_of_find (hfind : tree.find probe = some found) :
    found ∈ tree.toList := by
  obtain ⟨_, before, after, hlist, _⟩ := find_split hfind
  simp [hlist]

theorem Guides.left {mark : δ} {left right : SearchTree δ α}
    (guides : Guides probe (node mark left item right).toList) :
    Guides probe left.toList :=
  (List.pairwise_append.mp guides).1

theorem Guides.right {mark : δ} {left right : SearchTree δ α}
    (guides : Guides probe (node mark left item right).toList) :
    Guides probe right.toList :=
  (List.pairwise_cons.mp (List.pairwise_append.mp guides).2.1).2

theorem find_none_split (guides : Guides probe tree.toList)
    (hfind : tree.find probe = none) :
    ∃ before after, tree.toList = before ++ after ∧
      (∀ item ∈ before, probe item = .lt) ∧
      (∀ item ∈ after, probe item = .gt) ∧
      ∀ fresh new, (tree.link probe fresh new).toList =
        before ++ new :: after := by
  induction tree with
  | leaf => exact ⟨[], [], rfl, by simp, by simp, fun _ _ => rfl⟩
  | node mark left item right inductionLeft inductionRight =>
    have hpairs := List.pairwise_append.mp guides
    rw [find] at hfind
    cases hprobe : probe item with
    | gt =>
      rw [hprobe] at hfind
      obtain ⟨before, after, hlist, hbelow, habove, hlink⟩ :=
        inductionLeft guides.left hfind
      refine ⟨before, after ++ item :: right.toList, ?_, hbelow, ?_, ?_⟩
      · simp [hlist]
      · intro other hother
        rcases List.mem_append.mp hother with hold | hnew
        · exact habove other hold
        rcases List.mem_cons.mp hnew with rfl | hright
        · exact hprobe
        exact ((List.pairwise_cons.mp hpairs.2.1).1 other hright).1 hprobe
      · intro fresh new
        simp [link, hprobe, hlink]
    | lt =>
      rw [hprobe] at hfind
      obtain ⟨before, after, hlist, hbelow, habove, hlink⟩ :=
        inductionRight guides.right hfind
      refine ⟨left.toList ++ item :: before, after, ?_, ?_, habove, ?_⟩
      · simp [hlist]
      · intro other hother
        rcases List.mem_append.mp hother with hleft | hnew
        · exact (hpairs.2.2 other hleft item List.mem_cons_self).2 hprobe
        rcases List.mem_cons.mp hnew with rfl | hold
        · exact hprobe
        exact hbelow other hold
      · intro fresh new
        simp [link, hprobe, hlink]
    | eq =>
      rw [hprobe] at hfind
      cases hfind

theorem find_of_mem (guides : Guides probe tree.toList)
    (hmem : item ∈ tree.toList) (hprobe : probe item = .eq) :
    ∃ found, tree.find probe = some found := by
  cases hfind : tree.find probe with
  | some found => exact ⟨found, rfl⟩
  | none =>
    obtain ⟨before, after, hlist, hbelow, habove, _⟩ :=
      find_none_split guides hfind
    rw [hlist] at hmem
    rcases List.mem_append.mp hmem with hbefore | hafter
    · rw [hbelow item hbefore] at hprobe
      cases hprobe
    · rw [habove item hafter] at hprobe
      cases hprobe

theorem pairwise_around {R : α → α → Prop} :
    (before ++ item :: after).Pairwise R ↔
      (before ++ after).Pairwise R ∧
      (∀ other ∈ before, R other item) ∧
      ∀ other ∈ after, R item other := by
  simp only [List.pairwise_append, List.pairwise_cons, List.mem_cons]
  constructor
  · rintro ⟨hbefore, ⟨hitem, hafter⟩, hcross⟩
    exact ⟨⟨hbefore, hafter, fun first hfirst second hsecond =>
      hcross first hfirst second (.inr hsecond)⟩,
      fun other hother => hcross other hother item (.inl rfl), hitem⟩
  · rintro ⟨⟨hbefore, hafter, hcross⟩, hleft, hright⟩
    refine ⟨hbefore, ⟨hright, hafter⟩, ?_⟩
    rintro first hfirst second (rfl | hsecond)
    · exact hleft first hfirst
    · exact hcross first hfirst second hsecond

/-- How the tree is rearranged after a change: `settle` sees the tree before the
change and after it. -/
structure Balance (δ : Type u) (α : Type v) where
  fresh : δ
  settle : SearchTree δ α → SearchTree δ α → SearchTree δ α
  settle_toList : ∀ before after, (settle before after).toList = after.toList

attribute [simp] Balance.settle_toList

def Balance.plain (α : Type v) : Balance Unit α where
  fresh := ()
  settle := fun _ after => after
  settle_toList := fun _ _ => rfl

end SearchTree

end PerfProf.Data
