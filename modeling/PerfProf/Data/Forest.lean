import Mathlib.Algebra.Order.Ring.Int
import Mathlib.Data.Finset.Card

namespace PerfProf.Data

universe u v

open Relation

section Height

variable {α : Type u} {step : α → α → Prop} {nodes : Finset α}

open Classical in
noncomputable def height (step : α → α → Prop) (nodes : Finset α) (a : α) :
    Nat :=
  (nodes.filter (ReflTransGen step a)).card

theorem height_le (step : α → α → Prop) (nodes : Finset α) (a : α) :
    height step nodes a ≤ nodes.card := by
  classical
  exact Finset.card_filter_le _ _

theorem height_pos (hnode : a ∈ nodes) : 0 < height step nodes a := by
  classical
  apply Finset.card_pos.mpr
  exact ⟨a, Finset.mem_filter.mpr ⟨hnode, ReflTransGen.refl⟩⟩

theorem height_lt (acyclic : ∀ a, ¬ TransGen step a a) (hnode : a ∈ nodes)
    (hstep : step a b) : height step nodes b < height step nodes a := by
  classical
  apply Finset.card_lt_card
  refine ⟨?_, ?_⟩
  · intro c hc
    obtain ⟨hnodes, hpath⟩ := Finset.mem_filter.mp hc
    exact Finset.mem_filter.mpr ⟨hnodes, hpath.head hstep⟩
  · intro hsub
    have hback := (Finset.mem_filter.mp (hsub (Finset.mem_filter.mpr ⟨hnode, ReflTransGen.refl⟩))).2
    exact acyclic a (TransGen.head' hstep hback)

end Height

section Walk

variable {α : Type u} {σ : Type v}

/-- Visit a node, then what is below each of its children. -/
def traverse (children : σ → α → List α) (visit : σ → α → σ) :
    Nat → σ → α → Option σ
  | 0, _, _ => none
  | fuel + 1, state, a =>
    (children (visit state a) a).foldlM (traverse children visit fuel) (visit state a)

def walkAll (walk : α → Option (List α)) : List α → Option (List α)
  | [] => some []
  | a :: rest =>
    match walk a, walkAll walk rest with
    | some first, some more => some (first ++ more)
    | _, _ => none

def preorder (children : α → List α) : Nat → α → Option (List α)
  | 0, _ => none
  | fuel + 1, a => (walkAll (preorder children fuel) (children a)).map (a :: ·)

variable {walk : α → Option (List α)}

variable {order : List α} {a b : α}

theorem walkAll_cons :
    walkAll walk (a :: rest) = some order ↔
      ∃ first more, walk a = some first ∧
        walkAll walk rest = some more ∧
        first ++ more = order := by
  rw [walkAll]
  cases walk a <;> cases walkAll walk rest <;> simp

theorem exists_walkAll (walks : ∀ a ∈ nodes, ∃ order, walk a = some order) :
    ∃ order, walkAll walk nodes = some order := by
  induction nodes with
  | nil => exact ⟨[], rfl⟩
  | cons a rest ih =>
    obtain ⟨first, hfirst⟩ := walks a List.mem_cons_self
    obtain ⟨more, hmore⟩ := ih fun b hb => walks b (List.mem_cons_of_mem _ hb)
    exact ⟨first ++ more, walkAll_cons.mpr ⟨first, more, hfirst, hmore, rfl⟩⟩

section

variable {nodes order : List α} (hwalk : walkAll walk nodes = some order)

include hwalk

theorem mem_walkAll :
    b ∈ order ↔ ∃ a ∈ nodes, ∃ first, walk a = some first ∧ b ∈ first := by
  induction nodes generalizing order with
  | nil =>
    cases hwalk
    simp
  | cons a rest ih =>
    obtain ⟨first, more, hfirst, hmore, rfl⟩ := walkAll_cons.mp hwalk
    rw [List.mem_append, ih hmore]
    simp [hfirst]

theorem walk_of_walkAll (hnode : a ∈ nodes) : ∃ first, walk a = some first := by
  induction nodes generalizing order with
  | nil => cases hnode
  | cons b rest ih =>
    obtain ⟨first, more, hfirst, hmore, rfl⟩ := walkAll_cons.mp hwalk
    rcases List.mem_cons.mp hnode with rfl | hrest
    · exact ⟨first, hfirst⟩
    · exact ih hmore hrest

theorem nodup_walkAll
    (once : ∀ a ∈ nodes, ∀ first, walk a = some first → first.Nodup)
    (apart : nodes.Pairwise fun a b => ∀ first more,
      walk a = some first → walk b = some more → first.Disjoint more) :
    order.Nodup := by
  induction nodes generalizing order with
  | nil =>
    cases hwalk
    exact List.nodup_nil
  | cons a rest ih =>
    obtain ⟨first, more, hfirst, hmore, rfl⟩ := walkAll_cons.mp hwalk
    obtain ⟨hapart, hrest⟩ := List.pairwise_cons.mp apart
    have hnodup := ih hmore (fun b hb => once b (List.mem_cons_of_mem _ hb)) hrest
    refine List.nodup_append'.mpr ⟨once a List.mem_cons_self first hfirst, hnodup, ?_⟩
    intro x hx hxmore
    obtain ⟨b, hb, other, hother, hxother⟩ := (mem_walkAll hmore).mp hxmore
    exact hapart b hb first other hfirst hother hx hxother

theorem walkAll_front (Front : α → List α → Prop)
    (grows : ∀ b some more, Front b some → Front b (more ++ some))
    (fronts : ∀ a ∈ nodes, ∀ first, walk a = some first →
      ∀ front b back, first = front ++ b :: back → Front b front)
    (horder : order = front ++ b :: back) : Front b front := by
  induction nodes generalizing order front with
  | nil =>
    cases hwalk
    cases front <;> cases horder
  | cons a rest ih =>
    obtain ⟨first, more, hfirst, hmore, rfl⟩ := walkAll_cons.mp hwalk
    have hrest := fun b hb => fronts b (List.mem_cons_of_mem a hb)
    rcases List.append_eq_append_iff.mp horder with
      ⟨middle, rfl, htail⟩ | ⟨middle, hhead, htail⟩
    · exact grows _ _ _ (ih hmore hrest htail)
    · cases middle with
      | nil =>
        rw [List.append_nil] at hhead
        subst hhead
        have hfront : Front b [] := ih hmore hrest htail.symm
        simpa using grows _ _ first hfront
      | cons c middle =>
        cases htail
        exact fronts a List.mem_cons_self first hfirst _ _ _ hhead

end

theorem preorder_succ {children : α → List α} :
    preorder children (fuel + 1) a = some order ↔
      ∃ below, walkAll (preorder children fuel) (children a) = some below ∧
        a :: below = order :=
  Option.map_eq_some_iff

section Traverse

variable {children : σ → α → List α} {visit : σ → α → σ}

variable (kept : ∀ state a, children (visit state a) = children state)

include kept

theorem children_foldl (order : List α) (state : σ) :
    children (order.foldl visit state) = children state := by
  induction order generalizing state with
  | nil => rfl
  | cons a rest ih => exact (ih _).trans (kept state a)

theorem foldlM_eq_walkAll {go : σ → α → Option σ}
    (walk : (α → List α) → α → Option (List α))
    (goes : ∀ state a,
      go state a = (walk (children state) a).map (List.foldl visit state))
    (nodes : List α) (state : σ) :
    nodes.foldlM go state =
      (walkAll (walk (children state)) nodes).map (List.foldl visit state) := by
  induction nodes generalizing state with
  | nil => rfl
  | cons a rest ih =>
    rw [List.foldlM_cons, goes, walkAll]
    cases walk (children state) a with
    | none => rfl
    | some first =>
      simp only [Option.map_some, Option.bind_eq_bind, Option.bind_some, ih, children_foldl kept]
      cases walkAll (walk (children state)) rest with
      | none => rfl
      | some more => simp

theorem traverse_eq (fuel : Nat) (state : σ) (a : α) :
    traverse children visit fuel state a =
      (preorder (children state) fuel a).map (List.foldl visit state) := by
  induction fuel generalizing state a with
  | zero => rfl
  | succ fuel ih =>
    have hbelow := foldlM_eq_walkAll kept (fun below => preorder below fuel) ih
    rw [traverse, hbelow, kept, preorder]
    cases walkAll (preorder (children state) fuel) (children state a) <;> rfl

end Traverse

end Walk

def Up {α : Type u} (parent : α → Option α) (b a : α) : Prop :=
  parent b = some a

structure IsForest {α : Type u} (parent : α → Option α)
    (children : α → List α) : Prop where
  mem_children : ∀ {a b}, b ∈ children a ↔ parent b = some a
  nodup : ∀ a, (children a).Nodup
  acyclic : ∀ a, ¬ TransGen (Up parent) a a

namespace IsForest

variable {α : Type u} {parent : α → Option α} {children : α → List α}
  {nodes : Finset α}

theorem up_unique (parent : α → Option α) :
    Relator.RightUnique (Up parent) := by
  intro a b c hb hc
  exact Option.some.inj (hb.symm.trans hc)

variable {a b : α} {order : List α}

theorem below_iff (forest : IsForest parent children) :
    ReflTransGen (Up parent) b a ↔
      b = a ∨ ∃ child ∈ children a, ReflTransGen (Up parent) b child := by
  rw [ReflTransGen.cases_tail_iff]
  constructor
  · rintro (rfl | ⟨child, hpath, hup⟩)
    · exact Or.inl rfl
    · exact Or.inr ⟨child, forest.mem_children.mpr hup, hpath⟩
  · rintro (rfl | ⟨child, hchild, hpath⟩)
    · exact Or.inl rfl
    · exact Or.inr ⟨child, hpath, forest.mem_children.mp hchild⟩

variable {fuel : Nat}

theorem mem_preorder (forest : IsForest parent children)
    (horder : preorder children fuel a = some order) :
    b ∈ order ↔ ReflTransGen (Up parent) b a := by
  induction fuel generalizing a b order with
  | zero => cases horder
  | succ fuel ih =>
    obtain ⟨below, hbelow, rfl⟩ := preorder_succ.mp horder
    rw [List.mem_cons, mem_walkAll hbelow, forest.below_iff]
    refine or_congr_right (exists_congr fun child => and_congr_right ?_)
    intro hchild
    obtain ⟨first, hfirst⟩ := walk_of_walkAll hbelow hchild
    constructor
    · rintro ⟨first, hfirst, hmem⟩
      exact (ih hfirst).mp hmem
    · intro hpath
      exact ⟨first, hfirst, (ih hfirst).mpr hpath⟩

theorem not_below_both (hab : ¬ ReflTransGen (Up parent) a b)
    (hba : ¬ ReflTransGen (Up parent) b a) (ha : ReflTransGen (Up parent) x a) :
    ¬ ReflTransGen (Up parent) x b := by
  intro hb
  rcases ReflTransGen.total_of_right_unique (up_unique parent) ha hb with
    hpath | hpath
  · exact hab hpath
  · exact hba hpath

theorem siblings_apart (forest : IsForest parent children) (hb : b ∈ children a)
    (hc : c ∈ children a) (hne : b ≠ c) : ¬ ReflTransGen (Up parent) b c := by
  intro hpath
  have hbup : Up parent b a := forest.mem_children.mp hb
  have hcup : Up parent c a := forest.mem_children.mp hc
  rcases ReflTransGen.cases_head hpath with heq | ⟨middle, hup, hrest⟩
  · exact hne heq
  · cases up_unique parent hbup hup
    exact forest.acyclic c (TransGen.head' hcup hrest)

theorem nodup_preorder (forest : IsForest parent children)
    (horder : preorder children fuel a = some order) : order.Nodup := by
  induction fuel generalizing a order with
  | zero => cases horder
  | succ fuel ih =>
    obtain ⟨below, hbelow, rfl⟩ := preorder_succ.mp horder
    refine List.nodup_cons.mpr ⟨?_, nodup_walkAll hbelow ?_ ?_⟩
    · intro hmem
      obtain ⟨child, hchild, first, hfirst, ha⟩ := (mem_walkAll hbelow).mp hmem
      have hup : Up parent child a := forest.mem_children.mp hchild
      exact forest.acyclic a (TransGen.tail' ((forest.mem_preorder hfirst).mp ha) hup)
    · exact fun child _ first hfirst => ih hfirst
    · refine (List.pairwise_iff_forall_sublist.mpr ?_)
      intro b c hsub first more hfirst hmore x hx hxmore
      have hb := hsub.subset List.mem_cons_self
      have hc := hsub.subset (List.mem_cons_of_mem _ List.mem_cons_self)
      have hne : b ≠ c := by
        have hpair := (forest.nodup a).sublist hsub
        simpa using hpair
      exact not_below_both (forest.siblings_apart hb hc hne) (forest.siblings_apart hc hb hne.symm)
        ((forest.mem_preorder hfirst).mp hx) ((forest.mem_preorder hmore).mp hxmore)

theorem exists_preorder (forest : IsForest parent children)
    (closed : ∀ a b, b ∈ children a → b ∈ nodes) (hnode : a ∈ nodes)
    (hfuel : height (Function.swap (Up parent)) nodes a ≤ fuel) :
    ∃ order, preorder children fuel a = some order := by
  induction fuel generalizing a with
  | zero =>
    have hpos : 0 < height (Function.swap (Up parent)) nodes a := height_pos hnode
    omega
  | succ fuel ih =>
    have hchildren : ∀ child ∈ children a, ∃ order, preorder children fuel child = some order := by
      intro child hchild
      have hstep : Function.swap (Up parent) a child := forest.mem_children.mp hchild
      have hlt := height_lt (fun a hcycle => forest.acyclic a (transGen_swap.mp hcycle)) hnode hstep
      exact ih (closed a child hchild) (by omega)
    obtain ⟨below, hbelow⟩ := exists_walkAll hchildren
    exact ⟨a :: below, preorder_succ.mpr ⟨below, hbelow, rfl⟩⟩

theorem preorder_parent (forest : IsForest parent children)
    (horder : preorder children fuel a = some order)
    (hsplit : order = front ++ b :: back) :
    b = a ∨ ∃ p ∈ front, parent b = some p := by
  induction fuel generalizing a b order front back with
  | zero => cases horder
  | succ fuel ih =>
    obtain ⟨below, hbelow, rfl⟩ := preorder_succ.mp horder
    cases front with
    | nil =>
      cases hsplit
      exact Or.inl rfl
    | cons c front =>
      cases hsplit
      have hfront := walkAll_front hbelow (fun b front =>
        parent b = some a ∨ ∃ p ∈ front, parent b = some p) ?_ ?_ rfl
      · rcases hfront with hroot | ⟨p, hp, hparent⟩
        · exact Or.inr ⟨a, List.mem_cons_self, hroot⟩
        · exact Or.inr ⟨p, List.mem_cons_of_mem _ hp, hparent⟩
      · rintro b some more (hroot | ⟨p, hp, hparent⟩)
        · exact Or.inl hroot
        · exact Or.inr ⟨p, List.mem_append_right _ hp, hparent⟩
      · intro child hchild first hfirst front b back hfirstSplit
        rcases ih hfirst hfirstSplit with rfl | hparent
        · exact Or.inl (forest.mem_children.mp hchild)
        · exact Or.inr hparent

section Relink

variable [DecidableEq α]

variable {b x a y : α}

theorem up_cut (hup : Up (Function.update parent b none) x y) :
    Up parent x y := by
  unfold Up at hup
  by_cases hx : x = b
  · subst hx
    rw [Function.update_self] at hup
    cases hup
  · rwa [Function.update_of_ne hx] at hup

theorem cut (forest : IsForest parent children) (b : α) :
    IsForest (Function.update parent b none)
      (fun a => (children a).erase b) where
  mem_children := by
    intro a c
    rw [(forest.nodup a).mem_erase_iff, forest.mem_children]
    by_cases hc : c = b
    · simp [hc]
    · simp [hc]
  nodup := fun a => (forest.nodup a).erase b
  acyclic := by
    intro a hcycle
    exact forest.acyclic a (TransGen.mono (fun _ _ => up_cut) a a hcycle)

theorem up_graft (hup : Up (Function.update parent b (some a)) x y) :
    x = b ∧ y = a ∨ x ≠ b ∧ Up parent x y := by
  unfold Up at hup
  by_cases hx : x = b
  · subst hx
    rw [Function.update_self] at hup
    exact Or.inl ⟨rfl, (Option.some.inj hup).symm⟩
  · rw [Function.update_of_ne hx] at hup
    exact Or.inr ⟨hx, hup⟩

theorem up_to_graft
    (hpath : ReflTransGen (Up (Function.update parent b (some a))) x b) :
    ReflTransGen (Up parent) x b := by
  induction hpath using ReflTransGen.head_induction_on with
  | refl => exact ReflTransGen.refl
  | head hup _ ih =>
    rcases up_graft hup with ⟨rfl, -⟩ | ⟨-, hold⟩
    · exact ReflTransGen.refl
    · exact ih.head hold

theorem graft_passes
    (hpath : TransGen (Up (Function.update parent b (some a))) x y) :
    TransGen (Up parent) x y ∨
    ReflTransGen (Up (Function.update parent b (some a))) x b ∧
      ReflTransGen (Up (Function.update parent b (some a))) a y := by
  induction hpath with
  | single hup =>
    rcases up_graft hup with ⟨rfl, rfl⟩ | ⟨-, hold⟩
    · exact Or.inr ⟨ReflTransGen.refl, ReflTransGen.refl⟩
    · exact Or.inl (TransGen.single hold)
  | tail hpath hup ih =>
    rcases ih with hold | ⟨hfirst, hsecond⟩
    · rcases up_graft hup with ⟨rfl, rfl⟩ | ⟨-, hstep⟩
      · exact Or.inr ⟨hpath.to_reflTransGen, ReflTransGen.refl⟩
      · exact Or.inl (hold.tail hstep)
    · exact Or.inr ⟨hfirst, hsecond.tail hup⟩

theorem graft (forest : IsForest parent children) (hroot : parent b = none)
    (hfree : ¬ ReflTransGen (Up parent) a b) :
    IsForest (Function.update parent b (some a))
      (Function.update children a (children a ++ [b])) where
  mem_children := by
    intro c d
    have hchildren : ∀ c, b ∉ children c := by
      intro c hmem
      rw [forest.mem_children, hroot] at hmem
      cases hmem
    by_cases hc : c = a
    · subst hc
      by_cases hd : d = b
      · simp [hd]
      · simp [hd, forest.mem_children]
    · by_cases hd : d = b
      · subst hd
        simp [Function.update_of_ne hc, hchildren, Ne.symm hc]
      · simp [Function.update_of_ne hc, hd, forest.mem_children]
  nodup := by
    intro c
    by_cases hc : c = a
    · subst hc
      rw [Function.update_self]
      refine List.nodup_append'.mpr ⟨forest.nodup c, List.nodup_singleton b, ?_⟩
      rw [List.disjoint_singleton, forest.mem_children, hroot]
      exact nofun
    · rw [Function.update_of_ne hc]
      exact forest.nodup c
  acyclic := by
    intro x hcycle
    rcases graft_passes hcycle with hold | ⟨hfirst, hsecond⟩
    · exact forest.acyclic x hold
    · exact hfree (up_to_graft (hsecond.trans hfirst))

end Relink

end IsForest

section Settle

variable {α : Type u} [DecidableEq α] {β : Type v} {parent : α → Option α}
  {place : Option β → β}

def settle (parent : α → Option α) (place : Option β → β) (value : α → β)
    (a : α) : α → β :=
  Function.update value a (place ((parent a).map value))

variable {order : List α} {value : α → β}

theorem foldl_settle_of_not_mem (hx : x ∉ order) :
    order.foldl (settle parent place) value x = value x := by
  induction order generalizing value with
  | nil => rfl
  | cons a rest ih =>
    rw [List.foldl_cons, ih (fun hmem => hx (List.mem_cons_of_mem _ hmem))]
    refine Function.update_of_ne ?_ _ _
    rintro rfl
    exact hx List.mem_cons_self

theorem foldl_settle (once : order.Nodup)
    (parents : ∀ front b back, order = front ++ b :: back →
      ∀ p, parent b = some p → p ∉ b :: back)
    (hb : b ∈ order) :
    order.foldl (settle parent place) value b =
      place ((parent b).map (order.foldl (settle parent place) value)) := by
  obtain ⟨front, back, rfl⟩ := List.append_of_mem hb
  have hback : b ∉ back := (List.nodup_cons.mp once.of_append_right).1
  rw [List.foldl_append, List.foldl_cons, foldl_settle_of_not_mem hback]
  rw [settle, Function.update_self]
  cases hparent : parent b with
  | none => rfl
  | some p =>
    have hp := parents front b back rfl p hparent
    rw [List.mem_cons, not_or] at hp
    rw [Option.map_some, Option.map_some, foldl_settle_of_not_mem hp.2, Function.update_of_ne hp.1]

end Settle

end PerfProf.Data
