import PerfProf.Data.Transition
import PerfProf.TwoEvent.Call
import Mathlib.Algebra.BigOperators.Group.Finset.Piecewise

namespace PerfProf.TwoEvent

open Data Relation

universe u v

variable {α : Type u}

namespace CallClass

structure Linked (cls : CallClass α) : Prop where
  forest : IsForest cls.parent cls.callees
  closed : ∀ a b, cls.parent b = some a → a ∈ cls.nodes ∧ b ∈ cls.nodes
  roots : ∀ root ∈ cls.callerHead, root ∈ cls.nodes ∧ cls.parent root = none
  nodup : cls.callerHead.Nodup

def Deep (cls : CallClass α) : Prop :=
  ∀ a b, cls.parent b = some a → cls.depth b = cls.depth a + 1

def place : Option Nat → Nat
  | none => 0
  | some depth => depth + 1

structure Sound (cls : CallClass α) : Prop extends Linked cls where
  deep : cls.Deep

variable {cls : CallClass α}

section Iterate

variable {σ : Type v}

def order (cls : CallClass α) : Option (List α) :=
  walkAll (preorder cls.callees cls.nodes.card) cls.callerHead

theorem classIterate_eq (cls : CallClass α) (iterator : σ → α → σ) (state : σ) :
    cls.classIterate iterator state =
      cls.order.map (List.foldl iterator state) := by
  have hkept : ∀ (state : σ) (a : α), (fun _ => cls.callees) (iterator state a) = cls.callees :=
    fun _ _ => rfl
  exact foldlM_eq_walkAll hkept (fun below => preorder below cls.nodes.card)
    (traverse_eq hkept _) _ state

namespace Linked

section

variable (linked : cls.Linked)

include linked

variable {a b : α} {nodes : List α}

theorem exists_order (hnode : a ∈ cls.nodes) :
    ∃ order, preorder cls.callees cls.nodes.card a = some order :=
  linked.forest.exists_preorder
    (fun a b hb => (linked.closed a b (linked.forest.mem_children.mp hb)).2)
    hnode (height_le _ _ _)

theorem exists_order_roots : ∃ nodes, cls.order = some nodes :=
  exists_walkAll fun root hroot => linked.exists_order (linked.roots root hroot).1

theorem mem_order (horder : cls.order = some nodes) (b : α) :
    b ∈ nodes ↔
      ∃ root ∈ cls.callerHead, ReflTransGen (Up cls.parent) b root := by
  rw [mem_walkAll horder]
  refine exists_congr fun root => and_congr_right fun hroot => ?_
  obtain ⟨first, hfirst⟩ := walk_of_walkAll horder hroot
  constructor
  · rintro ⟨other, hother, hmem⟩
    exact (linked.forest.mem_preorder hother).mp hmem
  · intro hpath
    exact ⟨first, hfirst, (linked.forest.mem_preorder hfirst).mpr hpath⟩

theorem root_apart (ha : a ∈ cls.callerHead) (hne : a ≠ b) :
    ¬ ReflTransGen (Up cls.parent) a b := by
  intro hpath
  rcases ReflTransGen.cases_head hpath with heq | ⟨middle, hup, -⟩
  · exact hne heq
  · cases (linked.roots a ha).2.symm.trans hup

theorem nodup_order (horder : cls.order = some nodes) : nodes.Nodup := by
  refine nodup_walkAll horder (fun _ _ _ hfirst => linked.forest.nodup_preorder hfirst) ?_
  refine linked.nodup.imp_of_mem ?_
  intro a b ha hb hne first more hfirst hmore x hx hxmore
  exact IsForest.not_below_both (linked.root_apart ha hne) (linked.root_apart hb hne.symm)
    ((linked.forest.mem_preorder hfirst).mp hx) ((linked.forest.mem_preorder hmore).mp hxmore)

theorem parent_front {order front back : List α} {p : α}
    (horder : preorder cls.callees cls.nodes.card a = some order)
    (hsplit : order = front ++ b :: back) (hparent : cls.parent b = some p) :
    p ∉ b :: back := by
  have hnodup := linked.forest.nodup_preorder horder
  rw [hsplit] at hnodup
  intro hp
  rcases linked.forest.preorder_parent horder hsplit with rfl | ⟨q, hq, hup⟩
  · have hmem : p ∈ order := by
      rw [hsplit]
      exact List.mem_append_right _ hp
    exact linked.forest.acyclic b
      (TransGen.head' hparent ((linked.forest.mem_preorder horder).mp hmem))
  · cases hparent.symm.trans hup
    exact List.disjoint_of_nodup_append hnodup hq hp

theorem classPrint_eq : ∃ printed calls, cls.classPrint =
      some { cls with printed := printed, calls := calls } := by
  unfold classPrint
  split
  · exact ⟨cls.printed, cls.calls, rfl⟩
  · obtain ⟨nodes, horder⟩ := linked.exists_order_roots
    rw [classIterate_eq, horder]
    exact ⟨_, 0, rfl⟩

end

end Linked

end Iterate

section Kept

theorem sound_new (nodes : Finset α) : (new nodes).Sound where
  forest :=
    { mem_children := by simp [new]
      nodup := fun _ => List.nodup_nil
      acyclic := by
        intro a hcycle
        obtain ⟨b, hup, -⟩ := TransGen.head'_iff.mp hcycle
        cases hup }
  closed := nofun
  roots := nofun
  nodup := List.nodup_nil
  deep := nofun

theorem Sound.addRoot (sound : cls.Sound) (hnode : node ∈ cls.nodes)
    (hparent : cls.parent node = none) (hroot : node ∉ cls.callerHead) :
    { cls with callerHead := cls.callerHead ++ [node] }.Sound where
  forest := sound.forest
  closed := sound.closed
  roots := by
    intro root hmem
    rcases List.mem_append.mp hmem with hold | hnew
    · exact sound.roots root hold
    · cases List.mem_singleton.mp hnew
      exact ⟨hnode, hparent⟩
  nodup := by
    refine List.nodup_append'.mpr ⟨sound.nodup, List.nodup_singleton node, ?_⟩
    rwa [List.disjoint_singleton]
  deep := sound.deep

theorem Sound.counted (sound : cls.Sound) (recursive : α → Bool)
    (calls : BitVec 64) (printed : List (Line α)) :
    { cls with
      recursive := recursive, calls := calls, printed := printed }.Sound :=
  ⟨⟨sound.forest, sound.closed, sound.roots, sound.nodup⟩, sound.deep⟩

theorem Sound.classPrint (sound : cls.Sound) :
    ∃ next, cls.classPrint = some next ∧
      next.Sound ∧
      next.nodes = cls.nodes ∧
      next.parent = cls.parent := by
  obtain ⟨printed, calls, hprint⟩ := sound.classPrint_eq
  exact ⟨_, hprint, sound.counted _ calls printed, rfl, rfl⟩

end Kept

section Depth

variable [DecidableEq α]

theorem setDepth_eq (cls : CallClass α) (caller : α) :
    ∃ maxDepth,
      cls.setDepth caller = { cls with
        depth := settle cls.parent place cls.depth caller
        maxDepth := maxDepth } := by
  unfold setDepth settle
  cases cls.parent caller <;> exact ⟨_, rfl⟩

theorem foldl_setDepth (order : List α) (cls : CallClass α) :
    ∃ maxDepth,
      order.foldl setDepth cls = { cls with
        depth := order.foldl (settle cls.parent place) cls.depth
        maxDepth := maxDepth } := by
  induction order generalizing cls with
  | nil => exact ⟨cls.maxDepth, rfl⟩
  | cons a rest ih =>
    obtain ⟨maxDepth, hset⟩ := cls.setDepth_eq a
    obtain ⟨last, hrest⟩ := ih (cls.setDepth a)
    refine ⟨last, ?_⟩
    rw [List.foldl_cons, hrest, hset]
    rfl

namespace Linked

theorem updateDepth_eq {order : List α} {a : α}
    (horder : preorder cls.callees cls.nodes.card a = some order) :
    cls.updateDepth a = some (order.foldl setDepth cls) := by
  have hkept : ∀ (cls : CallClass α) (a : α),
      (cls.setDepth a).callees = cls.callees := fun _ _ => rfl
  rw [updateDepth, traverse_eq hkept, horder]
  rfl

theorem updateDepth_deep (linked : cls.Linked) {a : α} (hnode : a ∈ cls.nodes)
    (outside : ∀ p b, cls.parent b = some p →
      ¬ ReflTransGen (Up cls.parent) b a →
      cls.depth b = cls.depth p + 1) :
    ∃ depth maxDepth, cls.updateDepth a =
        some { cls with depth := depth, maxDepth := maxDepth } ∧
      ∀ p b, cls.parent b = some p → depth b = depth p + 1 := by
  obtain ⟨order, horder⟩ := linked.exists_order hnode
  obtain ⟨maxDepth, hfold⟩ := foldl_setDepth order cls
  have hmem : ∀ b, b ∈ order ↔ ReflTransGen (Up cls.parent) b a :=
    fun b => linked.forest.mem_preorder horder
  refine ⟨_, maxDepth, (updateDepth_eq horder).trans (congrArg some hfold), ?_⟩
  intro p b hparent
  by_cases hb : b ∈ order
  · rw [foldl_settle (linked.forest.nodup_preorder horder)
      (fun _ _ _ hsplit _ => linked.parent_front horder hsplit) hb, hparent]
    rfl
  · have hp : p ∉ order := by
      intro hp
      exact hb ((hmem b).mpr (((hmem p).mp hp).head hparent))
    rw [foldl_settle_of_not_mem hb, foldl_settle_of_not_mem hp]
    exact outside p b hparent fun hbelow => hb ((hmem b).mpr hbelow)

end Linked

end Depth

section Steps

variable [DecidableEq α]

theorem Linked.climb_eq (linked : cls.Linked) (callee : α)
    (hnode : caller ∈ cls.nodes)
    (hfuel : height (Up cls.parent) cls.nodes caller ≤ fuel) :
    ∃ found, cls.climb callee fuel (some caller) = some found ∧
      (found = true ↔ ReflTransGen (Up cls.parent) caller callee) := by
  induction fuel generalizing caller with
  | zero =>
    have hpos : 0 < height (Up cls.parent) cls.nodes caller := height_pos hnode
    omega
  | succ fuel ih =>
    rw [climb]
    by_cases hcallee : caller = callee
    · exact ⟨true, if_pos hcallee, by simp [hcallee, ReflTransGen.refl]⟩
    · rw [if_neg hcallee]
      cases hparent : cls.parent caller with
      | none =>
        refine ⟨false, by cases fuel <;> rfl, ?_⟩
        constructor
        · exact nofun
        · intro hpath
          rcases ReflTransGen.cases_head hpath with heq | ⟨_, hup, -⟩
          · exact absurd heq hcallee
          · cases hparent.symm.trans hup
      | some parent =>
        have hlt := height_lt linked.forest.acyclic hnode
          (show Up cls.parent caller parent from hparent)
        obtain ⟨found, hfound, hiff⟩ := ih (linked.closed parent caller hparent).1 (by omega)
        refine ⟨found, hfound, hiff.trans ?_⟩
        constructor
        · exact fun hpath => hpath.head hparent
        · intro hpath
          rcases ReflTransGen.cases_head hpath with heq | ⟨_, hup, hrest⟩
          · exact absurd heq hcallee
          · cases hparent.symm.trans hup
            exact hrest

theorem Linked.callRecursive_eq (linked : cls.Linked) (callee : α)
    (hnode : caller ∈ cls.nodes) :
    ∃ found, cls.callRecursive caller callee = some found ∧
      (found = true ↔ ReflTransGen (Up cls.parent) caller callee) :=
  linked.climb_eq callee hnode (height_le _ _ _)

theorem Linked.parent_of_unlinked (linked : cls.Linked)
    (hlinked : cls.linked node = false) : cls.parent node = none := by
  cases hparent : cls.parent node with
  | none => rfl
  | some parent =>
    have hnone := of_decide_eq_false hlinked
    exact absurd ⟨parent, (linked.closed parent node hparent).1,
      linked.forest.mem_children.mpr hparent⟩ hnone

theorem Sound.cut (sound : cls.Sound) (hnode : node ∈ cls.nodes) :
    ∃ next,
      ((cls.unlink node).setParent node none).updateDepth node = some next ∧
      next.Sound ∧
      next.nodes = cls.nodes ∧
      next.parent node = none := by
  have hparent : ∀ p b, Function.update cls.parent node none b = some p →
      cls.parent b = some p := fun _ _ => IsForest.up_cut
  have linked : ((cls.unlink node).setParent node none).Linked :=
    { forest := sound.forest.cut node
      closed := fun p b hb => sound.closed p b (hparent p b hb)
      roots := by
        intro root hroot
        refine ⟨(sound.roots root hroot).1, ?_⟩
        change Function.update cls.parent node none root = none
        rw [Function.update_apply]
        split
        · rfl
        · exact (sound.roots root hroot).2
      nodup := sound.nodup }
  obtain ⟨depth, maxDepth, hupdate, hdeep⟩ := linked.updateDepth_deep hnode
    fun p b hb _ => sound.deep p b (hparent p b hb)
  refine ⟨_, hupdate, ⟨⟨linked.forest, linked.closed, linked.roots, linked.nodup⟩, hdeep⟩, rfl, ?_⟩
  exact Function.update_self _ _ _

theorem Sound.detach (sound : cls.Sound) (hnode : caller ∈ cls.nodes) :
    ∃ next, cls.detach caller = some next ∧
      next.Sound ∧
      next.nodes = cls.nodes ∧
      next.parent caller = none := by
  unfold CallClass.detach
  split
  case isTrue =>
      obtain ⟨middle, hprint, hsound, hnodes, -⟩ := sound.classPrint
      rw [hprint, Option.bind_some, ← hnodes]
      exact hsound.cut (hnodes ▸ hnode)
  case isFalse hlinked =>
      exact ⟨cls, rfl, sound, rfl, sound.parent_of_unlinked (Bool.eq_false_iff.mpr hlinked)⟩

theorem Sound.linkRoot (sound : cls.Sound) (hnode : caller ∈ cls.nodes) :
    ∃ next, cls.linkRoot caller = some next ∧
      next.Sound ∧
      next.nodes = cls.nodes := by
  obtain ⟨middle, hmiddle, hsound, hnodes, hparent⟩ := sound.detach hnode
  rw [CallClass.linkRoot, hmiddle]
  refine ⟨_, rfl, ?_, ?_⟩
  · dsimp only
    split
    case isTrue => exact hsound.counted _ _ _
    case isFalse hroot => exact (hsound.addRoot (hnodes ▸ hnode) hparent hroot).counted _ _ _
  · dsimp only
    split <;> exact hnodes

variable {caller callee : α}

section

variable (sound : cls.Sound) (hcaller : caller ∈ cls.nodes)
  (hcallee : callee ∈ cls.nodes)

include sound hcaller hcallee

theorem Sound.graft (hfree : ¬ ReflTransGen (Up cls.parent) caller callee) :
    ∃ next, ({ cls.moveTail callee caller with
        callerHead := cls.callerHead.erase callee }.setParent callee
          (some caller)).updateDepth callee = some next ∧
      next.Sound ∧ next.nodes = cls.nodes := by
  set moved := { cls.moveTail callee caller with
    callerHead := cls.callerHead.erase callee }.setParent callee (some caller)
    with hmoved
  have hparents : moved.parent = Function.update cls.parent callee (some caller) := rfl
  have hforest : IsForest moved.parent moved.callees := by
    have hcut := sound.forest.cut callee
    have hgraft := hcut.graft (a := caller) (Function.update_self _ _ _) ?_
    · rw [Function.update_idem] at hgraft
      exact hgraft
    · intro hpath
      exact hfree (ReflTransGen.mono (fun _ _ => IsForest.up_cut) _ _ hpath)
  have linked : moved.Linked :=
    { forest := hforest
      closed := by
        intro p b hb
        rcases IsForest.up_graft hb with ⟨rfl, rfl⟩ | ⟨-, hold⟩
        · exact ⟨hcaller, hcallee⟩
        · exact sound.closed p b hold
      roots := by
        intro root hroot
        obtain ⟨hne, hold⟩ := (sound.nodup.mem_erase_iff).mp hroot
        refine ⟨(sound.roots root hold).1, ?_⟩
        rw [hparents, Function.update_of_ne hne]
        exact (sound.roots root hold).2
      nodup := sound.nodup.erase callee }
  obtain ⟨depth, maxDepth, hupdate, hdeep⟩ := linked.updateDepth_deep (a := callee) hcallee (by
      intro p b hb houtside
      rcases IsForest.up_graft hb with ⟨rfl, -⟩ | ⟨-, hold⟩
      · exact absurd ReflTransGen.refl houtside
      · exact sound.deep p b hold)
  exact ⟨_, hupdate, ⟨⟨linked.forest, linked.closed, linked.roots, linked.nodup⟩, hdeep⟩, rfl⟩

theorem Sound.adopt (hfree : ¬ ReflTransGen (Up cls.parent) caller callee) :
    ∃ next, cls.adopt caller callee = some next ∧
      next.Sound ∧
      next.nodes = cls.nodes := by
  unfold CallClass.adopt
  dsimp only
  split
  · obtain ⟨middle, hprint, hsound, hnodes, hparent⟩ := sound.classPrint
    rw [hprint, Option.bind_some, ← hnodes]
    exact hsound.graft (hnodes ▸ hcaller) (hnodes ▸ hcallee) (hparent ▸ hfree)
  · exact sound.graft hcaller hcallee hfree

theorem Sound.linkCallee :
    ∃ next, cls.linkCallee caller callee = some next ∧
      next.Sound ∧
      next.nodes = cls.nodes := by
  obtain ⟨recursive, hrecursive, hiff⟩ := sound.callRecursive_eq callee hcaller
  rw [CallClass.linkCallee, hrecursive, Option.bind_some]
  have hmarked := sound.counted
    (Function.update cls.recursive caller recursive) cls.calls cls.printed
  dsimp only
  split
  case isTrue hadopts =>
      have hfree : ¬ ReflTransGen (Up cls.parent) caller callee := by
        rw [← hiff, hadopts.2]
        exact nofun
      obtain ⟨next, hnext, hsound, hnodes⟩ := hmarked.adopt hcaller hcallee hfree
      rw [hnext]
      exact ⟨_, rfl, hsound.counted _ _ _, hnodes⟩
  case isFalse => exact ⟨_, rfl, hmarked.counted _ _ _, rfl⟩

end

theorem Sound.link (sound : cls.Sound) (tp1 : α) (tp2 : Option α) :
    ∃ next, cls.link tp1 tp2 = some next ∧
      next.1.Sound ∧
      next.1.nodes = cls.nodes := by
  unfold CallClass.link
  split
  case isFalse => exact ⟨_, rfl, sound, rfl⟩
  case isTrue hcaller =>
      cases tp2 with
      | none =>
        obtain ⟨next, hnext, hkept⟩ := sound.linkRoot hcaller
        rw [hnext]
        exact ⟨_, rfl, hkept⟩
      | some tp2 =>
        dsimp only
        split
        case isFalse => exact ⟨_, rfl, sound, rfl⟩
        case isTrue hcallee =>
            obtain ⟨next, hnext, hkept⟩ := sound.linkCallee hcaller hcallee
            rw [hnext]
            exact ⟨_, rfl, hkept⟩

theorem Sound.step (sound : cls.Sound) (call : Call α) :
    ∃ next,
      cls.step call = some next ∧ next.Sound ∧ next.nodes = cls.nodes := by
  cases call with
  | two tp1 tp2 =>
    obtain ⟨next, hnext, hkept⟩ := sound.link tp1 tp2
    exact ⟨next.1, by rw [CallClass.step, hnext]; rfl, hkept⟩
  | printHeader =>
    obtain ⟨next, hprint, hsound, hnodes, -⟩ := sound.classPrint
    exact ⟨next, hprint, hsound, hnodes⟩

theorem Sound.run (sound : cls.Sound) (calls : List (Call α)) :
    ∃ last, Data.run CallClass.step calls cls = some last ∧
      last.Sound ∧
      last.nodes = cls.nodes := by
  induction calls generalizing cls with
  | nil => exact ⟨cls, rfl, sound, rfl⟩
  | cons call rest ih =>
    obtain ⟨next, hnext, hsound, hnodes⟩ := sound.step call
    obtain ⟨last, hlast, hkept, hlastNodes⟩ := ih hsound
    exact ⟨last, run_cons.mpr ⟨next, hnext, hlast⟩, hkept, hlastNodes.trans hnodes⟩

end Steps

section Lists

variable [DecidableEq α]

theorem Linked.count_callees (linked : cls.Linked) {b : α} {parent : Option α}
    (hparent : cls.parent b = parent) (a : α) :
    (cls.callees a).count b = if parent = some a then 1 else 0 := by
  rw [(linked.forest.nodup a).count]
  exact if_congr (linked.forest.mem_children.trans (by rw [hparent])) rfl rfl

theorem Linked.count_le_one (linked : cls.Linked) (b : α) :
    cls.callerHead.count b +
      ∑ caller ∈ cls.nodes, (cls.callees caller).count b ≤ 1 := by
  cases hparent : cls.parent b with
  | none =>
    rw [Finset.sum_eq_zero fun a _ => linked.count_callees hparent a]
    exact List.nodup_iff_count_le_one.mp linked.nodup b
  | some parent =>
    have hroot : cls.callerHead.count b = 0 := by
      apply List.count_eq_zero_of_not_mem
      intro hroot
      cases (linked.roots b hroot).2.symm.trans hparent
    rw [hroot, Nat.zero_add, Finset.sum_congr rfl fun a _ => linked.count_callees hparent a]
    simp only [Option.some.injEq, Finset.sum_ite_eq]
    split <;> decide

end Lists

end CallClass

/-- Whatever is called, no node is above itself, every node is in one list at
most, a callee is one deeper than its caller, and both the iteration and an
update of depths, whatever the depths were, come to an end having visited every
node below where they started once. -/
theorem call_tree_kept [DecidableEq α] (nodes : Finset α)
    (calls : List (Call α)) :
    ∃ cls, run CallClass.step calls (CallClass.new nodes) = some cls ∧
      (∀ a, ¬ TransGen (Up cls.parent) a a) ∧
      (∀ b, cls.callerHead.count b +
        ∑ caller ∈ nodes, (cls.callees caller).count b ≤ 1) ∧
      (∀ a b, b ∈ cls.callees a →
        cls.parent b = some a ∧ cls.depth b = cls.depth a + 1) ∧
      (∃ order : List α, order.Nodup ∧
        (∀ b, b ∈ order ↔
            ∃ root ∈ cls.callerHead, ReflTransGen (Up cls.parent) b root) ∧
        ∀ (σ : Type v) (iterator : σ → α → σ) (state : σ),
          cls.classIterate iterator state = some (order.foldl iterator state)) ∧
      ∀ a ∈ nodes, ∃ order : List α, order.Nodup ∧
        (∀ b, b ∈ order ↔ ReflTransGen (Up cls.parent) b a) ∧
        ∀ (depth : α → Nat) (maxDepth : Nat), CallClass.updateDepth
          { cls with depth := depth, maxDepth := maxDepth } a =
          some (order.foldl CallClass.setDepth
            { cls with depth := depth, maxDepth := maxDepth }) := by
  obtain ⟨cls, hrun, hsound, hnodes⟩ := (CallClass.sound_new nodes).run calls
  have hnodes : cls.nodes = nodes := hnodes
  refine ⟨cls, hrun, hsound.forest.acyclic, ?_, ?_, ?_, ?_⟩
  · intro b
    rw [← hnodes]
    exact hsound.count_le_one b
  · intro a b hb
    have hparent := hsound.forest.mem_children.mp hb
    exact ⟨hparent, hsound.deep a b hparent⟩
  · obtain ⟨order, horder⟩ := hsound.exists_order_roots
    refine ⟨order, hsound.nodup_order horder, hsound.mem_order horder, ?_⟩
    intro σ iterator state
    rw [CallClass.classIterate_eq, horder]
    rfl
  · intro a hnode
    obtain ⟨order, horder⟩ := hsound.exists_order (hnodes ▸ hnode)
    refine ⟨order, hsound.forest.nodup_preorder horder,
      fun b => hsound.forest.mem_preorder horder, ?_⟩
    intro depth maxDepth
    exact CallClass.Linked.updateDepth_eq horder

end PerfProf.TwoEvent
