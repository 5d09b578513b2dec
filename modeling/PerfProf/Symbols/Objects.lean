import Mathlib.Data.Prod.Lex
import Mathlib.Data.BitVec
import Mathlib.Order.WellFounded
import PerfProf.Sql.Value

namespace PerfProf.Symbols

open PerfProf.Sql (strcmp strcmp_compares Value)

/-- A comparison that orders the keys, equal ones being the same. -/
structure Orders {α : Type} (cmp : α → α → Ordering) (keys : Set α) : Prop where
  identity : ∀ a ∈ keys, ∀ b ∈ keys, cmp a b = .eq ↔ a = b
  swap : ∀ a ∈ keys, ∀ b ∈ keys, cmp b a = (cmp a b).swap
  trans : ∀ a ∈ keys, ∀ b ∈ keys, ∀ c ∈ keys, cmp a b = .lt → cmp b c = .lt → cmp a c = .lt

theorem Orders.of_compares {α β : Type} [LinearOrder β] {cmp : α → α → Ordering}
    {keys : Set α} (place : α → β) (apart : Set.InjOn place keys)
    (hcmp : ∀ a ∈ keys, ∀ b ∈ keys, (cmp a b).Compares (place a) (place b)) :
    Orders cmp keys where
  identity := fun a ha b hb => (hcmp a ha b hb).eq_eq.trans (apart.eq_iff ha hb)
  swap := fun a ha b hb => (hcmp b hb a ha).inj (Ordering.compares_swap.mpr (hcmp a ha b hb))
  trans := fun a ha b hb c hc hab hbc =>
    (hcmp a ha c hc).eq_lt.mpr
      (((hcmp a ha b hb).eq_lt.mp hab).trans ((hcmp b hb c hc).eq_lt.mp hbc))

structure ObjectKey where
  mnt : BitVec 64
  name : List Nat
  deriving DecidableEq

/-- The difference of the pointers is returned as an `int`. -/
def objectNodeCmp (obj tmp : ObjectKey) : Ordering :=
  if obj.mnt = tmp.mnt then strcmp obj.name tmp.name
  else compare ((obj.mnt - tmp.mnt).setWidth 32).toInt 0

/-- `memcmp(obj->buildid, tmp->buildid, tmp->buildid_sz)`, with the memory
behind a build id. -/
def buildidNodeCmp (behind : List Nat → List Nat) (obj tmp : List Nat) :
    Ordering :=
  strcmp ((obj ++ behind obj).take tmp.length) tmp

def window (base mnt : BitVec 64) : Nat := ((mnt - base).setWidth 32).toNat

def Near (mounts : Set (BitVec 64)) : Prop :=
  ∃ base, (∀ mnt ∈ mounts, window base mnt < 2 ^ 31) ∧ Set.InjOn (window base) mounts

def PrefixFree (ids : Set (List Nat)) : Prop :=
  ∀ a ∈ ids, ∀ b ∈ ids, a <+: b → a = b

theorem toInt_sub_window (base a b : BitVec 64) (ha : window base a < 2 ^ 31)
    (hb : window base b < 2 ^ 31) :
    ((a - b).setWidth 32).toInt = window base a - window base b := by
  have hsub : (a - b).setWidth 32 = (a - base).setWidth 32 - (b - base).setWidth 32 := by bv_omega
  rw [hsub, BitVec.toInt_sub]
  unfold window at *
  rw [BitVec.toInt_eq_toNat_of_lt (by omega), BitVec.toInt_eq_toNat_of_lt (by omega)]
  exact Int.bmod_eq_of_le (by omega) (by omega)

theorem objectNodeCmp_orders {mounts : Set (BitVec 64)} (near : Near mounts) :
    Orders objectNodeCmp {key | key.mnt ∈ mounts} := by
  obtain ⟨base, hwindow, apart⟩ := near
  refine .of_compares (fun key => toLex (window base key.mnt, Value.text key.name)) ?_ ?_
  · rintro ⟨mnt, name⟩ hmnt ⟨other, text⟩ hother hsame
    obtain ⟨hplace, hname⟩ := Prod.mk.inj (toLex.injective hsame)
    cases apart hmnt hother hplace
    cases hname
    rfl
  · intro a ha b hb
    unfold objectNodeCmp
    split
    · rename_i hsame
      have hnames := strcmp_compares a.name b.name
      rw [hsame]
      cases horder : strcmp a.name b.name with
      | lt => exact Prod.Lex.right _ (hnames.eq_lt.mp horder)
      | eq => rw [hnames.eq_eq.mp horder]; rfl
      | gt => exact Prod.Lex.right _ (hnames.eq_gt.mp horder)
    · rename_i hother
      rw [toInt_sub_window base _ _ (hwindow _ ha) (hwindow _ hb)]
      have hne : window base a.mnt ≠ window base b.mnt := fun hsame => hother (apart ha hb hsame)
      rcases Nat.lt_or_gt_of_ne hne with hless | hless
      · rw [compare_lt_iff_lt.mpr (by omega)]
        exact Prod.Lex.left _ _ hless
      · rw [compare_gt_iff_gt.mpr (by omega)]
        exact Prod.Lex.left _ _ hless

theorem near_of_orders
    (orders : Orders objectNodeCmp {key | key.mnt ∈ mounts}) :
    Near mounts := by
  rcases Set.eq_empty_or_nonempty mounts with rfl | ⟨first, hfirst⟩
  · exact ⟨0, by simp, by simp⟩
  let less : mounts → mounts → Prop := fun a b => objectNodeCmp ⟨a, []⟩ ⟨b, []⟩ = .lt
  have hself : ∀ a : mounts, ¬ less a a := fun a hless =>
    absurd (((orders.identity ⟨a, []⟩ a.2 ⟨a, []⟩ a.2).mpr rfl).symm.trans hless) (by decide)
  have hwell : WellFounded less := by
    have : IsTrans mounts less := ⟨fun a b c => orders.trans ⟨a, []⟩ a.2 ⟨b, []⟩ b.2 ⟨c, []⟩ c.2⟩
    have : Std.Irrefl less := ⟨hself⟩
    have : Finite (BitVec 64) := .of_injective BitVec.toFin fun _ _ => BitVec.eq_of_toFin_eq
    exact Finite.wellFounded_of_trans_of_irrefl less
  obtain ⟨base, -, hleast⟩ := hwell.has_min Set.univ ⟨⟨first, hfirst⟩, trivial⟩
  refine ⟨base, ?_, ?_⟩
  · intro mnt hmnt
    by_cases hsame : mnt = base
    · simp [hsame, window]
    · have hgreater : objectNodeCmp ⟨mnt, []⟩ ⟨base, []⟩ = .gt := by
        cases hcmp : objectNodeCmp ⟨mnt, []⟩ ⟨base, []⟩ with
        | lt => exact absurd hcmp (hleast ⟨mnt, hmnt⟩ trivial)
        | eq => exact absurd (congrArg ObjectKey.mnt
            ((orders.identity _ hmnt ⟨base, []⟩ base.2).mp hcmp)) hsame
        | gt => rfl
      rw [objectNodeCmp, if_neg hsame, compare_gt_iff_gt] at hgreater
      have hsign := BitVec.toInt_neg_iff.not.mp (not_lt.mpr hgreater.le)
      change ((mnt - base).setWidth 32).toNat < 2 ^ 31
      change ¬ 2 ^ 32 ≤ 2 * ((mnt - base).setWidth 32).toNat at hsign
      omega
  · intro a ha b hb hsame
    by_contra hother
    have hzero : (a - b).setWidth 32 = 0 := by
      unfold window at hsame
      bv_omega
    have hequal : objectNodeCmp ⟨a, []⟩ ⟨b, []⟩ = .eq := by
      rw [objectNodeCmp, if_neg hother, hzero]
      rfl
    exact hother (congrArg ObjectKey.mnt ((orders.identity _ ha _ hb).mp hequal))

theorem strcmp_apart (hab : ¬ a <+: b) (hba : ¬ b <+: a) (more : List Nat) :
    strcmp ((a ++ more).take b.length) b = strcmp a b := by
  induction a generalizing b with
  | nil => exact absurd List.nil_prefix hab
  | cons first rest ih =>
    cases b with
    | nil => exact absurd List.nil_prefix hba
    | cons head tail =>
      simp only [List.cons_append, List.length_cons, List.take_succ_cons, strcmp]
      split
      · rename_i hsame
        subst hsame
        rw [List.prefix_cons_inj] at hab hba
        exact ih hab hba
      · rfl

theorem buildidNodeCmp_orders_iff (behind : List Nat → List Nat)
    (ids : Set (List Nat)) :
    Orders (buildidNodeCmp behind) ids ↔ PrefixFree ids := by
  constructor
  · rintro orders a ha b hb ⟨more, rfl⟩
    refine ((orders.identity _ hb a ha).mp ?_).symm
    rw [buildidNodeCmp, List.append_assoc, List.take_left]
    exact (strcmp_compares a a).eq_eq.mpr rfl
  · intro free
    refine .of_compares Value.text (fun a _ b _ => Value.text.inj) fun a ha b hb => ?_
    by_cases hsame : a = b
    · subst hsame
      rw [buildidNodeCmp, List.take_left]
      exact strcmp_compares a a
    · rw [buildidNodeCmp, strcmp_apart (fun hpart => hsame (free a ha b hb hpart))
        fun hpart => hsame (free b hb a ha hpart).symm]
      exact strcmp_compares a b

/-- The two comparisons order the keys of the objects, with equality only of the
same key, if and only if the mount namespaces are near each other and no build
id is the beginning of another one. -/
theorem comparators_order_iff (mounts : Set (BitVec 64))
    (behind : List Nat → List Nat) (ids : Set (List Nat)) :
    (Orders objectNodeCmp {key | key.mnt ∈ mounts} ∧
      Orders (buildidNodeCmp behind) ids) ↔
      Near mounts ∧ PrefixFree ids :=
  and_congr ⟨near_of_orders, objectNodeCmp_orders⟩ (buildidNodeCmp_orders_iff behind ids)

/-- Namespaces 4 GiB apart are one key, a namespace 2 GiB from another one is
both smaller and larger, and a build id is equal to its own beginning. -/
theorem different_keys_equal :
    objectNodeCmp ⟨0x7f0000001000, [47]⟩ ⟨0x7f0100001000, [47]⟩ = .eq ∧
    objectNodeCmp ⟨0x7f0000001000, [47]⟩ ⟨0x7f0080001000, [47]⟩ = .lt ∧
    objectNodeCmp ⟨0x7f0080001000, [47]⟩ ⟨0x7f0000001000, [47]⟩ = .lt ∧
    ∀ behind, buildidNodeCmp behind [1, 2, 3] [1, 2] = .eq := by
  refine ⟨by decide, by decide, by decide, fun behind => rfl⟩

end PerfProf.Symbols
