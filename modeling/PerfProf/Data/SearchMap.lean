import Mathlib.Data.List.Nodup
import PerfProf.Data.SearchTree

namespace PerfProf.Data

universe u v w

def byKey {α : Type v} {κ : Type w} [LinearOrder κ] (key : α → κ) (wanted : κ)
    (item : α) : Ordering :=
  compare (key item) wanted

structure SearchMap (δ : Type u) {α : Type v} {κ : Type w} [LinearOrder κ]
    (key : α → κ) where
  tree : SearchTree δ α
  sorted : tree.toList.Pairwise fun first second => key first < key second

namespace SearchMap

variable {δ : Type u} {α : Type v} {κ : Type w} [LinearOrder κ] {key : α → κ}

def items (map : SearchMap δ key) : List α := map.tree.toList

def find (map : SearchMap δ key) (wanted : κ) : Option α :=
  map.tree.find (byKey key wanted)

def empty : SearchMap δ key := ⟨.leaf, .nil⟩

theorem guides (map : SearchMap δ key) (wanted : κ) :
    SearchTree.Guides (byKey key wanted) map.tree.toList := by
  refine map.sorted.imp fun {first second} hless => ⟨?_, ?_⟩
  · intro hfirst
    have hbefore := compare_gt_iff_gt.mp hfirst
    exact compare_gt_iff_gt.mpr (hbefore.trans hless)
  · intro hsecond
    have hbehind := compare_lt_iff_lt.mp hsecond
    exact compare_lt_iff_lt.mpr (hless.trans hbehind)

theorem eq_of_key_eq (map : SearchMap δ key) (hfirst : first ∈ map.items)
    (hsecond : second ∈ map.items) (hkey : key first = key second) :
    first = second := by
  have hnodup : (map.items.map key).Nodup :=
    List.pairwise_map.mpr (map.sorted.imp fun hless => hless.ne)
  exact List.inj_on_of_nodup_map hnodup hfirst hsecond hkey

variable {wanted : κ} {item : α} {new found : α}

theorem find_eq_some (map : SearchMap δ key) :
    map.find wanted = some item ↔ item ∈ map.items ∧ key item = wanted := by
  constructor
  · intro hfind
    exact ⟨SearchTree.mem_of_find hfind, compare_eq_iff_eq.mp (SearchTree.find_split hfind).1⟩
  · intro ⟨hmem, hkey⟩
    obtain ⟨found, hfind⟩ := SearchTree.find_of_mem (map.guides wanted) hmem
      (compare_eq_iff_eq.mpr hkey)
    have hfound : key found = wanted :=
      compare_eq_iff_eq.mp (SearchTree.find_split hfind).1
    rw [map.eq_of_key_eq hmem (SearchTree.mem_of_find hfind) (hkey.trans hfound.symm)]
    exact hfind

theorem find_key (map : SearchMap δ key) (hfind : map.find wanted = some item) :
    key item = wanted :=
  (map.find_eq_some.mp hfind).2

theorem find_eq_none (map : SearchMap δ key) :
    map.find wanted = none ↔ ∀ item ∈ map.items, key item ≠ wanted := by
  rw [Option.eq_none_iff_forall_ne_some]
  simp only [ne_eq, find_eq_some, not_and]

theorem mem_items_iff (map : SearchMap δ key) :
    item ∈ map.items ↔ map.find (key item) = some item := by
  simp [find_eq_some]

@[simp] theorem find_empty (wanted : κ) :
    (empty : SearchMap δ key).find wanted = none := rfl

theorem sorted_around :
    (before ++ item :: after).Pairwise
      (fun first second => key first < key second) ↔
      (before ++ after).Pairwise (fun first second => key first < key second) ∧
      (∀ other ∈ before, key other < key item) ∧
      ∀ other ∈ after, key item < key other :=
  SearchTree.pairwise_around

def insert (balance : SearchTree.Balance δ α) (new : α)
    (map : SearchMap δ key) : SearchMap δ key :=
  match hfind : map.tree.find (byKey key (key new)) with
  | some _ => map
  | none =>
    { tree := balance.settle map.tree (map.tree.link (byKey key (key new)) balance.fresh new)
      sorted := by
        obtain ⟨before, after, hlist, hbefore, hafter, hlink⟩ :=
          SearchTree.find_none_split (map.guides (key new)) hfind
        have hsorted := map.sorted
        rw [hlist] at hsorted
        rw [balance.settle_toList, hlink]
        exact sorted_around.mpr ⟨hsorted,
          fun other hother => compare_lt_iff_lt.mp (hbefore other hother),
          fun other hother => compare_gt_iff_gt.mp (hafter other hother)⟩ }

def set (item : α) (map : SearchMap δ key) : SearchMap δ key :=
  match hfind : map.tree.find (byKey key (key item)) with
  | none => map
  | some _ =>
    { tree := map.tree.update (byKey key (key item)) fun _ => item
      sorted := by
        obtain ⟨hprobe, before, after, hlist, hset, _⟩ :=
          SearchTree.find_split hfind
        have hsorted := map.sorted
        rw [hlist, sorted_around, compare_eq_iff_eq.mp hprobe] at hsorted
        rw [hset]
        exact sorted_around.mpr hsorted }

def erase (balance : SearchTree.Balance δ α) (wanted : κ)
    (map : SearchMap δ key) : SearchMap δ key :=
  match hfind : map.tree.find (byKey key wanted) with
  | none => map
  | some _ =>
    { tree := balance.settle map.tree (map.tree.unlink (byKey key wanted))
      sorted := by
        obtain ⟨_, before, after, hlist, _, hout⟩ := SearchTree.find_split hfind
        have hsorted := map.sorted
        rw [hlist, sorted_around] at hsorted
        rw [balance.settle_toList, hout]
        exact hsorted.1 }

def mapAll (set : α → α) (hkey : ∀ item, key (set item) = key item)
    (map : SearchMap δ key) : SearchMap δ key where
  tree := map.tree.map set
  sorted := by
    rw [SearchTree.map_toList, List.pairwise_map]
    refine map.sorted.imp fun {first second} hless => ?_
    rw [hkey, hkey]
    exact hless

variable (balance : SearchTree.Balance δ α) (map : SearchMap δ key)

theorem mem_insert (hnew : map.find (key new) = none) :
    item ∈ (map.insert balance new).items ↔ item = new ∨ item ∈ map.items := by
  obtain ⟨before, after, hlist, _, _, hlink⟩ :=
    SearchTree.find_none_split (map.guides (key new)) hnew
  rw [insert]
  split
  · rename_i hfind
    cases hnew.symm.trans hfind
  · rw [items, balance.settle_toList, hlink, items, hlist]
    simp only [List.mem_append, List.mem_cons]
    tauto

theorem find_insert_self (hnew : map.find (key new) = none) :
    (map.insert balance new).find (key new) = some new :=
  (find_eq_some _).mpr ⟨(mem_insert balance map hnew).mpr (.inl rfl), rfl⟩

/-- Maps with the same items under a key find the same one. -/
theorem find_congr {other : SearchMap δ key}
    (same : ∀ item, key item = wanted →
      (item ∈ other.items ↔ item ∈ map.items)) :
    other.find wanted = map.find wanted := by
  ext item
  rw [find_eq_some, find_eq_some]
  exact and_congr_left (same item)

theorem find_insert_of_ne (hnew : map.find (key new) = none)
    (hother : wanted ≠ key new) :
    (map.insert balance new).find wanted = map.find wanted := by
  refine map.find_congr fun item hkey => ?_
  rw [mem_insert balance map hnew]
  exact or_iff_right fun same => hother (by rw [← hkey, same])

theorem insert_of_find (hfound : map.find (key new) = some found) :
    map.insert balance new = map := by
  rw [insert]
  split
  · rfl
  · rename_i hfind
    cases hfound.symm.trans hfind

theorem find_insert_getD (new : α) : (map.insert balance new).find (key new) =
      some ((map.find (key new)).getD new) := by
  cases hfind : map.find (key new) with
  | none => exact find_insert_self balance map hfind
  | some found =>
    rw [insert_of_find balance map hfind, hfind]
    rfl

theorem find_insert_other (hother : wanted ≠ key new) :
    (map.insert balance new).find wanted = map.find wanted := by
  cases hfind : map.find (key new) with
  | none => exact find_insert_of_ne balance map hfind hother
  | some found => rw [insert_of_find balance map hfind]

theorem mem_others (hfind : map.find wanted = some found)
    (hlist : map.items = before ++ found :: after) :
    item ∈ before ∨ item ∈ after ↔ item ∈ map.items ∧ key item ≠ wanted := by
  have hkey := map.find_key hfind
  have hsorted : (map.items).Pairwise (key · < key ·) := map.sorted
  rw [hlist, sorted_around] at hsorted
  simp only [hlist, List.mem_append, List.mem_cons]
  constructor
  · rintro (hbefore | hafter)
    · exact ⟨.inl hbefore, hkey ▸ (hsorted.2.1 item hbefore).ne⟩
    · exact ⟨.inr (.inr hafter), hkey ▸ (hsorted.2.2 item hafter).ne'⟩
  · rintro ⟨hbefore | rfl | hafter, hother⟩
    · exact .inl hbefore
    · exact absurd hkey hother
    · exact .inr hafter

theorem mem_erase : item ∈ (map.erase balance wanted).items ↔
    item ∈ map.items ∧ key item ≠ wanted := by
  rw [erase]
  split
  · rename_i hfind
    refine ⟨fun hmem => ⟨hmem, map.find_eq_none.mp hfind item hmem⟩, And.left⟩
  · rename_i found hfind
    obtain ⟨_, before, after, hlist, _, hout⟩ := SearchTree.find_split hfind
    rw [← map.mem_others hfind hlist, items, balance.settle_toList, hout,
      List.mem_append]

theorem erase_of_find (hnone : map.find wanted = none) :
    map.erase balance wanted = map := by
  rw [erase]
  split
  · rfl
  · rename_i hfind
    cases hnone.symm.trans hfind

@[simp] theorem find_erase_self (wanted : κ) :
    (map.erase balance wanted).find wanted = none := by
  rw [find_eq_none]
  intro item hmem
  exact ((mem_erase balance map).mp hmem).2

theorem find_erase_of_ne (hother : other ≠ wanted) :
    (map.erase balance wanted).find other = map.find other := by
  refine map.find_congr fun item hkey => ?_
  rw [mem_erase]
  exact and_iff_left (hkey ▸ hother)

section

variable (hfound : map.find (key new) = some found)

include hfound

theorem mem_set :
    item ∈ (map.set new).items ↔
      item = new ∨ item ∈ map.items ∧ key item ≠ key new := by
  rw [set]
  split
  · rename_i hfind
    cases hfound.symm.trans hfind
  · rename_i old hfind
    obtain ⟨_, before, after, hlist, hset, _⟩ := SearchTree.find_split hfind
    rw [← map.mem_others hfind hlist, items, hset, List.mem_append,
      List.mem_cons, or_left_comm]

theorem find_set_self : (map.set new).find (key new) = some new :=
  (find_eq_some _).mpr ⟨(mem_set map hfound).mpr (.inl rfl), rfl⟩

theorem find_set_of_ne (hother : wanted ≠ key new) :
    (map.set new).find wanted = map.find wanted := by
  refine map.find_congr fun item hkey => ?_
  rw [mem_set map hfound, and_iff_left (hkey ▸ hother)]
  exact or_iff_right fun same => hother (by rw [← hkey, same])

end

theorem find_mapAll {change : α → α}
    (hkey : ∀ item, key (change item) = key item) (wanted : κ) :
    (map.mapAll change hkey).find wanted = (map.find wanted).map change := by
  ext item
  rw [find_eq_some, items, mapAll, SearchTree.map_toList, List.mem_map, Option.map_eq_some_iff]
  constructor
  · rintro ⟨⟨old, hold, rfl⟩, hitem⟩
    rw [hkey] at hitem
    exact ⟨old, (find_eq_some map).mpr ⟨hold, hitem⟩, rfl⟩
  · rintro ⟨old, hold, rfl⟩
    obtain ⟨hmem, hitem⟩ := (find_eq_some map).mp hold
    exact ⟨⟨old, hmem, rfl⟩, (hkey old).trans hitem⟩

end SearchMap

end PerfProf.Data
