import PerfProf.Convert.Members

namespace PerfProf.Convert

open Data

theorem Part.bit_lt (part : Part) : part.bit < 64 := by
  cases part <;> decide

namespace Table

variable {entries front back : List Entry} {entry : Entry}

def of (entries : List Entry) : Table := entries.foldl put start

theorem of_snoc (entries : List Entry) (entry : Entry) :
    of (entries ++ [entry]) = (of entries).put entry := by
  simp [of]

theorem foldl_addMember (sampleType : BitVec 64) (entries : List Entry)
    (table : Table) :
    entries.foldl (addMember sampleType) table =
      (entries.filter fun entry => entry.part.sampled sampleType).foldl put
        table := by
  rw [List.foldl_filter]
  rfl

def member (front : List Entry) (entry : Entry) : Member :=
  { part := entry.part, offset := (of front).offset, size := entry.size
    deps := (of front).deps }

theorem mem_members :
    found ∈ (of entries).members ↔
      ∃ front entry back, entries = front ++ entry :: back ∧
        found = member front entry := by
  induction entries using List.reverseRecOn with
  | nil =>
    constructor
    · exact nofun
    · rintro ⟨front, entry, back, hnil, -⟩
      simp at hnil
  | append_singleton entries last ih =>
    have hmembers : (of (entries ++ [last])).members =
        (of entries).members ++ [member entries last] := by
      rw [of_snoc]
      rfl
    rw [hmembers, List.mem_append, ih, List.mem_singleton]
    constructor
    · rintro (⟨front, entry, back, rfl, hfound⟩ | rfl)
      · exact ⟨front, entry, back ++ [last], by simp, hfound⟩
      · exact ⟨entries, last, [], rfl, rfl⟩
    · rintro ⟨front, entry, back, hsplit, hfound⟩
      cases back using List.reverseRecOn with
      | nil =>
        obtain ⟨rfl, hlast⟩ := List.append_inj' hsplit rfl
        cases hlast
        exact Or.inr hfound
      | append_singleton back other =>
        rw [← List.cons_append, ← List.append_assoc] at hsplit
        obtain ⟨rfl, -⟩ := List.append_inj' hsplit rfl
        exact Or.inl ⟨front, entry, back, rfl, hfound⟩

theorem map_part_members (entries : List Entry) :
    (of entries).members.map Member.part = entries.map Entry.part := by
  induction entries using List.reverseRecOn with
  | nil => rfl
  | append_singleton entries last ih =>
    rw [of_snoc]
    simp [put, ih]

theorem deps_iff (entries : List Entry) (bit : Nat) :
    (of entries).deps.getLsbD bit = true ↔
      ∃ entry ∈ entries, entry.sz = 0 ∧ entry.part.bit = bit := by
  induction entries using List.reverseRecOn with
  | nil => simp [of, start]
  | append_singleton entries last ih =>
    rw [of_snoc, put]
    dsimp only
    split
    case isTrue hzero =>
        rw [BitVec.getLsbD_or, Bool.or_eq_true, ih, BitVec.getLsbD_twoPow]
        simp [hzero, Part.bit_lt, or_and_right, exists_or]
    case isFalse hzero =>
        rw [ih]
        simp [hzero, or_and_right, exists_or]

end Table

def Entry.step (data : Bytes) (entry : Entry) (place : Nat) : Nat :=
  if entry.sz = 0 then entry.part.taken entry.size data place
  else entry.pad + entry.sz

structure Ordered (entries : List Entry) : Prop where
  nodup : (entries.map Entry.part).Nodup
  readers : ((entries.filter fun entry => decide (entry.sz = 0)).map Entry.part).Sublist readers
  pad : ∀ entry ∈ entries, entry.sz = 0 → entry.pad = 0

namespace Cache

def pass (cache : Cache) (data : Bytes) (depsSize : Nat) (part : Part) : Nat :=
  match cache.member? part with
  | some dep => depsSize + part.taken dep.size data (dep.offset + depsSize)
  | none => depsSize

theorem foldl_skip (cache : Cache) (deps : BitVec 64) (data : Bytes) :
    readers.foldl (cache.skip deps data) 0 =
      (readers.filter fun part => deps.getLsbD part.bit).foldl (cache.pass data)
        0 := by
  rw [List.foldl_filter]
  rfl

section Places

variable {cache : Cache} {entries front back : List Entry} {entry : Entry}

section

variable (ordered : Ordered entries)

include ordered

theorem member?_eq (hmembers : cache.members = (Table.of entries).members)
    (hsplit : entries = front ++ entry :: back) :
    cache.member? entry.part = some (Table.member front entry) := by
  have hmem : Table.member front entry ∈ cache.members := by
    rw [hmembers]
    exact Table.mem_members.mpr ⟨front, entry, back, hsplit, rfl⟩
  have hnodup : (cache.members.map Member.part).Nodup := by
    rw [hmembers, Table.map_part_members]
    exact ordered.nodup
  exact find?_of_nodup hnodup hmem

theorem filter_deps (hsplit : entries = front ++ back) :
    (readers.filter fun part => (Table.of front).deps.getLsbD part.bit) =
      (front.filter fun entry => decide (entry.sz = 0)).map Entry.part := by
  have hsub : ((front.filter fun entry => decide (entry.sz = 0)).map
      Entry.part).Sublist readers := by
    refine List.Sublist.trans ?_ ordered.readers
    rw [hsplit, List.filter_append, List.map_append]
    exact List.sublist_append_left _ _
  refine (List.filter_congr ?_).trans (filter_mem_of_sublist (by decide) hsub)
  intro part hpart
  rw [Bool.eq_iff_iff, Table.deps_iff, decide_eq_true_eq]
  constructor
  · rintro ⟨entry, hentry, hzero, hbit⟩
    have hmem : entry.part ∈ (front.filter fun entry => decide (entry.sz = 0)).map Entry.part := by
      refine List.mem_map_of_mem (List.mem_filter.mpr ⟨hentry, ?_⟩)
      exact decide_eq_true hzero
    have hsame : ∀ one ∈ readers, ∀ other ∈ readers, one.bit = other.bit → one = other := by decide
    rw [← hsame entry.part (hsub.subset hmem) part hpart hbit]
    exact hmem
  · intro hmem
    obtain ⟨entry, hentry, rfl⟩ := List.mem_map.mp hmem
    obtain ⟨hfront, hzero⟩ := List.mem_filter.mp hentry
    exact ⟨entry, hfront, of_decide_eq_true hzero, rfl⟩

theorem offset_add_foldl (hmembers : cache.members = (Table.of entries).members)
    (data : Bytes) (hsplit : entries = front ++ back) :
    (Table.of front).offset +
      ((front.filter fun entry => decide (entry.sz = 0)).map Entry.part).foldl
        (cache.pass data) 0 = advance (Entry.step data) front 0 := by
  induction front using List.reverseRecOn generalizing back with
  | nil => rfl
  | append_singleton front entry ih =>
    have hfront : entries = front ++ entry :: back := by simp [hsplit]
    have hplace := ih hfront
    rw [advance_append, advance_singleton, ← hplace, Table.of_snoc,
      List.filter_append, List.map_append, List.foldl_append]
    by_cases hzero : entry.sz = 0
    · have hpad := ordered.pad entry (by simp [hfront]) hzero
      simp only [Table.put, Entry.step, hzero, hpad, decide_true, List.filter_cons_of_pos,
        List.filter_nil, List.map_cons, List.map_nil, List.foldl_cons, List.foldl_nil, pass,
        member?_eq ordered hmembers hfront, if_pos]
      dsimp only [Table.member]
      omega
    · simp only [Table.put, Entry.step, hzero, decide_false, if_neg, List.filter_cons,
        List.filter_nil, List.map_nil, List.foldl_nil, not_false_eq_true, Bool.false_eq_true]
      omega

theorem memberOffset_eq (hmembers : cache.members = (Table.of entries).members)
    (data : Bytes) (hsplit : entries = front ++ entry :: back) :
    cache.memberOffset (Table.member front entry) data =
      advance (Entry.step data) front 0 := by
  rw [← offset_add_foldl ordered hmembers data hsplit, ← filter_deps ordered hsplit, memberOffset]
  split
  case isTrue hdeps =>
      have hnone : (Table.of front).deps = 0 := hdeps
      simp [Table.member, hnone]
  case isFalse =>
      rw [foldl_skip]
      rfl

end

end Places

end Cache

end PerfProf.Convert
