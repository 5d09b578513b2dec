import PerfProf.Symbols.Lookup
import Mathlib.Data.List.Induction
import Mathlib.Data.List.Pairwise

namespace PerfProf.Symbols

open Data

theorem Sym.start_le_of_cmp {s1 s2 : Sym} (hcmp : s1.cmp s2 ≠ .gt) :
    s1.start ≤ s2.start := by
  unfold Sym.cmp at hcmp
  grind

theorem exists_last {syms : List Sym} {offset : Address} {sym : Sym}
    (hsym : sym ∈ syms) (hstart : sym.start ≤ offset) :
    ∃ front last back, syms = front ++ last :: back ∧
      last.start ≤ offset ∧
      ∀ sym ∈ back, offset < sym.start := by
  induction syms using List.reverseRecOn with
  | nil => cases hsym
  | append_singleton syms tail ih =>
    by_cases htail : tail.start ≤ offset
    · exact ⟨syms, tail, [], rfl, htail, by simp⟩
    · have hsyms : sym ∈ syms := by
        rcases List.mem_append.mp hsym with hsyms | hlast
        · exact hsyms
        · cases List.mem_singleton.mp hlast
          exact absurd hstart htail
      obtain ⟨front, last, back, rfl, hlast, hback⟩ := ih hsyms
      refine ⟨front, last, back ++ [tail], by simp, hlast, ?_⟩
      intro other hother
      rcases List.mem_append.mp hother with hother | hother
      · exact hback other hother
      · cases List.mem_singleton.mp hother
        exact BitVec.not_le.mp htail

namespace SymTable

variable {table : SymTable} {offset : Address} {front back : List Sym}
  {last : Sym}

theorem startsBy_iff : table.startsBy offset index = true ↔
    ∃ sym, table.syms[index]? = some sym ∧ sym.start ≤ offset := by
  unfold startsBy
  cases table.syms[index]? <;> simp

theorem startsBy_mono {low high : Nat} (hle : low ≤ high)
    (hhigh : table.startsBy offset high = true) :
    table.startsBy offset low = true := by
  rcases Nat.lt_or_eq_of_le hle with hlt | rfl
  · obtain ⟨sym, hsym, hstart⟩ := startsBy_iff.mp hhigh
    obtain ⟨hbound, rfl⟩ := List.getElem?_eq_some_iff.mp hsym
    have hsorted := List.pairwise_iff_getElem.mp table.sorted low high
      (Nat.lt_trans hlt hbound) hbound hlt
    exact startsBy_iff.mpr ⟨_, List.getElem?_eq_getElem _,
      BitVec.le_trans (Sym.start_le_of_cmp hsorted) hstart⟩
  · exact hhigh

theorem lastTrue_startsBy (hsyms : table.syms = front ++ last :: back)
    (hlast : last.start ≤ offset) (hback : ∀ sym ∈ back, offset < sym.start) :
    lastTrue (table.startsBy offset) 0 (table.syms.length - 1) =
      front.length := by
  have hlength : table.syms.length = front.length + (back.length + 1) := by simp [hsyms]
  have hfront : table.startsBy offset front.length = true :=
    startsBy_iff.mpr ⟨last, by simp [hsyms], hlast⟩
  have hfound : table.startsBy offset (lastTrue (table.startsBy offset) 0 (table.syms.length - 1)) =
      true := below_lastTrue (startsBy_mono (Nat.zero_le _) hfront)
  have habove : ¬ lastTrue (table.startsBy offset) 0 (table.syms.length - 1) <
      front.length := by
    intro hlt
    have hfalse := lastTrue_above (fun _ _ hle _ => startsBy_mono hle) hlt (by omega)
    rw [hfront] at hfalse
    cases hfalse
  generalize lastTrue (table.startsBy offset) 0 (table.syms.length - 1) = index at hfound habove ⊢
  obtain ⟨sym, hsym, hstart⟩ := startsBy_iff.mp hfound
  by_contra hindex
  have hmem : sym ∈ back := by
    rw [hsyms, List.getElem?_append_right (by omega), List.getElem?_cons] at hsym
    split at hsym
    · omega
    · exact List.mem_of_getElem? hsym
  exact absurd hstart (BitVec.not_le.mpr (hback sym hmem))

theorem findOffset_split (hsyms : table.syms = front ++ last :: back)
    (hlast : last.start ≤ offset) (hback : ∀ sym ∈ back, offset < sym.start) :
    table.findOffset offset =
      if last.Reaches offset then some last
      else front.getLast?.filter fun outer =>
        decide (outer.start ≤ offset) && decide (outer.Reaches offset) := by
  have htakes : table.takes offset front.length =
      if last.Reaches offset then some last else none := by
    simp [takes, hsyms, hlast, Option.filter_some]
  have houter : (if 0 < front.length then
      table.takes offset (front.length - 1) else none) =
      front.getLast?.filter fun outer =>
        decide (outer.start ≤ offset) && decide (outer.Reaches offset) := by
    cases front using List.reverseRecOn with
    | nil => rfl
    | append_singleton front outer => simp [takes, hsyms]
  rw [findOffset, lastTrue_startsBy hsyms hlast hback, htakes, houter]
  split <;> rfl

def Answers (table : SymTable) (offset : Address) : Prop :=
  ∃ front last back, table.syms = front ++ last :: back ∧
    last.start ≤ offset ∧ (∀ sym ∈ back, offset < sym.start) ∧
    (last.Reaches offset ∧ last.Covers offset ∨ ¬ last.Reaches offset ∧ ∃ outer, front.getLast? =
      some outer ∧ outer.Reaches offset ∧ outer.Covers offset)

theorem findOffset_covers_iff {sym : Sym} (hsym : sym ∈ table.syms)
    (hcovers : sym.Covers offset) :
    (∃ found, table.findOffset offset = some found ∧ found.Covers offset) ↔
      table.Answers offset :=
    by
  constructor
  · rintro ⟨found, hfound, hcovered⟩
    obtain ⟨front, last, back, hsyms, hlast, hback⟩ := exists_last hsym hcovers.1
    refine ⟨front, last, back, hsyms, hlast, hback, ?_⟩
    rw [findOffset_split hsyms hlast hback] at hfound
    split at hfound
    case isTrue hreaches =>
        cases hfound
        exact Or.inl ⟨hreaches, hcovered⟩
    case isFalse hreaches =>
        obtain ⟨houter, htest⟩ := Option.filter_eq_some_iff.mp hfound
        simp only [Bool.and_eq_true, decide_eq_true_eq] at htest
        exact Or.inr ⟨hreaches, found, houter, htest.2, hcovered⟩
  · rintro ⟨front, last, back, hsyms, hlast, hback, hanswer⟩
    rw [findOffset_split hsyms hlast hback]
    rcases hanswer with ⟨hreaches, hcovered⟩ | ⟨hreaches, outer, houter, hreach, hcovered⟩
    · exact ⟨last, if_pos hreaches, hcovered⟩
    · refine ⟨outer, (if_neg hreaches).trans ?_, hcovered⟩
      have hstart : outer.start ≤ offset := hcovered.1
      simp [houter, hstart, hreach]

end SymTable

structure Located (syms : Syms) (addr : Address) where
  dso : Dso
  range : LoadRange
  mapped : (dso, range) ∈ mappings syms.dsos
  inside : range.start ≤ addr ∧ addr < range.finish
  sym : Sym
  known : sym ∈ dso.obj.table.syms
  covers : sym.Covers (dso.offset range addr)

namespace Located

theorem eq_of_holds (located : Located syms addr) {dso : Dso}
    {range : LoadRange} (hmapped : (dso, range) ∈ mappings syms.dsos)
    (hholds : range.holds addr = true) :
    (dso, range) = (located.dso, located.range) := by
  by_contra hne
  have symmetric : Std.Symm fun one other : Dso × LoadRange =>
      one.2.finish ≤ other.2.start ∨ other.2.finish ≤ one.2.start :=
    ⟨fun _ _ => Or.symm⟩
  have hapart := syms.disjoint.forall hmapped located.mapped hne
  have hinside := located.inside
  simp only [LoadRange.holds, Bool.not_eq_true', Bool.or_eq_false_iff,
    decide_eq_false_iff_not, BitVec.not_le] at hholds
  simp only [BitVec.lt_def, BitVec.le_def] at hapart hinside hholds
  omega

theorem findDso_eq (located : Located syms addr) : syms.findDso addr =
      if addr = located.range.start then none
      else some (located.dso, located.dso.offset located.range addr) := by
  have honly : ∀ found, syms.findDso addr = some found → located.range.holds addr = true ∧
        found = (located.dso, located.dso.offset located.range addr) := by
    intro found hfound
    obtain ⟨dso, hdso, hsome⟩ := List.exists_of_findSome?_eq_some hfound
    obtain ⟨range, hrange, rfl⟩ := Option.map_eq_some_iff.mp hsome
    have hholds := List.find?_some hrange
    have hmapped : (dso, range) ∈ mappings syms.dsos := by
      simp [mappings, hdso, List.mem_of_find?_eq_some hrange]
    cases located.eq_of_holds hmapped hholds
    exact ⟨hholds, rfl⟩
  have hstart : located.range.holds addr = true ↔ addr ≠ located.range.start := by
    have hinside := located.inside
    simp only [LoadRange.holds, Bool.not_eq_true', Bool.or_eq_false_iff,
      decide_eq_false_iff_not, BitVec.not_le]
    simp only [BitVec.lt_def, BitVec.le_def, ne_eq, ← BitVec.toNat_inj] at hinside ⊢
    omega
  cases hfind : syms.findDso addr with
  | none =>
    symm
    apply if_pos
    by_contra hne
    have hmapped := located.mapped
    simp only [mappings, List.mem_flatMap, List.mem_map, Prod.mk.injEq] at hmapped
    obtain ⟨dso, hdso, range, hrange, rfl, rfl⟩ := hmapped
    have hnone := List.findSome?_eq_none_iff.mp hfind _ hdso
    rw [Option.map_eq_none_iff, List.find?_eq_none] at hnone
    exact hnone _ hrange (hstart.mpr hne)
  | some found =>
    obtain ⟨hholds, rfl⟩ := honly found hfind
    exact (if_neg (hstart.mp hholds)).symm

end Located

/-- The symbol a mapped address is resolved to covers it exactly when the
address is not the first of its mapping and the search does not stop at a symbol
in front of those that cover it. -/
theorem mapAddr_covers_iff (syms : Syms) (addr : Address)
    (located : Located syms addr) :
    (∃ sym, syms.mapAddr addr = some sym ∧
        sym.Covers (located.dso.offset located.range addr)) ↔
      addr ≠ located.range.start ∧
        located.dso.obj.table.Answers
          (located.dso.offset located.range addr) := by
  rw [Syms.mapAddr, located.findDso_eq]
  by_cases hstart : addr = located.range.start
  · simp [hstart]
  · rw [if_neg hstart, Option.bind_some,
      SymTable.findOffset_covers_iff located.known located.covers]
    simp [hstart]

def startupSym : Sym := { name := [0x66#8], start := 0x401000, size := 0x20 }

def startupDso : Dso :=
  { ranges :=
      [{ start := 0x401000, finish := 0x402000, fileOff := 0x1000 }]
    obj :=
      { type := .exec, shAddr := 0x401000, shOffset := 0x1000
        table := { syms := [startupSym], sorted := List.pairwise_singleton _ _ } } }

def startup : Syms :=
  { dsos := [startupDso], disjoint := List.pairwise_singleton _ _ }

def startupLocated : Located startup 0x401010 where
  dso := startupDso
  range := { start := 0x401000, finish := 0x402000, fileOff := 0x1000 }
  mapped := List.mem_singleton_self _
  inside := by decide
  sym := startupSym
  known := List.mem_singleton_self _
  covers := by decide

theorem mapAddr_covers_startup :
    ∃ sym, startup.mapAddr 0x401010 = some sym ∧
      sym.Covers (startupDso.offset startupLocated.range 0x401010) :=
  (mapAddr_covers_iff startup 0x401010 startupLocated).mpr
    ⟨by decide, [], startupSym, [], rfl, by decide, by simp,
      .inl ⟨by decide, startupLocated.covers⟩⟩

/-- The first address of a mapping is covered by a symbol and resolved to
none. -/
theorem mapping_start_unresolved :
    startupDso ∈ startup.dsos ∧
    (∃ range ∈ startupDso.ranges, range.start = 0x401000#64 ∧
      0x401000#64 < range.finish ∧
      startupSym ∈ startupDso.obj.table.syms ∧
      startupSym.Covers (startupDso.offset range 0x401000)) ∧
    startup.mapAddr 0x401000 = none := by
  refine ⟨List.mem_singleton_self _, ?_, rfl⟩
  exact ⟨_, List.mem_singleton_self _, rfl, by decide, List.mem_singleton_self _, by decide⟩

end PerfProf.Symbols
