import PerfProf.Sql.Column
import PerfProf.Sql.Scan

namespace PerfProf.Sql

open PerfProf.Data

universe u

theorem opHolds_compares (compares : order.Compares left right) (op : Op) :
    opHolds left op right = op.accepts order := by
  cases order with
  | lt =>
    have hless : left < right := compares
    cases op <;> simp [opHolds, Op.accepts, hless, hless.le, hless.not_gt, hless.not_ge, hless.ne]
  | eq =>
    have hsame : left = right := compares
    subst hsame
    cases op <;> simp [opHolds, Op.accepts]
  | gt =>
    have hless : right < left := compares
    cases op <;> simp [opHolds, Op.accepts, hless, hless.le, hless.not_gt, hless.not_ge, hless.ne']

theorem int_compares (left right : Int) :
    (compare left right).Compares (Value.int left) (Value.int right) := by
  cases horder : compare left right with
  | lt => exact (Value.int_lt_int _ _).mpr (compare_lt_iff_lt.mp horder)
  | eq => exact congrArg Value.int (compare_eq_iff_eq.mp horder)
  | gt => exact (Value.int_lt_int _ _).mpr (compare_gt_iff_gt.mp horder)

theorem binaryCompare_cons (first head : Nat) (rest tail : List Nat) :
    binaryCompare (first :: rest) (head :: tail) =
      if first = head then binaryCompare rest tail
      else if first < head then .lt
      else .gt := by
  unfold binaryCompare
  rw [memcmp]
  by_cases hsame : first = head
  · rw [if_pos hsame, if_pos hsame]
    have hlength : compare (rest.length + 1) (tail.length + 1) =
        compare rest.length tail.length := by
      simp only [compare, compareOfLessAndEq, Nat.add_lt_add_iff_right, Nat.add_right_cancel_iff]
    rw [List.length_cons, List.length_cons, hlength]
  · rw [if_neg hsame, if_neg hsame]
    by_cases hless : first < head
    · rw [if_pos hless]
    · rw [if_neg hless]

theorem binaryCompare_eq (left right : List Nat) :
    binaryCompare left right = strcmp left right := by
  induction left generalizing right with
  | nil =>
    cases right with
    | nil => rfl
    | cons head tail => exact compare_lt_iff_lt.mpr (Nat.succ_pos tail.length)
  | cons first rest ih =>
    cases right with
    | nil => exact compare_gt_iff_gt.mpr (Nat.succ_pos rest.length)
    | cons head tail => rw [binaryCompare_cons, strcmp, ih]

section Rows

variable {ε : Type u}

theorem scan_single (lib : Library ε) (haveIndex : Bool) (indexField : Nat)
    (events : List ε) (one : OneOp) (orderBy desc : Bool) :
    ∃ bound, ∀ fuel, bound ≤ fuel →
      ∃ visited, scan lib (TpPrivate.store lib haveIndex indexField events)
          ⟨[one], orderBy, desc⟩ fuel = some visited ∧
        visited.Perm (events.filter (filterHolds lib · one)) := by
  obtain ⟨indexed, _, _, hlist⟩ := store_spec lib haveIndex indexField events
  refine ⟨scanBound lib (TpPrivate.store lib haveIndex indexField events)
    ⟨[one], orderBy, desc⟩, ?_⟩
  intro fuel enough
  obtain ⟨visited, hscan, hperm, _⟩ := scan_spec ⟨[one], orderBy, desc⟩ indexed enough
  refine ⟨visited, hscan, ?_⟩
  have hone : satisfies lib ⟨[one], orderBy, desc⟩ = fun event => filterHolds lib event one := by
    funext event
    exact Bool.and_true _
  rwa [hlist, hone] at hperm

/-- The events that a scan visits are those that `keeps` picks out, however the
table is indexed and sorted. -/
def ScanSelects (lib : Library ε) (events : List ε) (one : OneOp)
    (keeps : ε → Bool) : Prop :=
  ∀ haveIndex indexField orderBy desc, ∃ bound, ∀ fuel, bound ≤ fuel → ∃ visited,
      scan lib (TpPrivate.store lib haveIndex indexField events)
        ⟨[one], orderBy, desc⟩ fuel = some visited ∧
      visited.Perm (events.filter keeps)

theorem scanSelects_iff (lib : Library ε) (events : List ε) (one : OneOp)
    (keeps : ε → Bool) :
    ScanSelects lib events one keeps ↔
      ∀ event ∈ events, filterHolds lib event one = keeps event :=
    by
  constructor
  · intro hselects event member
    obtain ⟨bound, hvisits⟩ := hselects false 0 false false
    obtain ⟨enough, hscans⟩ := scan_single lib false 0 events one false false
    obtain ⟨visited, hscan, hkept⟩ := hvisits (max bound enough) (le_max_left _ _)
    obtain ⟨_, hsame, hheld⟩ := hscans (max bound enough) (le_max_right _ _)
    cases hscan.symm.trans hsame
    have hmem := @List.Perm.mem_iff _ event _ _ (hheld.symm.trans hkept)
    rw [Bool.eq_iff_iff]
    simpa [List.mem_filter, member] using hmem
  · intro hsame haveIndex indexField orderBy desc
    have hscans := scan_single lib haveIndex indexField events one orderBy desc
    rwa [List.filter_congr hsame] at hscans

end Rows

theorem sqlTpFileSample_column (fields : List FormatField) (sample : Sample)
    (column : Nat) :
    (sqlTpFileSample fields sample)[column]? =
      perfTpXColumn fields sample column := by
  have hcommon : sample.common.length = 8 := rfl
  unfold perfTpXColumn sqlTpFileSample
  split
  · rename_i inside
    exact List.getElem?_append_left (by omega)
  · rename_i outside
    rw [List.getElem?_append_right (by omega), hcommon, List.getElem?_map]

section Used

variable (colUsed : BitVec 64)

theorem mem_keepUsed
    (member : column ∈ keepUsed colUsed start (List.range' start count)) :
    columnUsed colUsed column = true ∧ start ≤ column := by
  induction count generalizing start with
  | zero => cases member
  | succ count ih =>
    rw [List.range'_succ, keepUsed] at member
    split_ifs at member with hused
    · rcases List.mem_cons.mp member with rfl | member
      · exact ⟨hused, Nat.le_refl _⟩
      · exact (ih member).imp_right (by omega)
    · exact (ih member).imp_right (by omega)

theorem lookup_keepUsed {α : Type} (values : List α)
    (used : columnUsed colUsed column = true) (inside : start ≤ column) :
    ((keepUsed colUsed start (List.range' start values.length)).zip
        (keepUsed colUsed start values)).lookup column =
      values[column - start]? := by
  induction values generalizing start with
  | nil => rfl
  | cons value rest ih =>
    rw [List.length_cons, List.range'_succ, keepUsed, keepUsed]
    rcases Nat.eq_or_lt_of_le inside with rfl | hbehind
    · rw [if_pos used, if_pos used, List.zip_cons_cons, Nat.sub_self, List.lookup_cons_self]
      rfl
    · obtain ⟨more, rfl⟩ := Nat.exists_eq_add_of_lt hbehind
      have hrest := @ih (start + 1) (by omega)
      rw [show start + more + 1 - (start + 1) = more by omega] at hrest
      rw [show start + more + 1 - start = more + 1 by omega, List.getElem?_cons_succ, ← hrest]
      split
      · have hother : (start + more + 1 == start) = false := by
          rw [beq_eq_false_iff_ne]
          omega
        rw [List.zip_cons_cons, List.lookup_cons, hother]
      · rfl

theorem sqlTpMemCreateTable_eq (fields : List FormatField) :
    sqlTpMemCreateTable colUsed fields =
      keepUsed colUsed 0 (List.range' 0 (8 + fields.length)) := by
  rw [sqlTpMemCreateTable, ← List.range_eq_range', List.range_add]

theorem memColumn_eq (created : column ∈ sqlTpMemCreateTable colUsed fields)
    (sample : Sample) :
    memColumn colUsed fields sample column =
      perfTpXColumn fields sample column := by
  rw [sqlTpMemCreateTable_eq] at created
  obtain ⟨hused, _⟩ := mem_keepUsed colUsed created
  have hlength : (sqlTpFileSample fields sample).length = 8 + fields.length := by
    rw [sqlTpFileSample, List.length_append, List.length_map]
    rfl
  have hlookup := lookup_keepUsed colUsed (sqlTpFileSample fields sample) hused (Nat.zero_le column)
  rw [hlength, ← sqlTpMemCreateTable_eq] at hlookup
  exact hlookup.trans (sqlTpFileSample_column fields sample column)

end Used

variable {bits column : Nat} {fields : List FormatField}

theorem signed_of_range {value : Int} (lower : -(2 ^ bits : Nat) ≤ 2 * value)
    (upper : 2 * value < (2 ^ bits : Nat)) : signed bits value = value := by
  apply Int.bmod_eq_of_le_mul_two
  · rwa [Int.mul_comm]
  · rwa [Int.mul_comm]

theorem signed_range (bits : Nat) (value : Int) :
    -(2 ^ bits : Nat) ≤ 2 * signed bits value ∧
    2 * signed bits value < (2 ^ bits : Nat) := by
  have hpos : 0 < 2 ^ bits := Nat.two_pow_pos bits
  have hlower : -((2 ^ bits : Nat) / 2 : Int) ≤ signed bits value := Int.le_bmod hpos
  have hupper : signed bits value < ((2 ^ bits : Nat) + 1 : Int) / 2 := Int.bmod_lt hpos
  omega

theorem signed_nat_iff (bits value : Nat) :
    signed bits value = value ↔ 2 * value < 2 ^ bits := by
  constructor
  · intro hsame
    have hrange := (signed_range bits value).2
    rw [hsame] at hrange
    exact_mod_cast hrange
  · intro hhalf
    apply signed_of_range
    · omega
    · exact_mod_cast hhalf

theorem signed_signed (hwide : bits ≤ wide) (value : Int) :
    signed wide (signed bits value) = signed bits value := by
  obtain ⟨hlower, hupper⟩ := signed_range bits value
  have hpow : 2 ^ bits ≤ 2 ^ wide := Nat.pow_le_pow_right (by decide) hwide
  apply signed_of_range
  · omega
  · omega

theorem signed_field (hwide : 2 * 256 ^ width ≤ 2 ^ bits) (base : Bytes)
    (offset : Nat) :
    signed bits (field base offset width) = field base offset width := by
  rw [signed_nat_iff]
  have hsmall := field_lt base offset width
  omega

theorem signed_number (format : FormatField) (base : Bytes) :
    signed 64 (format.number base) = format.number base := by
  unfold FormatField.number
  split
  · repeat' split
    · exact signed_signed (by decide) _
    · exact signed_signed (by decide) _
    · exact signed_signed (by decide) _
    · exact signed_signed (by decide) _
    · rfl
  · repeat' split
    · exact signed_field (by decide) base _
    · exact signed_field (by decide) base _
    · exact signed_field (by decide) base _
    · exact signed_signed (by decide) _
    · rfl

def SameInteger (fields : List FormatField) (sample : Sample) (column : Nat) :
    Prop :=
  ∃ value, perfTpField fields sample column = .int value ∧
    perfTpXColumn fields sample column = some (.integer value)

structure Fits (fields : List FormatField) (sample : Sample) (column : Nat) :
    Prop where
  pid : column = 0 → sample.pid.toNat < 2 ^ 31
  tid : column = 1 → sample.tid.toNat < 2 ^ 31
  cpu : column = 3 → sample.cpu.toNat < 2 ^ 31
  size : ∀ index format, column = index + 8 → fields[index]? = some format → format.size ≤ 8

theorem common_iff (value : Nat) :
    (∃ number, Value.int value = .int number ∧
      some (SqlValue.resultInt value) = some (.integer number)) ↔
      value < 2 ^ 31 := by
  constructor
  · rintro ⟨number, hnumber, hresult⟩
    cases hnumber
    have hsame : signed 32 value = value := SqlValue.integer.inj (Option.some.inj hresult)
    have hhalf := (signed_nat_iff 32 value).mp hsame
    omega
  · intro hsmall
    refine ⟨value, rfl, ?_⟩
    rw [SqlValue.resultInt, (signed_nat_iff 32 value).mpr (by omega)]

theorem field_iff {format : FormatField} (isInt : format.isString = false)
    (noArray : format.isArray = false) (base : Bytes) :
    (∃ number, Value.int (format.number base) = .int number ∧
      some (format.result base) = some (.integer number)) ↔
      format.size ≤ 8 := by
  unfold FormatField.result
  rw [isInt, noArray, if_neg Bool.false_ne_true, if_neg Bool.false_ne_true]
  constructor
  · rintro ⟨number, _, hresult⟩
    by_contra large
    rw [if_neg large] at hresult
    cases hresult
  · intro hsmall
    refine ⟨_, rfl, ?_⟩
    rw [if_pos hsmall, SqlValue.resultInt64, signed_number]

theorem sameInteger_iff (isInt : columnIsInt fields column = true)
    (sample : Sample) :
    SameInteger fields sample column ↔ Fits fields sample column := by
  match column with
  | 0 =>
    refine (common_iff sample.pid.toNat).trans ⟨fun hpid => ?_, (·.pid rfl)⟩
    exact ⟨fun _ => hpid, nofun, nofun, nofun⟩
  | 1 =>
    refine (common_iff sample.tid.toNat).trans ⟨fun htid => ?_, (·.tid rfl)⟩
    exact ⟨nofun, fun _ => htid, nofun, nofun⟩
  | 2 => exact ⟨fun _ => ⟨nofun, nofun, nofun, nofun⟩, fun _ => ⟨_, rfl, rfl⟩⟩
  | 3 =>
    refine (common_iff sample.cpu.toNat).trans ⟨fun hcpu => ?_, (·.cpu rfl)⟩
    exact ⟨nofun, nofun, fun _ => hcpu, nofun⟩
  | 4 => exact ⟨fun _ => ⟨nofun, nofun, nofun, nofun⟩, fun _ => ⟨_, rfl, rfl⟩⟩
  | 5 =>
    refine ⟨fun _ => ⟨nofun, nofun, nofun, nofun⟩, fun _ => ?_⟩
    exact ⟨_, rfl, congrArg (some ∘ SqlValue.integer) (signed_field (by decide) sample.raw 2)⟩
  | 6 =>
    refine ⟨fun _ => ⟨nofun, nofun, nofun, nofun⟩, fun _ => ?_⟩
    exact ⟨_, rfl, congrArg (some ∘ SqlValue.integer) (signed_field (by decide) sample.raw 3)⟩
  | 7 =>
    refine ⟨fun _ => ⟨nofun, nofun, nofun, nofun⟩, fun _ => ?_⟩
    exact ⟨_, rfl, congrArg (some ∘ SqlValue.integer) (signed_signed (Nat.le_refl 32) _)⟩
  | index + 8 =>
    have hbehind : ¬ index + 8 < 8 := by omega
    unfold SameInteger perfTpXColumn
    rw [columnIsInt, if_neg hbehind, Nat.add_sub_cancel] at isInt
    rw [if_neg hbehind, Nat.add_sub_cancel, perfTpField]
    cases hformat : fields[index]? with
    | none =>
      rw [hformat] at isInt
      cases isInt
    | some format =>
      rw [hformat, Bool.and_eq_true, Bool.not_eq_true', Bool.not_eq_true'] at isInt
      obtain ⟨hstring, harray⟩ := isInt
      dsimp only
      rw [hstring, if_neg Bool.false_ne_true, Option.map_some]
      refine (field_iff hstring harray sample.raw).trans ⟨fun hsize => ?_, ?_⟩
      · refine ⟨nofun, nofun, fun hcpu => (by omega), ?_⟩
        intro other found hcolumn hfound
        cases Nat.add_right_cancel hcolumn
        cases hformat.symm.trans hfound
        exact hsize
      · exact fun fits => fits.size index format rfl hformat

theorem SameInteger.filterHolds_eq (same : SameInteger fields sample column)
    (lib : Library Sample) (compared : op ≠ .glob) (constant : Int) :
    filterHolds (lib.reading fields) sample ⟨column, op, .int constant⟩ =
      selects op (.integer constant) (perfTpXColumn fields sample column) := by
  obtain ⟨value, hfield, hcolumn⟩ := same
  have hread : (lib.reading fields).perfTpField sample column = .int value := hfield
  refine (Sql.filterHolds_eq (lib.reading fields) (show (OneOp.mk column op (.int constant)).op ≠
    .glob from compared) sample).trans ?_
  rw [hread, hcolumn]
  exact opHolds_compares (int_compares value constant) op

/-- Whether an integer column has one value for an event, and gives one answer
to a `WHERE` clause, in the virtual table, the file and the regular table. -/
theorem integer_columns_agree_iff (lib : Library Sample)
    (fields : List FormatField) (colUsed : BitVec 64) (samples : List Sample)
    (column : Nat) (isInt : columnIsInt fields column = true) :
    ((∀ sample ∈ samples,
        ∃ value, perfTpField fields sample column = .int value ∧
          perfTpXColumn fields sample column = some (.integer value) ∧
          (sqlTpFileSample fields sample)[column]? = some (.integer value) ∧
          (column ∈ sqlTpMemCreateTable colUsed fields →
            memColumn colUsed fields sample column = some (.integer value))) ∧
      ∀ op, op ≠ .glob →
        ∀ constant, ScanSelects (lib.reading fields) samples
            ⟨column, op, .int constant⟩ (fun sample => selects op
              (.integer constant) (sqlTpFileSample fields sample)[column]?) ∧
          (column ∈ sqlTpMemCreateTable colUsed fields →
            ScanSelects (lib.reading fields) samples ⟨column, op, .int constant⟩
              (fun sample => selects op (.integer constant)
                (memColumn colUsed fields sample column)))) ↔
      ∀ sample ∈ samples, Fits fields sample column := by
  constructor
  · rintro ⟨hvalues, _⟩ sample member
    obtain ⟨value, hfield, hcolumn, _⟩ := hvalues sample member
    exact (sameInteger_iff isInt sample).mp ⟨value, hfield, hcolumn⟩
  · intro hfits
    have hsame : ∀ sample ∈ samples, SameInteger fields sample column :=
      fun sample member => (sameInteger_iff isInt sample).mpr (hfits sample member)
    refine ⟨fun sample member => ?_, fun op compared constant => ⟨?_, ?_⟩⟩
    · obtain ⟨value, hfield, hcolumn⟩ := hsame sample member
      refine ⟨value, hfield, hcolumn, ?_, fun created => ?_⟩
      · rw [sqlTpFileSample_column, hcolumn]
      · rw [memColumn_eq colUsed created, hcolumn]
    · apply (scanSelects_iff _ _ _ _).mpr
      intro sample member
      rw [sqlTpFileSample_column]
      exact (hsame sample member).filterHolds_eq lib compared constant
    · intro created
      apply (scanSelects_iff _ _ _ _).mpr
      intro sample member
      rw [memColumn_eq colUsed created]
      exact (hsame sample member).filterHolds_eq lib compared constant

def sampleLibrary : Library Sample where
  perfTpField := perfTpField []
  strglob _ _ := false
  qsort := List.insertionSort (·.value ≤ ·.value)
  qsort_perm := valueSort_perm
  qsort_sorted := valueSort_sorted

def prioField : FormatField := ⟨8, 4, false, false, false, true⟩

def prioSample : Sample :=
  ⟨7, 7, 5, 0, 1, [1, 0, 0, 0, 7, 0, 0, 0, 254, 255, 255, 255]⟩

theorem integer_columns_agree_iff_prio :
    (perfTpField [prioField] prioSample 8 = .int (-2)) ∧
    ∀ op, op ≠ .glob →
      ∀ constant, ScanSelects (sampleLibrary.reading [prioField]) [prioSample]
        ⟨8, op, .int constant⟩ (fun sample => selects op (.integer constant)
          (sqlTpFileSample [prioField] sample)[8]?) := by
  refine ⟨by decide +kernel, fun op compared constant => ?_⟩
  refine (((integer_columns_agree_iff sampleLibrary [prioField] 0 [prioSample] 8
    rfl).mpr ?_).2 op compared constant).1
  intro sample _
  refine ⟨nofun, nofun, nofun, ?_⟩
  intro index format hcolumn hformat
  obtain rfl : index = 0 := by omega
  cases hformat
  decide

def exitedSample : Sample :=
  ⟨7, 4294967295, 5, 0, 1, [1, 0, 0, 0, 7, 0, 0, 0]⟩

/-- The constraint `_tid = -1` does not find the event whose `_tid` is -1 in the
other tables. -/
theorem exited_tid_differs :
    perfTpField [] exitedSample 1 = .int 4294967295 ∧
    perfTpXColumn [] exitedSample 1 = some (.integer (-1)) ∧
    (sqlTpFileSample [] exitedSample)[1]? = some (.integer (-1)) ∧
    ¬ ScanSelects (sampleLibrary.reading []) [exitedSample] ⟨1, .eq, .int (-1)⟩
      (fun sample =>
        selects .eq (.integer (-1)) (sqlTpFileSample [] sample)[1]?) := by
  refine ⟨by decide +kernel, by decide +kernel, by decide +kernel, ?_⟩
  intro hselects
  have hsame := (scanSelects_iff _ _ _ _).mp hselects exitedSample (List.mem_singleton_self _)
  revert hsame
  decide +kernel

end PerfProf.Sql
