import PerfProf.Sql.Agreement

namespace PerfProf.Sql

open PerfProf.Data

theorem strcmp_eq_iff (left right : List Nat) :
    strcmp left right = .eq ↔ left = right := by
  have hcompares := strcmp_compares left right
  constructor
  · intro hsame
    rw [hsame] at hcompares
    exact Value.text.inj hcompares
  · rintro rfl
    cases horder : strcmp left left with
    | eq => rfl
    | lt =>
      rw [horder] at hcompares
      exact absurd hcompares (lt_irrefl (Value.text left))
    | gt =>
      rw [horder] at hcompares
      exact absurd hcompares (lt_irrefl (Value.text left))

theorem strcmp_lt_iff (left right : List Nat) :
    strcmp left right = .lt ↔ left < right := by
  have hcompares := strcmp_compares left right
  rw [← Value.text_lt_text]
  cases horder : strcmp left right with
  | lt =>
    rw [horder] at hcompares
    exact ⟨fun _ => hcompares, fun _ => rfl⟩
  | eq =>
    rw [horder] at hcompares
    exact ⟨nofun, fun hless => absurd hless hcompares.not_lt⟩
  | gt =>
    rw [horder] at hcompares
    exact ⟨nofun, fun hless => absurd hless hcompares.not_gt⟩

def commonLen : List Nat → List Nat → Nat
  | left :: lefts, right :: rights =>
    if left = right then commonLen lefts rights + 1 else 0
  | _, _ => 0

/-- `held` is the string in the event, `text` what `xColumn` makes of it.
Strings that are equal up to the first zero must be equal; of different ones,
`text` reaches to the difference, or is the smaller one anyway. -/
def Alike (held text constant : List Nat) : Prop :=
  if held = constant.takeWhile (· ≠ 0) then text = constant
  else commonLen held (constant.takeWhile (· ≠ 0)) < text.length ∨ held < constant.takeWhile (· ≠ 0)

instance (held text constant : List Nat) :
    Decidable (Alike held text constant) := by
  unfold Alike
  infer_instance

section Compare

theorem strcmp_zero_cons {byte : Nat} (nonzero : byte ≠ 0)
    (lefts rights : List Nat) : strcmp (0 :: lefts) (byte :: rights) = .lt := by
  rw [strcmp, if_neg nonzero.symm, if_pos (Nat.pos_of_ne_zero nonzero)]

theorem strcmp_behind {byte : Nat} (nonzero : byte ≠ 0)
    (ends : ∀ next ∈ more.head?, next = 0) (lefts : List Nat) :
    strcmp (byte :: lefts) more = .gt := by
  cases more with
  | nil => rfl
  | cons next rest =>
    obtain rfl := ends next rfl
    rw [strcmp, if_neg nonzero, if_neg (Nat.not_lt_zero byte)]

theorem strcmp_agrees_iff (ends : ∀ next ∈ more.head?, next = 0)
    {held cut : List Nat} (hheld : 0 ∉ held) (hcut : 0 ∉ cut) (len : Nat) :
    strcmp held cut = strcmp ((held ++ 0 :: tail).take len) (cut ++ more) ↔
      if held = cut then
        (held ++ 0 :: tail).take len = cut ++ more
      else
        commonLen held cut < ((held ++ 0 :: tail).take len).length ∨
        strcmp held cut = .lt := by
  induction held generalizing cut len with
  | nil =>
    cases cut with
    | nil =>
      rw [if_pos rfl, ← strcmp_eq_iff]
      exact eq_comm
    | cons right rights =>
      have hright : right ≠ 0 := fun hzero => hcut (hzero ▸ List.mem_cons_self)
      rw [if_neg (List.cons_ne_nil _ _).symm]
      refine ⟨fun _ => .inr rfl, fun _ => ?_⟩
      cases len with
      | zero => rfl
      | succ len => exact (strcmp_zero_cons hright _ _).symm
  | cons left lefts ih =>
    have hleft : left ≠ 0 := fun hzero => hheld (hzero ▸ List.mem_cons_self)
    have hlefts : 0 ∉ lefts := fun member => hheld (List.mem_cons_of_mem _ member)
    cases cut with
    | nil =>
      rw [if_neg (List.cons_ne_nil _ _)]
      cases len with
      | zero =>
        have hnot : strcmp [] more ≠ .gt := by
          cases more <;> nofun
        refine ⟨fun hsame => absurd hsame.symm hnot, ?_⟩
        rintro (hshort | hless)
        · cases hshort
        · cases hless
      | succ len =>
        exact ⟨fun _ => .inl (Nat.succ_pos _), fun _ => (strcmp_behind hleft ends _).symm⟩
    | cons right rights =>
      have hrights : 0 ∉ rights := fun member => hcut (List.mem_cons_of_mem _ member)
      cases len with
      | zero =>
        rw [show strcmp ((left :: lefts ++ 0 :: tail).take 0)
          (right :: rights ++ more) = .lt from rfl]
        by_cases hequal : left :: lefts = right :: rights
        · rw [if_pos hequal, (strcmp_eq_iff _ _).mpr hequal]
          exact ⟨nofun, nofun⟩
        · rw [if_neg hequal]
          exact ⟨.inr, fun halike => halike.resolve_left (Nat.not_lt_zero _)⟩
      | succ len =>
        by_cases hsame : left = right
        · subst hsame
          simp only [List.cons_append, List.take_succ_cons, strcmp, commonLen, if_true,
            List.cons.injEq, true_and, List.length_cons, Nat.add_lt_add_iff_right]
          exact ih hlefts hrights len
        · rw [if_neg fun hequal => hsame (List.cons.inj hequal).1]
          refine ⟨fun _ => .inl ?_, fun _ => ?_⟩
          · rw [commonLen, if_neg hsame]
            exact Nat.succ_pos _
          · simp only [List.cons_append, List.take_succ_cons, strcmp, if_neg hsame]

end Compare

theorem zero_notMem_takeWhile (bytes : List Nat) :
    0 ∉ bytes.takeWhile (· ≠ 0) := by
  intro member
  have hnonzero := List.mem_takeWhile_imp member
  simp at hnonzero

theorem head_dropWhile {bytes : List Nat} {next : Nat}
    (hnext : next ∈ (bytes.dropWhile (· ≠ 0)).head?) : next = 0 := by
  have hzero := List.head?_dropWhile_not (· ≠ 0) bytes
  rw [Option.mem_def.mp hnext] at hzero
  simpa using hzero

theorem bytesAt_take (base : Bytes) (place len : Nat) :
    bytesAt base place len =
      ((base.drop place).map UInt8.toNat ++ List.replicate (len + 1) 0).take
        len := by
  apply List.ext_getElem
  · simp only [bytesAt, List.length_map, List.length_range, List.length_take,
      List.length_append, List.length_replicate]
    omega
  · intro index hleft hright
    simp only [bytesAt, List.getElem_map, List.getElem_range, List.getElem_take,
      List.getElem_append, List.getElem_drop, List.getElem_replicate,
      List.length_map, List.length_drop]
    split
    · rw [List.getD_eq_getElem _ _ (by omega)]
    · rw [List.getD_eq_default _ _ (by omega)]
      rfl

theorem bytesAt_eq (base : Bytes) (place len : Nat) :
    ∃ tail,
      bytesAt base place len = (charPtr base place ++ 0 :: tail).take len := by
  rw [bytesAt_take, charPtr, stringAt]
  have hsplit : (base.drop place).map UInt8.toNat =
      ((base.drop place).takeWhile (· ≠ 0)).map UInt8.toNat ++
        ((base.drop place).dropWhile (· ≠ 0)).map UInt8.toNat := by
    rw [← List.map_append, List.takeWhile_append_dropWhile]
  rw [hsplit, List.append_assoc]
  cases hrest : (base.drop place).dropWhile (· ≠ 0) with
  | nil => exact ⟨List.replicate len 0, rfl⟩
  | cons next rest =>
    have hzero := List.head?_dropWhile_not (· ≠ 0) (base.drop place)
    rw [hrest] at hzero
    obtain rfl : next = 0 := by simpa using hzero
    exact ⟨rest.map UInt8.toNat ++ List.replicate (len + 1) 0, rfl⟩

theorem zero_notMem_charPtr (base : Bytes) (place : Nat) :
    0 ∉ charPtr base place := by
  intro member
  obtain ⟨byte, hbyte, hzero⟩ := List.mem_map.mp member
  have hnonzero := List.mem_takeWhile_imp hbyte
  obtain rfl : byte = 0 := UInt8.toNat_inj.mp hzero
  simp at hnonzero

namespace FormatField

def held (format : FormatField) (base : Bytes) : List Nat :=
  charPtr base (format.place base)

/-- The text that SQLite gets: for a `__data_loc` field, as many bytes as its
length says. -/
def text (format : FormatField) (base : Bytes) : List Nat :=
  if format.isDynamic then
    bytesAt base (format.place base) (format.dynamicLen base)
  else charPtr base (format.place base)

theorem text_eq (format : FormatField) (base : Bytes) :
    ∃ tail len,
      format.text base = (format.held base ++ 0 :: tail).take len := by
  unfold text held
  cases format.isDynamic with
  | true =>
    obtain ⟨tail, htext⟩ := bytesAt_eq base (format.place base) (format.dynamicLen base)
    exact ⟨tail, format.dynamicLen base, htext⟩
  | false =>
    refine ⟨[], (charPtr base (format.place base)).length, ?_⟩
    exact (List.take_left' rfl).symm

theorem strcmp_agrees (format : FormatField) (base : Bytes)
    (constant : List Nat) :
    strcmp (format.held base) (constant.takeWhile (· ≠ 0)) =
      binaryCompare (format.text base) constant ↔
      Alike (format.held base) (format.text base) constant := by
  obtain ⟨tail, len, htext⟩ := format.text_eq base
  have hagrees := @strcmp_agrees_iff tail (constant.dropWhile (· ≠ 0)) (fun _ => head_dropWhile) _ _
    (zero_notMem_charPtr base (format.place base)) (zero_notMem_takeWhile constant) len
  rw [List.takeWhile_append_dropWhile] at hagrees
  rw [binaryCompare_eq, Alike, htext, ← strcmp_lt_iff]
  exact hagrees

end FormatField

theorem text_column {fields : List FormatField} {column : Nat}
    (isStr : columnIsStr fields column = true) :
    ∃ index format, column = index + 8 ∧
      fields[index]? = some format ∧
      ∀ sample,
        perfTpField fields sample column = .text (format.held sample.raw) ∧
        perfTpXColumn fields sample column =
          some (.text (format.text sample.raw)) := by
  obtain ⟨index, rfl⟩ : ∃ index, column = index + 8 := by
    refine ⟨column - 8, ?_⟩
    by_contra early
    rw [columnIsStr, if_pos (by omega)] at isStr
    cases isStr
  have hbehind : ¬ index + 8 < 8 := by omega
  rw [columnIsStr, if_neg hbehind, Nat.add_sub_cancel] at isStr
  cases hformat : fields[index]? with
  | none =>
    rw [hformat] at isStr
    cases isStr
  | some format =>
    rw [hformat] at isStr
    dsimp only at isStr
    refine ⟨index, format, rfl, hformat, fun sample => ⟨?_, ?_⟩⟩
    · rw [perfTpField, hformat]
      exact if_pos isStr
    · rw [perfTpXColumn, if_neg hbehind, Nat.add_sub_cancel, hformat,
        Option.map_some, FormatField.result, if_pos isStr]
      rfl

theorem accepts_inj {first second : Ordering}
    (same : ∀ op, op ≠ .glob → Op.accepts op first = Op.accepts op second) :
    first = second := by
  have hless := same .lt nofun
  have hequal := same .eq nofun
  revert hless hequal
  clear same
  cases first <;> cases second <;> decide

/-- A string column and a constant: the scans of the virtual table, through the
index or not, keep the rows that SQLite would keep for the text of the column,
if and only if the two comparisons agree for each of the strings. -/
theorem text_comparisons_agree_iff (lib : Library Sample)
    (fields : List FormatField) (samples : List Sample) (column : Nat)
    (isStr : columnIsStr fields column = true) (constant : List Nat) :
    (∀ op, op ≠ .glob →
      ScanSelects (lib.reading fields) samples ⟨column, op, opText constant⟩
        (fun sample =>
          selects op (.text constant) (perfTpXColumn fields sample column))) ↔
      ∀ sample ∈ samples, ∀ index format, column = index + 8 →
        fields[index]? = some format →
        Alike (format.held sample.raw) (format.text sample.raw) constant := by
  obtain ⟨index, format, hcolumn, hformat, htext⟩ := text_column isStr
  have hpushed : ∀ op, op ≠ .glob → ∀ sample,
      filterHolds (lib.reading fields) sample ⟨column, op, opText constant⟩ =
        op.accepts (strcmp (format.held sample.raw) (constant.takeWhile (· ≠ 0))) := by
    intro op compared sample
    refine (filterHolds_eq (lib.reading fields) (show (OneOp.mk column op (opText constant)).op ≠
      .glob from compared) sample).trans ?_
    rw [show (lib.reading fields).perfTpField sample column =
      .text (format.held sample.raw) from (htext sample).1]
    exact opHolds_compares (strcmp_compares _ _) op
  have hselects : ∀ (op : Op) (sample : Sample),
      selects op (.text constant) (perfTpXColumn fields sample column) =
        op.accepts (binaryCompare (format.text sample.raw) constant) := by
    intro op sample
    rw [(htext sample).2]
    rfl
  constructor
  · intro hscans sample member other found hother hfound
    obtain rfl : other = index := by omega
    cases hformat.symm.trans hfound
    apply (format.strcmp_agrees sample.raw constant).mp
    apply accepts_inj
    intro op compared
    rw [← hpushed op compared, ← hselects]
    exact (scanSelects_iff _ _ _ _).mp (hscans op compared) sample member
  · intro halike op compared
    apply (scanSelects_iff _ _ _ _).mpr
    intro sample member
    rw [hpushed op compared, hselects, (format.strcmp_agrees sample.raw constant).mpr
      (halike sample member index format hcolumn hformat)]

def commField : FormatField := ⟨8, 4, true, true, false, false⟩

def pathField : FormatField := ⟨8, 4, true, true, true, false⟩

def commSample : Sample :=
  ⟨7, 7, 5, 0, 1, [1, 0, 0, 0, 7, 0, 0, 0, 115, 104, 0, 0]⟩

theorem text_comparisons_agree_iff_comm :
    perfTpXColumn [commField] commSample 8 = some (.text [115, 104]) ∧
    ∀ op, op ≠ .glob →
      ScanSelects (sampleLibrary.reading [commField]) [commSample]
        ⟨8, op, opText [115, 104]⟩ (fun sample => selects op (.text [115, 104])
          (perfTpXColumn [commField] sample 8)) := by
  refine ⟨by decide +kernel, ?_⟩
  apply (text_comparisons_agree_iff sampleLibrary [commField] [commSample] 8 rfl [115, 104]).mpr
  intro sample member index format hcolumn hformat
  obtain rfl : index = 0 := by omega
  cases hformat
  cases List.mem_singleton.mp member
  decide +kernel

/-- A `__data_loc` word for the 3 bytes at offset 12: `sh` and the zero, as the
kernel stores a string. -/
def pathSample : Sample :=
  ⟨7, 7, 5, 0, 1, [1, 0, 0, 0, 7, 0, 0, 0, 12, 0, 3, 0, 115, 104, 0]⟩

/-- The constraint `path = 'sh'` finds the event; the text of its column is one
byte longer. -/
theorem dynamic_string_differs :
    filterHolds (sampleLibrary.reading [pathField]) pathSample
      ⟨8, .eq, opText [115, 104]⟩ = true ∧
    perfTpXColumn [pathField] pathSample 8 = some (.text [115, 104, 0]) ∧
    selects .eq (.text [115, 104]) (perfTpXColumn [pathField] pathSample 8) =
      false := by
  decide +kernel

end PerfProf.Sql
