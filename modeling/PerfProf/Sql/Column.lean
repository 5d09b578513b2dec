import PerfProf.Data.Bytes
import PerfProf.Sql.Cursor

namespace PerfProf.Sql

open PerfProf.Data

/-! The columns of an event table and the functions that read their values. -/

def signed (bits : Nat) (value : Int) : Int := value.bmod (2 ^ bits)

structure FormatField where
  offset : Nat
  size : Nat
  isString : Bool
  isArray : Bool
  isDynamic : Bool
  isSigned : Bool
  deriving DecidableEq, Repr

/-- `struct sql_sample_type`.  `raw` is the memory from `raw.data` on, which
begins with a `struct trace_entry`. -/
structure Sample where
  pid : UInt32
  tid : UInt32
  time : UInt64
  cpu : UInt32
  period : UInt64
  raw : Bytes
  deriving DecidableEq, Repr

namespace Sample

def commonFlags (sample : Sample) : Nat := field sample.raw 2 1

def commonPreemptCount (sample : Sample) : Nat := field sample.raw 3 1

def commonPid (sample : Sample) : Int := signed 32 (field sample.raw 4 4)

end Sample

namespace FormatField

def number (format : FormatField) (base : Bytes) : Int :=
  if format.isSigned then
    if format.size = 1 then signed 8 (field base format.offset 1)
    else if format.size = 2 then signed 16 (field base format.offset 2)
    else if format.size = 4 then signed 32 (field base format.offset 4)
    else if format.size = 8 then signed 64 (field base format.offset 8)
    else 0
  else
    if format.size = 1 then field base format.offset 1
    else if format.size = 2 then field base format.offset 2
    else if format.size = 4 then field base format.offset 4
    else if format.size = 8 then signed 64 (field base format.offset 8)
    else 0

def place (format : FormatField) (base : Bytes) : Nat :=
  if format.isDynamic then field base format.offset 2 else format.offset

def dynamicLen (format : FormatField) (base : Bytes) : Nat :=
  field base (format.offset + 2) 2

end FormatField

def charPtr (base : Bytes) (place : Nat) : List Nat :=
  (stringAt base place).map UInt8.toNat

def bytesAt (base : Bytes) (place len : Nat) : List Nat :=
  (List.range len).map fun index => (base.getD (place + index) 0).toNat

def columnIsInt (fields : List FormatField) (column : Nat) : Bool :=
  if column < 8 then true
  else match fields[column - 8]? with
    | some format => !format.isString && !format.isArray
    | none => false

def columnIsStr (fields : List FormatField) (column : Nat) : Bool :=
  if column < 8 then false
  else match fields[column - 8]? with
    | some format => format.isString
    | none => false

def perfTpField (fields : List FormatField) (sample : Sample) : Nat → Value
  | 0 => .int sample.pid.toNat
  | 1 => .int sample.tid.toNat
  | 2 => .int (signed 64 sample.time.toNat)
  | 3 => .int sample.cpu.toNat
  | 4 => .int (signed 64 sample.period.toNat)
  | 5 => .int sample.commonFlags
  | 6 => .int sample.commonPreemptCount
  | 7 => .int sample.commonPid
  | index + 8 =>
    match fields[index]? with
    | none => .int (-1)
    | some format =>
      if format.isString then
        .text (charPtr sample.raw (format.place sample.raw))
      else .int (format.number sample.raw)

inductive SqlValue where
  | null
  | integer (value : Int)
  | text (bytes : List Nat)
  | blob (bytes : List Nat)
  deriving DecidableEq, Repr

namespace SqlValue

def resultInt (value : Int) : SqlValue := .integer (signed 32 value)

def resultInt64 (value : Int) : SqlValue := .integer (signed 64 value)

end SqlValue

def Sample.common (sample : Sample) : List SqlValue :=
  [.resultInt sample.pid.toNat, .resultInt sample.tid.toNat,
    .resultInt64 sample.time.toNat, .resultInt sample.cpu.toNat,
    .resultInt64 sample.period.toNat, .resultInt sample.commonFlags,
    .resultInt sample.commonPreemptCount, .resultInt sample.commonPid]

def FormatField.result (format : FormatField) (base : Bytes) : SqlValue :=
  if format.isString then
    .text (if format.isDynamic then
      bytesAt base (format.place base) (format.dynamicLen base)
    else charPtr base (format.place base))
  else if format.isArray then
    .blob (bytesAt base (format.place base)
      (if format.isDynamic then format.dynamicLen base else format.size))
  else if format.size ≤ 8 then .resultInt64 (format.number base)
  else .null

/-- `none` for `SQLITE_ERROR`. -/
def perfTpXColumn (fields : List FormatField) (sample : Sample) (column : Nat) :
    Option SqlValue :=
  if column < 8 then sample.common[column]?
  else (fields[column - 8]?).map (·.result sample.raw)

/-- The row that `sql_tp_file_sample` inserts. -/
def sqlTpFileSample (fields : List FormatField) (sample : Sample) :
    List SqlValue :=
  sample.common ++ fields.map (·.result sample.raw)

def columnUsed (colUsed : BitVec 64) (column : Nat) : Bool :=
  if column < 8 then colUsed.getLsbD column
  else !(column < 64 && !colUsed.getLsbD column)

/-- The elements from column `start` on that are in the regular table. -/
def keepUsed {α : Type} (colUsed : BitVec 64) : Nat → List α → List α
  | _, [] => []
  | start, entry :: rest =>
    if columnUsed colUsed start then entry :: keepUsed colUsed (start + 1) rest
    else keepUsed colUsed (start + 1) rest

def sqlTpMemCreateTable (colUsed : BitVec 64) (fields : List FormatField) :
    List Nat :=
  keepUsed colUsed 0 (List.range 8 ++ (List.range fields.length).map (8 + ·))

/-- The values that `sql_tp_mem_sample` binds for the regular table. -/
def memInsert (colUsed : BitVec 64) (fields : List FormatField)
    (sample : Sample) : List SqlValue :=
  keepUsed colUsed 0 (sample.common ++ fields.map (·.result sample.raw))

def memColumn (colUsed : BitVec 64) (fields : List FormatField)
    (sample : Sample) (column : Nat) : Option SqlValue :=
  ((sqlTpMemCreateTable colUsed fields).zip (memInsert colUsed fields sample)).lookup column

/-- The text of an operator that `xFilter` copies out of an SQL value. -/
def opText (constant : List Nat) : Value :=
  .text (constant.takeWhile (· ≠ 0))

/-- `memcmp` over the length of the shorter one. -/
def memcmp : List Nat → List Nat → Ordering
  | left :: lefts, right :: rights =>
    if left = right then memcmp lefts rights
    else if left < right then .lt
    else .gt
  | _, _ => .eq

def binaryCompare (left right : List Nat) : Ordering :=
  match memcmp left right with
  | .eq => compare left.length right.length
  | order => order

def Op.accepts : Op → Ordering → Bool
  | .eq, order => order = .eq
  | .gt, order => order = .gt
  | .le, order => order ≠ .gt
  | .lt, order => order = .lt
  | .ge, order => order ≠ .lt
  | .ne, order => order ≠ .eq
  | .glob, _ => false

namespace SqlValue

/-- Numbers before texts before blobs; nothing compares with `NULL`. -/
def compare : SqlValue → SqlValue → Option Ordering
  | null, _ | _, null => none
  | integer left, integer right => some (Ord.compare left right)
  | text left, text right => some (binaryCompare left right)
  | blob left, blob right => some (binaryCompare left right)
  | integer _, _ | text _, blob _ => some .lt
  | _, _ => some .gt

def holds (value : SqlValue) (op : Op) (constant : SqlValue) : Bool :=
  match value.compare constant with
  | some order => op.accepts order
  | none => false

end SqlValue

def selects (op : Op) (constant : SqlValue) : Option SqlValue → Bool
  | some value => value.holds op constant
  | none => false

def Library.reading (lib : Library Sample) (fields : List FormatField) :
    Library Sample :=
  { lib with perfTpField := Sql.perfTpField fields }

end PerfProf.Sql
