import Mathlib.Algebra.Order.Ring.Int
import Mathlib.Data.List.Basic

namespace PerfProf.Order

/-! The reader side of a perf ring buffer (`struct perf_mmap`).  Positions are
byte offsets since the buffer was mapped; its content is the list of whole
records written so far.  A buffer in overwrite mode is rewritten under the
reader and has an arbitrary content (see `Action.scribble`). -/

inductive Payload where
  | sample (time : Nat)
  | lost (id lost : Nat)
  | other
  deriving DecidableEq, Repr

/-- A record as the kernel writes it: `size` is `header.size`, a `u16` that
counts the eight header bytes. -/
structure Record where
  size : Nat
  payload : Payload
  header_le : 8 ≤ size := by decide
  size_lt : size < 2 ^ 16 := by decide
  deriving DecidableEq, Repr

namespace Record

def isSample (record : Record) : Bool :=
  match record.payload with
  | .sample _ => true
  | _ => false

/-- Overwrite the `time` member of a sample. -/
def withTime (record : Record) (time : Nat) : Record :=
  match record.payload with
  | .sample _ => { record with payload := .sample time }
  | _ => record

@[simp] theorem withTime_size (record : Record) (time : Nat) :
    (record.withTime time).size = record.size := by
  unfold withTime
  split <;> rfl

theorem size_pos (record : Record) : 0 < record.size :=
  Nat.lt_of_lt_of_le (by decide) record.header_le

def short (words : UInt8) (payload : Payload) : Record where
  size := 8 + 8 * words.toNat
  payload := payload
  header_le := Nat.le_add_right _ _
  size_lt := by
    have hwords := words.toNat_lt
    omega

end Record

def bytes (records : List Record) : Nat := (records.map Record.size).sum

@[simp] theorem bytes_nil : bytes [] = 0 := rfl

@[simp] theorem bytes_cons (record : Record) (records : List Record) :
    bytes (record :: records) = record.size + bytes records := by
  simp [bytes]

@[simp] theorem bytes_append (left right : List Record) :
    bytes (left ++ right) = bytes left + bytes right := by
  simp [bytes]

def recordAt : List Record → Nat → Option Record
  | [], _ => none
  | record :: rest, position =>
    if position = 0 then some record
    else if position < record.size then none
    else recordAt rest (position - record.size)

theorem recordAt_prefix (before after : List Record) (record : Record) :
    recordAt (before ++ record :: after) (bytes before) = some record := by
  induction before with
  | nil => simp [recordAt]
  | cons head tail ih =>
    have hpos := head.size_pos
    simp only [List.cons_append, bytes_cons, recordAt]
    rw [if_neg (by omega), if_neg (by omega),
      show head.size + bytes tail - head.size = bytes tail by omega]
    exact ih

theorem recordAt_split (found : recordAt records position = some record) :
    ∃ before after, records = before ++ record :: after ∧
      bytes before = position := by
  induction records generalizing position with
  | nil => simp [recordAt] at found
  | cons head tail ih =>
    rw [recordAt] at found
    split at found
    · cases found
      exact ⟨[], tail, rfl, by simp_all⟩
    · split at found
      · cases found
      · obtain ⟨before, after, rfl, hbytes⟩ := ih found
        exact ⟨head :: before, after, rfl, by rw [bytes_cons]; omega⟩

theorem recordAt_end (records : List Record) :
    recordAt records (bytes records) = none := by
  induction records with
  | nil => rfl
  | cons head tail ih =>
    have hpos := head.size_pos
    simp only [recordAt, bytes_cons]
    rw [if_neg (by omega), if_neg (by omega),
      show head.size + bytes tail - head.size = bytes tail by omega]
    exact ih

/-- `struct perf_mmap`, the control page's `data_tail`, and the records behind
its `data_head`.  `endPos` is the member the source calls `end`. -/
structure Mmap where
  overwrite : Bool
  mask : Nat
  flush : Nat
  refcnt : Nat
  log : List Record
  tail : Nat
  prev : Nat
  start : Nat
  endPos : Nat
  deriving DecidableEq, Repr

namespace Mmap

def readHead (map : Mmap) : Nat := bytes map.log

def empty (map : Mmap) : Bool := map.readHead == map.prev

def put (map : Mmap) : Mmap := { map with refcnt := map.refcnt - 1 }

def consume (map : Mmap) : Mmap :=
  let map := { map with tail := map.prev }
  if map.refcnt = 1 ∧ map.empty then map.put else map

/-- `perf_mmap__read_init`; the flag is false for a negative return. -/
def readInit (map : Mmap) : Mmap × Bool :=
  if map.refcnt = 0 then (map, false)
  else
    let head := map.readHead
    let map := { map with start := map.prev, endPos := head }
    if map.endPos - map.start < map.flush then (map, false)
    else if map.endPos - map.start > map.mask + 1 then
      (consume { map with prev := head }, false)
    else (map, true)

/-- Whether `perf_mmap__read` has to copy the record out of the buffer. -/
def straddles (map : Mmap) (record : Record) : Bool :=
  (map.start &&& map.mask) + record.size != ((map.start + record.size) &&& map.mask)

/-- `perf_mmap__read` at `map->start`, up to `map->end`. -/
def read (map : Mmap) : Mmap × Option Record :=
  if map.endPos - map.start < 8 then (map, none)
  else
    match recordAt map.log map.start with
    | none => (map, none)
    | some record =>
      if map.endPos - map.start < record.size then (map, none)
      else ({ map with start := map.start + record.size }, some record)

/-- `perf_mmap__read_event`: the record, its position and whether it was
copied. -/
def readEvent (map : Mmap) : Mmap × Option (Nat × Record × Bool) :=
  if map.refcnt = 0 then (map, none)
  else
    let map := { map with endPos := map.readHead }
    match map.read with
    | (next, none) => ({ next with prev := next.start }, none)
    | (next, some record) =>
      ({ next with prev := next.start },
        some (map.start, record, map.straddles record))

def unreadEvent (map : Mmap) (record : Record) : Mmap :=
  if map.refcnt = 0 then map
  else
    let start := map.start - record.size
    { map with start := start, prev := start }

def readDone (map : Mmap) : Mmap :=
  if map.refcnt = 0 then map else { map with prev := map.endPos }

/-- `perf_mmap_has_space`, with the `u64` arithmetic of `CIRC_SPACE`. -/
def hasSpace (map : Mmap) (size : BitVec 64) : Bool :=
  size ≤ ((BitVec.ofNat 64 map.start - BitVec.ofNat 64 (map.endPos + 1)) &&&
    BitVec.ofNat 64 map.mask)

/-- The kernel appends one whole record when the space between head and tail
allows it (`__perf_output_begin`). -/
def append (map : Mmap) (record : Record) : Option Mmap :=
  if map.readHead + record.size - map.tail ≤ map.mask + 1 then
    some { map with log := map.log ++ [record] }
  else none

end Mmap

end PerfProf.Order
