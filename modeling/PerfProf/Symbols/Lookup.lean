import PerfProf.Data.BinarySearch
import Mathlib.Data.List.Basic

namespace PerfProf.Symbols

open Data

abbrev Byte := BitVec 8

abbrev Address := BitVec 64

structure Sym where
  name : List Byte
  start : Address
  size : BitVec 64
  deriving DecidableEq, Repr

namespace Sym

def cmp (s1 s2 : Sym) : Ordering :=
  if s1.start = s2.start then
    List.compareLex (fun a b => compare a.toNat b.toNat) s1.name s2.name
  else if s1.start < s2.start then .lt else .gt

def Reaches (sym : Sym) (offset : Address) : Prop :=
  offset ≤ sym.start + sym.size

instance (sym : Sym) (offset : Address) : Decidable (sym.Reaches offset) :=
  inferInstanceAs (Decidable (offset ≤ sym.start + sym.size))

def Covers (sym : Sym) (offset : Address) : Prop :=
  sym.start.toNat ≤ offset.toNat ∧ offset.toNat < sym.start.toNat + sym.size.toNat

instance (sym : Sym) (offset : Address) : Decidable (sym.Covers offset) :=
  inferInstanceAs (Decidable (_ ∧ _))

end Sym

/-- `obj->syms` behind the loader's `qsort()`; a table that could not be loaded
is empty. -/
structure SymTable where
  syms : List Sym
  sorted : syms.Pairwise fun s1 s2 => s1.cmp s2 ≠ .gt

namespace SymTable

def startsBy (table : SymTable) (offset : Address) (index : Nat) : Bool :=
  table.syms[index]?.any fun sym => decide (sym.start ≤ offset)

def takes (table : SymTable) (offset : Address) (index : Nat) : Option Sym :=
  table.syms[index]?.filter fun sym => decide (sym.start ≤ offset) && decide (sym.Reaches offset)

def findOffset (table : SymTable) (offset : Address) : Option Sym :=
  let start := lastTrue (table.startsBy offset) 0 (table.syms.length - 1)
  (table.takes offset start).or (if 0 < start then table.takes offset (start - 1) else none)

end SymTable

inductive ElfType where
  | exec | dyn | perfMap | vdso | unknown
  deriving DecidableEq, Repr

/-- An object; `table` is that of its `buildid_obj`. -/
structure Object where
  type : ElfType
  shAddr : Address
  shOffset : Address
  table : SymTable

structure LoadRange where
  start : Address
  finish : Address
  fileOff : Address
  deriving DecidableEq, Repr

def LoadRange.holds (addr : Address) (range : LoadRange) : Bool :=
  !(decide (addr ≤ range.start) || decide (range.finish ≤ addr))

structure Dso where
  ranges : List LoadRange
  obj : Object

def Dso.offset (dso : Dso) (range : LoadRange) (addr : Address) : Address :=
  if dso.obj.type = .dyn ∨ dso.obj.type = .vdso then
    addr - range.start + range.fileOff + (dso.obj.shAddr - dso.obj.shOffset)
  else addr

def mappings (dsos : List Dso) : List (Dso × LoadRange) :=
  dsos.flatMap fun dso => dso.ranges.map fun range => (dso, range)

structure Syms where
  dsos : List Dso
  disjoint : (mappings dsos).Pairwise fun one other =>
    one.2.finish ≤ other.2.start ∨ other.2.finish ≤ one.2.start

namespace Syms

def findDso (syms : Syms) (addr : Address) : Option (Dso × Address) :=
  syms.dsos.findSome? fun dso =>
    (dso.ranges.find? (LoadRange.holds addr)).map fun range => (dso, dso.offset range addr)

def mapAddr (syms : Syms) (addr : Address) : Option Sym :=
  (syms.findDso addr).bind fun found => found.1.obj.table.findOffset found.2

end Syms

end PerfProf.Symbols
