import Mathlib.Algebra.Order.Ring.Int
import Mathlib.Data.BitVec

namespace PerfProf.Breakpoint

/-! Write instructions and the values they leave: `decode_data()` and
`supported()` of `breakpoint.c`. -/

abbrev Byte := BitVec 8

abbrev Word := BitVec 64

inductive OpndBytes where
  | two | four | eight
  deriving DecidableEq, Repr

def OpndBytes.toNat : OpndBytes → Nat
  | .two => 2 | .four => 4 | .eight => 8

/-- `insn->opcode`: one byte, or two of which the first is 0x0f. -/
inductive Opcode where
  | one (op : Byte)
  | two (op : Byte)
  | longer
  deriving DecidableEq, Repr

namespace Opcode

def nbytes : Opcode → Nat
  | .one _ => 1 | .two _ => 2 | .longer => 3

def value : Opcode → Nat
  | .one op => op.toNat
  | .two op => 0x0f + 256 * op.toNat
  | .longer => 0x380f

def lastByte : Opcode → Byte
  | .one op => op
  | .two op => op
  | .longer => 0

end Opcode

/-- A decoded instruction; a field that was not got is none.  `vector` is what a
VEX or EVEX prefix makes it leave in its destination. -/
structure Insn where
  opcode : Opcode
  opnd : OpndBytes
  rex : Option Byte
  modrm : Option Byte
  immediate1 : Option (BitVec 32)
  immediate2 : Option (BitVec 32)
  vector : Option Word
  deriving DecidableEq, Repr

/-- `struct sample_regs_intr`, the general registers by their numbers. -/
structure Regs where
  gpr : Nat → Word
  ip : Word
  flags : Word

def Regs.read (regs : Regs) (reg : Nat) : Word :=
  if reg < 16 then regs.gpr reg
  else if reg = 16 then regs.ip
  else if reg = 17 then regs.flags
  else 0

def byteMask (n : Nat) : Word := (1#64 <<< (8 * n)) - 1

namespace Insn

variable (insn : Insn)

def modrmReg : Nat := (((insn.modrm.getD 0) >>> 3) &&& 7).toNat

def isByteop : Bool :=
  if insn.opcode.value = 0xBA0F then false
  else !insn.opcode.lastByte.getLsbD 0

def bytesOf (byteop : Bool) : Nat := if byteop then 1 else insn.opnd.toNat

/-- `bytes == 8 ? data : (data & byte_mask(bytes))`. -/
def masked (byteop : Bool) (data : Word) : Word :=
  if insn.bytesOf byteop = 8 then data
  else data &&& byteMask (insn.bytesOf byteop)

def regNumber : Nat :=
  (if (insn.rex.getD 0).getLsbD 2 then 8 else 0) + insn.modrmReg

def opsrcReg (regs : Regs) (byteop : Bool) : Word :=
  let highbyte := insn.rex.getD 0 = 0 ∧ byteop = true
  let data :=
    if highbyte ∧ 4 ≤ insn.regNumber ∧ insn.regNumber < 8 then
      regs.read (insn.regNumber % 4) >>> 8
    else regs.read insn.regNumber
  insn.masked byteop data

def opsrcAcc (regs : Regs) (byteop : Bool) : Word :=
  insn.masked byteop (regs.read 0)

def opsrcImm (byteop signExtension : Bool) : Word :=
  let size := if insn.bytesOf byteop = 8 then 4 else insn.bytesOf byteop
  let data := (insn.immediate2.getD 0).signExtend 64
  let data := (data <<< 32) ||| (insn.immediate1.getD 0).signExtend 64
  let data := if signExtension then data else data &&& byteMask size
  insn.masked byteop data

def opsrcCL (regs : Regs) : Word := regs.read 1 &&& 0xff

end Insn

/-- The labels `ADD`, `SUB`, `OR`, `AND` and `XOR` of `decode_data()`. -/
inductive Arith where
  | add | sub | or | and | xor
  deriving DecidableEq, Repr

def Arith.apply : Arith → Word → Word → Word
  | .add, old, data => old + data
  | .sub, old, data => old - data
  | .or, old, data => old ||| data
  | .and, old, data => old &&& data
  | .xor, old, data => old ^^^ data

def grp1 : Nat → Option Arith
  | 0 => some .add | 1 => some .or | 4 => some .and | 5 => some .sub
  | 6 => some .xor | _ => none

def onLow (bits : Nat) (apply : BitVec bits → BitVec bits) (data : Word) :
    Word :=
  let low := (apply (data.setWidth bits)).setWidth 64
  if bits < 32 then (data &&& ~~~ (BitVec.allOnes bits).setWidth 64) ||| low
  else low

def countMask (bits : Nat) (count : Nat) : Nat :=
  if bits = 64 then count % 64 else count % 32

/-- The label `Grp2`; none where the shift is not defined in C. -/
def grp2 (opext bytes : Nat) (data : Word) (shift : Byte) : Option Word :=
  let bits := 8 * bytes
  let count := shift.toNat
  let defined := if bits = 64 then 64 else 32
  match opext with
  | 0 => some (onLow bits (·.rotateLeft (countMask bits count)) data)
  | 1 => some (onLow bits (·.rotateRight (countMask bits count)) data)
  | 4 => if count < 64 then some (data <<< count) else none
  | 5 =>
    if count < defined then some ((data.setWidth bits).setWidth 64 >>> count)
    else none
  | 7 =>
    if count < defined then
      some (((data.setWidth bits).signExtend 64).sshiftRight count)
    else none
  | _ => some 0

/-- The label `BTSRC` from `switch (opext)` on. -/
def btsrc (opext : Nat) (data : Word) (bitoffset : Nat) : Word :=
  match opext with
  | 5 => data ||| BitVec.twoPow 64 bitoffset
  | 6 => data &&& ~~~ BitVec.twoPow 64 bitoffset
  | 7 => data ^^^ BitVec.twoPow 64 bitoffset
  | _ => 0

/-- `decode_data()`; none where C leaves the value undefined. -/
def decodeData (insn : Insn) (regs : Regs) (old : Word) : Option Word :=
  let byteop := insn.isByteop
  let bytes := insn.bytesOf byteop
  let reg := insn.opsrcReg regs byteop
  let imm := insn.opsrcImm byteop true
  let imm8 := insn.opsrcImm true true
  let arith := fun (arith : Arith) (data : Word) => some (insn.masked byteop (arith.apply old data))
  let shifted := fun (shift : Byte) => (grp2 insn.modrmReg bytes old shift).map (insn.masked byteop)
  let bit := fun (opext : Nat) (bitoffset : Word) =>
    some (insn.masked byteop (btsrc opext old (bitoffset.toNat % (bytes * 8))))
  match insn.opcode.value with
  | 0x88 | 0x89 => some reg
  | 0xA2 | 0xA3 => some (insn.opsrcAcc regs byteop)
  | 0xC6 | 0xC7 => some imm
  | 0xB00F | 0xB10F =>
    if (regs.read 17).getLsbD 6 then some reg
    else some (insn.opsrcAcc regs byteop)
  | 0x00 | 0x01 => arith .add reg
  | 0x80 | 0x81 | 0x83 =>
    match grp1 insn.modrmReg with
    | some op => arith op imm
    | none => some 0
  | 0x28 | 0x29 => arith .sub reg
  | 0x08 | 0x09 => arith .or reg
  | 0x20 | 0x21 => arith .and reg
  | 0x30 | 0x31 => arith .xor reg
  | 0xFE | 0xFF =>
    match insn.modrmReg with
    | 0 => some (insn.masked byteop (old + 1))
    | 1 => some (insn.masked byteop (old - 1))
    | _ => some 0
  | 0xF6 | 0xF7 =>
    match insn.modrmReg with
    | 2 => some (insn.masked byteop (~~~ old))
    | 3 => some (insn.masked byteop (-old))
    | _ => some 0
  | 0xC0 | 0xC1 => shifted (imm8.setWidth 8)
  | 0xD0 | 0xD1 => shifted 1
  | 0xD2 | 0xD3 => shifted ((Insn.opsrcCL regs).setWidth 8)
  | 0xAB0F => bit 5 (insn.opsrcReg regs false)
  | 0xB30F => bit 6 (insn.opsrcReg regs false)
  | 0xBB0F => bit 7 (insn.opsrcReg regs false)
  | 0xBA0F => bit insn.modrmReg imm8
  | _ => some 0

def safety (insn : Insn) : Bool :=
  match insn.opcode.value with
  | 0x88 | 0x89 | 0xA2 | 0xA3 | 0xC6 | 0xC7 | 0xB00F | 0xB10F => true
  | _ => false

structure HwBreakpoint where
  type : Byte
  deriving DecidableEq, Repr

/-- The `switch (op)` of `supported()`. -/
def supportedOpcode (insn : Insn) : Bool :=
  match insn.opcode.value with
  | 0x88 | 0x89 | 0xA2 | 0xA3 => true
  | 0xC6 | 0xC7 => insn.modrmReg == 0
  | 0xB00F | 0xB10F | 0x00 | 0x01 => true
  | 0x80 | 0x81 | 0x83 => !(insn.modrmReg == 2 || insn.modrmReg == 3 || insn.modrmReg == 7)
  | 0x28 | 0x29 | 0x08 | 0x09 | 0x20 | 0x21 | 0x30 | 0x31 => true
  | 0xFE | 0xFF => insn.modrmReg == 0 || insn.modrmReg == 1
  | 0xF6 | 0xF7 => insn.modrmReg == 2 || insn.modrmReg == 3
  | 0xC0 | 0xC1 | 0xD0 | 0xD1 | 0xD2 | 0xD3 =>
    !(insn.modrmReg == 2 || insn.modrmReg == 3 || insn.modrmReg == 6)
  | 0xAB0F | 0xB30F | 0xBB0F => true
  | 0xBA0F => !decide (insn.modrmReg ≤ 4)
  | _ => false

/-- `supported()`; `HW_BREAKPOINT_W` is 2. -/
def supported (bp : HwBreakpoint) (ctxtSafety : Bool) (insn : Insn) : Bool :=
  decide (bp.type = 2) && decide (insn.opcode.nbytes ≤ 2) &&
    insn.modrm.isSome && supportedOpcode insn && (safety insn || ctxtSafety)

end PerfProf.Breakpoint
