import PerfProf.Breakpoint.Insn

namespace PerfProf.Breakpoint

/-! What the instructions do according to the Intel SDM: the opcode map, the
operands and the effect on the destination. -/

namespace Sdm

inductive Operation where
  | mov | cmpxchg | add | or | and | sub | xor | inc | dec | not | neg
  | rol | ror | shl | shr | sar | bts | btr | btc
  deriving DecidableEq, Repr

inductive Source where
  | reg | acc | imm | imm8 | one | cl
  deriving DecidableEq, Repr

/-- An entry of the opcode map: `byte` for the operands `Eb` and `Ob`. -/
structure Form where
  operation : Operation
  byte : Bool
  source : Source
  deriving DecidableEq, Repr

def group1 : Nat → Option Operation
  | 0 => some .add | 1 => some .or | 4 => some .and | 5 => some .sub
  | 6 => some .xor | _ => none

def group2 : Nat → Option Operation
  | 0 => some .rol | 1 => some .ror | 4 => some .shl | 5 => some .shr
  | 7 => some .sar | _ => none

def group8 : Nat → Option Operation
  | 5 => some .bts | 6 => some .btr | 7 => some .btc | _ => none

def form (opcode opext : Nat) : Option Form :=
  let entry := fun (byte : Bool) (source : Source) (operation : Operation) =>
    ({ operation := operation, byte := byte, source := source } : Form)
  match opcode with
  | 0x00 => some (entry true .reg .add)
  | 0x01 => some (entry false .reg .add)
  | 0x08 => some (entry true .reg .or)
  | 0x09 => some (entry false .reg .or)
  | 0x20 => some (entry true .reg .and)
  | 0x21 => some (entry false .reg .and)
  | 0x28 => some (entry true .reg .sub)
  | 0x29 => some (entry false .reg .sub)
  | 0x30 => some (entry true .reg .xor)
  | 0x31 => some (entry false .reg .xor)
  | 0x80 => (group1 opext).map (entry true .imm)
  | 0x81 | 0x83 => (group1 opext).map (entry false .imm)
  | 0x88 => some (entry true .reg .mov)
  | 0x89 => some (entry false .reg .mov)
  | 0xA2 => some (entry true .acc .mov)
  | 0xA3 => some (entry false .acc .mov)
  | 0xC0 => (group2 opext).map (entry true .imm8)
  | 0xC1 => (group2 opext).map (entry false .imm8)
  | 0xC6 => if opext = 0 then some (entry true .imm .mov) else none
  | 0xC7 => if opext = 0 then some (entry false .imm .mov) else none
  | 0xD0 => (group2 opext).map (entry true .one)
  | 0xD1 => (group2 opext).map (entry false .one)
  | 0xD2 => (group2 opext).map (entry true .cl)
  | 0xD3 => (group2 opext).map (entry false .cl)
  | 0xF6 =>
    match opext with
    | 2 => some (entry true .one .not)
    | 3 => some (entry true .one .neg)
    | _ => none
  | 0xF7 =>
    match opext with
    | 2 => some (entry false .one .not)
    | 3 => some (entry false .one .neg)
    | _ => none
  | 0xFE =>
    match opext with
    | 0 => some (entry true .one .inc)
    | 1 => some (entry true .one .dec)
    | _ => none
  | 0xFF =>
    match opext with
    | 0 => some (entry false .one .inc)
    | 1 => some (entry false .one .dec)
    | _ => none
  | 0xAB0F => some (entry false .reg .bts)
  | 0xB00F => some (entry true .reg .cmpxchg)
  | 0xB10F => some (entry false .reg .cmpxchg)
  | 0xB30F => some (entry false .reg .btr)
  | 0xBA0F => (group8 opext).map (entry false .imm8)
  | 0xBB0F => some (entry false .reg .btc)
  | _ => none

variable (insn : Insn)

def bits (form : Form) : Nat := if form.byte then 8 else 8 * insn.opnd.toNat

def register (regs : Regs) (byte : Bool) (width : Nat) : BitVec width :=
  let number := insn.modrmReg +
    if (insn.rex.getD 0).getLsbD 2 then 8 else 0
  if byte ∧ insn.rex.getD 0 = 0 ∧ 4 ≤ number then
    ((regs.gpr (number - 4)).extractLsb' 8 8).setWidth width
  else (regs.gpr number).setWidth width

def source (regs : Regs) (form : Form) (width : Nat) : BitVec width :=
  match form.source with
  | .reg => register insn regs form.byte width
  | .acc => (regs.gpr 0).setWidth width
  | .imm => (insn.immediate1.getD 0).signExtend width
  | .imm8 => ((insn.immediate1.getD 0).setWidth 8).setWidth width
  | .one => 1
  | .cl => ((regs.gpr 1).setWidth 8).setWidth width

def count (regs : Regs) (form : Form) : Nat :=
  (source insn regs form 8).toNat

/-- The destination behind the instruction, `cmpxchg` apart. -/
def result {width : Nat} (operation : Operation) (count : Nat)
    (dest src : BitVec width) : BitVec width :=
  let masked := if width = 64 then count % 64 else count % 32
  match operation with
  | .mov | .cmpxchg => src
  | .add => dest + src
  | .or => dest ||| src
  | .and => dest &&& src
  | .sub => dest - src
  | .xor => dest ^^^ src
  | .inc => dest + 1
  | .dec => dest - 1
  | .not => ~~~ dest
  | .neg => -dest
  | .rol => dest.rotateLeft masked
  | .ror => dest.rotateRight masked
  | .shl => dest <<< masked
  | .shr => dest >>> masked
  | .sar => dest.sshiftRight masked
  | .bts => dest ||| BitVec.twoPow width (src.toNat % width)
  | .btr => dest &&& ~~~ BitVec.twoPow width (src.toNat % width)
  | .btc => dest ^^^ BitVec.twoPow width (src.toNat % width)

def writeAcc (regs : Regs) {width : Nat} (value : BitVec width) : Regs :=
  let acc :=
    if width < 32 then
      (regs.gpr 0 &&& ~~~ (BitVec.allOnes width).setWidth 64) ||| value.setWidth 64
    else value.setWidth 64
  { regs with gpr := fun reg => if reg = 0 then acc else regs.gpr reg }

/-- The registers and the destination behind an instruction.  `CMPXCHG` loads an
unequal destination into the accumulator. -/
def execute (regs : Regs) (flags : Word) (form : Form) (old : Word) :
    Regs × BitVec (bits insn form) :=
  let dest := old.setWidth (bits insn form)
  let src := source insn regs form (bits insn form)
  match form.operation with
  | .cmpxchg =>
    if (regs.gpr 0).setWidth (bits insn form) = dest then
      ({ regs with flags := flags ||| 0x40 }, src)
    else
      ({ writeAcc regs dest with flags := flags &&& ~~~ 0x40 }, dest)
  | operation =>
    ({ regs with flags := flags },
      result operation (count insn regs form) dest src)

/-- With a VEX or EVEX prefix the opcode is of another map, and the destination
receives elements of a vector register. -/
def perform (regs : Regs) (flags : Word) (form : Form) (old : Word) :
    Regs × BitVec (bits insn form) :=
  match insn.vector with
  | some stored => ({ regs with flags := flags }, stored.setWidth (bits insn form))
  | none => execute insn regs flags form old

/-- The opcodes of the other maps that store to memory: `VPMOVS*`, `VMOVAPS`,
the scatters and `VMASKMOVDQU`. -/
def vectorStores : List Nat := [0x20, 0x21, 0x29, 0x30, 0x31, 0xA2, 0xA3, 0xF7]

end Sdm

structure Accepted (bp : HwBreakpoint) (ctxtSafety : Bool) where
  insn : Insn
  accepted : supported bp ctxtSafety insn = true
  single : insn.immediate2 = none
  vectorCoded : insn.vector ≠ none → insn.opcode.value ∈ Sdm.vectorStores

end PerfProf.Breakpoint
