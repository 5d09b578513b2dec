import PerfProf.Data.Stream

namespace PerfProf.Expr

/-! The words the expression compiler emits and the virtual machine executes. -/

abbrev Byte := BitVec 8

abbrev Word := BitVec 64

abbrev Mem := Word → Byte

namespace Mem

def bytes (mem : Mem) (addr : Word) : Nat → Nat
  | 0 => 0
  | count + 1 => (mem addr).toNat + 256 * mem.bytes (addr + 1) count

/-- `*(unsigned T *)addr` for a `count`-byte type. -/
def zeroExtended (mem : Mem) (addr : Word) (count : Nat) : Word :=
  BitVec.ofNat 64 (mem.bytes addr count)

/-- `*(T *)addr` for a signed `count`-byte type. -/
def signExtended (mem : Mem) (addr : Word) (count : Nat) : Word :=
  (BitVec.ofNat (8 * count) (mem.bytes addr count)).signExtend 64

def set (mem : Mem) (addr : Word) (byte : Byte) : Mem :=
  fun other => if other = addr then byte else mem other

/-- `*(T *)addr = value` for a `count`-byte type. -/
def store (mem : Mem) (addr : Word) : Nat → Word → Mem
  | 0, _ => mem
  | count + 1, value => (mem.set addr (value.truncate 8)).store (addr + 1) count (value >>> 8)

end Mem

abbrev CHAR : Nat := 0
abbrev SHORT : Nat := 1
abbrev INT : Nat := 2
abbrev LONG : Nat := 3
abbrev ARRAY : Nat := 4
abbrev UNSIGNED : Nat := 8
abbrev PTR : Nat := 16

/-- `t & ~UNSIGNED`. -/
def signless (type : Nat) : Nat := type - (type &&& UNSIGNED)

/-- `case LI` of the machine: what a load of this type leaves in `a`. -/
def loadTyped (mem : Mem) (addr : Word) (type : Word) : Option Word :=
  match type.toNat with
  | 0 => some (mem.signExtended addr 1)
  | 8 => some (mem.zeroExtended addr 1)
  | 1 => some (mem.signExtended addr 2)
  | 9 => some (mem.zeroExtended addr 2)
  | 2 => some (mem.signExtended addr 4)
  | 10 => some (mem.zeroExtended addr 4)
  | 3 => some (mem.zeroExtended addr 8)
  | 11 => some (mem.zeroExtended addr 8)
  | 16 => some (mem.zeroExtended addr 8)
  | _ => none

/-- How many bytes `case SI` of the machine stores. -/
def storedBytes (type : Word) : Option Nat :=
  match type.toNat with
  | 0 => some 1
  | 8 => some 1
  | 1 => some 2
  | 9 => some 2
  | 2 => some 4
  | 10 => some 4
  | 3 => some 8
  | 11 => some 8
  | 16 => some 8
  | _ => none

/-- Whether `count` bytes at `addr` meet `length` bytes at `base`. -/
def overlaps (base : Word) (length : Nat) (addr : Word) (count : Nat) : Bool :=
  decide ((addr - base).toNat < length) || decide ((base - addr).toNat < count)

inductive Op where
  | lea | imm | jmp | jsr | bz | bnz | ent | adj | li | si | lev | psh
  | ltu | gtu | leu | geu
  | or | xor | and | eq | ne | lt | gt | le | ge | shl | shr | sar
  | add | sub | mul | div | mod | divu | modu
  | prtf | ksym | nthl | nths | strncmp | comm | wildcard | streq | strne
  | syscall | kvmexit | system | exit
  deriving DecidableEq, Repr

namespace Op

def all : List Op :=
  [.lea, .imm, .jmp, .jsr, .bz, .bnz, .ent, .adj, .li, .si, .lev, .psh, .ltu, .gtu, .leu, .geu,
    .or, .xor, .and, .eq, .ne, .lt, .gt, .le, .ge, .shl, .shr, .sar,
    .add, .sub, .mul, .div, .mod, .divu, .modu,
    .prtf, .ksym, .nthl, .nths, .strncmp, .comm, .wildcard, .streq, .strne,
    .syscall, .kvmexit, .system, .exit]

def word (op : Op) : Word := BitVec.ofNat 64 (all.idxOf op)

def ofWord? (word : Word) : Option Op := all[word.toNat]?

@[simp] theorem ofWord?_word (op : Op) : ofWord? op.word = some op := by
  cases op <;> rfl

theorem word_inj {first second : Op} (same : first.word = second.word) :
    first = second :=
  Option.some.inj (by rw [← ofWord?_word, same, ofWord?_word])

def isJump : Op → Bool
  | .jmp | .bz | .bnz => true
  | _ => false

/-- The library calls an identifier of class `Sys` stands for. -/
def isLibrary : Op → Bool
  | .prtf | .ksym | .nthl | .nths | .strncmp | .comm | .syscall | .kvmexit
  | .system => true
  | _ => false

end Op

/-- An opcode is followed by an operand when it is at most `SI`. -/
def hasOperand (word : Word) : Bool := word.sle Op.si.word

def truth (flag : Bool) : Word := if flag then 1 else 0

/-- The operators that take `*sp++` on the left and `a` on the right.  An
operator that traps has no value. -/
def Op.binary : Op → Option (Word → Word → Option Word)
  | .or => some fun left right => some (left ||| right)
  | .xor => some fun left right => some (left ^^^ right)
  | .and => some fun left right => some (left &&& right)
  | .eq => some fun left right => some (truth (left == right))
  | .ne => some fun left right => some (truth (left != right))
  | .lt => some fun left right => some (truth (left.slt right))
  | .gt => some fun left right => some (truth (right.slt left))
  | .le => some fun left right => some (truth (left.sle right))
  | .ge => some fun left right => some (truth (right.sle left))
  | .ltu => some fun left right => some (truth (left.ult right))
  | .gtu => some fun left right => some (truth (right.ult left))
  | .leu => some fun left right => some (truth (left.ule right))
  | .geu => some fun left right => some (truth (right.ule left))
  | .shl => some fun left right => some (left <<< (right.toNat % 64))
  | .shr => some fun left right => some (left >>> (right.toNat % 64))
  | .sar => some fun left right => some (left.sshiftRight (right.toNat % 64))
  | .add => some fun left right => some (left + right)
  | .sub => some fun left right => some (left - right)
  | .mul => some fun left right => some (left * right)
  | .div => some fun left right =>
      if right = 0 ∨ left = BitVec.intMin 64 ∧ right = -1 then none
      else some (left.sdiv right)
  | .mod => some fun left right =>
      if right = 0 ∨ left = BitVec.intMin 64 ∧ right = -1 then none
      else some (left.srem right)
  | .divu => some fun left right =>
      if right = 0 then none else some (left / right)
  | .modu => some fun left right =>
      if right = 0 then none else some (left % right)
  | _ => none

end PerfProf.Expr
