import PerfProf.Expr.Compile

namespace PerfProf.Expr

/-! `expr_run()`.  The program counter is an index into `insn`, the stack the
list of words from `sp` up, and `bp` the number of words above the frame. -/

structure Vm where
  pc : Nat
  stack : List Word
  bp : Nat
  a : Word
  mem : Mem

structure Library where
  call : Op → Vm → Word
  above : Word
  stackTop : Word

inductive Outcome where
  | next (vm : Vm)
  | ret (value : Word) (vm : Vm)
  | trap
  | wild
  /-- A store has reached `insn` or `stack`: what is executed from here on need
  not be what was compiled and pushed. -/
  | clobbers

namespace Prog

def word? (prog : Prog) (index : Nat) : Option Word :=
  if index = 0 then some 0 else prog.words[index - 1]?

def nrInsn (prog : Prog) : Nat := prog.words.length + 1

def index? (prog : Prog) (pointer : Word) : Option Nat :=
  let distance := (pointer - prog.insn).toNat
  if distance % 8 = 0 then some (distance / 8) else none

/-- Whether a store meets the instructions or `stack[512]`. -/
def clobbered (prog : Prog) (lib : Library) (addr : Word) (count : Nat) :
    Bool :=
  overlaps prog.insn (8 * prog.nrInsn) addr count ||
    overlaps (lib.stackTop - 4096) 4096 addr count

end Prog

/-- `ntohl` of the lower half of a word, as an `int`. -/
def ntohl (word : Word) : Word :=
  ((word.extractLsb' 0 8 ++ word.extractLsb' 8 8 ++ word.extractLsb' 16 8 ++
    word.extractLsb' 24 8 : BitVec 32)).signExtend 64

/-- `ntohs` of the lower quarter of a word, as a `short`. -/
def ntohs (word : Word) : Word :=
  ((word.extractLsb' 0 8 ++ word.extractLsb' 8 8 : BitVec 16)).signExtend 64

namespace Vm

def jump (prog : Prog) (pointer : Word) (vm : Vm) : Outcome :=
  match prog.index? pointer with
  | some index => .next { vm with pc := index }
  | none => .wild

def push (word : Word) (vm : Vm) : Option Vm :=
  if vm.stack.length < 512 then some { vm with stack := word :: vm.stack }
  else none

/-- `*pc++` for the instructions with an operand. -/
def withOperand (prog : Prog) (vm : Vm) (use : Word → Vm → Outcome) : Outcome :=
  match prog.word? vm.pc with
  | some operand => use operand { vm with pc := vm.pc + 1 }
  | none => .wild

def withTop (vm : Vm) (use : Word → Vm → Outcome) : Outcome :=
  match vm.stack with
  | top :: rest => use top { vm with stack := rest }
  | [] => .wild

/-- The address of a stack slot that has `depth` words from it up. -/
def slot (lib : Library) (depth : Nat) : Word :=
  lib.stackTop - BitVec.ofNat 64 (8 * depth)

def depth? (lib : Library) (pointer : Word) : Option Nat :=
  let distance := (lib.stackTop - pointer).toNat
  if distance % 8 = 0 then some (distance / 8) else none

/-- `case JSR`: the return address is the word behind the operand. -/
def enterCall (prog : Prog) (target : Word) (vm : Vm) : Outcome :=
  match vm.push (address prog.insn vm.pc) with
  | some vm => vm.jump prog target
  | none => .wild

/-- `case ENT`. -/
def enterFrame (lib : Library) (size : Word) (vm : Vm) : Outcome :=
  match vm.push (slot lib vm.bp) with
  | some vm =>
    if vm.stack.length + size.toNat ≤ 512 then
      .next { vm with
        bp := vm.stack.length
        stack := List.replicate size.toNat 0 ++ vm.stack }
    else .wild
  | none => .wild

/-- `case LEV`. -/
def leaveFrame (prog : Prog) (lib : Library) (vm : Vm) : Outcome :=
  match vm.stack.drop (vm.stack.length - vm.bp) with
  | frame :: pointer :: rest =>
    match depth? lib frame with
    | some depth => { vm with stack := rest, bp := depth }.jump prog pointer
    | none => .wild
  | _ => .wild

/-- `case ADJ`. -/
def adjust (count : Word) (vm : Vm) : Outcome :=
  if count.toNat ≤ vm.stack.length then
    .next { vm with stack := vm.stack.drop count.toNat }
  else .wild

/-- `case LI`; a type the machine does not know ends the run. -/
def loadInt (type : Word) (vm : Vm) : Outcome :=
  match loadTyped vm.mem vm.a type with
  | some value => .next { vm with a := value }
  | none => .ret (-1) vm

/-- `case SI`. -/
def storeInt (prog : Prog) (lib : Library) (type : Word) (vm : Vm) : Outcome :=
  vm.withTop fun top vm =>
    match storedBytes type with
    | some count =>
      if prog.clobbered lib top count then .clobbers
      else .next { vm with mem := vm.mem.store top count vm.a }
    | none => .ret (-1) vm

def operate (lib : Library) (op : Op) (vm : Vm) : Outcome :=
  match op with
  | .wildcard | .streq | .strne => vm.withTop fun _ rest => .next { rest with a := lib.call op vm }
  | _ =>
    match op.binary with
    | some apply =>
      vm.withTop fun top rest =>
        match apply top rest.a with
        | some value => .next { rest with a := value }
        | none => .trap
    | none => .next { vm with a := lib.call op vm }

/-- The body of `switch (i)`, the opcode having been read. -/
def execute (prog : Prog) (lib : Library) (op : Op) (vm : Vm) : Outcome :=
  match op with
  | .lea => vm.withOperand prog fun operand vm =>
      .next { vm with a := slot lib vm.bp + 8 * operand }
  | .imm => vm.withOperand prog fun operand vm => .next { vm with a := operand }
  | .jmp => vm.withOperand prog fun target vm => vm.jump prog target
  | .jsr => vm.withOperand prog fun target vm => vm.enterCall prog target
  | .bz => vm.withOperand prog fun target vm =>
      if vm.a = 0 then vm.jump prog target else .next vm
  | .bnz => vm.withOperand prog fun target vm =>
      if vm.a = 0 then .next vm else vm.jump prog target
  | .ent => vm.withOperand prog fun size vm => vm.enterFrame lib size
  | .adj => vm.withOperand prog fun count vm => vm.adjust count
  | .li => vm.withOperand prog fun type vm => vm.loadInt type
  | .si => vm.withOperand prog fun type vm => vm.storeInt prog lib type
  | .lev => vm.leaveFrame prog lib
  | .psh =>
    match vm.push vm.a with
    | some vm => .next vm
    | none => .wild
  | .nthl => .next { vm with a := ntohl (vm.stack.headD lib.above) }
  | .nths => .next { vm with a := ntohs (vm.stack.headD lib.above) }
  | .exit => .ret vm.a vm
  | _ => vm.operate lib op

/-- One round of `while (1)`. -/
def step (prog : Prog) (lib : Library) (vm : Vm) : Outcome :=
  match prog.word? vm.pc with
  | none => .wild
  | some word =>
    match Op.ofWord? word with
    | none => .ret (-1) { vm with pc := vm.pc + 1 }
    | some op => execute prog lib op { vm with pc := vm.pc + 1 }

def start (mem : Mem) : Vm :=
  { pc := 1, stack := [], bp := 0, a := 0, mem := mem }

/-- At most `fuel` rounds; the outcome is `next` when they were not enough. -/
def run (prog : Prog) (lib : Library) : Nat → Vm → Outcome
  | 0, vm => .next vm
  | fuel + 1, vm =>
    match vm.step prog lib with
    | .next vm => run prog lib fuel vm
    | outcome => outcome

end Vm

end PerfProf.Expr
