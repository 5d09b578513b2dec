import PerfProf.Expr.Lex

namespace PerfProf.Expr

/-! `expr_compile_flags()`: the precedence-climbing compiler `expr()` and the
relocation of jump targets.  Code beyond 1024 words ends the compilation with
`overflow`. -/

inductive Failure where
  | synerr (message : String)
  | declaration
  | overflow
  | fuel
  deriving DecidableEq, Repr

/-- Places where the compiler looks at, or appends to, code whose last words it
has not just written itself.  They are recorded and never read. -/
inductive Event where
  /-- `*(e-1) == LI` is tested on this code before the load is moved. -/
  | look (code : List Word)
  /-- `*(e-1) == LI` is tested on this code for a cast, which then replaces the
  last word by this type. -/
  | cast (code : List Word) (type : Nat)
  /-- `LI` is appended to this code for a unary `*`. -/
  | deref (code : List Word)
  /-- A library function is called with this many arguments. -/
  | call (opcode : Word) (count : Nat)
  deriving DecidableEq, Repr

/-- The compiler's globals: `code` is `le[1..e]`, `stale` what `e` has left
behind in the words after it. -/
structure Compiler where
  lex : Lexer
  code : List Word
  stale : List Word
  ty : Nat
  trace : List Event
  deriving DecidableEq, Repr

abbrev Compiled := Except Failure Compiler

def address (base : Word) (index : Nat) : Word :=
  base + BitVec.ofNat 64 (8 * index)

def ofType (type : Nat) : Word := BitVec.ofNat 64 type

def sizeOf (type : Nat) : Nat := 2 ^ signless type

def typeop (op : Token) (ty : Nat) : Nat :=
  match op with
  | .sizeof => if PTR ≤ ty then 8 else sizeOf ty
  | .assign => if PTR ≤ ty then PTR else ty
  | .inc | .dec =>
    if PTR + PTR ≤ ty then 8 else if PTR ≤ ty then sizeOf (ty - PTR) else 1
  | _ => if PTR + PTR ≤ ty then 8 else sizeOf (ty - PTR)

def isCharPtr (type : Nat) : Bool := signless type == CHAR ||| PTR

def unsignedOperands (left right : Nat) : Bool :=
  decide (PTR ≤ left) || decide (PTR ≤ right) || (left ||| right) &&& UNSIGNED != 0

/-- `*(e-1)`; the word before the first one emitted is zero. -/
def nextToLast (code : List Word) : Word := code.dropLast.getLast?.getD 0

namespace Compiler

def tk (s : Compiler) : Token := s.lex.tk

def next (s : Compiler) : Compiler := { s with lex := s.lex.next }

def withType (s : Compiler) (ty : Nat) : Compiler := { s with ty := ty }

def record (s : Compiler) (event : Event) : Compiler :=
  { s with trace := event :: s.trace }

/-- `*++e = word` for each word. -/
def emit (s : Compiler) (words : List Word) : Compiled :=
  if s.code.length + words.length ≤ 1023 then
    .ok { s with
      code := s.code ++ words, stale := s.stale.drop words.length }
  else .error .overflow

/-- `*++e = op; d = ++e`: the operand keeps what the buffer holds there. -/
def emitJump (s : Compiler) (op : Op) : Compiled :=
  s.emit [op.word, (s.stale.drop 1).headD 0]

/-- `*d = target` for the operand at place `d` of the code. -/
def patch (s : Compiler) (d : Nat) (target : Word) : Compiler :=
  { s with code := s.code.set d target }

def expect (s : Compiler) (token : Token) (message : String) : Compiled :=
  if s.tk = token then .ok s.next else .error (.synerr message)

def look (s : Compiler) : Compiler := s.record (.look s.code)

def lookForCast (s : Compiler) (type : Nat) : Compiler :=
  s.record (.cast s.code type)

def looksLoaded (s : Compiler) : Bool := nextToLast s.code == Op.li.word

/-- `*e = type`. -/
def retype (s : Compiler) (type : Nat) : Compiler :=
  { s with code := s.code.dropLast ++ [ofType type] }

/-- `e -= 2`. -/
def dropLoad (s : Compiler) : Compiler :=
  { s with
    code := s.code.dropLast.dropLast
    stale := s.code.drop (s.code.length - 2) ++ s.stale }

/-- `*--e = PSH`. -/
def pushAddress (s : Compiler) : Compiler :=
  { s with
    code := s.code.dropLast.dropLast ++ [Op.psh.word]
    stale := s.code.drop (s.code.length - 1) ++ s.stale }

/-- `*(e-1) = PSH; ++e; *e = *(e-1); *(e-1) = LI`. -/
def keepAddress (s : Compiler) : Compiled :=
  if s.code.length + 1 ≤ 1023 then
    .ok { s with
      code := s.code.dropLast.dropLast ++ [Op.psh.word, Op.li.word, s.code.getLastD 0]
      stale := s.stale.drop 1 }
  else .error .overflow

/-- `while (tk == '"') next()`. -/
def skipStrings : Nat → Compiler → Compiler
  | 0, s => s
  | fuel + 1, s => if s.tk = .quote then skipStrings fuel s.next else s

/-- `while (tk == Mul) { next(); t = t + PTR; }`. -/
def stars : Nat → Nat → Compiler → Nat × Compiler
  | 0, type, s => (type, s)
  | fuel + 1, type, s =>
    if s.tk = .mul then stars fuel (type + PTR) s.next else (type, s)

def symbolType (s : Compiler) : Nat := (s.lex.symbol?.map Symbol.type).getD 0

/-- The type name in a cast or a `sizeof`, its first word being the current
token. -/
def typeName (s : Compiler) : Nat × Compiler :=
  let type := if s.symbolType = UNSIGNED then UNSIGNED ||| INT else s.symbolType
  let s := s.next
  if s.tk = .int then
    stars (s.next.lex.p.length + 1) ((type &&& UNSIGNED) ||| s.symbolType) s.next
  else stars (s.lex.p.length + 1) type s

/-- `s->ref++`. -/
def refer (s : Compiler) (index : Nat) : Compiler :=
  { s with
    lex := { s.lex with
      symtab := s.lex.symtab.modify index fun symbol => { symbol with ref := symbol.ref + 1 } } }

section Cases

variable (expr : Token → Compiler → Compiled)

def number (s : Compiler) : Compiled := do
  let s ← s.emit [Op.imm.word, s.lex.ival]
  return s.next.withType INT

def stringLiteral (s : Compiler) : Compiled := do
  let s ← s.emit [Op.imm.word, s.lex.ival]
  let s := s.next
  return (skipStrings (s.lex.p.length + 1) s).withType (CHAR ||| PTR)

def sizeofType (s : Compiler) : Compiled := do
  let s ← s.next.expect .lparen "open paren expected in sizeof"
  if s.tk = .int then
    let named := s.typeName
    let s ← named.2.expect .rparen "close paren expected in sizeof"
    let s ← s.emit [Op.imm.word, ofType (typeop .sizeof named.1)]
    return s.withType INT
  else .error (.synerr "wrong type")

/-- `while (tk != ')') { expr(Assign); *++e = PSH; ++t; ... }`. -/
def arguments : Nat → Nat → Compiler → Except Failure (Nat × Compiler)
  | 0, _, _ => .error .fuel
  | fuel + 1, count, s =>
    if s.tk = .rparen then .ok (count, s)
    else do
      let s ← expr .assign s
      let s ← s.emit [Op.psh.word]
      arguments fuel (count + 1) (if s.tk = .comma then s.next else s)

def adjust (s : Compiler) (count : Nat) : Compiled :=
  if count = 0 then .ok s
  else s.emit [Op.adj.word, BitVec.ofNat 64 count]

/-- The function at `index` of the symbol table, its arguments being on the
stack. -/
def callFunction (index count : Nat) (s : Compiler) : Compiled :=
  match s.lex.symtab[index]? with
  | some symbol =>
    match symbol.cls with
    | .sys => do
        let s ← (s.record (.call symbol.value count)).emit [symbol.value]
        let s ← (s.refer index).adjust count
        return s.withType symbol.type
    | .fun => do
        let s ← s.emit [Op.jsr.word, symbol.value]
        let s ← (s.refer index).adjust count
        return s.withType symbol.type
    | _ => .error (.synerr "bad function call")
  | none => .error (.synerr "bad function call")

def call (fuel index : Nat) (s : Compiler) : Compiled := do
  let given ← arguments expr fuel 0 s
  callFunction index given.1 given.2.next

def loadVariable (type index : Nat) (s : Compiler) : Compiled :=
  let s := s.refer index
  if type &&& ARRAY ≠ 0 then
    .ok (s.withType ((type - ARRAY) ||| PTR))
  else do
    let s ← s.emit [Op.li.word, ofType (typeop .assign type)]
    return s.withType type

def variableAt (index : Nat) (s : Compiler) : Compiled :=
  match s.lex.symtab[index]? with
  | some symbol =>
    match symbol.cls with
    | .num => do
        let s ← s.emit [Op.imm.word, symbol.value]
        return s.withType INT
    | .loc => do
        let s ← s.emit [Op.lea.word, 0 - symbol.value]
        loadVariable symbol.type index s
    | .glo => do
        let s ← s.emit [Op.imm.word, symbol.value]
        loadVariable symbol.type index s
    | _ => .error (.synerr "undefined variable")
  | none => .error (.synerr "undefined variable")

def identifier (fuel : Nat) (s : Compiler) : Compiled :=
  let index := s.lex.id
  let s := s.next
  if s.tk = .lparen then call expr fuel index s.next
  else variableAt index s

def cast (s : Compiler) : Compiled := do
  let named := s.typeName
  let s ← named.2.expect .rparen "bad cast"
  let s ← expr .inc s
  let type := typeop .assign named.1
  let s := (s.lookForCast type).withType named.1
  return if s.looksLoaded then s.retype type else s

def parenthesis (s : Compiler) : Compiled :=
  let s := s.next
  if s.tk = .int then cast expr s
  else do
    let s ← expr .assign s
    s.expect .rparen "close paren expected"

def dereference (s : Compiler) : Compiled := do
  let s ← expr .inc s.next
  if PTR ≤ s.ty then
    let s := (s.record (.deref s.code)).withType (s.ty - PTR)
    s.emit [Op.li.word, ofType (typeop .assign s.ty)]
  else .error (.synerr "bad dereference")

def addressOf (s : Compiler) : Compiled := do
  let s ← expr .inc s.next
  let s := s.look
  if s.looksLoaded then return s.dropLoad.withType (s.ty + PTR)
  else .error (.synerr "bad address-of")

def unary (op : Op) (constant : Word) (s : Compiler) : Compiled := do
  let s ← expr .inc s.next
  let s ← s.emit [Op.psh.word, Op.imm.word, constant, op.word]
  return s.withType INT

def logicalNot (s : Compiler) : Compiled := unary expr .eq 0 s

def complement (s : Compiler) : Compiled := unary expr .xor (-1) s

def plus (s : Compiler) : Compiled := do
  let s ← expr .inc s.next
  return s.withType INT

def minus (s : Compiler) : Compiled :=
  let s := s.next
  if s.tk = .num then do
    let s ← s.emit [Op.imm.word, -s.lex.ival]
    return s.next.withType INT
  else do
    let s ← s.emit [Op.imm.word, -1, Op.psh.word]
    let s ← expr .inc s
    let s ← s.emit [Op.mul.word]
    return s.withType INT

def stepOp (token : Token) : Op := if token = .inc then .add else .sub

def backOp (token : Token) : Op := if token = .inc then .sub else .add

def stepVariable (token : Token) (message : String) (s : Compiler) :
    Compiled := do
  let s := s.look
  if s.looksLoaded then
    let s ← s.keepAddress
    s.emit [Op.psh.word, Op.imm.word, ofType (typeop token s.ty),
      (stepOp token).word, Op.si.word, ofType (typeop .assign s.ty)]
  else .error (.synerr message)

def preIncrement (s : Compiler) : Compiled := do
  let token := s.tk
  let s ← expr .inc s.next
  stepVariable token "bad lvalue in pre-increment" s

/-- The part of `expr()` before its loop. -/
def operand (fuel : Nat) (s : Compiler) : Compiled :=
  match s.tk with
  | .eof => .error (.synerr "unexpected eof in expression")
  | .num => number s
  | .quote => stringLiteral s
  | .sizeof => sizeofType s
  | .id => identifier expr fuel s
  | .lparen => parenthesis expr s
  | .mul => dereference expr s
  | .and => addressOf expr s
  | .not => logicalNot expr s
  | .wildcard => complement expr s
  | .add => plus expr s
  | .sub => minus expr s
  | .inc => preIncrement expr s
  | .dec => preIncrement expr s
  | _ => .error (.synerr "bad expression")

variable (le : Word)

def assignment (s : Compiler) : Compiled :=
  let type := s.ty
  let s := s.next.look
  if s.looksLoaded then do
    let s ← expr .assign s.pushAddress
    s.withType type |>.emit [Op.si.word, ofType (typeop .assign type)]
  else .error (.synerr "bad lvalue in assignment")

def conditional (s : Compiler) : Compiled := do
  let s ← s.next.emitJump .bz
  let d := s.code.length - 1
  let s ← expr .assign s
  let s ← s.expect .colon "conditional missing colon"
  let s := s.patch d (address le (s.code.length + 3))
  let s ← s.emitJump .jmp
  let d := s.code.length - 1
  let s ← expr .cond s
  return s.patch d (address le (s.code.length + 1))

/-- `||` and `&&`: jump over the right operand when the left one decides. -/
def shortCircuit (jump : Op) (level : Token) (s : Compiler) : Compiled := do
  let s ← s.next.emitJump jump
  let d := s.code.length - 1
  let s ← expr level s
  return (s.patch d (address le (s.code.length + 1))).withType INT

def binary (level : Token) (op : Nat → Nat → Op) (s : Compiler) : Compiled := do
  let type := s.ty
  let s ← s.next.emit [Op.psh.word]
  let s ← expr level s
  let s ← s.emit [(op type s.ty).word]
  return s.withType INT

/-- `==` and `!=` compare the strings two `char *` point to. -/
def equality (strings words : Op) (left right : Nat) : Op :=
  if isCharPtr left && isCharPtr right then strings else words

def signedness (unsigned signed : Op) (left right : Nat) : Op :=
  if unsignedOperands left right then unsigned else signed

def wildcardMatch (s : Compiler) : Compiled := do
  if isCharPtr s.ty then
    let s ← s.next.emit [Op.psh.word]
    let s ← expr .shl s
    if isCharPtr s.ty then
      let s ← s.emit [Op.wildcard.word]
      return s.withType INT
    else .error (.synerr "~ operator requires char * operand")
  else .error (.synerr "~ operator requires char * operand")

/-- Multiply the index on the right of a pointer by the size of what it points
to, unless that is a character. -/
def scaled (op : Token) (type : Nat) (s : Compiler) : Compiled :=
  if PTR < type then
    s.emit [Op.psh.word, Op.imm.word, ofType (typeop op type), Op.mul.word]
  else .ok s

def addition (s : Compiler) : Compiled := do
  let type := s.ty
  let s ← s.next.emit [Op.psh.word]
  let s ← expr .mul s
  let s ← (s.withType type).scaled .add type
  s.emit [Op.add.word]

def subtraction (s : Compiler) : Compiled := do
  let type := s.ty
  let s ← s.next.emit [Op.psh.word]
  let s ← expr .mul s
  if PTR < type ∧ type = s.ty then
    let s ← s.emit [Op.sub.word, Op.psh.word, Op.imm.word, ofType (typeop .sub s.ty), Op.div.word]
    return s.withType INT
  else
    let s ← (s.withType type).scaled .sub type
    s.emit [Op.sub.word]

def postIncrement (s : Compiler) : Compiled := do
  let token := s.tk
  let s ← stepVariable token "bad lvalue in post-increment" s
  let s ← s.emit [Op.psh.word, Op.imm.word, ofType (typeop token s.ty), (backOp token).word]
  return s.next

def subscript (s : Compiler) : Compiled := do
  let type := s.ty
  let s ← s.next.emit [Op.psh.word]
  let s ← expr .assign s
  let s ← s.expect .rbrack "close bracket expected"
  if type < PTR then .error (.synerr "pointer type expected")
  else
    let s ← s.scaled .brak type
    let s := s.withType (type - PTR)
    s.emit [Op.add.word, Op.li.word, ofType (typeop .assign s.ty)]

/-- One round of the loop of `expr()`. -/
def operator (s : Compiler) : Compiled :=
  match s.tk with
  | .assign => assignment expr s
  | .cond => conditional expr le s
  | .lor => shortCircuit expr le .bnz .lan s
  | .lan => shortCircuit expr le .bz .or s
  | .or => binary expr .xor (fun _ _ => .or) s
  | .xor => binary expr .and (fun _ _ => .xor) s
  | .and => binary expr .eq (fun _ _ => .and) s
  | .eq => binary expr .lt (equality .streq .eq) s
  | .ne => binary expr .lt (equality .strne .ne) s
  | .lt => binary expr .shl (signedness .ltu .lt) s
  | .gt => binary expr .shl (signedness .gtu .gt) s
  | .le => binary expr .shl (signedness .leu .le) s
  | .ge => binary expr .shl (signedness .geu .ge) s
  | .wildcard => wildcardMatch expr s
  | .shl => binary expr .add (fun _ _ => .shl) s
  | .shr => binary expr .add (signedness .shr .sar) s
  | .add => addition expr s
  | .sub => subtraction expr s
  | .mul => binary expr .inc (fun _ _ => .mul) s
  | .div => binary expr .inc (signedness .divu .div) s
  | .mod => binary expr .inc (signedness .modu .mod) s
  | .inc => postIncrement s
  | .dec => postIncrement s
  | .brak => subscript expr s
  | _ => .error (.synerr "compiler error")

/-- `while (tk >= lev)`. -/
def climb (level : Token) : Nat → Compiler → Compiled
  | 0, s => if level.code ≤ s.tk.code then .error .fuel else .ok s
  | fuel + 1, s =>
    if level.code ≤ s.tk.code then do
      let s ← operator expr le s
      climb level fuel s
    else .ok s

end Cases

/-- `expr(level)`. -/
def expr (le : Word) : Nat → Token → Compiler → Compiled
  | 0, _, _ => .error .fuel
  | fuel + 1, level, s => do
      let s ← operand (expr le fuel) fuel s
      climb (expr le fuel) le level fuel s

/-- `do { next(); expr(Assign); } while (tk == ',')`. -/
def exprs (le : Word) : Nat → Compiler → Compiled
  | 0, _ => .error .fuel
  | fuel + 1, s => do
      let s ← expr le fuel .assign s.next
      if s.tk = .comma then exprs le fuel s else .ok s

end Compiler

structure Declare where
  name : List Byte
  offset : Nat
  size : Nat
  elementsize : Nat
  isUnsigned : Bool
  deriving DecidableEq, Repr

/-- Where the allocator puts the buffers (`insn` is where `realloc` moves the
code), and the `ival` an earlier compilation left. -/
structure Alloc where
  le : Word
  insn : Word
  data : Word
  str : Word
  glo : Word
  ival : Word
  deriving DecidableEq, Repr

structure Prog where
  insn : Word
  words : List Word
  symtab : List Symbol
  data : Word
  datalen : Nat
  str : Word
  strsize : Nat
  deriving DecidableEq, Repr

namespace Lexer

def addKey (lex : Lexer) (name : String) (token : Token) (type : Nat) : Lexer :=
  { lex with p := text name }.next.setSymbol fun symbol =>
    { symbol with token := token, cls := .none, type := type, value := 0 }

def addLib (lex : Lexer) (name : String) (type : Nat) (op : Op) : Lexer :=
  { lex with p := text name }.next.setSymbol fun symbol =>
    { symbol with cls := .sys, type := type, value := op.word }

/-- `ADD_GLO`, also used for the declared globals. -/
def addGlo (lex : Lexer) (name : List Byte) (type : Nat) (value : Word) :
    Lexer :=
  { lex with p := name }.next.setSymbol fun symbol =>
    { symbol with cls := .glo, type := type, value := value }

def keywords (lex : Lexer) : Lexer :=
  lex.addKey "char" .int CHAR |>.addKey "short" .int SHORT
    |>.addKey "int" .int INT |>.addKey "long" .int LONG
    |>.addKey "unsigned" .int UNSIGNED |>.addKey "sizeof" .sizeof INT

def library (lex : Lexer) : Lexer :=
  lex.addLib "printf" INT .prtf |>.addLib "ksymbol" (CHAR ||| PTR) .ksym
    |>.addLib "ntohl" INT .nthl |>.addLib "ntohs" SHORT .nths
    |>.addLib "strncmp" INT .strncmp |>.addLib "comm_get" (CHAR ||| PTR) .comm
    |>.addLib "syscall_name" (CHAR ||| PTR) .syscall
    |>.addLib "exit_reason_str" (CHAR ||| PTR) .kvmexit
    |>.addLib "system" INT .system

/-- `_cpu` and `_pid`, the default globals. -/
def sampleGlobals (glo : Word) (lex : Lexer) : Lexer :=
  lex.addGlo (text "_cpu") INT glo |>.addGlo (text "_pid") INT (glo + 4)

end Lexer

namespace Declare

def basicType (elementsize : Nat) : Option Nat :=
  match elementsize with
  | 1 => some CHAR
  | 2 => some SHORT
  | 4 => some INT
  | 8 => some LONG
  | _ => none

def type (declare : Declare) : Option Nat :=
  (basicType declare.elementsize).map fun basic =>
    let shaped :=
      if declare.size ≠ declare.elementsize then basic ||| ARRAY else basic
    if declare.isUnsigned then shaped ||| UNSIGNED else shaped

/-- `max_offset` over the declarations. -/
def maxOffset (declares : List Declare) : Nat :=
  declares.foldl (fun bound declare => max bound (declare.offset + declare.size)) 0

end Declare

/-- Enter the declared globals, for a data buffer at `data` that has become
large enough. -/
def Lexer.declareAll (data : Word) : List Declare → Lexer → Except Failure Lexer
  | [], lex => .ok lex
  | declare :: rest, lex =>
    match declare.type with
    | none => .error .declaration
    | some type =>
      declareAll data rest (lex.addGlo declare.name type (data + BitVec.ofNat 64 declare.offset))

def isJumpWord (word : Word) : Bool :=
  word == Op.jmp.word || word == Op.jsr.word || word == Op.bz.word || word == Op.bnz.word

def relocate (moved : Word) : List Word → List Word
  | [] => []
  | [word] => [word]
  | word :: operand :: rest =>
    if hasOperand word then
      word :: (if isJumpWord word then operand - moved else operand) :: relocate moved rest
    else word :: relocate moved (operand :: rest)

def symbols (alloc : Alloc) (sampleGlo : Bool) (declares : List Declare) :
    Except Failure Lexer :=
  let start : Lexer :=
    { p := [], tk := .eof, ival := alloc.ival, id := 0, symtab := []
      str := alloc.str, strLen := 0 }
  let lex := start.keywords.library
  let lex := if sampleGlo then lex.sampleGlobals alloc.glo else lex
  lex.declareAll alloc.data declares

def finish (alloc : Alloc) (declares : List Declare) (s : Compiler) : Prog :=
  let datalen := Declare.maxOffset declares
  let strsize := s.lex.strLen
  { insn := alloc.insn
    words :=
      if alloc.insn = alloc.le then s.code
      else relocate (alloc.le - alloc.insn) s.code
    symtab := s.lex.symtab
    data := if datalen = 0 then 0 else alloc.data
    datalen := datalen
    str := if strsize = 0 then 0 else alloc.str
    strsize := strsize }

/-- `expr_compile_flags()`; `sampleGlo` is false under `EXPR_F_NO_SAMPLE_GLO`.
-/
def compile (fuel : Nat) (alloc : Alloc) (sampleGlo : Bool)
    (declares : List Declare) (source : List Byte) :
    Except Failure (Prog × List Event) := do
  let lex ← symbols alloc sampleGlo declares
  let start : Compiler :=
    { lex := { lex with p := source }, code := [], stale := [], ty := 0
      trace := [] }
  let s ← Compiler.exprs alloc.le fuel start
  let s ← s.emit [Op.exit.word]
  return (finish alloc declares s, s.trace)

end PerfProf.Expr
