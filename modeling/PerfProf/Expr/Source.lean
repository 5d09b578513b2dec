import PerfProf.Expr.Compile

namespace PerfProf.Expr

/-! What an expression means: the arithmetic sublanguage with C's precedence and
associativity. -/

inductive BinOp where
  | mul | div | mod | add | sub | shl | shr
  | lt | gt | le | ge | eq | ne | and | xor | or
  deriving DecidableEq, Repr

namespace BinOp

def token : BinOp → Token
  | .mul => .mul | .div => .div | .mod => .mod | .add => .add | .sub => .sub
  | .shl => .shl | .shr => .shr | .lt => .lt | .gt => .gt | .le => .le
  | .ge => .ge | .eq => .eq | .ne => .ne | .and => .and | .xor => .xor
  | .or => .or

/-- C's precedence, from `|` at 3 up to `*` at 10. -/
def precedence : BinOp → Nat
  | .mul | .div | .mod => 10
  | .add | .sub => 9
  | .shl | .shr => 8
  | .lt | .gt | .le | .ge => 7
  | .eq | .ne => 6
  | .and => 5
  | .xor => 4
  | .or => 3

def eval (op : BinOp) (unsigned : Bool) (left right : Word) : Option Word :=
  match op with
  | .mul => some (left * right)
  | .div =>
    if right = 0 then none
    else if unsigned then some (left.udiv right)
    else if left.toInt = -2 ^ 63 ∧ right.toInt = -1 then none
    else some (BitVec.ofInt 64 (left.toInt.tdiv right.toInt))
  | .mod =>
    if right = 0 then none
    else if unsigned then some (left.umod right)
    else if left.toInt = -2 ^ 63 ∧ right.toInt = -1 then none
    else some (BitVec.ofInt 64 (left.toInt.tmod right.toInt))
  | .add => some (left + right)
  | .sub => some (left - right)
  | .shl => if right.toNat < 64 then some (left <<< right.toNat) else none
  | .shr =>
    if right.toNat < 64 then
      some (if unsigned then left >>> right.toNat
        else left.sshiftRight right.toNat)
    else none
  | .lt => some (truth (if unsigned then left.toNat < right.toNat
      else left.toInt < right.toInt))
  | .gt => some (truth (if unsigned then right.toNat < left.toNat
      else right.toInt < left.toInt))
  | .le => some (truth (if unsigned then left.toNat ≤ right.toNat
      else left.toInt ≤ right.toInt))
  | .ge => some (truth (if unsigned then right.toNat ≤ left.toNat
      else right.toInt ≤ left.toInt))
  | .eq => some (truth (left = right))
  | .ne => some (truth (left ≠ right))
  | .and => some (left &&& right)
  | .xor => some (left ^^^ right)
  | .or => some (left ||| right)

end BinOp

inductive Tree where
  | lit (value : Word)
  | field (declare : Declare)
  | paren (inner : Tree)
  | not (inner : Tree)
  | complement (inner : Tree)
  | plus (inner : Tree)
  | neg (inner : Tree)
  | bin (op : BinOp) (left right : Tree)
  | land (left right : Tree)
  | lor (left right : Tree)
  | cond (test left right : Tree)
  deriving DecidableEq, Repr

def Declare.Scalar (declare : Declare) : Prop :=
  declare.size = declare.elementsize ∧ (Declare.basicType declare.elementsize).isSome = true

def Declare.content (declare : Declare) (data : Word) (mem : Mem) : Word :=
  let addr := data + BitVec.ofNat 64 declare.offset
  if declare.isUnsigned then mem.zeroExtended addr declare.elementsize
  else mem.signExtended addr declare.elementsize

namespace Tree

def unsigned : Tree → Bool
  | .field declare => declare.isUnsigned
  | .paren inner => inner.unsigned
  | .bin .add left _ => left.unsigned
  | .bin .sub left _ => left.unsigned
  | .cond _ _ right => right.unsigned
  | _ => false

def eval (data : Word) (mem : Mem) : Tree → Option Word
  | .lit value => some value
  | .field declare => some (declare.content data mem)
  | .paren inner => inner.eval data mem
  | .not inner => (inner.eval data mem).map fun value => truth (value = 0)
  | .complement inner => (inner.eval data mem).map fun value => ~~~value
  | .plus inner => inner.eval data mem
  | .neg inner => (inner.eval data mem).map fun value => -value
  | .bin op left right =>
    (left.eval data mem).bind fun first =>
      (right.eval data mem).bind fun second =>
        op.eval (left.unsigned || right.unsigned) first second
  | .land left right =>
    (left.eval data mem).bind fun value =>
      if value = 0 then some value else right.eval data mem
  | .lor left right =>
    (left.eval data mem).bind fun value =>
      if value = 0 then right.eval data mem else some value
  | .cond test left right =>
    (test.eval data mem).bind fun value =>
      if value = 0 then right.eval data mem else left.eval data mem

end Tree

inductive Lexeme where
  | num (value : Word)
  | field (declare : Declare)
  | op (token : Token)
  deriving DecidableEq, Repr

/-- The tokens of an expression of at least the given precedence: 0 for `?:`, 1
for `||`, 2 for `&&`, 3 to 10 for the binary operators, 11 for the unary ones
and 12 for primary expressions.  Binary operators associate to the left, `?:` to
the right. -/
inductive Derives : Nat → List Lexeme → Tree → Prop
  | lit (value : Word) : Derives 12 [.num value] (.lit value)
  | field {declare : Declare} (scalar : declare.Scalar) :
      Derives 12 [.field declare] (.field declare)
  | paren {tokens : List Lexeme} {tree : Tree} (inner : Derives 0 tokens tree) :
      Derives 12 (.op .lparen :: (tokens ++ [.op .rparen])) (.paren tree)
  | not {tokens : List Lexeme} {tree : Tree} (inner : Derives 11 tokens tree) :
      Derives 11 (.op .not :: tokens) (.not tree)
  | complement {tokens : List Lexeme} {tree : Tree}
      (inner : Derives 11 tokens tree) :
      Derives 11 (.op .wildcard :: tokens) (.complement tree)
  | plus {tokens : List Lexeme} {tree : Tree} (inner : Derives 11 tokens tree) :
      Derives 11 (.op .add :: tokens) (.plus tree)
  | neg {tokens : List Lexeme} {tree : Tree} (inner : Derives 11 tokens tree) :
      Derives 11 (.op .sub :: tokens) (.neg tree)
  | bin {before behind : List Lexeme} {left right : Tree} (op : BinOp)
      (first : Derives op.precedence before left)
      (second : Derives (op.precedence + 1) behind right) :
      Derives op.precedence (before ++ .op op.token :: behind) (.bin op left right)
  | land {before behind : List Lexeme} {left right : Tree}
      (first : Derives 2 before left) (second : Derives 3 behind right) :
      Derives 2 (before ++ .op .lan :: behind) (.land left right)
  | lor {before behind : List Lexeme} {left right : Tree}
      (first : Derives 1 before left) (second : Derives 2 behind right) :
      Derives 1 (before ++ .op .lor :: behind) (.lor left right)
  | cond {before between behind : List Lexeme} {test left right : Tree}
      (first : Derives 1 before test) (second : Derives 0 between left)
      (third : Derives 0 behind right) :
      Derives 0 (before ++ .op .cond :: (between ++ .op .colon :: behind)) (.cond test left right)
  | lift {level : Nat} {tokens : List Lexeme} {tree : Tree}
      (inner : Derives (level + 1) tokens tree) : Derives level tokens tree

inductive Statements : List Lexeme → List Tree → Prop
  | last {tokens : List Lexeme} {tree : Tree} (only : Derives 0 tokens tree) :
      Statements tokens [tree]
  | comma {tokens rest : List Lexeme} {tree : Tree} {trees : List Tree}
      (first : Derives 0 tokens tree) (more : Statements rest trees) :
      Statements (tokens ++ .op .comma :: rest) (tree :: trees)

namespace Lexer

/-- The current token of the scanner is the lexeme, a field being a symbol that
was declared for the record at `data`. -/
def Shows (data : Word) (declares : List Declare) (lex : Lexer) : Lexeme → Prop
  | .num value => lex.tk = .num ∧ lex.ival = value
  | .field declare => lex.tk = .id ∧ declare ∈ declares ∧
      ∃ symbol, lex.symbol? = some symbol ∧ symbol.cls = .glo ∧ declare.type = some symbol.type ∧
        symbol.value = data + BitVec.ofNat 64 declare.offset
  | .op token => lex.tk = token

inductive Reads (data : Word) (declares : List Declare) :
    Lexer → List Lexeme → Lexer → Prop
  | nil (lex : Lexer) : Reads data declares lex [] lex
  | cons {lex last : Lexer} {lexeme : Lexeme} {rest : List Lexeme}
      (shows_ : lex.Shows data declares lexeme)
      (more : Reads data declares lex.next rest last) :
      Reads data declares lex (lexeme :: rest) last

end Lexer

end PerfProf.Expr
