import PerfProf.Expr.Lex

namespace PerfProf.Expr

/-- The strata of the grammar, from assignments to postfix expressions. -/
inductive Level where
  | assign | cond | lor | lan | or | xor | and | eq | relation | shift | sum
  | product | unary | primary
  deriving DecidableEq, Repr

namespace Level

/-- The token by whose number `expr()` knows a stratum. -/
def token : Level → Token
  | .assign => .assign | .cond => .cond | .lor => .lor | .lan => .lan
  | .or => .or | .xor => .xor | .and => .and | .eq => .eq
  | .relation => .lt | .shift => .shl | .sum => .add | .product => .mul
  | .unary => .inc | .primary => .dec

def code (level : Level) : Nat := level.token.code

def bound : Level → Nat
  | .assign => 136 | .cond => 137 | .lor => 139 | .lan => 140 | .or => 141
  | .xor => 142 | .and => 143 | .eq => 145 | .relation => 150 | .shift => 152
  | .sum => 154 | .product => 157 | .unary => 157 | .primary => 160

theorem bound_mono {low high : Level} (hle : low.code ≤ high.code) :
    low.bound ≤ high.bound := by
  revert hle
  cases low <;> cases high <;> decide

theorem code_le_of_lt_bound {low high : Level} (hlt : low.code < high.bound) :
    low.code ≤ high.code := by
  revert hlt
  cases low <;> cases high <;> decide

end Level

namespace Token

def strata : Token → Option (Level × Level)
  | .lor => some (.lor, .lan)
  | .lan => some (.lan, .or)
  | .or => some (.or, .xor)
  | .xor => some (.xor, .and)
  | .and => some (.and, .eq)
  | .eq | .ne => some (.eq, .relation)
  | .lt | .gt | .le | .ge | .wildcard => some (.relation, .shift)
  | .shl | .shr => some (.shift, .sum)
  | .add | .sub => some (.sum, .product)
  | .mul | .div | .mod => some (.product, .unary)
  | _ => none

def isUnary : Token → Bool
  | .mul | .and | .not | .wildcard | .add | .sub | .inc | .dec => true
  | _ => false

def isStep : Token → Bool
  | .inc | .dec => true
  | _ => false

def closes : Token → Bool
  | .eof | .rparen | .comma | .colon | .rbrack => true
  | token => decide (136 ≤ token.code)

end Token

inductive TypeName : List Token → Prop
  | one (stars : Nat) : TypeName (.int :: List.replicate stars .mul)
  | two (stars : Nat) : TypeName (.int :: .int :: List.replicate stars .mul)

def commaSeparated (phrases : List (List Token)) : List Token :=
  [Token.comma].intercalate phrases

inductive Phrase : Level → List Token → Prop
  | num : Phrase .primary [.num]
  | negative : Phrase .primary [.sub, .num]
  | strings (more : Nat) : Phrase .primary (.quote :: List.replicate more .quote)
  | sizeof {type : List Token} (named : TypeName type) :
      Phrase .primary (.sizeof :: .lparen :: (type ++ [.rparen]))
  | id : Phrase .primary [.id]
  | call {arguments : List (List Token)}
      (phrases : ∀ argument ∈ arguments, Phrase .assign argument) :
      Phrase .primary (.id :: .lparen :: (commaSeparated arguments ++ [.rparen]))
  | paren {inner : List Token} (phrase : Phrase .assign inner) :
      Phrase .primary (.lparen :: (inner ++ [.rparen]))
  | step {left : List Token} {op : Token} (first : Phrase .primary left)
      (hop : op.isStep = true) : Phrase .primary (left ++ [op])
  | subscript {left index : List Token} (first : Phrase .primary left)
      (second : Phrase .assign index) :
      Phrase .primary (left ++ .brak :: (index ++ [.rbrack]))
  | cast {type inner : List Token} (named : TypeName type)
      (phrase : Phrase .unary inner) :
      Phrase .unary (.lparen :: (type ++ .rparen :: inner))
  | unary {op : Token} {inner : List Token} (hop : op.isUnary = true)
      (phrase : Phrase .unary inner) : Phrase .unary (op :: inner)
  | binary {left right : List Token} {op : Token} {own next : Level}
      (hop : op.strata = some (own, next)) (first : Phrase own left)
      (second : Phrase next right) : Phrase own (left ++ op :: right)
  | cond {test yes no : List Token} (first : Phrase .lor test)
      (second : Phrase .assign yes) (third : Phrase .cond no) :
      Phrase .cond (test ++ .cond :: (yes ++ .colon :: no))
  | assign {left right : List Token} (first : Phrase .cond left)
      (second : Phrase .assign right) :
      Phrase .assign (left ++ .assign :: right)
  | weaken {low high : Level} {tokens : List Token}
      (hle : low.code ≤ high.code) (phrase : Phrase high tokens) :
      Phrase low tokens

def Sentence (tokens : List Token) : Prop :=
  ∃ first more, tokens = commaSeparated (first :: more) ∧
    ∀ phrase ∈ first :: more, Phrase .assign phrase

structure Reader where
  rest : List Token
  orderly : Bool
  deriving DecidableEq, Repr

namespace Reader

def tk (r : Reader) : Token := r.rest.headD .eof

def next (r : Reader) : Reader := { r with rest := r.rest.tail }

def expect (r : Reader) (token : Token) : Option Reader :=
  if r.tk = token then some r.next else none

def skip (token : Token) (r : Reader) : Reader :=
  { r with rest := r.rest.dropWhile (· = token) }

def note (good : Bool) (r : Reader) : Reader :=
  { r with orderly := r.orderly && good }

def typeName (r : Reader) : Reader :=
  let r := r.next
  if r.tk = .int then r.next.skip .mul else r.skip .mul

section Cases

variable (expr : Level → Reader → Option Reader)

/-- The token behind an argument, and the comma if it is one.  Nothing asks for
a comma before the next argument, or for an argument behind a comma. -/
def separated (r : Reader) : Reader :=
  if r.tk = .comma then r.next.note (r.next.tk != .rparen)
  else r.note (r.tk == .rparen)

def arguments : Nat → Reader → Option Reader
  | 0, _ => none
  | fuel + 1, r =>
    if r.tk = .rparen then some r
    else do
      let r ← expr .assign r
      arguments fuel r.separated

def call (fuel : Nat) (r : Reader) : Option Reader := do
  let r ← arguments expr fuel r
  return r.next

def identifier (fuel : Nat) (r : Reader) : Option Reader :=
  let r := r.next
  if r.tk = .lparen then call expr fuel r.next else some r

def sizeofType (r : Reader) : Option Reader := do
  let r ← r.next.expect .lparen
  if r.tk = .int then r.typeName.expect .rparen else none

def cast (r : Reader) : Option Reader := do
  let r ← r.typeName.expect .rparen
  expr .unary r

def parenthesis (r : Reader) : Option Reader :=
  let r := r.next
  if r.tk = .int then cast expr r
  else do
    let r ← expr .assign r
    r.expect .rparen

def minus (r : Reader) : Option Reader :=
  let r := r.next
  if r.tk = .num then some r.next else expr .unary r

def operand (fuel : Nat) (r : Reader) : Option Reader :=
  match r.tk with
  | .num => some r.next
  | .quote => some (r.skip .quote)
  | .sizeof => sizeofType r
  | .id => identifier expr fuel r
  | .lparen => parenthesis expr r
  | .sub => minus expr r
  | .mul | .and | .not | .wildcard | .add | .inc | .dec => expr .unary r.next
  | _ => none

def conditional (r : Reader) : Option Reader := do
  let r ← expr .assign r.next
  let r ← r.expect .colon
  expr .cond r

def subscript (r : Reader) : Option Reader := do
  let r ← expr .assign r.next
  r.expect .rbrack

def operator (r : Reader) : Option Reader :=
  match r.tk with
  | .assign => expr .assign r.next
  | .cond => conditional expr r
  | .inc | .dec => some r.next
  | .brak => subscript expr r
  | token =>
    match token.strata with
    | some (_, right) => expr right r.next
    | none => none

def climb (level : Level) : Nat → Reader → Option Reader
  | 0, r => if level.code ≤ r.tk.code then none else some r
  | fuel + 1, r =>
    if level.code ≤ r.tk.code then do
      let r ← operator expr r
      climb level fuel r
    else some r

end Cases

def expr : Nat → Level → Reader → Option Reader
  | 0, _, _ => none
  | fuel + 1, level, r => do
      let r ← operand (expr fuel) fuel r
      climb (expr fuel) level fuel r

def exprs : Nat → Reader → Option Reader
  | 0, _ => none
  | fuel + 1, r => do
      let r ← expr fuel .assign r
      if r.tk = .comma then exprs fuel r.next else some r

end Reader

end PerfProf.Expr
