import Mathlib.Data.List.Basic
import PerfProf.Expr.Word

namespace PerfProf.Expr

/-! The scanner `next()` with its symbol table.  A literal that is never closed
is read past the end of the text, as in the source. -/

inductive Token where
  | eof
  | not | quote | lparen | rparen | comma | colon | semicolon | rbrack
  | lbrace | rbrace
  | num | id | int | sizeof
  | assign | cond | lor | lan | or | xor | and | eq | ne | lt | gt | le | ge
  | wildcard | shl | shr | add | sub | mul | div | mod | inc | dec | brak
  deriving DecidableEq, Repr

namespace Token

/-- The number the source gives to a token: a character, or its place in the
enumeration that starts at 128. -/
def code : Token → Nat
  | .eof => 0
  | .not => 33 | .quote => 34 | .lparen => 40 | .rparen => 41 | .comma => 44
  | .colon => 58 | .semicolon => 59 | .rbrack => 93 | .lbrace => 123
  | .rbrace => 125
  | .num => 128 | .id => 133 | .int => 134 | .sizeof => 135
  | .assign => 136 | .cond => 137 | .lor => 138 | .lan => 139 | .or => 140
  | .xor => 141 | .and => 142 | .eq => 143 | .ne => 144 | .lt => 145
  | .gt => 146 | .le => 147 | .ge => 148 | .wildcard => 149 | .shl => 150
  | .shr => 151 | .add => 152 | .sub => 153 | .mul => 154 | .div => 155
  | .mod => 156 | .inc => 157 | .dec => 158 | .brak => 159

end Token

inductive Class where
  | none | num | fun | sys | glo | loc
  deriving DecidableEq, Repr

structure Symbol where
  token : Token
  cls : Class
  name : List Byte
  hash : Word
  ref : Nat
  type : Nat
  value : Word
  deriving DecidableEq, Repr

/-- The scanner's globals.  `str` is the address of the literal buffer and
`strLen` how many of its bytes are in use; `id` is the symbol read last. -/
structure Lexer where
  p : List Byte
  tk : Token
  ival : Word
  id : Nat
  symtab : List Symbol
  str : Word
  strLen : Nat
  deriving DecidableEq, Repr

def byte (character : Char) : Byte := BitVec.ofNat 8 character.toNat

def text (source : String) : List Byte := source.toList.map byte

def between (low high : Char) (byte : Byte) : Bool :=
  decide (low.toNat ≤ byte.toNat) && decide (byte.toNat ≤ high.toNat)

def isLetter (byte : Byte) : Bool :=
  between 'a' 'z' byte || between 'A' 'Z' byte || byte == Expr.byte '_'

def isDigit (byte : Byte) : Bool := between '0' '9' byte

def isHexDigit (byte : Byte) : Bool :=
  isDigit byte || between 'a' 'f' byte || between 'A' 'F' byte

/-- `tk * 147 + *p` over the rest of an identifier, then `HASH`. -/
def hashName (name : List Byte) : Word :=
  let hash := name.tail.foldl (fun hash byte => hash * 147 + byte.setWidth 64)
    ((name.headD 0).setWidth 64)
  (hash <<< 6) + BitVec.ofNat 64 name.length

/-- `tk == id->hash && !memcmp(id->name, pp, p - pp)`. -/
def Symbol.named (name : List Byte) (symbol : Symbol) : Bool :=
  symbol.hash == hashName name && symbol.name.take name.length == name

def skipLine (source : List Byte) : List Byte :=
  source.dropWhile fun byte => byte != 0 && byte != Expr.byte '\n'

def digitValue (byte : Byte) : Word :=
  byte.setWidth 64 - BitVec.ofNat 64 '0'.toNat

def hexValue (byte : Byte) : Word :=
  (byte.setWidth 64 &&& 15) +
    (if 'A'.toNat ≤ byte.toNat then 9 else 0)

def accumulate (base : Word) (value : Byte → Word) (start : Word)
    (digits : List Byte) : Word :=
  digits.foldl (fun ival digit => ival * base + value digit) start

namespace Lexer

/-- The identifier that starts with `first`: found in the symbol table, or
entered at its end. -/
def nextName (first : Byte) (lex : Lexer) : Lexer :=
  let part := fun byte => isLetter byte || isDigit byte
  let name := first :: lex.p.takeWhile part
  let rest := lex.p.dropWhile part
  match lex.symtab.findIdx? (Symbol.named name) with
  | some index =>
    { lex with
      p := rest, id := index
      tk := ((lex.symtab[index]?).map Symbol.token).getD .id }
  | none =>
    { lex with
      p := rest, id := lex.symtab.length, tk := .id
      symtab := lex.symtab ++
        [{ token := .id, cls := .none, name := name, hash := hashName name,
           ref := 0, type := 0, value := 0 }] }

/-- A decimal, hexadecimal or octal number whose first digit is `first`. -/
def nextNumber (first : Byte) (lex : Lexer) : Lexer :=
  if first != byte '0' then
    { lex with
      p := lex.p.dropWhile isDigit, tk := .num
      ival := accumulate 10 digitValue (digitValue first) (lex.p.takeWhile isDigit) }
  else if lex.p.head? = some (byte 'x') ∨ lex.p.head? = some (byte 'X') then
    { lex with
      p := lex.p.tail.dropWhile isHexDigit, tk := .num
      ival := accumulate 16 hexValue 0 (lex.p.tail.takeWhile isHexDigit) }
  else
    { lex with
      p := lex.p.dropWhile (between '0' '7'), tk := .num
      ival := accumulate 8 digitValue 0 (lex.p.takeWhile (between '0' '7')) }

def scanLiteral (quote : Byte) : List Byte → Word → Nat → List Byte × Word × Nat
  | [], ival, count => ([], ival, count)
  | first :: rest, ival, count =>
    if first = 0 ∨ first = quote then (first :: rest, ival, count)
    else if first = byte '\x5c' then
      match rest with
      | [] => ([], 0, count + 1)
      | second :: rest =>
        let ival :=
          if second = byte 'n' then 10 else second.signExtend 64
        scanLiteral quote rest ival (count + 1)
    else scanLiteral quote rest (first.signExtend 64) (count + 1)

def nextLiteral (quote : Byte) (lex : Lexer) : Lexer :=
  let scanned := scanLiteral quote lex.p lex.ival 0
  if quote = byte '\x22' then
    { lex with
      p := scanned.1.tail, tk := .quote
      ival := lex.str + BitVec.ofNat 64 lex.strLen
      strLen := lex.strLen + scanned.2.2 + 1 }
  else
    { lex with
      p := scanned.1.tail, tk := .num, ival := scanned.2.1
      strLen := lex.strLen + 1 }

end Lexer

/-- The operator that starts with `first`, and whether it takes the character
behind it too. -/
def operator (first second : Byte) : Option (Token × Bool) :=
  let pair := fun (other : Char) (long : Token) (short : Token × Bool) =>
    if second = byte other then (long, true) else short
  if first = byte '=' then some (pair '=' .eq (.assign, false))
  else if first = byte '+' then some (pair '+' .inc (.add, false))
  else if first = byte '-' then some (pair '-' .dec (.sub, false))
  else if first = byte '!' then some (pair '=' .ne (.not, false))
  else if first = byte '<' then
    some (pair '=' .le (pair '<' .shl (.lt, false)))
  else if first = byte '>' then
    some (pair '=' .ge (pair '>' .shr (.gt, false)))
  else if first = byte '|' then some (pair '|' .lor (.or, false))
  else if first = byte '&' then some (pair '&' .lan (.and, false))
  else if first = byte '^' then some (.xor, false)
  else if first = byte '%' then some (.mod, false)
  else if first = byte '*' then some (.mul, false)
  else if first = byte '[' then some (.brak, false)
  else if first = byte '?' then some (.cond, false)
  else if first = byte '~' then some (.wildcard, false)
  else if first = byte ';' then some (.semicolon, false)
  else if first = byte '\x7b' then some (.lbrace, false)
  else if first = byte '\x7d' then some (.rbrace, false)
  else if first = byte '(' then some (.lparen, false)
  else if first = byte ')' then some (.rparen, false)
  else if first = byte ']' then some (.rbrack, false)
  else if first = byte ',' then some (.comma, false)
  else if first = byte ':' then some (.colon, false)
  else none

namespace Lexer

/-- The loop of `next()`; each round reads at least one character. -/
def nextLoop : Nat → Lexer → Lexer
  | 0, lex => { lex with tk := .eof }
  | fuel + 1, lex =>
    match lex.p with
    | [] => { lex with tk := .eof }
    | first :: rest =>
      if first = 0 then { lex with tk := .eof }
      else
        let lex := { lex with p := rest }
        if first = byte '\n' then nextLoop fuel lex
        else if first = byte '#' then
          nextLoop fuel { lex with p := skipLine rest }
        else if isLetter first then lex.nextName first
        else if isDigit first then lex.nextNumber first
        else if first = byte '/' then
          if rest.head? = some (byte '/') then
            nextLoop fuel { lex with p := skipLine rest.tail }
          else { lex with tk := .div }
        else if first = byte '\x27' ∨ first = byte '\x22' then
          lex.nextLiteral first
        else
          match operator first (rest.headD 0) with
          | some (token, true) => { lex with p := rest.tail, tk := token }
          | some (token, false) => { lex with tk := token }
          | none => nextLoop fuel lex

def next (lex : Lexer) : Lexer := lex.nextLoop (lex.p.length + 1)

def symbol? (lex : Lexer) : Option Symbol := lex.symtab[lex.id]?

def setSymbol (lex : Lexer) (set : Symbol → Symbol) : Lexer :=
  { lex with symtab := lex.symtab.modify lex.id set }

end Lexer

end PerfProf.Expr
