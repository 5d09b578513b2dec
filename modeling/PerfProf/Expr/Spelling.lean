import Mathlib.Data.List.Induction
import Mathlib.Data.Nat.Digits.Defs
import PerfProf.Expr.Source

namespace PerfProf.Expr

/-! How an expression is written: C's decimal, octal and hexadecimal numerals,
the names of the declared fields and the operators, each as long as it can be,
with blanks around them. -/

def blank (byte : Byte) : Bool :=
  [' ', '\t', '\n', '\r'].any fun space => byte = Expr.byte space

def namePart (byte : Byte) : Bool := isLetter byte || isDigit byte

/-- The number a decimal or hexadecimal digit stands for. -/
def digitOf (digit : Byte) : Nat :=
  if isDigit digit then digit.toNat - '0'.toNat
  else if between 'a' 'f' digit then digit.toNat - 'a'.toNat + 10
  else digit.toNat - 'A'.toNat + 10

def denoted (base : Nat) (digits : List Byte) : Nat :=
  Nat.ofDigits base (digits.reverse.map digitOf)

inductive Numeral : List Byte → Nat → Prop
  | decimal {first : Byte} {digits : List Byte}
      (nonzero : between '1' '9' first = true)
      (decimals : ∀ digit ∈ digits, isDigit digit = true) :
      Numeral (first :: digits) (denoted 10 (first :: digits))
  | octal {digits : List Byte}
      (octals : ∀ digit ∈ digits, between '0' '7' digit = true) :
      Numeral (byte '0' :: digits) (denoted 8 digits)
  | hexadecimal {mark : Byte} {digits : List Byte}
      (marked : mark = byte 'x' ∨ mark = byte 'X')
      (filled : digits ≠ [])
      (hexadecimals : ∀ digit ∈ digits, isHexDigit digit = true) :
      Numeral (byte '0' :: mark :: digits) (denoted 16 digits)

/-- The operators, and the characters that make another one of them. -/
def operators : List (Token × String × String) :=
  [(.not, "!", "="), (.wildcard, "~", ""), (.add, "+", "+"), (.sub, "-", "-"),
    (.mul, "*", ""), (.div, "/", "/"), (.mod, "%", ""), (.shl, "<<", ""),
    (.shr, ">>", ""), (.lt, "<", "<="), (.gt, ">", ">="), (.le, "<=", ""),
    (.ge, ">=", ""), (.eq, "==", ""), (.ne, "!=", ""), (.and, "&", "&"),
    (.xor, "^", ""), (.or, "|", "|"), (.lan, "&&", ""), (.lor, "||", ""),
    (.cond, "?", ""), (.colon, ":", ""), (.lparen, "(", ""),
    (.rparen, ")", ""), (.comma, ",", "")]

def keywordNames : List (List Byte) :=
  ["char", "short", "int", "long", "unsigned", "sizeof"].map text

def identifier : List Byte → Bool
  | [] => false
  | first :: part => isLetter first && part.all namePart

/-- An identifier of at most 63 characters, all of which are significant in C,
that is no keyword. -/
structure Declare.Named (declare : Declare) : Prop where
  identifier : identifier declare.name = true
  short : declare.name.length < 64
  free : declare.name ∉ keywordNames

/-- A field hides those declared before it under its name. -/
def Declare.Visible (declares : List Declare) (declare : Declare) : Prop :=
  ∃ before after, declares = before ++ declare :: after ∧
    ∀ other ∈ after, other.name ≠ declare.name

/-- The lexeme is written as `spelling` in front of `rest`. -/
inductive Spelled (declares : List Declare) :
    Lexeme → List Byte → List Byte → Prop
  | num {digits rest : List Byte} {value : Nat}
      (numeral : Numeral digits value)
      (apart : rest.head?.all (!namePart ·) = true) :
      Spelled declares (.num (BitVec.ofNat 64 value)) digits rest
  | field {declare : Declare} {rest : List Byte}
      (visible : declare.Visible declares)
      (apart : rest.head?.all (!namePart ·) = true) :
      Spelled declares (.field declare) declare.name rest
  | op {token : Token} {spelling longer : String} {rest : List Byte}
      (listed : (token, spelling, longer) ∈ operators)
      (apart : rest.headD 0 ∉ text longer) :
      Spelled declares (.op token) (text spelling) rest

inductive Written (declares : List Declare) : List Byte → List Lexeme → Prop
  | nil {blanks : List Byte} (spaces : ∀ byte ∈ blanks, blank byte = true) :
      Written declares blanks []
  | cons {blanks spelling rest : List Byte} {lexeme : Lexeme}
      {lexemes : List Lexeme}
      (spaces : ∀ byte ∈ blanks, blank byte = true)
      (spelled : Spelled declares lexeme spelling rest)
      (more : Written declares rest lexemes) :
      Written declares (blanks ++ (spelling ++ rest)) (lexeme :: lexemes)

section Characters

private theorem letter_starts (byte : Byte) (letter : isLetter byte = true) :
    byte ≠ 0 ∧ byte ≠ Expr.byte '\n' ∧ byte ≠ Expr.byte '#' := by
  revert byte
  decide +kernel

private theorem digit_starts (byte : Byte) (digit : isDigit byte = true) :
    (byte ≠ 0 ∧ byte ≠ Expr.byte '\n' ∧ byte ≠ Expr.byte '#') ∧
      isLetter byte = false ∧
      digitValue byte = BitVec.ofNat 64 (digitOf byte) := by
  revert byte
  decide +kernel

private theorem hexValue_digitOf (byte : Byte)
    (digit : isHexDigit byte = true) :
    hexValue byte = BitVec.ofNat 64 (digitOf byte) := by
  revert byte
  decide +kernel

private theorem nonzero_digit (byte : Byte)
    (nonzero : between '1' '9' byte = true) :
    isDigit byte = true ∧ byte ≠ Expr.byte '0' := by
  revert byte
  decide +kernel

private theorem octal_digit (byte : Byte)
    (octal : between '0' '7' byte = true) :
    isDigit byte = true ∧ byte ≠ Expr.byte 'x' ∧ byte ≠ Expr.byte 'X' := by
  revert byte
  decide +kernel

private theorem namePart_of (byte : Byte)
    (part : isDigit byte = true ∨
      isHexDigit byte = true ∨
      between '0' '7' byte = true ∨
      byte = Expr.byte 'x' ∨
      byte = Expr.byte 'X') :
    namePart byte = true := by
  revert byte
  decide +kernel

end Characters

section Runs

variable {part : Byte → Bool} {run rest : List Byte}
  (all : ∀ byte ∈ run, part byte = true)
  (wider : ∀ byte, part byte = true → namePart byte = true)
  (apart : rest.head?.all (!namePart ·) = true)

include all wider apart

private theorem takeWhile_run : (run ++ rest).takeWhile part = run := by
  rw [List.takeWhile_append_of_pos all]
  cases rest with
  | nil => simp
  | cons byte rest =>
    have hpart : part byte = false := by
      have hname : namePart byte = false := by simpa using apart
      exact Bool.eq_false_iff.mpr fun hpart => by simp [wider byte hpart] at hname
    simp [hpart]

private theorem dropWhile_run : (run ++ rest).dropWhile part = rest := by
  have hall := @List.takeWhile_append_dropWhile _ part (run ++ rest)
  rw [takeWhile_run all wider apart] at hall
  exact List.append_cancel_left hall

end Runs

/-- The scanner's sum is the number the digits denote, as a word. -/
private theorem accumulate_denoted {value : Byte → Word} {digits : List Byte}
    {base : Nat}
    (same : ∀ digit ∈ digits, value digit = BitVec.ofNat 64 (digitOf digit)) :
    accumulate (BitVec.ofNat 64 base) value 0 digits =
      BitVec.ofNat 64 (denoted base digits) := by
  induction digits using List.reverseRecOn with
  | nil => rfl
  | append_singleton digits digit ih =>
    have hfirst := ih fun other member => same other (by simp [member])
    rw [accumulate] at hfirst ⊢
    rw [List.foldl_append, hfirst, List.foldl_cons, List.foldl_nil,
      same digit (by simp), denoted, denoted, List.reverse_concat, List.map_cons,
      Nat.ofDigits_cons, BitVec.ofNat_add, BitVec.ofNat_mul, BitVec.mul_comm,
      BitVec.add_comm]

namespace Lexer

/-- The scanner has come to `rest` behind a token. -/
structure At (lex : Lexer) (symtab : List Symbol) (rest : List Byte) :
    Prop where
  table : lex.symtab = symtab
  behind : lex.p = rest

private theorem nextLoop_blank (lex : Lexer) (fuel : Nat) {byte : Byte}
    (space : blank byte = true) (rest : List Byte) :
    nextLoop (fuel + 1) { lex with p := byte :: rest } =
      nextLoop fuel { lex with p := rest } := by
  have hcases : byte = Expr.byte ' ' ∨ byte = Expr.byte '\t' ∨
      byte = Expr.byte '\n' ∨ byte = Expr.byte '\r' := by
    simpa [blank] using space
  rcases hcases with rfl | rfl | rfl | rfl <;> rfl

private theorem nextLoop_blanks (lex : Lexer) (fuel : Nat) {blanks : List Byte}
    (spaces : ∀ byte ∈ blanks, blank byte = true) (rest : List Byte) :
    nextLoop (fuel + blanks.length) { lex with p := blanks ++ rest } =
      nextLoop fuel { lex with p := rest } := by
  induction blanks with
  | nil => rfl
  | cons byte blanks ih =>
    rw [List.cons_append, List.length_cons, ← Nat.add_assoc,
      nextLoop_blank lex _ (spaces byte (by simp))]
    exact ih fun other member => spaces other (by simp [member])

private theorem nextLoop_name (lex : Lexer) (fuel : Nat) {first : Byte}
    (letter : isLetter first = true) (rest : List Byte) :
    nextLoop (fuel + 1) { lex with p := first :: rest } =
      nextName first { lex with p := rest } := by
  obtain ⟨hzero, hline, hhash⟩ := letter_starts first letter
  simp only [nextLoop, hzero, hline, hhash, letter, if_false, if_true]

private theorem nextLoop_number (lex : Lexer) (fuel : Nat) {first : Byte}
    (digit : isDigit first = true) (rest : List Byte) :
    nextLoop (fuel + 1) { lex with p := first :: rest } =
      nextNumber first { lex with p := rest } := by
  obtain ⟨⟨hzero, hline, hhash⟩, hletter, -⟩ := digit_starts first digit
  simp only [nextLoop, hzero, hline, hhash, hletter, digit, if_false, if_true,
    Bool.false_eq_true]

private theorem nextLoop_numeral (lex : Lexer) (fuel : Nat)
    {digits rest : List Byte} {value : Nat}
    (numeral : Numeral digits value)
    (apart : rest.head?.all (!namePart ·) = true) :
    let next := nextLoop (fuel + 1) { lex with p := digits ++ rest }
    next.At lex.symtab rest ∧
      next.tk = .num ∧
      next.ival = BitVec.ofNat 64 value := by
  have hdigit : ∀ byte, isDigit byte = true → namePart byte = true :=
    fun byte part => namePart_of byte (.inl part)
  cases numeral with
  | @decimal first digits nonzero decimals =>
    obtain ⟨hfirst, hzero⟩ := nonzero_digit first nonzero
    rw [List.cons_append, nextLoop_number lex fuel hfirst, nextNumber,
      if_pos (by simpa using hzero)]
    refine ⟨⟨rfl, dropWhile_run decimals hdigit apart⟩, rfl, ?_⟩
    have hall : ∀ digit ∈ first :: digits,
        digitValue digit = BitVec.ofNat 64 (digitOf digit) := by
      intro digit member
      rcases List.mem_cons.mp member with rfl | member
      · exact (digit_starts _ hfirst).2.2
      · exact (digit_starts _ (decimals digit member)).2.2
    dsimp only
    rw [← accumulate_denoted hall, takeWhile_run decimals hdigit apart]
    simp [accumulate]
  | @octal digits octals =>
    have hoctal : ∀ byte, between '0' '7' byte = true → namePart byte = true :=
      fun byte part => namePart_of byte (.inr (.inr (.inl part)))
    have hmark : ¬ ((digits ++ rest).head? = some (byte 'x') ∨
        (digits ++ rest).head? = some (byte 'X')) := by
      cases digits with
      | cons digit digits =>
        have hdigit := (octal_digit digit (octals digit (by simp))).2
        simpa using hdigit
      | nil =>
        rintro (hhead | hhead) <;> rw [List.nil_append] at hhead <;>
          rw [hhead] at apart <;> exact absurd apart (by decide)
    rw [List.cons_append, nextLoop_number lex fuel (by decide), nextNumber,
      if_neg (by decide), if_neg hmark]
    refine ⟨⟨rfl, dropWhile_run octals hoctal apart⟩, rfl, ?_⟩
    dsimp only
    rw [takeWhile_run octals hoctal apart]
    exact accumulate_denoted fun digit member =>
      (digit_starts _ (octal_digit digit (octals digit member)).1).2.2
  | @hexadecimal mark digits marked _ hexadecimals =>
    have hhex : ∀ byte, isHexDigit byte = true → namePart byte = true :=
      fun byte part => namePart_of byte (.inr (.inl part))
    rw [List.cons_append, List.cons_append, nextLoop_number lex fuel (by decide),
      nextNumber, if_neg (by decide), if_pos (by simpa using marked)]
    refine ⟨⟨rfl, dropWhile_run hexadecimals hhex apart⟩, rfl, ?_⟩
    dsimp only [List.tail_cons]
    rw [takeWhile_run hexadecimals hhex apart]
    exact accumulate_denoted fun digit member =>
      hexValue_digitOf digit (hexadecimals digit member)

/-- The scanner takes `token` from this spelling in front of `second`. -/
private def scans (token : Token) (second : Byte) : List Byte → Bool
  | [first] =>
    if first = byte '/' then token = .div && second != byte '/'
    else operator first second = some (token, false)
  | [first, other] =>
    first != byte '/' && operator first other = some (token, true)
  | _ => false

private theorem operators_scan :
    ∀ entry ∈ operators, ∀ second, second ∉ text entry.2.2 →
      scans entry.1 second (text entry.2.1) = true := by
  decide +kernel

private theorem operator_starts (first : Byte)
    (starts : (operator first 0).isSome = true) :
    (first ≠ 0 ∧ first ≠ byte '\n' ∧ first ≠ byte '#') ∧
      (isLetter first = false ∧ isDigit first = false) ∧
      ¬ (first = byte '\x27' ∨ first = byte '\x22') := by
  revert first
  decide +kernel

private theorem operator_isSome (first second : Byte) :
    (operator first second).isSome = (operator first 0).isSome := by
  simp only [operator, apply_ite Option.isSome, Option.isSome_some, Option.isSome_none]

private theorem nextLoop_operator (lex : Lexer) (fuel : Nat)
    {token : Token} {spelling longer : String} {rest : List Byte}
    (listed : (token, spelling, longer) ∈ operators)
    (apart : rest.headD 0 ∉ text longer) :
    let next := nextLoop (fuel + 1) { lex with p := text spelling ++ rest }
    next.At lex.symtab rest ∧ next.tk = token := by
  have hscans := operators_scan _ listed _ apart
  dsimp only at hscans
  generalize text spelling = characters at hscans
  match characters, hscans with
  | [first], hscans =>
    rw [scans] at hscans
    by_cases slash : first = byte '/'
    · subst slash
      simp only [if_true, Bool.and_eq_true, decide_eq_true_eq, bne_iff_ne] at hscans
      have hcomment : rest.head? ≠ some (byte '/') := by
        intro hhead
        rw [List.headD_eq_head?_getD, hhead] at hscans
        exact hscans.2 rfl
      have hnext : nextLoop (fuel + 1) { lex with p := [byte '/'] ++ rest } =
          { lex with p := rest, tk := .div } := if_neg hcomment
      rw [hnext]
      exact ⟨⟨rfl, rfl⟩, hscans.1.symm⟩
    · rw [if_neg slash, decide_eq_true_eq] at hscans
      obtain ⟨⟨hzero, hline, hhash⟩, ⟨hletter, hdigit⟩, hquote⟩ :=
        operator_starts first (by rw [← operator_isSome first, hscans]; rfl)
      simp only [nextLoop, List.cons_append, List.nil_append, hzero, hline, hhash,
        hletter, hdigit, slash, hquote, hscans, if_false, Bool.false_eq_true]
      exact ⟨⟨rfl, rfl⟩, trivial⟩
  | [first, other], hscans =>
    simp only [scans, Bool.and_eq_true, bne_iff_ne, decide_eq_true_eq] at hscans
    obtain ⟨slash, hoperator⟩ := hscans
    obtain ⟨⟨hzero, hline, hhash⟩, ⟨hletter, hdigit⟩, hquote⟩ :=
      operator_starts first (by rw [← operator_isSome first, hoperator]; rfl)
    simp only [nextLoop, List.cons_append, List.nil_append, hzero, hline, hhash,
      hletter, hdigit, slash, hquote, List.headD_cons, hoperator, List.tail_cons,
      if_false, Bool.false_eq_true]
    exact ⟨⟨rfl, rfl⟩, trivial⟩

end Lexer

section Table

/-- Symbols are found by their names, and only keywords have a token of their
own. -/
structure Keyed (symtab : List Symbol) : Prop where
  hash : ∀ symbol ∈ symtab, symbol.hash = hashName symbol.name
  short : ∀ symbol ∈ symtab, symbol.name.length < 64
  token : ∀ symbol ∈ symtab, symbol.name ∉ keywordNames → symbol.token = .id

def entry (symtab : List Symbol) (name : List Byte) : Option Symbol :=
  symtab.find? fun symbol => symbol.name = name

private theorem hashName_length (name : List Byte) :
    (hashName name).toNat % 64 = name.length % 64 := by
  simp only [hashName, BitVec.toNat_add, BitVec.toNat_shiftLeft, BitVec.toNat_ofNat,
    Nat.shiftLeft_eq]
  omega

/-- The length is part of the hash, so a longer name does not pass for one that
it starts with. -/
private theorem Keyed.named_iff {symtab : List Symbol} {symbol : Symbol}
    {name : List Byte}
    (keyed : Keyed symtab)
    (member : symbol ∈ symtab)
    (short : name.length < 64) :
    symbol.named name = true ↔ symbol.name = name := by
  have hshort := keyed.short symbol member
  simp only [Symbol.named, keyed.hash symbol member, Bool.and_eq_true, beq_iff_eq]
  constructor
  · rintro ⟨hhash, hname⟩
    have hlength := congrArg (BitVec.toNat · % 64) hhash
    simp only [hashName_length] at hlength
    rw [← hname, List.take_of_length_le (by omega)]
  · rintro rfl
    exact ⟨rfl, List.take_length⟩

/-- Where a name is in the table after `next()` has read it. -/
structure Split (symtab : List Symbol) (lex : Lexer) (name : List Byte)
    (before : List Symbol) (symbol : Symbol) (after : List Symbol) : Prop where
  table : lex.symtab = before ++ symbol :: after
  place : lex.id = before.length
  named : symbol.name = name
  hashed : symbol.hash = hashName name
  first : ∀ other ∈ before, other.name ≠ name
  token : lex.tk = symbol.token
  old : symtab = lex.symtab ∨
    symtab = before ∧ after = [] ∧ symbol.token = .id

variable {symtab : List Symbol} {name : List Byte}

private theorem Keyed.nextName {lex : Lexer} {first : Byte}
    {part rest : List Byte} (keyed : Keyed lex.symtab)
    (parts : ∀ byte ∈ part, namePart byte = true)
    (apart : rest.head?.all (!namePart ·) = true)
    (short : (first :: part).length < 64) :
    ∃ before symbol after,
      Split lex.symtab (Lexer.nextName first { lex with p := part ++ rest })
        (first :: part) before symbol after ∧
      (Lexer.nextName first { lex with p := part ++ rest }).p = rest := by
  have htake := takeWhile_run parts (fun _ part => part) apart
  have hdrop := dropWhile_run parts (fun _ part => part) apart
  change List.takeWhile (fun byte => isLetter byte || isDigit byte) _ = _ at htake
  change List.dropWhile (fun byte => isLetter byte || isDigit byte) _ = _ at hdrop
  simp only [Lexer.nextName, htake, hdrop]
  cases hfind : lex.symtab.findIdx? (Symbol.named (first :: part)) with
  | none =>
    refine ⟨lex.symtab, _, [], ⟨rfl, rfl, rfl, rfl, ?_, rfl, .inr ⟨rfl, rfl, rfl⟩⟩, rfl⟩
    intro other member hname
    have hnone := List.findIdx?_eq_none_iff.mp hfind other member
    rw [(keyed.named_iff member short).mpr hname] at hnone
    cases hnone
  | some index =>
    obtain ⟨inside, hnamed, hbefore⟩ := List.findIdx?_eq_some_iff_getElem.mp hfind
    have hsymbol : lex.symtab[index]? = some lex.symtab[index] :=
      List.getElem?_eq_getElem inside
    have hname := (keyed.named_iff (List.getElem_mem inside) short).mp hnamed
    refine ⟨lex.symtab.take index, lex.symtab[index], lex.symtab.drop (index + 1),
      ⟨?_, ?_, hname, ?_, ?_, ?_, .inl rfl⟩, rfl⟩
    · rw [List.getElem_cons_drop, List.take_append_drop]
    · simp only [List.length_take]
      omega
    · rw [keyed.hash _ (List.getElem_mem inside), hname]
    · intro other member hother
      obtain ⟨place, hplace, rfl⟩ := List.getElem_of_mem member
      rw [List.length_take] at hplace
      rw [List.getElem_take] at hother
      exact absurd ((keyed.named_iff (List.getElem_mem _) short).mpr hother)
        (hbefore place (by omega))
    · dsimp only
      rw [hsymbol]
      rfl

private theorem entry_split {before after : List Symbol} {symbol : Symbol}
    (named : symbol.name = name)
    (first : ∀ other ∈ before, other.name ≠ name) :
    entry (before ++ symbol :: after) name = some symbol := by
  rw [entry, List.find?_append, List.find?_eq_none.mpr (by simpa using first)]
  simp [named]

private theorem entry_other {before after : List Symbol} {symbol : Symbol}
    {other : List Byte} (differs : symbol.name ≠ other) :
    entry (before ++ symbol :: after) other =
      entry (before ++ after) other := by
  simp [entry, List.find?_append, differs]

/-- Reading a new or known name and setting its symbol. -/
private theorem Keyed.enter {lex : Lexer}
    (keyed : Keyed lex.symtab)
    (hname : identifier name = true)
    (short : name.length < 64)
    (set : Symbol → Symbol)
    (same : ∀ symbol, (set symbol).name = symbol.name ∧
      (set symbol).hash = symbol.hash)
    (tokens : name ∉ keywordNames →
      ∀ symbol, (set symbol).token = symbol.token) :
    let table :=
      (Lexer.setSymbol (Lexer.next { lex with p := name }) set).symtab
    Keyed table ∧
      (∃ symbol, entry table name = some (set symbol)) ∧
      ∀ other ≠ name, entry table other = entry lex.symtab other := by
  obtain _ | ⟨first, part⟩ := name
  · cases hname
  simp only [identifier, Bool.and_eq_true, List.all_eq_true] at hname
  obtain ⟨letter, parts⟩ := hname
  obtain ⟨before, symbol, after, split, -⟩ :=
    @Keyed.nextName lex first part [] keyed parts rfl short
  rw [List.append_nil] at split
  have hnext : Lexer.next { lex with p := first :: part } =
      Lexer.nextName first { lex with p := part } :=
    Lexer.nextLoop_name lex (part.length + 1) letter part
  have htable : (Lexer.setSymbol (Lexer.next { lex with p := first :: part })
      set).symtab = before ++ set symbol :: after := by
    rw [hnext, Lexer.setSymbol]
    dsimp only
    rw [split.place, split.table, List.modify_eq_take_cons_drop (by simp)]
    simp
  have hset : (set symbol).name = first :: part := (same symbol).1.trans split.named
  have hold : ∀ other ∈ before ++ after, other ∈ lex.symtab := by
    intro other member
    rcases split.old with hsame | ⟨hbefore, hafter, -⟩
    · rw [hsame, split.table]
      simp only [List.mem_append, List.mem_cons] at member ⊢
      exact member.imp_right .inr
    · simpa [hbefore, hafter] using member
  have htoken : first :: part ∉ keywordNames → symbol.token = .id := by
    intro free
    rcases split.old with hsame | ⟨-, -, hid⟩
    · refine keyed.token symbol ?_ (split.named ▸ free)
      rw [hsame, split.table]
      simp
    · exact hid
  have hmember : ∀ other ∈ before ++ set symbol :: after,
      other = set symbol ∨ other ∈ lex.symtab := by
    intro other member
    simp only [List.mem_append, List.mem_cons] at member
    rcases member with member | rfl | member
    · exact .inr (hold other (List.mem_append_left _ member))
    · exact .inl rfl
    · exact .inr (hold other (List.mem_append_right _ member))
  dsimp only
  rw [htable]
  refine ⟨⟨?_, ?_, ?_⟩, ⟨symbol, entry_split hset split.first⟩, ?_⟩
  · intro other member
    rcases hmember other member with rfl | member
    · rw [(same symbol).2, split.hashed, hset]
    · exact keyed.hash other member
  · intro other member
    rcases hmember other member with rfl | member
    · rw [hset]
      exact short
    · exact keyed.short other member
  · intro other member free
    rcases hmember other member with rfl | member
    · rw [hset] at free
      rw [tokens free, htoken free]
    · exact keyed.token other member free
  · intro other differs
    rw [entry_other (hset ▸ differs.symm)]
    rcases split.old with hsame | ⟨hbefore, hafter, -⟩
    · rw [hsame, split.table, entry_other (split.named ▸ differs.symm)]
    · rw [hbefore, hafter, List.append_nil]

end Table

section Symbols

/-- The field is in the table with its type and its place in the record. -/
def Entered (data : Word) (symtab : List Symbol) (declare : Declare) : Prop :=
  ∃ symbol, entry symtab declare.name = some symbol ∧
    symbol.cls = .glo ∧
    declare.type = some symbol.type ∧
    symbol.value = data + BitVec.ofNat 64 declare.offset

section

variable {lex : Lexer} (keyed : Keyed lex.symtab)

include keyed

private theorem Keyed.addKey {name : String} (listed : text name ∈ keywordNames)
    (token : Token) (type : Nat) :
    Keyed (lex.addKey name token type).symtab := by
  have hall : ∀ word ∈ keywordNames, identifier word = true ∧ word.length < 64 := by
    decide
  obtain ⟨hname, short⟩ := hall _ listed
  exact (keyed.enter hname short
    (fun symbol => { symbol with token := token, cls := .none, type := type, value := 0 })
    (fun _ => ⟨rfl, rfl⟩) fun free => absurd listed free).1

private theorem Keyed.addLib {name : String}
    (hname : identifier (text name) = true) (short : (text name).length < 64)
    (type : Nat) (op : Op) : Keyed (lex.addLib name type op).symtab :=
  (keyed.enter hname short
    (fun symbol => { symbol with cls := .sys, type := type, value := op.word })
    (fun _ => ⟨rfl, rfl⟩) fun _ _ => rfl).1

private theorem Keyed.addGlo (hname : identifier name = true)
    (short : name.length < 64) (type : Nat) (value : Word) :
    Keyed (lex.addGlo name type value).symtab ∧
    (∃ symbol, entry (lex.addGlo name type value).symtab name = some symbol ∧
      symbol.cls = .glo ∧
      symbol.type = type ∧
      symbol.value = value) ∧
    ∀ other ≠ name, entry (lex.addGlo name type value).symtab other =
      entry lex.symtab other := by
  obtain ⟨hkeyed, ⟨symbol, hentry⟩, hother⟩ :=
    keyed.enter hname short
      (fun symbol => { symbol with cls := .glo, type := type, value := value })
      (fun _ => ⟨rfl, rfl⟩) fun _ _ => rfl
  exact ⟨hkeyed, ⟨_, hentry, rfl, rfl, rfl⟩, hother⟩

private theorem Keyed.library : Keyed lex.keywords.library.symtab := by
  have hkeys : Keyed lex.keywords.symtab :=
    (((((keyed.addKey (by decide) _ _).addKey (by decide) _ _).addKey
      (by decide) _ _).addKey (by decide) _ _).addKey (by decide) _ _).addKey
      (by decide) _ _
  exact ((((((((hkeys.addLib (by decide) (by decide) _ _).addLib (by decide)
    (by decide) _ _).addLib (by decide) (by decide) _ _).addLib (by decide)
    (by decide) _ _).addLib (by decide) (by decide) _ _).addLib (by decide)
    (by decide) _ _).addLib (by decide) (by decide) _ _).addLib (by decide)
    (by decide) _ _).addLib (by decide) (by decide) _ _

private theorem Keyed.sampleGlobals (glo : Word) :
    Keyed (lex.sampleGlobals glo).symtab :=
  ((keyed.addGlo (by decide) (by decide) _ _).1.addGlo (by decide)
    (by decide) _ _).1

end

private theorem Keyed.declareAll {lex : Lexer} {data : Word}
    {declares : List Declare} (keyed : Keyed lex.symtab)
    (named : ∀ declare ∈ declares, declare.Named)
    (typed : ∀ declare ∈ declares, declare.type.isSome = true) :
    ∃ last, lex.declareAll data declares = .ok last ∧
      Keyed last.symtab ∧
      (∀ declare, Entered data lex.symtab declare →
        (∀ other ∈ declares, other.name ≠ declare.name) →
        Entered data last.symtab declare) ∧
      ∀ declare, declare.Visible declares →
        Entered data last.symtab declare := by
  induction declares generalizing lex with
  | nil =>
    refine ⟨lex, rfl, keyed, fun _ entered _ => entered, ?_⟩
    rintro declare ⟨before, after, hnil, -⟩
    simp at hnil
  | cons head rest ih =>
    obtain ⟨type, htype⟩ := Option.isSome_iff_exists.mp (typed head (by simp))
    have hhead := named head (by simp)
    obtain ⟨hkeyed, ⟨symbol, hentry, hcls, hsymbol, hvalue⟩, hothers⟩ :=
      keyed.addGlo hhead.identifier hhead.short type
        (data + BitVec.ofNat 64 head.offset)
    obtain ⟨last, hlast, hkept, hold, hnew⟩ := ih hkeyed
      (fun declare member => named declare (by simp [member]))
      (fun declare member => typed declare (by simp [member]))
    refine ⟨last, ?_, hkept, ?_, ?_⟩
    · rw [Lexer.declareAll, htype]
      exact hlast
    · intro declare entered others
      rw [List.forall_mem_cons] at others
      refine hold declare ?_ others.2
      rwa [Entered, hothers _ others.1.symm]
    · rintro declare ⟨_ | ⟨first, before⟩, after, hsplit, later⟩
      · cases hsplit
        exact hold head ⟨symbol, hentry, hcls, hsymbol ▸ htype, hvalue⟩ later
      · cases hsplit
        exact hnew declare ⟨before, after, rfl, later⟩

theorem symbols_entered {alloc : Alloc} {declares : List Declare}
    (sampleGlo : Bool) (named : ∀ declare ∈ declares, declare.Named)
    (typed : ∀ declare ∈ declares, declare.type.isSome = true) :
    ∃ lex, symbols alloc sampleGlo declares = .ok lex ∧
      Keyed lex.symtab ∧
      ∀ declare, declare.Visible declares →
        Entered alloc.data lex.symtab declare := by
  let start : Lexer :=
    { p := [], tk := .eof, ival := alloc.ival, id := 0, symtab := []
      str := alloc.str, strLen := 0 }
  have hempty : Keyed start.symtab := ⟨by simp [start], by simp [start], by simp [start]⟩
  have hbase : Keyed (if sampleGlo then
      start.keywords.library.sampleGlobals alloc.glo
      else start.keywords.library).symtab := by
    split
    · exact hempty.library.sampleGlobals alloc.glo
    · exact hempty.library
  obtain ⟨last, hlast, keyed, -, entered⟩ := hbase.declareAll named typed
  exact ⟨last, hlast, keyed, entered⟩

end Symbols

namespace Lexer

variable {data : Word} {declares : List Declare} {lex : Lexer}

/-- The token in front of which the scanner stands, behind blanks. -/
private theorem next_spelled {blanks spelling rest : List Byte}
    {lexeme : Lexeme} (keyed : Keyed lex.symtab)
    (named : ∀ declare ∈ declares, declare.Named)
    (entered : ∀ declare, declare.Visible declares →
      Entered data lex.symtab declare)
    (spaces : ∀ byte ∈ blanks, blank byte = true)
    (spelled : Spelled declares lexeme spelling rest)
    (text : lex.p = blanks ++ (spelling ++ rest)) :
    lex.next.At lex.symtab rest ∧ lex.next.Shows data declares lexeme := by
  obtain ⟨fuel, hfuel⟩ : ∃ fuel, lex.p.length + 1 = fuel + 1 + blanks.length :=
    ⟨spelling.length + rest.length, by rw [text]; simp; omega⟩
  have hnext : lex.next = nextLoop (fuel + 1) { lex with p := spelling ++ rest } := by
    have hskip := nextLoop_blanks lex (fuel + 1) spaces (spelling ++ rest)
    rwa [← text, ← hfuel] at hskip
  rw [hnext]
  cases spelled with
  | num numeral apart => exact nextLoop_numeral lex fuel numeral apart
  | op listed apart => exact nextLoop_operator lex fuel listed apart
  | @field declare rest visible apart =>
    have member : declare ∈ declares := by
      obtain ⟨before, after, rfl, -⟩ := visible
      simp
    obtain ⟨hname, short, free⟩ := named declare member
    obtain ⟨symbol, hentry, hcls, htype, hvalue⟩ := entered declare visible
    generalize declare.name = name at hname short free hentry
    obtain _ | ⟨first, part⟩ := name
    · cases hname
    simp only [identifier, Bool.and_eq_true, List.all_eq_true] at hname
    rw [List.cons_append, nextLoop_name lex fuel hname.1]
    obtain ⟨before, found, after, split, hrest⟩ :=
      keyed.nextName hname.2 apart short
    rcases split.old with hsame | ⟨hbefore, -, -⟩
    · have hfound : found = symbol := by
        rw [hsame, split.table, entry_split split.named split.first] at hentry
        exact Option.some.inj hentry
      have hinside : found ∈ lex.symtab := by
        rw [hsame, split.table]
        simp
      refine ⟨⟨hsame.symm, hrest⟩, ?_, member, symbol, ?_, hcls, htype, hvalue⟩
      · rw [split.token]
        exact keyed.token found hinside (split.named ▸ free)
      · rw [symbol?, split.place, split.table, ← hfound]
        simp
    · rw [hbefore, entry, List.find?_eq_none.mpr (by simpa using split.first)] at hentry
      cases hentry

/-- The scanner reads what is written. -/
theorem reads_written {source : List Byte} {lexemes : List Lexeme}
    (named : ∀ declare ∈ declares, declare.Named)
    (written : Written declares source lexemes)
    (keyed : Keyed lex.symtab)
    (entered : ∀ declare, declare.Visible declares →
      Entered data lex.symtab declare)
    (text : lex.p = source) :
    ∃ last, Reads data declares lex.next lexemes last ∧ last.tk = .eof := by
  induction written generalizing lex with
  | @nil blanks spaces =>
    refine ⟨lex.next, .nil _, ?_⟩
    have hnext := nextLoop_blanks lex 1 spaces []
    rw [List.append_nil, ← text, Nat.add_comm] at hnext
    rw [next, show lex.nextLoop _ = _ from hnext]
    rfl
  | cons spaces spelled more ih =>
    obtain ⟨⟨htable, hrest⟩, shows_⟩ :=
      next_spelled keyed named entered spaces spelled text
    obtain ⟨last, reads, ends⟩ :=
      ih (htable ▸ keyed) (htable ▸ entered) hrest
    exact ⟨last, .cons shows_ reads, ends⟩

end Lexer

end PerfProf.Expr
