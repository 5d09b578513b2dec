import PerfProf.Expr.Target

namespace PerfProf.Expr

def Symbol.forget (symbol : Symbol) : Symbol := { symbol with ref := 0 }

namespace Lexer

def forget (lex : Lexer) : Lexer :=
  { lex with symtab := lex.symtab.map Symbol.forget }

@[simp] theorem forget_p (lex : Lexer) : lex.forget.p = lex.p := rfl

@[simp] theorem forget_ival (lex : Lexer) : lex.forget.ival = lex.ival := rfl

theorem nextName_forget (first : Byte) (lex : Lexer) :
    (lex.nextName first).forget = lex.forget.nextName first := by
  have hfind : ∀ name, lex.forget.symtab.findIdx? (Symbol.named name) =
      lex.symtab.findIdx? (Symbol.named name) := fun _ => List.findIdx?_map
  simp only [nextName, hfind, forget_p]
  cases lex.symtab.findIdx? _ with
  | some index =>
    have htoken : (lex.forget.symtab[index]?).map Symbol.token =
        (lex.symtab[index]?).map Symbol.token := by
      simp only [forget, List.getElem?_map, Option.map_map]
      rfl
    simp only [htoken]
    rfl
  | none => simp [forget, Symbol.forget]

theorem nextNumber_forget (first : Byte) (lex : Lexer) :
    (lex.nextNumber first).forget = lex.forget.nextNumber first := by
  unfold nextNumber
  split
  · rfl
  · split
    next hhex => exact (if_pos hhex).symm
    next hoctal => exact (if_neg hoctal).symm

theorem nextLiteral_forget (quote : Byte) (lex : Lexer) :
    (lex.nextLiteral quote).forget = lex.forget.nextLiteral quote := by
  simp only [nextLiteral, forget_p, forget_ival]
  split_ifs <;> rfl

theorem forget_ite {condition : Prop} [Decidable condition]
    {yes no first second : Lexer} (hyes : yes.forget = first)
    (hno : no.forget = second) :
    (if condition then yes else no).forget =
      if condition then first else second := by
  rw [← hyes, ← hno]
  split <;> rfl

theorem nextLoop_forget (fuel : Nat) (lex : Lexer) :
    (lex.nextLoop fuel).forget = lex.forget.nextLoop fuel := by
  induction fuel generalizing lex with
  | zero => rfl
  | succ fuel ih =>
    simp only [nextLoop, forget_p]
    cases lex.p with
    | nil => rfl
    | cons first rest =>
      apply forget_ite rfl
      apply forget_ite (ih _)
      apply forget_ite (ih _)
      apply forget_ite (nextName_forget first _)
      apply forget_ite (nextNumber_forget first _)
      apply forget_ite
      · exact forget_ite (ih _) rfl
      · apply forget_ite (nextLiteral_forget first _)
        split
        · rfl
        · rfl
        · exact ih _

theorem next_forget (lex : Lexer) : lex.next.forget = lex.forget.next :=
  nextLoop_forget _ lex

theorem Reads.split (reads : Reads data declares lex (before ++ behind) last) :
    ∃ middle, Reads data declares lex before middle ∧
      Reads data declares middle behind last := by
  induction before generalizing lex with
  | nil => exact ⟨lex, .nil lex, reads⟩
  | cons lexeme rest ih =>
    cases reads with
    | cons shows_ more =>
      obtain ⟨middle, hbefore, hbehind⟩ := ih more
      exact ⟨middle, .cons shows_ hbefore, hbehind⟩

end Lexer

def Compiler.Follows (s : Compiler) (lex : Lexer) : Prop :=
  s.lex.forget = lex.forget

namespace Compiler.Follows

variable {s : Compiler} {lex : Lexer}

section

variable (follows : s.Follows lex)

include follows

theorem next : s.next.Follows lex.next := by
  change s.lex.next.forget = _
  rw [Lexer.next_forget, follows, ← Lexer.next_forget]

theorem tk : s.tk = lex.tk := by
  have same := congrArg Lexer.tk follows
  exact same

theorem ival : s.lex.ival = lex.ival := by
  have same := congrArg Lexer.ival follows
  exact same

theorem id : s.lex.id = lex.id := by
  have same := congrArg Lexer.id follows
  exact same

theorem refer (index : Nat) : (s.refer index).Follows lex := by
  have hsymtab : (s.refer index).lex.symtab.map Symbol.forget = s.lex.symtab.map Symbol.forget := by
    apply List.ext_getElem?
    intro place
    rw [List.getElem?_map, List.getElem?_map, Compiler.refer, List.getElem?_modify]
    cases s.lex.symtab[place]? with
    | none => rfl
    | some symbol => by_cases hplace : index = place <;> simp [hplace, Symbol.forget]
  have hforget : (s.refer index).lex.forget = s.lex.forget :=
    congrArg (fun symtab => { s.lex with symtab := symtab }) hsymtab
  exact hforget.trans follows

theorem symbol {index : Nat} {symbol : Symbol}
    (hsymbol : lex.symtab[index]? = some symbol) :
    ∃ ref, s.lex.symtab[index]? = some { symbol with ref := ref } := by
  have hsame : (s.lex.forget.symtab)[index]? = (lex.forget.symtab)[index]? := by rw [follows]
  simp only [Lexer.forget, List.getElem?_map, hsymbol, Option.map_some] at hsame
  obtain ⟨other, hother, hforget⟩ := Option.map_eq_some_iff.mp hsame
  refine ⟨other.ref, hother.trans (congrArg some ?_)⟩
  cases symbol
  cases other
  simp_all [Symbol.forget]

end

end Compiler.Follows

def Tree.ty : Tree → Nat
  | .field declare => declare.type.getD 0
  | .paren inner => inner.ty
  | .bin .add left _ => left.ty
  | .bin .sub left _ => left.ty
  | .cond _ _ right => right.ty
  | _ => INT

theorem Declare.Scalar.typed {declare : Declare} (scalar : declare.Scalar) :
    declare.type.getD 0 < PTR ∧
    (declare.type.getD 0 &&& UNSIGNED != 0) = declare.isUnsigned ∧
    declare.type.getD 0 &&& ARRAY = 0 := by
  obtain ⟨width, hless, -, htype⟩ := scalar.type_eq
  have hcases : width = 0 ∨ width = 1 ∨ width = 2 ∨ width = 3 := by omega
  rw [htype]
  cases declare.isUnsigned <;> rcases hcases with rfl | rfl | rfl | rfl <;> decide

theorem Derives.typed {level : Nat} {tokens : List Lexeme} {tree : Tree}
    (derives : Derives level tokens tree) :
    tree.ty < PTR ∧ (tree.ty &&& UNSIGNED != 0) = tree.unsigned := by
  have hint : INT < PTR ∧ (INT &&& UNSIGNED != 0) = false := by decide
  induction derives with
  | field scalar => exact ⟨scalar.typed.1, scalar.typed.2.1⟩
  | paren _ ih => exact ih
  | lift _ ih => exact ih
  | cond _ _ _ _ _ right => exact right
  | bin op _ _ left _ =>
    cases op with
    | add => exact left
    | sub => exact left
    | _ => exact hint
  | _ => exact hint

theorem unsignedOperands_eq (hleft : left < PTR) (hright : right < PTR) :
    unsignedOperands left right =
      (left &&& UNSIGNED != 0 || right &&& UNSIGNED != 0) := by
  have hall : ∀ left < 16, ∀ right < 16, unsignedOperands left right =
      (left &&& UNSIGNED != 0 || right &&& UNSIGNED != 0) := by
    decide
  exact hall left hleft right hright

theorem isCharPtr_eq_false (hless : type < PTR) : isCharPtr type = false := by
  have hall : ∀ type < 16, isCharPtr type = false := by decide
  exact hall type hless

def Lexeme.opens : Lexeme → Bool
  | .num _ | .field _ => true
  | .op token => [Token.lparen, .not, .wildcard, .add, .sub].contains token

theorem Derives.opens (derives : Derives level tokens tree) :
    ∃ lexeme rest, tokens = lexeme :: rest ∧ lexeme.opens = true := by
  induction derives with
  | bin _ _ _ first _ | land _ _ first _ | lor _ _ first _ | cond _ _ _ first _ _ =>
    obtain ⟨lexeme, rest, rfl, hopens⟩ := first
    exact ⟨lexeme, _, rfl, hopens⟩
  | lift _ ih => exact ih
  | _ => exact ⟨_, _, rfl, rfl⟩

theorem Lexer.Shows.ne_token {lex : Lexer} {lexeme : Lexeme}
    (shows_ : lex.Shows data declares lexeme) (hopens : lexeme.opens = true)
    (hid : token ≠ .id) (hop : (Lexeme.op token).opens = false)
    (hnum : ∀ value, lexeme = .num value → token ≠ .num) : lex.tk ≠ token := by
  rintro rfl
  cases lexeme with
  | num value => exact hnum value rfl shows_.1
  | field declare => exact hid shows_.1
  | op token =>
    cases shows_
    exact absurd hopens (by simp [hop])

theorem Derives.literal (derives : Derives level tokens tree)
    (hlevel : 11 ≤ level) :
    (∃ value, tokens = [.num value] ∧ tree = .lit value) ∨
    tree.literal? = none ∧ ∀ value rest, tokens ≠ .num value :: rest := by
  induction derives with
  | lit value => exact .inl ⟨value, rfl, rfl⟩
  | bin op _ _ _ _ => cases op <;> simp [BinOp.precedence] at hlevel
  | land _ _ _ _ => exact absurd hlevel (by decide)
  | lor _ _ _ _ => exact absurd hlevel (by decide)
  | cond _ _ _ _ _ _ => exact absurd hlevel (by decide)
  | lift _ ih => exact ih (Nat.le_succ_of_le hlevel)
  | _ => exact .inr ⟨rfl, by simp⟩

def levelToken : Nat → Token
  | 0 => .cond
  | 1 => .lor
  | 2 => .lan
  | 3 => .or
  | 4 => .xor
  | 5 => .and
  | 6 => .eq
  | 7 => .lt
  | 8 => .shl
  | 9 => .add
  | 10 => .mul
  | _ => .inc

def behindToken : Nat → Token
  | 0 => .cond
  | level + 1 => levelToken (level + 2)

theorem levelToken_le (level : Nat) :
    (levelToken level).code ≤ (levelToken (level + 1)).code := by
  rcases Nat.lt_or_ge level 11 with hless | hle
  · have hall : ∀ level < 11, (levelToken level).code ≤ (levelToken (level + 1)).code := by decide
    exact hall level hless
  · obtain ⟨more, rfl⟩ := Nat.exists_eq_add_of_le' hle
    exact Nat.le_refl _

theorem behindToken_le (level : Nat) :
    (behindToken level).code ≤ (behindToken (level + 1)).code := by
  cases level with
  | zero => decide
  | succ level => exact levelToken_le (level + 2)

theorem BinOp.token_level (op : BinOp) :
    (levelToken op.precedence).code ≤ op.token.code ∧
    op.token.code < (behindToken op.precedence).code ∧
    behindToken op.precedence = levelToken (op.precedence + 1) := by
  cases op <;> decide

theorem bind_of_ok {α β : Type} {action : Except Failure α}
    {rest : α → Except Failure β} {value : α} (ok : action = .ok value) :
    (action >>= rest) = rest value := by
  rw [ok]
  rfl

namespace Compiler

variable {s t : Compiler}

structure Adds (s t : Compiler) (words : List Word) : Prop where
  hcode : t.code = s.code ++ words
  hty : t.ty = s.ty
  hlex : t.lex = s.lex

theorem emit_fits (s : Compiler) (words : List Word)
    (fits : s.code.length + words.length ≤ 1023) :
    ∃ t, s.emit words = .ok t ∧ s.Adds t words :=
  ⟨_, if_pos fits, rfl, rfl, rfl⟩

theorem emitJump_fits (s : Compiler) (op : Op)
    (fits : s.code.length + 2 ≤ 1023) :
    ∃ t old, s.emitJump op = .ok t ∧ s.Adds t [op.word, old] :=
  ⟨_, (s.stale.drop 1).headD 0, if_pos fits, rfl, rfl, rfl⟩

variable {words : List Word} {expr : Token → Compiler → Compiled}

theorem Adds.length (adds : s.Adds t words) :
    t.code.length = s.code.length + words.length := by
  rw [adds.hcode, List.length_append]

theorem Follows.adds {lex : Lexer} (follows : s.Follows lex)
    (adds : s.Adds t words) : t.Follows lex := by
  rw [Follows, adds.hlex]
  exact follows

theorem emit_withType (hemit : s.emit words = .ok t) (type : Nat) :
    (s.withType type).emit words = .ok (t.withType type) := by
  rw [emit_ok hemit]
  exact if_pos (emit_bound hemit)

theorem operator_bin {op : BinOp} {le : Word} {s s₁ s₂ s₃ : Compiler}
    (htk : s.tk = op.token) (hleft : s.ty < PTR)
    (hpush : s.next.emit [Op.psh.word] = .ok s₁)
    (hexpr : expr (levelToken (op.precedence + 1)) s₁ = .ok s₂)
    (hop : s₂.emit [(op.opcode (unsignedOperands s.ty s₂.ty)).word] = .ok s₃) :
    s.operator expr le =
      .ok (s₃.withType (if op = .add ∨ op = .sub then s.ty else INT)) := by
  have hscaled : ∀ token, (s₂.withType s.ty).scaled token s.ty =
      .ok (s₂.withType s.ty) := fun token =>
    if_neg (Nat.not_lt.mpr (Nat.le_of_lt hleft))
  have hbinary : ∀ choose : Nat → Nat → Op,
      choose s.ty s₂.ty = op.opcode (unsignedOperands s.ty s₂.ty) →
      s.binary expr (levelToken (op.precedence + 1)) choose = .ok (s₃.withType INT) := by
    intro choose hchoose
    rw [← hchoose] at hop
    exact (bind_of_ok hpush).trans ((bind_of_ok hexpr).trans (bind_of_ok hop))
  have hequality : ∀ strings words : Op, equality strings words s.ty s₂.ty = words := by
    intro strings words
    rw [equality, isCharPtr_eq_false hleft]
    rfl
  rw [Compiler.operator, htk]
  cases op with
  | add =>
    exact (bind_of_ok hpush).trans ((bind_of_ok hexpr).trans
      ((bind_of_ok (hscaled .add)).trans (emit_withType hop s.ty)))
  | sub =>
    have hpointer : ¬ (PTR < s.ty ∧ s.ty = s₂.ty) := fun hpointer =>
      absurd hpointer.1 (Nat.not_lt.mpr (Nat.le_of_lt hleft))
    exact (bind_of_ok hpush).trans ((bind_of_ok hexpr).trans ((if_neg hpointer).trans
        ((bind_of_ok (hscaled .sub)).trans (emit_withType hop s.ty))))
  | eq => exact hbinary _ (hequality _ _)
  | ne => exact hbinary _ (hequality _ _)
  | _ => exact hbinary _ rfl

theorem climb_stops (hless : s.tk.code < level.code) (rounds : Nat) :
    s.climb expr le level rounds = .ok s := by
  cases rounds with
  | zero => exact if_neg (Nat.not_le.mpr hless)
  | succ rounds => exact if_neg (Nat.not_le.mpr hless)

theorem climb_round (hle : level.code ≤ s.tk.code)
    (hoperator : s.operator expr le = .ok t) (rounds : Nat) :
    s.climb expr le level (rounds + 1) = t.climb expr le level rounds := by
  rw [climb, if_pos hle, hoperator]
  rfl

end Compiler

theorem set_jump (target : Word)
    (hcode : code = base ++ wordsOf left ++ [op.word, old] ++ wordsOf right)
    (hplace : place = (base ++ wordsOf left).length + 1) :
    code.set place target =
      base ++ wordsOf (left ++ Ins.wide op target :: right) := by
  have hshape : code = base ++ wordsOf (left ++ Ins.wide op old :: right) := by
    simp [hcode, Ins.words]
  rw [hplace, hshape, patched]

structure Emits (data le : Word) (s t : Compiler) (tree : Tree) (last : Lexer) :
    Prop where
  hcode : t.code = s.code ++ wordsOf (tree.code data le (s.code.length + 1))
  hty : t.ty = tree.ty
  follows : t.Follows last

theorem Emits.length (emits : Emits data le s t tree last) :
    t.code.length = s.code.length + tree.words := by
  rw [emits.hcode, List.length_append]
  exact congrArg (s.code.length + ·) (tree.size_code data le _)

def Parses (data le : Word) (declares : List Declare) (level : Nat)
    (tokens : List Lexeme) (tree : Tree) : Prop :=
  ∀ lex last s lev fuel, Lexer.Reads data declares lex tokens last →
    s.Follows lex → lev.code ≤ (levelToken level).code →
    last.tk.code < (behindToken level).code → last.tk ≠ .lparen →
    s.code.length + tree.words ≤ 1023 → tokens.length ≤ fuel →
    ∃ t rounds, Compiler.expr le (fuel + 1) lev s = t.climb (Compiler.expr le fuel) le lev rounds ∧
      fuel ≤ rounds + tokens.length ∧ Emits data le s t tree last

namespace Parses

variable {data le : Word} {declares : List Declare} {level : Nat}
  {tokens : List Lexeme} {tree : Tree}

theorem lift (parses : Parses data le declares (level + 1) tokens tree) :
    Parses data le declares level tokens tree := by
  intro lex last s lev fuel reads follows hlev hbehind
  exact parses lex last s lev fuel reads follows (Nat.le_trans hlev (levelToken_le level))
    (Nat.lt_of_lt_of_le hbehind (behindToken_le level))

variable {fuel : Nat} {before behind : List Lexeme} {left right : Tree}

theorem whole (parses : Parses data le declares level tokens tree)
    (reads : Lexer.Reads data declares lex tokens last)
    (follows : s.Follows lex) (hlev : lev.code ≤ (levelToken level).code)
    (hbehind : last.tk.code < (behindToken level).code)
    (hparen : last.tk ≠ .lparen) (hstop : last.tk.code < lev.code)
    (fits : s.code.length + tree.words ≤ 1023) (enough : tokens.length < fuel) :
    ∃ t, Compiler.expr le fuel lev s = .ok t ∧ Emits data le s t tree last := by
  obtain ⟨fuel, rfl⟩ := Nat.exists_eq_add_one_of_ne_zero (Nat.ne_zero_of_lt enough)
  obtain ⟨t, rounds, hexpr, -, emits⟩ := parses lex last s lev fuel reads follows
    hlev hbehind hparen fits (Nat.le_of_lt_succ enough)
  refine ⟨t, hexpr.trans (Compiler.climb_stops ?_ rounds), emits⟩
  rw [emits.follows.tk]
  exact hstop

theorem of_operand
    (compiled : ∀ lex last s fuel, Lexer.Reads data declares lex tokens last →
      s.Follows lex →
      last.tk.code < Token.inc.code →
      last.tk ≠ .lparen →
      s.code.length + tree.words ≤ 1023 →
      tokens.length ≤ fuel →
      ∃ t, s.operand (Compiler.expr le fuel) fuel = .ok t ∧
        Emits data le s t tree last) :
    Parses data le declares (level + 11) tokens tree := by
  intro lex last s lev fuel reads follows hlev hbehind hparen fits enough
  obtain ⟨t, hoperand, emits⟩ := compiled lex last s fuel reads follows hbehind hparen fits enough
  refine ⟨t, fuel, ?_, Nat.le_add_right _ _, emits⟩
  rw [Compiler.expr, hoperand]
  rfl

theorem of_token {token : Token}
    (compiled : ∀ lex last s fuel,
      Lexer.Reads data declares lex.next tokens last →
      s.Follows lex →
      s.tk = token →
      last.tk.code < Token.inc.code →
      last.tk ≠ .lparen →
      s.code.length + tree.words ≤ 1023 →
      tokens.length < fuel →
      ∃ t, s.operand (Compiler.expr le fuel) fuel = .ok t ∧
        Emits data le s t tree last) :
    Parses data le declares (level + 11) (.op token :: tokens) tree := by
  apply of_operand
  intro lex last s fuel reads follows
  cases reads with
  | cons shows_ more =>
    exact compiled lex last s fuel more follows (follows.tk.trans shows_)

theorem lit (value : Word) :
    Parses data le declares 12 [.num value] (.lit value) := by
  refine @of_operand data le declares 1 _ _ ?_
  intro lex last s fuel reads follows hbehind hparen fits enough
  cases reads with
  | cons shows_ more =>
    cases more
    have htk : s.tk = .num := follows.tk.trans shows_.1
    have hival : s.lex.ival = value := follows.ival.trans shows_.2
    obtain ⟨t, hemit, adds⟩ := s.emit_fits [Op.imm.word, s.lex.ival] fits
    refine ⟨t.next.withType INT, ?_, ?_, rfl, (follows.adds adds).next⟩
    · rw [Compiler.operand, htk]
      simp only [Compiler.number, hemit]
      rfl
    · rw [← hival]
      exact adds.hcode

theorem variableAt_scalar {s : Compiler} {index : Nat} {symbol : Symbol}
    (hsymbol : s.lex.symtab[index]? = some symbol) (hcls : symbol.cls = .glo)
    (hless : symbol.type < PTR) (harray : symbol.type &&& ARRAY = 0)
    (fits : s.code.length + 4 ≤ 1023) :
    ∃ t, s.variableAt index = .ok t ∧
      t.ty = symbol.type ∧
      t.lex = (s.refer index).lex ∧
      t.code =
        s.code ++
          wordsOf [Ins.wide .imm symbol.value,
            Ins.wide .li (ofType symbol.type)] := by
  obtain ⟨s₁, himm, first⟩ := s.emit_fits [Op.imm.word, symbol.value] (Nat.le_trans (by simp) fits)
  obtain ⟨s₂, hload, second⟩ := (s₁.refer index).emit_fits [Op.li.word, ofType symbol.type] (by
      change s₁.code.length + 2 ≤ 1023
      rw [first.hcode, List.length_append]
      exact fits)
  refine ⟨s₂.withType symbol.type, ?_, rfl, ?_, ?_⟩
  · have htypeop : typeop .assign symbol.type = symbol.type := if_neg (Nat.not_le.mpr hless)
    simp only [Compiler.variableAt, hsymbol, hcls, himm]
    change Compiler.loadVariable symbol.type index s₁ = _
    rw [Compiler.loadVariable, if_neg (not_not_intro harray), htypeop, hload]
    rfl
  · exact second.hlex.trans (by rw [Compiler.refer, first.hlex]; rfl)
  · change s₂.code = _
    rw [second.hcode, Compiler.refer, first.hcode]
    simp [Ins.words]

theorem field {declare : Declare} (scalar : declare.Scalar) :
    Parses data le declares 12 [.field declare] (.field declare) := by
  refine @of_operand data le declares 1 _ _ ?_
  intro lex last s fuel reads follows hbehind hparen fits enough
  cases reads with
  | cons shows_ more =>
    cases more
    obtain ⟨htoken, -, symbol, hsymbol, hcls, htype, hvalue⟩ := shows_
    obtain ⟨hless, -, harray⟩ := scalar.typed
    rw [htype, Option.getD_some] at hless harray
    obtain ⟨more, hsymtab, -⟩ := lex.next_enters
    have hplace : lex.next.symtab[lex.id]? = some symbol := by
      rw [hsymtab, List.getElem?_append_left (List.getElem?_eq_some_iff.mp hsymbol).1]
      exact hsymbol
    obtain ⟨ref, hfound⟩ := follows.next.symbol hplace
    have htk : s.tk = .id := follows.tk.trans htoken
    have hnext : s.next.tk ≠ .lparen := by
      rw [follows.next.tk]
      exact hparen
    rw [← follows.id] at hfound
    obtain ⟨t, hvariable, hty, hlex, hcode⟩ := variableAt_scalar hfound hcls hless harray fits
    refine ⟨t, ?_, ?_, ?_, ?_⟩
    · rw [Compiler.operand, htk]
      simp only [Compiler.identifier, if_neg hnext, hvariable]
    · rw [hcode, Tree.code, htype, ← hvalue]
      rfl
    · rw [hty, Tree.ty, htype]
      rfl
    · rw [Compiler.Follows, hlex]
      exact follows.next.refer _

theorem paren (derives : Derives 0 tokens tree)
    (parses : Parses data le declares 0 tokens tree) :
    Parses data le declares 12 (.op .lparen :: (tokens ++ [.op .rparen]))
      (.paren tree) := by
  refine @of_token data le declares 1 _ _ _ ?_
  intro lex last s fuel reads follows htk hbehind hparen fits enough
  have hfuel : tokens.length < fuel := by
    rw [List.length_append] at enough
    exact Nat.lt_of_le_of_lt (Nat.le_add_right _ _) enough
  obtain ⟨middle, hinner, hclose⟩ := reads.split
  cases hclose with
  | cons hrparen more =>
    cases more
    have hclosed : middle.tk = .rparen := hrparen
    have hint : s.next.tk ≠ .int := by
      obtain ⟨lexeme, rest, rfl, hopens⟩ := derives.opens
      rw [follows.next.tk]
      cases hinner with
      | cons hfirst _ =>
        exact hfirst.ne_token hopens (by decide) rfl fun _ _ => by decide
    obtain ⟨t, hexpr, emits⟩ := parses.whole hinner follows.next
      (show Token.assign.code ≤ _ by decide) (by rw [hclosed]; decide)
      (by rw [hclosed]; decide) (by rw [hclosed]; decide) fits hfuel
    refine ⟨t.next, ?_, emits.hcode, emits.hty, emits.follows.next⟩
    rw [Compiler.operand, htk]
    simp only [Compiler.parenthesis, if_neg hint]
    rw [hexpr]
    exact if_pos (emits.follows.tk.trans hclosed)

section

variable (parses : Parses data le declares 11 tokens tree)

include parses

theorem operand (reads : Lexer.Reads data declares lex tokens last)
    (follows : s.Follows lex) (hbehind : last.tk.code < Token.inc.code)
    (hparen : last.tk ≠ .lparen) (fits : s.code.length + tree.words ≤ 1023)
    (enough : tokens.length < fuel) :
    ∃ t, Compiler.expr le fuel .inc s = .ok t ∧
      Emits data le s t tree last :=
  parses.whole reads follows (Nat.le_refl _) hbehind hparen hbehind fits enough

theorem unary {token : Token} {op : Op} {constant : Word} {made : Tree}
    (hoperand : ∀ expr (s : Compiler) fuel, s.tk = token →
      s.operand expr fuel = s.unary expr op constant) (hty : made.ty = INT)
    (hwords : made.words = tree.words + 4)
    (hcode : ∀ start, made.code data le start =
      tree.code data le start ++
        [Ins.plain .psh, Ins.wide .imm constant, Ins.plain op]) :
    Parses data le declares 11 (.op token :: tokens) made := by
  refine @of_token data le declares 0 _ _ _ ?_
  intro lex last s fuel reads follows htk hbehind hparen fits enough
  rw [hwords] at fits
  obtain ⟨s₁, hexpr, emits⟩ :=
    parses.operand reads follows.next hbehind hparen
      (Nat.le_trans (Nat.add_le_add_left (Nat.le_add_right _ 4) _) fits) enough
  obtain ⟨s₂, hemit, adds⟩ :=
    s₁.emit_fits [Op.psh.word, Op.imm.word, constant, op.word] (by
      rw [emits.length, Nat.add_assoc]
      exact fits)
  have follows₂ := emits.follows.adds adds
  refine ⟨s₂.withType INT, ?_, adds.hcode.trans ?_, hty.symm, follows₂⟩
  · rw [hoperand _ s fuel htk, Compiler.unary, hexpr]
    change (s₁.emit _ >>= _) = _
    rw [hemit]
    rfl
  · rw [emits.hcode, hcode]
    simp [Ins.words]
    rfl

theorem not : Parses data le declares 11 (.op .not :: tokens) (.not tree) := by
  refine parses.unary ?_ rfl rfl fun _ => rfl
  intro expr s fuel htk
  rw [Compiler.operand, htk]
  rfl

theorem complement :
    Parses data le declares 11 (.op .wildcard :: tokens)
      (.complement tree) := by
  refine parses.unary ?_ rfl rfl fun _ => rfl
  intro expr s fuel htk
  rw [Compiler.operand, htk]
  rfl

theorem plus :
    Parses data le declares 11 (.op .add :: tokens) (.plus tree) := by
  refine @of_token data le declares 0 _ _ _ ?_
  intro lex last s fuel reads follows htk hbehind hparen fits enough
  obtain ⟨t, hexpr, emits⟩ :=
    parses.operand reads follows.next hbehind hparen fits enough
  refine ⟨t.withType INT, ?_, emits.hcode, rfl, emits.follows⟩
  rw [Compiler.operand, htk]
  simp only [Compiler.plus, hexpr]
  rfl

theorem neg (derives : Derives 11 tokens tree) :
    Parses data le declares 11 (.op .sub :: tokens) (.neg tree) := by
  refine @of_token data le declares 0 _ _ _ ?_
  intro lex last s fuel reads follows htk hbehind hparen fits enough
  rcases derives.literal (Nat.le_refl _) with
    ⟨value, rfl, rfl⟩ | ⟨hliteral, hfirst⟩
  · cases reads with
    | cons hnum more =>
      cases more
      have hnext : s.next.tk = .num := follows.next.tk.trans hnum.1
      have hival : s.next.lex.ival = value := follows.next.ival.trans hnum.2
      obtain ⟨t, hemit, adds⟩ := s.next.emit_fits [Op.imm.word, -s.next.lex.ival] fits
      refine ⟨t.next.withType INT, ?_, ?_, rfl, (follows.next.adds adds).next⟩
      · rw [Compiler.operand, htk]
        simp only [Compiler.minus, if_pos hnext, hemit]
        rfl
      · rw [hival] at adds
        exact adds.hcode
  · rw [Tree.words, hliteral] at fits
    change s.code.length + (tree.words + 4) ≤ 1023 at fits
    have hnext : s.next.tk ≠ .num := by
      obtain ⟨lexeme, rest, rfl, hopens⟩ := derives.opens
      rw [follows.next.tk]
      cases reads with
      | cons hshows _ =>
        exact hshows.ne_token hopens (by decide) rfl fun value same =>
          absurd (by rw [same]) (hfirst value rest)
    obtain ⟨s₁, hpush, adds₁⟩ :=
      s.next.emit_fits [Op.imm.word, -1, Op.psh.word] (by
        change s.code.length + 3 ≤ 1023
        omega)
    have hlength : s₁.code.length = s.code.length + 3 := by
      rw [adds₁.hcode, List.length_append]
      rfl
    obtain ⟨s₂, hexpr, emits⟩ := parses.operand reads
      (follows.next.adds adds₁) hbehind hparen (by omega) enough
    obtain ⟨s₃, hmul, adds₃⟩ := s₂.emit_fits [Op.mul.word] (by
      rw [emits.length, hlength]
      simp
      omega)
    have follows₃ := emits.follows.adds adds₃
    refine ⟨s₃.withType INT, ?_, ?_, rfl, follows₃⟩
    · rw [Compiler.operand, htk]
      simp only [Compiler.minus, if_neg hnext, hpush]
      change (Compiler.expr le fuel .inc s₁ >>= _) = _
      rw [hexpr]
      change (s₂.emit _ >>= _) = _
      rw [hmul]
      rfl
    · refine adds₃.hcode.trans ?_
      rw [emits.hcode, hlength, adds₁.hcode, Tree.code, hliteral]
      simp [Ins.words]
      rfl

end

theorem of_operator {inner : Nat} (hlow : (levelToken level).code ≤ token.code)
    (hinner : (levelToken level).code ≤ (levelToken inner).code)
    (hhigh : token.code < (behindToken inner).code) (hparen : token ≠ .lparen)
    (hwords : left.words ≤ tree.words)
    (first : Parses data le declares inner before left)
    (operated : ∀ middle last s₀ s fuel,
      Lexer.Reads data declares middle.next behind last →
      Emits data le s₀ s left middle →
      s.tk = token →
      last.tk.code < (behindToken level).code →
      last.tk ≠ .lparen →
      s₀.code.length + tree.words ≤ 1023 →
      behind.length < fuel →
      ∃ t, s.operator (Compiler.expr le fuel) le = .ok t ∧
        Emits data le s₀ t tree last) :
    Parses data le declares level (before ++ .op token :: behind) tree := by
  intro lex last s lev fuel reads follows hlev hbehind hlast fits enough
  rw [List.length_append, List.length_cons] at enough
  obtain ⟨middle, hbefore, hrest⟩ := reads.split
  cases hrest with
  | cons shows_ more =>
    have htoken : middle.tk = token := shows_
    obtain ⟨s₁, rounds, hexpr, hrounds, emits⟩ := first lex middle s lev fuel
      hbefore follows (Nat.le_trans hlev hinner) (by rw [htoken]; exact hhigh)
      (by rw [htoken]; exact hparen) (by omega) (by omega)
    have htk : s₁.tk = token := emits.follows.tk.trans htoken
    obtain ⟨t, hoperator, hemits⟩ := operated middle last s s₁ fuel more emits
      htk hbehind hlast fits (by omega)
    obtain ⟨rounds, rfl⟩ : ∃ fewer, rounds = fewer + 1 := ⟨rounds - 1, by omega⟩
    refine ⟨t, rounds, hexpr.trans (Compiler.climb_round ?_ hoperator rounds), ?_, hemits⟩
    · rw [htk]
      exact Nat.le_trans hlev hlow
    · rw [List.length_append, List.length_cons]
      omega

theorem bin (op : BinOp) (hleft : Derives op.precedence before left)
    (hright : Derives (op.precedence + 1) behind right)
    (first : Parses data le declares op.precedence before left)
    (second : Parses data le declares (op.precedence + 1) behind right) :
    Parses data le declares op.precedence (before ++ .op op.token :: behind)
      (.bin op left right) := by
  obtain ⟨hlow, hhigh, hbehind⟩ := op.token_level
  refine of_operator hlow (Nat.le_refl _) hhigh (by cases op <;> decide)
    (by rw [Tree.words]; omega) first ?_
  intro middle last s₀ s fuel reads emits htk hlast hparen fits enough
  rw [Tree.words] at fits
  obtain ⟨s₁, hpush, adds₁⟩ := s.next.emit_fits [Op.psh.word] (by
    change s.code.length + 1 ≤ 1023
    rw [emits.length]
    omega)
  have hlength : s₁.code.length = s₀.code.length + left.words + 1 := by
    rw [adds₁.hcode, List.length_append, ← emits.length]
    rfl
  obtain ⟨s₂, hexpr, emits₂⟩ := second.whole reads (emits.follows.next.adds adds₁) (Nat.le_refl _)
    (Nat.lt_of_lt_of_le hlast (behindToken_le _)) hparen
    (by rw [← hbehind]; exact hlast) (by omega) enough
  have htypes : unsignedOperands s.ty s₂.ty = (left.unsigned || right.unsigned) := by
    rw [emits.hty, emits₂.hty, unsignedOperands_eq hleft.typed.1 hright.typed.1, hleft.typed.2,
      hright.typed.2]
  obtain ⟨s₃, hop, adds₃⟩ := s₂.emit_fits [(op.opcode (unsignedOperands s.ty s₂.ty)).word] (by
      rw [emits₂.length, hlength]
      simp
      omega)
  have follows₃ := emits₂.follows.adds adds₃
  refine ⟨_, Compiler.operator_bin htk (emits.hty ▸ hleft.typed.1) hpush hexpr
    hop, ?_, ?_, follows₃⟩
  · refine adds₃.hcode.trans ?_
    have hstart : s₁.code.length + 1 = s₀.code.length + 1 + left.words + 1 := by omega
    rw [emits₂.hcode, hstart, adds₁.hcode, htypes, Tree.code]
    change s.code ++ _ ++ _ ++ _ = _
    rw [emits.hcode]
    simp [Ins.words]
  · change ite _ _ _ = _
    rw [emits.hty]
    cases op <;> rfl

theorem shortCircuit {jump : Op} {made : Tree}
    (hoperator : ∀ expr (s : Compiler), s.tk = levelToken level →
      s.operator expr le = s.shortCircuit expr le jump (levelToken (level + 1)))
    (hlevel : behindToken level = levelToken (level + 1))
    (hless : (levelToken level).code < (behindToken level).code)
    (hparen : levelToken level ≠ .lparen)
    (hty : made.ty = INT)
    (hwords : made.words = left.words + right.words + 2)
    (hcode : ∀ start, made.code data le start =
      left.code data le start ++
        Ins.wide jump (address le (start + left.words + right.words + 2)) ::
          right.code data le (start + left.words + 2))
    (first : Parses data le declares level before left)
    (second : Parses data le declares (level + 1) behind right) :
    Parses data le declares level (before ++ .op (levelToken level) :: behind)
      made := by
  refine of_operator (Nat.le_refl _) (Nat.le_refl _) hless hparen (by omega)
    first ?_
  intro middle last s₀ s fuel reads emits htk hlast hparen fits enough
  rw [hwords] at fits
  have hleft := emits.length
  obtain ⟨s₁, old, hjump, adds⟩ := s.next.emitJump_fits jump (by
    change s.code.length + 2 ≤ 1023
    omega)
  have hlength : s₁.code.length = s.code.length + 2 := adds.length
  obtain ⟨s₂, hexpr, emits₂⟩ :=
    second.whole reads (emits.follows.next.adds adds) (Nat.le_refl _)
      (Nat.lt_of_lt_of_le hlast (behindToken_le _)) hparen
      (by rw [← hlevel]; exact hlast) (by omega) enough
  have hright := emits₂.length
  refine ⟨(s₂.patch (s₁.code.length - 1)
    (address le (s₂.code.length + 1))).withType INT,
    (hoperator _ s htk).trans ((bind_of_ok hjump).trans (bind_of_ok hexpr)), ?_,
    hty.symm, emits₂.follows⟩
  have hstart : s₁.code.length + 1 = s₀.code.length + 1 + left.words + 2 := by
    omega
  have htarget : s₂.code.length + 1 =
      s₀.code.length + 1 + left.words + right.words + 2 := by
    omega
  have hcode₂ : s₂.code = s.code ++ [jump.word, old] ++ wordsOf
      (right.code data le (s₀.code.length + 1 + left.words + 2)) := by
    rw [← hstart, emits₂.hcode, adds.hcode]
    rfl
  rw [emits.hcode] at hcode₂ hlength
  rw [hcode, ← htarget]
  exact set_jump _ hcode₂ (by omega)

theorem land (first : Parses data le declares 2 before left)
    (second : Parses data le declares 3 behind right) :
    Parses data le declares 2 (before ++ .op .lan :: behind)
      (.land left right) := by
  refine shortCircuit ?_ rfl (by decide) (by decide) rfl rfl (fun _ => rfl) first
    second
  intro expr s htk
  rw [Compiler.operator, htk]
  rfl

theorem lor (first : Parses data le declares 1 before left)
    (second : Parses data le declares 2 behind right) :
    Parses data le declares 1 (before ++ .op .lor :: behind)
      (.lor left right) := by
  refine shortCircuit ?_ rfl (by decide) (by decide) rfl rfl (fun _ => rfl) first
    second
  intro expr s htk
  rw [Compiler.operator, htk]
  rfl

theorem cond {before between behind : List Lexeme} {test left right : Tree}
    (first : Parses data le declares 1 before test)
    (second : Parses data le declares 0 between left)
    (third : Parses data le declares 0 behind right) :
    Parses data le declares 0
      (before ++ .op .cond :: (between ++ .op .colon :: behind))
      (.cond test left right) := by
  refine of_operator (Nat.le_refl _) (by decide) (by decide) (by decide)
    (by rw [Tree.words]; omega) first ?_
  intro middle last s₀ s fuel reads emits htk hlast hparen fits enough
  rw [Tree.words] at fits
  rw [List.length_append, List.length_cons] at enough
  obtain ⟨colon, hbetween, hbehind⟩ := reads.split
  cases hbehind with
  | cons shows_ hbehind =>
    have hcolon : colon.tk = .colon := shows_
    have htest := emits.length
    obtain ⟨s₁, old₁, hbz, adds₁⟩ := s.next.emitJump_fits .bz (by
      change s.code.length + 2 ≤ 1023
      omega)
    have hlength₁ : s₁.code.length = s.code.length + 2 := adds₁.length
    have hfuel : between.length < fuel := by omega
    obtain ⟨s₂, hleft, emits₂⟩ := second.whole hbetween (emits.follows.next.adds adds₁)
      (show Token.assign.code ≤ _ by decide) (by rw [hcolon]; decide)
      (by rw [hcolon]; decide) (by rw [hcolon]; decide) (by omega) hfuel
    have hlength₂ := emits₂.length
    have hexpect : s₂.expect .colon "conditional missing colon" =
        .ok s₂.next := if_pos (emits₂.follows.tk.trans hcolon)
    have hplace : s₁.code.length - 1 = (s₀.code ++ wordsOf
        (test.code data le (s₀.code.length + 1))).length + 1 := by
      rw [← emits.hcode, hlength₁]
      rfl
    have hover := set_jump (address le (s₂.code.length + 3)) (emits₂.hcode.trans (congrArg (· ++ _)
      (adds₁.hcode.trans (congrArg (· ++ _) emits.hcode)))) hplace
    obtain ⟨s₃, old₃, hjmp, adds₃⟩ := (s₂.next.patch (s₁.code.length - 1)
      (address le (s₂.code.length + 3))).emitJump_fits .jmp (by
        change (s₂.code.set _ _).length + 2 ≤ 1023
        rw [List.length_set]
        omega)
    have hlength₃ : s₃.code.length = s₂.code.length + 2 := by
      rw [adds₃.length]
      change (s₂.code.set _ _).length + 2 = _
      rw [List.length_set]
    have follows₂ : (s₂.next.patch (s₁.code.length - 1) (address le (s₂.code.length + 3))).Follows
        colon.next := emits₂.follows.next
    have hfuel : behind.length < fuel := by omega
    obtain ⟨s₄, hright, emits₄⟩ := third.whole hbehind (follows₂.adds adds₃)
      (Nat.le_refl _) hlast hparen hlast (by omega) hfuel
    have hlength₄ := emits₄.length
    refine ⟨s₄.patch (s₃.code.length - 1) (address le (s₄.code.length + 1)),
      ?_, ?_, emits₄.hty, emits₄.follows⟩
    · rw [Compiler.operator, htk]
      exact (bind_of_ok hbz).trans ((bind_of_ok hleft).trans ((bind_of_ok hexpect).trans
        ((bind_of_ok hjmp).trans (bind_of_ok hright))))
    · change s₄.code.set _ _ = _
      refine (set_jump _ (emits₄.hcode.trans (congrArg (· ++ _)
        (adds₃.hcode.trans (congrArg (· ++ _) hover)))) ?_).trans ?_
      · rw [← hover, List.length_set]
        omega
      · have hover₂ : s₂.code.length + 3 = s₀.code.length + 1 + test.words + left.words + 4 := by
          omega
        have hend : s₄.code.length + 1 = s₀.code.length + 1 + test.words +
            left.words + right.words + 4 := by
          omega
        have hleft : s₁.code.length + 1 = s₀.code.length + 1 + test.words + 2 := by omega
        have hright : s₃.code.length + 1 = s₀.code.length + 1 + test.words + left.words + 4 := by
          omega
        rw [hover₂, hend, hleft, hright, Tree.code]
        simp

end Parses

theorem Derives.parses (derives : Derives level tokens tree) :
    Parses data le declares level tokens tree := by
  induction derives with
  | lit value => exact .lit value
  | field scalar => exact .field scalar
  | paren inner ih => exact .paren inner ih
  | not _ ih => exact .not ih
  | complement _ ih => exact .complement ih
  | plus _ ih => exact .plus ih
  | neg inner ih => exact .neg ih inner
  | bin op hleft hright left right => exact .bin op hleft hright left right
  | land _ _ left right => exact .land left right
  | lor _ _ left right => exact .lor left right
  | cond _ _ _ test left right => exact .cond test left right
  | lift _ ih => exact .lift ih

end PerfProf.Expr
