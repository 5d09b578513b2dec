import PerfProf.Expr.Generation

namespace PerfProf.Expr

open PerfProf.Data

section Operators

variable {rules : Rules} {le : Word} {s t : Compiler}
  {expr : Token → Compiler → Compiled}
  (hexpr : ∀ level s t, expr level s = .ok t → Appends rules le s t)

include hexpr in
theorem assignment_continues (hassign : s.assignment expr = .ok t) :
    Continues rules le s t := by
  unfold Compiler.assignment at hassign
  simp only at hassign
  split at hassign
  · rename_i loaded
    obtain ⟨s₁, hright, hemit⟩ := bind_ok hassign
    have hpush : Reaches rules le s.next.look s.next.look.pushAddress True := .silent rfl id trivial
    refine (Reaches.next.trans (Reaches.look.trans (hpush.trans ((hexpr _ _ _ hright).trans
      ((Reaches.withType s.ty).trans (Reaches.emit hemit)))))).imp ?_
    rintro ⟨-, hlook, -, hgrows, -, hadded⟩ base code haligned hcode emitted
    obtain ⟨left, type, rfl, lands⟩ := hlook base code haligned hcode emitted loaded
    have hleft := emitted.unload lands
    have hbefore : s.next.look.pushAddress.code = base ++ wordsOf left ++ [Op.psh.word] := by
      rw [← dropLast_load base left type, ← hcode]
      rfl
    obtain ⟨right, hafter, hemitted⟩ := hgrows.behind (.plain .psh) haligned
      hleft.piece.valid rfl hbefore
    have hstore : Emitted rules le (base.length + 1) (left ++ Ins.plain .psh :: (right ++ [Ins.wide
        .si (ofType (typeop .assign s.ty))])) := hleft.operate hemitted rfl rfl (fun _ => rfl) rfl
    refine ⟨_, ?_, hstore⟩
    rw [hadded, show (s₁.withType s.ty).code = s₁.code from rfl, hafter]
    simp [Ins.words]
  · cases hassign

theorem emitJump_reaches (hjump : s.emitJump op = .ok t) :
    Reaches rules le s t (∃ operand, t.code = s.code ++ [op.word, operand]) :=
  (Reaches.emit hjump).imp fun hcode => ⟨_, hcode⟩

theorem patched (left right : List Ins) (op : Op) (old new : Word) :
    (base ++ wordsOf (left ++ Ins.wide op old :: right)).set
      ((base ++ wordsOf left).length + 1) new =
      base ++ wordsOf (left ++ Ins.wide op new :: right) := by
  have hsplit : ∀ operand, base ++ wordsOf (left ++ Ins.wide op operand :: right) =
      (base ++ wordsOf left) ++ (op.word :: operand :: wordsOf right) := by
    intro operand
    simp [Ins.words]
  rw [hsplit old, hsplit new, List.set_append_right _ _ (Nat.le_succ _)]
  simp

theorem length_jump (words : List Word) (op operand : Word) :
    (words ++ [op, operand]).length - 1 = words.length + 1 := by
  simp

include hexpr in
theorem shortCircuit_continues (hop : jump.isJump = true)
    (hshort : s.shortCircuit expr le jump level = .ok t) :
    Continues rules le s t := by
  obtain ⟨s₁, hjump, hrest⟩ := bind_ok hshort
  obtain ⟨s₂, hright, hrest⟩ := bind_ok hrest
  cases hrest
  have hpatch : Reaches rules le s₂ ((s₂.patch (s₁.code.length - 1) (address le (s₂.code.length +
      1))).withType INT) True := .silent rfl id trivial
  refine (Reaches.next.trans ((emitJump_reaches hjump).trans
    ((hexpr _ _ _ hright).trans hpatch))).imp ?_
  rintro ⟨-, ⟨operand, hjumped⟩, hgrows, -⟩ base left haligned hcode emitted
  have hbefore : s₁.code = base ++ wordsOf left ++ [jump.word, operand] := by
    rw [hjumped, ← hcode]
    rfl
  obtain ⟨right, hafter, hemitted⟩ :=
    hgrows.behind (.wide jump operand) haligned emitted.piece.valid (isJump_hasOperand hop) hbefore
  have hplace : s₁.code.length - 1 = (base ++ wordsOf left).length + 1 := by
    rw [hbefore, length_jump]
  refine ⟨left ++ Ins.wide jump (address le (s₂.code.length + 1)) :: right, ?_,
    emitted.shortCircuit hemitted hop ?_⟩
  · change s₂.code.set (s₁.code.length - 1) _ = _
    rw [hplace, hafter, patched]
  · rw [hafter]
    congr 1
    simp [size, Ins.words]
    omega

include hexpr in
theorem conditional_continues (hcond : s.conditional expr le = .ok t) :
    Continues rules le s t := by
  obtain ⟨s₁, htest, hrest⟩ := bind_ok hcond
  obtain ⟨s₂, hleft, hrest⟩ := bind_ok hrest
  obtain ⟨s₃, hcolon, hrest⟩ := bind_ok hrest
  obtain ⟨s₄, hjump, hrest⟩ := bind_ok hrest
  obtain ⟨s₅, hright, hrest⟩ := bind_ok hrest
  cases hrest
  have hpatch : Reaches rules le s₃ (s₃.patch (s₁.code.length - 1)
      (address le (s₃.code.length + 3))) True := .silent rfl id trivial
  have hlast : Reaches rules le s₅ (s₅.patch (s₄.code.length - 1)
      (address le (s₅.code.length + 1))) True := .silent rfl id trivial
  refine (Reaches.next.trans ((emitJump_reaches htest).trans ((hexpr _ _ _ hleft).trans
    ((Reaches.expect hcolon).trans (hpatch.trans ((emitJump_reaches hjump).trans ((hexpr _ _ _
    hright).trans hlast))))))).imp ?_
  rintro ⟨-, ⟨first, htested⟩, hgrows, hsame, -, ⟨second, hjumped⟩,
    hgrown, -⟩ base test haligned hcode emitted
  have hbefore : s₁.code = base ++ wordsOf test ++ [Op.bz.word, first] := by
    rw [htested, ← hcode]
    rfl
  obtain ⟨left, hafter, hemitted⟩ :=
    hgrows.behind (.wide .bz first) haligned emitted.piece.valid rfl hbefore
  have hplace : s₁.code.length - 1 = (base ++ wordsOf test).length + 1 := by
    rw [hbefore, length_jump]
  have hmiddle : s₄.code = base ++ wordsOf (test ++
      Ins.wide .bz (address le (s₃.code.length + 3)) :: left) ++ [Op.jmp.word, second] := by
    rw [hjumped]
    change s₃.code.set (s₁.code.length - 1) _ ++ _ = _
    rw [hplace, hsame, hafter, patched]
  have hvalid : ∀ ins ∈ test ++ Ins.wide .bz (address le (s₃.code.length + 3)) :: left,
      ins.valid = true := by
    intro ins member
    rcases List.mem_append.mp member with member | member
    · exact emitted.piece.valid ins member
    · rcases List.mem_cons.mp member with rfl | member
      · rfl
      · exact hemitted.piece.valid ins member
  obtain ⟨right, hend, hother⟩ := hgrown.behind (.wide .jmp second) haligned hvalid rfl hmiddle
  have hstart : base.length + 1 + size (test ++
      Ins.wide .bz (address le (s₃.code.length + 3)) :: left) + 2 =
        base.length + 1 + size test + 2 + size left + 2 := by
    simp only [size_append, size_wide]
    omega
  change Emitted rules le (_ + 2) right at hother
  rw [hstart] at hother
  have hjumpPlace : s₄.code.length - 1 = (base ++ wordsOf (test ++
      Ins.wide .bz (address le (s₃.code.length + 3)) :: left)).length + 1 := by
    rw [hmiddle, length_jump]
  have hlength : s₃.code.length = base.length + size test + 2 + size left := by
    rw [hsame, hafter]
    simp [size, Ins.words]
    omega
  have hlengths : s₅.code.length = base.length + size test + 2 + size left + 2 + size right := by
    rw [hend]
    simp [size, Ins.words]
    omega
  have hwhole : Emitted rules le (base.length + 1) (test ++ Ins.wide .bz (address le (s₃.code.length
      + 3)) :: (left ++ Ins.wide .jmp (address le (s₅.code.length + 1)) :: right)) :=
      emitted.conditional hemitted hother (congrArg (address le) (by omega)) (congrArg (address le)
      (by omega))
  refine ⟨_, ?_, hwhole⟩
  change s₅.code.set (s₄.code.length - 1) _ = _
  rw [hjumpPlace, hend, patched]
  simp

def Pushes (rules : Rules) (le : Word) (s t : Compiler) : Prop :=
  ∀ base left, aligned hasOperand base = true → s.code = base ++ wordsOf left →
    Emitted rules le (base.length + 1) left → ∃ right,
      t.code = base ++ wordsOf (left ++ Ins.plain .psh :: right) ∧
      Emitted rules le (base.length + 1 + size left + 1) right

theorem binary_reaches (hpush : s.next.emit [Op.psh.word] = .ok s₁)
    (hright : Appends rules le s₁ s₂) :
    Reaches rules le s s₂ (Pushes rules le s s₂) := by
  refine (Reaches.next.trans ((Reaches.emit hpush).trans hright)).imp ?_
  rintro ⟨-, hpushed, hgrows⟩ base left haligned hcode emitted
  refine hgrows.behind (.plain .psh) haligned emitted.piece.valid rfl ?_
  rw [hpushed, ← hcode]
  rfl

theorem Pushes.operate (pushes : Pushes rules le s t) (ins : Ins)
    (hvalid : ins.valid = true) (hstill : ins.op.isJump = false)
    (hflow : ∀ depth, ins.flow (depth + 1) = some depth)
    (hkept : ins.isSwap = false) (haligned : aligned hasOperand base = true)
    (hcode : s.code = base ++ wordsOf left)
    (emitted : Emitted rules le (base.length + 1) left) :
    ∃ operands, t.code ++ ins.words = base ++ wordsOf (operands ++ [ins]) ∧
      Emitted rules le (base.length + 1) (operands ++ [ins]) := by
  obtain ⟨right, hafter, hemitted⟩ := pushes base left haligned hcode emitted
  have hwhole := emitted.operate hemitted hvalid hstill hflow hkept
  refine ⟨left ++ Ins.plain .psh :: right, by simp [hafter], ?_⟩
  simpa using hwhole

include hexpr in
theorem binary_continues {op : Nat → Nat → Op}
    (hop : ∀ left right, (op left right).isOperator = true)
    (hbinary : s.binary expr level op = .ok t) : Continues rules le s t := by
  obtain ⟨s₁, hpush, hrest⟩ := bind_ok hbinary
  obtain ⟨s₂, hright, hrest⟩ := bind_ok hrest
  obtain ⟨s₃, hemit, hrest⟩ := bind_ok hrest
  cases hrest
  refine ((binary_reaches hpush (hexpr _ _ _ hright)).trans
    ((Reaches.emit hemit).trans (Reaches.withType INT))).imp ?_
  rintro ⟨hoperands, hadded, -⟩ base left haligned hcode emitted
  have hvalue := hop s.ty s₂.ty
  obtain ⟨operands, hwhole, hemitted⟩ := hoperands.operate _ (operator_valid hvalue)
    (operator_still hvalue) (operator_flow hvalue) (operator_kept hvalue) haligned hcode emitted
  exact ⟨_, hadded.trans hwhole, hemitted⟩

include hexpr in
theorem wildcardMatch_continues (hmatch : s.wildcardMatch expr = .ok t) :
    Continues rules le s t := by
  unfold Compiler.wildcardMatch at hmatch
  split at hmatch
  · obtain ⟨s₁, hpush, hrest⟩ := bind_ok hmatch
    obtain ⟨s₂, hright, hrest⟩ := bind_ok hrest
    split at hrest
    · obtain ⟨s₃, hemit, hrest⟩ := bind_ok hrest
      cases hrest
      refine ((binary_reaches hpush (hexpr _ _ _ hright)).trans
        ((Reaches.emit hemit).trans (Reaches.withType INT))).imp ?_
      rintro ⟨hoperands, hadded, -⟩ base left haligned hcode emitted
      obtain ⟨operands, hwhole, hemitted⟩ := hoperands.operate (Ins.plain .wildcard)
        rfl rfl (fun _ => rfl) rfl haligned hcode emitted
      exact ⟨_, hadded.trans hwhole, hemitted⟩
    · cases hrest
  · cases hmatch

theorem scaled_reaches {op : Token} {type : Nat}
    (hscaled : s.scaled op type = .ok t) :
    Reaches rules le s t
      (∀ first, Pushes rules le first s → Pushes rules le first t) := by
  unfold Compiler.scaled at hscaled
  split at hscaled
  · refine (Reaches.emit hscaled).imp ?_
    intro hadded first pushes base left haligned hcode emitted
    obtain ⟨right, hright, hemitted⟩ := pushes base left haligned hcode emitted
    refine ⟨_, ?_, hemitted.withConstant (rfl : Op.mul.isOperator) (ofType (typeop op type))⟩
    rw [hadded, hright]
    simp [Ins.words]
  · cases hscaled
    exact .silent rfl id fun _ => id

theorem indexed_continues {op : Op} {first : Token} {type : Nat}
    {s₁ s₂ s₃ : Compiler} (hop : op.isOperator = true)
    (hpush : s.next.emit [Op.psh.word] = .ok s₁)
    (hright : Appends rules le s₁ s₂)
    (hscaled : (s₂.withType s.ty).scaled first type = .ok s₃)
    (hemit : s₃.emit [op.word] = .ok t) : Continues rules le s t := by
  refine ((binary_reaches hpush hright).trans ((Reaches.withType s.ty).trans
    ((scaled_reaches hscaled).trans (Reaches.emit hemit)))).imp ?_
  rintro ⟨hoperands, -, hindex, hadded⟩ base left haligned hcode emitted
  obtain ⟨operands, hwhole, hemitted⟩ := (hindex s hoperands).operate _ (operator_valid hop)
    (operator_still hop) (operator_flow hop) (operator_kept hop) haligned hcode emitted
  exact ⟨_, hadded.trans hwhole, hemitted⟩

include hexpr in
theorem addition_continues (haddition : s.addition expr = .ok t) :
    Continues rules le s t := by
  obtain ⟨s₁, hpush, hrest⟩ := bind_ok haddition
  obtain ⟨s₂, hright, hrest⟩ := bind_ok hrest
  obtain ⟨s₃, hscaled, hemit⟩ := bind_ok hrest
  exact indexed_continues rfl hpush (hexpr _ _ _ hright) hscaled hemit

include hexpr in
theorem subtraction_continues (hsub : s.subtraction expr = .ok t) :
    Continues rules le s t := by
  obtain ⟨s₁, hpush, hrest⟩ := bind_ok hsub
  obtain ⟨s₂, hright, hrest⟩ := bind_ok hrest
  split at hrest
  · obtain ⟨s₃, hemit, hrest⟩ := bind_ok hrest
    cases hrest
    refine ((binary_reaches hpush (hexpr _ _ _ hright)).trans
      ((Reaches.emit hemit).trans (Reaches.withType INT))).imp ?_
    rintro ⟨hoperands, hadded, -⟩ base left haligned hcode emitted
    obtain ⟨operands, hwhole, hemitted⟩ := hoperands.operate (Ins.plain .sub)
      rfl rfl (fun _ => rfl) rfl haligned hcode emitted
    refine ⟨_, ?_, hemitted.withConstant (rfl : Op.div.isOperator) (ofType (typeop .sub s₂.ty))⟩
    rw [wordsOf_append, ← List.append_assoc, ← hwhole, List.append_assoc]
    exact hadded
  · obtain ⟨s₃, hscaled, hemit⟩ := bind_ok hrest
    exact indexed_continues rfl hpush (hexpr _ _ _ hright) hscaled hemit

theorem backOp_isOperator (token : Token) :
    (Compiler.backOp token).isOperator = true := by
  unfold Compiler.backOp
  split <;> rfl

theorem postIncrement_continues (hpost : s.postIncrement = .ok t) :
    Continues rules le s t := by
  obtain ⟨s₁, hstep, hrest⟩ := bind_ok hpost
  obtain ⟨s₂, hemit, hrest⟩ := bind_ok hrest
  cases hrest
  refine ((stepVariable_continues hstep).trans ((Reaches.emit hemit).trans Reaches.next)).imp ?_
  rintro ⟨hstepped, hadded, -⟩ base left haligned hcode emitted
  obtain ⟨larger, hlarger, hemitted⟩ := hstepped base left haligned hcode emitted
  refine ⟨_, ?_, hemitted.withConstant (backOp_isOperator s.tk) (ofType (typeop s.tk s₁.ty))⟩
  rw [show s₂.next.code = s₂.code from rfl, hadded, hlarger]
  simp [Ins.words]

include hexpr in
theorem subscript_continues (hsubscript : s.subscript expr = .ok t) :
    Continues rules le s t := by
  obtain ⟨s₁, hpush, hrest⟩ := bind_ok hsubscript
  obtain ⟨s₂, hright, hrest⟩ := bind_ok hrest
  obtain ⟨s₃, hclose, hrest⟩ := bind_ok hrest
  split at hrest
  · cases hrest
  · obtain ⟨s₄, hscaled, hemit⟩ := bind_ok hrest
    refine ((binary_reaches hpush (hexpr _ _ _ hright)).trans ((Reaches.expect hclose).trans
      ((scaled_reaches hscaled).trans ((Reaches.withType (s.ty - PTR)).trans (Reaches.emit
      hemit))))).imp ?_
    rintro ⟨hoperands, hclosed, hindex, -, hadded⟩ base left haligned hcode emitted
    have hclosed : Pushes rules le s s₃ := by
      unfold Pushes
      rw [hclosed]
      exact hoperands
    obtain ⟨operands, hsum, hemitted⟩ := (hindex s hclosed).operate (Ins.plain .add)
      rfl rfl (fun _ => rfl) rfl haligned hcode emitted
    have hplain : endsInField rules.field (operands ++ [Ins.plain .add]) = false := by
      simp [endsInField]
    refine ⟨_, ?_, hemitted.load (hemitted.piece.jumps.followed hplain)
      (ofType (typeop .assign (s.ty - PTR)))⟩
    rw [wordsOf_append, ← List.append_assoc, ← hsum, List.append_assoc]
    exact hadded

theorem equality_isOperator (hstrings : strings.isOperator = true)
    (hwords : words.isOperator = true) (left right : Nat) :
    (Compiler.equality strings words left right).isOperator = true := by
  unfold Compiler.equality
  split <;> assumption

theorem signedness_isOperator (hunsigned : unsigned.isOperator = true)
    (hsigned : signed.isOperator = true) (left right : Nat) :
    (Compiler.signedness unsigned signed left right).isOperator = true := by
  unfold Compiler.signedness
  split <;> assumption

include hexpr in
theorem operator_continues (hoperator : s.operator expr le = .ok t) :
    Continues rules le s t := by
  unfold Compiler.operator at hoperator
  split at hoperator
  · exact assignment_continues hexpr hoperator
  · exact conditional_continues hexpr hoperator
  · exact shortCircuit_continues hexpr rfl hoperator
  · exact shortCircuit_continues hexpr rfl hoperator
  · exact binary_continues hexpr (fun _ _ => rfl) hoperator
  · exact binary_continues hexpr (fun _ _ => rfl) hoperator
  · exact binary_continues hexpr (fun _ _ => rfl) hoperator
  · exact binary_continues hexpr (equality_isOperator rfl rfl) hoperator
  · exact binary_continues hexpr (equality_isOperator rfl rfl) hoperator
  · exact binary_continues hexpr (signedness_isOperator rfl rfl) hoperator
  · exact binary_continues hexpr (signedness_isOperator rfl rfl) hoperator
  · exact binary_continues hexpr (signedness_isOperator rfl rfl) hoperator
  · exact binary_continues hexpr (signedness_isOperator rfl rfl) hoperator
  · exact wildcardMatch_continues hexpr hoperator
  · exact binary_continues hexpr (fun _ _ => rfl) hoperator
  · exact binary_continues hexpr (signedness_isOperator rfl rfl) hoperator
  · exact addition_continues hexpr hoperator
  · exact subtraction_continues hexpr hoperator
  · exact binary_continues hexpr (fun _ _ => rfl) hoperator
  · exact binary_continues hexpr (signedness_isOperator rfl rfl) hoperator
  · exact binary_continues hexpr (signedness_isOperator rfl rfl) hoperator
  · exact postIncrement_continues hoperator
  · exact postIncrement_continues hoperator
  · exact subscript_continues hexpr hoperator
  · cases hoperator

theorem Continues.refl : Continues rules le s s :=
  .silent rfl id fun _ code _ hcode emitted => ⟨code, hcode, emitted⟩

include hexpr in
theorem climb_continues (hclimb : s.climb expr le level fuel = .ok t) :
    Continues rules le s t := by
  induction fuel generalizing s with
  | zero =>
    unfold Compiler.climb at hclimb
    split at hclimb
    · cases hclimb
    · cases hclimb
      exact .refl
  | succ fuel ih =>
    unfold Compiler.climb at hclimb
    split at hclimb
    · obtain ⟨s₁, hoperator, hrest⟩ := bind_ok hclimb
      refine ((operator_continues hexpr hoperator).trans (ih hrest)).imp ?_
      rintro ⟨hfirst, hnext⟩ base code haligned hcode emitted
      obtain ⟨larger, hlarger, hemitted⟩ := hfirst base code haligned hcode emitted
      exact hnext base larger haligned hlarger hemitted
    · cases hclimb
      exact .refl

end Operators

section Program

theorem expr_appends (hexpr : Compiler.expr le fuel level s = .ok t) :
    Appends rules le s t := by
  induction fuel generalizing level s t with
  | zero => cases hexpr
  | succ fuel ih =>
    obtain ⟨s₁, hoperand, hclimb⟩ := bind_ok hexpr
    have hcalls : ∀ level s t, Compiler.expr le fuel level s = .ok t →
        Appends rules le s t := fun _ _ _ hcall => ih hcall
    exact (operand_appends hcalls hoperand).continue (climb_continues hcalls hclimb)

theorem exprs_appends (hexprs : Compiler.exprs le fuel s = .ok t) :
    Appends rules le s t := by
  induction fuel generalizing s with
  | zero => cases hexprs
  | succ fuel ih =>
    obtain ⟨s₁, hfirst, hrest⟩ := bind_ok hexprs
    have happends : Appends rules le s s₁ := appends_next (expr_appends hfirst)
    split at hrest
    · refine (happends.trans (ih hrest)).imp ?_
      rintro ⟨hgrows, hmore⟩ haligned
      obtain ⟨code, hcode, emitted⟩ := hgrows haligned
      rw [hcode] at hmore
      obtain ⟨rest, hrest, hemitted⟩ := hmore (aligned_behind haligned emitted.piece.valid)
      rw [length_behind] at hemitted
      exact ⟨code ++ rest, by simp [hrest], emitted.extend hemitted.piece (emitted.shallow.append
        hemitted.shallow) hemitted.opens hemitted.swaps⟩
    · cases hrest
      exact happends

namespace Lexer

variable {lex : Lexer}

section

variable (sound : lex.Sound)

include sound

theorem Sound.setSymbol {set : Symbol → Symbol}
    (kept : ∀ symbol, (set symbol).Sound) : (lex.setSymbol set).Sound :=
  sound.modify fun symbol _ => kept symbol

theorem Sound.reading (source : List Byte) :
    ({ lex with p := source } : Lexer).Sound := sound

theorem Sound.addKey (name : String) (token : Token) (type : Nat) :
    (lex.addKey name token type).Sound :=
  (sound.reading (text name)).next.setSymbol fun _ => .of_none rfl

theorem Sound.addLib (name : String) (type : Nat) (hop : op.isLibrary = true) :
    (lex.addLib name type op).Sound :=
  (sound.reading (text name)).next.setSymbol fun _ => ⟨fun _ => ⟨op, hop, rfl⟩, by simp, by simp⟩

theorem Sound.addGlo (name : List Byte) (type : Nat) (value : Word) :
    (lex.addGlo name type value).Sound :=
  (sound.reading name).next.setSymbol fun _ => ⟨by simp, by simp, by simp⟩

theorem Sound.library : lex.library.Sound := by
  exact ((((((((sound.addLib _ _ rfl).addLib _ _ rfl).addLib _ _ rfl).addLib
    _ _ rfl).addLib _ _ rfl).addLib _ _ rfl).addLib _ _ rfl).addLib _ _ rfl).addLib _ _ rfl

theorem Sound.keywords : lex.keywords.Sound :=
  (((((sound.addKey _ _ _).addKey _ _ _).addKey _ _ _).addKey _ _ _).addKey
    _ _ _).addKey _ _ _

end

theorem Sound.declareAll (sound : lex.Sound)
    (hdeclare : lex.declareAll data declares = .ok last) : last.Sound := by
  induction declares generalizing lex with
  | nil =>
    cases hdeclare
    exact sound
  | cons declare rest ih =>
    unfold Lexer.declareAll at hdeclare
    split at hdeclare
    · cases hdeclare
    · exact ih (sound.addGlo _ _ _) hdeclare

end Lexer

theorem symbols_sound (hsymbols : symbols alloc sampleGlo declares = .ok lex) :
    lex.Sound := by
  refine Lexer.Sound.declareAll ?_ hsymbols
  have hempty : Lexer.Sound
      { p := [], tk := .eof, ival := alloc.ival, id := 0, symtab := []
        str := alloc.str, strLen := 0 } := by
    intro symbol member
    cases member
  have hlibrary := hempty.keywords.library
  split
  · exact (hlibrary.addGlo _ _ _).addGlo _ _ _
  · exact hlibrary

end Program

end PerfProf.Expr
