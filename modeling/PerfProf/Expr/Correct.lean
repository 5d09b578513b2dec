import PerfProf.Expr.Parse
import PerfProf.Expr.Spelling
import PerfProf.Expr.WellFormed

namespace PerfProf.Expr

namespace Tree

def totalWords (trees : List Tree) : Nat := (trees.map words).sum

def codes (data le : Word) : Nat → List Tree → List Ins
  | _, [] => []
  | start, tree :: rest => tree.code data le start ++ codes data le (start + tree.words) rest

def evals (data : Word) (mem : Mem) : List Tree → Option Word
  | [] => none
  | [tree] => tree.eval data mem
  | tree :: rest => (tree.eval data mem).bind fun _ => evals data mem rest

private theorem size_codes (data le : Word) (start : Nat) (trees : List Tree) :
    size (codes data le start trees) = totalWords trees := by
  induction trees generalizing start with
  | nil => rfl
  | cons tree rest ih =>
    rw [codes, size_append, size_code, ih]
    rfl

private theorem codes_moved (data le insn : Word) (start : Nat)
    (trees : List Tree) :
    movedCode (le - insn) (codes data le start trees) =
      codes data insn start trees := by
  induction trees generalizing start with
  | nil => rfl
  | cons tree rest ih =>
    rw [codes, codes, ← code_moved data le insn, ← ih]
    exact List.map_append

private theorem opcode_valid (op : BinOp) (unsigned : Bool) :
    (Ins.plain (op.opcode unsigned)).valid = true := by
  cases op <;> cases unsigned <;> rfl

private theorem code_valid (data le : Word) (start : Nat) (tree : Tree) :
    (tree.code data le start).all Ins.valid = true := by
  have hpush : (Ins.plain .psh).valid = true := rfl
  have hwide : ∀ op operand, hasOperand op.word = true →
      (Ins.wide op operand).valid = true := fun _ _ hop => hop
  have himm := fun operand => hwide .imm operand rfl
  induction tree generalizing start with
  | lit value => simp [code, himm]
  | field declare => simp [code, himm, hwide .li _ rfl]
  | paren inner ih => exact ih start
  | plus inner ih => exact ih start
  | not inner ih =>
    simp [code, ih, hpush, himm]
    rfl
  | complement inner ih =>
    simp [code, ih, hpush, himm]
    rfl
  | neg inner ih =>
    rw [code]
    cases inner.literal? with
    | some value => simp [himm]
    | none =>
      simp [ih, hpush, himm]
      rfl
  | bin op left right first second => simp [code, first, second, hpush, opcode_valid]
  | land left right first second => simp [code, first, second, hwide .bz _ rfl]
  | lor left right first second => simp [code, first, second, hwide .bnz _ rfl]
  | cond test left right first second third =>
    simp [code, first, second, third, hwide .bz _ rfl, hwide .jmp _ rfl]

private theorem codes_valid (data le : Word) (start : Nat) (trees : List Tree) :
    (codes data le start trees).all Ins.valid = true := by
  induction trees generalizing start with
  | nil => rfl
  | cons tree rest ih =>
    rw [codes, List.all_append, code_valid, ih]
    rfl

end Tree

variable {trees : List Tree}

variable {declares : List Declare} {tokens : List Lexeme} {s : Compiler}

private theorem Statements.compiles {le : Word}
    (statements : Statements tokens trees) {lex last : Lexer} {fuel : Nat}
    (reads : Lexer.Reads data declares lex.next tokens last)
    (follows : s.Follows lex) (ends : last.tk = .eof)
    (fits : s.code.length + Tree.totalWords trees ≤ 1023)
    (enough : tokens.length < fuel) :
    ∃ t, Compiler.exprs le (fuel + 1) s = .ok t ∧
      t.code =
        s.code ++ wordsOf (Tree.codes data le (s.code.length + 1) trees) := by
  induction statements generalizing lex s fuel with
  | @last tokens tree only =>
    have hfits : s.next.code.length + tree.words ≤ 1023 := fits
    obtain ⟨t, hexpr, emits⟩ := only.parses.whole reads follows.next (show Token.assign.code ≤ _ by
      decide) (by rw [ends]; decide) (by rw [ends]; decide) (by rw [ends]; decide) hfits enough
    refine ⟨t, (bind_of_ok hexpr).trans (if_neg ?_), ?_⟩
    · rw [emits.follows.tk, ends]
      decide
    · rw [emits.hcode, Tree.codes, Tree.codes, List.append_nil]
      rfl
  | @comma tokens rest tree trees first _ ih =>
    have htotal : Tree.totalWords (tree :: trees) = tree.words + Tree.totalWords trees := rfl
    rw [List.length_append, List.length_cons] at enough
    obtain ⟨comma, hfirst, hrest⟩ := reads.split
    cases hrest with
    | cons shows_ more =>
      have hcomma : comma.tk = .comma := shows_
      have hfits : s.next.code.length + tree.words ≤ 1023 := by
        change s.code.length + tree.words ≤ 1023
        omega
      have hfuel : tokens.length < fuel := by omega
      have hparses : Parses data le declares 0 tokens tree := first.parses
      obtain ⟨t, hexpr, emits⟩ := hparses.whole hfirst follows.next
        (show Token.assign.code ≤ _ by decide) (by rw [hcomma]; decide)
        (by rw [hcomma]; decide) (by rw [hcomma]; decide) hfits hfuel
      have hlength : t.code.length = s.code.length + tree.words := emits.length
      obtain ⟨fuel, rfl⟩ : ∃ fewer, fuel = fewer + 1 := ⟨fuel - 1, by omega⟩
      have hfuel : rest.length < fuel := by omega
      obtain ⟨u, hexprs, hcode⟩ := ih more emits.follows (by omega) hfuel
      refine ⟨u, (bind_of_ok hexpr).trans ((if_pos ?_).trans hexprs), ?_⟩
      · exact emits.follows.tk.trans hcomma
      · have hstart : t.code.length + 1 = s.code.length + 1 + tree.words := by omega
        rw [hcode, hstart, emits.hcode, Tree.codes, wordsOf_append]
        simp only [← List.append_assoc]
        rfl

private theorem Statements.computes (statements : Statements tokens trees)
    (has : prog.Has first (Tree.codes data prog.insn (1 + size first) trees))
    (at_ : vm.At first)
    (room : 2 * vm.stack.length + Tree.totalWords trees ≤ 1023)
    (bound : size first + Tree.totalWords trees ≤ 1023)
    (heval : Tree.evals data vm.mem trees = some value) :
    Vm.Moves prog lib vm (vm.done value
      (first ++ Tree.codes data prog.insn (1 + size first) trees)) := by
  induction statements generalizing first vm with
  | @last tokens tree only =>
    rw [Tree.codes, Tree.codes, List.append_nil] at has ⊢
    exact only.computes first vm value has at_ ⟨room, bound⟩ heval
  | @comma tokens rest tree trees head more ih =>
    have htotal : Tree.totalWords (tree :: trees) = tree.words + Tree.totalWords trees := rfl
    have hevals : Tree.evals data vm.mem (tree :: trees) =
        (tree.eval data vm.mem).bind fun _ => Tree.evals data vm.mem trees := by
      cases more <;> rfl
    obtain ⟨one, hone, hrest⟩ := Option.bind_eq_some_iff.mp (hevals.symm.trans heval)
    have hstart : 1 + size first + tree.words =
        1 + size (first ++ tree.code data prog.insn (1 + size first)) := by
      rw [size_append, Tree.size_code, Nat.add_assoc]
    rw [Tree.codes, hstart] at has ⊢
    have hcompute : Computes prog lib data tree := head.computes
    refine (hcompute first vm one has.left at_ ⟨by omega, by omega⟩ hone).trans ?_
    rw [← List.append_assoc]
    refine ih has.right Vm.at_done ?_ ?_ hrest
    · change 2 * vm.stack.length + _ ≤ 1023
      omega
    · rw [size_append, Tree.size_code]
      omega

private theorem finish_words
    (hcode : s.code =
      wordsOf (Tree.codes alloc.data alloc.le 1 trees ++ [Ins.plain .exit])) :
    (finish alloc declares s).words =
      wordsOf
        (Tree.codes alloc.data alloc.insn 1 trees ++ [Ins.plain .exit]) := by
  have hvalid : ∀ ins ∈ Tree.codes alloc.data alloc.le 1 trees ++
      [Ins.plain .exit], ins.valid = true := by
    rw [← List.all_eq_true, List.all_append, Tree.codes_valid]
    rfl
  rw [finish_wordsOf alloc declares hcode hvalid, ← Tree.codes_moved alloc.data alloc.le alloc.insn]
  exact congrArg wordsOf List.map_append

/-- However expressions are written: compiling, relocating and running them
yields the value of the last one, with the stack as it was. -/
theorem compiled_expressions_evaluate {alloc : Alloc} {declares : List Declare}
    {source : List Byte} {tokens : List Lexeme} {trees : List Tree} {mem : Mem}
    {value : Word} (sampleGlo : Bool) (lib : Library)
    (named : ∀ declare ∈ declares, declare.Named)
    (typed : ∀ declare ∈ declares, declare.type.isSome = true)
    (written : Written declares source tokens)
    (statements : Statements tokens trees)
    (fits : Tree.totalWords trees + 1 ≤ 1023)
    (heval : Tree.evals alloc.data mem trees = some value) :
    ∀ fuel, tokens.length + 1 < fuel →
      ∃ prog trace,
        compile fuel alloc sampleGlo declares source = .ok (prog, trace) ∧
        ∃ rounds vm, vm.stack = (Vm.start mem).stack ∧
          ∀ more,
            Vm.run prog lib (rounds + more) (Vm.start mem) = .ret value vm := by
  obtain ⟨lex, hsymbols, keyed, entered⟩ :=
    @symbols_entered alloc declares sampleGlo named typed
  obtain ⟨last, reads, ends⟩ := @Lexer.reads_written alloc.data declares
    { lex with p := source } source tokens named written keyed entered rfl
  intro fuel enough
  obtain ⟨fuel, rfl⟩ : ∃ fewer, fuel = fewer + 1 := ⟨fuel - 1, by omega⟩
  have hfuel : tokens.length < fuel := by omega
  let start : Compiler :=
    { lex := { lex with p := source }, code := [], stale := [], ty := 0
      trace := [] }
  have hfits : start.code.length + Tree.totalWords trees ≤ 1023 := by
    change 0 + _ ≤ 1023
    omega
  have follows : start.Follows { lex with p := source } := rfl
  obtain ⟨s, hexprs, hcode⟩ : ∃ s, Compiler.exprs alloc.le (fuel + 1) start =
      .ok s ∧ s.code = wordsOf (Tree.codes alloc.data alloc.le 1 trees) :=
    statements.compiles reads follows ends hfits hfuel
  have hlength : s.code.length = Tree.totalWords trees := by
    rw [hcode]
    exact Tree.size_codes alloc.data alloc.le 1 trees
  obtain ⟨t, hexit, adds⟩ := s.emit_fits [Op.exit.word] (by
    rw [hlength]
    exact fits)
  have hwords : (finish alloc declares t).words = wordsOf
      (Tree.codes alloc.data alloc.insn 1 trees ++ [Ins.plain .exit]) := by
    refine finish_words ?_
    rw [adds.hcode, hcode, wordsOf_append]
    rfl
  have has : (finish alloc declares t).Has []
      (Tree.codes alloc.data alloc.insn 1 trees) := ⟨[Ins.plain .exit], hwords⟩
  have hmoves : Vm.Moves (finish alloc declares t) lib (Vm.start mem) ((Vm.start mem).done value
        ([] ++ Tree.codes alloc.data alloc.insn 1 trees)) := by
    refine statements.computes has rfl ?_ ?_ heval
    · change 2 * 0 + _ ≤ 1023
      omega
    · change 0 + _ ≤ 1023
      omega
  obtain ⟨rounds, hrun⟩ := hmoves
  rw [List.nil_append] at hrun
  refine ⟨finish alloc declares t, t.trace, ?_, rounds + 1, (Vm.start mem).done value
      (Tree.codes alloc.data alloc.insn 1 trees ++ [Ins.plain .exit]), rfl, ?_⟩
  · exact (bind_of_ok hsymbols).trans ((bind_of_ok hexprs).trans (bind_of_ok hexit))
  · intro more
    rw [Nat.add_assoc, hrun, Nat.add_comm 1, Vm.run, step_exit Vm.at_done hwords]
    rfl

def plainField : Declare := ⟨text "c", 0, 4, 4, false⟩

def sumTokens : List Lexeme :=
  [.field plainField, .op .add, .num 2, .op .mul, .num 3]

def sumTree : Tree :=
  .bin .add (.field plainField) (.bin .mul (.lit 2) (.lit 3))

private theorem sumTree_derived : Statements sumTokens [sumTree] := by
  have hfield : Derives 9 [.field plainField] (.field plainField) :=
    .lift (.lift (.lift (.field ⟨rfl, rfl⟩)))
  have hproduct : Derives 10 [.num 2, .op .mul, .num 3] (.bin .mul (.lit 2) (.lit 3)) :=
    .bin .mul (.lift (.lift (.lit 2))) (.lift (.lit 3))
  have hsum : Derives 9 sumTokens sumTree := .bin .add hfield hproduct
  exact .last (.lift (.lift (.lift (.lift (.lift (.lift (.lift (.lift (.lift hsum)))))))))

def fieldSymbol : Symbol where
  token := .id
  cls := .glo
  name := text "c"
  hash := hashName (text "c")
  ref := 0
  type := INT
  value := plainAlloc.data

private theorem plainDeclares_named :
    ∀ declare ∈ plainDeclares, declare.Named := by
  simp only [plainDeclares, List.forall_mem_cons]
  exact ⟨⟨rfl, by decide, by decide⟩, ⟨rfl, by decide, by decide⟩,
    ⟨rfl, by decide, by decide⟩, by simp⟩

private theorem sum_written :
    Written plainDeclares (text "c + 0x2*3") sumTokens := by
  have hfield : plainField.Visible plainDeclares := ⟨[], _, rfl, by decide⟩
  have htwo : Numeral (text "0x2") 2 :=
    .hexadecimal (.inl rfl) (by decide) (by decide : ∀ digit ∈ text "2", _)
  have hthree : Numeral (text "3") 3 := .decimal (by decide) (by decide)
  have htail : Written plainDeclares (text "*3") [.op .mul, .num 3] :=
    .cons (by decide : ∀ byte ∈ text "", _)
      (.op (by decide : (Token.mul, "*", "") ∈ operators) (by decide))
      (.cons (by decide : ∀ byte ∈ text "", _) (.num hthree rfl) (.nil (by decide)))
  exact .cons (by decide : ∀ byte ∈ text "", _) (.field hfield rfl)
    (.cons (by decide : ∀ byte ∈ text " ", _)
      (.op (by decide : (Token.add, "+", "+") ∈ operators) (by decide))
      (.cons (by decide : ∀ byte ∈ text " ", _) (.num htwo rfl) htail))

theorem compiled_expressions_evaluate_sum :
    ∃ prog trace, compile 7 plainAlloc false plainDeclares (text "c + 0x2*3") =
        .ok (prog, trace) ∧
      ∃ rounds vm, vm.stack = [] ∧
        ∀ more, Vm.run prog ⟨fun _ _ => 0, 0, 0⟩ (rounds + more)
          (Vm.start fun _ => 0) = .ret 6 vm :=
  compiled_expressions_evaluate false ⟨fun _ _ => 0, 0, 0⟩ plainDeclares_named
    (by decide) sum_written sumTree_derived (by decide) (by decide +kernel) 7 (by decide)

end PerfProf.Expr
