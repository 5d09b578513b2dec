import PerfProf.Expr.Climb

namespace PerfProf.Expr

open PerfProf.Data

/-- An instruction with its jump target moved down by `distance`. -/
def Ins.moved (distance : Word) : Ins → Ins
  | Ins.plain op => Ins.plain op
  | Ins.wide op operand => Ins.wide op (if isJumpWord op.word then operand - distance else operand)

def movedCode (distance : Word) (code : List Ins) : List Ins :=
  code.map (Ins.moved distance)

section Moved

@[simp] theorem Ins.op_moved (ins : Ins) :
    (ins.moved distance).op = ins.op := by
  cases ins <;> rfl

theorem Ins.valid_moved (ins : Ins) :
    (ins.moved distance).valid = ins.valid := by
  cases ins <;> rfl

theorem Ins.flow_moved (ins : Ins) (depth : Nat) :
    (ins.moved distance).flow depth = ins.flow depth := by
  cases ins with
  | plain op => rfl
  | wide op operand => cases op <;> rfl

theorem relocate_narrow (narrow : hasOperand word = false) (rest : List Word) :
    relocate distance (word :: rest) = word :: relocate distance rest := by
  cases rest with
  | nil => rfl
  | cons operand rest => simp [relocate, narrow]

theorem relocate_wordsOf (hvalid : ∀ ins ∈ code, ins.valid = true) :
    relocate distance (wordsOf code) = wordsOf (movedCode distance code) := by
  induction code with
  | nil => rfl
  | cons ins rest ih =>
    have hrest := ih fun other member => hvalid other (List.mem_cons_of_mem ins member)
    have hfirst := hvalid ins List.mem_cons_self
    cases ins with
    | plain op =>
      have narrow : hasOperand op.word = false := by simpa [Ins.valid] using hfirst
      change relocate distance (op.word :: wordsOf rest) =
        op.word :: wordsOf (movedCode distance rest)
      rw [relocate_narrow narrow, hrest]
    | wide op operand =>
      have hwide : hasOperand op.word = true := hfirst
      change relocate distance (op.word :: operand :: wordsOf rest) =
        op.word :: _ :: wordsOf (movedCode distance rest)
      rw [relocate, if_pos hwide, hrest]

@[simp] theorem size_moved (code : List Ins) :
    size (movedCode distance code) = size code := by
  induction code with
  | nil => rfl
  | cons ins rest ih =>
    change size (ins.moved distance :: movedCode distance rest) = _
    cases ins with
    | plain op => rw [Ins.moved, size_plain, size_plain, ih]
    | wide op operand => rw [Ins.moved, size_wide, size_wide, ih]

theorem flow_moved (code : List Ins) (depth : Nat) :
    flow (movedCode distance code) depth = flow code depth := by
  induction code generalizing depth with
  | nil => rfl
  | cons ins rest ih =>
    change ((ins.moved distance).flow depth).bind (flow (movedCode distance rest)) = _
    rw [Ins.flow_moved, flow_cons]
    congr 1
    funext next
    exact ih next

variable {field : Word → Bool}

theorem endsInField_moved (code : List Ins) :
    endsInField field (movedCode distance code) = endsInField field code := by
  unfold endsInField movedCode
  rw [List.getLast?_map]
  cases code.getLast? with
  | none => rfl
  | some ins =>
    cases ins with
    | plain op => rfl
    | wide op operand => cases op <;> rfl

theorem startsWithLoad_moved (code : List Ins) :
    startsWithLoad (movedCode distance code) = startsWithLoad code := by
  cases code with
  | nil => rfl
  | cons ins rest =>
    cases ins with
    | plain op => rfl
    | wide op operand => cases op <;> rfl

theorem address_moved (le insn : Word) (index : Nat) :
    address le index - (le - insn) = address insn index := by
  unfold address
  grind

theorem isJumpWord_of_isJump {op : Op} (hjump : op.isJump = true) :
    isJumpWord op.word = true := by
  cases op <;> first | rfl | simp [Op.isJump] at hjump

theorem JumpsLand.moved {loads : Bool}
    (lands : JumpsLand field le start loads code) :
    JumpsLand field insn start loads (movedCode (le - insn) code) := by
  intro first op target last split hjump
  obtain ⟨before, behind, rfl, rfl, hbehind⟩ := List.map_eq_append_iff.mp split
  obtain ⟨ins, after, rfl, hins, rfl⟩ := List.map_eq_cons_iff.mp hbehind
  cases ins with
  | plain op => cases hins
  | wide old operand =>
    have hop : old = op := congrArg Ins.op hins
    subst hop
    obtain ⟨middle, rest, rfl, htarget, hmiddle, hfold⟩ := lands before old operand after rfl hjump
    refine ⟨movedCode _ middle, movedCode _ rest, List.map_append, ?_, ?_, ?_⟩
    · have hmoved : operand - (le - insn) = target := by
        simpa [Ins.moved, isJumpWord_of_isJump hjump] using hins
      rw [← hmoved, htarget, address_moved]
      congr 2
      · exact congrArg (start + · + 2) (size_moved before).symm
      · exact (size_moved middle).symm
    · intro depth
      rw [flow_moved, hmiddle]
    · rw [endsInField_moved, startsWithLoad_moved]
      intro hends
      obtain ⟨hstart, hnil⟩ := hfold hends
      exact ⟨hstart, fun same => hnil (List.map_eq_nil_iff.mp same)⟩

theorem Emitted.moved (emitted : Emitted rules le start code) :
    Emitted rules insn start (movedCode (le - insn) code) where
  piece :=
    { valid := by
        intro ins member
        obtain ⟨old, hold, rfl⟩ := List.mem_map.mp member
        rw [Ins.valid_moved]
        exact emitted.piece.valid old hold
      flows := fun depth => by rw [flow_moved, emitted.piece.flows]
      jumps := emitted.piece.jumps.moved }
  shallow := by
    intro first last depth deep split hflow
    obtain ⟨before, behind, rfl, rfl, -⟩ := List.map_eq_append_iff.mp split
    have hsize : size (before.map (Ins.moved (le - insn))) = size before := size_moved before
    have hsame : flow before depth = some deep := (flow_moved before depth).symm.trans hflow
    rw [hsize]
    exact emitted.shallow before behind depth deep rfl hsame
  filled := fun same => emitted.filled (List.map_eq_nil_iff.mp same)
  opens := by rw [startsWithLoad_moved, emitted.opens]
  swaps := by
    intro hswaps ins member hswap
    obtain ⟨old, hold, rfl⟩ := List.mem_map.mp member
    obtain ⟨other, hother, hadj⟩ := emitted.swaps hswaps old hold (by
      simpa [Ins.isSwap] using hswap)
    exact ⟨other.moved (le - insn), List.mem_map_of_mem hother, by simpa using hadj⟩

theorem movedCode_zero (code : List Ins) : movedCode 0 code = code := by
  induction code with
  | nil => rfl
  | cons ins rest ih =>
    change ins.moved 0 :: movedCode 0 rest = _
    rw [ih]
    cases ins with
    | plain op => rfl
    | wide op operand => simp [Ins.moved]

end Moved

theorem finish_wordsOf (alloc : Alloc) (declares : List Declare)
    (hcode : s.code = wordsOf code) (hvalid : ∀ ins ∈ code, ins.valid = true) :
    (finish alloc declares s).words =
      wordsOf (movedCode (alloc.le - alloc.insn) code) := by
  unfold finish
  by_cases hsame : alloc.insn = alloc.le
  · rw [if_pos hsame, hcode, hsame, BitVec.sub_self]
    exact congrArg wordsOf (movedCode_zero code).symm
  · rw [if_neg hsame]
    exact (congrArg _ hcode).trans (relocate_wordsOf hvalid)

theorem finish_emitted (alloc : Alloc) (declares : List Declare)
    (emitted : Emitted rules alloc.le 1 code)
    (hcode : s.code = wordsOf (code ++ [Ins.plain .exit]))
    (bound : s.code.length ≤ 1023) :
    (finish alloc declares s).words =
      wordsOf (movedCode (alloc.le - alloc.insn) code ++ [Ins.plain .exit]) ∧
    Emitted rules alloc.insn 1 (movedCode (alloc.le - alloc.insn) code) ∧
    (finish alloc declares s).words.length ≤ 1023 := by
  have hvalid : ∀ ins ∈ code ++ [Ins.plain .exit], ins.valid = true :=
    valid_snoc emitted.piece.valid rfl
  have hwords := finish_wordsOf alloc declares hcode hvalid
  have hlength : (finish alloc declares s).words.length = s.code.length := by
    rw [hwords, hcode]
    exact size_moved _
  refine ⟨?_, emitted.moved, hlength ▸ bound⟩
  rw [hwords, movedCode, List.map_append]
  rfl

section Compilation



theorem compile_stages
    (hcompile : compile fuel alloc sampleGlo declares source =
      .ok (prog, trace)) :
    ∃ lex s t,
      symbols alloc sampleGlo declares = .ok lex ∧
      Compiler.exprs alloc.le fuel
        { lex := { lex with p := source }, code := [], stale := [], ty := 0
          trace := [] } = .ok s ∧
      s.emit [Op.exit.word] = .ok t ∧
      prog = finish alloc declares t ∧
      trace = t.trace := by
  obtain ⟨lex, hlex, hrest⟩ := bind_ok hcompile
  obtain ⟨s, hexprs, hrest⟩ := bind_ok hrest
  obtain ⟨t, hexit, hrest⟩ := bind_ok hrest
  cases hrest
  exact ⟨lex, s, t, hlex, hexprs, hexit, rfl, rfl⟩

theorem compile_emitted
    (hcompile :
      compile fuel alloc sampleGlo declares source = .ok (prog, trace))
    (right : ∀ event ∈ trace, event.right rules alloc.le = true) :
    ∃ code, prog.words = wordsOf (code ++ [Ins.plain .exit]) ∧
      Emitted rules prog.insn 1 code ∧
      prog.words.length ≤ 1023 := by
  obtain ⟨lex, s, t, hlex, hexprs, hexit, rfl, rfl⟩ := compile_stages hcompile
  have happends : Appends rules alloc.le _ s := exprs_appends hexprs
  obtain ⟨events, htrace, hgrows⟩ := happends
  have hsound : Lexer.Sound { lex with p := source } :=
    (symbols_sound hlex).reading source
  have ht := emit_ok hexit
  have hbound := emit_bound hexit
  have hevents : t.trace = events := by
    rw [ht]
    simpa using htrace
  obtain ⟨-, hcode⟩ := hgrows hsound (hevents ▸ right)
  obtain ⟨code, hcode, emitted⟩ := hcode rfl
  have hwords : t.code = wordsOf (code ++ [Ins.plain .exit]) := by
    rw [ht, wordsOf_append]
    simp only [List.nil_append] at hcode
    rw [hcode]
    rfl
  have hlength : t.code.length ≤ 1023 := by
    rw [ht]
    simpa using hbound
  obtain ⟨hfinal, hmoved, hfits⟩ := finish_emitted alloc declares emitted hwords hlength
  exact ⟨_, hfinal, hmoved, hfits⟩

end Compilation

end PerfProf.Expr
