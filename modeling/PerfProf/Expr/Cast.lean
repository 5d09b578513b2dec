import PerfProf.Data.Conversion
import PerfProf.Expr.Correct
import PerfProf.Expr.Memory

namespace PerfProf.Expr

open PerfProf.Data

/-! Casts.  The compiler converts nothing: it changes the type of the load that
was emitted last, so that the machine reads another width at the same address.
-/

inductive TypeWord where
  | char | short | int | long | unsigned
  deriving DecidableEq, Repr

namespace TypeWord

def code : TypeWord → Nat
  | .char => CHAR
  | .short => SHORT
  | .int => INT
  | .long => LONG
  | .unsigned => UNSIGNED

def alone (word : TypeWord) : Nat :=
  if word.code = UNSIGNED then UNSIGNED ||| INT else word.code

end TypeWord

def namedType : List TypeWord → Nat
  | [word] => word.alone
  | [first, second] => (first.alone &&& UNSIGNED) ||| second.code
  | _ => CHAR

private theorem two_pow_mod_le (number : Nat) : 2 ^ (number % 4) ≤ 8 :=
  Nat.pow_le_pow_right Nat.two_pos (Nat.le_of_lt_succ (Nat.mod_lt number (Nat.succ_pos 3)))

def intType (number : Nat) : IntType where
  bytes := 2 ^ (number % 4)
  unsigned := decide (UNSIGNED ≤ number)
  bytes_pos := Nat.two_pow_pos (number % 4)
  bytes_le := two_pow_mod_le number

def cType : List TypeWord → Option IntType
  | [.char] => some (intType CHAR)
  | [.short] | [.short, .int] | [.int, .short] => some (intType SHORT)
  | [.int] => some (intType INT)
  | [.long] | [.long, .int] | [.int, .long] | [.long, .long] => some (intType LONG)
  | [.unsigned, .char] | [.char, .unsigned] => some (intType (UNSIGNED ||| CHAR))
  | [.unsigned, .short] | [.short, .unsigned] => some (intType (UNSIGNED ||| SHORT))
  | [.unsigned] | [.unsigned, .int] | [.int, .unsigned] => some (intType (UNSIGNED ||| INT))
  | [.unsigned, .long] | [.long, .unsigned] => some (intType (UNSIGNED ||| LONG))
  | _ => none

private theorem namedType_basic (words : List TypeWord) :
    namedType words < PTR ∧ namedType words &&& ARRAY = 0 := by
  match words with
  | [] => decide
  | [word] => cases word <;> decide
  | [first, second] => cases first <;> cases second <;> decide
  | _ :: _ :: _ :: _ => simp [namedType]

private theorem byteOf_zeroExtended (mem : Mem) (addr : Word) {index : Nat}
    (hindex : index < 8) :
    byteOf (mem.zeroExtended addr 8) index =
      mem (addr + BitVec.ofNat 64 index) := by
  apply BitVec.eq_of_toNat_eq
  have hbytes : mem.bytes addr 8 < 2 ^ 64 := mem.bytes_lt addr 8
  have hpow : (2 : Nat) ^ (8 * index) = 256 ^ index := Nat.pow_mul 2 8 index
  rw [byteOf, BitVec.extractLsb'_toNat, Mem.zeroExtended, BitVec.toNat_ofNat,
    Nat.mod_eq_of_lt hbytes, Nat.shiftRight_eq_div_pow, hpow]
  exact mem.bytes_div addr hindex

private theorem convert_zeroExtended (type : IntType) (mem : Mem)
    (addr : Word) :
    type.convert (mem.zeroExtended addr 8) =
      if type.unsigned then
        mem.zeroExtended addr type.bytes
      else mem.signExtended addr type.bytes := by
  have hpow : (2 : Nat) ^ (8 * type.bytes) = 256 ^ type.bytes := Nat.pow_mul 2 8 type.bytes
  have hnarrow : (mem.zeroExtended addr 8).setWidth (8 * type.bytes) =
      BitVec.ofNat (8 * type.bytes) (mem.bytes addr type.bytes) := by
    apply BitVec.eq_of_toNat_eq
    have hbytes : mem.bytes addr 8 < 2 ^ 64 := mem.bytes_lt addr 8
    rw [BitVec.toNat_setWidth, Mem.zeroExtended, BitVec.toNat_ofNat, BitVec.toNat_ofNat,
      Nat.mod_eq_of_lt hbytes, hpow, mem.bytes_mod addr type.bytes_le, Nat.mod_eq_of_lt
      (mem.bytes_lt addr type.bytes)]
  have hwide : (BitVec.ofNat (8 * type.bytes) (mem.bytes addr type.bytes)).setWidth 64 =
      mem.zeroExtended addr type.bytes := by
    apply BitVec.eq_of_toNat_eq
    rw [BitVec.toNat_setWidth, BitVec.toNat_ofNat, Mem.zeroExtended,
      BitVec.toNat_ofNat, hpow, Nat.mod_eq_of_lt (mem.bytes_lt addr type.bytes)]
  unfold IntType.convert
  rw [hnarrow]
  cases type.unsigned with
  | true => exact hwide
  | false => rfl

private theorem loadTyped_ofType {number : Nat} (hbasic : number < PTR)
    (harray : number &&& ARRAY = 0) (mem : Mem) (addr : Word) :
    loadTyped mem addr (ofType number) =
      some ((intType number).convert (mem.zeroExtended addr 8)) := by
  rw [convert_zeroExtended]
  have hlong : mem.signExtended addr 8 = mem.zeroExtended addr 8 := BitVec.signExtend_eq _
  match number, hbasic, harray with
  | 0, _, _ | 1, _, _ | 2, _, _ | 8, _, _ | 9, _, _ | 10, _, _ | 11, _, _ => rfl
  | 3, _, _ => exact congrArg some hlong.symm
  | 4, _, harray | 5, _, harray | 6, _, harray | 7, _, harray
  | 12, _, harray | 13, _, harray | 14, _, harray | 15, _, harray => exact absurd harray (by decide)
  | _ + 16, hbasic, _ => exact absurd hbasic (by simp)

namespace Lexer

def Names (lex : Lexer) (word : TypeWord) : Prop :=
  lex.tk = .int ∧ lex.symbol?.map Symbol.type = some word.code

inductive Spells : Lexer → List TypeWord → Lexer → Prop
  | nil (lex : Lexer) : Spells lex [] lex
  | cons {lex last : Lexer} {word : TypeWord} {rest : List TypeWord}
      (names : lex.Names word) (more : Spells lex.next rest last) :
      Spells lex (word :: rest) last

structure Casts (lex : Lexer) (words : List TypeWord) (operand : Lexer) :
    Prop where
  opens : lex.tk = .lparen
  spells : ∃ last, lex.next.Spells words last ∧ last.tk = .rparen ∧ operand = last.next

end Lexer

namespace Compiler

def reading (lex : Lexer) : Compiler :=
  { lex := lex, code := [], stale := [], ty := 0, trace := [] }

def casted (words : List TypeWord) (s : Compiler) : Compiler :=
  let s := (s.lookForCast (namedType words)).withType (namedType words)
  if s.looksLoaded then s.retype (namedType words) else s

def exited (s : Compiler) : Compiler :=
  { s with code := s.code ++ [Op.exit.word], stale := s.stale.drop 1 }

variable {s : Compiler}

private theorem stars_none (hparen : s.tk = .rparen) (fuel type : Nat) :
    stars fuel type s = (type, s) := by
  cases fuel with
  | zero => rfl
  | succ fuel => rw [stars, if_neg (by rw [hparen]; decide)]

private theorem symbolType_names {word : TypeWord} (names : s.lex.Names word) :
    s.symbolType = word.code := by
  rw [symbolType, names.2]
  rfl

private theorem typeName_spells {words : List TypeWord} {last : Lexer}
    (spells : s.lex.Spells words last) (hparen : last.tk = .rparen)
    (typed : (cType words).isSome = true) :
    s.tk = .int ∧ s.typeName = (namedType words, { s with lex := last }) := by
  cases spells with
  | nil => cases typed
  | cons names more =>
    refine ⟨names.1, ?_⟩
    have hfirst := symbolType_names names
    cases more with
    | nil =>
      have hint : ¬ s.next.tk = .int := by
        rw [show s.next.tk = .rparen from hparen]
        decide
      rw [typeName, hfirst, if_neg hint]
      exact stars_none (s := s.next) hparen _ _
    | cons names more =>
      have hsecond : s.next.symbolType = _ := symbolType_names names
      have hint : s.next.tk = .int := names.1
      cases more with
      | nil =>
        rw [typeName, hfirst, if_pos hint, hsecond]
        exact stars_none (s := s.next.next) hparen _ _
      | cons => simp [cType] at typed

private theorem parenthesis_casts {expr : Token → Compiler → Compiled}
    {s inner : Compiler} {words : List TypeWord} {operand : Lexer}
    (casts : s.lex.Casts words operand) (typed : (cType words).isSome = true)
    (hinner : expr .inc { s with lex := operand } = .ok inner) :
    s.parenthesis expr = .ok (inner.casted words) := by
  obtain ⟨-, last, spells, hparen, rfl⟩ := casts
  have hspells : s.next.lex.Spells words last := spells
  obtain ⟨hint, hname⟩ := typeName_spells hspells hparen typed
  have htype : typeop .assign (namedType words) = namedType words :=
    if_neg (Nat.not_le.mpr (namedType_basic words).1)
  have hexpect : Compiler.expect { s.next with lex := last } .rparen "bad cast" =
      .ok { s with lex := last.next } := if_pos hparen
  rw [parenthesis, if_pos hint, cast, hname, bind_of_ok hexpect, bind_of_ok hinner]
  simp only [htype, casted]
  rfl

private theorem casted_tk (words : List TypeWord) (s : Compiler) :
    (s.casted words).tk = s.tk := by
  unfold casted
  dsimp only
  split <;> rfl

private theorem casted_length (words : List TypeWord) (s : Compiler) :
    (s.casted words).code.length = s.code.length := by
  unfold casted
  dsimp only
  split
  · have filled : s.code ≠ [] := by
      rintro hnil
      have hloaded : nextToLast s.code = Op.li.word := beq_iff_eq.mp ‹_›
      rw [hnil] at hloaded
      exact absurd hloaded (by decide)
    change (s.code.dropLast ++ [_]).length = s.code.length
    rw [List.length_append, List.length_dropLast]
    exact Nat.sub_add_cancel (List.length_pos_iff.mpr filled)
  · rfl

private theorem emit_exit (fits : s.code.length + 1 ≤ 1023) :
    s.emit [Op.exit.word] = .ok s.exited := if_pos fits

end Compiler

section Compilation

variable {fuel : Nat} {alloc : Alloc} {sampleGlo : Bool}
  {declares : List Declare} {source : List Byte} {lex operand : Lexer}
  {words : List TypeWord} {inner : Compiler}

private theorem compile_casts
    (hsymbols : symbols alloc sampleGlo declares = .ok lex)
    (casts : (Lexer.next { lex with p := source }).Casts words operand)
    (typed : (cType words).isSome = true)
    (hinner : Compiler.expr alloc.le fuel .inc (.reading operand) = .ok inner)
    (ends : inner.tk = .eof) (fits : inner.code.length + 1 ≤ 1023) :
    compile (fuel + 2) alloc sampleGlo declares source =
      .ok (finish alloc declares (inner.casted words).exited,
        (inner.casted words).exited.trace) := by
  let start : Compiler := .reading { lex with p := source }
  have hparen : start.next.tk = .lparen := casts.opens
  have hoperand : start.next.operand (Compiler.expr alloc.le fuel) fuel =
      .ok (inner.casted words) := by
    rw [Compiler.operand, hparen]
    exact Compiler.parenthesis_casts casts typed hinner
  have hend : (inner.casted words).tk = .eof := (inner.casted_tk words).trans ends
  have hexpr : Compiler.expr alloc.le (fuel + 1) .assign start.next = .ok (inner.casted words) := by
    rw [Compiler.expr, bind_of_ok hoperand]
    exact Compiler.climb_stops (by rw [hend]; decide) fuel
  have hexprs : Compiler.exprs alloc.le (fuel + 2) start = .ok (inner.casted words) := by
    rw [Compiler.exprs, bind_of_ok hexpr, if_neg (by rw [hend]; decide)]
  have hexit : (inner.casted words).emit [Op.exit.word] = .ok (inner.casted words).exited :=
    Compiler.emit_exit (by rw [Compiler.casted_length]; exact fits)
  exact (bind_of_ok hsymbols).trans ((bind_of_ok hexprs).trans (bind_of_ok hexit))

private theorem Lexer.Spells.sound {lex last : Lexer}
    (spells : lex.Spells words last) (sound : lex.Sound) : last.Sound := by
  induction spells with
  | nil => exact sound
  | cons _ _ ih => exact ih sound.next

private theorem operand_emitted
    (hsymbols : symbols alloc sampleGlo declares = .ok lex)
    (casts : (Lexer.next { lex with p := source }).Casts words operand)
    (hinner : Compiler.expr alloc.le fuel .inc (.reading operand) = .ok inner)
    (right : everyLookRight alloc.le inner.trace = true) :
    ∃ code, inner.code = wordsOf code ∧ Emitted lookRules alloc.le 1 code := by
  have happends : Appends lookRules alloc.le (.reading operand) inner := expr_appends hinner
  obtain ⟨events, htrace, hgrows⟩ := happends
  have hsound : operand.Sound := by
    obtain ⟨-, last, spells, -, rfl⟩ := casts
    exact (spells.sound ((symbols_sound hsymbols).reading source).next.next).next
  have hevents : inner.trace = events := htrace.trans (List.append_nil events)
  obtain ⟨-, hcode⟩ := hgrows hsound (hevents ▸ right_of_everyLookRight right)
  exact hcode rfl

end Compilation

def Prog.Yields (prog : Prog) (lib : Library) (mem : Mem) (value : Word) :
    Prop :=
  ∃ rounds vm, (Vm.start mem).run prog lib rounds = .ret value vm

namespace Vm

def comesTo (prog : Prog) (lib : Library) (place : Nat) : Nat → Vm → Option Vm
  | 0, vm => if vm.pc = place then some vm else none
  | fuel + 1, vm =>
    if vm.pc = place then some vm
    else
      match vm.step prog lib with
      | .next vm => comesTo prog lib place fuel vm
      | _ => none

variable {prog other : Prog} {lib : Library} {vm final : Vm} {value : Word}

private theorem run_more {rounds : Nat}
    (hstop : (vm.run prog lib rounds).ended = true) (more : Nat) :
    vm.run prog lib (rounds + more) = vm.run prog lib rounds := by
  induction rounds generalizing vm with
  | zero => cases hstop
  | succ rounds ih =>
    rw [Nat.add_right_comm, run, run]
    rw [run] at hstop
    cases hstep : vm.step prog lib with
    | next vm =>
      rw [hstep] at hstop
      exact ih hstop
    | _ => rfl

private theorem run_within {rounds enough : Nat}
    (hrun : vm.run prog lib rounds = .ret value final)
    (hstop : (vm.run prog lib enough).ended = true) :
    vm.run prog lib enough = .ret value final := by
  have hreturned : (vm.run prog lib rounds).ended = true := by
    rw [hrun]
    rfl
  rw [← run_more hstop rounds, Nat.add_comm, run_more hreturned, hrun]

private theorem step_congr (hinsn : other.insn = prog.insn)
    (hlength : other.nrInsn = prog.nrInsn)
    (hhere : other.word? vm.pc = prog.word? vm.pc)
    (hnext : other.word? (vm.pc + 1) = prog.word? (vm.pc + 1)) :
    vm.step other lib = vm.step prog lib := by
  have hjump : ∀ target (vm : Vm), vm.jump other target = vm.jump prog target := by
    intro target vm
    rw [jump, jump, Prog.index?, Prog.index?, hinsn]
  have hmeets : other.clobbered lib = prog.clobbered lib := by
    funext addr count
    rw [Prog.clobbered, Prog.clobbered, hinsn, hlength]
  have hstore : ∀ type (vm : Vm),
      vm.storeInt other lib type = vm.storeInt prog lib type := by
    intro type vm
    rw [storeInt, storeInt, hmeets]
  rw [step, step, hhere]
  cases hword : prog.word? vm.pc with
  | none => rfl
  | some word =>
    dsimp only
    cases Op.ofWord? word with
    | none => rfl
    | some op =>
      cases op <;> simp only [execute, withOperand, enterCall, leaveFrame,
        hnext, hinsn, hjump, hstore]

end Vm

private theorem Prog.Yields.unique {prog : Prog} {lib : Library} {mem : Mem}
    {value other : Word} (yields : prog.Yields lib mem value)
    (again : prog.Yields lib mem other) : value = other := by
  obtain ⟨rounds, vm, hrun⟩ := yields
  obtain ⟨more, final, hagain⟩ := again
  rw [Vm.run_within hrun (by rw [hagain]; rfl)] at hagain
  cases hagain
  rfl

private theorem Prog.Yields.yields_iff {prog : Prog} {lib : Library} {mem : Mem}
    {value other : Word} (yields : prog.Yields lib mem value) :
    prog.Yields lib mem other ↔ value = other :=
  ⟨yields.unique, fun same => same ▸ yields⟩

section Retyped

variable {rules : Rules} {prog other : Prog} {rest : List Ins}
  {own type : Word} {read : IntType} {vm : Vm}

variable
  (hother : other.words =
    wordsOf ((rest ++ [Ins.wide .li type]) ++ [Ins.plain .exit]))

include hother

private theorem run_load (lib : Library)
    (hload : ∀ mem addr,
      loadTyped mem addr type = some (read.convert (mem.zeroExtended addr 8)))
    (at_ : vm.At rest) :
    ∃ final, vm.run other lib 2 =
      .ret (read.convert (vm.mem.zeroExtended vm.a 8)) final := by
  have hwords : other.words = wordsOf (rest ++ Ins.wide .li type :: [Ins.plain .exit]) := by
    rw [hother, List.append_assoc]
    rfl
  have hstep : vm.step other lib = .next { vm with
        a := read.convert (vm.mem.zeroExtended vm.a 8)
        pc := 1 + size (rest ++ [Ins.wide .li type]) } := by
    rw [step_li at_ hwords, Vm.loadInt, hload]
  have hat : Vm.At { vm with
        a := read.convert (vm.mem.zeroExtended vm.a 8)
        pc := 1 + size (rest ++ [Ins.wide .li type]) }
      (rest ++ [Ins.wide .li type]) := rfl
  have hexit : Vm.step other lib _ = _ := step_exit hat hother
  exact ⟨_, by rw [Vm.run, hstep]; dsimp only; rw [Vm.run, hexit]⟩

variable
  (hwords : prog.words =
    wordsOf ((rest ++ [Ins.wide .li own]) ++ [Ins.plain .exit]))

include hwords

private theorem word?_retyped {index : Nat} (hindex : index ≤ 1 + size rest) :
    other.word? index = prog.word? index := by
  have hsame : ∀ type : Word, wordsOf ((rest ++ [Ins.wide .li type]) ++ [Ins.plain .exit]) =
        (wordsOf rest ++ [Op.li.word]) ++ [type, Op.exit.word] := by
    intro type
    simp [Ins.words]
  unfold Prog.word?
  split
  · rfl
  · have hbelow : index - 1 < (wordsOf rest ++ [Op.li.word]).length := by
      rw [List.length_append]
      change index - 1 < size rest + 1
      omega
    rw [hwords, hother, hsame, hsame, List.getElem?_append_left hbelow,
      List.getElem?_append_left hbelow]

private theorem nrInsn_retyped : other.nrInsn = prog.nrInsn := by
  rw [Prog.nrInsn, Prog.nrInsn, hwords, hother]
  simp [Ins.words]

private theorem run_retyped (lib : Library)
    (hinsn : other.insn = prog.insn)
    (emitted : Emitted rules prog.insn 1 (rest ++ [Ins.wide .li own]))
    (bound : prog.words.length ≤ 1023)
    (hload : ∀ mem addr, loadTyped mem addr type =
      some (read.convert (mem.zeroExtended addr 8)))
    {fuel : Nat} {first last : List Ins} {final : Vm} {value : Word}
    (split : rest ++ [Ins.wide .li own] = first ++ last) (at_ : vm.At first)
    (hdepth : flow first 0 = some vm.stack.length)
    (hrun : vm.run prog lib fuel = .ret value final) :
    ∃ rounds final, vm.run other lib rounds = .ret
      (match vm.comesTo prog lib (1 + size rest) fuel with
        | some loaded => read.convert (loaded.mem.zeroExtended loaded.a 8)
        | none => value) final := by
  induction fuel generalizing first last vm with
  | zero => cases hrun
  | succ fuel ih =>
    rw [Vm.run] at hrun
    cases last with
    | nil =>
      rw [List.append_nil] at split
      subst split
      have hpc : vm.pc ≠ 1 + size rest := by
        rw [at_, size_append, size_wide]
        omega
      have hat : vm.At (rest ++ [Ins.wide .li type]) := by
        rw [Vm.At, at_, size_append, size_append, size_wide, size_wide]
      have hexit : vm.step prog lib = _ := step_exit at_ hwords
      have hagain : vm.step other lib = _ := step_exit hat hother
      rw [hexit] at hrun
      cases hrun
      exact ⟨1, _, by rw [Vm.run, hagain, Vm.comesTo, if_neg hpc, hexit]⟩
    | cons ins last =>
      rcases List.eq_nil_or_concat last with rfl | ⟨tail, load, rfl⟩
      · obtain ⟨rfl, -⟩ := List.append_inj' split rfl
        obtain ⟨final, hloaded⟩ := run_load hother lib hload at_
        have hpc : vm.pc = 1 + size rest := at_
        refine ⟨2, final, ?_⟩
        rw [hloaded, Vm.comesTo, if_pos hpc]
      · rw [List.concat_eq_append, ← List.cons_append, ← List.append_assoc] at split
        obtain ⟨hrest, -⟩ := List.append_inj' split rfl
        have hsize : size rest = size first + size (ins :: tail) := by rw [hrest, size_append]
        have hins : 1 ≤ size (ins :: tail) :=
          Nat.le_trans (Nat.succ_pos _) (length_le_size (ins :: tail))
        have hpc : vm.pc = 1 + size first := at_
        have hsame : vm.step other lib = vm.step prog lib :=
          Vm.step_congr hinsn (nrInsn_retyped hother hwords)
            (word?_retyped hother hwords (by omega))
            (word?_retyped hother hwords (by omega))
        have hcode : rest ++ [Ins.wide .li own] = first ++ ins :: (tail ++ [load]) := by
          rw [split, List.append_assoc, List.cons_append]
        rw [Vm.comesTo, if_neg (by omega)]
        rcases step_lands lib hwords emitted bound hcode at_ hdepth with
          hstop | ⟨next, middle, final, hstep, hmiddle, hat, hdeep⟩
        · cases hstep : vm.step prog lib with
          | ret value final =>
            rw [hstep] at hrun
            cases hrun
            exact ⟨1, _, by rw [Vm.run, hsame, hstep]⟩
          | next vm =>
            rw [hstep] at hstop
            cases hstop
          | trap =>
            rw [hstep] at hrun
            cases hrun
          | wild =>
            rw [hstep] at hrun
            cases hrun
          | clobbers =>
            rw [hstep] at hrun
            cases hrun
        · rw [hstep] at hrun ⊢
          have hsplit : rest ++ [Ins.wide .li own] = (first ++ ins :: middle) ++ final := by
            rw [hcode, hmiddle, List.append_assoc, List.cons_append]
          obtain ⟨rounds, last, hothers⟩ := ih hsplit hat hdeep hrun
          exact ⟨rounds + 1, last, by rw [Vm.run, hsame, hstep]; exact hothers⟩

end Retyped

def Mem.Holds (mem : Mem) (addr : Word) (type : IntType) (value : Word) :
    Prop :=
  type.convert value = value ∧ ∀ index, index < type.bytes →
    mem (addr + BitVec.ofNat 64 index) = byteOf value index

private theorem Mem.holds_iff {mem : Mem} {addr : Word} {type : IntType}
    {value : Word} :
    type.convert (mem.zeroExtended addr 8) = value ↔
      mem.Holds addr type value := by
  rw [type.convert_eq_iff, Mem.Holds]
  refine and_congr_right fun _ => forall₂_congr fun index hindex => ?_
  rw [byteOf_zeroExtended mem addr (Nat.lt_of_lt_of_le hindex type.bytes_le)]

def Compiler.loaded? (inner : Compiler) (prog : Prog) (lib : Library)
    (mem : Mem) : Option Vm :=
  if inner.looksLoaded then
    (Vm.start mem).comesTo prog lib (inner.code.length - 1) prog.nrInsn
  else none

/-- What was loaded reads, at type `read`, as the value converted to `type`; a
value that was not loaded is one of the type already. -/
def Converted (type read : IntType) (value : Word) : Option Vm → Prop
  | some loaded => loaded.mem.Holds loaded.a read (type.convert value)
  | none => type.convert value = value

section Value

variable {rules : Rules} {alloc : Alloc} {declares : List Declare}
  {words : List TypeWord} {type : IntType} {inner : Compiler} {code : List Ins}
  {lib : Library} {mem : Mem} {value : Word}

private theorem casted_stored (hloaded : inner.looksLoaded = false) :
    finish alloc declares (inner.casted words).exited =
      finish alloc declares inner.exited := by
  have hlooks : ((inner.lookForCast (namedType words)).withType
      (namedType words)).looksLoaded = false := hloaded
  rw [Compiler.casted, if_neg (by rw [hlooks]; decide)]
  rfl

private theorem casted_code {rest : List Ins} {own : Word}
    (hcode : inner.code = wordsOf (rest ++ [Ins.wide .li own]))
    (hloaded : inner.looksLoaded = true) :
    (inner.casted words).exited.code =
      wordsOf ((rest ++ [Ins.wide .li (ofType (namedType words))]) ++
        [Ins.plain .exit]) := by
  have hlooks : ((inner.lookForCast (namedType words)).withType
      (namedType words)).looksLoaded = true := hloaded
  have hdrop : inner.code.dropLast = wordsOf rest ++ [Op.li.word] := by
    rw [hcode, wordsOf_append]
    simp [Ins.words]
  rw [Compiler.casted, if_pos hlooks]
  change (inner.code.dropLast ++ [ofType (namedType words)]) ++ _ = _
  rw [hdrop]
  simp [Ins.words]

private theorem movedCode_load (distance : Word) (rest : List Ins)
    (type : Word) :
    movedCode distance (rest ++ [Ins.wide .li type]) =
      movedCode distance rest ++ [Ins.wide .li type] := by
  rw [movedCode, List.map_append]
  rfl

private theorem casted_yields_iff (emitted : Emitted rules alloc.le 1 code)
    (hcode : inner.code = wordsOf code) (fits : inner.code.length + 1 ≤ 1023)
    (aimed : inner.looksLoaded = true → endsAligned inner.code = true)
    (yields : (finish alloc declares inner.exited).Yields lib mem value) :
    (finish alloc declares (inner.casted words).exited).Yields lib mem
      (type.convert value) ↔
      Converted type (intType (namedType words)) value
        (inner.loaded? (finish alloc declares inner.exited) lib mem) := by
  cases hloaded : inner.looksLoaded with
  | false =>
    rw [casted_stored hloaded, Compiler.loaded?, if_neg (by rw [hloaded]; decide)]
    exact yields.yields_iff.trans eq_comm
  | true =>
    obtain ⟨rest, own, rfl⟩ : ∃ rest own, code = rest ++ [Ins.wide .li own] := by
      have hlooks : nextToLast ([] ++ wordsOf code) = Op.li.word := by
        rw [List.nil_append, ← hcode]
        exact beq_iff_eq.mp hloaded
      have hends : endsAligned ([] ++ wordsOf code) = true := by
        rw [List.nil_append, ← hcode]
        exact aimed hloaded
      exact Emitted.endsInLoad rfl emitted hlooks hends
    have hexited : inner.exited.code =
        wordsOf ((rest ++ [Ins.wide .li own]) ++ [Ins.plain .exit]) := by
      rw [wordsOf_append, ← hcode]
      rfl
    have hsize : inner.code.length = size rest + 2 := by
      rw [hcode]
      exact size_append rest _
    obtain ⟨hwords, hmoved, bound⟩ :=
      finish_emitted alloc declares emitted hexited (by
        rw [Compiler.exited, List.length_append]
        exact fits)
    rw [movedCode_load] at hwords hmoved
    have hother : (finish alloc declares (inner.casted words).exited).words =
        wordsOf ((movedCode (alloc.le - alloc.insn) rest ++
          [Ins.wide .li (ofType (namedType words))]) ++ [Ins.plain .exit]) := by
      rw [finish_wordsOf alloc declares (casted_code hcode hloaded) (by
        intro ins member
        simp only [List.mem_append, List.mem_singleton] at member
        rcases member with (member | rfl) | rfl
        · exact emitted.piece.valid ins (List.mem_append_left _ member)
        · rfl
        · rfl), movedCode, List.map_append, ← movedCode, movedCode_load]
      rfl
    obtain ⟨rounds, vm, hrun⟩ := yields
    have hwithin := Vm.run_within hrun (hmoved.ends hwords bound lib mem)
    have hplace : inner.code.length - 1 = 1 + size (movedCode (alloc.le - alloc.insn) rest) := by
      rw [size_moved]
      omega
    have hat : (Vm.start mem).At [] := rfl
    have hdepth : flow [] 0 = some (Vm.start mem).stack.length := rfl
    have hload := loadTyped_ofType (namedType_basic words).1 (namedType_basic words).2
    obtain ⟨more, final, hagain⟩ := run_retyped hother hwords lib rfl hmoved
      bound hload (List.nil_append _).symm hat hdepth hwithin
    have hyields : Prog.Yields _ lib mem _ := ⟨more, final, hagain⟩
    rw [Compiler.loaded?, if_pos hloaded, hplace]
    cases hcomes : (Vm.start mem).comesTo (finish alloc declares inner.exited)
        lib (1 + size (movedCode (alloc.le - alloc.insn) rest))
        (finish alloc declares inner.exited).nrInsn with
    | some loaded =>
      rw [hcomes] at hyields
      rw [Converted, ← Mem.holds_iff]
      exact hyields.yields_iff
    | none =>
      rw [hcomes] at hyields
      exact hyields.yields_iff.trans eq_comm

end Value

section Scalar

variable {alloc : Alloc} {declares : List Declare} {operand : Lexer}
  {declare : Declare} {lib : Library} {mem : Mem}

def Declare.addr (declare : Declare) (data : Word) : Word :=
  data + BitVec.ofNat 64 declare.offset

private theorem Declare.Scalar.content_eq (scalar : declare.Scalar)
    (data : Word) (mem : Mem) :
    declare.content data mem =
      (intType (declare.type.getD 0)).convert
        (mem.zeroExtended (declare.addr data) 8) ∧
    (intType (declare.type.getD 0)).bytes = declare.size := by
  obtain ⟨hless, -, harray⟩ := scalar.typed
  constructor
  · have hload := scalar.load data mem
    rw [loadTyped_ofType hless harray] at hload
    exact (Option.some.inj hload).symm
  · obtain ⟨width, hwidth, hsize, htype⟩ := scalar.type_eq
    rw [scalar.1, hsize, htype, intType]
    cases declare.isUnsigned with
    | true =>
      change 2 ^ ((width + 8) % 4) = 2 ^ width
      rw [show (width + 8) % 4 = width by omega]
    | false =>
      change 2 ^ (width % 4) = 2 ^ width
      rw [Nat.mod_eq_of_lt hwidth]

private theorem Declare.Scalar.holds_iff (scalar : declare.Scalar) (data : Word)
    (type read : IntType) :
    mem.Holds (declare.addr data) read
      (type.convert (declare.content data mem)) ↔
      read.convert (type.convert (declare.content data mem)) =
        type.convert (declare.content data mem) ∧
      ∀ index, min declare.size type.bytes ≤ index →
        index < read.bytes →
        mem (declare.addr data + BitVec.ofNat 64 index) =
          byteOf (type.convert (declare.content data mem)) index := by
  obtain ⟨hcontent, hbytes⟩ := scalar.content_eq data mem
  refine and_congr_right fun _ => ⟨fun holds index _ => holds index, ?_⟩
  intro holds index hindex
  rcases Nat.lt_or_ge index (min declare.size type.bytes) with hbelow | habove
  · have hown : index < (intType (declare.type.getD 0)).bytes := by
      rw [hbytes]
      exact Nat.lt_of_lt_of_le hbelow (Nat.min_le_left _ _)
    rw [type.byteOf_convert (Nat.lt_of_lt_of_le hbelow (Nat.min_le_right _ _)),
      hcontent, IntType.byteOf_convert _ hown, byteOf_zeroExtended]
    exact Nat.lt_of_lt_of_le hindex read.bytes_le
  · exact holds index habove hindex

private theorem expr_field (scalar : declare.Scalar)
    (shows_ : operand.Shows alloc.data declares (.field declare))
    (ends : operand.next.tk = .eof) {fuel : Nat} (enough : 1 < fuel) :
    ∃ inner, Compiler.expr alloc.le fuel .inc (.reading operand) = .ok inner ∧
      inner.tk = .eof ∧
      inner.code =
        wordsOf [Ins.wide .imm (declare.addr alloc.data),
          Ins.wide .li (ofType (declare.type.getD 0))] := by
  have reads : Lexer.Reads alloc.data declares operand [.field declare]
      operand.next := .cons shows_ (.nil _)
  have follows : (Compiler.reading operand).Follows operand := rfl
  have hlevel : Token.inc.code ≤ (levelToken 12).code := by decide
  obtain ⟨inner, hinner, emits⟩ := (Parses.field scalar).whole reads follows
    hlevel (by rw [ends]; decide) (by rw [ends]; decide)
    (by rw [ends]; decide) (by simp [Compiler.reading, Tree.words]) enough
  exact ⟨inner, hinner, emits.follows.tk.trans ends, emits.hcode⟩

private theorem field_loaded {inner : Compiler} (scalar : declare.Scalar)
    (hcode : inner.code =
      wordsOf [Ins.wide .imm (declare.addr alloc.data),
        Ins.wide .li (ofType (declare.type.getD 0))]) :
    (finish alloc declares inner.exited).Yields lib mem
      (declare.content alloc.data mem) ∧
    ∃ loaded,
      inner.loaded? (finish alloc declares inner.exited) lib mem = some loaded ∧
      loaded.a = declare.addr alloc.data ∧
      loaded.mem = mem := by
  have hexited : inner.exited.code = wordsOf (([Ins.wide .imm (declare.addr alloc.data)] ++
        [Ins.wide .li (ofType (declare.type.getD 0))]) ++ [Ins.plain .exit]) := by
    rw [Compiler.exited, hcode]
    rfl
  have hwords : (finish alloc declares inner.exited).words = wordsOf
      (([Ins.wide .imm (declare.addr alloc.data)] ++
        [Ins.wide .li (ofType (declare.type.getD 0))]) ++ [Ins.plain .exit]) :=
    finish_wordsOf alloc declares hexited (by
      simp only [List.mem_append, List.mem_singleton]
      rintro ins ((rfl | rfl) | rfl) <;> rfl)
  let loaded : Vm := { Vm.start mem with pc := 3, a := declare.addr alloc.data }
  have hat : (Vm.start mem).At [] := rfl
  have hload : loaded.At [Ins.wide .imm (declare.addr alloc.data)] := rfl
  have hstep : (Vm.start mem).step (finish alloc declares inner.exited) lib =
      .next loaded := step_imm hat hwords
  obtain ⟨hcontent, -⟩ := scalar.content_eq alloc.data mem
  obtain ⟨hless, -, harray⟩ := scalar.typed
  have hloaded : inner.looksLoaded = true := by
    rw [Compiler.looksLoaded, hcode]
    rfl
  obtain ⟨final, hrun⟩ := run_load hwords lib (loadTyped_ofType hless harray) hload
  constructor
  · refine ⟨3, final, ?_⟩
    rw [Vm.run, hstep, hcontent]
    exact hrun
  · refine ⟨loaded, ?_, rfl, rfl⟩
    have hpc : ¬ (Vm.start mem).pc = 3 := by
      change ¬ 1 = 3
      decide
    rw [Compiler.loaded?, if_pos hloaded, hcode, Prog.nrInsn, hwords]
    change (Vm.start mem).comesTo _ lib 3 6 = some loaded
    rw [Vm.comesTo, if_neg hpc, hstep]
    rfl

end Scalar

/-- A cast of a variable yields its content converted to the type exactly when
the bytes the load now covers are those of the converted value.  A cast of any
other operand whose code the compiler recognises yields the converted value
exactly when what was loaded last reads as it, or when nothing was loaded and
the value is one of the type already. -/
theorem cast_converts_iff {alloc : Alloc} {sampleGlo : Bool}
    {declares : List Declare} {source : List Byte} {lex operand : Lexer}
    {words : List TypeWord} {type : IntType} (lib : Library) (mem : Mem)
    (hsymbols : symbols alloc sampleGlo declares = .ok lex)
    (casts : (Lexer.next { lex with p := source }).Casts words operand)
    (htype : cType words = some type) :
    (∀ declare, declare.Scalar →
      operand.Shows alloc.data declares (.field declare) →
      operand.next.tk = .eof →
      ∀ fuel, 3 < fuel →
        ∃ prog trace,
          compile fuel alloc sampleGlo declares source = .ok (prog, trace) ∧
          (prog.Yields lib mem (type.convert (declare.content alloc.data mem)) ↔
              (intType (namedType words)).convert
                (type.convert (declare.content alloc.data mem)) =
                type.convert (declare.content alloc.data mem) ∧
              ∀ index, min declare.size type.bytes ≤ index →
                index < (intType (namedType words)).bytes →
                mem (declare.addr alloc.data + BitVec.ofNat 64 index) =
                  byteOf (type.convert (declare.content alloc.data mem))
                    index)) ∧
    ∀ fuel inner value,
      Compiler.expr alloc.le fuel .inc (.reading operand) = .ok inner →
      inner.tk = .eof →
      inner.code.length + 1 ≤ 1023 →
      everyLookRight alloc.le inner.trace = true →
      (inner.looksLoaded = true → endsAligned inner.code = true) →
      (finish alloc declares inner.exited).Yields lib mem value →
      ∃ prog trace,
        compile (fuel + 2) alloc sampleGlo declares source = .ok (prog, trace) ∧
        (prog.Yields lib mem (type.convert value) ↔
            Converted type (intType (namedType words)) value (inner.loaded?
              (finish alloc declares inner.exited) lib mem)) := by
  have typed : (cType words).isSome = true := by
    rw [htype]
    rfl
  constructor
  · intro declare scalar shows_ ends fuel enough
    obtain ⟨fuel, rfl⟩ : ∃ fewer, fuel = fewer + 2 := ⟨fuel - 2, by omega⟩
    obtain ⟨inner, hinner, hend, hcode⟩ :=
      @expr_field alloc declares operand declare scalar shows_ ends fuel (by omega)
    have emitted : Emitted lookRules alloc.le 1 [Ins.wide .imm (declare.addr alloc.data),
          Ins.wide .li (ofType (declare.type.getD 0))] := Emitted.variable 1 _ _
    have fits : inner.code.length + 1 ≤ 1023 := by
      rw [hcode]
      simp [Ins.words]
    have haimed : endsAligned inner.code = true := by
      rw [hcode]
      rfl
    obtain ⟨yields, loaded, hloaded, ha, hmem⟩ :=
      @field_loaded alloc declares declare lib mem inner scalar hcode
    refine ⟨_, _, compile_casts hsymbols casts typed hinner hend fits, ?_⟩
    rw [casted_yields_iff emitted hcode fits (fun _ => haimed) yields, hloaded,
      Converted, ha, hmem, scalar.holds_iff]
  · intro fuel inner value hinner ends fits right aimed yields
    obtain ⟨code, hcode, emitted⟩ := operand_emitted hsymbols casts hinner right
    exact ⟨_, _, compile_casts hsymbols casts typed hinner ends fits,
      casted_yields_iff emitted hcode fits aimed yields⟩

theorem cast_converts_iff_long :
    ∃ prog trace, compile 4 plainAlloc false plainDeclares (text "(long)c") =
        .ok (prog, trace) ∧
      prog.Yields ⟨fun _ _ => 0, 0, 0⟩ (fun _ => 0) 0 := by
  have hview : (symbols plainAlloc false plainDeclares).toOption.map (fun lex =>
        let first := Lexer.next { lex with p := text "(long)c" }
        let operand := first.next.next.next
        ((first.tk, first.next.tk, first.next.symbol?.map Symbol.type,
          first.next.next.tk), operand.tk, operand.symbol?, operand.next.tk)) =
      some ((.lparen, .int, some LONG, .rparen), .id, some fieldSymbol, .eof) := by
    decide +kernel
  obtain ⟨lex, hsymbols, hseen⟩ := ok_of_view hview
  simp only [Prod.mk.injEq] at hseen
  obtain ⟨⟨hopen, hint, hlong, hclose⟩, hid, hsymbol, hend⟩ := hseen
  have casts : (Lexer.next { lex with p := text "(long)c" }).Casts [.long]
      (Lexer.next { lex with p := text "(long)c" }).next.next.next :=
    ⟨hopen, _, .cons ⟨hint, hlong⟩ (.nil _), hclose, rfl⟩
  obtain ⟨holds, -⟩ := cast_converts_iff ⟨fun _ _ => 0, 0, 0⟩ (fun _ => 0) hsymbols casts rfl
  have hmember : plainField ∈ plainDeclares := List.mem_cons_self
  obtain ⟨prog, trace, hcompile, hiff⟩ := holds plainField ⟨rfl, rfl⟩
    ⟨hid, hmember, fieldSymbol, hsymbol, rfl, rfl, rfl⟩ hend 4 (by decide)
  refine ⟨prog, trace, hcompile, ?_⟩
  have hzero : (intType LONG).convert
      (plainField.content plainAlloc.data fun _ => 0) = 0 := by decide +kernel
  rw [hzero] at hiff
  refine hiff.mpr ⟨by decide +kernel, fun index _ _ => ?_⟩
  exact (BitVec.extractLsb'_zero ..).symm

def Outcome.value? : Outcome → Option Word
  | .ret value _ => some value
  | _ => none

private theorem Prog.yields_of_value? {prog : Prog} {lib : Library} {mem : Mem}
    {rounds : Nat} {value : Word}
    (hvalue : ((Vm.start mem).run prog lib rounds).value? = some value) :
    prog.Yields lib mem value := by
  cases hrun : (Vm.start mem).run prog lib rounds with
  | ret other vm =>
    rw [hrun] at hvalue
    cases hvalue
    exact ⟨rounds, vm, hrun⟩
  | _ =>
    rw [hrun] at hvalue
    cases hvalue

def wideRecord : Mem := fun addr =>
  if addr = 0x30001 ∨ addr = 0x30004 then 1 else 0

/-- A wider load takes in the bytes behind the variable, a computed value stays
as it is, and `int unsigned` is taken for `unsigned char`. -/
theorem casts_keep_or_misread :
    plainField.content plainAlloc.data wideRecord = 256 ∧
    (∃ prog trace, compile 20 plainAlloc false plainDeclares (text "(long)c") =
        .ok (prog, trace) ∧
      prog.Yields ⟨fun _ _ => 0, 0, 0⟩ wideRecord 0x100000100) ∧
    (∃ prog trace,
      compile 20 plainAlloc false plainDeclares (text "(char)(c + 1)") =
        .ok (prog, trace) ∧
      prog.Yields ⟨fun _ _ => 0, 0, 0⟩ wideRecord 257) ∧
    (∃ prog trace,
      compile 20 plainAlloc false plainDeclares (text "(int unsigned)c") =
        .ok (prog, trace) ∧
      prog.Yields ⟨fun _ _ => 0, 0, 0⟩ wideRecord 0) := by
  have hrun : ∀ source value, (compile 20 plainAlloc false plainDeclares source).toOption.map
        (fun result => ((Vm.start wideRecord).run result.1
          ⟨fun _ _ => 0, 0, 0⟩ 20).value?) = some (some value) →
      ∃ prog trace, compile 20 plainAlloc false plainDeclares source = .ok (prog, trace) ∧
        prog.Yields ⟨fun _ _ => 0, 0, 0⟩ wideRecord value := by
    intro source value hview
    obtain ⟨⟨prog, trace⟩, hcompile, hvalue⟩ := ok_of_view hview
    exact ⟨prog, trace, hcompile, Prog.yields_of_value? hvalue⟩
  refine ⟨by decide +kernel, hrun _ _ ?_, hrun _ _ ?_, hrun _ _ ?_⟩
  all_goals decide +kernel

end PerfProf.Expr
