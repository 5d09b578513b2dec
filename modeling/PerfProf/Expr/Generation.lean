import PerfProf.Expr.Emitted

namespace PerfProf.Expr

open PerfProf.Data

theorem bind_ok {α β : Type} {action : Except Failure α}
    {rest : α → Except Failure β} {result : β}
    (ok : (action >>= rest) = .ok result) :
    ∃ value, action = .ok value ∧ rest value = .ok result := by
  cases action with
  | error failure => cases ok
  | ok value => exact ⟨value, rfl, ok⟩

structure Symbol.Sound (symbol : Symbol) : Prop where
  library : symbol.cls = .sys → ∃ op : Op, op.isLibrary = true ∧ symbol.value = op.word
  noFun : symbol.cls ≠ .fun
  noLoc : symbol.cls ≠ .loc

def Lexer.Sound (lex : Lexer) : Prop := ∀ symbol ∈ lex.symtab, symbol.Sound

theorem Symbol.Sound.of_none {symbol : Symbol} (hnone : symbol.cls = .none) :
    symbol.Sound where
  library := by simp [hnone]
  noFun := by simp [hnone]
  noLoc := by simp [hnone]

namespace Lexer

def Enters (lex next : Lexer) : Prop :=
  ∃ more, next.symtab = lex.symtab ++ more ∧ ∀ symbol ∈ more, symbol.cls = .none

variable {lex : Lexer}

theorem Enters.of_eq {next : Lexer} (same : next.symtab = lex.symtab) :
    Enters lex next := ⟨[], by simp [same], by simp⟩

theorem Enters.ite {condition : Prop} [Decidable condition]
    (hyes : Enters lex yes) (hno : Enters lex no) :
    Enters lex (if condition then yes else no) := by
  split
  · exact hyes
  · exact hno

theorem nextName_enters (first : Byte) (lex : Lexer) :
    Enters lex (lex.nextName first) := by
  unfold nextName
  simp only
  split
  · exact .of_eq rfl
  · exact ⟨_, rfl, by simp⟩

theorem nextNumber_symtab (first : Byte) (lex : Lexer) :
    (lex.nextNumber first).symtab = lex.symtab := by
  unfold nextNumber
  split
  · rfl
  · split <;> rfl

theorem nextLiteral_symtab (quote : Byte) (lex : Lexer) :
    (lex.nextLiteral quote).symtab = lex.symtab := by
  unfold nextLiteral
  simp only
  split <;> rfl

theorem nextLoop_enters (fuel : Nat) (lex : Lexer) :
    Enters lex (lex.nextLoop fuel) := by
  induction fuel generalizing lex with
  | zero => exact .of_eq rfl
  | succ fuel ih =>
    unfold nextLoop
    split
    · exact .of_eq rfl
    · rename_i first rest hp
      have skipped : ∀ source : List Byte,
          Enters lex (nextLoop fuel { lex with p := source }) := fun source =>
        ih { lex with p := source }
      apply Enters.ite (.of_eq rfl)
      apply Enters.ite (skipped _)
      apply Enters.ite (skipped _)
      apply Enters.ite (nextName_enters first { lex with p := rest })
      apply Enters.ite (.of_eq (nextNumber_symtab first { lex with p := rest }))
      apply Enters.ite
      · exact .ite (skipped _) (.of_eq rfl)
      · apply Enters.ite (.of_eq (nextLiteral_symtab first { lex with p := rest }))
        split
        · exact .of_eq rfl
        · exact .of_eq rfl
        · exact skipped _

theorem next_enters (lex : Lexer) : Enters lex lex.next :=
  nextLoop_enters _ lex

theorem Sound.of_enters {next : Lexer} (sound : lex.Sound)
    (enters : Enters lex next) : next.Sound := by
  obtain ⟨more, hsymtab, hnone⟩ := enters
  intro symbol member
  rw [hsymtab] at member
  rcases List.mem_append.mp member with member | member
  · exact sound symbol member
  · exact .of_none (hnone symbol member)

theorem Sound.next (sound : lex.Sound) : lex.next.Sound :=
  sound.of_enters lex.next_enters

theorem Sound.modify (sound : lex.Sound) {set : Symbol → Symbol}
    (kept : ∀ symbol, symbol.Sound → (set symbol).Sound) :
    Sound { lex with symtab := lex.symtab.modify index set } := by
  intro symbol member
  obtain ⟨place, hplace⟩ := List.mem_iff_getElem?.mp member
  rw [List.getElem?_modify] at hplace
  obtain ⟨old, hold, rfl⟩ := Option.map_eq_some_iff.mp hplace
  have hsound := sound old (List.mem_of_getElem? hold)
  split
  · exact kept old hsound
  · exact hsound

end Lexer

def Reaches (rules : Rules) (le : Word) (s t : Compiler) (goal : Prop) : Prop :=
  ∃ events, t.trace = events ++ s.trace ∧ (s.lex.Sound →
    (∀ event ∈ events, event.right rules le = true) → t.lex.Sound ∧ goal)

def Grows (rules : Rules) (le : Word) (before after : List Word) : Prop :=
  aligned hasOperand before = true → ∃ code, after = before ++ wordsOf code ∧
    Emitted rules le (before.length + 1) code

def Appends (rules : Rules) (le : Word) (s t : Compiler) : Prop :=
  Reaches rules le s t (Grows rules le s.code t.code)

def Continues (rules : Rules) (le : Word) (s t : Compiler) : Prop :=
  Reaches rules le s t (∀ base code, aligned hasOperand base = true →
    s.code = base ++ wordsOf code → Emitted rules le (base.length + 1) code →
      ∃ larger, t.code = base ++ wordsOf larger ∧ Emitted rules le (base.length + 1) larger)

section Steps

variable {rules : Rules} {le : Word} {s t u : Compiler} {goal other : Prop}

theorem Reaches.imp (reaches : Reaches rules le s t goal)
    (implies : goal → other) : Reaches rules le s t other := by
  obtain ⟨events, htrace, hgoal⟩ := reaches
  refine ⟨events, htrace, fun sound right => ?_⟩
  obtain ⟨hsound, holds⟩ := hgoal sound right
  exact ⟨hsound, implies holds⟩

theorem Reaches.trans (first : Reaches rules le s t goal)
    (second : Reaches rules le t u other) :
    Reaches rules le s u (goal ∧ other) := by
  obtain ⟨events, htrace, hgoal⟩ := first
  obtain ⟨later, hlater, hother⟩ := second
  refine ⟨later ++ events, by rw [hlater, htrace, List.append_assoc], ?_⟩
  intro sound right
  obtain ⟨hsound, holds⟩ := hgoal sound fun event member =>
    right event (List.mem_append_right later member)
  obtain ⟨hsound, hothers⟩ := hother hsound fun event member =>
    right event (List.mem_append_left events member)
  exact ⟨hsound, holds, hothers⟩

theorem Reaches.silent (htrace : t.trace = s.trace)
    (hlex : s.lex.Sound → t.lex.Sound) (holds : goal) :
    Reaches rules le s t goal :=
  ⟨[], by simp [htrace], fun sound _ => ⟨hlex sound, holds⟩⟩

theorem Reaches.sound : Reaches rules le s s s.lex.Sound :=
  ⟨[], rfl, fun sound _ => ⟨sound, sound⟩⟩

theorem Reaches.record (event : Event) :
    Reaches rules le s (s.record event) (event.right rules le = true) :=
  ⟨[event], rfl, fun sound right => ⟨sound, right event (by simp)⟩⟩

theorem Reaches.next : Reaches rules le s s.next True :=
  .silent rfl (fun sound => sound.next) trivial

theorem appends_next (appends : Appends rules le s.next t) :
    Appends rules le s t := (Reaches.next.trans appends).imp And.right

theorem Appends.continue (appends : Appends rules le s t)
    (continues : Continues rules le t u) : Appends rules le s u := by
  refine (appends.trans continues).imp ?_
  rintro ⟨hgrows, hcontinues⟩ haligned
  obtain ⟨code, hcode, emitted⟩ := hgrows haligned
  exact hcontinues s.code code haligned hcode emitted

theorem Reaches.withType (type : Nat) :
    Reaches rules le s (s.withType type) True :=
  .silent rfl id trivial

variable {words : List Word}

theorem emit_ok (hemit : s.emit words = .ok t) :
    t = { s with
      code := s.code ++ words, stale := s.stale.drop words.length } := by
  unfold Compiler.emit at hemit
  split at hemit
  · exact (Except.ok.inj hemit).symm
  · cases hemit

theorem emit_bound (hemit : s.emit words = .ok t) :
    s.code.length + words.length ≤ 1023 := by
  unfold Compiler.emit at hemit
  split at hemit
  · assumption
  · cases hemit

theorem Reaches.emit (hemit : s.emit words = .ok t) :
    Reaches rules le s t (t.code = s.code ++ words) := by
  rw [emit_ok hemit]
  exact .silent rfl id rfl

theorem Reaches.expect (hexpect : s.expect token message = .ok t) :
    Reaches rules le s t (t.code = s.code) := by
  unfold Compiler.expect at hexpect
  split at hexpect
  · cases hexpect
    exact .silent rfl (fun sound => sound.next) rfl
  · cases hexpect

theorem Reaches.refer (index : Nat) :
    Reaches rules le s (s.refer index) True := by
  refine .silent rfl (fun sound => sound.modify ?_) trivial
  exact fun symbol hsymbol => ⟨hsymbol.library, hsymbol.noFun, hsymbol.noLoc⟩

end Steps

variable {op : Op}

section

variable (hop : op.isOperator = true)

include hop

theorem operator_valid : (Ins.plain op).valid = true := by
  revert hop
  cases op <;> decide

theorem operator_still : (Ins.plain op).op.isJump = false := by
  revert hop
  cases op <;> decide

theorem operator_kept : (Ins.plain op).isSwap = false := by
  revert hop
  cases op <;> decide

theorem operator_flow (depth : Nat) :
    (Ins.plain op).flow (depth + 1) = some depth := by
  have hpush : op ≠ .psh := by
    rintro rfl
    exact absurd hop (by decide)
  have hlibrary : (op.isLibrary || op == .exit) = false := by
    revert hop
    cases op <;> decide
  simp [Ins.flow, hpush, hlibrary, hop]

end

section Operands

variable {rules : Rules} {le : Word} {s t : Compiler}

theorem Emitted.constant (start : Nat) (value : Word) :
    Emitted rules le start [Ins.wide .imm value] where
  piece := Piece.still _ (by simp [Ins.valid]; decide) (by simp [Ins.op]; decide) fun _ => rfl
  shallow := .single (by simp)
  filled := by simp
  opens := rfl
  swaps := fun _ => .cons rfl .nil

variable {code : List Ins} {op : Op} {start count : Nat}

theorem Emitted.withConstant (emitted : Emitted rules le start code)
    (hop : op.isOperator = true) (value : Word) :
    Emitted rules le start
      (code ++ [Ins.plain .psh, Ins.wide .imm value, Ins.plain op]) :=
  emitted.operate (Emitted.constant _ value) (operator_valid hop)
    (operator_still hop) (operator_flow hop) (operator_kept hop)

theorem number_appends (hnumber : s.number = .ok t) : Appends rules le s t := by
  obtain ⟨s₁, hemit, hrest⟩ := bind_ok hnumber
  cases hrest
  refine ((Reaches.emit hemit).trans (Reaches.next.trans (Reaches.withType INT))).imp ?_
  rintro ⟨hcode, -⟩ -
  exact ⟨[Ins.wide .imm s.lex.ival], hcode, Emitted.constant _ _⟩

def Compiler.skipToken (token : Token) : Nat → Compiler → Compiler
  | 0, s => s
  | fuel + 1, s => if s.tk = token then skipToken token fuel s.next else s

theorem Compiler.skipStrings_eq (fuel : Nat) (s : Compiler) :
    skipStrings fuel s = skipToken .quote fuel s := by
  induction fuel generalizing s with
  | zero => rfl
  | succ fuel ih => rw [skipStrings, skipToken, ih]

theorem Compiler.stars_eq (fuel type : Nat) (s : Compiler) :
    (stars fuel type s).2 = skipToken .mul fuel s := by
  induction fuel generalizing s type with
  | zero => rfl
  | succ fuel ih =>
    rw [stars, skipToken]
    split
    · exact ih _ _
    · rfl

theorem Reaches.skipToken (token : Token) (fuel : Nat) :
    Reaches rules le s (s.skipToken token fuel)
      ((s.skipToken token fuel).code = s.code) := by
  induction fuel generalizing s with
  | zero => exact .silent rfl id rfl
  | succ fuel ih =>
    unfold Compiler.skipToken
    split
    · exact (Reaches.next.trans ih).imp And.right
    · exact .silent rfl id rfl

theorem stringLiteral_appends (hstring : s.stringLiteral = .ok t) :
    Appends rules le s t := by
  obtain ⟨s₁, hemit, hrest⟩ := bind_ok hstring
  cases hrest
  rw [Compiler.skipStrings_eq]
  refine ((Reaches.emit hemit).trans (Reaches.next.trans
    ((Reaches.skipToken _ _).trans (Reaches.withType _)))).imp ?_
  rintro ⟨hcode, -, hsame, -⟩ -
  exact ⟨[Ins.wide .imm s.lex.ival], hsame.trans hcode, Emitted.constant _ _⟩

theorem Reaches.typeName :
    Reaches rules le s s.typeName.2 (s.typeName.2.code = s.code) := by
  unfold Compiler.typeName
  simp only
  split <;> rw [Compiler.stars_eq]
  · exact (Reaches.next.trans (Reaches.next.trans (Reaches.skipToken _ _))).imp
      fun holds => holds.2.2
  · exact (Reaches.next.trans (Reaches.skipToken _ _)).imp And.right

theorem sizeofType_appends (hsizeof : s.sizeofType = .ok t) :
    Appends rules le s t := by
  obtain ⟨s₁, hopen, hrest⟩ := bind_ok hsizeof
  split at hrest
  · obtain ⟨s₂, hclose, hrest⟩ := bind_ok hrest
    obtain ⟨s₃, hemit, hrest⟩ := bind_ok hrest
    cases hrest
    refine (Reaches.next.trans ((Reaches.expect hopen).trans (Reaches.typeName.trans
      ((Reaches.expect hclose).trans ((Reaches.emit hemit).trans (Reaches.withType INT)))))).imp ?_
    rintro ⟨-, hopened, htyped, hclosed, hcode, -⟩ -
    refine ⟨[Ins.wide .imm (ofType (typeop .sizeof s₁.typeName.1))], ?_, Emitted.constant _ _⟩
    exact hcode.trans (by rw [hclosed, htyped, hopened]; rfl)
  · cases hrest

variable {expr : Token → Compiler → Compiled}
  (hexpr : ∀ level s t, expr level s = .ok t → Appends rules le s t)

theorem aligned_behind (haligned : aligned hasOperand base = true)
    (hvalid : ∀ ins ∈ code, ins.valid = true) :
    aligned hasOperand (base ++ wordsOf code) = true := by
  rw [aligned_append hasOperand haligned]
  exact aligned_wordsOf hvalid

theorem length_behind (base : List Word) (code : List Ins) :
    (base ++ wordsOf code).length + 1 = base.length + 1 + size code := by
  simp [size, Nat.add_right_comm]

theorem Grows.behind (last : Ins) (hgrows : Grows rules le before after)
    (haligned : aligned hasOperand base = true)
    (hvalid : ∀ ins ∈ left, ins.valid = true) (hlast : last.valid = true)
    (hbefore : before = base ++ wordsOf left ++ last.words) :
    ∃ right, after = base ++ wordsOf (left ++ last :: right) ∧
      Emitted rules le (base.length + 1 + size left + last.words.length)
        right := by
  have hbase : before = base ++ wordsOf (left ++ [last]) := by simp [hbefore]
  rw [hbase] at hgrows
  obtain ⟨right, hafter, emitted⟩ := hgrows (aligned_behind haligned (valid_snoc hvalid hlast))
  rw [length_behind, size_append] at emitted
  exact ⟨right, by simp [hafter], by simpa [size, Nat.add_assoc] using emitted⟩

structure Pushed (rules : Rules) (le : Word) (start count : Nat)
    (code : List Ins) : Prop where
  piece : Piece rules.field le start 0 count code
  shallow : Shallow code
  opens : startsWithLoad code = false
  swaps : rules.swaps = true → Swapped code
  bound : count ≤ size code

theorem Pushed.none (start : Nat) : Pushed rules le start 0 [] where
  piece := Piece.nil start 0
  shallow := .nil
  opens := rfl
  swaps := fun _ => .nil
  bound := Nat.le_refl 0

theorem Pushed.cons (head : Emitted rules le start first)
    (tail : Pushed rules le (start + size first + 1) count rest) :
    Pushed rules le start (count + 1) (first ++ Ins.plain .psh :: rest) where
  piece := by
    have hpush : Piece rules.field le (start + size first) 0 1 [Ins.plain .psh] :=
      Piece.still _ (by decide) (by decide) fun _ => rfl
    have hrest := tail.piece.deeper 1
    rw [Nat.zero_add] at hrest
    exact head.piece.append (hpush.append hrest tail.opens) rfl
  shallow := head.shallow.push head.piece.flows head.filled tail.shallow
  opens := by
    rw [startsWithLoad_append _ head.filled]
    exact head.opens
  swaps := fun hswaps => (head.swaps hswaps).append (.cons rfl (tail.swaps hswaps))
  bound := by
    have hbound := tail.bound
    simp only [size_append, size_plain]
    omega

variable {fuel index : Nat}

include hexpr in
theorem arguments_reaches {count : Nat} {given : Nat × Compiler}
    (harguments : s.arguments expr fuel count = .ok given) :
    Reaches rules le s given.2
      (aligned hasOperand s.code = true →
        ∃ more code, given.1 = count + more ∧
          given.2.code = s.code ++ wordsOf code ∧
          Pushed rules le (s.code.length + 1) more code) := by
  induction fuel generalizing s count with
  | zero => cases harguments
  | succ fuel ih =>
    unfold Compiler.arguments at harguments
    split at harguments
    · cases harguments
      exact .silent rfl id fun _ => ⟨0, [], rfl, by simp, Pushed.none _⟩
    · obtain ⟨s₁, hfirst, hrest⟩ := bind_ok harguments
      obtain ⟨s₂, hemit, hrest⟩ := bind_ok hrest
      have hcomma : Reaches rules le s₂ (if s₂.tk = .comma then s₂.next else s₂)
          ((if s₂.tk = .comma then s₂.next else s₂).code = s₂.code) := by
        split
        · exact .silent rfl (fun sound => sound.next) rfl
        · exact .silent rfl id rfl
      refine ((hexpr _ _ _ hfirst).trans ((Reaches.emit hemit).trans
        (hcomma.trans (ih hrest)))).imp ?_
      rintro ⟨hgrows, hpush, hsame, hmore⟩ haligned
      obtain ⟨code, hcode, emitted⟩ := hgrows haligned
      have hbase : s₂.code = s.code ++ wordsOf (code ++ [Ins.plain .psh]) := by
        simp [hpush, hcode, Ins.words]
      rw [hsame, hbase] at hmore
      obtain ⟨more, rest, hcount, hlast, pushed⟩ :=
        hmore (aligned_behind haligned (valid_snoc emitted.piece.valid rfl))
      rw [length_behind, size_append] at pushed
      refine ⟨more + 1, code ++ Ins.plain .psh :: rest, by omega, ?_, Pushed.cons emitted pushed⟩
      simp [hlast, Ins.words]

section

variable (hop : op.isLibrary = true)

include hop

theorem library_valid :
    (Ins.plain op).valid = true ∧ (Ins.plain op).op.isJump = false := by
  revert hop
  cases op <;> decide

theorem library_no_push : Ins.plain op ≠ Ins.plain .psh := by
  rintro same
  cases same
  exact absurd hop (by decide)

theorem library_flow (depth : Nat) :
    (Ins.plain op).flow depth = some depth := by
  have hpush : op ≠ .psh := by
    rintro rfl
    exact absurd hop (by decide)
  simp [Ins.flow, hpush, hop]

theorem Pushed.call (pushed : Pushed rules le start count code) :
    Piece rules.field le start 0 count (code ++ [Ins.plain op]) ∧
    startsWithLoad (code ++ [Ins.plain op]) = false := by
  obtain ⟨hvalid, hstill⟩ := library_valid hop
  have hcall : Piece rules.field le (start + size code) count count [Ins.plain op] :=
    Piece.still _ (by simpa using hvalid) (by simpa using hstill) (by simp [library_flow hop])
  refine ⟨pushed.piece.append hcall rfl, ?_⟩
  cases code with
  | nil => rfl
  | cons ins rest => exact pushed.opens

theorem Emitted.bareCall (pushed : Pushed rules le start 0 code)
    (right : rules.swaps = true → (Ins.plain op).isSwap = false) :
    Emitted rules le start (code ++ [Ins.plain op]) where
  piece := (pushed.call hop).1
  shallow := pushed.shallow.append (.single (library_no_push hop))
  filled := by simp
  opens := (pushed.call hop).2
  swaps := fun hswaps => (pushed.swaps hswaps).append (.cons (right hswaps) .nil)

theorem Emitted.adjustedCall (pushed : Pushed rules le start count code)
    (bound : count < 2 ^ 64) :
    Emitted rules le start
      (code ++ [Ins.plain op] ++ [Ins.wide .adj (BitVec.ofNat 64 count)]) where
  piece := by
    have hadjust : Piece rules.field le (start + size (code ++ [Ins.plain op]))
        count 0 [Ins.wide .adj (BitVec.ofNat 64 count)] := by
      refine Piece.still _ (by simp [Ins.valid]; decide) (by simp [Ins.op]; decide) ?_
      intro depth
      have hcount : (BitVec.ofNat 64 count).toNat = count :=
        (BitVec.toNat_ofNat count 64).trans (Nat.mod_eq_of_lt bound)
      simp [flow, Ins.flow, hcount, -BitVec.toNat_ofNat]
    exact (pushed.call hop).1.append hadjust rfl
  shallow := (pushed.shallow.append (.single (library_no_push hop))).append (.single (by simp))
  filled := by simp
  opens := by
    rw [startsWithLoad_append _ (by simp)]
    exact (pushed.call hop).2
  swaps := fun _ _ _ _ => ⟨.wide .adj (BitVec.ofNat 64 count), by simp, rfl⟩

end

theorem call_right (right : (Event.call op.word count).right rules le = true)
    (hcount : count = 0) (hswaps : rules.swaps = true) :
    (Ins.plain op).isSwap = false := by
  have hword : swapWord op.word = (Ins.plain op).isSwap := by
    simp only [swapWord, Ins.isSwap, Ins.op]
    cases op <;> rfl
  simpa [Event.right, hcount, hswaps, hword] using right

theorem adjust_reaches (hadjust : s.adjust count = .ok t) :
    Reaches rules le s t
      ((count = 0 ∧ t.code = s.code) ∨
        (count ≠ 0 ∧
          s.code.length ≤ 1021 ∧
          t.code = s.code ++ [Op.adj.word, BitVec.ofNat 64 count])) := by
  unfold Compiler.adjust at hadjust
  split at hadjust
  · rename_i hzero
    cases hadjust
    exact .silent rfl id (.inl ⟨hzero, rfl⟩)
  · rename_i hcount
    have hbound := emit_bound hadjust
    refine (Reaches.emit hadjust).imp fun hcode => .inr ⟨hcount, ?_, hcode⟩
    simp only [List.length_cons, List.length_nil] at hbound
    omega

theorem callFunction_reaches {count : Nat}
    (hcall : s.callFunction index count = .ok t) :
    Reaches rules le s t
      (∀ base code, s.code = base ++ wordsOf code →
        Pushed rules le (base.length + 1) count code →
        ∃ larger, t.code = base ++ wordsOf larger ∧
          Emitted rules le (base.length + 1) larger) := by
  unfold Compiler.callFunction at hcall
  split at hcall
  · rename_i symbol hsymbol
    have hmember := List.mem_of_getElem? hsymbol
    split at hcall
    · rename_i hsys
      obtain ⟨s₁, hemit, hrest⟩ := bind_ok hcall
      obtain ⟨s₂, hadjust, hrest⟩ := bind_ok hrest
      cases hrest
      refine (Reaches.sound.trans ((Reaches.record _).trans ((Reaches.emit hemit).trans
        ((Reaches.refer index).trans ((adjust_reaches hadjust).trans (Reaches.withType _)))))).imp
        ?_
      rintro ⟨hsound, right, hcode, -, hadjusted, -⟩ base code hbase pushed
      obtain ⟨op, hop, hvalue⟩ := (hsound symbol hmember).library hsys
      rw [hvalue] at hcode right
      have hcalled : (s₁.refer index).code = base ++ wordsOf (code ++ [Ins.plain op]) := by
        refine hcode.trans ?_
        simp [Compiler.record, hbase, Ins.words]
      rcases hadjusted with ⟨rfl, hsame⟩ | ⟨-, hbound, hadded⟩
      · exact ⟨code ++ [Ins.plain op], hsame.trans hcalled,
          Emitted.bareCall hop pushed (call_right right rfl)⟩
      · refine ⟨_, ?_, Emitted.adjustedCall hop pushed ?_⟩
        · refine hadded.trans ?_
          rw [hcalled]
          simp [Ins.words]
        · have hsize := pushed.bound
          have hlength := congrArg List.length hcalled
          rw [List.length_append, wordsOf_append, List.length_append] at hlength
          unfold size at hsize
          omega
    · rename_i hfun
      obtain ⟨s₁, hemit, hrest⟩ := bind_ok hcall
      obtain ⟨s₂, hadjust, hrest⟩ := bind_ok hrest
      cases hrest
      refine (Reaches.sound.trans ((Reaches.emit hemit).trans ((Reaches.refer index).trans
          ((adjust_reaches hadjust).trans (Reaches.withType _))))).imp ?_
      exact fun holds => absurd hfun (holds.1 symbol hmember).noFun
    · cases hcall
  · cases hcall

include hexpr in
theorem call_appends (hcall : s.call expr fuel index = .ok t) :
    Appends rules le s t := by
  obtain ⟨given, harguments, hrest⟩ := bind_ok hcall
  refine ((arguments_reaches hexpr harguments).trans
    (Reaches.next.trans (callFunction_reaches hrest))).imp ?_
  rintro ⟨hgiven, -, hcalled⟩ haligned
  obtain ⟨more, code, hcount, hcode, pushed⟩ := hgiven haligned
  rw [Nat.zero_add] at hcount
  exact hcalled s.code code hcode (hcount ▸ pushed)

theorem Emitted.variable (start : Nat) (value type : Word) :
    Emitted rules le start [Ins.wide .imm value, Ins.wide .li type] :=
  (Emitted.constant start value).load (JumpsLand.of_still (by simp [Ins.op]; decide)) type

theorem loadVariable_reaches {type : Nat}
    (hload : s.loadVariable type index = .ok t) :
    Reaches rules le s t
      (t.code = s.code ∨ ∃ type, t.code = s.code ++ [Op.li.word, type]) := by
  unfold Compiler.loadVariable at hload
  simp only at hload
  split at hload
  · cases hload
    exact ((Reaches.refer index).trans (Reaches.withType _)).imp fun _ => .inl rfl
  · obtain ⟨s₁, hemit, hrest⟩ := bind_ok hload
    cases hrest
    exact ((Reaches.refer index).trans ((Reaches.emit hemit).trans
      (Reaches.withType _))).imp fun holds => .inr ⟨_, holds.2.1⟩

theorem variableAt_appends (hvariable : s.variableAt index = .ok t) :
    Appends rules le s t := by
  unfold Compiler.variableAt at hvariable
  split at hvariable
  · rename_i symbol hsymbol
    have hmember := List.mem_of_getElem? hsymbol
    split at hvariable
    · obtain ⟨s₁, hemit, hrest⟩ := bind_ok hvariable
      cases hrest
      exact ((Reaches.emit hemit).trans (Reaches.withType INT)).imp
        fun holds _ => ⟨[Ins.wide .imm symbol.value], holds.1, Emitted.constant _ _⟩
    · rename_i hloc
      obtain ⟨s₁, hemit, hrest⟩ := bind_ok hvariable
      refine (Reaches.sound.trans ((Reaches.emit hemit).trans (loadVariable_reaches hrest))).imp ?_
      exact fun holds => absurd hloc (holds.1 symbol hmember).noLoc
    · obtain ⟨s₁, hemit, hrest⟩ := bind_ok hvariable
      refine ((Reaches.emit hemit).trans (loadVariable_reaches hrest)).imp ?_
      rintro ⟨hcode, hsame | ⟨type, hload⟩⟩ -
      · exact ⟨[Ins.wide .imm symbol.value], hsame.trans hcode, Emitted.constant _ _⟩
      · refine ⟨[Ins.wide .imm symbol.value, Ins.wide .li type], ?_, Emitted.variable _ _ _⟩
        rw [hload, hcode]
        simp [Ins.words]
    · cases hvariable
  · cases hvariable

include hexpr in
theorem identifier_appends (hidentifier : s.identifier expr fuel = .ok t) :
    Appends rules le s t := by
  unfold Compiler.identifier at hidentifier
  simp only at hidentifier
  split at hidentifier
  · exact appends_next (appends_next (call_appends hexpr hidentifier))
  · exact appends_next (variableAt_appends hidentifier)

theorem Reaches.look : Reaches rules le s s.look
    (∀ base code, aligned hasOperand base = true →
      s.code = base ++ wordsOf code →
      Emitted rules le (base.length + 1) code →
      s.look.looksLoaded = true →
      ∃ rest type, code = rest ++ [Ins.wide .li type] ∧
        JumpsLand rules.field le (base.length + 1) true rest) := by
  refine (Reaches.record (.look s.code)).imp ?_
  intro right base code haligned hcode emitted loaded
  have hloaded : nextToLast s.code = Op.li.word := by
    simpa [Compiler.looksLoaded, Compiler.look, Compiler.record] using loaded
  rw [hcode] at hloaded
  simp only [Event.right, hcode] at right
  exact emitted.looked haligned hloaded right

theorem Reaches.lookForCast (type : Nat) :
    Reaches rules le s (s.lookForCast type)
      (∀ base code, aligned hasOperand base = true →
        s.code = base ++ wordsOf code →
        Emitted rules le (base.length + 1) code →
        (s.lookForCast type).looksLoaded = true →
        (∃ rest type, code = rest ++ [Ins.wide .li type]) ∨
          s.code.getLast? = some (ofType type)) := by
  refine (Reaches.record (.cast s.code type)).imp ?_
  intro right base code haligned hcode emitted loaded
  have hloaded : nextToLast s.code = Op.li.word := by
    simpa [Compiler.looksLoaded, Compiler.lookForCast, Compiler.record] using loaded
  simp only [Event.right, castRight, hloaded, bne_self_eq_false, Bool.false_or,
    Bool.or_eq_true, beq_iff_eq] at right
  refine right.imp (fun hends => ?_) id
  rw [hcode] at hloaded hends
  exact emitted.endsInLoad haligned hloaded hends

theorem dropLast_load (base : List Word) (code : List Ins) (type : Word) :
    (base ++ wordsOf (code ++ [Ins.wide .li type])).dropLast.dropLast =
      base ++ wordsOf code := by
  rw [wordsOf_append, ← List.append_assoc]
  exact dropLast_append_pair _ _ _

theorem retype_load (base : List Word) (code : List Ins) (type other : Word) :
    (base ++ wordsOf (code ++ [Ins.wide .li type])).dropLast ++ [other] =
      base ++ wordsOf (code ++ [Ins.wide .li other]) := by
  rw [wordsOf_append, wordsOf_append, ← List.append_assoc, ← List.append_assoc]
  simp [Ins.words]

include hexpr in
theorem cast_appends (hcast : s.cast expr = .ok t) : Appends rules le s t := by
  obtain ⟨s₁, hclose, hrest⟩ := bind_ok hcast
  obtain ⟨s₂, hoperand, hrest⟩ := bind_ok hrest
  cases hrest
  generalize htype : typeop .assign s.typeName.1 = type
  generalize hlast : (s₂.lookForCast type).withType s.typeName.1 = s₃
  have hretype : Reaches rules le s₃ (if s₃.looksLoaded = true then
      s₃.retype type else s₃) True := by
    refine .silent ?_ ?_ trivial <;> split <;> first | rfl | exact id
  refine (Reaches.typeName.trans ((Reaches.expect hclose).trans ((hexpr _ _ _ hoperand).trans
    ((Reaches.lookForCast type).trans ((hlast ▸ Reaches.withType _).trans hretype))))).imp ?_
  rintro ⟨htyped, hclosed, hgrows, hlook, -⟩ haligned
  rw [hclosed, htyped] at hgrows
  obtain ⟨code, hcode, emitted⟩ := hgrows haligned
  have hsame : s₃.code = s₂.code := by rw [← hlast]; rfl
  split_ifs with loaded
  · rw [← hlast] at loaded
    rcases hlook s.code code haligned hcode emitted loaded with
      ⟨rest, own, rfl⟩ | hkept
    · refine ⟨rest ++ [Ins.wide .li (ofType type)], ?_, emitted.retype _⟩
      exact (congrArg (·.dropLast ++ [_]) (hsame.trans hcode)).trans
        (retype_load s.code rest own _)
    · refine ⟨code, ?_, emitted⟩
      change s₃.code.dropLast ++ [ofType type] = _
      rw [hsame, List.dropLast_append_getLast? _ hkept, hcode]
  · exact ⟨code, hsame.trans hcode, emitted⟩

include hexpr in
theorem parenthesis_appends (hparen : s.parenthesis expr = .ok t) :
    Appends rules le s t := by
  unfold Compiler.parenthesis at hparen
  simp only at hparen
  split at hparen
  · exact appends_next (cast_appends hexpr hparen)
  · obtain ⟨s₁, hinner, hclose⟩ := bind_ok hparen
    refine ((appends_next (hexpr _ _ _ hinner)).trans (Reaches.expect hclose)).imp ?_
    rintro ⟨hgrows, hsame⟩ haligned
    obtain ⟨code, hcode, emitted⟩ := hgrows haligned
    exact ⟨code, hsame.trans hcode, emitted⟩

include hexpr in
theorem dereference_appends (hderef : s.dereference expr = .ok t) :
    Appends rules le s t := by
  obtain ⟨s₁, hinner, hrest⟩ := bind_ok hderef
  split at hrest
  · refine ((appends_next (hexpr _ _ _ hinner)).trans ((Reaches.record (.deref s₁.code)).trans
      ((Reaches.withType _).trans (Reaches.emit hrest)))).imp ?_
    rintro ⟨hgrows, right, -, hload⟩ haligned
    obtain ⟨code, hcode, emitted⟩ := hgrows haligned
    simp only [Event.right, hcode] at right
    refine ⟨code ++ [Ins.wide .li (ofType (typeop .assign (s₁.ty - PTR)))], ?_,
      emitted.load (emitted.dereferenced haligned right) _⟩
    rw [wordsOf_append, ← List.append_assoc, ← hcode]
    exact hload
  · cases hrest

include hexpr in
theorem addressOf_appends (haddress : s.addressOf expr = .ok t) :
    Appends rules le s t := by
  obtain ⟨s₁, hinner, hrest⟩ := bind_ok haddress
  simp only at hrest
  split at hrest
  · rename_i loaded
    cases hrest
    have hdrop : Reaches rules le s₁.look (s₁.look.dropLoad.withType (s₁.look.ty + PTR)) True :=
      .silent rfl id trivial
    refine ((appends_next (hexpr _ _ _ hinner)).trans (Reaches.look.trans hdrop)).imp ?_
    rintro ⟨hgrows, hlook, -⟩ haligned
    obtain ⟨code, hcode, emitted⟩ := hgrows haligned
    obtain ⟨rest, type, rfl, lands⟩ := hlook s.code code haligned hcode emitted loaded
    refine ⟨rest, ?_, emitted.unload lands⟩
    exact (congrArg (·.dropLast.dropLast) hcode).trans (dropLast_load s.code rest type)
  · cases hrest

include hexpr in
theorem unary_appends {constant : Word} (hop : op.isOperator = true)
    (hunary : s.unary expr op constant = .ok t) : Appends rules le s t := by
  obtain ⟨s₁, hinner, hrest⟩ := bind_ok hunary
  obtain ⟨s₂, hemit, hrest⟩ := bind_ok hrest
  cases hrest
  refine ((appends_next (hexpr _ _ _ hinner)).trans
    ((Reaches.emit hemit).trans (Reaches.withType INT))).imp ?_
  rintro ⟨hgrows, hadded, -⟩ haligned
  obtain ⟨code, hcode, emitted⟩ := hgrows haligned
  refine ⟨_, ?_, emitted.withConstant hop constant⟩
  rw [wordsOf_append, ← List.append_assoc, ← hcode]
  exact hadded

include hexpr in
theorem plus_appends (hplus : s.plus expr = .ok t) : Appends rules le s t := by
  obtain ⟨s₁, hinner, hrest⟩ := bind_ok hplus
  cases hrest
  exact ((appends_next (hexpr _ _ _ hinner)).trans (Reaches.withType INT)).imp And.left

include hexpr in
theorem minus_appends (hminus : s.minus expr = .ok t) :
    Appends rules le s t := by
  unfold Compiler.minus at hminus
  simp only at hminus
  split at hminus
  · obtain ⟨s₁, hemit, hrest⟩ := bind_ok hminus
    cases hrest
    exact (Reaches.next.trans ((Reaches.emit hemit).trans
      (Reaches.next.trans (Reaches.withType INT)))).imp fun holds _ =>
        ⟨[Ins.wide .imm (-s.next.lex.ival)], holds.2.1, Emitted.constant _ _⟩
  · obtain ⟨s₁, hfirst, hrest⟩ := bind_ok hminus
    obtain ⟨s₂, hinner, hrest⟩ := bind_ok hrest
    obtain ⟨s₃, hemit, hrest⟩ := bind_ok hrest
    cases hrest
    refine (Reaches.next.trans ((Reaches.emit hfirst).trans ((hexpr _ _ _ hinner).trans
      ((Reaches.emit hemit).trans (Reaches.withType INT))))).imp ?_
    rintro ⟨-, hpushed, hgrows, hadded, -⟩ haligned
    have hbase : s₁.code = s.code ++ wordsOf [Ins.wide .imm (-1), Ins.plain .psh] := hpushed
    rw [hbase] at hgrows
    obtain ⟨code, hcode, emitted⟩ := hgrows (aligned_behind haligned (by simp [Ins.valid]; decide))
    rw [length_behind] at emitted
    have hproduct : Emitted rules le (s.code.length + 1)
        ([Ins.wide .imm (-1)] ++ Ins.plain .psh :: (code ++ [Ins.plain .mul])) :=
      (Emitted.constant _ (-1)).operate emitted rfl rfl (fun _ => rfl) rfl
    refine ⟨_, ?_, hproduct⟩
    refine hadded.trans ?_
    rw [hcode]
    simp [Ins.words]

theorem keepAddress_ok (hkeep : s.keepAddress = .ok t) :
    t.trace = s.trace ∧
    t.lex = s.lex ∧
    t.ty = s.ty ∧
    t.code =
      s.code.dropLast.dropLast ++
        [Op.psh.word, Op.li.word, s.code.getLastD 0] := by
  unfold Compiler.keepAddress at hkeep
  split at hkeep
  · cases hkeep
    exact ⟨rfl, rfl, rfl, rfl⟩
  · cases hkeep

theorem stepOp_isOperator (token : Token) :
    (Compiler.stepOp token).isOperator = true := by
  unfold Compiler.stepOp
  split <;> rfl

theorem Emitted.step (emitted : Emitted rules le start code)
    (hop : op.isOperator = true) (type amount other : Word) :
    Emitted rules le start (code ++
      [Ins.plain .psh, Ins.wide .li type, Ins.plain .psh, Ins.wide .imm amount,
        Ins.plain op, Ins.wide .si other]) := by
  refine emitted.extend ?_ ?_ rfl ?_
  · refine Piece.still _ ?_ ?_ ?_
    · simp only [List.forall_mem_cons]
      exact ⟨rfl, rfl, rfl, rfl, operator_valid hop, rfl, by simp⟩
    · simp only [List.forall_mem_cons]
      exact ⟨rfl, rfl, rfl, rfl, operator_still hop, rfl, by simp⟩
    · intro depth
      change ((Ins.plain op).flow (depth + 1 + 1)).bind _ = _
      rw [operator_flow hop]
      rfl
  · have hop : Ins.plain op ≠ Ins.plain .psh := by
      rintro same
      cases same
      exact absurd hop (by decide)
    have hstore : Shallow [Ins.wide .imm amount, Ins.plain op, Ins.wide .si other] :=
      .cons (by simp) (.cons hop (.single (by simp)))
    have hload : Shallow ([Ins.wide .li type] ++ Ins.plain .psh :: [Ins.wide .imm amount, Ins.plain
        op, Ins.wide .si other]) := .push (.single (by simp)) (fun _ => rfl) (by simp) hstore
    exact emitted.shallow.push emitted.piece.flows emitted.filled hload
  · exact fun _ => .cons rfl (.cons rfl (.cons rfl (.cons rfl
      (.cons (operator_kept hop) (.cons rfl .nil)))))

theorem stepVariable_continues {token : Token} {message : String}
    (hstep : s.stepVariable token message = .ok t) :
    Continues rules le s t := by
  unfold Compiler.stepVariable at hstep
  simp only at hstep
  split at hstep
  · rename_i loaded
    obtain ⟨s₁, hkeep, hemit⟩ := bind_ok hstep
    obtain ⟨htrace, hlex, hty, hkept⟩ := keepAddress_ok hkeep
    have hsilent : Reaches rules le s.look s₁ True :=
      .silent htrace (fun sound => hlex ▸ sound) trivial
    refine (Reaches.look.trans (hsilent.trans (Reaches.emit hemit))).imp ?_
    rintro ⟨hlook, -, hadded⟩ base code haligned hcode emitted
    obtain ⟨rest, type, rfl, lands⟩ := hlook base code haligned hcode emitted loaded
    refine ⟨_, ?_, (emitted.unload lands).step (stepOp_isOperator token)
      type (ofType (typeop token s₁.ty)) (ofType (typeop .assign s₁.ty))⟩
    have hlast : s.look.code.getLastD 0 = type := by
      rw [show s.look.code = s.code from rfl, hcode, wordsOf_append, ← List.append_assoc]
      simp [Ins.words]
    rw [hadded, hkept, hlast, show s.look.code = s.code from rfl, hcode, dropLast_load]
    simp [Ins.words]
  · cases hstep

include hexpr in
theorem preIncrement_appends (hpre : s.preIncrement expr = .ok t) :
    Appends rules le s t := by
  obtain ⟨s₁, hinner, hrest⟩ := bind_ok hpre
  exact (appends_next (hexpr _ _ _ hinner)).continue (stepVariable_continues hrest)

include hexpr in
theorem operand_appends (hoperand : s.operand expr fuel = .ok t) :
    Appends rules le s t := by
  unfold Compiler.operand at hoperand
  split at hoperand
  · cases hoperand
  · exact number_appends hoperand
  · exact stringLiteral_appends hoperand
  · exact sizeofType_appends hoperand
  · exact identifier_appends hexpr hoperand
  · exact parenthesis_appends hexpr hoperand
  · exact dereference_appends hexpr hoperand
  · exact addressOf_appends hexpr hoperand
  · exact unary_appends hexpr rfl hoperand
  · exact unary_appends hexpr rfl hoperand
  · exact plus_appends hexpr hoperand
  · exact minus_appends hexpr hoperand
  · exact preIncrement_appends hexpr hoperand
  · exact preIncrement_appends hexpr hoperand
  · cases hoperand

end Operands

end PerfProf.Expr
