import PerfProf.Expr.Parse
import PerfProf.Expr.Recognised
import PerfProf.Expr.WellFormed

namespace PerfProf.Expr

namespace Lexer

def Advances (lex next : Lexer) : Prop :=
  next.tk = .eof ∨ next.p.length < lex.p.length

theorem Advances.ite {condition : Prop} [Decidable condition]
    (hyes : Advances lex yes) (hno : Advances lex no) :
    Advances lex (if condition then yes else no) := by
  split
  · exact hyes
  · exact hno

theorem nextName_length (first : Byte) (lex : Lexer) :
    (lex.nextName first).p.length ≤ lex.p.length := by
  unfold nextName
  simp only
  split
  · exact (List.dropWhile_sublist _).length_le
  · exact (List.dropWhile_sublist _).length_le

theorem nextNumber_length (first : Byte) (lex : Lexer) :
    (lex.nextNumber first).p.length ≤ lex.p.length := by
  unfold nextNumber
  split
  · exact (List.dropWhile_sublist _).length_le
  · split
    · exact ((List.dropWhile_sublist _).trans (List.tail_sublist _)).length_le
    · exact (List.dropWhile_sublist _).length_le

theorem scanLiteral_length (quote : Byte) (source : List Byte) (ival : Word)
    (count : Nat) :
    (scanLiteral quote source ival count).1.length ≤ source.length := by
  fun_induction scanLiteral quote source ival count with
  | case1 ival count => exact Nat.le_refl _
  | case2 ival count first rest hend => exact Nat.le_refl _
  | case3 ival count first => exact Nat.zero_le _
  | case4 ival count second rest value hopen ih => exact Nat.le_succ_of_le (Nat.le_succ_of_le ih)
  | case5 ival count first rest hopen hplain ih => exact Nat.le_succ_of_le ih

theorem nextLiteral_length (quote : Byte) (lex : Lexer) :
    (lex.nextLiteral quote).p.length ≤ lex.p.length := by
  have hscanned := Nat.le_trans (List.tail_sublist _).length_le
    (scanLiteral_length quote lex.p lex.ival 0)
  unfold nextLiteral
  simp only
  split
  · exact hscanned
  · exact hscanned

theorem nextLoop_advances (fuel : Nat) (lex : Lexer) :
    Advances lex (lex.nextLoop fuel) := by
  induction fuel generalizing lex with
  | zero => exact .inl rfl
  | succ fuel ih =>
    unfold nextLoop
    split
    · exact .inl rfl
    · rename_i first rest hp
      have hlength : rest.length < lex.p.length := by simp [hp]
      have skipped : ∀ source : List Byte, source.length ≤ rest.length →
          Advances lex (nextLoop fuel { lex with p := source }) := by
        intro source hle
        rcases ih { lex with p := source } with heof | hless
        · exact .inl heof
        · exact .inr (Nat.lt_trans hless (Nat.lt_of_le_of_lt hle hlength))
      apply Advances.ite (.inl rfl)
      apply Advances.ite (skipped rest (Nat.le_refl _))
      apply Advances.ite (skipped _ (List.dropWhile_sublist _).length_le)
      apply Advances.ite (.inr (Nat.lt_of_le_of_lt
        (nextName_length first { lex with p := rest }) hlength))
      apply Advances.ite (.inr (Nat.lt_of_le_of_lt
        (nextNumber_length first { lex with p := rest }) hlength))
      apply Advances.ite
      · exact .ite (skipped _ ((List.dropWhile_sublist _).trans
          (List.tail_sublist _)).length_le) (.inr hlength)
      · apply Advances.ite (.inr (Nat.lt_of_le_of_lt
          (nextLiteral_length first { lex with p := rest }) hlength))
        split
        · exact .inr (Nat.lt_of_le_of_lt (List.tail_sublist _).length_le hlength)
        · exact .inr hlength
        · exact skipped rest (Nat.le_refl _)

theorem next_advances (lex : Lexer) : Advances lex lex.next :=
  nextLoop_advances _ lex

def tokensFrom : Nat → Lexer → List Token
  | 0, _ => []
  | fuel + 1, lex =>
    if lex.tk = .eof then [] else lex.tk :: tokensFrom fuel lex.next

def tokens (lex : Lexer) : List Token := lex.tokensFrom (lex.p.length + 1)

variable {lex : Lexer}

theorem tokensFrom_of_eof (fuel : Nat) (heof : lex.tk = .eof) :
    lex.tokensFrom fuel = [] := by
  cases fuel with
  | zero => rfl
  | succ fuel => exact if_pos heof

theorem tokensFrom_eq (hfuel : lex.p.length < fuel)
    (hother : lex.p.length < other) :
    lex.tokensFrom fuel = lex.tokensFrom other := by
  induction fuel generalizing lex other with
  | zero => exact absurd hfuel (Nat.not_lt_zero _)
  | succ fuel ih =>
    obtain ⟨other, rfl⟩ := Nat.exists_eq_add_one_of_ne_zero (Nat.ne_zero_of_lt hother)
    have hnext : lex.next.tokensFrom fuel = lex.next.tokensFrom other := by
      rcases lex.next_advances with heof | hless
      · rw [tokensFrom_of_eof _ heof, tokensFrom_of_eof _ heof]
      · exact ih (by omega) (by omega)
    rw [tokensFrom, tokensFrom, hnext]

theorem tokens_cons (hmore : lex.tk ≠ .eof) :
    lex.tokens = lex.tk :: lex.next.tokens := by
  unfold tokens
  rw [tokensFrom, if_neg hmore]
  rcases lex.next_advances with heof | hless
  · rw [tokensFrom_of_eof _ heof, tokensFrom_of_eof _ heof]
  · rw [tokensFrom_eq hless (Nat.lt_succ_self _)]

theorem tokensFrom_forget (fuel : Nat) (lex : Lexer) :
    lex.forget.tokensFrom fuel = lex.tokensFrom fuel := by
  induction fuel generalizing lex with
  | zero => rfl
  | succ fuel ih =>
    rw [tokensFrom, tokensFrom, ← next_forget, ih]
    rfl

end Lexer

namespace Compiler

def Shows (s : Compiler) (r : Reader) : Prop := s.lex.tokens = r.rest

variable {s t : Compiler} {r : Reader} {token : Token}

theorem Shows.tk (shows_ : s.Shows r) : s.tk = r.tk := by
  unfold Shows at shows_
  unfold Reader.tk
  rw [← shows_]
  by_cases heof : s.lex.tk = .eof
  · rw [Lexer.tokens, Lexer.tokensFrom_of_eof _ heof]
    exact heof
  · rw [Lexer.tokens_cons heof]
    rfl

theorem Shows.next (shows_ : s.Shows r) (htk : s.tk = token)
    (hne : token ≠ .eof) : s.next.Shows r.next := by
  have hcons := @Lexer.tokens_cons s.lex (htk.trans_ne hne)
  rw [shows_] at hcons
  unfold Shows Reader.next
  rw [hcons]
  rfl

theorem Shows.keep (shows_ : s.Shows r) (hkept : t.Follows s.lex) :
    t.Shows r := by
  unfold Shows Lexer.tokens at *
  have hp : t.lex.forget.p = s.lex.forget.p := congrArg Lexer.p hkept
  rw [Lexer.forget_p, Lexer.forget_p] at hp
  rw [← shows_, ← Lexer.tokensFrom_forget, hkept, Lexer.tokensFrom_forget, hp]

theorem Shows.of_lex (shows_ : s.Shows r) (hlex : t.lex = s.lex) : t.Shows r :=
  shows_.keep (congrArg Lexer.forget hlex)

variable {fuel : Nat}

theorem Shows.emit (shows_ : s.Shows r) (hemit : s.emit words = .ok t) :
    t.Shows r := by
  rw [emit_ok hemit]
  exact shows_

theorem Shows.expect (shows_ : s.Shows r) (hne : token ≠ .eof)
    (hok : s.expect token message = .ok t) :
    ∃ r', r.expect token = some r' ∧ t.Shows r' := by
  unfold Compiler.expect at hok
  split at hok
  · rename_i htk
    cases hok
    exact ⟨r.next, if_pos (shows_.tk.symm.trans htk), shows_.next htk hne⟩
  · cases hok

theorem Shows.skip (hne : token ≠ .eof) (shows_ : s.Shows r)
    (enough : s.tk = token → s.lex.p.length < fuel) :
    (skipToken token fuel s).Shows (r.skip token) := by
  induction fuel generalizing s r with
  | zero =>
    have hother : s.tk ≠ token := fun htk => Nat.not_lt_zero _ (enough htk)
    rw [Reader.skip_of_ne (shows_.tk ▸ hother)]
    exact shows_
  | succ fuel ih =>
    rw [skipToken]
    split
    · rename_i htk
      rw [Reader.skip_of_eq (shows_.tk.symm.trans htk) hne]
      refine ih (shows_.next htk hne) fun hagain => ?_
      rcases s.lex.next_advances with heof | hless
      · exact absurd (hagain.symm.trans heof) hne
      · have hbound := enough htk
        exact Nat.lt_of_lt_of_le hless (Nat.le_of_lt_succ hbound)
    · rename_i hother
      rw [Reader.skip_of_ne (shows_.tk ▸ hother)]
      exact shows_

theorem Shows.typeName (shows_ : s.Shows r) (htk : s.tk = .int) :
    s.typeName.2.Shows r.typeName := by
  have hnext := shows_.next htk (by decide)
  unfold Compiler.typeName Reader.typeName
  simp only
  rw [← hnext.tk]
  split
  · rename_i hsecond
    rw [stars_eq]
    exact (hnext.next hsecond (by decide)).skip (by decide) fun _ => Nat.lt_succ_self _
  · rw [stars_eq]
    exact hnext.skip (by decide) fun _ => Nat.lt_succ_self _

def Reads (s t : Compiler) (walk : Reader → Option Reader) : Prop :=
  ∀ r, s.Shows r → ∃ r', walk r = some r' ∧ t.Shows r'

theorem emit_lex (hemit : s.emit words = .ok t) : t.lex = s.lex := by
  rw [emit_ok hemit]

theorem emit_tk (hemit : s.emit words = .ok t) : t.tk = s.tk :=
  congrArg Lexer.tk (emit_lex hemit)

theorem number_reads (htk : s.tk = .num) (hok : s.number = .ok t) :
    Reads s t fun r => some r.next := by
  intro r shows_
  obtain ⟨s₁, hemit, hrest⟩ := bind_ok hok
  cases hrest
  exact ⟨r.next, rfl, (shows_.emit hemit).next ((emit_tk hemit).trans htk) (by decide)⟩

theorem stringLiteral_reads (htk : s.tk = .quote)
    (hok : s.stringLiteral = .ok t) :
    Reads s t fun r => some (r.skip .quote) := by
  intro r shows_
  obtain ⟨s₁, hemit, hrest⟩ := bind_ok hok
  cases hrest
  have hnext := (shows_.emit hemit).next ((emit_tk hemit).trans htk) (by decide)
  refine ⟨r.skip .quote, rfl, ?_⟩
  rw [Reader.skip_of_eq (shows_.tk.symm.trans htk) (by decide)]
  have hskip : (skipToken .quote (s₁.next.lex.p.length + 1) s₁.next).Shows (r.next.skip .quote) :=
    hnext.skip (by decide) fun _ => Nat.lt_succ_self _
  rw [← skipStrings_eq] at hskip
  exact hskip

theorem sizeofType_reads (htk : s.tk = .sizeof) (hok : s.sizeofType = .ok t) :
    Reads s t Reader.sizeofType := by
  intro r shows_
  obtain ⟨s₁, hopen, hrest⟩ := bind_ok hok
  obtain ⟨r₁, hr₁, shows₁⟩ := (shows_.next htk (by decide)).expect (by decide) hopen
  split at hrest
  · rename_i hint
    obtain ⟨s₂, hclose, hrest⟩ := bind_ok hrest
    obtain ⟨s₃, hemit, hrest⟩ := bind_ok hrest
    cases hrest
    obtain ⟨r₂, hr₂, shows₂⟩ := (shows₁.typeName hint).expect (by decide) hclose
    refine ⟨r₂, ?_, (shows₂.emit hemit).of_lex rfl⟩
    rw [Reader.sizeofType, hr₁]
    exact (if_pos (shows₁.tk.symm.trans hint)).trans hr₂
  · cases hrest

variable {expr : Token → Compiler → Compiled}
  {walk : Level → Reader → Option Reader}

def Simulated (expr : Token → Compiler → Compiled)
    (walk : Level → Reader → Option Reader) : Prop :=
  ∀ (level : Level) s t, expr level.token s = .ok t → Reads s t (walk level)

theorem arguments_reads (simulated : Simulated expr walk)
    (hok : s.arguments expr fuel count = .ok given) :
    Reads s given.2 (Reader.arguments walk fuel) ∧ given.2.tk = .rparen := by
  induction fuel generalizing s count with
  | zero => cases hok
  | succ fuel ih =>
    unfold Compiler.arguments at hok
    split at hok
    · rename_i hend
      cases hok
      refine ⟨fun r shows_ => ⟨r, ?_, shows_⟩, hend⟩
      exact if_pos (shows_.tk.symm.trans hend)
    · rename_i hopen
      obtain ⟨s₁, hfirst, hrest⟩ := bind_ok hok
      obtain ⟨s₂, hemit, hrest⟩ := bind_ok hrest
      obtain ⟨hmore, hend⟩ := ih hrest
      refine ⟨fun r shows_ => ?_, hend⟩
      obtain ⟨r₁, hr₁, shows₁⟩ := simulated .assign s s₁ hfirst r shows_
      have shows₂ := shows₁.emit hemit
      have hseparated : (if s₂.tk = .comma then s₂.next else s₂).Shows r₁.separated := by
        unfold Reader.separated
        rw [← shows₂.tk]
        split_ifs with hcomma
        · exact shows₂.next hcomma (by decide)
        · exact shows₂
      obtain ⟨last, hlast, shows₃⟩ := hmore _ hseparated
      refine ⟨last, ?_, shows₃⟩
      rw [Reader.arguments, if_neg (shows_.tk ▸ hopen), hr₁]
      exact hlast

theorem adjust_lex (hok : s.adjust count = .ok t) : t.lex = s.lex := by
  unfold Compiler.adjust at hok
  split at hok
  · cases hok
    rfl
  · rw [emit_ok hok]

theorem called_follows (hemit : s.emit words = .ok t)
    (hadjust : (t.refer index).adjust count = .ok u) : u.Follows s.lex := by
  unfold Follows
  rw [adjust_lex hadjust, ← emit_lex hemit]
  exact Follows.refer rfl index

theorem callFunction_follows (hok : s.callFunction index count = .ok t) :
    t.Follows s.lex := by
  unfold Compiler.callFunction at hok
  split at hok
  · split at hok
    case h_3 => cases hok
    all_goals
      obtain ⟨s₁, hemit, hrest⟩ := bind_ok hok
      obtain ⟨s₂, hadjust, hrest⟩ := bind_ok hrest
      cases hrest
      have hfollows := called_follows hemit hadjust
      exact hfollows
  · cases hok

theorem loadVariable_follows (hok : s.loadVariable type index = .ok t) :
    t.Follows s.lex := by
  have hrefer : (s.refer index).Follows s.lex := Follows.refer rfl index
  unfold Compiler.loadVariable at hok
  simp only at hok
  split at hok
  · cases hok
    exact hrefer
  · obtain ⟨s₁, hemit, hrest⟩ := bind_ok hok
    cases hrest
    rw [emit_ok hemit]
    exact hrefer

theorem variableAt_follows (hok : s.variableAt index = .ok t) :
    t.Follows s.lex := by
  unfold Compiler.variableAt at hok
  split at hok
  · split at hok
    case h_1 =>
      obtain ⟨s₁, hemit, hrest⟩ := bind_ok hok
      cases hrest
      rw [emit_ok hemit]
      rfl
    case h_4 => cases hok
    all_goals
      obtain ⟨s₁, hemit, hrest⟩ := bind_ok hok
      rw [← emit_lex hemit]
      exact loadVariable_follows hrest
  · cases hok

section

variable (simulated : Simulated expr walk)

include simulated

theorem identifier_reads (htk : s.tk = .id)
    (hok : s.identifier expr fuel = .ok t) :
    Reads s t (Reader.identifier walk fuel) := by
  intro r shows_
  have hnext := shows_.next htk (by decide)
  unfold Compiler.identifier at hok
  unfold Reader.identifier
  simp only at hok ⊢
  rw [← hnext.tk]
  split at hok
  · rename_i hopen
    obtain ⟨given, harguments, hcall⟩ := bind_ok hok
    obtain ⟨hreads, hend⟩ := arguments_reads simulated harguments
    obtain ⟨last, hlast, shows₁⟩ := hreads _ (hnext.next hopen (by decide))
    refine ⟨last.next, ?_, (shows₁.next hend (by decide)).keep (callFunction_follows hcall)⟩
    rw [if_pos hopen, Reader.call, hlast]
    rfl
  · rename_i hvariable
    refine ⟨r.next, if_neg hvariable, hnext.keep (variableAt_follows hok)⟩

theorem parenthesis_reads (htk : s.tk = .lparen)
    (hok : s.parenthesis expr = .ok t) :
    Reads s t (Reader.parenthesis walk) := by
  intro r shows_
  have hnext := shows_.next htk (by decide)
  unfold Compiler.parenthesis at hok
  unfold Reader.parenthesis
  simp only at hok ⊢
  rw [← hnext.tk]
  split at hok
  · rename_i hint
    obtain ⟨s₁, hclose, hrest⟩ := bind_ok hok
    obtain ⟨s₂, hinner, hrest⟩ := bind_ok hrest
    obtain ⟨r₁, hr₁, shows₁⟩ := (hnext.typeName hint).expect (by decide) hclose
    obtain ⟨r₂, hr₂, shows₂⟩ := simulated .unary _ _ hinner _ shows₁
    refine ⟨r₂, ?_, shows₂.of_lex ?_⟩
    · rw [if_pos hint, Reader.cast, hr₁]
      exact hr₂
    · have hlex := Except.ok.inj hrest
      rw [← hlex]
      split <;> rfl
  · rename_i hopen
    obtain ⟨s₁, hinner, hclose⟩ := bind_ok hok
    obtain ⟨r₁, hr₁, shows₁⟩ := simulated .assign _ _ hinner _ hnext
    obtain ⟨r₂, hr₂, shows₂⟩ := shows₁.expect (by decide) hclose
    refine ⟨r₂, ?_, shows₂⟩
    rw [if_neg hopen, hr₁]
    exact hr₂

end

theorem keepAddress_lex (hok : s.keepAddress = .ok t) : t.lex = s.lex := by
  unfold Compiler.keepAddress at hok
  split at hok
  · cases hok
    rfl
  · cases hok

theorem stepVariable_lex (hok : s.stepVariable token message = .ok t) :
    t.lex = s.lex := by
  unfold Compiler.stepVariable at hok
  simp only at hok
  split at hok
  · obtain ⟨s₁, hkeep, hrest⟩ := bind_ok hok
    rw [emit_lex hrest, keepAddress_lex hkeep]
    rfl
  · cases hok

theorem emitJump_lex (hok : s.emitJump op = .ok t) : t.lex = s.lex :=
  emit_lex hok

theorem scaled_lex (hok : s.scaled token type = .ok t) : t.lex = s.lex := by
  unfold Compiler.scaled at hok
  split at hok
  · exact emit_lex hok
  · cases hok
    rfl

section

variable (simulated : Simulated expr walk) (htk : s.tk = token)
  (hne : token ≠ .eof)

include simulated htk hne

theorem Simulated.behind (level : Level) (hok : expr level.token s₁ = .ok t)
    (hbefore : s₁.lex = s.next.lex) (hbehind : u.lex = t.lex) :
    Reads s u fun r => walk level r.next := by
  intro r shows_
  obtain ⟨r₁, hr₁, shows₁⟩ :=
    simulated level _ _ hok _ ((shows_.next htk hne).of_lex hbefore)
  exact ⟨r₁, hr₁, shows₁.of_lex hbehind⟩

theorem Simulated.unary (hok : expr Token.inc s.next = .ok t)
    (hlex : u.lex = t.lex) : Reads s u fun r => walk .unary r.next :=
  simulated.behind htk hne .unary hok rfl hlex

theorem dereference_reads (hok : s.dereference expr = .ok t) :
    Reads s t fun r => walk .unary r.next := by
  obtain ⟨s₁, hinner, hrest⟩ := bind_ok hok
  split at hrest
  · have hlex := emit_lex hrest
    exact simulated.unary htk hne hinner hlex
  · cases hrest

theorem addressOf_reads (hok : s.addressOf expr = .ok t) :
    Reads s t fun r => walk .unary r.next := by
  obtain ⟨s₁, hinner, hrest⟩ := bind_ok hok
  simp only at hrest
  split at hrest
  · cases hrest
    exact simulated.unary htk hne hinner rfl
  · cases hrest

theorem unary_reads (hok : s.unary expr op constant = .ok t) :
    Reads s t fun r => walk .unary r.next := by
  obtain ⟨s₁, hinner, hrest⟩ := bind_ok hok
  obtain ⟨s₂, hemit, hrest⟩ := bind_ok hrest
  cases hrest
  have hlex := emit_lex hemit
  exact simulated.unary htk hne hinner hlex

theorem plus_reads (hok : s.plus expr = .ok t) :
    Reads s t fun r => walk .unary r.next := by
  obtain ⟨s₁, hinner, hrest⟩ := bind_ok hok
  cases hrest
  exact simulated.unary htk hne hinner rfl

theorem preIncrement_reads (hok : s.preIncrement expr = .ok t) :
    Reads s t fun r => walk .unary r.next := by
  obtain ⟨s₁, hinner, hrest⟩ := bind_ok hok
  exact simulated.unary htk hne hinner (stepVariable_lex hrest)

theorem assignment_reads (hok : s.assignment expr = .ok t) :
    Reads s t fun r => walk .assign r.next := by
  unfold Compiler.assignment at hok
  simp only at hok
  split at hok
  · obtain ⟨s₁, hright, hrest⟩ := bind_ok hok
    have hlex := emit_lex hrest
    exact simulated.behind htk hne .assign hright rfl hlex
  · cases hok

theorem shortCircuit_reads (level : Level)
    (hok : s.shortCircuit expr le jump level.token = .ok t) :
    Reads s t fun r => walk level r.next := by
  obtain ⟨s₁, hjump, hrest⟩ := bind_ok hok
  obtain ⟨s₂, hright, hrest⟩ := bind_ok hrest
  cases hrest
  exact simulated.behind htk hne level hright (emitJump_lex hjump) rfl

theorem binary_reads {op : Nat → Nat → Op} (level : Level)
    (hok : s.binary expr level.token op = .ok t) :
    Reads s t fun r => walk level r.next := by
  obtain ⟨s₁, hpush, hrest⟩ := bind_ok hok
  obtain ⟨s₂, hright, hrest⟩ := bind_ok hrest
  obtain ⟨s₃, hemit, hrest⟩ := bind_ok hrest
  cases hrest
  have hlex := emit_lex hemit
  exact simulated.behind htk hne level hright (emit_lex hpush) hlex

theorem wildcardMatch_reads (hok : s.wildcardMatch expr = .ok t) :
    Reads s t fun r => walk .shift r.next := by
  unfold Compiler.wildcardMatch at hok
  split at hok
  · obtain ⟨s₁, hpush, hrest⟩ := bind_ok hok
    obtain ⟨s₂, hright, hrest⟩ := bind_ok hrest
    split at hrest
    · obtain ⟨s₃, hemit, hrest⟩ := bind_ok hrest
      cases hrest
      have hlex := emit_lex hemit
      exact simulated.behind htk hne .shift hright (emit_lex hpush) hlex
    · cases hrest
  · cases hok

theorem addition_reads (hok : s.addition expr = .ok t) :
    Reads s t fun r => walk .product r.next := by
  obtain ⟨s₁, hpush, hrest⟩ := bind_ok hok
  obtain ⟨s₂, hright, hrest⟩ := bind_ok hrest
  obtain ⟨s₃, hscaled, hrest⟩ := bind_ok hrest
  have hlex := (emit_lex hrest).trans (scaled_lex hscaled)
  exact simulated.behind htk hne .product hright (emit_lex hpush) hlex

theorem subtraction_reads (hok : s.subtraction expr = .ok t) :
    Reads s t fun r => walk .product r.next := by
  obtain ⟨s₁, hpush, hrest⟩ := bind_ok hok
  obtain ⟨s₂, hright, hrest⟩ := bind_ok hrest
  have hlex : t.lex = s₂.lex := by
    split at hrest
    · obtain ⟨s₃, hemit, hrest⟩ := bind_ok hrest
      cases hrest
      have hsame := emit_lex hemit
      exact hsame
    · obtain ⟨s₃, hscaled, hrest⟩ := bind_ok hrest
      have hsame := scaled_lex hscaled
      exact (emit_lex hrest).trans hsame
  exact simulated.behind htk hne .product hright (emit_lex hpush) hlex

end

theorem minus_reads (simulated : Simulated expr walk) (htk : s.tk = .sub)
    (hok : s.minus expr = .ok t) : Reads s t (Reader.minus walk) := by
  intro r shows_
  have hnext := shows_.next htk (by decide)
  unfold Compiler.minus at hok
  unfold Reader.minus
  simp only at hok ⊢
  rw [← hnext.tk]
  split_ifs at hok with hnum
  · obtain ⟨s₁, hemit, hrest⟩ := bind_ok hok
    cases hrest
    exact ⟨r.next.next, if_pos hnum,
      (hnext.emit hemit).next ((emit_tk hemit).trans hnum) (by decide)⟩
  · obtain ⟨s₁, hemit, hrest⟩ := bind_ok hok
    obtain ⟨s₂, hinner, hrest⟩ := bind_ok hrest
    obtain ⟨s₃, hmul, hrest⟩ := bind_ok hrest
    cases hrest
    obtain ⟨r₁, hr₁, shows₁⟩ := simulated .unary _ _ hinner _ (hnext.emit hemit)
    exact ⟨r₁, (if_neg hnum).trans hr₁, (shows₁.emit hmul).of_lex rfl⟩

theorem operand_reads (simulated : Simulated expr walk)
    (hok : s.operand expr fuel = .ok t) :
    Reads s t (Reader.operand walk fuel) := by
  intro r shows_
  unfold Compiler.operand at hok
  unfold Reader.operand
  rw [← shows_.tk]
  cases htk : s.tk <;> rw [htk] at hok
  case num => exact number_reads htk hok r shows_
  case quote => exact stringLiteral_reads htk hok r shows_
  case sizeof => exact sizeofType_reads htk hok r shows_
  case id => exact identifier_reads simulated htk hok r shows_
  case lparen => exact parenthesis_reads simulated htk hok r shows_
  case sub => exact minus_reads simulated htk hok r shows_
  case mul => exact dereference_reads simulated htk (by decide) hok r shows_
  case and => exact addressOf_reads simulated htk (by decide) hok r shows_
  case not => exact unary_reads simulated htk (by decide) hok r shows_
  case wildcard => exact unary_reads simulated htk (by decide) hok r shows_
  case add => exact plus_reads simulated htk (by decide) hok r shows_
  case inc => exact preIncrement_reads simulated htk (by decide) hok r shows_
  case dec => exact preIncrement_reads simulated htk (by decide) hok r shows_
  all_goals cases hok

theorem conditional_reads (simulated : Simulated expr walk) (htk : s.tk = .cond)
    (hok : s.conditional expr le = .ok t) :
    Reads s t (Reader.conditional walk) := by
  intro r shows_
  obtain ⟨s₁, hbz, hrest⟩ := bind_ok hok
  obtain ⟨s₂, hyes, hrest⟩ := bind_ok hrest
  obtain ⟨s₃, hcolon, hrest⟩ := bind_ok hrest
  obtain ⟨s₄, hjmp, hrest⟩ := bind_ok hrest
  obtain ⟨s₅, hno, hrest⟩ := bind_ok hrest
  cases hrest
  have shows₁ := (shows_.next htk (by decide)).of_lex (emitJump_lex hbz)
  obtain ⟨r₂, hr₂, shows₂⟩ := simulated .assign _ _ hyes _ shows₁
  obtain ⟨r₃, hr₃, shows₃⟩ := shows₂.expect (by decide) hcolon
  have hlex := emitJump_lex hjmp
  obtain ⟨r₅, hr₅, shows₅⟩ := simulated .cond _ _ hno _ (shows₃.of_lex hlex)
  refine ⟨r₅, ?_, shows₅.of_lex rfl⟩
  rw [Reader.conditional, hr₂]
  change (r₂.expect .colon >>= _) = _
  rw [hr₃]
  exact hr₅

theorem postIncrement_reads (htk : s.tk = token) (hne : token ≠ .eof)
    (hok : s.postIncrement = .ok t) : Reads s t fun r => some r.next := by
  intro r shows_
  obtain ⟨s₁, hstep, hrest⟩ := bind_ok hok
  obtain ⟨s₂, hemit, hrest⟩ := bind_ok hrest
  cases hrest
  have hlex := (emit_lex hemit).trans (stepVariable_lex hstep)
  exact ⟨r.next, rfl, (shows_.of_lex hlex).next ((congrArg Lexer.tk hlex).trans htk) hne⟩

theorem subscript_reads (simulated : Simulated expr walk) (htk : s.tk = .brak)
    (hok : s.subscript expr = .ok t) : Reads s t (Reader.subscript walk) := by
  intro r shows_
  obtain ⟨s₁, hpush, hrest⟩ := bind_ok hok
  obtain ⟨s₂, hindex, hrest⟩ := bind_ok hrest
  obtain ⟨s₃, hclose, hrest⟩ := bind_ok hrest
  have shows₁ := (shows_.next htk (by decide)).emit hpush
  obtain ⟨r₂, hr₂, shows₂⟩ := simulated .assign _ _ hindex _ shows₁
  obtain ⟨r₃, hr₃, shows₃⟩ := shows₂.expect (by decide) hclose
  split at hrest
  · cases hrest
  · obtain ⟨s₄, hscaled, hrest⟩ := bind_ok hrest
    have hlex : t.lex = s₄.lex := emit_lex (s := s₄.withType (s.ty - PTR)) hrest
    refine ⟨r₃, ?_, shows₃.of_lex (hlex.trans (scaled_lex hscaled))⟩
    rw [Reader.subscript, hr₂]
    exact hr₃

theorem operator_reads (simulated : Simulated expr walk)
    (hok : s.operator expr le = .ok t) : Reads s t (Reader.operator walk) := by
  intro r shows_
  unfold Compiler.operator at hok
  unfold Reader.operator
  rw [← shows_.tk]
  cases htk : s.tk <;> rw [htk] at hok
  case assign => exact assignment_reads simulated htk (by decide) hok r shows_
  case cond => exact conditional_reads simulated htk hok r shows_
  case inc => exact postIncrement_reads htk (by decide) hok r shows_
  case dec => exact postIncrement_reads htk (by decide) hok r shows_
  case brak => exact subscript_reads simulated htk hok r shows_
  case wildcard => exact wildcardMatch_reads simulated htk (by decide) hok r shows_
  case add => exact addition_reads simulated htk (by decide) hok r shows_
  case sub => exact subtraction_reads simulated htk (by decide) hok r shows_
  case lor => exact shortCircuit_reads simulated htk (by decide) .lan hok r shows_
  case lan => exact shortCircuit_reads simulated htk (by decide) .or hok r shows_
  case or => exact binary_reads simulated htk (by decide) .xor hok r shows_
  case xor => exact binary_reads simulated htk (by decide) .and hok r shows_
  case and => exact binary_reads simulated htk (by decide) .eq hok r shows_
  case eq | ne => exact binary_reads simulated htk (by decide) .relation hok r shows_
  case lt | gt | le | ge =>
    exact binary_reads simulated htk (by decide) .shift hok r shows_
  case shl | shr => exact binary_reads simulated htk (by decide) .sum hok r shows_
  case mul | div | mod =>
    exact binary_reads simulated htk (by decide) .unary hok r shows_
  all_goals cases hok

theorem climb_reads (simulated : Simulated expr walk) (level : Level)
    (hok : s.climb expr le level.token fuel = .ok t) :
    Reads s t (Reader.climb walk level fuel) := by
  induction fuel generalizing s with
  | zero =>
    intro r shows_
    rw [Compiler.climb] at hok
    rw [Reader.climb, ← shows_.tk]
    split at hok
    · cases hok
    · rename_i hend
      cases hok
      exact ⟨r, if_neg hend, shows_⟩
  | succ fuel ih =>
    intro r shows_
    rw [Compiler.climb] at hok
    rw [Reader.climb, ← shows_.tk]
    split at hok
    · rename_i hmore
      obtain ⟨s₁, hoperator, hrest⟩ := bind_ok hok
      obtain ⟨r₁, hr₁, shows₁⟩ := operator_reads simulated hoperator r shows_
      obtain ⟨r₂, hr₂, shows₂⟩ := ih hrest r₁ shows₁
      refine ⟨r₂, ?_, shows₂⟩
      rw [Level.code, if_pos hmore, hr₁]
      exact hr₂
    · rename_i hend
      cases hok
      exact ⟨r, if_neg hend, shows_⟩

theorem expr_simulated (le : Word) (fuel : Nat) :
    Simulated (Compiler.expr le fuel) (Reader.expr fuel) := by
  induction fuel with
  | zero =>
    intro level s t hok
    cases hok
  | succ fuel ih =>
    intro level s t hok r shows_
    obtain ⟨s₁, hoperand, hclimb⟩ := bind_ok hok
    obtain ⟨r₁, hr₁, shows₁⟩ := operand_reads ih hoperand r shows_
    obtain ⟨r₂, hr₂, shows₂⟩ := climb_reads ih level hclimb r₁ shows₁
    refine ⟨r₂, ?_, shows₂⟩
    rw [Reader.expr, hr₁]
    exact hr₂

theorem exprs_reads (hok : s.exprs le fuel = .ok t) :
    Reads s.next t (Reader.exprs fuel) := by
  induction fuel generalizing s with
  | zero => cases hok
  | succ fuel ih =>
    intro r shows_
    obtain ⟨s₁, hfirst, hrest⟩ := bind_ok hok
    obtain ⟨r₁, hr₁, shows₁⟩ := expr_simulated le fuel .assign _ _ hfirst r shows_
    rw [Reader.exprs, hr₁]
    change ∃ r', (if r₁.tk = .comma then _ else _) = _ ∧ _
    rw [← shows₁.tk]
    split at hrest
    · rename_i hcomma
      rw [if_pos hcomma]
      exact ih hrest _ (shows₁.next hcomma (by decide))
    · rename_i hend
      cases hrest
      exact ⟨r₁, if_neg hend, shows₁⟩

end Compiler

def sourceTokens (alloc : Alloc) (sampleGlo : Bool) (declares : List Declare)
    (source : List Byte) : List Token :=
  match symbols alloc sampleGlo declares with
  | .ok lex => Lexer.tokens (Lexer.next { lex with p := source })
  | .error _ => []

/-- The way of `expr()` along the tokens ends where they end, and each argument
on it is followed by `)`, or by a comma and another argument. -/
def Orderly (tokens : List Token) : Prop :=
  ∃ fuel, Reader.exprs fuel ⟨tokens, true⟩ = some ⟨[], true⟩

theorem compile_reads
    (accepted : compile fuel alloc sampleGlo declares source = .ok program)
    (orderly : Bool) :
    ∃ r, Reader.exprs fuel
      ⟨sourceTokens alloc sampleGlo declares source, orderly⟩ = some r := by
  obtain ⟨lex, hsymbols, hrest⟩ := bind_ok accepted
  obtain ⟨s, hexprs, -⟩ := bind_ok hrest
  obtain ⟨r, hr, -⟩ := Compiler.exprs_reads hexprs
    ⟨sourceTokens alloc sampleGlo declares source, orderly⟩ (by
      unfold Compiler.Shows sourceTokens
      rw [hsymbols]
      rfl)
  exact ⟨r, hr⟩

/-- A text that is accepted is a sentence of the grammar exactly when nothing is
left over and all arguments are separated by commas. -/
theorem accepted_sentence_iff {fuel : Nat} {alloc : Alloc} {sampleGlo : Bool}
    {declares : List Declare} {source : List Byte} {program : Prog × List Event}
    (accepted : compile fuel alloc sampleGlo declares source = .ok program) :
    Sentence (sourceTokens alloc sampleGlo declares source) ↔
      Orderly (sourceTokens alloc sampleGlo declares source) := by
  constructor
  · intro sentence
    obtain ⟨r, hread⟩ := compile_reads accepted true
    rw [Reader.exprs_complete sentence hread] at hread
    exact ⟨fuel, hread⟩
  · rintro ⟨rounds, hread⟩
    obtain ⟨-, tokens, sentence, htokens⟩ := Reader.exprs_sound hread rfl
    rw [List.append_nil] at htokens
    rw [← htokens] at sentence
    exact sentence

theorem accepted_sentence_iff_call :
    ∃ program, compile 20 plainAlloc false plainDeclares
        (text "strncmp(p, q, 2) ? c : -1") = .ok program ∧
      Sentence (sourceTokens plainAlloc false plainDeclares
        (text "strncmp(p, q, 2) ? c : -1")) := by
  have hview : (compile 20 plainAlloc false plainDeclares
      (text "strncmp(p, q, 2) ? c : -1")).toOption.map (fun _ => true) =
        some true := by
    decide +kernel
  obtain ⟨program, hcompile, -⟩ := ok_of_view hview
  refine ⟨program, hcompile, (accepted_sentence_iff hcompile).mpr ⟨20, ?_⟩⟩
  decide +kernel

def AcceptedAstray (source : List Byte) : Prop :=
  (∃ program, compile 20 plainAlloc false plainDeclares source = .ok program) ∧
    ¬ Sentence (sourceTokens plainAlloc false plainDeclares source)

theorem AcceptedAstray.of_reads
    (hview : (compile 20 plainAlloc false plainDeclares source).toOption.map
      (fun _ => true) = some true)
    (hastray : Reader.exprs 20
      ⟨sourceTokens plainAlloc false plainDeclares source, true⟩ ≠
      some ⟨[], true⟩) :
    AcceptedAstray source := by
  obtain ⟨program, hcompile, -⟩ := ok_of_view hview
  refine ⟨⟨program, hcompile⟩, fun sentence => ?_⟩
  obtain ⟨r, hread⟩ := compile_reads hcompile true
  rw [Reader.exprs_complete sentence hread] at hread
  exact hastray hread

/-- Text behind the expression, arguments without a comma and a comma without an
argument are all accepted. -/
theorem leftover_accepted :
    AcceptedAstray (text "1 2") ∧ AcceptedAstray (text "ntohl(1 2)") ∧
      AcceptedAstray (text "ntohl(1,)") :=
  ⟨.of_reads (by decide +kernel) (by decide +kernel),
    .of_reads (by decide +kernel) (by decide +kernel),
    .of_reads (by decide +kernel) (by decide +kernel)⟩

end PerfProf.Expr
