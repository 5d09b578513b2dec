import PerfProf.Expr.Sentence

namespace PerfProf.Expr

def Follows (level : Level) (after : List Token) : Prop :=
  (after.headD .eof).closes = true ∧ (after.headD .eof).code < level.bound

namespace Follows

theorem weaken (follows : Follows low after) (hle : low.code ≤ high.code) :
    Follows high after :=
  ⟨follows.1, Nat.lt_of_lt_of_le follows.2 (Level.bound_mono hle)⟩

theorem ne_of_closes (follows : Follows level after)
    (hopen : token.closes = false) : after.headD .eof ≠ token := by
  intro hsame
  have hcloses := follows.1
  rw [hsame, hopen] at hcloses
  cases hcloses

theorem of_token (hcloses : token.closes = true)
    (hcode : token.code < level.bound) : Follows level (token :: after) :=
  ⟨hcloses, hcode⟩

theorem of_mark (hcloses : token.closes = true) (hcode : token.code < 136) :
    Follows level (token :: after) := by
  refine ⟨hcloses, Nat.lt_of_lt_of_le hcode ?_⟩
  cases level <;> decide

end Follows

theorem Phrase.starts (phrase : Phrase level tokens) :
    ∃ first rest, tokens = first :: rest ∧ first ≠ .int ∧ first ≠ .rparen := by
  induction phrase with
  | num => exact ⟨_, _, rfl, by decide, by decide⟩
  | negative => exact ⟨_, _, rfl, by decide, by decide⟩
  | strings more => exact ⟨_, _, rfl, by decide, by decide⟩
  | sizeof named => exact ⟨_, _, rfl, by decide, by decide⟩
  | id => exact ⟨_, _, rfl, by decide, by decide⟩
  | call phrases => exact ⟨_, _, rfl, by decide, by decide⟩
  | paren phrase => exact ⟨_, _, rfl, by decide, by decide⟩
  | cast named phrase => exact ⟨_, _, rfl, by decide, by decide⟩
  | unary hop phrase => refine ⟨_, _, rfl, ?_, ?_⟩ <;> rintro rfl <;> cases hop
  | weaken hle phrase ih => exact ih
  | step first hop ih
  | subscript first second ih
  | binary hop first second ih
  | cond first second third ih
  | assign first second ih =>
    obtain ⟨start, rest, rfl, hint, hrparen⟩ := ih
    exact ⟨start, _, rfl, hint, hrparen⟩

namespace Reader

variable {r s : Reader} {low level : Level} {after : List Token} {o : Bool}

theorem climb_stop {expr : Level → Reader → Option Reader}
    (hend : r.tk.code < low.code) (hok : climb expr low rounds r = some s) :
    s = r := by
  cases rounds with
  | zero =>
    rw [climb, if_neg (Nat.not_le_of_lt hend)] at hok
    exact (Option.some.inj hok).symm
  | succ rounds =>
    rw [climb, if_neg (Nat.not_le_of_lt hend)] at hok
    exact (Option.some.inj hok).symm

def Walked (level : Level) (tokens : List Token) : Prop :=
  ∀ fuel (low : Level) after o s, low.code ≤ level.code → low ≠ .primary →
    Follows level after → expr (fuel + 1) low ⟨tokens ++ after, o⟩ = some s →
    ∃ rounds, climb (expr fuel) low rounds ⟨after, o⟩ = some s

namespace Walked


theorem whole (walked : Walked level tokens) (hlow : low.code ≤ level.code)
    (hcall : low ≠ .primary) (follows : Follows level after)
    (hend : (after.headD .eof).code < low.code)
    (hok : expr fuel low ⟨tokens ++ after, o⟩ = some s) : s = ⟨after, o⟩ := by
  cases fuel with
  | zero => cases hok
  | succ fuel =>
    obtain ⟨rounds, hclimb⟩ := walked fuel low after o s hlow hcall follows hok
    exact climb_stop hend hclimb

theorem marked (walked : Walked .assign tokens) (hcloses : token.closes = true)
    (hcode : token.code < 136)
    (hok : expr fuel .assign ⟨tokens ++ token :: after, o⟩ = some s) :
    s = ⟨token :: after, o⟩ :=
  walked.whole (Nat.le_refl _) (by decide) (.of_mark hcloses hcode) hcode hok

theorem operator {expr : Level → Reader → Option Reader}
    (hle : low.code ≤ token.code)
    (hok : climb expr low rounds ⟨token :: after, o⟩ = some s) :
    ∃ middle fewer, Reader.operator expr ⟨token :: after, o⟩ = some middle ∧
      climb expr low fewer middle = some s := by
  have htk : low.code ≤ (Reader.mk (token :: after) o).tk.code := hle
  cases rounds with
  | zero =>
    rw [climb, if_pos htk] at hok
    cases hok
  | succ rounds =>
    rw [climb, if_pos htk] at hok
    obtain ⟨middle, hoperator, hrest⟩ := bind_some hok
    exact ⟨middle, rounds, hoperator, hrest⟩

theorem of_operand
    (hoperand : ∀ fuel after o middle, Follows level after →
      operand (expr fuel) fuel ⟨tokens ++ after, o⟩ = some middle →
      middle = ⟨after, o⟩) :
    Walked level tokens := by
  intro fuel low after o s hlow hcall follows hok
  obtain ⟨middle, hfirst, hclimb⟩ := bind_some hok
  rw [hoperand fuel after o middle follows hfirst] at hclimb
  exact ⟨fuel, hclimb⟩

theorem num : Walked .primary [.num] :=
  of_operand fun _ _ _ _ _ hok => (Option.some.inj hok).symm

theorem negative : Walked .primary [.sub, .num] :=
  of_operand fun _ _ _ _ _ hok => (Option.some.inj hok).symm

theorem skip_replicate (count : Nat) (hend : after.headD .eof ≠ token)
    (hne : token ≠ .eof) :
    Reader.skip token ⟨List.replicate count token ++ after, o⟩ =
      ⟨after, o⟩ := by
  induction count with
  | zero => exact skip_of_ne hend
  | succ count ih =>
    have hagain : Reader.skip token ⟨token :: (List.replicate count token ++ after), o⟩ = _ :=
      skip_of_eq rfl hne
    exact hagain.trans ih

theorem strings (more : Nat) :
    Walked .primary (.quote :: List.replicate more .quote) := by
  refine of_operand fun fuel after o middle follows hok => ?_
  have hend : after.headD .eof ≠ .quote := follows.ne_of_closes rfl
  rw [← skip_replicate (o := o) (more + 1) hend (by decide)]
  exact (Option.some.inj hok).symm

theorem typeName (named : TypeName type) (after : List Token) (o : Bool) :
    ∃ rest, type = .int :: rest ∧
      Reader.typeName ⟨type ++ .rparen :: after, o⟩ =
        ⟨.rparen :: after, o⟩ := by
  cases named with
  | one stars =>
    refine ⟨_, rfl, ?_⟩
    have hint : (Reader.mk (List.replicate stars .mul ++ .rparen :: after) o).tk ≠ .int := by
      cases stars <;> simp [Reader.tk, List.replicate_succ]
    change (if (Reader.mk (List.replicate stars .mul ++ .rparen :: after)
      o).tk = .int then _ else _) = _
    rw [if_neg hint]
    exact skip_replicate stars (by simp) (by decide)
  | two stars =>
    refine ⟨_, rfl, ?_⟩
    exact skip_replicate stars (by simp) (by decide)

theorem id : Walked .primary [.id] := by
  refine of_operand fun fuel after o middle follows hok => ?_
  change (if after.headD .eof = .lparen then _ else _) = _ at hok
  rw [if_neg (follows.ne_of_closes rfl)] at hok
  exact (Option.some.inj hok).symm

theorem sizeof (named : TypeName type) :
    Walked .primary (.sizeof :: .lparen :: (type ++ [.rparen])) := by
  refine of_operand fun fuel after o middle follows hok => ?_
  obtain ⟨rest, rfl, htype⟩ := typeName named after o
  have hexpect : (Reader.typeName ⟨.int :: rest ++ .rparen :: after, o⟩).expect
      .rparen = some middle := by
    rw [← hok]
    simp [operand, tk, sizeofType, next, expect]
  rw [htype] at hexpect
  exact (Option.some.inj hexpect).symm

theorem arguments (walked : ∀ phrase ∈ phrases, Walked .assign phrase)
    (starts : ∀ phrase ∈ phrases, ∃ first rest, phrase = first :: rest ∧
      first ≠ .rparen)
    (hok : Reader.arguments (expr fuel) rounds
      ⟨commaSeparated phrases ++ .rparen :: after, o⟩ = some s) :
    s = ⟨.rparen :: after, o⟩ := by
  induction phrases generalizing rounds with
  | nil =>
    cases rounds with
    | zero => cases hok
    | succ rounds => exact (Option.some.inj hok).symm
  | cons phrase phrases ih =>
    obtain ⟨hphrase, hothers⟩ := List.forall_mem_cons.mp walked
    obtain ⟨⟨first, rest, rfl, hrparen⟩, hstarts⟩ := List.forall_mem_cons.mp starts
    have hstep : ∀ behind : List Token, ∀ token : Token, token.closes = true → token.code < 136 →
        Reader.arguments (expr fuel) rounds ⟨first :: rest ++ token :: behind, o⟩ = some s →
        ∃ fewer, Reader.arguments (expr fuel) fewer (separated ⟨token :: behind, o⟩) = some s := by
      intro behind token hcloses hcode hsome
      cases rounds with
      | zero => cases hsome
      | succ rounds =>
        have hopen : (Reader.mk (first :: rest ++ token :: behind) o).tk ≠ .rparen := hrparen
        rw [Reader.arguments, if_neg hopen] at hsome
        obtain ⟨middle, hexpr, hmore⟩ := bind_some hsome
        rw [hphrase.marked hcloses hcode hexpr] at hmore
        exact ⟨rounds, hmore⟩
    cases phrases with
    | nil =>
      rw [commaSeparated_singleton] at hok
      obtain ⟨fewer, hmore⟩ := hstep after .rparen rfl (by decide) hok
      have hlast : Reader.arguments (expr fuel) fewer ⟨.rparen :: after, o⟩ = some s := by
        simpa [separated, tk, note] using hmore
      exact ih hothers hstarts hlast
    | cons second others =>
      rw [commaSeparated_cons (List.cons_ne_nil second others), List.append_assoc] at hok
      obtain ⟨fewer, hmore⟩ := hstep (commaSeparated (second :: others) ++ .rparen :: after) .comma
        rfl (by decide) hok
      have hnext : separated ⟨.comma ::
          (commaSeparated (second :: others) ++ .rparen :: after), o⟩ =
          ⟨commaSeparated (second :: others) ++ .rparen :: after, o⟩ := by
        obtain ⟨start, more, rfl, hstart⟩ := hstarts second (by simp)
        obtain ⟨tokens, hseparated⟩ := commaSeparated_starts start more others
        rw [hseparated]
        simp [separated, tk, next, note, hstart]
      rw [hnext] at hmore
      exact ih hothers hstarts hmore

theorem call (walked : ∀ phrase ∈ phrases, Walked .assign phrase)
    (starts : ∀ phrase ∈ phrases, ∃ first rest, phrase = first :: rest ∧
      first ≠ .rparen) :
    Walked .primary
      (.id :: .lparen :: (commaSeparated phrases ++ [.rparen])) := by
  refine of_operand fun fuel after o middle follows hok => ?_
  have hcall : Reader.call (expr fuel) fuel
      ⟨commaSeparated phrases ++ [.rparen] ++ after, o⟩ = some middle := hok
  rw [List.append_assoc] at hcall
  obtain ⟨last, harguments, hnext⟩ := bind_some hcall
  rw [arguments walked starts harguments] at hnext
  exact (Option.some.inj hnext).symm

theorem paren {inner : List Token} (walked : Walked .assign inner)
    (starts : ∃ first rest, inner = first :: rest ∧ first ≠ .int) :
    Walked .primary (.lparen :: (inner ++ [.rparen])) := by
  refine of_operand fun fuel after o middle follows hok => ?_
  obtain ⟨first, rest, rfl, hint⟩ := starts
  have hparen : parenthesis (expr fuel)
      ⟨.lparen :: (first :: rest ++ [.rparen] ++ after), o⟩ = some middle := hok
  rw [List.append_assoc] at hparen
  have hopen : (Reader.mk (.lparen :: (first :: rest ++ ([.rparen] ++ after)))
      o).next.tk ≠ .int := hint
  rw [parenthesis, if_neg hopen] at hparen
  obtain ⟨inside, hexpr, hexpect⟩ := bind_some hparen
  rw [walked.marked rfl (by decide) hexpr] at hexpect
  exact (Option.some.inj hexpect).symm

theorem step (walked : Walked .primary left) (hop : op.isStep = true) :
    Walked .primary (left ++ [op]) := by
  intro fuel low after o s hlow hcall follows hok
  rw [List.append_assoc] at hok
  have hcode : op.closes = true ∧ op.code < Level.primary.bound ∧ Level.unary.code ≤ op.code := by
    cases op <;> first | decide | cases hop
  have hunary : low.code ≤ Level.unary.code := by
    revert hcall
    cases low <;> decide
  obtain ⟨rounds, hclimb⟩ := walked fuel low (op :: after) o s hlow hcall ⟨hcode.1, hcode.2.1⟩ hok
  obtain ⟨middle, fewer, hoperator, hrest⟩ := operator (Nat.le_trans hunary hcode.2.2) hclimb
  have hmiddle : Reader.operator (expr fuel) ⟨op :: after, o⟩ = some ⟨after, o⟩ := by
    cases op <;> first | rfl | cases hop
  rw [hmiddle] at hoperator
  cases hoperator
  exact ⟨fewer, hrest⟩

theorem subscript (first : Walked .primary left)
    (second : Walked .assign index) :
    Walked .primary (left ++ .brak :: (index ++ [.rbrack])) := by
  intro fuel low after o s hlow hcall follows hok
  have hunary : low.code ≤ Token.brak.code := by
    revert hcall
    cases low <;> decide
  have hshape : left ++ .brak :: (index ++ [.rbrack]) ++ after =
      left ++ .brak :: (index ++ .rbrack :: after) := by simp
  rw [hshape] at hok
  obtain ⟨rounds, hclimb⟩ := first fuel low _ o s hlow hcall (.of_token rfl (by decide)) hok
  obtain ⟨middle, fewer, hoperator, hrest⟩ := operator hunary hclimb
  obtain ⟨inside, hexpr, hexpect⟩ := bind_some
    (show Reader.subscript (expr fuel) _ = some middle from hoperator)
  rw [second.marked rfl (by decide) hexpr] at hexpect
  cases hexpect
  exact ⟨fewer, hrest⟩

theorem cast {inner : List Token} (named : TypeName type)
    (walked : Walked .unary inner) :
    Walked .unary (.lparen :: (type ++ .rparen :: inner)) := by
  refine of_operand fun fuel after o middle follows hok => ?_
  obtain ⟨rest, rfl, htype⟩ := typeName named (inner ++ after) o
  have hshape : .int :: rest ++ .rparen :: inner ++ after =
      .int :: rest ++ .rparen :: (inner ++ after) := by simp
  have hcast : Reader.cast (expr fuel)
      ⟨.int :: rest ++ .rparen :: inner ++ after, o⟩ = some middle := hok
  rw [hshape, Reader.cast, htype] at hcast
  exact walked.whole (Nat.le_refl _) (by decide) follows follows.2 hcast

theorem unary {inner : List Token} (hop : op.isUnary = true)
    (walked : Walked .unary inner) : Walked .unary (op :: inner) := by
  by_cases hnegative : op = .sub ∧ inner.headD .eof = .num
  · obtain ⟨rfl, hnum⟩ := hnegative
    intro fuel low after o s hlow hcall follows hok
    cases inner with
    | nil => cases hnum
    | cons first rest =>
      cases hnum
      exact walked fuel low after o s hlow hcall follows hok
  · refine of_operand fun fuel after o middle follows hok => ?_
    have hnum : op = .sub → (inner ++ after).headD .eof ≠ .num := by
      intro hsub
      cases inner with
      | nil => exact follows.ne_of_closes rfl
      | cons first rest => exact fun hnum => hnegative ⟨hsub, hnum⟩
    have hinner : expr fuel .unary ⟨inner ++ after, o⟩ = some middle := by
      cases op
      case sub =>
        have hminus : minus (expr fuel) ⟨.sub :: (inner ++ after), o⟩ = some middle := hok
        have hopen : (Reader.mk (.sub :: (inner ++ after)) o).next.tk ≠ .num := hnum rfl
        rwa [minus, if_neg hopen] at hminus
      all_goals first | exact hok | cases hop
    exact walked.whole (Nat.le_refl _) (by decide) follows follows.2 hinner

theorem binary {own next : Level} (hop : op.strata = some (own, next))
    (first : Walked own left) (second : Walked next right) :
    Walked own (left ++ op :: right) := by
  intro fuel low after o s hlow hcall follows hok
  obtain ⟨hown, hnext, hbound, hright⟩ := Token.strata_code hop
  rw [List.append_assoc] at hok
  obtain ⟨rounds, hclimb⟩ := first fuel low _ o s hlow hcall
    (.of_token (Token.closes_of_strata hop) (hbound ▸ hnext)) hok
  obtain ⟨middle, fewer, hoperator, hrest⟩ := operator (Nat.le_trans hlow hown) hclimb
  have hexpr : expr fuel next ⟨right ++ after, o⟩ = some middle := by
    rw [← hoperator]
    cases op <;> cases hop <;> rfl
  rw [second.whole (Nat.le_refl _) hright (follows.weaken (Nat.le_trans hown (Nat.le_of_lt hnext)))
    (hbound ▸ follows.2) hexpr] at hrest
  exact ⟨fewer, hrest⟩

theorem cond (first : Walked .lor test) (second : Walked .assign yes)
    (third : Walked .cond no) :
    Walked .cond (test ++ .cond :: (yes ++ .colon :: no)) := by
  intro fuel low after o s hlow hcall follows hok
  have hshape : test ++ .cond :: (yes ++ .colon :: no) ++ after =
      test ++ .cond :: (yes ++ .colon :: (no ++ after)) := by simp
  rw [hshape] at hok
  obtain ⟨rounds, hclimb⟩ := first fuel low _ o s
    (Nat.le_trans hlow (by decide)) hcall (.of_token rfl (by decide)) hok
  obtain ⟨middle, fewer, hoperator, hrest⟩ := operator hlow hclimb
  obtain ⟨inside, hyes, hmore⟩ := bind_some
    (show Reader.conditional (expr fuel) _ = some middle from hoperator)
  rw [second.marked rfl (by decide) hyes] at hmore
  have hno : expr fuel .cond ⟨no ++ after, o⟩ = some middle := hmore
  rw [third.whole (Nat.le_refl _) (by decide) follows follows.2 hno] at hrest
  exact ⟨fewer, hrest⟩

theorem assign (first : Walked .cond left) (second : Walked .assign right) :
    Walked .assign (left ++ .assign :: right) := by
  intro fuel low after o s hlow hcall follows hok
  rw [List.append_assoc] at hok
  obtain ⟨rounds, hclimb⟩ := first fuel low _ o s
    (Nat.le_trans hlow (by decide)) hcall (.of_token rfl (by decide)) hok
  obtain ⟨middle, fewer, hoperator, hrest⟩ := operator hlow hclimb
  have hexpr : expr fuel .assign ⟨right ++ after, o⟩ = some middle := hoperator
  rw [second.whole (Nat.le_refl _) (by decide) follows follows.2 hexpr] at hrest
  exact ⟨fewer, hrest⟩

theorem weaken (hle : level.code ≤ high.code) (walked : Walked high tokens) :
    Walked level tokens :=
  fun fuel low after o s hlow hcall follows hok =>
    walked fuel low after o s (Nat.le_trans hlow hle) hcall (follows.weaken hle) hok

end Walked

theorem walked_of_phrase {tokens : List Token} (phrase : Phrase level tokens) :
    Walked level tokens := by
  induction phrase with
  | num => exact .num
  | negative => exact .negative
  | strings more => exact .strings more
  | sizeof named => exact .sizeof named
  | id => exact .id
  | call phrases ih =>
    refine .call ih fun phrase member => ?_
    obtain ⟨first, rest, hphrase, -, hrparen⟩ := (phrases phrase member).starts
    exact ⟨first, rest, hphrase, hrparen⟩
  | paren phrase ih =>
    obtain ⟨first, rest, hphrase, hint, -⟩ := phrase.starts
    exact ih.paren ⟨first, rest, hphrase, hint⟩
  | step first hop ih => exact ih.step hop
  | subscript first second left index => exact left.subscript index
  | cast named phrase ih => exact ih.cast named
  | unary hop phrase ih => exact ih.unary hop
  | binary hop first second left right => exact left.binary hop right
  | cond first second third test yes no => exact test.cond yes no
  | assign first second left right => exact left.assign right
  | weaken hle phrase ih => exact ih.weaken hle

theorem exprs_complete (sentence : Sentence tokens)
    (hok : exprs fuel ⟨tokens, o⟩ = some s) : s = ⟨[], o⟩ := by
  obtain ⟨first, more, rfl, hphrases⟩ := sentence
  induction more generalizing fuel first with
  | nil =>
    have hfirst := walked_of_phrase (hphrases first (by simp))
    cases fuel with
    | zero => cases hok
    | succ fuel =>
      obtain ⟨middle, hexpr, hrest⟩ := bind_some hok
      rw [commaSeparated_singleton, ← List.append_nil first] at hexpr
      rw [hfirst.whole (Nat.le_refl _) (by decide) ⟨rfl, by decide⟩ (by decide) hexpr] at hrest
      exact (Option.some.inj hrest).symm
  | cons second more ih =>
    obtain ⟨hphrase, hothers⟩ := List.forall_mem_cons.mp hphrases
    cases fuel with
    | zero => cases hok
    | succ fuel =>
      obtain ⟨middle, hexpr, hrest⟩ := bind_some hok
      rw [commaSeparated_cons (List.cons_ne_nil second more)] at hexpr
      rw [(walked_of_phrase hphrase).marked rfl (by decide) hexpr] at hrest
      exact ih second hothers hrest

end Reader

end PerfProf.Expr
