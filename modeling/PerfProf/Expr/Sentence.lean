import Mathlib.Data.List.TakeWhile
import PerfProf.Expr.Grammar

namespace PerfProf.Expr

@[simp] theorem commaSeparated_singleton (phrase : List Token) :
    commaSeparated [phrase] = phrase := by
  simp [commaSeparated, List.intercalate]

theorem commaSeparated_cons (hmore : phrases ≠ []) :
    commaSeparated (phrase :: phrases) =
      phrase ++ .comma :: commaSeparated phrases := by
  obtain ⟨second, others, rfl⟩ := List.exists_cons_of_ne_nil hmore
  simp [commaSeparated, List.intercalate]

theorem commaSeparated_starts (first : Token) (rest : List Token)
    (phrases : List (List Token)) :
    ∃ tokens, commaSeparated ((first :: rest) :: phrases) =
      first :: tokens := by
  cases phrases with
  | nil => exact ⟨rest, commaSeparated_singleton _⟩
  | cons second others => exact ⟨_, commaSeparated_cons (List.cons_ne_nil second others)⟩

namespace Token

variable {op : Token} {own next : Level}

theorem closes_of_strata {strata : Level × Level}
    (hop : op.strata = some strata) : op.closes = true := by
  cases op <;> first | rfl | cases hop

theorem strata_code (hop : op.strata = some (own, next)) :
    own.code ≤ op.code ∧
    op.code < next.code ∧
    own.bound = next.code ∧
    next ≠ .primary := by
  cases op <;> cases hop <;> decide

theorem level_le_of_strata {level : Level} (hop : op.strata = some (own, next))
    (hle : level.code ≤ op.code) : level.code ≤ own.code := by
  revert hle
  cases op <;> cases hop <;> cases level <;> decide

end Token

namespace Reader

variable {r s t : Reader} {token : Token}

theorem rest_of_tk (htk : r.tk = token) (hne : token ≠ .eof) :
    r.rest = token :: r.next.rest := by
  unfold tk at htk
  unfold next
  cases hrest : r.rest with
  | nil =>
    rw [hrest] at htk
    exact absurd htk.symm hne
  | cons first rest =>
    rw [hrest] at htk
    exact congrArg (· :: rest) htk

theorem skip_of_ne (hother : r.tk ≠ token) : r.skip token = r := by
  unfold tk at hother
  have hrest : r.rest.dropWhile (· = token) = r.rest := by
    cases hcase : r.rest with
    | nil => rfl
    | cons first rest =>
      rw [hcase] at hother
      exact List.dropWhile_cons_of_neg (by simpa using hother)
  exact congrArg (Reader.mk · r.orderly) hrest

theorem skip_of_eq (htk : r.tk = token) (hne : token ≠ .eof) :
    r.skip token = r.next.skip token := by
  have hrest : r.rest.dropWhile (· = token) = r.next.rest.dropWhile (· = token) := by
    rw [rest_of_tk htk hne, List.dropWhile_cons_of_pos (by simp)]
  exact congrArg (Reader.mk · r.orderly) hrest

def Spans (kind : List Token → Prop) (r s : Reader) : Prop :=
  s.orderly = true → r.orderly = true ∧ ∃ tokens, kind tokens ∧ r.rest = tokens ++ s.rest

variable {first second both : List Token → Prop}

theorem Spans.append (left : Spans first r s) (right : Spans second s t)
    (join : ∀ before behind,
      first before → second behind → both (before ++ behind)) :
    Spans both r t := by
  intro orderly
  obtain ⟨middle, behind, hsecond, hbehind⟩ := right orderly
  obtain ⟨start, before, hfirst, hbefore⟩ := left middle
  refine ⟨start, before ++ behind, join before behind hfirst hsecond, ?_⟩
  rw [hbefore, hbehind, List.append_assoc]

theorem Spans.imp (spans : Spans first r s)
    (himp : ∀ tokens, first tokens → second tokens) : Spans second r s := by
  intro orderly
  obtain ⟨start, tokens, hfirst, hrest⟩ := spans orderly
  exact ⟨start, tokens, himp tokens hfirst, hrest⟩

theorem Spans.next (htk : r.tk = token) (hne : token ≠ .eof) :
    Spans (· = [token]) r r.next :=
  fun orderly => ⟨orderly, [token], rfl, rest_of_tk htk hne⟩

theorem Spans.expect (hok : r.expect token = some s) (hne : token ≠ .eof) :
    Spans (· = [token]) r s := by
  unfold Reader.expect at hok
  split at hok
  · rename_i htk
    cases hok
    exact .next htk hne
  · cases hok

def Closed (kind : List Token → Prop) (token : Token) (tokens : List Token) :
    Prop := ∃ inner, kind inner ∧ tokens = inner ++ [token]

theorem Spans.closed (spans : Spans first r s)
    (last : Spans (· = [token]) s t) : Spans (Closed first token) r t := by
  refine spans.append last ?_
  rintro inner _ hinner rfl
  exact ⟨inner, hinner, rfl⟩

theorem Spans.skip (token : Token) :
    Spans (fun tokens => ∃ count, tokens = List.replicate count token) r
      (r.skip token) := by
  intro orderly
  refine ⟨orderly, r.rest.takeWhile (· = token), ?_, ?_⟩
  · refine ⟨_, List.eq_replicate_of_mem ?_⟩
    intro other member
    have hsame := List.mem_takeWhile_imp member
    simpa using hsame
  · exact (List.takeWhile_append_dropWhile).symm

theorem Spans.typeName (htk : r.tk = .int) : Spans TypeName r r.typeName := by
  unfold Reader.typeName
  simp only
  split_ifs with hsecond
  · have hword : Spans (fun tokens => ∃ stars, tokens = .int :: List.replicate stars .mul)
        r.next (r.next.next.skip .mul) := by
      refine (Spans.next hsecond (by decide)).append (.skip .mul) ?_
      rintro _ _ rfl ⟨stars, rfl⟩
      exact ⟨stars, rfl⟩
    refine (Spans.next htk (by decide)).append hword ?_
    rintro _ _ rfl ⟨stars, rfl⟩
    exact .two stars
  · refine (Spans.next htk (by decide)).append (.skip .mul) ?_
    rintro _ _ rfl ⟨stars, rfl⟩
    exact .one stars

def Sound (expr : Level → Reader → Option Reader) : Prop :=
  ∀ level r s, level ≠ .primary → expr level r = some s →
    s.tk.code < level.code ∧ Spans (Phrase level) r s

variable {expr : Level → Reader → Option Reader}

theorem bind_some {rest : Reader → Option Reader}
    (hok : (action >>= rest) = some t) :
    ∃ s, action = some s ∧ rest s = some t :=
  Option.bind_eq_some_iff.mp hok

theorem Sound.assign (sound : Sound expr) (hok : expr .assign r = some s) :
    Spans (Phrase .assign) r s :=
  (sound .assign r s (by decide) hok).2

theorem separated_orderly (orderly : r.separated.orderly = true) :
    r.orderly = true ∧
    ((r.rest = .comma :: r.separated.rest ∧ r.separated.tk ≠ .rparen) ∨
      (r.separated.rest = r.rest ∧ r.separated.tk = .rparen)) := by
  unfold separated at orderly ⊢
  split_ifs with hcomma
  · rw [if_pos hcomma] at orderly
    obtain ⟨hbefore, hbehind⟩ := Bool.and_eq_true_iff.mp orderly
    refine ⟨hbefore, .inl ⟨rest_of_tk hcomma (by decide), ?_⟩⟩
    exact bne_iff_ne.mp hbehind
  · rw [if_neg hcomma] at orderly
    obtain ⟨hbefore, hbehind⟩ := Bool.and_eq_true_iff.mp orderly
    exact ⟨hbefore, .inr ⟨rfl, beq_iff_eq.mp hbehind⟩⟩

theorem arguments_sound (sound : Sound expr)
    (hok : arguments expr fuel r = some s) :
    s.tk = .rparen ∧
    Spans (fun tokens => ∃ phrases, tokens = commaSeparated phrases ∧
        (∀ phrase ∈ phrases, Phrase .assign phrase) ∧
        (r.tk ≠ .rparen → phrases ≠ [])) r s := by
  induction fuel generalizing r with
  | zero => cases hok
  | succ fuel ih =>
    rw [arguments] at hok
    split_ifs at hok with hend
    · cases hok
      exact ⟨hend, fun orderly => ⟨orderly, [], ⟨[], rfl, by simp,
        fun hopen => absurd hend hopen⟩, rfl⟩⟩
    · obtain ⟨middle, hfirst, hrest⟩ := bind_some hok
      obtain ⟨hend, hmore⟩ := ih hrest
      refine ⟨hend, fun orderly => ?_⟩
      obtain ⟨hseparated, _, ⟨phrases, rfl, hphrases, hsome⟩, hbehind⟩ := hmore orderly
      obtain ⟨hmiddle, hcomma⟩ := separated_orderly hseparated
      obtain ⟨hstart, phrase, hphrase, hbefore⟩ := sound.assign hfirst hmiddle
      rcases hcomma with ⟨hcomma, hopen⟩ | ⟨hsame, hclosed⟩
      · refine ⟨hstart, _, ⟨phrase :: phrases, rfl, ?_, by simp⟩, ?_⟩
        · exact List.forall_mem_cons.mpr ⟨hphrase, hphrases⟩
        · rw [commaSeparated_cons (hsome hopen), hbefore, hcomma, hbehind]
          simp
      · have hlast : s = middle.separated := by
          cases fuel with
          | zero => cases hrest
          | succ fuel =>
            rw [arguments, if_pos hclosed] at hrest
            cases hrest
            rfl
        refine ⟨hstart, phrase, ⟨[phrase], by simp, by simpa, by simp⟩, ?_⟩
        rw [hbefore, hlast, hsame]

theorem identifier_sound (sound : Sound expr) (htk : r.tk = .id)
    (hok : identifier expr fuel r = some s) : Spans (Phrase .primary) r s := by
  unfold identifier at hok
  simp only at hok
  split_ifs at hok with hopen
  · obtain ⟨last, harguments, hnext⟩ := bind_some hok
    cases hnext
    obtain ⟨hclosed, hspans⟩ := arguments_sound sound harguments
    have hname : Spans (· = [.id, .lparen]) r r.next.next := by
      refine (Spans.next htk (by decide)).append (.next hopen (by decide)) ?_
      rintro _ _ rfl rfl
      rfl
    refine hname.append (hspans.closed (.next hclosed (by decide))) ?_
    rintro _ _ rfl ⟨_, ⟨phrases, rfl, hphrases, -⟩, rfl⟩
    exact .call hphrases
  · cases hok
    refine (Spans.next htk (by decide)).imp ?_
    rintro _ rfl
    exact .id

theorem type_sound (htk : r.tk = .int)
    (hok : r.typeName.expect .rparen = some s) :
    Spans (Closed TypeName .rparen) r s :=
  (Spans.typeName htk).closed (.expect hok (by decide))

theorem sizeofType_sound (htk : r.tk = .sizeof)
    (hok : sizeofType r = some s) : Spans (Phrase .primary) r s := by
  unfold sizeofType at hok
  obtain ⟨opened, hopen, hrest⟩ := bind_some hok
  split at hrest
  · rename_i hint
    have hname : Spans (· = [.sizeof, .lparen]) r opened := by
      refine (Spans.next htk (by decide)).append (.expect hopen (by decide)) ?_
      rintro _ _ rfl rfl
      rfl
    refine hname.append (type_sound hint hrest) ?_
    rintro _ _ rfl ⟨type, named, rfl⟩
    exact .sizeof named
  · cases hrest

def Operand (r s : Reader) : Prop :=
  ∃ level : Level, 157 ≤ level.code ∧ s.tk.code < level.bound ∧ Spans (Phrase level) r s

theorem Operand.primary (spans : Spans (Phrase .primary) r s) :
    Operand r s := by
  refine ⟨.primary, by decide, ?_, spans⟩
  cases s.tk <;> decide

theorem Operand.unary (hend : s.tk.code < 157)
    (spans : Spans (Phrase .unary) r s) : Operand r s :=
  ⟨.unary, by decide, hend, spans⟩

theorem Sound.unary (sound : Sound expr) (hop : token.isUnary = true)
    (htk : r.tk = token) (hok : expr .unary r.next = some s) : Operand r s := by
  obtain ⟨hend, hspans⟩ := sound .unary _ _ (by decide) hok
  refine .unary hend ((Spans.next htk ?_).append hspans ?_)
  · rintro rfl
    cases hop
  · rintro _ inner rfl phrase
    exact .unary hop phrase

theorem parenthesis_sound (sound : Sound expr) (htk : r.tk = .lparen)
    (hok : parenthesis expr r = some s) : Operand r s := by
  unfold parenthesis at hok
  simp only at hok
  split_ifs at hok with hint
  · obtain ⟨typed, htype, hrest⟩ := bind_some hok
    obtain ⟨hend, hspans⟩ := sound .unary _ _ (by decide) hrest
    have hcast : Spans (fun tokens => ∃ type, TypeName type ∧
        tokens = .lparen :: (type ++ [.rparen])) r typed := by
      refine (Spans.next htk (by decide)).append (type_sound hint htype) ?_
      rintro _ _ rfl ⟨type, named, rfl⟩
      exact ⟨type, named, rfl⟩
    refine .unary hend (hcast.append hspans ?_)
    rintro _ inner ⟨type, named, rfl⟩ phrase
    simpa using Phrase.cast named phrase
  · obtain ⟨inside, hinner, hrest⟩ := bind_some hok
    have hclosed := (sound.assign hinner).closed (.expect hrest (by decide))
    refine .primary ((Spans.next htk (by decide)).append hclosed ?_)
    rintro _ _ rfl ⟨inner, phrase, rfl⟩
    exact .paren phrase

theorem minus_sound (sound : Sound expr) (htk : r.tk = .sub)
    (hok : minus expr r = some s) : Operand r s := by
  unfold minus at hok
  simp only at hok
  split_ifs at hok with hnum
  · cases hok
    refine .primary ((Spans.next htk (by decide)).append (.next hnum (by decide)) ?_)
    rintro _ _ rfl rfl
    exact .negative
  · exact sound.unary (by rfl) htk hok

theorem strings_sound (htk : r.tk = .quote) :
    Spans (Phrase .primary) r (r.skip .quote) := by
  rw [skip_of_eq htk (by decide)]
  refine (Spans.next htk (by decide)).append (.skip .quote) ?_
  rintro _ _ rfl ⟨more, rfl⟩
  exact .strings more

theorem operand_sound (sound : Sound expr)
    (hok : operand expr fuel r = some s) : Operand r s := by
  unfold operand at hok
  cases htk : r.tk <;> rw [htk] at hok
  case num =>
    cases hok
    refine .primary ((Spans.next htk (by decide)).imp ?_)
    rintro _ rfl
    exact .num
  case quote =>
    cases hok
    exact .primary (strings_sound htk)
  case sizeof => exact .primary (sizeofType_sound htk hok)
  case id => exact .primary (identifier_sound sound htk hok)
  case lparen => exact parenthesis_sound sound htk hok
  case sub => exact minus_sound sound htk hok
  case mul => exact sound.unary (by rfl) htk hok
  case and => exact sound.unary (by rfl) htk hok
  case not => exact sound.unary (by rfl) htk hok
  case wildcard => exact sound.unary (by rfl) htk hok
  case add => exact sound.unary (by rfl) htk hok
  case inc => exact sound.unary (by rfl) htk hok
  case dec => exact sound.unary (by rfl) htk hok
  all_goals cases hok

def Open (low : Level) (start r : Reader) : Prop :=
  ∃ level : Level, low.code ≤ level.code ∧ r.tk.code < level.bound ∧ Spans (Phrase level) start r

variable {start : Reader} {low : Level}

theorem Open.left (left : Open low start r) (hle : level.code ≤ r.tk.code) :
    Spans (Phrase level) start r := by
  obtain ⟨own, -, hbound, hspans⟩ := left
  exact hspans.imp fun _ phrase =>
    .weaken (Level.code_le_of_lt_bound (Nat.lt_of_le_of_lt hle hbound)) phrase

theorem Open.assignment (sound : Sound expr) (left : Open low start r)
    (hlow : low.code ≤ 136) (htk : r.tk = .assign)
    (hok : expr .assign r.next = some s) : Open low start s := by
  obtain ⟨own, hown, hbound, hspans⟩ := left
  obtain ⟨hend, hright⟩ := sound .assign _ _ (by decide) hok
  rw [htk] at hbound
  have hcond : Level.cond.code ≤ own.code := by
    revert hbound
    cases own <;> decide
  refine ⟨.assign, hlow, hend, (hspans.closed (.next htk (by decide))).append hright ?_⟩
  rintro _ right ⟨left, first, rfl⟩ second
  simpa using Phrase.assign (.weaken hcond first) second

theorem Open.conditional (sound : Sound expr) (left : Open low start r)
    (hlow : low.code ≤ 137) (htk : r.tk = .cond)
    (hok : conditional expr r = some s) : Open low start s := by
  obtain ⟨own, hown, hbound, hspans⟩ := left
  obtain ⟨colon, hyes, hrest⟩ := bind_some hok
  obtain ⟨behind, hcolon, hno⟩ := bind_some hrest
  obtain ⟨hend, hthird⟩ := sound .cond _ _ (by decide) hno
  rw [htk] at hbound
  have hlor : Level.lor.code ≤ own.code := by
    revert hbound
    cases own <;> decide
  have hsecond := (sound.assign hyes).closed (.expect hcolon (by decide))
  have hfirst : Spans (fun tokens => ∃ test yes, Phrase .lor test ∧
      Phrase .assign yes ∧ tokens = test ++ .cond :: (yes ++ [.colon]))
      start behind := by
    refine (hspans.closed (.next htk (by decide))).append hsecond ?_
    rintro _ _ ⟨test, first, rfl⟩ ⟨yes, second, rfl⟩
    exact ⟨test, yes, .weaken hlor first, second, by simp⟩
  refine ⟨.cond, hlow, hend, hfirst.append hthird ?_⟩
  rintro _ no ⟨test, yes, first, second, rfl⟩ third
  simpa using Phrase.cond first second third

theorem Open.stepped (left : Open low start r) (hop : r.tk.isStep = true) :
    Open low start r.next := by
  obtain ⟨own, hown, hbound, hspans⟩ := left
  have hprimary : own = .primary := by
    revert hbound hop
    cases r.tk <;> cases own <;> decide
  subst hprimary
  have hne : r.tk ≠ .eof := by
    intro heof
    rw [heof] at hop
    cases hop
  refine ⟨.primary, hown, ?_, hspans.append (.next rfl hne) ?_⟩
  · cases r.next.tk <;> decide
  · rintro left _ phrase rfl
    exact .step phrase hop

section

variable (sound : Sound expr) (left : Open low start r)

include sound left

theorem Open.subscript (htk : r.tk = .brak) (hok : subscript expr r = some s) :
    Open low start s := by
  obtain ⟨own, hown, hbound, hspans⟩ := left
  obtain ⟨inside, hindex, hclosed⟩ := bind_some hok
  have hprimary : own = .primary := by
    rw [htk] at hbound
    revert hbound
    cases own <;> decide
  subst hprimary
  have hleft := hspans.closed (.next htk (by decide))
  have hright := (sound.assign hindex).closed (.expect hclosed (by decide))
  refine ⟨.primary, hown, ?_, hleft.append hright ?_⟩
  · cases s.tk <;> decide
  · rintro _ _ ⟨left, first, rfl⟩ ⟨index, second, rfl⟩
    simpa using Phrase.subscript first second

theorem Open.binary {own next : Level} (hop : r.tk.strata = some (own, next))
    (hlow : low.code ≤ r.tk.code) (hok : expr next r.next = some s) :
    Open low start s := by
  obtain ⟨hcode, -, hnext, hcall⟩ := Token.strata_code hop
  obtain ⟨hend, hright⟩ := sound next _ _ hcall hok
  have hne : r.tk ≠ .eof := by
    intro heof
    rw [heof] at hop
    cases hop
  have hleft := (left.left hcode).closed (.next rfl hne)
  refine ⟨own, Token.level_le_of_strata hop hlow, hnext.symm ▸ hend, hleft.append hright ?_⟩
  rintro _ right ⟨left, first, rfl⟩ second
  simpa using Phrase.binary hop first second

theorem Open.operator (hlow : low.code ≤ r.tk.code)
    (hok : operator expr r = some s) : Open low start s := by
  unfold Reader.operator at hok
  split at hok
  · rename_i htk
    rw [htk] at hlow
    exact left.assignment sound hlow htk hok
  · rename_i htk
    rw [htk] at hlow
    exact left.conditional sound hlow htk hok
  · rename_i htk
    cases hok
    exact left.stepped (by rw [htk]; rfl)
  · rename_i htk
    cases hok
    exact left.stepped (by rw [htk]; rfl)
  · rename_i htk
    exact left.subscript sound htk hok
  · split at hok
    · rename_i hop
      exact left.binary sound hop hlow hok
    · cases hok

theorem climb_sound (hok : climb expr low fuel r = some s) :
    s.tk.code < low.code ∧ Spans (Phrase low) start s := by
  have hstop : ∀ {last : Reader}, Open low start last → ¬ low.code ≤ last.tk.code →
      last.tk.code < low.code ∧ Spans (Phrase low) start last := by
    rintro last ⟨own, hown, -, hspans⟩ hend
    exact ⟨Nat.lt_of_not_le hend, hspans.imp fun _ => .weaken hown⟩
  induction fuel generalizing r with
  | zero =>
    rw [climb] at hok
    split at hok
    · cases hok
    · rename_i hend
      cases hok
      exact hstop left hend
  | succ fuel ih =>
    rw [climb] at hok
    split at hok
    · rename_i hmore
      obtain ⟨middle, hoperator, hrest⟩ := bind_some hok
      exact ih (left.operator sound hmore hoperator) hrest
    · rename_i hend
      cases hok
      exact hstop left hend

end

theorem expr_sound (fuel : Nat) : Sound (Reader.expr fuel) := by
  induction fuel with
  | zero =>
    intro level r s _ hok
    cases hok
  | succ fuel ih =>
    intro level r s hlevel hok
    obtain ⟨middle, hoperand, hclimb⟩ := bind_some hok
    obtain ⟨own, hown, hbound, hspans⟩ := operand_sound ih hoperand
    refine climb_sound ih ⟨own, Nat.le_trans ?_ hown, hbound, hspans⟩ hclimb
    revert hlevel
    cases level <;> decide

theorem exprs_sound (hok : exprs fuel r = some s) : Spans Sentence r s := by
  induction fuel generalizing r with
  | zero => cases hok
  | succ fuel ih =>
    obtain ⟨middle, hfirst, hrest⟩ := bind_some hok
    have hspans := (expr_sound fuel).assign hfirst
    split_ifs at hrest with hcomma
    · refine (hspans.closed (.next hcomma (by decide))).append (ih hrest) ?_
      rintro _ _ ⟨phrase, hphrase, rfl⟩ ⟨second, more, rfl, hphrases⟩
      refine ⟨phrase, second :: more, ?_, ?_⟩
      · rw [commaSeparated_cons (List.cons_ne_nil second more), List.append_assoc]
        rfl
      · exact List.forall_mem_cons.mpr ⟨hphrase, hphrases⟩
    · cases hrest
      refine hspans.imp fun phrase hphrase => ⟨phrase, [], by simp, ?_⟩
      simpa using hphrase

end Reader

end PerfProf.Expr
