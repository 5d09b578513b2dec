import PerfProf.Data.Glob
import PerfProf.Expr.Lex

namespace PerfProf.Expr

open Data

/-! `wildcard_match()`, the operator `~`.  A pointer into a text is the rest of
the text. -/

/-- `[^` and `[!`: whether the class is inverted, and what follows. -/
def classMark : List Byte → Bool × List Byte
  | [] => (false, [])
  | first :: rest =>
    if first = byte '^' ∨ first = byte '!' then (true, rest)
    else (false, first :: rest)

/-- The loop over a class: whether `c` was in it, and the pattern from its end
on.  A `char` is signed. -/
def scanClass (c : Byte) : Bool → List Byte → Bool × List Byte
  | found, [] => (found, [])
  | found, first :: rest =>
    if first = byte ']' then (found, first :: rest)
    else
      match rest with
      | dash :: last :: after =>
        if dash = byte '-' ∧ last ≠ byte ']' then
          scanClass c (found || (first.sle c && c.sle last)) after
        else scanClass c (found || c == first) (dash :: last :: after)
      | short => scanClass c (found || c == first) short

/-- The locals of `wildcard_match()`; `star` holds `star` and `str_backup`. -/
structure Wildcard where
  s : List Byte
  p : List Byte
  star : Option (List Byte × List Byte)

namespace Wildcard

def back (state : Wildcard) : Wildcard ⊕ Bool :=
  match state.star with
  | none => .inr false
  | some (star, backup) => .inl { s := backup.tail, p := star, star := some (star, backup.tail) }

def body (state : Wildcard) : Wildcard ⊕ Bool :=
  let isStar := fun c : Byte => c == byte '*'
  match state.s with
  | [] => .inr (state.p.dropWhile isStar).isEmpty
  | c :: s =>
    match state.p with
    | [] => state.back
    | first :: p =>
      if first = byte '*' then
        let behind := p.dropWhile isStar
        if behind.isEmpty then .inr true
        else .inl { s := c :: s, p := behind, star := some (behind, c :: s) }
      else if first = byte '?' then .inl { state with s := s, p := p }
      else if first = byte '[' then
        let mark := classMark p
        let scanned := scanClass c false mark.2
        -- `scanned.2` is at the bracket, or at the end of the pattern.
        if scanned.1 ≠ mark.1 then
          .inl { state with s := s, p := scanned.2.tail }
        else state.back
      else if first = c then .inl { state with s := s, p := p }
      else state.back

end Wildcard

/-- `wildcard_match()`, if its loop is left within `rounds`. -/
def wildcardMatch (rounds : Nat) :
    Option (List Byte) → Option (List Byte) → Option Bool
  | some str, some pattern => iterate Wildcard.body rounds { s := str, p := pattern, star := none }
  | _, _ => some false

inductive ClassUnit where
  | single (c : Byte)
  | range (first last : Byte)
  deriving DecidableEq, Repr

namespace ClassUnit

def holds (c : Byte) : ClassUnit → Bool
  | .single member => c == member
  | .range first last => first.sle c && c.sle last

inductive Units : List ClassUnit → List Byte → Prop
  | nil : Units [] []
  | single {c : Byte} {units : List ClassUnit} {text : List Byte}
      (hclosing : c ≠ byte ']')
      (alone : ∀ last after, text ≠ byte '-' :: last :: after)
      (units_ : Units units text) : Units (.single c :: units) (c :: text)
  | range {first last : Byte} {units : List ClassUnit} {text : List Byte}
      (hfirst : first ≠ byte ']') (hlast : last ≠ byte ']')
      (units_ : Units units text) :
      Units (.range first last :: units) (first :: byte '-' :: last :: text)

end ClassUnit

inductive Place where
  | any
  | literal (c : Byte)
  | set (inverted : Bool) (units : List ClassUnit)
  deriving DecidableEq, Repr

def Place.accepts : Place → Byte → Bool
  | .any, _ => true
  | .literal member, c => c == member
  | .set inverted units, c => units.any (ClassUnit.holds c) != inverted

inductive Place.Written : Place → List Byte → Prop
  | any : Written .any [byte '?']
  | literal {c : Byte} (hstar : c ≠ byte '*') (hany : c ≠ byte '?')
      (hopening : c ≠ byte '[') : Written (.literal c) [c]
  | inside {units : List ClassUnit} {text : List Byte}
      (units_ : ClassUnit.Units units text)
      (unmarked : ∀ after, text ≠ byte '^' :: after ∧ text ≠ byte '!' :: after) :
      Written (.set false units) (byte '[' :: text ++ [byte ']'])
  | outside {units : List ClassUnit} {text : List Byte} {mark : Byte}
      (units_ : ClassUnit.Units units text)
      (hmark : mark = byte '^' ∨ mark = byte '!') :
      Written (.set true units) (byte '[' :: mark :: text ++ [byte ']'])

inductive PatternWritten : List (GlobItem Place) → List Byte → Prop
  | nil : PatternWritten [] []
  | star {items : List (GlobItem Place)} {text : List Byte}
      (written : PatternWritten items text) :
      PatternWritten (.star :: items) (byte '*' :: text)
  | one {place : Place} {items : List (GlobItem Place)}
      {text behind : List Byte} (hplace : place.Written text)
      (written : PatternWritten items behind) :
      PatternWritten (.one place :: items) (text ++ behind)

def GlobMatches (pattern str : List Byte) : Prop :=
  ∃ items, PatternWritten items pattern ∧ Data.Fits Place.accepts items str

inductive ClosedClasses : List Byte → Prop
  | nil : ClosedClasses []
  | set {body behind : List Byte} (hbody : byte ']' ∉ body)
      (closed : ClosedClasses behind) :
      ClosedClasses (byte '[' :: body ++ byte ']' :: behind)
  | other {c : Byte} {behind : List Byte} (hother : c ≠ byte '[')
      (closed : ClosedClasses behind) : ClosedClasses (c :: behind)

theorem scanClass_single {c first : Byte} {rest : List Byte} (found : Bool)
    (hfirst : first ≠ byte ']')
    (alone : ∀ last after, rest = byte '-' :: last :: after →
      last = byte ']') :
    scanClass c found (first :: rest) =
      scanClass c (found || c == first) rest := by
  cases rest with
  | nil => exact if_neg hfirst
  | cons dash rest =>
    cases rest with
    | nil => exact if_neg hfirst
    | cons last after =>
      refine (if_neg hfirst).trans (if_neg ?_)
      rintro ⟨rfl, hlast⟩
      exact hlast (alone last after rfl)

variable {text : List Byte}

theorem scanClass_units (units_ : ClassUnit.Units units text) (c : Byte)
    (found : Bool) (behind : List Byte) :
    scanClass c found (text ++ byte ']' :: behind) =
      (found || units.any (ClassUnit.holds c), byte ']' :: behind) := by
  induction units_ generalizing found with
  | nil =>
    have hclosed : scanClass c found (byte ']' :: behind) = (found, byte ']' :: behind) := by
      cases behind with
      | nil => rfl
      | cons next behind => cases behind <;> rfl
    simpa using hclosed
  | @single member units text hclosing alone _ ih =>
    have hnext : ∀ last after, text ++ byte ']' :: behind = byte '-' :: last :: after →
        last = byte ']' := by
      intro last after htext
      cases text with
      | nil => exact absurd (List.cons.inj htext).1 (by decide)
      | cons dash others =>
        obtain ⟨rfl, hothers⟩ := List.cons.inj htext
        cases others with
        | nil => exact (List.cons.inj hothers).1.symm
        | cons other others => exact absurd rfl (alone other others)
    rw [List.cons_append, scanClass_single found hclosing hnext, ih]
    simp [ClassUnit.holds, Bool.or_assoc]
  | range hfirst hlast _ ih =>
    refine (if_neg hfirst).trans ((if_pos ⟨rfl, hlast⟩).trans ?_)
    refine (ih _).trans ?_
    simp [ClassUnit.holds, Bool.or_assoc]

theorem classMark_unmarked
    (unmarked : ∀ after,
      text ≠ byte '^' :: after ∧ text ≠ byte '!' :: after)
    (behind : List Byte) :
    classMark (text ++ byte ']' :: behind) =
      (false, text ++ byte ']' :: behind) := by
  cases text with
  | nil => rfl
  | cons first rest =>
    refine if_neg ?_
    rintro (rfl | rfl)
    · exact (unmarked rest).1 rfl
    · exact (unmarked rest).2 rfl

theorem body_set {c : Byte} {s p : List Byte}
    {star : Option (List Byte × List Byte)} {text behind : List Byte}
    {inverted : Bool} {units : List ClassUnit}
    (hmark : classMark p = (inverted, text ++ byte ']' :: behind))
    (units_ : ClassUnit.Units units text) :
    Wildcard.body ⟨c :: s, byte '[' :: p, star⟩ =
      if Place.accepts (.set inverted units) c then .inl ⟨s, behind, star⟩
      else Wildcard.back ⟨c :: s, byte '[' :: p, star⟩ := by
  have hstar : byte '[' ≠ byte '*' := by decide
  have hany : byte '[' ≠ byte '?' := by decide
  simp only [Wildcard.body, if_neg hstar, if_neg hany, if_true, hmark, scanClass_units units_,
    Bool.false_or, List.tail_cons, Place.accepts, bne_iff_ne]

theorem body_place {place : Place} (written : place.Written text) (c : Byte)
    (s behind : List Byte) (star : Option (List Byte × List Byte)) :
    Wildcard.body ⟨c :: s, text ++ behind, star⟩ =
      if place.accepts c then .inl ⟨s, behind, star⟩
      else Wildcard.back ⟨c :: s, text ++ behind, star⟩ := by
  cases written with
  | any => rfl
  | literal hstar hany hopening =>
    simp only [Wildcard.body, List.cons_append, List.nil_append, if_neg hstar, if_neg hany, if_neg
      hopening, Place.accepts, beq_iff_eq, @eq_comm Byte c]
  | inside units_ unmarked =>
    simp only [List.append_assoc, List.cons_append, List.nil_append]
    exact body_set (classMark_unmarked unmarked behind) units_
  | outside units_ hmark =>
    simp only [List.append_assoc, List.cons_append, List.nil_append]
    exact body_set (if_pos hmark) units_

theorem Place.Written.head {place : Place} (written : place.Written text) :
    ∃ first rest, text = first :: rest ∧ first ≠ byte '*' := by
  cases written with
  | any => exact ⟨_, _, rfl, by decide⟩
  | literal hstar => exact ⟨_, _, rfl, hstar⟩
  | inside => exact ⟨_, _, rfl, by decide⟩
  | outside => exact ⟨_, _, rfl, by decide⟩

namespace PatternWritten

variable {items : List (GlobItem Place)}

theorem isEmpty {text : List Byte} (written : PatternWritten items text) :
    text.isEmpty = items.isEmpty := by
  cases written with
  | nil => rfl
  | star => rfl
  | one hplace =>
    obtain ⟨first, rest, rfl, _⟩ := hplace.head
    rfl

theorem dropStars {text : List Byte} (written : PatternWritten items text) :
    PatternWritten (Data.dropStars items)
      (text.dropWhile fun c => c == byte '*') := by
  induction written with
  | nil => exact .nil
  | star _ ih => exact ih
  | one hplace written =>
    obtain ⟨first, rest, rfl, hfirst⟩ := hplace.head
    have hstays : (first == byte '*') = false := by simpa using hfirst
    rw [List.cons_append, List.dropWhile_cons, hstays, ← List.cons_append]
    exact .one hplace written

end PatternWritten

structure Wildcard.Follows (state : Wildcard) (globbing : Globbing Place Byte) :
    Prop where
  s : state.s = globbing.rest
  p : PatternWritten globbing.items state.p
  star : Option.Rel (fun saved saved' => PatternWritten saved'.1 saved.1 ∧ saved.2 = saved'.2)
    state.star globbing.star

variable {state : Wildcard} {globbing : Globbing Place Byte}
  {pattern : List Byte}

theorem Wildcard.Follows.back (follows : state.Follows globbing) :
    Sum.LiftRel Follows Eq state.back globbing.back := by
  have hstar := follows.star
  rw [Wildcard.back, Globbing.back]
  generalize state.star = one, globbing.star = two at hstar
  cases hstar with
  | none => exact .inr rfl
  | @some saved saved' related =>
    obtain ⟨written, hbackup⟩ := related
    exact .inl ⟨congrArg List.tail hbackup, written, .some ⟨written, congrArg List.tail hbackup⟩⟩

theorem Wildcard.Follows.body (follows : state.Follows globbing) :
    Sum.LiftRel Follows Eq state.body (globbing.body Place.accepts) := by
  obtain ⟨symbols, p, star⟩ := state
  obtain ⟨items, rest, star'⟩ := globbing
  obtain ⟨rfl, written, saved⟩ := follows
  cases symbols with
  | nil => exact .inr written.dropStars.isEmpty
  | cons c s =>
    cases written with
    | nil => exact back ⟨rfl, .nil, saved⟩
    | @star items text written =>
      have hbehind := written.dropStars
      have hcode : Wildcard.body ⟨c :: s, byte '*' :: text, star⟩ =
          if (text.dropWhile fun c => c == byte '*').isEmpty then .inr true
          else .inl ⟨c :: s, text.dropWhile fun c => c == byte '*',
            some (text.dropWhile fun c => c == byte '*', c :: s)⟩ := by
        simp only [Wildcard.body, if_true]
      rw [hcode, hbehind.isEmpty]
      refine (?_ : Sum.LiftRel Follows Eq _ (if (Data.dropStars items).isEmpty then .inr true
          else .inl ⟨Data.dropStars items, c :: s, some (Data.dropStars items, c :: s)⟩))
      split
      · exact .inr rfl
      · exact .inl ⟨rfl, hbehind, .some ⟨hbehind, rfl⟩⟩
    | @one place items text behind hplace written =>
      have hcode := body_place hplace c s behind star
      rw [List.append_eq] at *
      rw [hcode]
      refine (?_ : Sum.LiftRel Follows Eq _ (if place.accepts c then .inl ⟨items, s, star'⟩
          else Globbing.back ⟨.one place :: items, c :: s, star'⟩))
      split
      · exact .inl ⟨rfl, written, saved⟩
      · exact back ⟨rfl, .one hplace written, saved⟩

theorem exists_units (body : List Byte) (hbody : byte ']' ∉ body) :
    ∃ units, ClassUnit.Units units body := by
  match body with
  | [] => exact ⟨[], .nil⟩
  | first :: rest =>
    have hfirst : first ≠ byte ']' := fun h => hbody (h ▸ List.mem_cons_self)
    have hrest : byte ']' ∉ rest := fun h => hbody (List.mem_cons_of_mem _ h)
    by_cases hrange : ∃ last after, rest = byte '-' :: last :: after
    · obtain ⟨last, after, rfl⟩ := hrange
      have hlast : last ≠ byte ']' := fun h => hrest (by simp [h])
      obtain ⟨units, hunits⟩ := exists_units after (fun h => hrest (by simp [h]))
      exact ⟨.range first last :: units, .range hfirst hlast hunits⟩
    · obtain ⟨units, hunits⟩ := exists_units rest hrest
      exact ⟨.single first :: units, .single hfirst
        (fun last after h => hrange ⟨last, after, h⟩) hunits⟩
  termination_by body.length

theorem exists_set (body : List Byte) (hbody : byte ']' ∉ body) :
    ∃ inverted units,
      Place.Written (.set inverted units)
        (byte '[' :: body ++ [byte ']']) := by
  by_cases hmark : ∃ mark after, body = mark :: after ∧ (mark = byte '^' ∨ mark = byte '!')
  · obtain ⟨mark, after, rfl, hmark⟩ := hmark
    obtain ⟨units, hunits⟩ := exists_units after fun h => hbody (List.mem_cons_of_mem _ h)
    exact ⟨true, units, .outside hunits hmark⟩
  · obtain ⟨units, hunits⟩ := exists_units body hbody
    refine ⟨false, units, .inside hunits fun after => ⟨?_, ?_⟩⟩
    · exact fun h => hmark ⟨_, after, h, .inl rfl⟩
    · exact fun h => hmark ⟨_, after, h, .inr rfl⟩

theorem ClosedClasses.written (closed : ClosedClasses pattern) :
    ∃ items, PatternWritten items pattern := by
  induction closed with
  | nil => exact ⟨[], .nil⟩
  | @set body behind hbody _ ih =>
    obtain ⟨items, written⟩ := ih
    obtain ⟨inverted, units, hplace⟩ := exists_set body hbody
    refine ⟨.one (.set inverted units) :: items, ?_⟩
    simpa using PatternWritten.one hplace written
  | @other c behind hother _ ih =>
    obtain ⟨items, written⟩ := ih
    by_cases hstar : c = byte '*'
    · exact ⟨.star :: items, hstar ▸ .star written⟩
    by_cases hany : c = byte '?'
    · exact ⟨.one .any :: items, hany ▸ .one .any written⟩
    exact ⟨.one (.literal c) :: items, .one (.literal hstar hany hother) written⟩

theorem wildcardMatch_eq_matcher (written : PatternWritten items pattern)
    (str : List Byte) (rounds : Nat) :
    wildcardMatch rounds (some str) (some pattern) =
      iterate (Globbing.body Place.accepts) rounds
        (Globbing.start items str) :=
  iterate_related Wildcard.Follows (fun _ _ follows => follows.body) rounds ⟨rfl, written, .none⟩

/-- The function returns, and it returns 1 exactly for the strings that match.
-/
theorem wildcardMatch_iff_glob (str pattern : List Byte)
    (closed : ClosedClasses pattern) :
    ∃ rounds result,
      wildcardMatch rounds (some str) (some pattern) = some result ∧
      (result = true ↔ GlobMatches pattern str) := by
  obtain ⟨items, written⟩ := closed.written
  obtain ⟨rounds, result, hresult, hfits⟩ := Globbing.decides Place.accepts items str
  rw [← wildcardMatch_eq_matcher written] at hresult
  refine ⟨rounds, result, hresult, ?_⟩
  constructor
  · intro htrue
    exact ⟨items, written, hfits.mp htrue⟩
  · rintro ⟨others, written', fits⟩
    obtain ⟨rounds', result', hresult', hfits'⟩ := Globbing.decides Place.accepts others str
    rw [← wildcardMatch_eq_matcher written'] at hresult'
    rw [iterate_unique hresult hresult']
    exact hfits'.mpr fits

theorem wildcardMatch_iff_glob_range :
    ClosedClasses
      (byte '[' :: [byte 'a', byte '-', byte 'c'] ++ byte ']' :: [byte '*']) ∧
    ∃ rounds result,
      wildcardMatch rounds (some [byte 'b', byte 'z']) (some (byte '[' ::
        [byte 'a', byte '-', byte 'c'] ++ byte ']' :: [byte '*'])) =
        some result ∧
      (result = true ↔
          GlobMatches (byte '[' :: [byte 'a', byte '-', byte 'c'] ++ byte ']' ::
              [byte '*']) [byte 'b', byte 'z']) :=
  have closed : ClosedClasses (byte '[' :: [byte 'a', byte '-', byte 'c'] ++
      byte ']' :: [byte '*']) :=
    .set (by decide) (.other (by decide) .nil)
  ⟨closed, wildcardMatch_iff_glob _ _ closed⟩

example : wildcardMatch 9 (some [byte 'a', byte 'b', byte 'a', byte 'c'])
    (some [byte '*', byte 'a', byte '?']) = some true := by decide

end PerfProf.Expr
