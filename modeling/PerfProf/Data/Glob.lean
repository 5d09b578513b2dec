import PerfProf.Data.Loop
import Mathlib.Data.List.Basic
import Mathlib.Data.Prod.Lex

namespace PerfProf.Data

/-! Patterns made of places for one symbol and of stars for any number of them.
-/

universe u v w

inductive GlobItem (ι : Type u) where
  | star
  | one (place : ι)
  deriving DecidableEq, Repr

variable {ι : Type u} {α : Type v}

inductive Fits (accepts : ι → α → Bool) : List (GlobItem ι) → List α → Prop
  | nil : Fits accepts [] []
  | star {items : List (GlobItem ι)} {rest : List α} (skipped : List α)
      (fits : Fits accepts items rest) :
      Fits accepts (.star :: items) (skipped ++ rest)
  | one {place : ι} {items : List (GlobItem ι)} {symbol : α} {rest : List α}
      (haccepts : accepts place symbol = true)
      (fits : Fits accepts items rest) :
      Fits accepts (.one place :: items) (symbol :: rest)

variable {accepts : ι → α → Bool}

variable {items : List (GlobItem ι)} {symbols : List α}

theorem fits_one_iff : Fits accepts (.one place :: items) (symbol :: rest) ↔
      accepts place symbol = true ∧ Fits accepts items rest := by
  constructor
  · intro fits
    cases fits with
    | one haccepts fits => exact ⟨haccepts, fits⟩
  · intro ⟨haccepts, fits⟩
    exact .one haccepts fits

theorem fits_star_iff : Fits accepts (.star :: items) symbols ↔
      ∃ rest, rest <:+ symbols ∧ Fits accepts items rest := by
  constructor
  · intro fits
    cases fits with
    | star skipped fits => exact ⟨_, List.suffix_append _ _, fits⟩
  · rintro ⟨rest, ⟨skipped, rfl⟩, fits⟩
    exact .star skipped fits

def dropStars : List (GlobItem ι) → List (GlobItem ι)
  | .star :: items => dropStars items
  | items => items

theorem dropStars_length (items : List (GlobItem ι)) :
    (dropStars items).length ≤ items.length := by
  induction items with
  | nil => exact Nat.le_refl _
  | cons item items ih =>
    cases item with
    | star => exact Nat.le_succ_of_le ih
    | one place => exact Nat.le_refl _

theorem fits_star_dropStars : Fits accepts (.star :: items) symbols ↔
      Fits accepts (.star :: dropStars items) symbols := by
  induction items with
  | nil => exact Iff.rfl
  | cons item items ih =>
    cases item with
    | one place => exact Iff.rfl
    | star =>
      rw [dropStars, ← ih, fits_star_iff, fits_star_iff]
      constructor
      · rintro ⟨rest, hrest, fits⟩
        obtain ⟨last, hlast, fits⟩ := fits_star_iff.mp fits
        exact ⟨last, hlast.trans hrest, fits⟩
      · rintro ⟨rest, hrest, fits⟩
        exact ⟨rest, hrest, fits_star_iff.mpr ⟨rest, List.suffix_rfl, fits⟩⟩

theorem fits_no_symbol : Fits accepts items [] ↔ dropStars items = [] := by
  induction items with
  | nil => exact iff_of_true .nil rfl
  | cons item items ih =>
    cases item with
    | star =>
      rw [dropStars, ← ih, fits_star_iff]
      constructor
      · rintro ⟨rest, hrest, fits⟩
        cases List.suffix_nil.mp hrest
        exact fits
      · intro fits
        exact ⟨[], List.suffix_rfl, fits⟩
    | one place => exact iff_of_false (nofun) (nofun)

def Places (items : List (GlobItem ι)) : Prop :=
  ∀ item ∈ items, ∃ place, item = .one place

theorem Fits.behind (hplaces : Places places)
    (fits : Fits accepts (places ++ items) symbols) :
    ∃ taken rest, symbols = taken ++ rest ∧
      taken.length = places.length ∧
      Fits accepts items rest := by
  induction places generalizing symbols with
  | nil => exact ⟨[], symbols, rfl, rfl, fits⟩
  | cons item places ih =>
    obtain ⟨place, rfl⟩ := hplaces item List.mem_cons_self
    cases fits with
    | @one _ _ symbol _ _ fits =>
      obtain ⟨taken, rest, rfl, hlength, fits⟩ := ih (fun other hother => hplaces other
        (List.mem_cons_of_mem _ hother)) fits
      exact ⟨symbol :: taken, rest, rfl, congrArg Nat.succ hlength, fits⟩

structure Globbing (ι : Type u) (α : Type v) where
  items : List (GlobItem ι)
  rest : List α
  star : Option (List (GlobItem ι) × List α)

namespace Globbing

def back (state : Globbing ι α) : Globbing ι α ⊕ Bool :=
  match state.star with
  | none => .inr false
  | some (items, backup) =>
    .inl { items := items, rest := backup.tail
           star := some (items, backup.tail) }

def body (accepts : ι → α → Bool) (state : Globbing ι α) :
    Globbing ι α ⊕ Bool :=
  match state.rest with
  | [] => .inr (dropStars state.items).isEmpty
  | symbol :: rest =>
    match state.items with
    | [] => state.back
    | .star :: items =>
      if (dropStars items).isEmpty then .inr true
      else
        .inl { items := dropStars items, rest := symbol :: rest
               star := some (dropStars items, symbol :: rest) }
    | .one place :: items =>
      if accepts place symbol then
        .inl { state with items := items, rest := rest }
      else state.back

def start (items : List (GlobItem ι)) (symbols : List α) : Globbing ι α :=
  { items := items, rest := symbols, star := none }

def Saved (state : Globbing ι α) : Prop :=
  ∀ items backup, state.star = some (items, backup) →
    ∃ places taken, items = places ++ state.items ∧
      backup = taken ++ state.rest ∧ places.length = taken.length ∧
      Places places

def Hope (accepts : ι → α → Bool) (state : Globbing ι α) : Prop :=
  Fits accepts state.items state.rest ∨ ∃ items backup, state.star = some (items, backup) ∧
      ∃ symbols, symbols <:+ backup.tail ∧ Fits accepts items symbols

theorem suffix_iff_tail :
    symbols <:+ list ↔ symbols = list ∨ symbols <:+ list.tail := by
  cases list with
  | nil => simp
  | cons head tail => exact List.suffix_cons_iff

variable {items : List (GlobItem ι)} {rest : List α}

theorem hope_behind_star :
    Hope accepts { items := items, rest := rest, star := some (items, rest) } ↔
      ∃ symbols, symbols <:+ rest ∧ Fits accepts items symbols := by
  constructor
  · rintro (fits | ⟨_, _, hstar, symbols, hsymbols, fits⟩)
    · exact ⟨rest, List.suffix_rfl, fits⟩
    · cases hstar
      exact ⟨symbols, suffix_iff_tail.mpr (.inr hsymbols), fits⟩
  · rintro ⟨symbols, hsymbols, fits⟩
    rcases suffix_iff_tail.mp hsymbols with rfl | htail
    · exact .inl fits
    · exact .inr ⟨_, _, rfl, symbols, htail, fits⟩

variable {state : Globbing ι α}

theorem Saved.behind (saved : state.Saved)
    (hstar : state.star = some (items, backup)) (hsymbols : symbols <:+ backup)
    (fits : Fits accepts items symbols) :
    ∃ rest, rest <:+ state.rest ∧ Fits accepts state.items rest := by
  obtain ⟨places, taken, rfl, rfl, hlength, hplaces⟩ := saved _ _ hstar
  obtain ⟨first, rest, rfl, hfirst, fits⟩ := fits.behind hplaces
  refine ⟨rest, ?_, fits⟩
  have hrest : rest <:+ taken ++ state.rest := (List.suffix_append first rest).trans hsymbols
  have hshort : rest.length ≤ state.rest.length := by
    have := hsymbols.length_le
    simp only [List.length_append] at this
    omega
  exact List.suffix_of_suffix_length_le hrest (List.suffix_append taken state.rest) hshort

theorem Saved.here :
    Saved { items := items, rest := rest, star := some (items, rest) } := by
  intro _ _ hstar
  cases hstar
  exact ⟨[], [], rfl, rfl, rfl, nofun⟩

inductive Round (accepts : ι → α → Bool) :
    Globbing ι α → Globbing ι α ⊕ Bool → Prop
  | ended (items : List (GlobItem ι))
      (star : Option (List (GlobItem ι) × List α)) :
      Round accepts ⟨items, [], star⟩ (.inr (dropStars items).isEmpty)
  | swallow {items : List (GlobItem ι)} (symbol : α) (rest : List α)
      (star : Option (List (GlobItem ι) × List α))
      (hlast : dropStars items = []) :
      Round accepts ⟨.star :: items, symbol :: rest, star⟩ (.inr true)
  | star (items : List (GlobItem ι)) (symbol : α) (rest : List α)
      (star : Option (List (GlobItem ι) × List α)) :
      Round accepts ⟨.star :: items, symbol :: rest, star⟩ (.inl ⟨dropStars items, symbol :: rest,
          some (dropStars items, symbol :: rest)⟩)
  | one {place : ι} {symbol : α} (items : List (GlobItem ι)) (rest : List α)
      (star : Option (List (GlobItem ι) × List α))
      (haccepts : accepts place symbol = true) :
      Round accepts ⟨.one place :: items, symbol :: rest, star⟩ (.inl ⟨items, rest, star⟩)
  | stuck {items : List (GlobItem ι)} {symbol : α} {rest : List α}
      (misfit : ¬ Fits accepts items (symbol :: rest)) :
      Round accepts ⟨items, symbol :: rest, none⟩ (.inr false)
  | back {items : List (GlobItem ι)} {symbol : α} {rest : List α}
      (earlier : List (GlobItem ι)) (backup : List α)
      (misfit : ¬ Fits accepts items (symbol :: rest)) :
      Round accepts ⟨items, symbol :: rest, some (earlier, backup)⟩
        (.inl ⟨earlier, backup.tail, some (earlier, backup.tail)⟩)

theorem Round.misfit (misfit : ¬ Fits accepts items (symbol :: rest))
    (star : Option (List (GlobItem ι) × List α)) :
    Round accepts ⟨items, symbol :: rest, star⟩
      (Globbing.back ⟨items, symbol :: rest, star⟩) := by
  cases star with
  | none => exact .stuck misfit
  | some pair => exact .back pair.1 pair.2 misfit

theorem round (accepts : ι → α → Bool) (state : Globbing ι α) :
    Round accepts state (state.body accepts) := by
  obtain ⟨items, symbols, star⟩ := state
  cases symbols with
  | nil => exact .ended items star
  | cons symbol rest =>
    cases items with
    | nil => exact .misfit (nofun) star
    | cons item items =>
      cases item with
      | star =>
        cases hlast : dropStars items with
        | nil => simpa [body, hlast] using .swallow symbol rest star hlast
        | cons first others =>
          have hround : Round accepts _ _ := .star items symbol rest star
          simpa [body, hlast] using hround
      | one place =>
        cases haccepts : accepts place symbol with
        | true => simpa [body, haccepts] using .one items rest star haccepts
        | false =>
          have misfit : ¬ Fits accepts (.one place :: items) (symbol :: rest) := by
            simp [fits_one_iff, haccepts]
          simpa [body, haccepts] using Round.misfit misfit star

theorem saved_start (items : List (GlobItem ι)) (symbols : List α) :
    (start items symbols).Saved := by
  intro _ _ hstar
  cases hstar

theorem Saved.next {next : Globbing ι α} (saved : state.Saved)
    (hround : Round accepts state (.inl next)) : next.Saved := by
  cases hround with
  | star items symbol rest star => exact Saved.here
  | back earlier backup misfit => exact Saved.here
  | @one place symbol items rest star haccepts =>
    intro earlier backup hstar
    obtain ⟨places, taken, rfl, rfl, hlength, hplaces⟩ := saved _ _ hstar
    refine ⟨places ++ [.one place], taken ++ [symbol], ?_, ?_, ?_, ?_⟩
    · simp
    · simp
    · simp [hlength]
    · intro other hother
      rcases List.mem_append.mp hother with hold | hnew
      · exact hplaces other hold
      · exact ⟨place, List.mem_singleton.mp hnew⟩

theorem Saved.hope {next : Globbing ι α} (saved : state.Saved)
    (hround : Round accepts state (.inl next)) :
    next.Hope accepts ↔ state.Hope accepts := by
  cases hround with
  | star items symbol rest star =>
    rw [hope_behind_star, ← fits_star_iff, ← fits_star_dropStars]
    refine ⟨.inl, ?_⟩
    rintro (fits | ⟨earlier, backup, hstar, symbols, hsymbols, fits⟩)
    · exact fits
    · obtain ⟨last, hlast, fits⟩ := saved.behind hstar (suffix_iff_tail.mpr (.inr hsymbols)) fits
      obtain ⟨final, hfinal, fits⟩ := fits_star_iff.mp fits
      exact fits_star_iff.mpr ⟨final, hfinal.trans hlast, fits⟩
  | one items rest star haccepts =>
    rw [Hope, Hope, fits_one_iff]
    simp only [haccepts, true_and]
  | back earlier backup misfit =>
    rw [hope_behind_star]
    constructor
    · rintro ⟨symbols, hsymbols, fits⟩
      exact .inr ⟨earlier, backup, rfl, symbols, hsymbols, fits⟩
    · rintro (fits | ⟨_, _, hstar, symbols, hsymbols, fits⟩)
      · exact absurd fits misfit
      · cases hstar
        exact ⟨symbols, hsymbols, fits⟩

theorem Saved.result {result : Bool} (saved : state.Saved)
    (hround : Round accepts state (.inr result)) :
    result = true ↔ state.Hope accepts := by
  cases hround with
  | ended items star =>
    rw [List.isEmpty_iff, ← fits_no_symbol]
    refine ⟨.inl, ?_⟩
    rintro (fits | ⟨earlier, backup, hstar, symbols, hsymbols, fits⟩)
    · exact fits
    · obtain ⟨rest, hrest, fits⟩ := saved.behind hstar (suffix_iff_tail.mpr (.inr hsymbols)) fits
      cases List.suffix_nil.mp hrest
      exact fits
  | swallow symbol rest star hlast =>
    refine iff_of_true rfl (.inl ?_)
    rw [fits_star_dropStars, hlast, fits_star_iff]
    exact ⟨[], List.nil_suffix, .nil⟩
  | stuck misfit =>
    refine iff_of_false (nofun) ?_
    rintro (fits | ⟨_, _, hstar, _⟩)
    · exact misfit fits
    · cases hstar

def progress (state : Globbing ι α) : ℕ ×ₗ ℕ ×ₗ ℕ ×ₗ ℕ :=
  toLex (if state.star.isSome then 0 else 1, toLex ((state.star.elim [] Prod.snd).length,
      toLex (state.rest.length, state.items.length)))

theorem Saved.progress_lt {next : Globbing ι α} (saved : state.Saved)
    (hround : Round accepts state (.inl next)) :
    next.progress < state.progress := by
  cases hround with
  | star items symbol rest star =>
    cases star with
    | none => simp [progress, Prod.Lex.lt_iff]
    | some pair =>
      obtain ⟨_, taken, _, hbackup, _⟩ := saved _ _ rfl
      have hitems := dropStars_length items
      simp only [progress, Prod.Lex.lt_iff, hbackup, Option.isSome_some, Option.elim_some,
        List.length_append, List.length_cons, ofLex_toLex, if_true, true_and]
      omega
  | one items rest star haccepts => simp [progress, Prod.Lex.lt_iff]
  | back earlier backup misfit =>
    obtain ⟨_, taken, _, hbackup, _⟩ := saved _ _ rfl
    simp [progress, Prod.Lex.lt_iff, hbackup]

theorem decides (accepts : ι → α → Bool) (items : List (GlobItem ι))
    (symbols : List α) :
    ∃ rounds result,
      iterate (body accepts) rounds (start items symbols) = some result ∧
      (result = true ↔ Fits accepts items symbols) := by
  have hsaved : ∀ state, Reaches (body accepts) (start items symbols) state →
      state.Saved := by
    intro state reached
    refine reached.preserves Saved ?_ (saved_start items symbols)
    intro state next saved hbody
    exact saved.next (hbody ▸ round accepts state)
  have halts : Halts (body accepts) (start items symbols) :=
    halts_of_decreasing (start items symbols) progress fun middle next reached hbody =>
        (hsaved middle reached).progress_lt (hbody ▸ round accepts middle)
  obtain ⟨rounds, result, hresult⟩ := halts
  refine ⟨rounds, result, hresult, ?_⟩
  refine iterate_preserves (fun state => state.Saved ∧ (state.Hope accepts ↔ Fits accepts items
      symbols)) (fun result => result = true ↔ Fits accepts items symbols) ?_ ?_ ⟨saved_start items
      symbols, ?_⟩ hresult
  · intro state next ⟨saved, hope⟩ hbody
    have hround := hbody ▸ round accepts state
    exact ⟨saved.next hround, (saved.hope hround).trans hope⟩
  · intro state result ⟨saved, hope⟩ hbody
    exact (saved.result (hbody ▸ round accepts state)).trans hope
  · refine ⟨?_, .inl⟩
    rintro (fits | ⟨_, _, hstar, _⟩)
    · exact fits
    · cases hstar

end Globbing

end PerfProf.Data
