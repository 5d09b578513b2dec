import Mathlib.Algebra.Order.Ring.Int
import Mathlib.Data.List.Basic
import Mathlib.Data.List.Induction

namespace PerfProf.Data

/-! A queue that drops items it has no room for and says later how many. -/

universe u

inductive Note (α : Type u) where
  | queued (item : α)
  | dropped (item : α)
  | lost (count : Nat)
  deriving DecidableEq, Repr

namespace Note

variable {α : Type u}

def item? : Note α → Option α
  | queued item => some item
  | dropped item => some item
  | lost _ => none

def queued? : Note α → Option α
  | queued item => some item
  | _ => none

def isDropped : Note α → Bool
  | dropped _ => true
  | _ => false

def announced : Note α → Nat
  | lost count => count
  | _ => 0

def tally (pending : Nat) : Note α → Nat
  | queued _ => pending
  | dropped _ => pending + 1
  | lost _ => 0

end Note

section Ledger

variable {α : Type u} {log : List (Note α)}

def pending (log : List (Note α)) : Nat := log.foldl Note.tally 0

theorem pending_snoc (log : List (Note α)) (note : Note α) :
    pending (log ++ [note]) = note.tally (pending log) := by
  rw [pending, List.foldl_append]
  rfl

def Located (log : List (Note α)) : Prop :=
  ∀ before between after gap later,
    log = before ++ .dropped gap :: (between ++ .queued later :: after) →
    ∃ count, .lost count ∈ between

theorem queued_sublist (log : List (Note α)) :
    (log.filterMap Note.queued?).Sublist (log.filterMap Note.item?) := by
  induction log with
  | nil => exact .slnil
  | cons note rest ih =>
    cases note with
    | queued item => exact ih.cons_cons item
    | dropped item => exact ih.cons item
    | lost count => exact ih

theorem pending_pos_iff :
    0 < pending log ↔
      ∃ before between gap, log = before ++ .dropped gap :: between ∧
        ∀ count, .lost count ∉ between := by
  induction log using List.reverseRecOn with
  | nil => simp [pending]
  | append_singleton log note ih =>
    rw [pending_snoc]
    cases note with
    | queued item =>
      rw [Note.tally, ih]
      constructor
      · rintro ⟨before, between, gap, rfl, hnone⟩
        refine ⟨before, between ++ [.queued item], gap, by simp, ?_⟩
        intro count member
        rcases List.mem_append.mp member with member | member
        · exact hnone count member
        · cases List.mem_singleton.mp member
      · rintro ⟨before, between, gap, hlog, hnone⟩
        rcases List.eq_nil_or_concat' between with rfl | ⟨front, last, rfl⟩
        · have hlast := (List.append_inj_right' hlog rfl)
          cases hlast
        · rw [← List.cons_append, ← List.append_assoc] at hlog
          obtain ⟨hfront, _⟩ := List.append_inj' hlog rfl
          exact ⟨before, front, gap, hfront,
            fun count member => hnone count (List.mem_append_left _ member)⟩
    | dropped item =>
      refine ⟨fun _ => ⟨log, [], item, rfl, by simp⟩, fun _ => ?_⟩
      exact Nat.succ_pos _
    | lost count =>
      refine ⟨fun absurd => (Nat.lt_irrefl 0 absurd).elim, ?_⟩
      rintro ⟨before, between, gap, hlog, hnone⟩
      rcases List.eq_nil_or_concat' between with rfl | ⟨front, last, rfl⟩
      · have hlast := (List.append_inj_right' hlog rfl)
        cases hlast
      · rw [← List.cons_append, ← List.append_assoc] at hlog
        obtain ⟨_, hlast⟩ := List.append_inj' hlog rfl
        cases hlast
        exact absurd (List.mem_append_right front (.head [])) (hnone count)

theorem located_nil : Located ([] : List (Note α)) := by
  intro before between after gap later hlog
  simp at hlog

theorem located_snoc (log : List (Note α)) (note : Note α) :
    Located (log ++ [note]) ↔
      Located log ∧ (note.queued?.isSome = true → pending log = 0) := by
  constructor
  · intro located
    refine ⟨?_, ?_⟩
    · intro before between after gap later hlog
      refine located before between (after ++ [note]) gap later ?_
      rw [hlog]
      simp
    · intro hqueued
      cases note with
      | dropped item => cases hqueued
      | lost count => cases hqueued
      | queued item =>
        by_contra hpending
        obtain ⟨before, between, gap, rfl, hnone⟩ :=
          pending_pos_iff.mp (Nat.pos_of_ne_zero hpending)
        obtain ⟨count, member⟩ := located before between [] gap item (by simp)
        exact hnone count member
  · intro ⟨located, clear⟩ before between after gap later hlog
    rcases List.eq_nil_or_concat' after with rfl | ⟨front, last, rfl⟩
    · rw [← List.cons_append, ← List.append_assoc] at hlog
      obtain ⟨hsame, hnote⟩ := List.append_inj' hlog rfl
      cases hnote
      by_contra hnone
      have hpos := pending_pos_iff.mpr
        ⟨before, between, gap, hsame, fun count member => hnone ⟨count, member⟩⟩
      rw [clear rfl] at hpos
      exact Nat.lt_irrefl 0 hpos
    · have hsplit : log ++ [note] = (before ++ .dropped gap ::
          (between ++ .queued later :: front)) ++ [last] := by
        rw [hlog]
        simp
      exact located before between front gap later (List.append_inj' hsplit rfl).1

theorem located_foldl {σ β : Type u} {log : σ → List (Note α)}
    {step : σ → β → σ} {Overtakes : σ → β → Prop} {Inv : σ → Prop}
    (hstep : ∀ state action, Inv state →
      Inv (step state action) ∧
        (Located (log (step state action)) ↔
            Located (log state) ∧ ¬ Overtakes state action))
    {state : σ} (holds : Inv state) (actions : List β) :
    Located (log (actions.foldl step state)) ↔
      Located (log state) ∧
      ∀ before action after, actions = before ++ action :: after →
        ¬ Overtakes (before.foldl step state) action := by
  induction actions generalizing state with
  | nil => simp
  | cons first rest ih =>
    obtain ⟨hnext, hlocated⟩ := hstep state first holds
    rw [List.foldl_cons, ih hnext, hlocated, and_assoc]
    refine and_congr_right fun _ => ?_
    constructor
    · rintro ⟨hfirst, hrest⟩ before action after hsplit
      cases before with
      | nil =>
        cases hsplit
        exact hfirst
      | cons head before =>
        cases hsplit
        exact hrest before action after rfl
    · intro hall
      refine ⟨hall [] first rest rfl, ?_⟩
      rintro before action after rfl
      exact hall (first :: before) action after rfl

theorem dropped_balance
    (settled : ∀ before after count, log = before ++ .lost count :: after →
      count = pending before) :
    (log.filter Note.isDropped).length =
      (log.map Note.announced).sum + pending log := by
  induction log using List.reverseRecOn with
  | nil => rfl
  | append_singleton log note ih =>
    have hlog := ih fun before after count hsplit =>
      settled before (after ++ [note]) count (by rw [hsplit]; simp)
    rw [List.filter_append, List.length_append, List.map_append,
      List.sum_append, pending_snoc, hlog]
    cases note with
    | queued item => exact Nat.add_right_comm _ _ 0
    | dropped item => exact (Nat.add_assoc _ _ 1).trans (by simp [Note.tally,
        Note.announced])
    | lost count =>
      have hcount := settled log [] count rfl
      simp [Note.isDropped, Note.announced, Note.tally, hcount]

end Ledger

end PerfProf.Data
