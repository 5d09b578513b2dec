import Mathlib.Algebra.Order.Ring.Int

namespace PerfProf.Data

universe u v w

variable {σ : Type u} {ρ : Type v}

def iterate (body : σ → σ ⊕ ρ) : Nat → σ → Option ρ
  | 0, _ => none
  | rounds + 1, state =>
    match body state with
    | .inl next => iterate body rounds next
    | .inr result => some result

def Halts (body : σ → σ ⊕ ρ) (state : σ) : Prop :=
  ∃ rounds result, iterate body rounds state = some result

inductive Reaches (body : σ → σ ⊕ ρ) (start : σ) : σ → Prop
  | refl : Reaches body start start
  | tail {state next : σ} (reached : Reaches body start state)
      (hbody : body state = .inl next) : Reaches body start next

variable {body : σ → σ ⊕ ρ} {state next : σ}

theorem iterate_inl (hbody : body state = .inl next) (rounds : Nat) :
    iterate body (rounds + 1) state = iterate body rounds next := by
  rw [iterate, hbody]

theorem iterate_inr {result : ρ} (hbody : body state = .inr result)
    (rounds : Nat) : iterate body (rounds + 1) state = some result := by
  rw [iterate, hbody]

theorem halts_inl (hbody : body state = .inl next) :
    Halts body state ↔ Halts body next := by
  constructor
  · intro ⟨rounds, result, hresult⟩
    cases rounds with
    | zero => cases hresult
    | succ rounds =>
      rw [iterate_inl hbody] at hresult
      exact ⟨rounds, result, hresult⟩
  · intro ⟨rounds, result, hresult⟩
    exact ⟨rounds + 1, result, (iterate_inl hbody rounds).trans hresult⟩

theorem halts_congr (same : body state = body next) :
    Halts body state ↔ Halts body next := by
  have hiterate : ∀ rounds, iterate body rounds state = iterate body rounds next := by
    intro rounds
    cases rounds with
    | zero => rfl
    | succ rounds => rw [iterate, iterate, same]
  unfold Halts
  simp only [hiterate]

namespace Reaches

theorem trans {middle : σ} (first : Reaches body state middle)
    (second : Reaches body middle next) : Reaches body state next := by
  induction second with
  | refl => exact first
  | tail _ hbody ih => exact ih.tail hbody

theorem head {middle : σ} (hbody : body state = .inl middle)
    (rest : Reaches body middle next) : Reaches body state next :=
  (Reaches.refl.tail hbody).trans rest

theorem cases_head (reached : Reaches body state next) : next = state ∨
      ∃ middle, body state = .inl middle ∧ Reaches body middle next := by
  induction reached with
  | refl => exact .inl rfl
  | tail _ hbody ih =>
    rcases ih with rfl | ⟨middle, hfirst, hrest⟩
    · exact .inr ⟨_, hbody, .refl⟩
    · exact .inr ⟨middle, hfirst, hrest.tail hbody⟩

theorem halts (reached : Reaches body state next) :
    Halts body state ↔ Halts body next := by
  induction reached with
  | refl => exact Iff.rfl
  | tail _ hbody ih => exact ih.trans (halts_inl hbody)

theorem result {rounds : Nat} {result : ρ} (reached : Reaches body state next)
    (hresult : iterate body rounds state = some result) :
    ∃ rounds, iterate body rounds next = some result := by
  induction reached with
  | refl => exact ⟨rounds, hresult⟩
  | tail _ hbody ih =>
    obtain ⟨rounds, hrest⟩ := ih
    cases rounds with
    | zero => cases hrest
    | succ rounds => exact ⟨rounds, (iterate_inl hbody rounds).symm.trans hrest⟩

theorem preserves (Inv : σ → Prop)
    (preserved : ∀ state next, Inv state → body state = .inl next → Inv next)
    (holds : Inv state) (reached : Reaches body state next) : Inv next := by
  induction reached with
  | refl => exact holds
  | tail _ hbody ih => exact preserved _ _ ih hbody

end Reaches

theorem iterate_reaches {rounds : Nat} {result : ρ}
    (hresult : iterate body rounds state = some result) :
    ∃ last, Reaches body state last ∧ body last = .inr result := by
  induction rounds generalizing state with
  | zero => cases hresult
  | succ rounds ih =>
    cases hbody : body state with
    | inl next =>
      rw [iterate_inl hbody] at hresult
      obtain ⟨last, reached, hlast⟩ := ih hresult
      exact ⟨last, reached.head hbody, hlast⟩
    | inr value =>
      rw [iterate_inr hbody] at hresult
      cases hresult
      exact ⟨state, .refl, hbody⟩

theorem iterate_preserves (Inv : σ → Prop) (Post : ρ → Prop)
    (preserved : ∀ state next, Inv state → body state = .inl next → Inv next)
    (left : ∀ state result, Inv state → body state = .inr result → Post result)
    {rounds : Nat} {result : ρ} (holds : Inv state)
    (hresult : iterate body rounds state = some result) : Post result := by
  obtain ⟨last, reached, hbody⟩ := iterate_reaches hresult
  exact left last result (reached.preserves Inv preserved holds) hbody

theorem iterate_unique {rounds other : Nat} {result value : ρ}
    (hresult : iterate body rounds state = some result)
    (hvalue : iterate body other state = some value) : result = value := by
  induction rounds generalizing other state with
  | zero => cases hresult
  | succ rounds ih =>
    cases other with
    | zero => cases hvalue
    | succ other =>
      cases hbody : body state with
      | inl next =>
        rw [iterate_inl hbody] at hresult hvalue
        exact ih hresult hvalue
      | inr last =>
        rw [iterate_inr hbody] at hresult hvalue
        exact Option.some.inj (hresult.symm.trans hvalue)

theorem iterate_related {τ : Type w} {other : τ → τ ⊕ ρ}
    (Related : σ → τ → Prop)
    (hbody : ∀ state state', Related state state' →
      Sum.LiftRel Related Eq (body state) (other state'))
    (rounds : Nat) {state : σ} {state' : τ} (related : Related state state') :
    iterate body rounds state = iterate other rounds state' := by
  induction rounds generalizing state state' with
  | zero => rfl
  | succ rounds ih =>
    have hround := hbody state state' related
    rw [iterate, iterate]
    generalize body state = one, other state' = two at hround
    cases hround with
    | inl related => exact ih related
    | inr hresult => exact congrArg some hresult

theorem iterate_of_decreasing (measure : σ → Nat)
    (decreasing : ∀ middle next, Reaches body state middle →
      body middle = .inl next →
      measure next < measure middle)
    {rounds : Nat} (enough : measure state < rounds) :
    ∃ result, iterate body rounds state = some result := by
  induction rounds generalizing state with
  | zero => exact absurd enough (Nat.not_lt_zero _)
  | succ rounds ih =>
    cases hbody : body state with
    | inr result => exact ⟨result, iterate_inr hbody rounds⟩
    | inl next =>
      have hless := decreasing state next .refl hbody
      obtain ⟨result, hresult⟩ := ih (fun middle after reached => decreasing middle after
        (reached.head hbody)) (Nat.lt_of_lt_of_le hless (Nat.le_of_lt_succ enough))
      exact ⟨result, (iterate_inl hbody rounds).trans hresult⟩

theorem halts_of_decreasing {β : Type w} [LT β] [WellFoundedLT β] (state : σ)
    (measure : σ → β)
    (decreasing : ∀ middle next, Reaches body state middle →
      body middle = .inl next →
      measure next < measure middle) :
    Halts body state := by
  generalize hvalue : measure state = value
  induction value using WellFoundedLT.induction generalizing state with
  | _ value ih =>
    cases hbody : body state with
    | inr result => exact ⟨1, result, iterate_inr hbody 0⟩
    | inl next =>
      rw [halts_inl hbody]
      refine ih (measure next) ?_ next ?_ rfl
      · exact hvalue ▸ decreasing state next .refl hbody
      · exact fun middle after reached => decreasing middle after (reached.head hbody)

theorem not_halts_of_invariant (Inv : σ → Prop)
    (goesOn : ∀ state, Inv state → ∃ next, body state = .inl next ∧ Inv next)
    (holds : Inv state) : ¬ Halts body state := by
  intro ⟨rounds, result, hresult⟩
  induction rounds generalizing state with
  | zero => cases hresult
  | succ rounds ih =>
    obtain ⟨next, hbody, hnext⟩ := goesOn state holds
    rw [iterate_inl hbody] at hresult
    exact ih hnext hresult

end PerfProf.Data
