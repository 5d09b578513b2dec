import PerfProf.Data.Transition

namespace PerfProf.Data

/-! Gaps in a chronological sequence of events, announced before an event behind
their start arrives. -/

universe u v w

structure GapView (ν : Type u) (τ : Type v) where
  start : ν → τ
  stop : ν → τ
  reclaimed : ν → Bool
  reclaim : ν → ν
  start_reclaim : ∀ node, start (reclaim node) = start node
  stop_reclaim : ∀ node, stop (reclaim node) = stop node

inductive Arrival (τ : Type v) where
  | event (time : τ)
  | gap (start stop : τ)
  | other

variable {ν : Type u} {τ : Type v} {σ : Type w} [LinearOrder τ]

def Chronological (arrivals : List (Arrival τ)) : Prop :=
  arrivals.Pairwise fun earlier later =>
    match earlier, later with
    | .event time, .event time' => time ≤ time'
    | .event time, .gap start _ => time ≤ start
    | _, _ => True

variable {arrivals : List (Arrival τ)} {start stop : τ}

theorem Chronological.event_le
    (chronological : Chronological (arrivals ++ [.event later]))
    (hevent : .event time ∈ arrivals) : time ≤ later :=
  (List.pairwise_append.mp chronological).2.2 _ hevent _ (List.mem_singleton_self _)

theorem Chronological.event_le_gap
    (chronological : Chronological (arrivals ++ [.gap start stop]))
    (hevent : .event time ∈ arrivals) : time ≤ start :=
  (List.pairwise_append.mp chronological).2.2 _ hevent _ (List.mem_singleton_self _)

namespace GapView

variable (view : GapView ν τ)

def add (node : ν) (gaps : List ν) : List ν :=
  let earlier := fun other => decide (view.start other ≤ view.start node)
  gaps.takeWhile earlier ++ node :: gaps.dropWhile earlier

def pass (clear : ν → σ → σ) (time : τ) : List ν → σ → List ν × σ × Bool
  | [], state => ([], state, false)
  | node :: rest, state =>
    if time ≤ view.start node then (node :: rest, state, false)
    else
      let state := if view.reclaimed node then state else clear node state
      if time < view.stop node then (view.reclaim node :: rest, state, true)
      else pass clear time rest state

def cleared (clear : ν → σ → σ) (nodes : List ν) (state : σ) : σ :=
  nodes.foldl (fun state node =>
    if view.reclaimed node then state else clear node state) state

theorem pass_cases (clear : ν → σ → σ) (time : τ) (gaps : List ν) (state : σ) :
    ∃ passed rest, gaps = passed ++ rest ∧
      (∀ node ∈ passed, view.start node < time ∧ view.stop node ≤ time) ∧
      ((view.pass clear time gaps state =
            (rest, view.cleared clear passed state, false) ∧
          ∀ node ∈ rest.head?, time ≤ view.start node) ∨
        ∃ node behind, rest = node :: behind ∧
          view.start node < time ∧
          time < view.stop node ∧
          view.pass clear time gaps state =
            (view.reclaim node :: behind,
              view.cleared clear (passed ++ [node]) state, true)) := by
  induction gaps generalizing state with
  | nil => exact ⟨[], [], rfl, nofun, .inl ⟨rfl, nofun⟩⟩
  | cons node gaps ih =>
    by_cases hstart : time ≤ view.start node
    · refine ⟨[], node :: gaps, rfl, nofun, .inl ⟨if_pos hstart, ?_⟩⟩
      rintro _ ⟨⟩
      exact hstart
    have hafter := lt_of_not_ge hstart
    by_cases hstop : time < view.stop node
    · exact ⟨[], node :: gaps, rfl, nofun, .inr ⟨node, gaps, rfl, hafter, hstop,
        (if_neg hstart).trans (if_pos hstop)⟩⟩
    obtain ⟨passed, rest, rfl, hpassed, hcases⟩ := ih
      (if view.reclaimed node then state else clear node state)
    refine ⟨node :: passed, rest, rfl, ?_, ?_⟩
    · rintro other hother
      rcases List.mem_cons.mp hother with rfl | hother
      · exact ⟨hafter, le_of_not_gt hstop⟩
      · exact hpassed other hother
    · have hpass : view.pass clear time (node :: (passed ++ rest)) state =
          view.pass clear time (passed ++ rest)
            (if view.reclaimed node then state else clear node state) :=
        (if_neg hstart).trans (if_neg hstop)
      rw [hpass]
      exact hcases

variable {gaps : List ν} {time : τ} {held : σ → Set τ} {clear : ν → σ → σ}
  {past : List (Arrival τ)}

theorem sorted_head
    (sorted : gaps.Pairwise fun first second =>
      view.start first ≤ view.start second)
    (hhead : ∀ node ∈ gaps.head?, time ≤ view.start node) :
    ∀ node ∈ gaps, time ≤ view.start node := by
  cases gaps with
  | nil => exact nofun
  | cons first rest =>
    intro node hnode
    have hfirst := hhead first rfl
    rcases List.mem_cons.mp hnode with rfl | hrest
    · exact hfirst
    · exact hfirst.trans ((List.pairwise_cons.mp sorted).1 node hrest)

omit [LinearOrder τ] in
theorem held_cleared (hclear : ∀ node state, held (clear node state) = ∅)
    (nodes : List ν) (state : σ) :
    held (view.cleared clear nodes state) = ∅ ∨
    view.cleared clear nodes state = state ∧
      ∀ node ∈ nodes, view.reclaimed node = true := by
  induction nodes generalizing state with
  | nil => exact .inr ⟨rfl, nofun⟩
  | cons node nodes ih =>
    cases hreclaimed : view.reclaimed node with
    | true =>
      have hsame : view.cleared clear (node :: nodes) state = view.cleared clear nodes state := by
        simp [cleared, hreclaimed]
      rw [hsame]
      refine (ih state).imp_right fun hrest => ⟨hrest.1, ?_⟩
      rintro other hother
      rcases List.mem_cons.mp hother with rfl | hother
      · exact hreclaimed
      · exact hrest.2 other hother
    | false =>
      have hcleared : view.cleared clear (node :: nodes) state =
          view.cleared clear nodes (clear node state) := by
        simp [cleared, hreclaimed]
      left
      rw [hcleared]
      rcases ih (clear node state) with hempty | ⟨hsame, _⟩
      · exact hempty
      · rw [hsame]
        exact hclear node state

structure Kept (past : List (Arrival τ)) (gaps : List ν) (held : Set τ) :
    Prop where
  sorted : gaps.Pairwise fun first second => view.start first ≤ view.start second
  parted : ∀ time ∈ held, ∀ start stop, .gap start stop ∈ past →
    time ≤ start → ∀ event, .event event ∈ past → event ≤ start
  known : ∀ start stop, .gap start stop ∈ past →
    (∃ node ∈ gaps, view.start node = start ∧ view.stop node = stop) ∨
      ∃ event, .event event ∈ past ∧ start < event ∧ stop ≤ event
  emptied : ∀ node ∈ gaps, view.reclaimed node = true →
    held = ∅ ∧ ∃ event, .event event ∈ past ∧ view.start node < event

theorem Kept.nil (held : Set τ) : view.Kept [] [] held where
  sorted := .nil
  parted := fun _ _ _ _ => nofun
  known := nofun
  emptied := nofun

theorem add_split (node : ν) (gaps : List ν) :
    ∃ before after, gaps = before ++ after ∧
      view.add node gaps = before ++ node :: after ∧
      (∀ other ∈ before, view.start other ≤ view.start node) ∧
      ∀ other ∈ after.head?, view.start node ≤ view.start other := by
  induction gaps with
  | nil => exact ⟨[], [], rfl, rfl, nofun, nofun⟩
  | cons first rest ih =>
    by_cases hfirst : view.start first ≤ view.start node
    · obtain ⟨before, after, hrest, hadd, hbefore, hafter⟩ := ih
      refine ⟨first :: before, after, congrArg _ hrest, ?_, ?_, hafter⟩
      · simpa [add, hfirst] using hadd
      · rintro other hother
        rcases List.mem_cons.mp hother with rfl | hother
        · exact hfirst
        · exact hbefore other hother
    · refine ⟨[], first :: rest, rfl, by simp [add, hfirst], nofun, ?_⟩
      rintro _ ⟨⟩
      exact le_of_not_ge hfirst

variable {start stop : τ} {state : σ}

theorem Kept.add {held : Set τ} (kept : view.Kept past gaps held) {node : ν}
    (hstart : view.start node = start) (hstop : view.stop node = stop)
    (fresh : view.reclaimed node = false)
    (chronological : Chronological (past ++ [.gap start stop])) :
    view.Kept (past ++ [.gap start stop]) (view.add node gaps) held := by
  obtain ⟨before, after, rfl, hadd, hbefore, hafter⟩ := view.add_split node gaps
  have hsorted := List.pairwise_append.mp kept.sorted
  have hmem : ∀ other, other ∈ view.add node (before ++ after) ↔
      other = node ∨ other ∈ before ++ after := by
    intro other
    rw [hadd]
    simp only [List.mem_append, List.mem_cons]
    tauto
  have hlater : ∀ other ∈ after, view.start node ≤ view.start other :=
    view.sorted_head hsorted.2.1 hafter
  refine ⟨?_, ?_, ?_, ?_⟩
  · rw [hadd]
    refine List.pairwise_append.mpr ⟨hsorted.1, List.pairwise_cons.mpr ⟨hlater, hsorted.2.1⟩, ?_⟩
    rintro other hother second hsecond
    rcases List.mem_cons.mp hsecond with rfl | hsecond
    · exact hbefore other hother
    · exact hsorted.2.2 other hother second hsecond
  · intro time htime start' stop' hgap hle event hevent
    have hold : .event event ∈ past := by simpa using hevent
    rcases List.mem_append.mp hgap with hgap | hgap
    · exact kept.parted time htime start' stop' hgap hle event hold
    · cases List.mem_singleton.mp hgap
      exact chronological.event_le_gap hold
  · intro start' stop' hgap
    rcases List.mem_append.mp hgap with hgap | hgap
    · rcases kept.known start' stop' hgap with ⟨other, hother, hends⟩ | hevent
      · exact .inl ⟨other, (hmem other).mpr (.inr hother), hends⟩
      · obtain ⟨event, hevent, hends⟩ := hevent
        exact .inr ⟨event, List.mem_append_left _ hevent, hends⟩
    · cases List.mem_singleton.mp hgap
      exact .inl ⟨node, (hmem node).mpr (.inl rfl), hstart, hstop⟩
  · intro other hother hreclaimed
    rcases (hmem other).mp hother with rfl | hold
    · rw [fresh] at hreclaimed
      cases hreclaimed
    · obtain ⟨hempty, event, hevent, hless⟩ := kept.emptied other hold hreclaimed
      exact ⟨hempty, event, List.mem_append_left _ hevent, hless⟩

theorem Kept.other {held held' : Set τ} (kept : view.Kept past gaps held)
    (hheld : held' ⊆ held) : view.Kept (past ++ [.other]) gaps held' := by
  have hgaps : ∀ start stop : τ,
      .gap start stop ∈ past ++ [.other] ↔ .gap start stop ∈ past := by simp
  have hevents : ∀ time : τ, .event time ∈ past ++ [.other] ↔ .event time ∈ past := by simp
  refine ⟨kept.sorted, ?_, ?_, ?_⟩
  · intro time htime start stop hgap hle event hevent
    exact kept.parted time (hheld htime) start stop ((hgaps _ _).mp hgap) hle
      event ((hevents _).mp hevent)
  · intro start stop hgap
    refine (kept.known start stop ((hgaps _ _).mp hgap)).imp_right ?_
    rintro ⟨event, hevent, hends⟩
    exact ⟨event, (hevents _).mpr hevent, hends⟩
  · intro node hnode hreclaimed
    obtain ⟨hempty, event, hevent, hless⟩ := kept.emptied node hnode hreclaimed
    exact ⟨Set.subset_eq_empty hheld hempty, event, (hevents _).mpr hevent, hless⟩

theorem Kept.held_of_cleared
    (hclear : ∀ node state, held (clear node state) = ∅)
    (kept : view.Kept past gaps (held state))
    (hnodes : ∀ node ∈ nodes, node ∈ gaps)
    (htime : time ∈ held (view.cleared clear nodes state)) :
    nodes = [] ∧ time ∈ held state := by
  rcases view.held_cleared hclear nodes state with hempty | ⟨hsame, hreclaimed⟩
  · rw [hempty] at htime
    exact htime.elim
  rw [hsame] at htime
  cases nodes with
  | nil => exact ⟨rfl, htime⟩
  | cons node rest =>
    have hempty := (kept.emptied node (hnodes node List.mem_cons_self)
      (hreclaimed node List.mem_cons_self)).1
    rw [hempty] at htime
    exact htime.elim

structure Passed (past : List (Arrival τ)) (time : τ) (gaps : List ν)
    (held : Set τ) (within : Bool) : Prop where
  outside : within = false → ∀ start stop, .gap start stop ∈ past → ¬ (start < time ∧ time < stop)
  parted : ∀ earlier ∈ held, ∀ start stop, .gap start stop ∈ past →
    ¬ (earlier ≤ start ∧ start < time)
  kept : ∀ held' : Set τ, held' ⊆ (if within then held else insert time held) →
    view.Kept (past ++ [.event time]) gaps held'

theorem Kept.pass (hclear : ∀ node state, held (clear node state) = ∅)
    (kept : view.Kept past gaps (held state))
    (chronological : Chronological (past ++ [.event time])) :
    view.Passed past time (view.pass clear time gaps state).1
      (held (view.pass clear time gaps state).2.1)
      (view.pass clear time gaps state).2.2 := by
  obtain ⟨passed, rest, rfl, hpassed, hcases⟩ :=
    view.pass_cases clear time gaps state
  have hsorted := List.pairwise_append.mp kept.sorted
  -- A gap of the past is over, or it is among those not passed yet.
  have hknown : ∀ start stop, .gap start stop ∈ past →
      (∃ node ∈ rest, view.start node = start ∧ view.stop node = stop) ∨
        ∃ event, .event event ∈ past ++ [.event time] ∧ start < event ∧ stop ≤ event := by
    intro start stop hgap
    rcases kept.known start stop hgap with ⟨node, hnode, rfl, rfl⟩ | hevent
    · rcases List.mem_append.mp hnode with hold | hrest
      · exact .inr ⟨time, by simp, hpassed node hold⟩
      · exact .inl ⟨node, hrest, rfl, rfl⟩
    · obtain ⟨event, hevent, hends⟩ := hevent
      exact .inr ⟨event, List.mem_append_left _ hevent, hends⟩
  have hlatest : ∀ event, .event event ∈ past ++ [.event time] → event ≤ time := by
    intro event hevent
    rcases List.mem_append.mp hevent with hold | hnew
    · exact chronological.event_le hold
    · cases List.mem_singleton.mp hnew
      exact le_refl time
  have hgaps : ∀ start stop, .gap start stop ∈ past ++ [.event time] →
      .gap start stop ∈ past := by simp
  rcases hcases with ⟨hpass, hhead⟩ | ⟨node, behind, rfl, hstart, hstop, hpass⟩
  · have hbefore := view.sorted_head hsorted.2.1 hhead
    have hparted : ∀ earlier ∈ held (view.cleared clear passed state),
        ∀ start stop, .gap start stop ∈ past →
        ¬ (earlier ≤ start ∧ start < time) := by
      intro earlier hearlier start stop hgap ⟨hle, hless⟩
      obtain ⟨rfl, hold⟩ := kept.held_of_cleared view hclear
        (fun node hnode => List.mem_append_left _ hnode) hearlier
      rcases kept.known start stop hgap with ⟨node, hnode, rfl, rfl⟩ | hevent
      · exact absurd hless (not_lt_of_ge (hbefore node hnode))
      · obtain ⟨event, hevent, hbehind, _⟩ := hevent
        exact absurd hbehind (not_lt_of_ge
          (kept.parted earlier hold start stop hgap hle event hevent))
    rw [hpass]
    refine ⟨fun _ start stop hgap => ?_, hparted, fun held' hheld => ?_⟩
    · rintro ⟨hless, hinside⟩
      rcases hknown start stop hgap with ⟨node, hnode, rfl, rfl⟩ | hevent
      · exact absurd hless (not_lt_of_ge (hbefore node hnode))
      · obtain ⟨event, hevent, _, hover⟩ := hevent
        exact absurd hinside (not_lt_of_ge (hover.trans (hlatest event hevent)))
    · refine ⟨hsorted.2.1, ?_, fun start stop hgap => hknown start stop (hgaps _ _ hgap), ?_⟩
      · intro earlier hearlier start stop hgap hle event hevent
        refine (hlatest event hevent).trans ?_
        rcases hheld hearlier with rfl | hold
        · exact hle
        · by_contra hless
          exact hparted earlier hold start stop (hgaps _ _ hgap) ⟨hle, lt_of_not_ge hless⟩
      · intro node hnode hreclaimed
        obtain ⟨_, event, hevent, hless⟩ := kept.emptied node
          (List.mem_append_right _ hnode) hreclaimed
        have hle := hlatest event (List.mem_append_left _ hevent)
        exact absurd hless (not_lt_of_ge (hle.trans (hbefore node hnode)))
  · have hempty : held (view.cleared clear (passed ++ [node]) state) = ∅ := by
      refine Set.eq_empty_of_forall_notMem fun earlier hearlier => ?_
      have hnodes := (kept.held_of_cleared view hclear (by simp +contextual [or_imp]) hearlier).1
      simp at hnodes
    rw [hpass]
    refine ⟨nofun, ?_, fun held' hheld => ?_⟩
    · rw [hempty]
      exact nofun
    have hnone : held' = ∅ := Set.subset_eq_empty hheld hempty
    rw [hnone]
    refine ⟨?_, nofun, ?_, ?_⟩
    · have hrest := List.pairwise_cons.mp hsorted.2.1
      refine List.pairwise_cons.mpr ⟨?_, hrest.2⟩
      rw [view.start_reclaim]
      exact hrest.1
    · intro start stop hgap
      refine (hknown start stop (hgaps _ _ hgap)).imp_left ?_
      rintro ⟨other, hother, hends⟩
      rcases List.mem_cons.mp hother with rfl | hother
      · exact ⟨view.reclaim other, List.mem_cons_self, (view.start_reclaim other).trans hends.1,
          (view.stop_reclaim other).trans hends.2⟩
      · exact ⟨other, List.mem_cons_of_mem _ hother, hends⟩
    · intro other hother hreclaimed
      refine ⟨rfl, ?_⟩
      rcases List.mem_cons.mp hother with rfl | hother
      · exact ⟨time, by simp, (view.start_reclaim node).trans_lt hstart⟩
      · obtain ⟨_, event, hevent, hless⟩ := kept.emptied other (by simp [hother]) hreclaimed
        exact ⟨event, List.mem_append_left _ hevent, hless⟩

variable {α : Type} {step : α → σ → Option σ} {arrival : α → Arrival τ}
  {first last : σ} (gaps : σ → List ν) (held : σ → Set τ)
  (hstep : ∀ past action state next, view.Kept past (gaps state) (held state) →
    Chronological (past ++ [arrival action]) → step action state = some next →
    view.Kept (past ++ [arrival action]) (gaps next) (held next))
  (holds : view.Kept [] (gaps first) (held first))

include hstep holds

end GapView

end PerfProf.Data
