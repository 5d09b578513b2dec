import Mathlib.Data.List.OfFn
import PerfProf.Kmemleak.Sample

namespace PerfProf.Kmemleak

open Data

section Used

variable {δ : Type} (balance : SearchTree.Balance δ PerfEventBackup)
variable (found : Option Comm) (event : PerfEvent) (ctx : Ctx δ)

theorem alloc_sampleUsed_alloc :
    (sampleUsed balance found .alloc event ctx).alloc =
      (ctx.alloc.erase balance event.ptr).insert balance
        (allocNew found event ctx).1 := by
  cases hold : ctx.alloc.find event.ptr with
  | none =>
    rw [SearchMap.erase_of_find balance ctx.alloc hold]
    simp [sampleUsed, allocInsert, allocNew, hold]
  | some old =>
    have hptr : old.ptr = event.ptr := ctx.alloc.find_key hold
    have hsame : ctx.alloc.insert balance (allocNew found event ctx).1 = ctx.alloc :=
        SearchMap.insert_of_find balance ctx.alloc hold
    simp only [allocNew] at hsame
    simp [sampleUsed, allocInsert, allocNew, allocErase, hold, hptr, hsame]

theorem alloc_sampleUsed_free :
    (sampleUsed balance found .free event ctx).alloc =
      ctx.alloc.erase balance event.ptr := by
  cases hold : ctx.alloc.find event.ptr with
  | none =>
    rw [SearchMap.erase_of_find balance ctx.alloc hold]
    simp [sampleUsed, hold]
  | some old =>
    have hptr : old.ptr = event.ptr := ctx.alloc.find_key hold
    simp [sampleUsed, allocErase, hold, hptr]

theorem lostList_sampleUsed (tp : TpList) :
    (sampleUsed balance found tp event ctx).lostList = ctx.lostList := by
  cases tp with
  | alloc =>
    cases hold : ctx.alloc.find event.ptr with
    | none => simp [sampleUsed, allocInsert, allocNew, hold]
    | some old =>
      have hsame : ctx.alloc.insert balance (allocNew found event ctx).1 = ctx.alloc :=
          SearchMap.insert_of_find balance ctx.alloc hold
      simp only [allocNew] at hsame
      simp [sampleUsed, allocInsert, allocNew, allocErase, hold, hsame]
  | free =>
    cases hold : ctx.alloc.find event.ptr with
    | none => simp [sampleUsed, hold]
    | some old => simp [sampleUsed, allocErase, hold]

theorem find_sampleUsed_of_ne (tp : TpList) {ptr : Nat}
    (hptr : ptr ≠ event.ptr) :
    (sampleUsed balance found tp event ctx).alloc.find ptr =
      ctx.alloc.find ptr := by
  have herase := SearchMap.find_erase_of_ne balance ctx.alloc hptr
  cases tp with
  | free => rw [alloc_sampleUsed_free, herase]
  | alloc =>
    rw [alloc_sampleUsed_alloc, ← herase]
    exact SearchMap.find_insert_of_ne balance _ (SearchMap.find_erase_self balance ctx.alloc _) hptr

theorem find_sampleUsed_alloc :
    (sampleUsed balance found .alloc event ctx).alloc.find event.ptr =
      some (allocNew found event ctx).1 := by
  rw [alloc_sampleUsed_alloc]
  exact SearchMap.find_insert_self balance _ (SearchMap.find_erase_self balance ctx.alloc _)

theorem find_sampleUsed_free :
    (sampleUsed balance found .free event ctx).alloc.find event.ptr = none := by
  rw [alloc_sampleUsed_free]
  exact SearchMap.find_erase_self balance ctx.alloc _

end Used

theorem kmemleakEventLost_nil {δ : Type} {ctx : Ctx δ} {time : Nat}
    (hlost : ctx.lostList = []) :
    kmemleakEventLost time ctx = (ctx, false) := by
  obtain ⟨alloc, stat, lostList, collectComm⟩ := ctx
  subst hlost
  rfl

def Tracked {δ : Type} (ctx : Ctx δ) (ptr : Nat) (event : PerfEvent) : Prop :=
  ∃ b, ctx.alloc.find ptr = some b ∧ b.event = event

def Live (history : List PerfEvent) (ptr : Nat) (event : PerfEvent) : Prop :=
  ∃ before after, history = before ++ event :: after ∧ event.tp = some .alloc ∧ event.ptr = ptr ∧
    ∀ later ∈ after, later.ptr ≠ ptr

theorem append_singleton_split {before after history : List PerfEvent}
    {event last : PerfEvent}
    (hhistory : history ++ [last] = before ++ event :: after) :
    (event = last ∧ after = []) ∨
    ∃ middle, after = middle ++ [last] ∧
      history = before ++ event :: middle := by
  rcases List.eq_nil_or_concat after with rfl | ⟨middle, other, rfl⟩
  · obtain ⟨_, hlast⟩ := List.append_inj' hhistory rfl
    exact .inl ⟨(List.cons.inj hlast).1.symm, rfl⟩
  · have hsplit : history ++ [last] = (before ++ event :: middle) ++ [other] := by
      rw [hhistory]
      simp
    obtain ⟨rfl, hlast⟩ := List.append_inj' hsplit rfl
    cases hlast
    exact .inr ⟨middle, by simp, rfl⟩

theorem live_append_self {history : List PerfEvent} {last event : PerfEvent} :
    Live (history ++ [last]) last.ptr event ↔
      event = last ∧ last.tp = some .alloc := by
  constructor
  · rintro ⟨before, after, hhistory, halloc, _, hafter⟩
    rcases append_singleton_split hhistory with ⟨rfl, _⟩ | ⟨middle, rfl, _⟩
    · exact ⟨rfl, halloc⟩
    · exact absurd rfl (hafter last (by simp))
  · rintro ⟨rfl, halloc⟩
    exact ⟨history, [], rfl, halloc, rfl, nofun⟩

theorem live_append_of_ne {history : List PerfEvent} {last event : PerfEvent}
    {ptr : Nat} (hptr : ptr ≠ last.ptr) :
    Live (history ++ [last]) ptr event ↔ Live history ptr event := by
  constructor
  · rintro ⟨before, after, hhistory, halloc, hevent, hafter⟩
    rcases append_singleton_split hhistory with ⟨rfl, _⟩ | ⟨middle, rfl, rfl⟩
    · exact absurd hevent.symm hptr
    · exact ⟨before, middle, rfl, halloc, hevent, fun later hlater =>
        hafter later (List.mem_append_left _ hlater)⟩
  · rintro ⟨before, after, rfl, halloc, hevent, hafter⟩
    refine ⟨before, after ++ [last], by simp, halloc, hevent, ?_⟩
    intro later hlater
    rcases List.mem_append.mp hlater with hold | hnew
    · exact hafter later hold
    · rw [List.mem_singleton.mp hnew]
      exact hptr.symm

section Run

variable {δ : Type} (balance : SearchTree.Balance δ PerfEventBackup)
variable (collectComm : Bool)

def inputs (delivered : List (Option Comm × PerfEvent)) : List Input :=
  delivered.map fun pair => .sample pair.1 pair.2

theorem run_tracked (delivered : List (Option Comm × PerfEvent))
    (traced : ∀ pair ∈ delivered, pair.2.tp.isSome) :
    ∃ ctx,
      run (step balance) (inputs delivered) (.init collectComm) = some ctx ∧
      ctx.lostList = [] ∧
      ∀ ptr event, Tracked ctx ptr event ↔
          Live (delivered.map Prod.snd) ptr event := by
  induction delivered using List.reverseRecOn with
  | nil =>
    refine ⟨_, rfl, rfl, fun ptr event => iff_of_false ?_ ?_⟩
    · rintro ⟨b, hfind, _⟩
      cases hfind
    · rintro ⟨before, after, hhistory, _⟩
      simp at hhistory
  | append_singleton past pair ih =>
    obtain ⟨ctx, hrun, hlost, htracked⟩ := ih
      fun other hother => traced other (List.mem_append_left _ hother)
    obtain ⟨tp, htp⟩ := Option.isSome_iff_exists.mp
      (traced pair (List.mem_append_right _ List.mem_cons_self))
    have hsample : kmemleakSample balance pair.1 pair.2 ctx =
        sampleUsed balance pair.1 tp pair.2 ctx := by
      simp [kmemleakSample, htp, kmemleakEventLost_nil hlost]
    refine ⟨sampleUsed balance pair.1 tp pair.2 ctx, ?_,
      (lostList_sampleUsed ..).trans hlost, fun ptr event => ?_⟩
    · rw [inputs, List.map_append, List.map_singleton]
      exact run_snoc.mpr ⟨ctx, hrun, congrArg some hsample⟩
    rw [List.map_append, List.map_singleton]
    by_cases hptr : ptr = pair.2.ptr
    · subst hptr
      rw [live_append_self, Tracked]
      cases tp with
      | alloc =>
        rw [find_sampleUsed_alloc]
        simp [allocNew, htp, eq_comm]
      | free =>
        rw [find_sampleUsed_free]
        simp [htp]
    · rw [live_append_of_ne hptr, ← htracked, Tracked, Tracked,
        find_sampleUsed_of_ne balance _ _ _ _ hptr]

end Run

structure History (count : Nat) where
  events : Fin count → PerfEvent
  traced : ∀ i, (events i).tp.isSome
  ordered : ∀ i j, i ≤ j → (events i).time ≤ (events j).time

namespace History

variable {count : Nat} (history : History count)

/-- The allocation `next` is the first of its pointer behind the free `i`. -/
structure NextAlloc (i next : Fin count) : Prop where
  free : (history.events i).tp = some .free
  alloc : (history.events next).tp = some .alloc
  first : ∀ k, i < k → k < next → ¬ ((history.events k).tp = some .alloc ∧
      (history.events k).ptr = (history.events i).ptr)

/-- The order of delivery: `place` is where an event is delivered.  Events
change places at the same time only, and those of one pointer only if they are a
free and the next allocation. -/
structure Delivery where
  place : Fin count ≃ Fin count
  sameTime : ∀ i j, i < j → place j < place i → (history.events i).time = (history.events j).time
  samePtr : ∀ i j, i < j → place j < place i →
    (history.events i).ptr = (history.events j).ptr → history.NextAlloc i j

def Last (i : Fin count) : Prop :=
  ∀ j, i < j → (history.events j).ptr ≠ (history.events i).ptr

def Delivery.delivered {history : History count} (delivery : history.Delivery)
    (found : Fin count → Option Comm) : List (Option Comm × PerfEvent) :=
  List.ofFn fun k => (found k, history.events (delivery.place.symm k))

end History

theorem live_ofFn {count : Nat} {events : Fin count → PerfEvent} {ptr : Nat}
    {event : PerfEvent} :
    Live (List.ofFn events) ptr event ↔
      ∃ i, events i = event ∧
        event.tp = some .alloc ∧
        event.ptr = ptr ∧
        ∀ j, i < j → (events j).ptr ≠ ptr := by
  constructor
  · rintro ⟨before, after, hsplit, halloc, hptr, hafter⟩
    have hlength := congrArg List.length hsplit
    simp only [List.length_ofFn, List.length_append, List.length_cons] at hlength
    have hget : ∀ j (hj : j < count), (before ++ event :: after)[j]? = some (events ⟨j, hj⟩) := by
      intro j hj
      rw [← hsplit]
      simp [hj]
    refine ⟨⟨before.length, by omega⟩, ?_, halloc, hptr, fun j hj => ?_⟩
    · have := hget before.length (by omega)
      simpa using this.symm
    · have hj' : before.length < j.val := hj
      have hitem := hget j.val j.isLt
      rw [List.getElem?_append_right hj'.le, show j.val - before.length = (j.val - before.length -
        1) + 1 by omega, List.getElem?_cons_succ] at hitem
      exact hafter _ (List.mem_of_getElem? hitem)
  · rintro ⟨i, rfl, halloc, hptr, hlast⟩
    refine ⟨(List.ofFn events).take i, (List.ofFn events).drop (i + 1), ?_, halloc, hptr, ?_⟩
    · have hi : i.val < (List.ofFn events).length := by simp
      have hitem : (List.ofFn events)[i.val] = events i := by simp
      rw [← hitem, ← List.drop_eq_getElem_cons hi, List.take_append_drop]
    · intro later hlater
      obtain ⟨j, hj⟩ := List.mem_iff_getElem?.mp hlater
      rw [List.getElem?_drop, List.getElem?_ofFn] at hj
      split at hj
      · rename_i hbound
        cases hj
        exact hlast ⟨i + 1 + j, hbound⟩ (by simp [Fin.lt_def]; omega)
      · cases hj

namespace History

variable {count : Nat} {history : History count}

theorem exists_last (i : Fin count) :
    ∃ last, i ≤ last ∧
      (history.events last).ptr = (history.events i).ptr ∧
      history.Last last := by
  induction hleft : count - i.val using Nat.strongRecOn generalizing i with
  | _ left ih =>
    by_cases hlast : history.Last i
    · exact ⟨i, le_refl i, rfl, hlast⟩
    · simp only [Last, not_forall, not_not] at hlast
      obtain ⟨j, hless, hptr⟩ := hlast
      have hbound : i.val < j.val := hless
      obtain ⟨last, hle, hsame, hlast⟩ := ih (count - j.val) (by omega) j rfl
      exact ⟨last, hless.le.trans hle, hsame.trans hptr, hlast⟩

theorem Delivery.live_delivered (delivery : history.Delivery)
    (found : Fin count → Option Comm) {ptr : Nat} {event : PerfEvent} :
    Live ((delivery.delivered found).map Prod.snd) ptr event ↔
      ∃ i, history.events i = event ∧
        event.tp = some .alloc ∧
        event.ptr = ptr ∧
        ∀ j, delivery.place i < delivery.place j →
          (history.events j).ptr ≠ ptr := by
  rw [delivered, List.map_ofFn, live_ofFn]
  constructor
  · rintro ⟨k, hevent, halloc, hptr, hlast⟩
    refine ⟨delivery.place.symm k, hevent, halloc, hptr, fun j hj => ?_⟩
    have := hlast (delivery.place j) (by simpa using hj)
    simpa using this
  · rintro ⟨i, hevent, halloc, hptr, hlast⟩
    refine ⟨delivery.place i, by simpa using hevent, halloc, hptr, fun k hk => ?_⟩
    exact hlast (delivery.place.symm k) (by simpa using hk)

theorem Delivery.live_iff (delivery : history.Delivery)
    (found : Fin count → Option Comm) :
    (∀ ptr event, Live ((delivery.delivered found).map Prod.snd) ptr event ↔
        Live (List.ofFn history.events) ptr event) ↔
      ∀ i j, i < j →
        (history.events i).ptr = (history.events j).ptr →
        history.Last j →
        delivery.place i < delivery.place j := by
  constructor
  · intro same i j hless hptr hlast
    by_contra hnot
    have hne : delivery.place i ≠ delivery.place j := fun h => hless.ne (delivery.place.injective h)
    have hswapped := lt_of_le_of_ne (le_of_not_gt hnot) hne.symm
    have hnext := delivery.samePtr i j hless hswapped hptr
    obtain ⟨k, hk, _, _, hdelivered⟩ := (delivery.live_delivered found).mp
      ((same _ _).mpr (live_ofFn.mpr ⟨j, rfl, hnext.alloc, rfl, hlast⟩))
    -- The allocation delivered last is not `j`, so it has passed `j` as well.
    have hsame : (history.events k).ptr = (history.events j).ptr := by rw [hk]
    have hle : delivery.place i ≤ delivery.place k := le_of_not_gt fun h => hdelivered i h hptr
    have hpassed := hswapped.trans_le hle
    have hbefore : k < j := by
      rcases lt_trichotomy k j with h | rfl | h
      · exact h
      · exact absurd hpassed (lt_irrefl _)
      · exact absurd hsame (hlast k h)
    have hfree := (delivery.samePtr k j hbefore hpassed hsame).free
    rw [hk, hnext.alloc] at hfree
    cases hfree
  · intro ordered ptr event
    rw [delivery.live_delivered, live_ofFn]
    constructor
    · rintro ⟨i, rfl, halloc, rfl, hdelivered⟩
      refine ⟨i, rfl, halloc, rfl, fun j hless hptr => ?_⟩
      obtain ⟨last, hle, hsame, hlast⟩ := history.exists_last j
      exact hdelivered last (ordered i last (hless.trans_le hle)
        (hptr.symm.trans hsame.symm) hlast) (hsame.trans hptr)
    · rintro ⟨i, rfl, halloc, rfl, hlast⟩
      refine ⟨i, rfl, halloc, rfl, fun j hless hptr => ?_⟩
      rcases lt_trichotomy i j with h | rfl | h
      · exact hlast j h hptr
      · exact absurd hless (lt_irrefl _)
      · exact lt_asymm hless (ordered j i h hptr hlast)

end History

/-- What is tracked at the end is what is live, exactly when no pointer's last
allocation is delivered before the free in front of it. -/
theorem tracked_eq_live_iff {δ : Type}
    (balance : SearchTree.Balance δ PerfEventBackup) (collectComm : Bool)
    {count : Nat} (history : History count) (delivery : history.Delivery)
    (found : Fin count → Option Comm) :
    ∃ ctx, run (step balance) (inputs (delivery.delivered found))
        (.init collectComm) = some ctx ∧
      ((∀ ptr event, Tracked ctx ptr event ↔
            Live (List.ofFn history.events) ptr event) ↔
          ∀ i j, i < j →
            (history.events i).ptr = (history.events j).ptr →
            history.Last j →
            delivery.place i < delivery.place j) := by
  have traced : ∀ pair ∈ delivery.delivered found, pair.2.tp.isSome := by
    intro pair hpair
    obtain ⟨k, rfl⟩ := (List.mem_ofFn' _ _).mp hpair
    exact history.traced _
  obtain ⟨ctx, hrun, _, htracked⟩ :=
    run_tracked balance collectComm (delivery.delivered found) traced
  refine ⟨ctx, hrun, ?_⟩
  rw [← delivery.live_iff found]
  simp only [htracked]

def reused : History 3 where
  events := fun i =>
    { tp := some (if i = 1 then .free else .alloc)
      time := if i = 0 then 1 else 2
      ptr := 4096, stack := false, size := 8, bytes := [] }
  traced := fun _ => rfl
  ordered := by decide

def reusedSwapped : reused.Delivery where
  place := Equiv.swap 1 2
  sameTime := by decide
  samePtr := by
    intro i j hless hplace _
    have hpair : i = 1 ∧ j = 2 := by
      revert i j
      decide
    obtain ⟨rfl, rfl⟩ := hpair
    exact ⟨rfl, rfl, by decide⟩

/-- The late free takes the new allocation away. -/
theorem late_free_untracks :
    (∃ ctx, run (step (.plain PerfEventBackup))
        (inputs (reusedSwapped.delivered fun _ => none)) (.init false) =
        some ctx ∧
      ¬ ∃ event, Tracked ctx 4096 event) ∧
    Live (List.ofFn reused.events) 4096 (reused.events 2) := by
  constructor
  · refine ⟨_, rfl, ?_⟩
    rintro ⟨event, b, hfind, _⟩
    cases hfind
  · exact live_ofFn.mpr ⟨2, rfl, rfl, rfl, by decide⟩

end PerfProf.Kmemleak
