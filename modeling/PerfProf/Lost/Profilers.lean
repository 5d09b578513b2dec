import PerfProf.Blktrace.Sample
import PerfProf.Kmemleak.Live
import PerfProf.TaskState.Sample

namespace PerfProf

open Data

namespace Kmemleak

variable {δ : Type} (balance : SearchTree.Balance δ PerfEventBackup)

def heldTimes (ctx : Ctx δ) : Set Nat :=
  { time | ∃ b ∈ ctx.alloc.items, b.event.time = time }

def arrival : Input → Arrival Nat
  | .sample _ event =>
    match event.tp with
    | some _ => .event event.time
    | none => .other
  | .lost _ lostStart lostEnd _ _ => .gap lostStart lostEnd

theorem heldTimes_lostReclaim (ctx : Ctx δ) :
    heldTimes (lostReclaim ctx) = ∅ := by
  refine Set.eq_empty_of_forall_notMem ?_
  rintro time ⟨b, hmem, _⟩
  rw [lostReclaim] at hmem
  split_ifs at hmem with hempty
  · rw [List.isEmpty_iff.mp hempty] at hmem
    cases hmem
  · cases hmem

theorem heldTimes_sampleUsed (found : Option Comm) (tp : TpList)
    (event : PerfEvent) (ctx : Ctx δ) :
    heldTimes (sampleUsed balance found tp event ctx) ⊆
      insert event.time (heldTimes ctx) := by
  rintro time ⟨b, hmem, rfl⟩
  have hold : b ∈ (ctx.alloc.erase balance event.ptr).items →
      b.event.time ∈ heldTimes ctx := fun hmem =>
    ⟨b, ((SearchMap.mem_erase balance ctx.alloc).mp hmem).1, rfl⟩
  cases tp with
  | free =>
    rw [alloc_sampleUsed_free] at hmem
    exact .inr (hold hmem)
  | alloc =>
    rw [alloc_sampleUsed_alloc] at hmem
    rcases (SearchMap.mem_insert balance _
      (SearchMap.find_erase_self balance ctx.alloc _)).mp hmem with rfl | hmem
    · exact .inl rfl
    · exact .inr (hold hmem)

theorem eventLost_passed
    (kept : lostView.Kept past ctx.lostList (heldTimes ctx))
    (chronological : Chronological (past ++ [.event time])) :
    lostView.Passed past time (kmemleakEventLost time ctx).1.lostList
      (heldTimes (kmemleakEventLost time ctx).1)
      (kmemleakEventLost time ctx).2 :=
  kept.pass lostView (fun _ ctx => heldTimes_lostReclaim ctx) chronological

theorem step_kept (past : List (Arrival Nat)) (input : Input)
    (ctx next : Ctx δ) (kept : lostView.Kept past ctx.lostList (heldTimes ctx))
    (chronological : Chronological (past ++ [arrival input]))
    (hstep : step balance input ctx = some next) :
    lostView.Kept (past ++ [arrival input]) next.lostList (heldTimes next) := by
  cases input with
  | lost ins lostStart lostEnd lostId lost =>
    cases hstep
    exact kept.add lostView rfl rfl rfl chronological
  | sample found event =>
    cases hstep
    cases htp : event.tp with
    | none =>
      simp only [arrival, kmemleakSample, htp]
      exact kept.other lostView subset_rfl
    | some tp =>
      simp only [arrival, kmemleakSample, htp] at chronological ⊢
      have passed := eventLost_passed kept chronological
      split_ifs with hwithin
      · exact passed.kept _ (by rw [hwithin]; exact subset_rfl)
      · rw [lostList_sampleUsed]
        refine passed.kept _ ?_
        rw [if_neg hwithin]
        exact heldTimes_sampleUsed balance found tp event _

end Kmemleak

namespace TaskState

variable {δ : Type} (balance : SearchTree.Balance δ TaskStateNode)
variable (config : Config)

def TaskStateNode.times (task : TaskStateNode) : Set Nat :=
  { time | task.time = time ∨ ∃ event, task.event = some event ∧ event.time = time }

def heldTimes (tasks : SearchMap δ TaskStateNode.pid) : Set Nat :=
  { time | ∃ task ∈ tasks.items, time ∈ task.times }

def arrival : Input → Arrival Nat
  | .sample event => .event event.time
  | .lost _ lostStart lostEnd => .gap lostStart lostEnd
  | .notify _ _ => .other

variable {event : Event} {report : Report}

theorem mem_putTask (hmem : other ∈ (putTask balance task tasks).items) :
    other = task ∨ other ∈ tasks.items := by
  rw [putTask] at hmem
  split at hmem
  · rename_i found hfound
    exact ((SearchMap.mem_set tasks hfound).mp hmem).imp_right And.left
  · rename_i hnone
    exact (SearchMap.mem_insert balance tasks hnone).mp hmem

theorem heldTimes_of_mem (hmem : task ∈ tasks.items) :
    task.times ⊆ heldTimes tasks :=
  fun _ htime => ⟨task, hmem, htime⟩

theorem heldTimes_putTask
    (htask : task.times ⊆ insert event.time (heldTimes tasks)) :
    heldTimes (putTask balance task tasks) ⊆
      insert event.time (heldTimes tasks) := by
  rintro time ⟨other, hmem, htime⟩
  rcases mem_putTask balance hmem with rfl | hold
  · exact htask htime
  · exact .inr (heldTimes_of_mem hold htime)

theorem heldTimes_erase (pid : Int) (tasks : SearchMap δ TaskStateNode.pid) :
    heldTimes (tasks.erase balance pid) ⊆ heldTimes tasks := by
  rintro time ⟨task, hmem, htime⟩
  exact heldTimes_of_mem ((SearchMap.mem_erase balance tasks).mp hmem).1 htime

variable {ctx : Ctx δ}

theorem found_event_mem
    (hevent : (tasks.find pid).bind TaskStateNode.event = some event) :
    event.time ∈ heldTimes tasks := by
  obtain ⟨task, hfind, hevent⟩ := Option.bind_eq_some_iff.mp hevent
  exact ⟨task, ((SearchMap.find_eq_some _).mp hfind).1, .inr ⟨event, hevent, rfl⟩⟩

theorem heldTimes_switchPrev (event : Event)
    (tasks : SearchMap δ TaskStateNode.pid) :
    heldTimes (switchPrev balance config event tasks).1 ⊆
      insert event.time (heldTimes tasks) := by
  rw [switchPrev]
  split
  · dsimp only
    split
    · exact (heldTimes_erase balance _ tasks).trans (Set.subset_insert _ _)
    · refine heldTimes_putTask balance ?_
      rintro time (rfl | ⟨kept, hkept, rfl⟩)
      · exact .inl rfl
      · dsimp only at hkept
        split at hkept
        · cases hkept
          exact .inl rfl
        · exact .inr (found_event_mem hkept)
  · exact Set.subset_insert _ _

theorem heldTimes_switchNext (event : Event)
    (tasks : SearchMap δ TaskStateNode.pid) :
    heldTimes (switchNext balance config event tasks).1 ⊆
      insert event.time (heldTimes tasks) := by
  rw [switchNext]
  split
  · refine heldTimes_putTask balance ?_
    rintro time (rfl | ⟨kept, hkept, rfl⟩)
    · exact .inl rfl
    · split at hkept
      · cases hkept
      · exact .inr (found_event_mem hkept)
  · exact Set.subset_insert _ _

theorem heldTimes_wakeup (event : Event)
    (tasks : SearchMap δ TaskStateNode.pid) :
    heldTimes (wakeup balance config event tasks).1 ⊆
      insert event.time (heldTimes tasks) := by
  rw [wakeup]
  split
  · split
    · exact Set.subset_insert _ _
    · refine heldTimes_putTask balance ?_
      rintro time (rfl | ⟨kept, hkept, rfl⟩)
      · exact .inl rfl
      · split at hkept
        · cases hkept
          exact .inl rfl
        · cases hkept
  · rename_i task hfind
    have htimes : task.times ⊆ heldTimes tasks :=
      heldTimes_of_mem ((SearchMap.find_eq_some _).mp hfind).1
    dsimp only
    split
    · exact (heldTimes_erase balance _ tasks).trans (Set.subset_insert _ _)
    · refine heldTimes_putTask balance ?_
      rintro time (rfl | ⟨kept, hkept, rfl⟩)
      · dsimp only
        split
        · exact .inl rfl
        · exact .inr (htimes (.inl rfl))
      · dsimp only at hkept
        split at hkept
        · cases hkept
          exact .inl rfl
        · exact .inr (htimes (.inr ⟨kept, hkept, rfl⟩))

/-- A report that connects an earlier event that was kept with this one. -/
structure Report.Connects (report : Report) (event : Event) (times : Set Nat) :
    Prop where
  last : report.last = event.time
  first : report.first ∈ times
  printed : ∀ pair, report.printed = some pair → pair.2 = event ∧ pair.1.time ∈ times

theorem printedWith_connects
    (hprinted : printedWith config task event = some pair) :
    pair.2 = event ∧ pair.1.time ∈ task.times := by
  rw [printedWith] at hprinted
  split at hprinted
  · obtain ⟨first, hfirst, rfl⟩ := Option.map_eq_some_iff.mp hprinted
    exact ⟨rfl, .inr ⟨first, hfirst, rfl⟩⟩
  · cases hprinted

theorem switchPrev_connects
    (hreport : report ∈ (switchPrev balance config event tasks).2) :
    report.Connects event (heldTimes tasks) := by
  have hmem : report ∈ (tasks.find event.prevPid).elim [] fun task =>
      if task.pid ≠ -1 ∧ task.time < event.time ∧ task.state = TASK_RUNNING then
        [{ instance_ := task.pid, key := TASK_RUNNING, first := task.time
           last := event.time, printed := none }]
      else [] := by
    rw [switchPrev] at hreport
    split at hreport
    · dsimp only at hreport
      split at hreport
      · exact hreport
      · exact hreport
    · cases hreport
  cases hfind : tasks.find event.prevPid with
  | none =>
    rw [hfind] at hmem
    cases hmem
  | some task =>
    rw [hfind, Option.elim_some] at hmem
    split at hmem
    · cases List.mem_singleton.mp hmem
      exact ⟨rfl, heldTimes_of_mem ((SearchMap.find_eq_some _).mp hfind).1 (.inl rfl), by simp⟩
    · cases hmem

theorem connects_of_found (hfind : tasks.find pid = some task) (key : Nat) :
    Report.Connects
      { instance_ := task.pid, key := key, first := task.time
        last := event.time, printed := printedWith config task event }
      event (heldTimes tasks) := by
  have htimes : task.times ⊆ heldTimes tasks :=
    heldTimes_of_mem ((SearchMap.find_eq_some _).mp hfind).1
  refine ⟨rfl, htimes (.inl rfl), fun pair hprinted => ?_⟩
  obtain ⟨hsecond, hfirst⟩ := printedWith_connects config hprinted
  exact ⟨hsecond, htimes hfirst⟩

theorem switchNext_connects
    (hreport : report ∈ (switchNext balance config event tasks).2) :
    report.Connects event (heldTimes tasks) := by
  rw [switchNext] at hreport
  split at hreport
  · dsimp only at hreport
    cases hfind : tasks.find event.nextPid with
    | none =>
      rw [hfind] at hreport
      cases hreport
    | some task =>
      rw [hfind, Option.elim_some] at hreport
      split at hreport
      · cases List.mem_singleton.mp hreport
        exact connects_of_found config hfind RUNDELAY
      · cases hreport
  · cases hreport

theorem wakeup_connects
    (hreport : report ∈ (wakeup balance config event tasks).2) :
    report.Connects event (heldTimes tasks) := by
  rw [wakeup] at hreport
  split at hreport
  · split at hreport
    · cases hreport
    · cases hreport
  · rename_i task hfind
    have hmem : report ∈
        if task.pid ≠ -1 ∧ task.time < event.time ∧ task.state &&& config.taskReport ≠ 0 then
          [{ instance_ := task.pid, key := task.state &&& config.taskReport
             first := task.time, last := event.time
             printed := printedWith config task event }]
        else [] := by
      dsimp only at hreport
      split at hreport
      · exact hreport
      · exact hreport
    split at hmem
    · cases List.mem_singleton.mp hmem
      exact connects_of_found config hfind _
    · cases hmem

theorem Report.Connects.mono (connects : report.Connects event times)
    (hsubset : times ⊆ others) : report.Connects event others :=
  ⟨connects.last, hsubset connects.first, fun pair hprinted =>
    ⟨(connects.printed pair hprinted).1, hsubset (connects.printed pair hprinted).2⟩⟩

theorem sampleUsed_sound (event : Event)
    (tasks : SearchMap δ TaskStateNode.pid) :
    heldTimes (sampleUsed balance config event tasks).1 ⊆
      insert event.time (heldTimes tasks) ∧
    ∀ report ∈ (sampleUsed balance config event tasks).2,
      report.Connects event (insert event.time (heldTimes tasks)) := by
  have hprev := heldTimes_switchPrev balance config event tasks
  have hinsert := Set.subset_insert event.time (heldTimes tasks)
  rw [sampleUsed]
  split
  · dsimp only
    split
    · have hnext := heldTimes_switchNext balance config event
        (switchPrev balance config event tasks).1
      refine ⟨hnext.trans (Set.insert_subset (.inl rfl) hprev), ?_⟩
      intro report hreport
      rcases List.mem_append.mp hreport with hfirst | hsecond
      · exact (switchPrev_connects balance config hfirst).mono hinsert
      · exact (switchNext_connects balance config hsecond).mono hprev
    · exact ⟨hprev, fun report hreport => (switchPrev_connects balance config hreport).mono hinsert⟩
  · exact ⟨heldTimes_switchNext balance config event tasks, fun report hreport =>
      (switchNext_connects balance config hreport).mono hinsert⟩
  · exact ⟨heldTimes_wakeup balance config event tasks, fun report hreport =>
      (wakeup_connects balance config hreport).mono hinsert⟩
  · exact ⟨heldTimes_wakeup balance config event tasks, fun report hreport =>
      (wakeup_connects balance config hreport).mono hinsert⟩
  · exact ⟨hinsert, by simp⟩

theorem eventLost_passed
    (kept : lostView.Kept past ctx.lostList (heldTimes ctx.taskStates))
    (chronological : Chronological (past ++ [.event time])) :
    lostView.Passed past time (taskStateEventLost time ctx).1
      (heldTimes (taskStateEventLost time ctx).2.1)
      (taskStateEventLost time ctx).2.2 := by
  refine kept.pass lostView (fun _ _ => ?_) chronological
  refine Set.eq_empty_of_forall_notMem ?_
  rintro time ⟨task, hmem, _⟩
  cases hmem

theorem step_kept (past : List (Arrival Nat)) (input : Input) (ctx next : Ctx δ)
    (kept : lostView.Kept past ctx.lostList (heldTimes ctx.taskStates))
    (chronological : Chronological (past ++ [arrival input]))
    (hstep : step balance config input ctx = some next) :
    lostView.Kept (past ++ [arrival input]) next.lostList
      (heldTimes next.taskStates) := by
  cases input with
  | lost ins lostStart lostEnd =>
    cases hstep
    exact kept.add lostView rfl rfl rfl chronological
  | notify pid freeTime =>
    cases hstep
    rw [taskStateNotify]
    split
    · split
      · exact kept.other lostView (heldTimes_erase balance pid ctx.taskStates)
      · exact kept.other lostView subset_rfl
    · exact kept.other lostView subset_rfl
  | sample event =>
    cases hstep
    have passed := eventLost_passed kept chronological
    refine passed.kept _ ?_
    dsimp only [taskStateSample]
    split
    · exact subset_rfl
    · exact (sampleUsed_sound balance config event _).1

end TaskState

namespace Blktrace

variable {δ : Type} (balance : SearchTree.Balance δ RequestTrack)
variable (greaterThan : U64)

def heldTimes (tracks : SearchTree δ RequestTrack) : Set Nat :=
  { time | ∃ rq ∈ tracks.toList, rq.time.toNat = time }

def arrival : Event → Arrival Nat
  | .sample event => .event event.time.toNat
  | .lost _ lostStart lostEnd => .gap lostStart.toNat lostEnd.toNat

def lostView : GapView BlockLostNode Nat where
  start := fun node => node.startTime.toNat
  stop := fun node => node.endTime.toNat
  reclaimed := BlockLostNode.reclaim
  reclaim := fun node => { node with reclaim := true }
  start_reclaim := fun _ => rfl
  stop_reclaim := fun _ => rfl

theorem eventLostLoop_eq_pass (time : U64) (lostList : List BlockLostNode)
    (tracks : SearchTree δ RequestTrack) :
    eventLostLoop time lostList tracks =
      lostView.pass (fun _ _ => .leaf) time.toNat lostList tracks := by
  induction lostList generalizing tracks with
  | nil => rfl
  | cons lost rest ih =>
    rw [eventLostLoop, GapView.pass]
    simp only [ih, BitVec.le_def, BitVec.lt_def]
    rfl

theorem lostList_blktraceLost (ins : Nat) (lostStart lostEnd : U64)
    (ctx : Ctx δ) :
    (blktraceLost ins lostStart lostEnd ctx).lostList =
      lostView.add
        { ins := ins, reclaim := false, startTime := lostStart
          endTime := lostEnd } ctx.lostList := by
  simp only [blktraceLost, GapView.add, lostView, BitVec.le_def]
  rfl

variable {rq : RequestTrack} {tracks : SearchTree δ RequestTrack} {ctx : Ctx δ}

theorem mem_link {probe : RequestTrack → Ordering}
    (hmem : rq ∈ (tracks.link probe fresh new).toList) :
    rq = new ∨ rq ∈ tracks.toList := by
  induction tracks with
  | leaf => exact .inl (List.mem_singleton.mp hmem)
  | node mark left item right inductionLeft inductionRight =>
    rw [SearchTree.link] at hmem
    rw [SearchTree.toList_node, List.mem_append, List.mem_cons]
    split at hmem
    · rcases List.mem_append.mp hmem with hleft | hright
      · exact (inductionLeft hleft).imp_right .inl
      · exact .inr (.inr (List.mem_cons.mp hright))
    · rcases List.mem_append.mp hmem with hleft | hright
      · exact .inr (.inl hleft)
      · rcases List.mem_cons.mp hright with hitem | hright
        · exact .inr (.inr (.inl hitem))
        · exact (inductionRight hright).imp_right fun h => .inr (.inr h)
    · rw [SearchTree.toList_node, List.mem_append, List.mem_cons] at hmem
      exact .inr hmem

theorem mem_trackRequest (hmem : rq ∈ (trackRequest balance r tracks).toList) :
    rq = r ∨ rq ∈ tracks.toList := by
  rw [trackRequest] at hmem
  split at hmem
  · rename_i found hfind
    obtain ⟨_, before, after, hlist, hset, hout⟩ := SearchTree.find_split hfind
    rw [hlist]
    split at hmem
    · rw [SearchTree.Balance.settle_toList, hout] at hmem
      simp only [List.mem_append, List.mem_cons] at hmem ⊢
      tauto
    · rw [hset] at hmem
      simp only [List.mem_append, List.mem_cons] at hmem ⊢
      tauto
  · split at hmem
    · exact .inr hmem
    · rw [SearchTree.Balance.settle_toList] at hmem
      exact mem_link hmem

theorem blktraceSample_cases (event : Sample) (ctx : Ctx δ) :
    (blktraceSample balance greaterThan event ctx).1 =
        ctx.pastLost event.time ∨
      ctx.withinLost event.time = false ∧
        ∃ tp, (blktraceSample balance greaterThan event ctx).1 =
          { ctx.pastLost event.time with
            rqTracks := trackRequest balance (event.track tp)
              (ctx.pastLost event.time).rqTracks
            stats := fun other =>
              match (ctx.pastLost event.time).rqTracks.find
                (requestTrackNodeCmp (event.track tp)) with
              | none => ctx.stats other
              | some previous =>
                if other = tp then
                  (ctx.stats tp).add greaterThan (event.time - previous.time)
                else ctx.stats other } := by
  rw [blktraceSample]
  dsimp only
  split
  · exact .inl rfl
  rename_i hwithin
  split
  · exact .inl rfl
  rename_i tp htp
  split
  · exact .inl rfl
  refine .inr ⟨Bool.eq_false_iff.mpr hwithin, tp, ?_⟩
  cases (ctx.pastLost event.time).rqTracks.find (requestTrackNodeCmp (event.track tp)) with
  | none => rfl
  | some previous => rfl

theorem heldTimes_trackRequest (event : Sample) (tp : BlockTp)
    (tracks : SearchTree δ RequestTrack) :
    heldTimes (trackRequest balance (event.track tp) tracks) ⊆
      insert event.time.toNat (heldTimes tracks) := by
  rintro time ⟨rq, hmem, rfl⟩
  rcases mem_trackRequest balance hmem with rfl | hold
  · exact .inl rfl
  · exact .inr ⟨rq, hold, rfl⟩

theorem eventLost_passed
    (kept : lostView.Kept past ctx.lostList (heldTimes ctx.rqTracks))
    (chronological : Chronological (past ++ [.event time.toNat])) :
    lostView.Passed past time.toNat (ctx.pastLost time).lostList
      (heldTimes (ctx.pastLost time).rqTracks) (ctx.withinLost time) :=
    by
  simp only [Ctx.pastLost, Ctx.withinLost, eventLostLoop_eq_pass]
  refine kept.pass lostView (fun _ _ => ?_) chronological
  refine Set.eq_empty_of_forall_notMem ?_
  rintro time ⟨rq, hmem, _⟩
  cases hmem

theorem step_kept (past : List (Arrival Nat)) (input : Event) (ctx next : Ctx δ)
    (kept : lostView.Kept past ctx.lostList (heldTimes ctx.rqTracks))
    (chronological : Chronological (past ++ [arrival input]))
    (hstep : step balance greaterThan input ctx = some next) :
    lostView.Kept (past ++ [arrival input]) next.lostList
      (heldTimes next.rqTracks) := by
  cases input with
  | lost ins lostStart lostEnd =>
    cases hstep
    rw [lostList_blktraceLost]
    exact kept.add lostView rfl rfl rfl chronological
  | sample event =>
    cases hstep
    have passed := eventLost_passed kept chronological
    rcases blktraceSample_cases balance greaterThan event ctx with
      hsame | ⟨hwithin, tp, hlooked⟩
    · rw [hsame]
      refine passed.kept _ ?_
      split
      · exact subset_rfl
      · exact Set.subset_insert _ _
    · rw [hlooked]
      refine passed.kept _ ?_
      rw [hwithin]
      exact heldTimes_trackRequest balance event tp _

end Blktrace

end PerfProf
