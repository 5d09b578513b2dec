import PerfProf.TaskState.Sample

namespace PerfProf.TaskState

open Data

inductive Move where
  | out (state : Nat)
  | into
  | wake (new : Bool)
  deriving DecidableEq, Repr

def movesOf (config : Config) (pid : Int) (event : Event) : List Move :=
  match event.evsel with
  | .schedSwitch =>
    (if event.prevPid = pid then [.out event.prevState] else []) ++
      if (¬ config.filter ∧ ¬ config.sd) ∧ event.nextPid = pid then [.into]
      else []
  | .schedSwitchNext => if event.nextPid = pid then [.into] else []
  | .schedWakeup => if event.pid = pid then [.wake false] else []
  | .schedWakeupNew => if event.pid = pid then [.wake true] else []
  | .unknown => []

def trace (config : Config) (pid : Int) (events : List Event) :
    List (Nat × Move) :=
  events.flatMap fun event => (movesOf config pid event).map (event.time, ·)

inductive Phase where
  | awake
  | asleep (state : Nat)
  | gone
  deriving DecidableEq, Repr

def Phase.left (config : Config) (state : Nat) : Phase :=
  if state &&& config.stateDead ≠ 0 then .gone
  else if state = TASK_RUNNING ∨ state = config.reportMax then .awake
  else .asleep state

def Reported (config : Config) (state : Nat) : Prop :=
  ∀ slept, Phase.left config state = .asleep slept → slept &&& config.taskReport ≠ 0

structure Life where
  phase : Phase
  first : Nat
  last : Nat
  deriving DecidableEq, Repr

/-- A task that sleeps is woken up before it runs, a new one has not been seen
before, and a dead one is not seen again.  Whoever is awake can be woken up
again, which is no transition. -/
def Life.next (config : Config) (time : Nat) (life : Life) : Move → Option Life
  | .out state =>
    if life.phase = .awake then some ⟨.left config state, life.first, time⟩
    else none
  | .into =>
    if life.phase = .awake then some ⟨.awake, life.first, time⟩ else none
  | .wake true => none
  | .wake false =>
    match life.phase with
    | .awake => some life
    | .asleep _ => some ⟨.awake, life.first, time⟩
    | .gone => none

/-- No event is earlier than the last transition. -/
def Life.move (config : Config) :
    Nat × Move → Option Life → Option (Option Life)
  | (time, .out state), none => some (some ⟨.left config state, time, time⟩)
  | (time, _), none => some (some ⟨.awake, time, time⟩)
  | (time, move), some life =>
    if time < life.last then none else (life.next config time move).map some

def Spans (first last : Nat) : List (Nat × Nat) → Prop
  | [] => first = last
  | one :: rest => one.1 = first ∧ one.1 < one.2 ∧ Spans one.2 last rest

section Task

variable {δ : Type} (balance : SearchTree.Balance δ TaskStateNode)
variable (config : Config) (pid : Int)

def known (tasks : SearchMap δ TaskStateNode.pid) : Option (Nat × Nat) :=
  (tasks.find pid).map fun task => (task.state, task.time)

def intervals (reports : List Report) : List (Nat × Nat) :=
  (reports.filter (·.instance_ = pid)).map fun report => (report.first, report.last)

def settle (time : Nat) (move : Move) (old : Option (Nat × Nat)) :
    Option (Nat × Nat) × List (Nat × Nat) :=
  match move, old with
  | .out state, _ =>
    (if state &&& config.stateDead ≠ 0 then none
      else some (if state = config.reportMax then TASK_RUNNING else state, time),
      old.elim [] fun node =>
        if node.2 < time ∧ node.1 = TASK_RUNNING then [(node.2, time)] else [])
  | .into, _ =>
    (some (TASK_RUNNING, time), old.elim [] fun node =>
      if node.2 < time ∧ node.1 = TASK_RUNNING then [(node.2, time)] else [])
  | .wake _, none => (some (TASK_RUNNING, time), [])
  | .wake new, some node =>
    (some (TASK_RUNNING,
        if node.1 ≠ TASK_RUNNING ∨ new then time else node.2),
      if node.2 < time ∧ node.1 &&& config.taskReport ≠ 0 then
        [(node.2, time)] else [])

variable {config pid} {tasks : SearchMap δ TaskStateNode.pid} {event : Event}

theorem known_putTask (task : TaskStateNode) :
    known pid (putTask balance task tasks) =
      if task.pid = pid then
        some (task.state, task.time)
      else known pid tasks := by
  unfold known putTask
  grind [SearchMap.find_set_self, SearchMap.find_set_of_ne,
    SearchMap.find_insert_self, SearchMap.find_insert_of_ne]

theorem known_erase (wanted : Int) : known pid (tasks.erase balance wanted) =
      if wanted = pid then none else known pid tasks := by
  unfold known
  grind [SearchMap.find_erase_self, SearchMap.find_erase_of_ne]

theorem intervals_append (first second : List Report) :
    intervals pid (first ++ second) =
      intervals pid first ++ intervals pid second := by
  simp [intervals]

variable (hpid : 0 < pid)

include hpid

theorem switchPrev_view : (known pid (switchPrev balance config event tasks).1,
      intervals pid (switchPrev balance config event tasks).2) =
    if event.prevPid = pid then
      settle config event.time (.out event.prevState) (known pid tasks)
    else (known pid tasks, []) := by
  unfold switchPrev intervals settle
  cases hfind : tasks.find event.prevPid with
  | none => grind [known_putTask, known_erase, known]
  | some task =>
    have hkey := tasks.find_key hfind
    grind [known_putTask, known_erase, known]

theorem switchNext_view : (known pid (switchNext balance config event tasks).1,
      intervals pid (switchNext balance config event tasks).2) =
    if event.nextPid = pid then
      settle config event.time .into (known pid tasks)
    else (known pid tasks, []) := by
  unfold switchNext intervals settle
  cases hfind : tasks.find event.nextPid with
  | none => grind [known_putTask, known_erase, known]
  | some task =>
    have hkey := tasks.find_key hfind
    grind [known_putTask, known_erase, known]

theorem wakeup_view (hsd : config.sd = false) :
    (known pid (wakeup balance config event tasks).1,
      intervals pid (wakeup balance config event tasks).2) =
      if event.pid = pid then
        settle config event.time (.wake (event.evsel = .schedWakeupNew))
          (known pid tasks)
      else (known pid tasks, []) := by
  unfold wakeup intervals settle
  cases hfind : tasks.find event.pid with
  | none => grind [known_putTask, known]
  | some task =>
    have hkey := tasks.find_key hfind
    grind [known_putTask, known]

end Task

def Life.node (life : Life) : Option (Nat × Nat) :=
  match life.phase with
  | .awake => some (TASK_RUNNING, life.last)
  | .asleep state => some (state, life.last)
  | .gone => none

structure Life.Recorded (config : Config) (life : Life)
    (old : Option (Nat × Nat)) (done : List (Nat × Nat)) : Prop where
  node : old = life.node
  spans : Spans life.first life.last done
  reported : ∀ state, life.phase = .asleep state → state &&& config.taskReport ≠ 0

def Recorded (config : Config) (life : Option Life)
    (old : Option (Nat × Nat)) (done : List (Nat × Nat)) : Prop :=
  life.elim (old = none ∧ done = []) fun life => life.Recorded config old done

theorem Spans.extend {first middle last : Nat} {done : List (Nat × Nat)}
    (spans : Spans first middle done) (hle : middle ≤ last) :
    Spans first last
      (done ++ if middle < last then [(middle, last)] else []) := by
  induction done generalizing first with
  | nil => grind [Spans]
  | cons one rest ih =>
    obtain ⟨hfirst, hless, hrest⟩ := spans
    exact ⟨hfirst, hless, ih hrest⟩

theorem Spans.sum {first last : Nat} {done : List (Nat × Nat)}
    (spans : Spans first last done) :
    first ≤ last ∧ (done.map fun one => one.2 - one.1).sum = last - first := by
  induction done generalizing first with
  | nil => grind [Spans]
  | cons one rest ih =>
    obtain ⟨rfl, hless, hrest⟩ := spans
    obtain ⟨hle, hsum⟩ := ih hrest
    rw [List.map_cons, List.sum_cons, hsum]
    omega

section Steps

variable {config : Config} {old : Option (Nat × Nat)}
  {done : List (Nat × Nat)} {time : Nat} {move : Move} {next : Option Life}

theorem Life.Recorded.left {first state : Nat} (spans : Spans first time done)
    (reported : Reported config state) :
    Life.Recorded config ⟨.left config state, first, time⟩
      (if state &&& config.stateDead ≠ 0 then
        none
      else
        some (if state = config.reportMax then TASK_RUNNING else state, time))
      done := by
  refine ⟨?_, spans, reported⟩
  grind [Life.node, Phase.left]

theorem Life.Recorded.awake {first : Nat} (spans : Spans first time done) :
    Life.Recorded config ⟨.awake, first, time⟩ (some (TASK_RUNNING, time))
      done := by
  refine ⟨rfl, spans, ?_⟩
  intro slept hslept
  cases hslept

theorem Recorded.settle {life : Option Life}
    (recorded : Recorded config life old done)
    (reported : ∀ state, move = .out state → Reported config state)
    (hmove : Life.move config (time, move) life = some next) :
    Recorded config next (settle config time move old).1
      (done ++ (TaskState.settle config time move old).2) := by
  cases life with
  | none =>
    obtain ⟨rfl, rfl⟩ := recorded
    cases move with
    | out state =>
      cases hmove
      exact .left rfl (reported state rfl)
    | into =>
      cases hmove
      exact .awake rfl
    | wake new =>
      cases hmove
      exact .awake rfl
  | some life =>
    obtain ⟨rfl, spans, slept⟩ := recorded
    obtain ⟨hlate, after, hnext, rfl⟩ : life.last ≤ time ∧
        ∃ after, life.next config time move = some after ∧ some after = next := by
      simpa [Life.move] using hmove
    have hspans := spans.extend hlate
    obtain ⟨phase, first, last⟩ := life
    cases move with
    | out state =>
      obtain ⟨rfl, ⟨⟩⟩ := Option.ite_none_right_eq_some.mp hnext
      simp only [TaskState.settle, Life.node, Option.elim, and_true]
      exact .left hspans (reported state rfl)
    | into =>
      obtain ⟨rfl, ⟨⟩⟩ := Option.ite_none_right_eq_some.mp hnext
      simp only [TaskState.settle, Life.node, Option.elim, and_true]
      exact .awake hspans
    | wake new =>
      cases new with
      | true => cases hnext
      | false =>
        cases phase with
        | awake =>
          cases hnext
          simpa [TaskState.settle, Life.node, Recorded] using
            @Life.Recorded.awake config _ _ _ spans
        | asleep state =>
          cases hnext
          have hreported := slept state rfl
          have hstate : state ≠ TASK_RUNNING := by
            intro hrunning
            rw [hrunning, Nat.zero_and] at hreported
            exact hreported rfl
          simp only [TaskState.settle, Life.node, hreported, hstate, ne_eq,
            not_false_eq_true, true_or, if_true, and_true]
          exact .awake hspans
        | gone => cases hnext

variable {δ : Type} {balance : SearchTree.Balance δ TaskStateNode} {pid : Int}
  {tasks : SearchMap δ TaskStateNode.pid} {event : Event} {life : Option Life}

theorem Recorded.part {result : SearchMap δ TaskStateNode.pid × List Report}
    {owns : Prop} [Decidable owns]
    (recorded : Recorded config life (known pid tasks) done)
    (view : (known pid result.1, intervals pid result.2) =
      if owns then
        TaskState.settle config time move (known pid tasks)
      else (known pid tasks, []))
    (reported : ∀ state, move = .out state → owns → Reported config state)
    (hrun : run (Life.move config) ((if owns then [move] else []).map (time, ·))
      life = some next) :
    Recorded config next (known pid result.1)
      (done ++ intervals pid result.2) := by
  split_ifs at view with howns
  · obtain ⟨hknown, hintervals⟩ := Prod.mk.inj view
    rw [if_pos howns, List.map_singleton] at hrun
    obtain ⟨after, hmove, ⟨⟩⟩ := run_cons.mp hrun
    rw [hknown, hintervals]
    exact recorded.settle (fun state hout => reported state hout howns) hmove
  · obtain ⟨hknown, hintervals⟩ := Prod.mk.inj view
    rw [if_neg howns] at hrun
    cases hrun
    rw [hknown, hintervals, List.append_nil]
    exact recorded

theorem Recorded.sampleUsed (hpid : 0 < pid) (hsd : config.sd = false)
    (recorded : Recorded config life (known pid tasks) done)
    (reported : ∀ state, .out state ∈ movesOf config pid event →
      Reported config state)
    (hrun : run (Life.move config)
      ((movesOf config pid event).map (event.time, ·)) life = some next) :
    Recorded config next (known pid (sampleUsed balance config event tasks).1)
      (done ++
        intervals pid (TaskState.sampleUsed balance config event tasks).2) := by
  unfold TaskState.sampleUsed
  unfold movesOf at hrun reported
  cases hevsel : event.evsel with
  | schedSwitch =>
    rw [hevsel] at hrun reported
    rw [List.map_append] at hrun
    obtain ⟨middle, hprev, hnext⟩ := run_append.mp hrun
    have hmiddle := recorded.part (switchPrev_view balance hpid) (by
      intro state hout howns
      cases hout
      exact reported _ (List.mem_append_left _ (by rw [if_pos howns]; exact .head _)))
      hprev
    dsimp only
    split_ifs with hmode
    · simp only [and_iff_right hmode] at hnext
      rw [intervals_append, ← List.append_assoc]
      exact hmiddle.part (switchNext_view balance hpid) (fun _ hout => by cases hout) hnext
    · simp only [hmode, false_and, if_false] at hnext
      cases hnext
      exact hmiddle
  | schedSwitchNext =>
    rw [hevsel] at hrun
    exact recorded.part (switchNext_view balance hpid) (fun _ hout => by cases hout) hrun
  | schedWakeup =>
    have hview := @wakeup_view _ balance _ _ tasks event hpid hsd
    rw [hevsel] at hrun hview
    exact recorded.part hview (fun _ hout => by cases hout) hrun
  | schedWakeupNew =>
    have hview := @wakeup_view _ balance _ _ tasks event hpid hsd
    rw [hevsel] at hrun hview
    exact recorded.part hview (fun _ hout => by cases hout) hrun
  | unknown =>
    rw [hevsel] at hrun
    cases hrun
    rw [show intervals pid [] = [] from rfl, List.append_nil]
    exact recorded

end Steps

def sampleAll {δ : Type} (balance : SearchTree.Balance δ TaskStateNode)
    (config : Config) : List Event → Ctx δ × List Report → Ctx δ × List Report
  | [], state => state
  | event :: rest, state =>
    let next := taskStateSample balance config event state.1
    sampleAll balance config rest (next.1, state.2 ++ next.2)

theorem Recorded.sampleAll {δ : Type}
    {balance : SearchTree.Balance δ TaskStateNode} {config : Config} {pid : Int}
    (hpid : 0 < pid) (hsd : config.sd = false) {events : List Event}
    {state : Ctx δ × List Report} {life last : Option Life}
    (recorded : Recorded config life (known pid state.1.taskStates)
      (intervals pid state.2))
    (noLoss : state.1.lostList = [])
    (reported : ∀ time state, (time, .out state) ∈ trace config pid events →
      Reported config state)
    (hrun : run (Life.move config) (trace config pid events) life = some last) :
    Recorded config last
      (known pid (sampleAll balance config events state).1.taskStates)
      (intervals pid (TaskState.sampleAll balance config events state).2) := by
  induction events generalizing state life with
  | nil =>
    cases hrun
    exact recorded
  | cons event rest ih =>
    rw [trace, List.flatMap_cons] at hrun reported
    obtain ⟨middle, hevent, hrest⟩ := run_append.mp hrun
    rw [TaskState.sampleAll]
    simp only [taskStateSample, taskStateEventLost, noLoss, GapView.pass,
      Bool.false_eq_true, if_false]
    refine ih ?_ rfl ?_ hrest
    · rw [intervals_append]
      refine recorded.sampleUsed hpid hsd ?_ hevent
      intro state member
      exact reported _ _ (List.mem_append_left _ (List.mem_map_of_mem member))
    · intro time state member
      exact reported _ _ (List.mem_append_right _ member)

/-- For every valid trace of a task all of whose states are reported: the times
recorded for it follow each other from its first to its last transition, and add
up to the time between the two. -/
theorem durations_add_up {δ : Type}
    (balance : SearchTree.Balance δ TaskStateNode) (config : Config)
    (hsd : config.sd = false) (pid : Int) (hpid : 0 < pid) (events : List Event)
    (life : Life)
    (valid :
      run (Life.move config) (trace config pid events) none = some (some life))
    (reported : ∀ time state, (time, .out state) ∈ trace config pid events →
      Reported config state) :
    Spans life.first life.last
      (intervals pid (sampleAll balance config events (.init, [])).2) ∧
    (((sampleAll balance config events (.init, [])).2.filter
        (·.instance_ = pid)).map Report.latency).sum =
      life.last - life.first := by
  have hstart : Recorded config none
      (known pid (Ctx.init : Ctx δ).taskStates) (intervals pid []) := ⟨rfl, rfl⟩
  have recorded := @Recorded.sampleAll _ balance _ _ hpid hsd events
    (.init, []) _ _ hstart rfl reported valid
  refine ⟨recorded.spans, ?_⟩
  rw [← recorded.spans.sum.2, intervals, List.map_map]
  rfl

def plainConfig : Config where
  stateDead := 48
  reportMax := 256
  taskReport := 143
  filter := false
  sd := false
  dup := false
  greaterThan := 0

def sleeperEvents : List Event :=
  [⟨.schedSwitch, 10, 1, 1, 5, 0⟩, ⟨.schedSwitch, 30, 5, 1, 1, 0⟩,
    ⟨.schedWakeup, 50, 0, 0, 0, 5⟩, ⟨.schedSwitch, 60, 1, 256, 5, 0⟩,
    ⟨.schedSwitch, 100, 5, 16, 1, 0⟩]

theorem durations_add_up_sleeper :
    (((sampleAll (.plain _) plainConfig sleeperEvents (.init, [])).2.filter
      (·.instance_ = 5)).map Report.latency).sum = 100 - 10 := by
  refine (durations_add_up (.plain _) plainConfig rfl 5 (by decide)
    sleeperEvents ⟨.gone, 10, 100⟩ (by decide) ?_).2
  intro time state member slept hslept
  have hstate : time = 30 ∧ state = 1 ∨ time = 100 ∧ state = 16 := by
    simpa [trace, sleeperEvents, movesOf, plainConfig] using member
  rcases hstate with ⟨_, rfl⟩ | ⟨_, rfl⟩
  · cases hslept
    decide
  · cases hslept

end PerfProf.TaskState
