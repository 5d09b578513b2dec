import Mathlib.Data.List.Induction
import PerfProf.Comm.Cache

namespace PerfProf.Comm

open Data

structure Entry where
  time : Nat
  comm : TaskComm
  gone : Bool
  deriving DecidableEq, Repr

def Entry.update (sample : Sample) (entry : Entry) : Entry :=
  if entry.time < sample.time then
    { time := sample.time, comm := sample.comm, gone := sample.exit }
  else { entry with gone := entry.gone || sample.exit }

theorem Entry.update_eq (sample : Sample) (entry : Entry) :
    entry.update sample = let kept := if entry.time < sample.time then
        ⟨sample.time, sample.comm, false⟩ else entry
      { kept with gone := kept.gone || sample.exit } := by
  rw [Entry.update]
  split
  · rfl
  · rfl

def PidCommNode.entry (node : PidCommNode) : Entry :=
  { time := node.updateTime, comm := node.comm, gone := node.exitNode }

section Refinement

variable {δ : Type}

def Ctx.entry (ctx : Ctx δ) (pid : Int) : Option Entry :=
  (ctx.pidComm.find pid).map PidCommNode.entry

def Ctx.exitKey (ctx : Ctx δ) (pid : Int) : ℕ ×ₗ ℤ :=
  toLex (ctx.updateTime pid, pid)

theorem exitCmp_eq (ctx : Ctx δ) (pid : Int) :
    ctx.exitCmp pid = byKey ctx.exitKey (ctx.exitKey pid) := by
  funext other
  rcases lt_trichotomy (ctx.updateTime other) (ctx.updateTime pid) with
    hless | hsame | hmore
  · have hkey : ctx.exitKey other < ctx.exitKey pid := Prod.Lex.toLex_lt_toLex.mpr (.inl hless)
    rw [Ctx.exitCmp, if_neg hless.asymm, if_pos hless]
    exact (compare_lt_iff_lt.mpr hkey).symm
  · rw [Ctx.exitCmp, hsame, if_neg (lt_irrefl _), if_neg (lt_irrefl _), byKey, Prod.Lex.compare_def]
    simp [compareLex, compareOn, Ctx.exitKey, hsame]
  · have hkey : ctx.exitKey pid < ctx.exitKey other := Prod.Lex.toLex_lt_toLex.mpr (.inl hmore)
    rw [Ctx.exitCmp, if_pos hmore]
    exact (compare_gt_iff_gt.mpr hkey).symm

structure Linked (ctx : Ctx δ) : Prop where
  marked : ∀ pid, pid ∈ ctx.exited.toList ↔
    ∃ node, ctx.pidComm.find pid = some node ∧ node.exitNode = true
  sorted : ctx.exited.toList.Pairwise fun first second => ctx.exitKey first < ctx.exitKey second

variable {ctx : Ctx δ} {node : PidCommNode}

theorem updateTime_of_find (hfind : ctx.pidComm.find pid = some node) :
    ctx.updateTime pid = node.updateTime := by
  rw [Ctx.updateTime, hfind]
  rfl

theorem exitKey_congr {ctx after : Ctx δ} {pid : Int}
    (hfind : after.pidComm.find pid = ctx.pidComm.find pid) :
    after.exitKey pid = ctx.exitKey pid := by
  rw [Ctx.exitKey, Ctx.exitKey, Ctx.updateTime, Ctx.updateTime, hfind]

theorem filter_absent {items : List Int} {pid : Int} (habsent : pid ∉ items) :
    items = items.filter fun other => !decide (other = pid) := by
  refine (List.filter_eq_self.mpr fun other hother => ?_).symm
  have hne : other ≠ pid := ne_of_mem_of_not_mem hother habsent
  simpa using hne

theorem Linked.unlinked {ctx after : Ctx δ} (linked : Linked ctx) {pid : Int}
    (hexited : after.exited.toList =
      ctx.exited.toList.filter fun other => !decide (other = pid))
    (hothers : ∀ other, other ≠ pid →
      after.pidComm.find other = ctx.pidComm.find other)
    (hfind : after.pidComm.find pid = some node)
    (hnode : node.exitNode = false) : Linked after := by
  constructor
  · intro other
    rw [hexited, List.mem_filter]
    by_cases hother : other = pid
    · subst hother
      simp [hfind, hnode]
    · rw [hothers other hother, linked.marked other]
      simp [hother]
  · rw [hexited]
    refine (linked.sorted.filter _).imp_of_mem fun {first second} hfirst hsecond hless => ?_
    rw [exitKey_congr (hothers first (by simpa using (List.mem_filter.mp hfirst).2)),
      exitKey_congr (hothers second (by simpa using (List.mem_filter.mp hsecond).2))]
    exact hless

theorem Linked.linked {ctx after : Ctx δ} (linked : Linked ctx)
    {before behind : List Int} (hlist : ctx.exited.toList = before ++ behind)
    (hexited : after.exited.toList = before ++ node.pid :: behind)
    (hbefore : ∀ other ∈ before, ctx.exitCmp node.pid other = .lt)
    (hbehind : ∀ other ∈ behind, ctx.exitCmp node.pid other = .gt)
    (hothers : ∀ other, other ≠ node.pid →
      after.pidComm.find other = ctx.pidComm.find other)
    (hfind : ctx.pidComm.find node.pid = some node)
    (hnode :
      after.pidComm.find node.pid = some { node with exitNode := true }) :
    Linked after := by
  have hkey : after.exitKey = ctx.exitKey := by
    funext other
    by_cases hother : other = node.pid
    · subst hother
      rw [Ctx.exitKey, Ctx.exitKey, updateTime_of_find hnode, updateTime_of_find hfind]
    · exact exitKey_congr (hothers other hother)
  have hsorted := linked.sorted
  rw [hlist] at hsorted
  rw [exitCmp_eq] at hbefore hbehind
  constructor
  · intro other
    have hmarked := linked.marked other
    rw [hlist, List.mem_append] at hmarked
    rw [hexited, List.mem_append, List.mem_cons]
    by_cases hother : other = node.pid
    · subst hother
      simp [hnode]
    · rw [hothers other hother, ← hmarked]
      simp [hother]
  · rw [hexited, hkey]
    exact SearchMap.sorted_around.mpr ⟨hsorted, fun other hother => compare_lt_iff_lt.mp (hbefore
      other hother), fun other hother => compare_gt_iff_gt.mp (hbehind other hother)⟩

variable (machine : Machine δ)

theorem findnew_spec (linked : Linked ctx) (pid : Int) :
    let found := findnew machine pid ctx
    Linked found.2 ∧
      found.2.pidComm.find pid = some found.1 ∧
      found.1.entry = (ctx.entry pid).getD ⟨0, machine.junk, false⟩ ∧
      ∀ other, other ≠ pid →
        found.2.pidComm.find other = ctx.pidComm.find other := by
  cases hfind : ctx.pidComm.find pid with
  | some node =>
    have hfound : findnew machine pid ctx = (node, ctx) := by rw [findnew, hfind]
    rw [hfound]
    refine ⟨linked, hfind, ?_, fun _ _ => rfl⟩
    rw [Ctx.entry, hfind]
    rfl
  | none =>
    let fresh : PidCommNode := ⟨0, machine.junk, pid, false, false⟩
    have hfound : findnew machine pid ctx =
        (fresh, { ctx with
          pidComm := ctx.pidComm.insert machine.nodes fresh }) := by
      rw [findnew, hfind]
    have hself := SearchMap.find_insert_self machine.nodes ctx.pidComm
      (show ctx.pidComm.find fresh.pid = none from hfind)
    have hothers : ∀ other, other ≠ pid → (ctx.pidComm.insert machine.nodes fresh).find other =
          ctx.pidComm.find other := fun other hother =>
      SearchMap.find_insert_of_ne machine.nodes ctx.pidComm
        (show ctx.pidComm.find fresh.pid = none from hfind) hother
    have habsent : pid ∉ ctx.exited.toList := by
      rw [linked.marked, hfind]
      simp
    rw [hfound]
    refine ⟨linked.unlinked (filter_absent habsent) hothers hself rfl, hself, ?_, hothers⟩
    · rw [Ctx.entry, hfind]
      rfl

theorem addExited_spec (linked : Linked ctx)
    (hfind : ctx.pidComm.find node.pid = some node) :
    let after := addExited machine node ctx
    Linked after ∧
      after.pidComm.find node.pid = some { node with exitNode := true } ∧
      ∀ other, other ≠ node.pid →
        after.pidComm.find other = ctx.pidComm.find other := by
  have guides := SearchMap.guides ⟨ctx.exited, linked.sorted⟩ (ctx.exitKey node.pid)
  rw [← exitCmp_eq] at guides
  cases hexited : ctx.exited.find (ctx.exitCmp node.pid) with
  | some found =>
    have hafter : addExited machine node ctx = ctx := by simp only [addExited, hexited]
    have hcmp := (SearchTree.find_split hexited).1
    rw [exitCmp_eq] at hcmp
    have hpid : found = node.pid := congrArg (fun key => (ofLex key).2) (compare_eq_iff_eq.mp hcmp)
    obtain ⟨marked, hmarked, hexit⟩ := (linked.marked found).mp (SearchTree.mem_of_find hexited)
    rw [hpid, hfind] at hmarked
    cases hmarked
    rw [hafter]
    refine ⟨linked, ?_, fun _ _ => rfl⟩
    rw [hfind, ← hexit]
  | none =>
    obtain ⟨before, behind, hlist, hbefore, hbehind, hlink⟩ :=
      SearchTree.find_none_split guides hexited
    have hafter : addExited machine node ctx =
        { pidComm := ctx.pidComm.set { node with exitNode := true }
          exited := machine.exits.settle ctx.exited
            (ctx.exited.link (ctx.exitCmp node.pid) machine.exits.fresh
              node.pid) } := by
      simp only [addExited, hexited]
    have hself := SearchMap.find_set_self ctx.pidComm (show ctx.pidComm.find
        (PidCommNode.pid { node with exitNode := true }) = some node from hfind)
    have hothers : ∀ other, other ≠ node.pid →
        (ctx.pidComm.set { node with exitNode := true }).find other =
          ctx.pidComm.find other := fun other hother =>
      SearchMap.find_set_of_ne ctx.pidComm (show ctx.pidComm.find
          (PidCommNode.pid { node with exitNode := true }) = some node
          from hfind) hother
    rw [hafter]
    refine ⟨?_, hself, hothers⟩
    refine linked.linked hlist ?_ hbefore hbehind hothers hfind hself
    rw [machine.exits.settle_toList, hlink]

theorem renewed_spec (linked : Linked ctx)
    (hfind : ctx.pidComm.find node.pid = some node) (time : Nat)
    (comm : TaskComm) :
    let renewed := { node with
      updateTime := time, comm := comm, flush := false, exitNode := false }
    let cleared :=
      if node.exitNode then removeExited machine node.pid ctx else ctx
    let after : Ctx δ := { cleared with pidComm := cleared.pidComm.set renewed }
    Linked after ∧
      after.pidComm.find node.pid = some renewed ∧
      ∀ other, other ≠ node.pid →
        after.pidComm.find other = ctx.pidComm.find other := by
  intro renewed cleared after
  have hnodes : cleared.pidComm = ctx.pidComm := by
    simp only [cleared]
    split
    · rfl
    · rfl
  have hexited : cleared.exited.toList =
      ctx.exited.toList.filter fun other => !decide (other = node.pid) := by
    simp only [cleared]
    split_ifs with hout
    · rw [removeExited, machine.exits.settle_toList, SearchTree.remove_toList]
    · apply filter_absent
      rw [linked.marked, hfind]
      simpa using hout
  have hfound : cleared.pidComm.find renewed.pid = some node := by
    rw [hnodes]
    exact hfind
  have hself := SearchMap.find_set_self cleared.pidComm hfound
  have hothers : ∀ other, other ≠ node.pid → after.pidComm.find other = ctx.pidComm.find other := by
    intro other hother
    rw [← hnodes]
    exact SearchMap.find_set_of_ne cleared.pidComm hfound hother
  exact ⟨linked.unlinked hexited hothers hself rfl, hself, hothers⟩

theorem commSample_eq (sample : Sample) (ctx : Ctx δ) :
    commSample machine sample ctx =
      commUpdate machine sample.time sample.exit sample.pid sample.comm
        ctx := by
  rw [commSample, Sample.exit]
  cases sample.kind with
  | taskNewtask => rfl
  | taskRename => rfl
  | schedProcessFree => rfl

def updated (time : Nat) (pid : Int) (comm : TaskComm)
    (found : PidCommNode × Ctx δ) : PidCommNode × Ctx δ :=
  if found.1.updateTime < time then
    let ctx :=
      if found.1.exitNode then removeExited machine pid found.2 else found.2
    let node := { found.1 with
      updateTime := time, comm := comm, flush := false, exitNode := false }
    (node, { ctx with pidComm := ctx.pidComm.set node })
  else found

theorem commUpdate_eq (time : Nat) (exit : Bool) (pid : Int) (comm : TaskComm)
    (ctx : Ctx δ) :
    commUpdate machine time exit pid comm ctx =
      let after := updated machine time pid comm (findnew machine pid ctx)
      if exit then addExited machine after.1 after.2 else after.2 := rfl

theorem updated_spec (linked : Linked found.2)
    (hfind : found.2.pidComm.find pid = some found.1) (time : Nat)
    (comm : TaskComm) :
    let after := updated machine time pid comm found
    Linked after.2 ∧
      after.2.pidComm.find pid = some after.1 ∧
      after.1.entry = (if found.1.entry.time < time then ⟨time, comm, false⟩
        else found.1.entry) ∧
      ∀ other, other ≠ pid →
        after.2.pidComm.find other = found.2.pidComm.find other := by
  obtain ⟨node, ctx⟩ := found
  have hpid : node.pid = pid := SearchMap.find_key _ hfind
  subst hpid
  by_cases hnewer : node.updateTime < time
  · have spec := renewed_spec machine linked hfind time comm
    rw [updated, if_pos hnewer]
    refine ⟨spec.1, spec.2.1, ?_, spec.2.2⟩
    exact (if_pos (show node.entry.time < time from hnewer)).symm
  · rw [updated, if_neg hnewer]
    refine ⟨linked, hfind, ?_, fun _ _ => rfl⟩
    exact (if_neg (show ¬node.entry.time < time from hnewer)).symm

theorem commSample_spec (linked : Linked ctx) (sample : Sample) :
    let after := commSample machine sample ctx
    Linked after ∧ after.entry sample.pid = some (((ctx.entry sample.pid).getD
        ⟨0, machine.junk, false⟩).update sample) ∧
      ∀ other, other ≠ sample.pid → after.entry other = ctx.entry other := by
  obtain ⟨linkedFound, hfound, hfresh, hrest⟩ := findnew_spec machine linked sample.pid
  obtain ⟨linkedAfter, hafter, hentry, hothers⟩ :=
    updated_spec machine linkedFound hfound sample.time sample.comm
  rw [commSample_eq, commUpdate_eq]
  rw [hfresh] at hentry
  generalize updated machine sample.time sample.pid sample.comm
    (findnew machine sample.pid ctx) = after at *
  have hpid : after.1.pid = sample.pid := SearchMap.find_key _ hafter
  cases hexit : sample.exit with
  | false =>
    refine ⟨linkedAfter, ?_, fun other hother => ?_⟩
    · simp only [Bool.false_eq_true, if_false, Ctx.entry, hafter,
        Option.map_some, Entry.update_eq, hexit, Bool.or_false]
      rw [hentry]
      rfl
    · simp only [Bool.false_eq_true, if_false, Ctx.entry]
      rw [hothers other hother, hrest other hother]
  | true =>
    rw [← hpid] at hafter
    obtain ⟨linkedAdded, hadded, hkept⟩ := addExited_spec machine linkedAfter hafter
    refine ⟨linkedAdded, ?_, fun other hother => ?_⟩
    · simp only [if_true, Ctx.entry, Entry.update_eq, hexit, Bool.or_true]
      rw [← hpid, hadded, hpid]
      exact congrArg (fun entry => some { entry with gone := true }) hentry
    · simp only [if_true, Ctx.entry]
      rw [hkept other (hpid ▸ hother), hothers other hother, hrest other hother]

end Refinement

section Register

variable (junk : TaskComm) (pid : Int)

def follow (entry : Option Entry) (samples : List Sample) : Option Entry :=
  samples.foldl (fun entry sample =>
    if sample.pid = pid then some ((entry.getD ⟨0, junk, false⟩).update sample)
    else entry) entry

theorem follow_cons_self (entry : Option Entry) (samples : List Sample)
    (hpid : sample.pid = pid) :
    follow junk pid entry (sample :: samples) =
      follow junk pid (some ((entry.getD ⟨0, junk, false⟩).update sample))
        samples := by
  rw [follow, List.foldl_cons, if_pos hpid]
  rfl

theorem follow_cons_of_ne (entry : Option Entry) (samples : List Sample)
    (hpid : sample.pid ≠ pid) :
    follow junk pid entry (sample :: samples) =
      follow junk pid entry samples := by
  rw [follow, List.foldl_cons, if_neg hpid]
  rfl

theorem follow_append (entry : Option Entry) (before after : List Sample) :
    follow junk pid entry (before ++ after) =
      follow junk pid (follow junk pid entry before) after :=
  List.foldl_append

theorem follow_others (hothers : ∀ sample ∈ samples, sample.pid ≠ pid) :
    follow junk pid entry samples = entry := by
  induction samples with
  | nil => rfl
  | cons sample rest ih =>
    rw [follow_cons_of_ne junk pid entry rest (hothers sample List.mem_cons_self)]
    exact ih fun other hother => hothers other (List.mem_cons_of_mem _ hother)

theorem follow_below (hentry : (entry.getD ⟨0, junk, false⟩).time < bound)
    (hsamples : ∀ sample ∈ samples, sample.pid = pid → sample.time < bound) :
    ((follow junk pid entry samples).getD ⟨0, junk, false⟩).time < bound := by
  induction samples generalizing entry with
  | nil => exact hentry
  | cons sample rest ih =>
    have hrest : ∀ other ∈ rest, other.pid = pid → other.time < bound :=
      fun other hother => hsamples other (List.mem_cons_of_mem _ hother)
    by_cases hpid : sample.pid = pid
    · rw [follow_cons_self junk pid entry rest hpid]
      refine ih ?_ hrest
      rw [Option.getD_some, Entry.update]
      split
      · exact hsamples sample List.mem_cons_self hpid
      · exact hentry
    · rw [follow_cons_of_ne junk pid entry rest hpid]
      exact ih hentry hrest

theorem follow_stale {entry : Entry}
    (hstale : ∀ sample ∈ samples,
      sample.pid = pid → sample.time ≤ entry.time) :
    follow junk pid (some entry) samples = some { entry with
      gone := entry.gone || samples.any fun sample =>
        decide (sample.pid = pid) && sample.exit } := by
  induction samples generalizing entry with
  | nil => simp [follow]
  | cons sample rest ih =>
    have hrest : ∀ other ∈ rest, other.pid = pid → other.time ≤ entry.time :=
      fun other hother => hstale other (List.mem_cons_of_mem _ hother)
    by_cases hpid : sample.pid = pid
    · have hlate := hstale sample List.mem_cons_self hpid
      rw [follow_cons_self junk pid _ rest hpid, Option.getD_some,
        Entry.update, if_neg hlate.not_gt]
      have hgone := @ih { entry with gone := entry.gone || sample.exit } hrest
      rw [hgone]
      simp [hpid, Bool.or_assoc]
    · rw [follow_cons_of_ne junk pid _ rest hpid, ih hrest]
      simp [hpid]

end Register

/-- Samples in the order of delivery; those of one pid have different times. -/
structure Deliveries where
  samples : List Sample
  distinct : samples.Pairwise fun first second =>
    first.pid = second.pid → first.time ≠ second.time

def Latest (samples : List Sample) (latest : Sample) : Prop :=
  latest ∈ samples ∧ ∀ other ∈ samples, other.pid = latest.pid → other.time ≤ latest.time

theorem follow_latest (junk : TaskComm) (deliveries : Deliveries)
    (hsplit : deliveries.samples = before ++ latest :: after)
    (hlatest : Latest deliveries.samples latest) :
    follow junk latest.pid none deliveries.samples = some
      { time := latest.time
        comm := if latest.time = 0 then junk else latest.comm
        gone := latest.exit || after.any fun sample =>
          decide (sample.pid = latest.pid) && sample.exit } := by
  have distinct := deliveries.distinct
  have hmax := hlatest.2
  rw [hsplit] at distinct hmax ⊢
  have hbefore : ∀ sample ∈ before, sample.pid = latest.pid → sample.time < latest.time := by
    intro sample hsample hpid
    have hne := (List.pairwise_append.mp distinct).2.2 sample hsample latest List.mem_cons_self hpid
    have hle := hmax sample (by simp [hsample]) hpid
    omega
  have hafter : ∀ sample ∈ after, sample.pid = latest.pid → sample.time ≤ latest.time := by
    intro sample hsample hpid
    exact hmax sample (by simp [hsample]) hpid
  rw [follow_append, follow_cons_self junk _ _ after rfl]
  by_cases hzero : latest.time = 0
  · have hnone : follow junk latest.pid none before = none := by
      apply follow_others
      intro sample hsample hpid
      have hless := hbefore sample hsample hpid
      omega
    rw [hnone, Option.getD_none, Entry.update, if_neg (by simp [hzero]),
      follow_stale junk _ (by simpa [hzero] using hafter), if_pos hzero]
    simp [hzero]
  · have hbelow := follow_below junk latest.pid (show ((none : Option Entry).getD ⟨0, junk,
      false⟩).time < latest.time from Nat.pos_of_ne_zero hzero) hbefore
    rw [Entry.update, if_pos hbelow, follow_stale junk _ hafter, if_neg hzero]

section Deliver

variable {δ : Type} (machine : Machine δ)

theorem Linked.init : Linked (Ctx.init : Ctx δ) :=
  ⟨by simp [Ctx.init], .nil⟩

theorem deliver_follow (samples : List Sample) :
    Linked (deliver machine samples) ∧
    ∀ pid, (deliver machine samples).entry pid =
      follow machine.junk pid none samples := by
  induction samples using List.reverseRecOn with
  | nil => exact ⟨.init, fun _ => rfl⟩
  | append_singleton before sample ih =>
    have hdeliver : deliver machine (before ++ [sample]) =
        commSample machine sample (deliver machine before) := by
      simp [deliver]
    obtain ⟨linked, hself, hothers⟩ := commSample_spec machine ih.1 sample
    rw [hdeliver]
    refine ⟨linked, fun pid => ?_⟩
    rw [follow_append]
    by_cases hpid : sample.pid = pid
    · subst hpid
      rw [follow_cons_self _ _ _ _ rfl, hself, ih.2]
      rfl
    · rw [follow_cons_of_ne _ _ _ _ hpid, hothers pid (Ne.symm hpid), ih.2]
      rfl

theorem find_gcLoop (timeBefore : Nat) (habsent : pid ∉ list) :
    (gcLoop machine timeBefore list ctx).pidComm.find pid =
      ctx.pidComm.find pid := by
  induction list generalizing ctx with
  | nil => rfl
  | cons first rest ih =>
    rw [List.mem_cons, not_or] at habsent
    rw [gcLoop]
    split
    · rfl
    · rw [ih habsent.2]
      exact SearchMap.find_erase_of_ne machine.nodes ctx.pidComm habsent.1

structure OfLatest (samples : List Sample) (ctx : Ctx δ) : Prop where
  comm : ∀ latest, Latest samples latest →
    ∃ node, ctx.pidComm.find latest.pid = some node ∧ node.comm = latest.comm
  exited : ∀ latest, Latest samples latest → (latest.pid ∈ ctx.exited.toList ↔ latest.exit = true)
  collected : ∀ latest timeBefore, Latest samples latest → latest.exit = false →
      (commGc machine timeBefore ctx).pidComm.find latest.pid ≠ none

def Timely (junk : TaskComm) (samples : List Sample) : Prop :=
  ∀ latest, Latest samples latest → (latest.time = 0 → latest.comm = junk) ∧
    (latest.exit = false → ∀ before after, samples = before ++ latest :: after → ∀ sample ∈ after,
      sample.pid = latest.pid → sample.exit = false)

theorem deliver_node (deliveries : Deliveries)
    (hsplit : deliveries.samples = before ++ latest :: after)
    (hlatest : Latest deliveries.samples latest) :
    ∃ node,
      (deliver machine deliveries.samples).pidComm.find latest.pid = some node ∧
      node.comm = (if latest.time = 0 then machine.junk else latest.comm) ∧
      (latest.pid ∈ (deliver machine deliveries.samples).exited.toList ↔
          latest.exit = true ∨
          ∃ sample ∈ after, sample.pid = latest.pid ∧ sample.exit = true) := by
  obtain ⟨linked, hfollow⟩ := deliver_follow machine deliveries.samples
  have hentry := hfollow latest.pid
  rw [follow_latest machine.junk deliveries hsplit hlatest] at hentry
  obtain ⟨node, hfind, hnode⟩ := Option.map_eq_some_iff.mp hentry
  refine ⟨node, hfind, congrArg Entry.comm hnode, ?_⟩
  have hgone : node.exitNode = _ := congrArg Entry.gone hnode
  rw [linked.marked, hfind]
  simp [hgone]

/-- The cache holds what the latest sample of each task said if and only if the
samples are timely. -/
theorem deliver_ofLatest_iff (deliveries : Deliveries) :
    OfLatest machine deliveries.samples (deliver machine deliveries.samples) ↔
      Timely machine.junk deliveries.samples := by
  constructor
  · intro ofLatest latest hlatest
    refine ⟨fun hzero => ?_, fun hexit before after hsplit sample hsample hpid => ?_⟩
    · obtain ⟨before, after, hsplit⟩ := List.append_of_mem hlatest.1
      obtain ⟨node, hfind, hcomm, _⟩ := deliver_node machine deliveries hsplit hlatest
      obtain ⟨found, hfound, hname⟩ := ofLatest.comm latest hlatest
      rw [hfind] at hfound
      cases hfound
      rw [← hname, hcomm, if_pos hzero]
    · obtain ⟨_, _, _, hexited⟩ := deliver_node machine deliveries hsplit hlatest
      rw [ofLatest.exited latest hlatest, hexit] at hexited
      refine Bool.eq_false_iff.mpr fun hgone => ?_
      cases hexited.mpr (.inr ⟨sample, hsample, hpid, hgone⟩)
  · intro timely
    have hnode : ∀ latest, Latest deliveries.samples latest →
        ∃ node, (deliver machine deliveries.samples).pidComm.find latest.pid =
            some node ∧ node.comm = latest.comm ∧
          (latest.pid ∈ (deliver machine deliveries.samples).exited.toList ↔
            latest.exit = true) := by
      intro latest hlatest
      obtain ⟨before, after, hsplit⟩ := List.append_of_mem hlatest.1
      obtain ⟨node, hfind, hcomm, hexited⟩ := deliver_node machine deliveries hsplit hlatest
      obtain ⟨hjunk, hlate⟩ := timely latest hlatest
      refine ⟨node, hfind, ?_, ?_⟩
      · rw [hcomm]
        split_ifs with hzero
        · exact (hjunk hzero).symm
        · rfl
      · rw [hexited]
        refine ⟨fun hgone => ?_, .inl⟩
        by_contra hexit
        obtain hgone | ⟨sample, hsample, hpid, hgone⟩ := hgone
        · exact hexit hgone
        · rw [hlate (by simpa using hexit) before after hsplit sample hsample hpid] at hgone
          cases hgone
    refine ⟨?_, ?_, ?_⟩
    · intro latest hlatest
      obtain ⟨node, hfind, hcomm, _⟩ := hnode latest hlatest
      exact ⟨node, hfind, hcomm⟩
    · intro latest hlatest
      obtain ⟨_, _, _, hexited⟩ := hnode latest hlatest
      exact hexited
    · intro latest timeBefore hlatest hexit
      obtain ⟨node, hfind, _, hexited⟩ := hnode latest hlatest
      have habsent : latest.pid ∉ (deliver machine deliveries.samples).exited.toList := by
        rw [hexited, hexit]
        decide
      rw [commGc, find_gcLoop machine timeBefore habsent, hfind]
      simp

end Deliver

def renewedTask : Deliveries where
  samples := [⟨.taskNewtask, 20, 5, [98#8]⟩, ⟨.schedProcessFree, 10, 5, [97#8]⟩]
  distinct := by simp

def plainMachine : Machine Unit :=
  ⟨SearchTree.Balance.plain _, SearchTree.Balance.plain _, []⟩

/-- The end that comes late makes the collection forget the living task. -/
theorem late_exit_collects : ¬OfLatest plainMachine renewedTask.samples
      (deliver plainMachine renewedTask.samples) := by
  intro ofLatest
  have hlatest : Latest renewedTask.samples ⟨.taskNewtask, 20, 5, [98#8]⟩ := by
    simp [Latest, renewedTask]
  exact ofLatest.collected _ 30 hlatest rfl (by decide)

end PerfProf.Comm
