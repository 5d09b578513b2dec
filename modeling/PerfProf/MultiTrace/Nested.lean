import PerfProf.MultiTrace.Deferral

namespace PerfProf.MultiTrace

open PerfProf.Data

/-! `nested-trace`: the backup tree as the stack of open calls of each key. -/

/-- The calls that are open for each key, innermost first, and the returns with
the calls they belong to. -/
structure Nesting where
  opened : U64 → List Entry
  returned : List (Entry × Entry)

namespace Nesting

def init : Nesting := ⟨fun _ => [], []⟩

def enter (event : Entry) (nesting : Nesting) : Nesting :=
  { nesting with
    opened := Function.update nesting.opened event.key (event :: nesting.opened event.key) }

def leave (event top : Entry) (rest : List Entry) (nesting : Nesting) :
    Nesting where
  opened := Function.update nesting.opened event.key rest
  returned := nesting.returned ++ [(top, event)]

/-- An entry event opens a call.  A return event closes the innermost call of
its key, which has to be one of its own function. -/
def step (event : Entry) (nesting : Nesting) : Option Nesting :=
  match event.tp1 with
  | none => some (nesting.enter event)
  | some tp =>
    match nesting.opened event.key with
    | [] => none
    | top :: rest =>
      if top.tp = tp then some (nesting.leave event top rest) else none

def ofEvents (nodes : List Node) : Option Nesting :=
  run (fun node => step node.entry) nodes init

def Timely (event : Entry) (nesting : Nesting) : Prop :=
  match event.tp1 with
  | none => ∀ call ∈ nesting.opened event.key, call.time ≠ event.time
  | some _ => ∀ call, (nesting.opened event.key).head? = some call →
      call.time ≠ event.time

def AllTimely : List Node → Nesting → Prop
  | [], _ => True
  | node :: rest, nesting =>
    nesting.Timely node.entry ∧
      match nesting.step node.entry with
      | some next => AllTimely rest next
      | none => True

inductive Steps (event : Entry) (nesting : Nesting) : Nesting → Prop
  | enter (entry : event.tp1 = none) :
      Steps event nesting (nesting.enter event)
  | leave (top : Entry) (rest : List Entry) (ret : event.tp1 = some top.tp)
      (innermost : nesting.opened event.key = top :: rest) :
      Steps event nesting (nesting.leave event top rest)

theorem step_steps (hstep : nesting.step event = some next) :
    Steps event nesting next := by
  unfold step at hstep
  split at hstep
  · rename_i entry
    cases hstep
    exact .enter entry
  · rename_i tp ret
    split at hstep
    · cases hstep
    · rename_i top rest innermost
      split at hstep
      · rename_i own
        cases hstep
        exact .leave top rest (own ▸ ret) innermost
      · cases hstep

theorem mem_enter {event call : Entry} {nesting : Nesting} {key : U64} :
    call ∈ (nesting.enter event).opened key ↔
      (call = event ∧ key = event.key) ∨ call ∈ nesting.opened key := by
  by_cases same : key = event.key
  · subst same
    simp [enter]
  · simp [enter, same]

theorem leave_sublist {event top : Entry} {rest : List Entry}
    {nesting : Nesting} (innermost : nesting.opened event.key = top :: rest)
    (key : U64) :
    ((nesting.leave event top rest).opened key).Sublist
      (nesting.opened key) := by
  by_cases same : key = event.key
  · subst same
    simp [leave, innermost]
  · simp [leave, same]

end Nesting

/-- Every return has been paired with its own entry, and the backup tree holds
exactly the open calls. -/
structure Matched (sketch : Sketch) (nesting : Nesting) : Prop where
  returned : sketch.pairs.filter (·.2.tp1.isSome) = nesting.returned
  opened : ∀ key, sketch.backup.filter (·.key = key) = nesting.opened key

/-- What `nested_trace_init` makes sure of: each option names a function and its
return, and there is an object for them. -/
structure NestedConfig (cfg : Config) : Prop where
  nested : cfg.nested = true
  extra : cfg.extraEvsel = none
  functions : ∀ list ∈ cfg.tpList, ∃ call ret, list.filter (fun tp => !tp.untraced) = [call, ret] ∧
      cfg.objectFind call (some ret) = true

structure NestedNode (cfg : Config) (node : Node) : Prop where
  needBackup : node.needBackup = node.entry.tp1.isNone
  needRemove : node.needRemove = node.entry.tp1.isSome
  needFindPrev : node.entry.tp1.isSome = true → node.needFindPrev = true
  object : ∀ tp, node.entry.tp1 = some tp → cfg.objectFind tp (some node.entry.tp) = true

section Tree

variable {cfg : Config}

variable {key : U64} {backup : List Entry}

theorem backupInsert_filter_other (different : event.key ≠ key)
    (backup : List Entry) :
    (backupInsert cfg event backup).filter (·.key = key) =
      backup.filter (·.key = key) := by
  induction backup with
  | nil => simp [backupInsert, different]
  | cons head tail ih =>
    rw [backupInsert]
    split
    · rw [List.filter_cons_of_neg (by simpa using different)]
    · rw [List.filter_cons, List.filter_cons, ih]

theorem backupInsert_filter_self (hnested : cfg.nested = true)
    (later : ∀ call ∈ backup, call.key = event.key → call.time < event.time) :
    (backupInsert cfg event backup).filter (·.key = event.key) =
      event :: backup.filter (·.key = event.key) := by
  induction backup with
  | nil => simp [backupInsert]
  | cons head tail ih =>
    have htail := ih fun call member => later call (.tail head member)
    rw [backupInsert]
    split_ifs with hafter
    · rw [List.filter_cons_of_pos (by simp)]
    · have hother : head.key ≠ event.key := by
        intro same
        apply hafter
        simp [backupBefore, hnested, same, later head (.head tail) same]
      rw [List.filter_cons_of_neg (by simpa using hother), htail,
        List.filter_cons_of_neg (by simpa using hother)]

theorem filter_erase_self
    (innermost : backup.filter (·.key = key) = call :: rest) :
    (backup.erase call).filter (·.key = key) = rest := by
  rw [← List.erase_filter, innermost, List.erase_cons_head]

theorem filter_erase_other (different : call.key ≠ key) :
    (backup.erase call).filter (·.key = key) = backup.filter (·.key = key) := by
  rw [← List.erase_filter, List.erase_of_not_mem]
  intro member
  exact different (by simpa using (List.mem_filter.mp member).2)

end Tree

structure Past (bound : Nat) (now : U64) (sketch : Sketch)
    (nesting : Nesting) : Prop where
  nodup : sketch.backup.Nodup
  backup : ∀ call ∈ sketch.backup, call.seq < bound ∧ call.time ≤ now
  keys : ∀ key, ∀ call ∈ nesting.opened key, call.key = key
  older : ∀ key, ∀ call ∈ nesting.opened key, call.seq < bound
  distinct : ∀ key, (nesting.opened key).Nodup
  once : ∀ key, ∀ call ∈ nesting.opened key, ∀ ret, (call, ret) ∉ nesting.returned
  returned : ∀ pair ∈ nesting.returned, pair.1.seq < bound ∧ pair.2.tp1.isSome = true

namespace Sketch

variable {cfg : Config} {node : Node} {sketch : Sketch}

theorem callTwo_backup (prev : Entry) :
    (sketch.callTwo cfg prev node).backup = sketch.backup := by
  unfold callTwo
  split <;> rfl

theorem callTwo_entry (entry : node.entry.tp1 = none) (prev : Entry) :
    (sketch.callTwo cfg prev node).pairs.filter (·.2.tp1.isSome) =
      sketch.pairs.filter (·.2.tp1.isSome) := by
  unfold callTwo
  split
  · simp [List.filter_append, entry]
  · rfl

theorem pair_entry (nested : NestedNode cfg node)
    (entry : node.entry.tp1 = none) :
    (sketch.pair cfg node).backup = sketch.backup ∧
    (sketch.pair cfg node).pairs.filter (·.2.tp1.isSome) =
      sketch.pairs.filter (·.2.tp1.isSome) := by
  have hremove : node.needRemove = false := by
    rw [nested.needRemove, entry]
    rfl
  unfold pair
  rw [hremove]
  split
  · cases sketch.findPrev node with
    | none => exact ⟨rfl, rfl⟩
    | some prev => exact ⟨callTwo_backup prev, callTwo_entry entry prev⟩
  · exact ⟨rfl, rfl⟩

theorem pair_return (nested : NestedNode cfg node)
    (ret : node.entry.tp1 = some tp)
    (innermost : sketch.backup.filter (·.key = node.entry.key) = call :: rest)
    (own : call.tp = tp) :
    sketch.process cfg node = (sketch.callTwo cfg call node).remove call :=
    by
  have hfind : sketch.findPrev node = some call := by
    have hsame := congrArg (List.find? fun prev : Entry =>
      node.entry.tp1.isNone || node.entry.tp1 = some prev.tp) innermost
    rw [List.find?_filter, List.find?_cons_of_pos (by simp [ret, own])] at hsame
    rw [findPrev, ← hsame]
    congr
    funext prev
    cases node.entry.tp1 <;> simp
  have hneed : node.needFindPrev = true := nested.needFindPrev (by rw [ret]; rfl)
  have hremove : node.needRemove = true := by
    rw [nested.needRemove, ret]
    rfl
  have hbackup : node.needBackup = false := by
    rw [nested.needBackup, ret]
    rfl
  rw [process, pair, keep, hneed, hfind, hremove, hbackup]
  rfl

theorem process_entry (nested : NestedNode cfg node)
    (entry : node.entry.tp1 = none) :
    (sketch.process cfg node).pairs.filter (·.2.tp1.isSome) =
        sketch.pairs.filter (·.2.tp1.isSome) ∧
      (sketch.process cfg node).backup =
        match sketch.backup.find? (backupSame cfg node.entry) with
        | some exist =>
          if node.entry.time < exist.time then sketch.backup
          else backupInsert cfg node.entry (sketch.backup.erase exist)
        | none => backupInsert cfg node.entry sketch.backup := by
  obtain ⟨hbackup, hpairs⟩ := @pair_entry cfg node sketch nested entry
  have hneed : node.needBackup = true := by
    rw [nested.needBackup, entry]
    rfl
  rw [process, keep, hneed, if_pos rfl, hbackup]
  cases sketch.backup.find? (backupSame cfg node.entry) with
  | none => exact ⟨hpairs, congrArg (backupInsert cfg node.entry) hbackup⟩
  | some exist =>
    dsimp only
    split
    · exact ⟨hpairs, hbackup⟩
    · refine ⟨hpairs, ?_⟩
      rw [new, remove, hbackup]

theorem pair_sublist : (sketch.pair cfg node).backup.Sublist sketch.backup := by
  unfold pair
  split
  · cases sketch.findPrev node with
    | none => exact List.Sublist.refl _
    | some prev =>
      have hbackup := @callTwo_backup cfg node sketch prev
      dsimp only
      split
      · rw [remove, hbackup]
        exact List.erase_sublist
      · rw [hbackup]
  · exact List.Sublist.refl _

theorem process_backup (fresh : node.entry ∉ sketch.backup)
    (nodup : sketch.backup.Nodup) :
    (sketch.process cfg node).backup.Nodup ∧
    ∀ call ∈ (sketch.process cfg node).backup, call ∈ sketch.backup ∨
      call = node.entry := by
  have hinsert : ∀ kept : List Entry, kept.Sublist sketch.backup →
      (backupInsert cfg node.entry kept).Nodup ∧
        ∀ call ∈ backupInsert cfg node.entry kept, call ∈ sketch.backup ∨ call = node.entry := by
    intro kept hkept
    refine ⟨backupInsert_nodup cfg (nodup.sublist hkept)
      fun member => fresh (hkept.subset member), ?_⟩
    intro call member
    rcases (mem_backupInsert cfg _ _ _).mp member with same | member
    · exact .inr same
    · exact .inl (hkept.subset member)
  have hsame : ∀ kept : List Entry, kept.Sublist sketch.backup → kept.Nodup ∧ ∀ call ∈ kept,
        call ∈ sketch.backup ∨ call = node.entry := by
    intro kept hkept
    exact ⟨nodup.sublist hkept, fun call member => .inl (hkept.subset member)⟩
  have hpair := @pair_sublist cfg node sketch
  unfold process keep
  split
  · split
    · split
      · exact hsame _ hpair
      · exact hinsert _ (List.erase_sublist.trans hpair)
    · exact hinsert _ hpair
  · exact hsame _ hpair

end Sketch

namespace Past

variable {cfg : Config} {bound : Nat} {now : U64} {node : Node}
  {sketch : Sketch} {nesting next : Nesting}

theorem init : Past 0 0 Sketch.init Nesting.init where
  nodup := List.nodup_nil
  backup := by simp [Sketch.init]
  keys := by simp [Nesting.init]
  older := by simp [Nesting.init]
  distinct := by simp [Nesting.init]
  once := by simp [Nesting.init]
  returned := by simp [Nesting.init]

theorem fresh (past : Past bound now sketch nesting)
    (hseq : bound ≤ node.entry.seq) : node.entry ∉ sketch.backup := by
  intro member
  exact absurd (past.backup _ member).1 (Nat.not_lt_of_le hseq)

theorem step (past : Past bound now sketch nesting)
    (hseq : bound ≤ node.entry.seq) (htime : now ≤ node.entry.time)
    (hstep : nesting.step node.entry = some next) :
    Past (node.entry.seq + 1) node.entry.time (sketch.process cfg node)
      next := by
  obtain ⟨hnodup, hmembers⟩ := @Sketch.process_backup cfg node sketch (past.fresh hseq) past.nodup
  have hbackup : ∀ call ∈ (sketch.process cfg node).backup,
      call.seq < node.entry.seq + 1 ∧ call.time ≤ node.entry.time := by
    intro call member
    rcases hmembers call member with member | rfl
    · obtain ⟨hold, hbefore⟩ := past.backup call member
      exact ⟨by omega, hbefore.trans htime⟩
    · exact ⟨Nat.lt_succ_self _, le_rfl⟩
  have hold : ∀ key, ∀ call ∈ nesting.opened key,
      call.seq < node.entry.seq := fun key call member =>
    Nat.lt_of_lt_of_le (past.older key call member) hseq
  cases Nesting.step_steps hstep with
  | enter entry =>
    refine ⟨hnodup, hbackup, ?_, ?_, ?_, ?_, ?_⟩
    · intro key call member
      rcases Nesting.mem_enter.mp member with ⟨rfl, rfl⟩ | member
      · rfl
      · exact past.keys key call member
    · intro key call member
      rcases Nesting.mem_enter.mp member with ⟨rfl, _⟩ | member
      · exact Nat.lt_succ_self _
      · exact Nat.lt_succ_of_lt (hold key call member)
    · intro key
      unfold Nesting.enter
      by_cases same : key = node.entry.key
      · subst same
        dsimp only
        rw [Function.update_self, List.nodup_cons]
        refine ⟨fun member => ?_, past.distinct _⟩
        exact absurd (hold _ _ member) (Nat.lt_irrefl _)
      · dsimp only
        rw [Function.update_of_ne same]
        exact past.distinct key
    · intro key call member ret hret
      rcases Nesting.mem_enter.mp member with ⟨rfl, _⟩ | member
      · exact absurd (Nat.lt_of_lt_of_le (past.returned _ hret).1 hseq) (Nat.lt_irrefl _)
      · exact past.once key call member ret hret
    · intro pair member
      obtain ⟨hbefore, hsome⟩ := past.returned pair member
      exact ⟨by omega, hsome⟩
  | leave top rest ret innermost =>
    have hsub := Nesting.leave_sublist innermost
    have htop : top ∈ nesting.opened node.entry.key := by
      rw [innermost]
      exact .head rest
    refine ⟨hnodup, hbackup, ?_, ?_, ?_, ?_, ?_⟩
    · exact fun key call member => past.keys key call ((hsub key).subset member)
    · intro key call member
      exact Nat.lt_succ_of_lt (hold key call ((hsub key).subset member))
    · exact fun key => (past.distinct key).sublist (hsub key)
    · intro key call member ret hreturned
      rcases List.mem_append.mp hreturned with hreturned | hreturned
      · exact past.once key call ((hsub key).subset member) ret hreturned
      · obtain ⟨rfl, rfl⟩ := Prod.mk.inj (List.mem_singleton.mp hreturned)
        have hkey : node.entry.key = key := (past.keys _ _ htop).symm.trans (past.keys _ _ ((hsub
          key).subset member))
        subst hkey
        have hdistinct := past.distinct node.entry.key
        rw [innermost, List.nodup_cons] at hdistinct
        simp only [Nesting.leave, Function.update_self] at member
        exact hdistinct.1 member
    · intro pair member
      rcases List.mem_append.mp member with member | member
      · obtain ⟨hbefore, hsome⟩ := past.returned pair member
        exact ⟨by omega, hsome⟩
      · rw [List.mem_singleton.mp member]
        refine ⟨Nat.lt_succ_of_lt (hold _ _ htop), ?_⟩
        dsimp only
        rw [ret]
        rfl

end Past

theorem backupSame_nested (hnested : cfg.nested = true) :
    backupSame cfg event call = true ↔
      call.key = event.key ∧ call.time = event.time := by
  rw [backupSame, hnested, Bool.not_true, Bool.false_or, Bool.and_eq_true,
    decide_eq_true_iff, decide_eq_true_iff, eq_comm, @eq_comm _ event.time]

namespace Matched

variable {cfg : Config} {bound : Nat} {now : U64} {node : Node}
  {sketch : Sketch} {nesting next : Nesting}

theorem init : Matched Sketch.init Nesting.init := ⟨rfl, fun _ => rfl⟩

section

variable (matched : Matched sketch nesting)

include matched

theorem mem_opened :
    call ∈ nesting.opened key ↔ call ∈ sketch.backup ∧ call.key = key := by
  rw [← matched.opened key, List.mem_filter, decide_eq_true_iff]

theorem mem_returned :
    pair ∈ nesting.returned ↔
      pair ∈ sketch.pairs ∧ pair.2.tp1.isSome = true := by
  rw [← matched.returned, List.mem_filter]

theorem enter (past : Past bound now sketch nesting)
    (htime : now ≤ node.entry.time) (hnested : cfg.nested = true)
    (nested : NestedNode cfg node) (entry : node.entry.tp1 = none)
    (timely : nesting.Timely node.entry) :
    Matched (sketch.process cfg node) (nesting.enter node.entry) := by
  obtain ⟨hpairs, hbackup⟩ := @Sketch.process_entry cfg node sketch nested entry
  have hlater : ∀ call ∈ sketch.backup, call.key = node.entry.key →
      call.time < node.entry.time := by
    intro call member same
    unfold Nesting.Timely at timely
    rw [entry] at timely
    exact lt_of_le_of_ne ((past.backup call member).2.trans htime)
      (timely call (matched.mem_opened.mpr ⟨member, same⟩))
  have hnone : sketch.backup.find? (backupSame cfg node.entry) = none := by
    rw [List.find?_eq_none]
    intro call member hsame
    obtain ⟨hkey, heq⟩ := (backupSame_nested hnested).mp hsame
    exact absurd heq (hlater call member hkey).ne
  rw [hnone] at hbackup
  refine ⟨hpairs.trans matched.returned, ?_⟩
  intro key
  rw [hbackup]
  unfold Nesting.enter
  dsimp only
  by_cases same : key = node.entry.key
  · subst same
    rw [Function.update_self, backupInsert_filter_self hnested hlater, matched.opened]
  · rw [Function.update_of_ne same,
      backupInsert_filter_other (fun heq => same heq.symm), matched.opened]

theorem leave (past : Past bound now sketch nesting)
    (htime : now ≤ node.entry.time) (nested : NestedNode cfg node)
    (ret : node.entry.tp1 = some top.tp)
    (innermost : nesting.opened node.entry.key = top :: rest)
    (timely : nesting.Timely node.entry) :
    Matched (sketch.process cfg node) (nesting.leave node.entry top rest) := by
  have hfront : sketch.backup.filter (·.key = node.entry.key) = top :: rest :=
    (matched.opened _).trans innermost
  obtain ⟨member, hkey⟩ := matched.mem_opened.mp
    (show top ∈ nesting.opened node.entry.key from innermost ▸ .head rest)
  have hbefore : top.time < node.entry.time := by
    unfold Nesting.Timely at timely
    rw [ret, innermost] at timely
    exact lt_of_le_of_ne ((past.backup top member).2.trans htime) (timely top rfl)
  have hcall : sketch.callTwo cfg top node =
      { sketch with pairs := sketch.pairs ++ [(top, node.entry)] } := by
    rw [Sketch.callTwo, if_pos]
    rw [nested.object top.tp ret, Bool.true_and, decide_eq_true_iff]
    exact hbefore
  rw [Sketch.pair_return nested ret hfront rfl, hcall]
  constructor
  · have hsome : node.entry.tp1.isSome = true := by
      rw [ret]
      rfl
    unfold Sketch.remove Nesting.leave
    dsimp only
    rw [List.filter_append, matched.returned,
      List.filter_cons_of_pos (by exact hsome), List.filter_nil]
  · intro key
    unfold Sketch.remove Nesting.leave
    dsimp only
    by_cases same : key = node.entry.key
    · subst same
      rw [Function.update_self, filter_erase_self hfront]
    · rw [Function.update_of_ne same, ← matched.opened key, filter_erase_other]
      exact fun heq => same (heq.symm.trans hkey)

theorem step (past : Past bound now sketch nesting)
    (htime : now ≤ node.entry.time) (hnested : cfg.nested = true)
    (nested : NestedNode cfg node) (timely : nesting.Timely node.entry)
    (hstep : nesting.step node.entry = some next) :
    Matched (sketch.process cfg node) next := by
  cases Nesting.step_steps hstep with
  | enter entry => exact matched.enter past htime hnested nested entry timely
  | leave top rest ret innermost => exact matched.leave past htime nested ret innermost timely

end

end Matched

structure Forgotten (bound : Nat) (sketch : Sketch) (nesting : Nesting)
    (call : Entry) : Prop where
  absent : call ∉ sketch.backup
  unpaired : ∀ ret, (call, ret) ∈ sketch.pairs → ret.tp1.isSome = false
  known : call ∈ nesting.opened call.key ∨ ∃ ret, (call, ret) ∈ nesting.returned
  older : call.seq < bound

namespace Forgotten

variable {cfg : Config} {bound : Nat} {now : U64} {node : Node} {call : Entry}
  {sketch : Sketch} {nesting next : Nesting}

theorem not_matched (forgotten : Forgotten bound sketch nesting call) :
    ¬ Matched sketch nesting := by
  intro matched
  rcases forgotten.known with hopen | ⟨ret, hreturned⟩
  · exact forgotten.absent (matched.mem_opened.mp hopen).1
  · obtain ⟨hpair, hsome⟩ := matched.mem_returned.mp hreturned
    rw [forgotten.unpaired ret hpair] at hsome
    cases hsome

theorem known_step (hstep : nesting.step node.entry = some next)
    (known : call ∈ nesting.opened call.key ∨
      ∃ ret, (call, ret) ∈ nesting.returned) :
    call ∈ next.opened call.key ∨ ∃ ret, (call, ret) ∈ next.returned := by
  cases Nesting.step_steps hstep with
  | enter entry => exact known.imp_left fun hopen => Nesting.mem_enter.mpr (.inr hopen)
  | leave top rest ret innermost =>
    rcases known with hopen | ⟨other, hreturned⟩
    · by_cases same : call.key = node.entry.key
      · rw [same, innermost] at hopen
        rcases List.mem_cons.mp hopen with rfl | hopen
        · exact .inr ⟨node.entry, List.mem_append_right _ (.head [])⟩
        · left
          simpa [Nesting.leave, same] using hopen
      · left
        simpa [Nesting.leave, same] using hopen
    · exact .inr ⟨other, List.mem_append_left _ hreturned⟩

theorem step (forgotten : Forgotten bound sketch nesting call)
    (past : Past bound now sketch nesting) (hseq : bound ≤ node.entry.seq)
    (hstep : nesting.step node.entry = some next) :
    Forgotten (node.entry.seq + 1) (sketch.process cfg node) next call := by
  have hearlier := Nat.lt_of_lt_of_le forgotten.older hseq
  refine ⟨?_, ?_, known_step hstep forgotten.known, Nat.lt_succ_of_lt hearlier⟩
  · intro member
    rcases (Sketch.process_backup (past.fresh hseq) past.nodup).2 call member with member | rfl
    · exact forgotten.absent member
    · exact Nat.lt_irrefl _ hearlier
  · intro ret member
    obtain ⟨extra, hpairs, hextra⟩ := sketch.process_pairs cfg node
    rw [hpairs] at member
    rcases List.mem_append.mp member with member | member
    · exact forgotten.unpaired ret member
    · exact absurd (hextra _ member).1 forgotten.absent

section

variable (matched : Matched sketch nesting)
  (past : Past bound now sketch nesting) (hseq : bound ≤ node.entry.seq)

include matched past hseq

theorem of_enter (hnested : cfg.nested = true) (nested : NestedNode cfg node)
    (entry : node.entry.tp1 = none) (untimely : ¬ nesting.Timely node.entry) :
    ∃ call, Forgotten (node.entry.seq + 1) (sketch.process cfg node)
      (nesting.enter node.entry) call := by
  obtain ⟨hpairs, hbackup⟩ := @Sketch.process_entry cfg node sketch nested entry
  obtain ⟨twin, hopen, htwin⟩ : ∃ twin ∈ nesting.opened node.entry.key,
      twin.time = node.entry.time := by
    unfold Nesting.Timely at untimely
    rw [entry] at untimely
    push Not at untimely
    exact untimely
  obtain ⟨hmember, hkey⟩ := matched.mem_opened.mp hopen
  obtain ⟨exist, hfound⟩ : ∃ exist,
      sketch.backup.find? (backupSame cfg node.entry) = some exist := by
    rw [← Option.isSome_iff_exists, List.find?_isSome]
    exact ⟨twin, hmember, (backupSame_nested hnested).mpr ⟨hkey, htwin⟩⟩
  have hinside := List.mem_of_find?_eq_some hfound
  obtain ⟨hexistKey, hexistTime⟩ := (backupSame_nested hnested).mp (List.find?_some hfound)
  have hopened : exist ∈ nesting.opened exist.key := matched.mem_opened.mpr ⟨hinside, rfl⟩
  have holder := Nat.lt_of_lt_of_le (past.backup exist hinside).1 hseq
  rw [hfound] at hbackup
  dsimp only at hbackup
  rw [if_neg (by rw [hexistTime]; exact lt_irrefl _)] at hbackup
  refine ⟨exist, ?_, ?_, .inl (Nesting.mem_enter.mpr (.inr hopened)), Nat.lt_succ_of_lt holder⟩
  · rw [hbackup, mem_backupInsert]
    rintro (rfl | member)
    · exact Nat.lt_irrefl _ holder
    · exact past.nodup.not_mem_erase member
  · intro ret member
    rw [Bool.eq_false_iff]
    intro hsome
    have hold : (exist, ret) ∈ sketch.pairs.filter (·.2.tp1.isSome) := by
      rw [← hpairs]
      exact List.mem_filter.mpr ⟨member, hsome⟩
    rw [matched.returned] at hold
    exact past.once _ exist hopened ret hold

theorem of_leave (nested : NestedNode cfg node)
    (ret : node.entry.tp1 = some top.tp)
    (innermost : nesting.opened node.entry.key = top :: rest)
    (untimely : ¬ nesting.Timely node.entry) :
    Forgotten (node.entry.seq + 1) (sketch.process cfg node)
      (nesting.leave node.entry top rest) top := by
  have hfront : sketch.backup.filter (·.key = node.entry.key) = top :: rest :=
    (matched.opened _).trans innermost
  have hopen : top ∈ nesting.opened node.entry.key := innermost ▸ .head rest
  have hsame : top.time = node.entry.time := by
    unfold Nesting.Timely at untimely
    rw [ret, innermost] at untimely
    by_contra different
    apply untimely
    intro call hcall
    cases hcall
    exact different
  have hcall : sketch.callTwo cfg top node = sketch := by
    rw [Sketch.callTwo, if_neg]
    rw [Bool.and_eq_true, decide_eq_true_iff, hsame]
    exact fun both => lt_irrefl _ both.2
  rw [Sketch.pair_return nested ret hfront rfl, hcall]
  refine ⟨past.nodup.not_mem_erase, ?_, .inr ⟨node.entry, List.mem_append_right _ (.head [])⟩,
    Nat.lt_succ_of_lt (Nat.lt_of_lt_of_le (past.older _ top hopen) hseq)⟩
  intro other member
  rw [Bool.eq_false_iff]
  intro hsome
  exact past.once _ top hopen other (matched.mem_returned.mpr ⟨member, hsome⟩)

theorem of_untimely (hnested : cfg.nested = true) (nested : NestedNode cfg node)
    (untimely : ¬ nesting.Timely node.entry)
    (hstep : nesting.step node.entry = some next) :
    ∃ call,
      Forgotten (node.entry.seq + 1) (sketch.process cfg node) next call := by
  cases Nesting.step_steps hstep with
  | enter entry => exact of_enter matched past hseq hnested nested entry untimely
  | leave top rest ret innermost =>
    exact ⟨top, of_leave matched past hseq nested ret innermost untimely⟩

end

end Forgotten

structure Ahead (bound : Nat) (now : U64) (nodes : List Node) : Prop where
  after : ∀ node ∈ nodes, bound ≤ node.entry.seq ∧ now ≤ node.entry.time
  ordered : nodes.Pairwise fun first second =>
    first.entry.seq < second.entry.seq ∧ first.entry.time ≤ second.entry.time

theorem Ahead.tail (ahead : Ahead bound now (node :: rest)) :
    Ahead (node.entry.seq + 1) node.entry.time rest := by
  obtain ⟨hfirst, hrest⟩ := List.pairwise_cons.mp ahead.ordered
  exact ⟨fun other member => hfirst other member, hrest⟩

section Run

variable {cfg : Config} {bound : Nat} {now : U64} {nodes later : List Node}
  {call : Entry} {sketch : Sketch} {nesting last : Nesting}

section

variable
  (hrun : run (fun node => Nesting.step node.entry) nodes nesting = some last)

include hrun

theorem Past.run (past : Past bound now sketch nesting)
    (ahead : Ahead bound now (nodes ++ later)) :
    ∃ bound now, Past bound now (nodes.foldl (Sketch.process cfg) sketch) last ∧
      Ahead bound now later := by
  induction nodes generalizing bound now sketch nesting with
  | nil =>
    cases hrun
    exact ⟨bound, now, past, ahead⟩
  | cons node rest ih =>
    obtain ⟨next, hstep, hrest⟩ := run_cons.mp hrun
    obtain ⟨hseq, htime⟩ := ahead.after node (.head _)
    exact ih hrest (past.step hseq htime hstep) ahead.tail

theorem Forgotten.run (forgotten : Forgotten bound sketch nesting call)
    (past : Past bound now sketch nesting) (ahead : Ahead bound now nodes) :
    ∃ bound,
      Forgotten bound (nodes.foldl (Sketch.process cfg) sketch) last call := by
  induction nodes generalizing bound now sketch nesting with
  | nil =>
    cases hrun
    exact ⟨bound, forgotten⟩
  | cons node rest ih =>
    obtain ⟨next, hstep, hrest⟩ := run_cons.mp hrun
    obtain ⟨hseq, htime⟩ := ahead.after node (.head _)
    exact ih hrest (forgotten.step past hseq hstep)
      (past.step hseq htime hstep) ahead.tail

theorem Matched.run (matched : Matched sketch nesting)
    (past : Past bound now sketch nesting) (ahead : Ahead bound now nodes)
    (hnested : cfg.nested = true)
    (nested : ∀ node ∈ nodes, NestedNode cfg node) :
    Matched (nodes.foldl (Sketch.process cfg) sketch) last ↔
      nesting.AllTimely nodes := by
  induction nodes generalizing bound now sketch nesting with
  | nil =>
    cases hrun
    exact ⟨fun _ => trivial, fun _ => matched⟩
  | cons node rest ih =>
    obtain ⟨next, hstep, hrest⟩ := run_cons.mp hrun
    obtain ⟨hseq, htime⟩ := ahead.after node (.head _)
    have hpast : Past _ _ (sketch.process cfg node) next := past.step hseq htime hstep
    have hnode := nested node (.head _)
    rw [List.foldl_cons, Nesting.AllTimely, hstep]
    by_cases timely : nesting.Timely node.entry
    · rw [ih hrest (matched.step past htime hnested hnode timely hstep) hpast
        ahead.tail fun other member => nested other (.tail node member)]
      exact ⟨fun hall => ⟨timely, hall⟩, And.right⟩
    · obtain ⟨call, forgotten⟩ := Forgotten.of_untimely matched past hseq hnested hnode timely hstep
      obtain ⟨_, hlost⟩ := forgotten.run hrest hpast ahead.tail
      exact ⟨fun hmatched => absurd hmatched hlost.not_matched, fun hall => absurd hall.1 timely⟩

end

theorem not_matched_of_waiting (past : Past bound now sketch nesting)
    (ahead : Ahead bound now later)
    (known : ∀ pair ∈ sketch.pairs, ∀ node ∈ later, pair.2 ≠ node.entry)
    (waiting : later ≠ [])
    (hrun :
      run (fun node => Nesting.step node.entry) later nesting = some last) :
    ¬ Matched sketch last := by
  intro matched
  obtain ⟨front, node, rfl⟩ := (List.eq_nil_or_concat' later).resolve_left waiting
  obtain ⟨middle, _, hlast⟩ := run_append.mp hrun
  obtain ⟨next, hstep, hdone⟩ := run_cons.mp hlast
  cases hdone
  have member : node ∈ front ++ [node] := List.mem_append_right _ (.head [])
  cases Nesting.step_steps hstep with
  | enter entry =>
    have hopen : node.entry ∈ (middle.enter node.entry).opened node.entry.key :=
      Nesting.mem_enter.mpr (.inl ⟨rfl, rfl⟩)
    exact past.fresh (ahead.after node member).1 (matched.mem_opened.mp hopen).1
  | leave top rest ret innermost =>
    have hreturned : (top, node.entry) ∈ (middle.leave node.entry top rest).returned :=
      List.mem_append_right _ (.head [])
    exact known _ (matched.mem_returned.mp hreturned).1 node member rfl

end Run

variable {tp : Tp}

variable {sample : Sample}

theorem findInList_traced (hfound : findInList evsel prev list = some (tp1, tp))
    (traced : tp.untraced = false) :
    ∃ before after, list.filter (fun tp => !tp.untraced) =
        before ++ tp :: after ∧
      tp1 = before.getLast?.or prev := by
  induction list generalizing prev with
  | nil => cases hfound
  | cons head rest ih =>
    rw [findInList] at hfound
    split at hfound
    · cases hfound
      refine ⟨[], rest.filter fun tp => !tp.untraced, ?_, rfl⟩
      rw [List.filter_cons_of_pos (by simp [traced]), List.nil_append]
    · obtain ⟨before, after, hlist, hprev⟩ := ih hfound
      cases huntraced : head.untraced with
      | true =>
        refine ⟨before, after, ?_, ?_⟩
        · rw [List.filter_cons_of_neg (by simp [huntraced]), hlist]
        · simpa [huntraced] using hprev
      | false =>
        refine ⟨head :: before, after, ?_, ?_⟩
        · rw [List.filter_cons_of_pos (by simp [huntraced]), hlist, List.cons_append]
        · rw [hprev, huntraced, List.getLast?_cons]
          cases before.getLast? <;> rfl

theorem findTp_list
    (hfound : findTp evsel start lists = some (index, tp1, tp)) :
    ∃ list ∈ lists, findInList evsel none list = some (tp1, tp) := by
  induction lists generalizing start with
  | nil => cases hfound
  | cons list rest ih =>
    rw [findTp] at hfound
    split at hfound
    · rename_i tp1' tp' hlist
      cases hfound
      exact ⟨list, .head rest, hlist⟩
    · obtain ⟨other, member, hlist⟩ := ih hfound
      exact ⟨other, .tail list member, hlist⟩

theorem NestedConfig.found (nested : NestedConfig cfg)
    (hfound : lookup cfg sample = some (index, tp1, tp))
    (traced : tp.untraced = false) (hcall : tp1 = some call) :
    cfg.objectFind call (some tp) = true := by
  obtain ⟨evsel, _, htp⟩ := Option.bind_eq_some_iff.mp hfound
  obtain ⟨list, member, hlist⟩ := findTp_list htp
  obtain ⟨before, after, hfilter, hprev⟩ := findInList_traced hlist traced
  obtain ⟨first, second, htwo, hobject⟩ := nested.functions list member
  rw [htwo] at hfilter
  rw [hcall] at hprev
  match before, hfilter, hprev with
  | [], _, hprev => cases hprev
  | [_], hfilter, hprev =>
    cases hfilter
    cases hprev
    exact hobject
  | _ :: _ :: _, hfilter, _ => simp at hfilter

theorem NestedConfig.node (nested : NestedConfig cfg)
    (hfound : lookup cfg sample = some (index, tp1, tp))
    (traced : tp.untraced = false) :
    NestedNode cfg (makeNode cfg sample index tp1 tp seq) := by
  have hmake : makeNode cfg sample index tp1 tp seq =
      { entry := makeEntry cfg sample tp1 tp seq
        needFindPrev := cfg.impl.basedOnCall || tp1.isSome
        needBackup := tp1.isNone
        needRemove := tp1.isSome } := by
    rw [makeNode, if_pos nested.nested]
  have htp1 : (makeEntry cfg sample tp1 tp seq).tp1 = tp1 := by rw [makeEntry, if_pos nested.nested]
  rw [hmake]
  refine ⟨congrArg Option.isNone htp1.symm, congrArg Option.isSome htp1.symm, ?_, ?_⟩
  · intro hsome
    dsimp only at hsome ⊢
    rw [htp1] at hsome
    rw [hsome, Bool.or_true]
  · intro call hcall
    dsimp only at hcall ⊢
    rw [htp1] at hcall
    exact nested.found hfound traced hcall

theorem NestedConfig.nodes (nested : NestedConfig cfg) (seq : Nat)
    (samples : List Sample) :
    ∀ node ∈ traced (receivedFrom cfg seq samples), NestedNode cfg node := by
  induction samples generalizing seq with
  | nil => simp [traced, receivedFrom]
  | cons sample rest ih =>
    rw [receivedFrom]
    split
    · rename_i index tp1 tp hfound
      intro node member
      obtain ⟨member, htraced⟩ := List.mem_filter.mp member
      rcases List.mem_cons.mp member with rfl | member
      · apply nested.node hfound
        have htp : (makeNode cfg sample index tp1 tp seq).entry.tp = tp := by
          unfold makeNode
          split <;> rfl
        rw [htp] at htraced
        simpa using htraced
      · exact ih (seq + 1) node (List.mem_filter.mpr ⟨member, htraced⟩)
    · exact ih seq

/-- For every chronological sequence of samples without loss whose calls and
returns are properly bracketed for each key: every return has been paired with
its own entry and no open entry has been dropped if and only if no event is
still waiting, no call begins at the time of an open call of its key, and no
return is at the time of its entry. -/
theorem nested_matched_iff_timely {cfg : Config} (nested : NestedConfig cfg)
    {samples : List Sample} {last : State} {nesting : Nesting}
    (hrun : run (fun sample => step cfg (.sample sample)) samples State.init =
      some last)
    (bracketed :
      Nesting.ofEvents (traced (received cfg samples)) = some nesting) :
    Matched last.sketch nesting ↔
      (∀ node ∈ traced (received cfg samples),
        isDue cfg (received cfg samples) node = true) ∧
      Nesting.init.AllTimely (traced (received cfg samples)) := by
  have deferred := run_deferred nested.extra hrun
  obtain ⟨done, htraced, hdone, hpending, hsketch⟩ := deferred.split
  have hordered := deferred.sorted.sublist
    (show (traced (received cfg samples)).Sublist _ from List.filter_sublist)
  have hnodes := nested.nodes 0 samples
  change ∀ node ∈ traced (received cfg samples), _ at hnodes
  rw [htraced] at bracketed hordered hnodes ⊢
  rw [hsketch]
  have ahead : Ahead 0 0 (done ++ last.pending) :=
    ⟨fun node _ => ⟨Nat.zero_le _, Nat.zero_le _⟩, hordered⟩
  by_cases hnone : last.pending = []
  · rw [hnone, List.append_nil] at bracketed ahead hnodes ⊢
    have hiff := Matched.init.run bracketed Past.init ahead nested.nested hnodes
    exact hiff.trans ⟨fun timely => ⟨hdone, timely⟩, And.right⟩
  · obtain ⟨middle, hmiddle, hlater⟩ := run_append.mp bracketed
    obtain ⟨bound, now, past, hahead⟩ := @Past.run cfg _ _ _ _ _ _ _ hmiddle Past.init ahead
    obtain ⟨made, hmade, hearly⟩ := Sketch.foldl_pairs cfg done Sketch.init
    constructor
    · intro matched
      refine absurd matched (not_matched_of_waiting past hahead ?_ hnone hlater)
      intro pair member node hnode same
      rw [Sketch.processAll, hmade] at member
      obtain ⟨other, hother, heq⟩ := hearly pair member
      have hbefore := (List.pairwise_append.mp hordered).2.2 other hother node hnode
      rw [← same, heq] at hbefore
      exact Nat.lt_irrefl _ hbefore.1
    · rintro ⟨due, _⟩
      obtain ⟨node, hnode⟩ := List.exists_mem_of_ne_nil _ hnone
      have hdue := due node (List.mem_append_right _ hnode)
      rw [hpending node hnode] at hdue
      cases hdue

def callConfig : Config where
  tpList := [[⟨0, false, true, false⟩, ⟨1, false, true, false⟩],
    [⟨2, false, true, false⟩, ⟨3, false, true, false⟩]]
  impl := .callDelay
  objectFind _ _ := true
  nested := true
  cycle := false
  needTimeline := false
  usingOrder := true
  beforeEvent1 := 0
  afterEvent2 := 0
  greaterThan := 0
  lostAffect := .allEvent
  insKey _ := 0
  extraEvsel := none
  callNested := fun _ => rfl

theorem callConfig_nested : NestedConfig callConfig where
  nested := rfl
  extra := rfl
  functions := by
    intro list member
    simp only [callConfig, List.mem_cons, List.not_mem_nil, or_false] at member
    rcases member with rfl | rfl
    · exact ⟨_, _, rfl, rfl⟩
    · exact ⟨_, _, rfl, rfl⟩

def callAt (time : U64) : List Sample :=
  [sampleAt 0 1 7, sampleAt 2 time 7, sampleAt 3 5 7, sampleAt 1 6 7]

theorem nested_matched_iff_timely_call :
    ∃ (last : State) (nesting : Nesting), run
        (fun sample => step callConfig (.sample sample)) (callAt 2) State.init =
        some last ∧
      Nesting.ofEvents (traced (received callConfig (callAt 2))) =
        some nesting ∧
      (Matched last.sketch nesting ↔
          (∀ node ∈ traced (received callConfig (callAt 2)),
            isDue callConfig (received callConfig (callAt 2)) node = true) ∧
          Nesting.init.AllTimely
            (traced (received callConfig (callAt 2)))) := by
  refine ⟨_, _, (Option.some_get ?_).symm, (Option.some_get ?_).symm,
    nested_matched_iff_timely callConfig_nested (Option.some_get _).symm (Option.some_get _).symm⟩
  all_goals decide +kernel

/-- `B` begins at the time of the open call of `A`, which is then dropped: of
the two returns only one is paired. -/
theorem open_call_dropped_by_same_time :
    ∃ (last : State) (nesting : Nesting), run
        (fun sample => step callConfig (.sample sample)) (callAt 1) State.init =
        some last ∧
      Nesting.ofEvents (traced (received callConfig (callAt 1))) =
        some nesting ∧
      nesting.returned.length = 2 ∧
      (last.sketch.pairs.filter (·.2.tp1.isSome)).length = 1 ∧
      ¬ Matched last.sketch nesting := by
  refine ⟨_, _, (Option.some_get ?_).symm, (Option.some_get ?_).symm, ?_, ?_,
    fun matched => absurd (congrArg List.length matched.returned) ?_⟩
  all_goals decide +kernel

end PerfProf.MultiTrace
