import Mathlib.Data.List.GetD
import PerfProf.Expr.Generation
import PerfProf.Expr.Source
import PerfProf.Hrtimer.Sample

namespace PerfProf.Hrtimer

open PerfProf.Expr

/-- A sample with the leader and all events, in the order of the group. -/
structure Whole (config : Config) where
  ins : Nat
  groups : List Ctnr
  whole : groups.map (fun ctnr => config.idToEvsel ctnr.id) =
    some .leader :: (List.range config.nrTp).map fun idx => some (.tp idx)

namespace Whole

variable {config : Config}

def value (sample : Whole config) (event : Nat) : Word :=
  let place := if event = config.nrTp then 0 else event + 1
  ((sample.groups.map Ctnr.value).getD place 0)

def previous (ins event : Nat) (samples : List (Whole config)) : Word :=
  match samples.reverse.find? fun sample => sample.ins == ins with
  | some sample => sample.value event
  | none => 0

def increments (before : List (Whole config)) (sample : Whole config) :
    List Word :=
  (List.range (config.nrTp + 1)).map fun event =>
    sample.value event - previous sample.ins event before

end Whole

section Reading

variable (config : Config)

theorem count_counters (ctx : Ctx) (ins event : Nat) (value : Word)
    (other idx : Nat) :
    (ctx.count ins event value).counters other idx =
      if other = ins ∧ idx = event then value else ctx.counters other idx := by
  rw [Ctx.count]
  by_cases hother : other = ins
  · subst hother
    by_cases hidx : idx = event
    · subst hidx
      simp
    · simp [hidx]
  · simp [hother]

theorem foldl_readCtnr {ins : Nat} {groups : List Ctnr}
    (htps : ∀ ctnr ∈ groups, ∃ idx, config.idToEvsel ctnr.id = some (.tp idx))
    (ctx : Ctx) (j : Nat) :
    let after := (groups.foldl (readCtnr config ins) (ctx, j)).1
    after.mem = ctx.mem ∧
    (∀ other idx, after.counters other idx =
      if other = ins ∧ j ≤ idx ∧ idx < j + groups.length then
        (groups.map Ctnr.value).getD (idx - j) 0
      else ctx.counters other idx) ∧
    ∀ idx, after.insCounters idx =
      if j ≤ idx ∧ idx < j + groups.length then
        (groups.map Ctnr.value).getD (idx - j) 0 - ctx.counters ins idx
      else ctx.insCounters idx := by
  induction groups generalizing ctx j with
  | nil =>
    refine ⟨rfl, fun other idx => ?_, fun idx => ?_⟩
    · rw [if_neg (by simp only [List.length_nil]; omega)]
      rfl
    · rw [if_neg (by simp only [List.length_nil]; omega)]
      rfl
  | cons ctnr rest ih =>
    obtain ⟨tp, htp⟩ := htps ctnr List.mem_cons_self
    have hstep : readCtnr config ins (ctx, j) ctnr = (ctx.count ins j ctnr.value, j + 1) := by
      rw [readCtnr, htp]
    obtain ⟨hmem, hcounters, hgrowth⟩ := ih (fun other hother => htps other (List.mem_cons_of_mem _
      hother)) (ctx.count ins j ctnr.value) (j + 1)
    rw [List.foldl_cons, hstep]
    refine ⟨hmem, fun other idx => ?_, fun idx => ?_⟩
    · rw [hcounters, count_counters, List.length_cons]
      rcases lt_trichotomy idx j with hless | rfl | hmore
      · rw [if_neg (by omega), if_neg (by omega), if_neg (by omega)]
      · rw [if_neg (by omega)]
        by_cases hother : other = ins
        · rw [if_pos ⟨hother, rfl⟩, if_pos ⟨hother, by omega, by omega⟩]
          simp
        · rw [if_neg (by simp [hother]), if_neg (by simp [hother])]
      · obtain ⟨more, rfl⟩ : ∃ more, idx = j + 1 + more := Nat.exists_eq_add_of_le hmore
        rw [if_neg (show ¬(other = ins ∧ j + 1 + more = j) by omega)]
        refine ite_congr (propext (by omega)) (fun _ => ?_) fun _ => rfl
        rw [show j + 1 + more - (j + 1) = more by omega, show j + 1 + more - j = more + 1 by omega]
        rfl
    · rw [hgrowth, count_counters, List.length_cons]
      rcases lt_trichotomy idx j with hless | rfl | hmore
      · rw [if_neg (by omega), if_neg (by omega)]
        exact Function.update_of_ne (by omega) ..
      · rw [if_neg (by omega), if_pos (by omega)]
        refine (Function.update_self ..).trans ?_
        simp
      · obtain ⟨more, rfl⟩ : ∃ more, idx = j + 1 + more := Nat.exists_eq_add_of_le hmore
        rw [if_neg (show ¬(ins = ins ∧ j + 1 + more = j) by omega)]
        refine ite_congr (propext (by omega)) (fun _ => ?_) fun _ => ?_
        · rw [show j + 1 + more - (j + 1) = more by omega,
            show j + 1 + more - j = more + 1 by omega]
          rfl
        · exact Function.update_of_ne (by omega) ..

variable {config}

theorem Whole.groups_eq (sample : Whole config) :
    ∃ leader rest, sample.groups = leader :: rest ∧
      rest.length = config.nrTp ∧
      config.idToEvsel leader.id = some .leader ∧
      ∀ ctnr ∈ rest, ∃ idx, config.idToEvsel ctnr.id = some (.tp idx) := by
  have hwhole := sample.whole
  cases hgroups : sample.groups with
  | nil =>
    rw [hgroups] at hwhole
    cases hwhole
  | cons leader rest =>
    rw [hgroups, List.map_cons, List.cons.injEq] at hwhole
    refine ⟨leader, rest, rfl, ?_, hwhole.1, fun ctnr hctnr => ?_⟩
    · simpa using congrArg List.length hwhole.2
    · have hmem : config.idToEvsel ctnr.id ∈ rest.map fun ctnr => config.idToEvsel ctnr.id :=
        List.mem_map_of_mem hctnr
      rw [hwhole.2] at hmem
      obtain ⟨idx, _, hidx⟩ := List.mem_map.mp hmem
      exact ⟨idx, hidx.symm⟩

theorem read_whole (sample : Whole config) (ctx : Ctx) :
    let after := (sample.groups.foldl (readCtnr config sample.ins) (ctx, 0)).1
    after.mem = ctx.mem ∧
    (∀ other idx, idx ≤ config.nrTp → after.counters other idx =
      if other = sample.ins then sample.value idx
      else ctx.counters other idx) ∧
    ∀ idx, idx ≤ config.nrTp → after.insCounters idx =
      sample.value idx - ctx.counters sample.ins idx := by
  obtain ⟨leader, rest, hgroups, hlength, hleader, htps⟩ := sample.groups_eq
  have hstep : readCtnr config sample.ins (ctx, 0) leader =
      (ctx.count sample.ins config.nrTp leader.value, 0) := by
    rw [readCtnr, hleader]
  have hevent : ∀ idx, idx < config.nrTp → sample.value idx = (rest.map Ctnr.value).getD idx 0 := by
    intro idx hidx
    simp only [Whole.value, if_neg hidx.ne, hgroups, List.map_cons]
    rfl
  have hlast : sample.value config.nrTp = leader.value := by simp [Whole.value, hgroups]
  obtain ⟨hmem, hcounters, hgrowth⟩ := foldl_readCtnr config htps
    (ctx.count sample.ins config.nrTp leader.value) 0
  rw [hgroups, List.foldl_cons, hstep]
  refine ⟨hmem, fun other idx hidx => ?_, fun idx hidx => ?_⟩
  · rw [hcounters, count_counters]
    rcases Nat.lt_or_eq_of_le hidx with hless | rfl
    · rw [hevent idx hless]
      refine ite_congr (propext (by omega)) (fun _ => rfl) fun _ => ?_
      exact if_neg (by omega)
    · rw [if_neg (by omega), hlast]
      exact ite_congr (propext (by simp)) (fun _ => rfl) fun _ => rfl
  · rw [hgrowth, count_counters]
    rcases Nat.lt_or_eq_of_le hidx with hless | rfl
    · rw [if_pos (by omega), if_neg (by omega), hevent idx hless]
      rfl
    · rw [if_neg (by omega), hlast]
      exact Function.update_self ..

end Reading

section Following

variable (config : Config) (lib : Library) (fuel : Nat)

def follow : List (Whole config) → Ctx → Option Ctx
  | [], ctx => some ctx
  | sample :: rest, ctx =>
    (hrtimerSample config lib fuel sample.ins sample.groups ctx).bind
      fun result => follow rest result.1

theorem counters_analyzer
    (hresult : analyzer config lib fuel ctx = some (print, after)) :
    after.counters = ctx.counters := by
  rw [analyzer] at hresult
  split at hresult
  · cases hresult
    rfl
  · obtain ⟨_, _, hafter⟩ := Option.map_eq_some_iff.mp hresult
    cases hafter
    rfl

theorem counters_hrtimerSample {ctx after : Ctx} {sample : Whole config}
    {printed : Bool}
    (hresult : hrtimerSample config lib fuel sample.ins sample.groups ctx =
      some (after, printed)) :
    after.counters =
      (sample.groups.foldl (readCtnr config sample.ins)
        (ctx, 0)).1.counters := by
  simp only [hrtimerSample] at hresult
  split at hresult
  · obtain ⟨⟨print, last⟩, hanalyzer, hafter⟩ := Option.map_eq_some_iff.mp hresult
    cases hafter
    exact counters_analyzer config lib fuel hanalyzer
  · cases hresult
    rfl

variable {config lib fuel}

theorem previous_snoc (before : List (Whole config)) (sample : Whole config)
    (ins event : Nat) :
    Whole.previous ins event (before ++ [sample]) =
      if ins = sample.ins then
        sample.value event
      else Whole.previous ins event before := by
  rw [Whole.previous, List.reverse_append, List.reverse_singleton,
    List.singleton_append, List.find?_cons]
  by_cases hins : ins = sample.ins
  · simp [hins]
  · rw [if_neg hins, show (sample.ins == ins) = false by simpa using Ne.symm hins]
    rfl

theorem follow_counters {before rest : List (Whole config)} {ctx after : Ctx}
    (hcounters : ∀ ins idx, idx ≤ config.nrTp →
      ctx.counters ins idx = Whole.previous ins idx before)
    (hafter : follow config lib fuel rest ctx = some after) :
    ∀ ins idx, idx ≤ config.nrTp →
      after.counters ins idx = Whole.previous ins idx (before ++ rest) := by
  induction rest generalizing before ctx with
  | nil =>
    cases hafter
    rw [List.append_nil]
    exact hcounters
  | cons sample rest ih =>
    obtain ⟨⟨next, printed⟩, hnext, hrest⟩ := Option.bind_eq_some_iff.mp hafter
    have hread := counters_hrtimerSample config lib fuel hnext
    rw [List.append_cons]
    refine ih (fun ins idx hidx => ?_) hrest
    rw [hread, (read_whole sample ctx).2.1 ins idx hidx, previous_snoc]
    exact ite_congr rfl (fun _ => rfl) fun _ => hcounters ins idx hidx

end Following

section Variables

theorem foldl_offset_le {list : List Declare} {bound limit : Nat}
    (hbound : bound ≤ limit)
    (hlist : ∀ declare ∈ list, declare.offset + declare.size ≤ limit) :
    list.foldl (fun bound declare => max bound (declare.offset + declare.size))
      bound ≤
      limit := by
  induction list generalizing bound with
  | nil => exact hbound
  | cons declare rest ih =>
    exact ih (max_le hbound (hlist declare List.mem_cons_self))
      fun other hother => hlist other (List.mem_cons_of_mem _ hother)

theorem maxOffset_declares (names : List (List Byte)) :
    Declare.maxOffset (declares names) = 8 * (names.length + 1) := by
  rw [Declare.maxOffset, declares, List.foldl_append, List.foldl_cons, List.foldl_nil]
  refine max_eq_right ?_
  refine (foldl_offset_le (Nat.zero_le _) fun declare hdeclare => ?_)
  obtain ⟨i, hi, rfl⟩ := List.mem_mapIdx.mp hdeclare
  dsimp only
  omega

theorem declares_get (hdeclare : (declares names)[i]? = some declare) :
    i ≤ names.length ∧
    declare.offset = 8 * i ∧
    declare.elementsize = 8 ∧
    declare.isUnsigned = false := by
  rw [declares] at hdeclare
  rcases Nat.lt_or_ge i names.length with hless | hge
  · rw [List.getElem?_append_left (by simpa using hless),
      List.getElem?_mapIdx, List.getElem?_eq_getElem hless] at hdeclare
    cases hdeclare
    exact ⟨hless.le, rfl, rfl, rfl⟩
  · rw [List.getElem?_append_right (by simpa using hge), List.length_mapIdx,
      List.getElem?_singleton] at hdeclare
    split at hdeclare
    · cases hdeclare
      have hsame : i = names.length := by omega
      exact ⟨hsame.le, by rw [hsame], rfl, rfl⟩
    · cases hdeclare

theorem compiled_data (config : Config) : config.prog.data = config.alloc.data ∧
      config.prog.datalen = 8 * (config.nrTp + 1) := by
  obtain ⟨fuel, trace, hcompile⟩ := config.compiled
  obtain ⟨s, hprog⟩ : ∃ s, config.prog = finish config.alloc (declares config.names) s := by
    rw [compile] at hcompile
    obtain ⟨lex, _, hcompile⟩ := bind_ok hcompile
    obtain ⟨s, _, hcompile⟩ := bind_ok hcompile
    obtain ⟨t, _, hcompile⟩ := bind_ok hcompile
    exact ⟨t, (congrArg Prod.fst (Except.ok.inj hcompile)).symm⟩
  have hlen := maxOffset_declares config.names
  rw [hprog]
  refine ⟨?_, hlen⟩
  simp only [finish, hlen]
  exact if_neg (by omega)

theorem loadData_content (config : Config)
    (hwords : words.length = config.nrTp + 1) (mem : Mem) :
    ∃ record, config.prog.loadData words mem = some record ∧
      ∀ (i : Nat) (declare : Declare),
        (declares config.names)[i]? = some declare →
        words[i]? = some (declare.content config.alloc.data record) := by
  obtain ⟨hdata, hdatalen⟩ := compiled_data config
  have hfew := config.few
  have hfits : ¬config.prog.datasize < 8 * words.length := by
    rw [Prog.datasize, hdatalen, hwords]
    omega
  refine ⟨_, if_neg hfits, fun i declare hdeclare => ?_⟩
  obtain ⟨hi, hoffset, hsize, hsigned⟩ := declares_get hdeclare
  have hbound : i < words.length := by
    rw [hwords]
    exact Nat.lt_succ_of_le hi
  have hlimit : 8 * words.length ≤ 2 ^ 35 := by
    rw [hwords, Config.nrTp]
    omega
  have hbytes := mem.bytes_storeWords (by omega) config.alloc.data hbound
  have hbehind : ((mem.storeWords config.alloc.data words).set
      (config.alloc.data + BitVec.ofNat 64 (8 * words.length)) 0).bytes
        (config.alloc.data + BitVec.ofNat 64 (8 * i)) 8 =
      (mem.storeWords config.alloc.data words).bytes
        (config.alloc.data + BitVec.ofNat 64 (8 * i)) 8 := by
    apply Mem.bytes_congr
    intro index hindex
    rw [Mem.set, if_neg]
    bv_omega
  rw [List.getElem?_eq_getElem hbound, Declare.content, hsigned, hsize, hoffset,
    if_neg (by decide), Mem.signExtended, hdata, hbehind, hbytes]
  simp

end Variables

section Print

variable {config : Config} {lib : Library} {fuel : Nat}

structure Reached (config : Config) (lib : Library) (fuel : Nat) where
  before : List (Whole config)
  junk : Nat → Word
  mem : Mem
  ctx : Ctx
  reached : follow config lib fuel before (.init junk mem) = some ctx

def Faithful (verbose : Bool) (value : Word) : Prop :=
  if verbose then value ≠ 0 else value = 0 ∨ value.setWidth 32 = 1#32

theorem hrtimerSample_eq (reached : Reached config lib fuel)
    (sample : Whole config)
    (hrecord : config.prog.loadData (sample.increments reached.before)
      reached.ctx.mem = some record)
    (hvalue : config.prog.exprRun lib fuel record = some (value, last)) :
    ∃ after,
      hrtimerSample config lib fuel sample.ins sample.groups reached.ctx =
        some (after,
          (value.setWidth 32).signExtend 64 == 1#64 || config.verbose) := by
  obtain ⟨hmem, _, hgrowth⟩ := read_whole sample reached.ctx
  have hprevious : ∀ idx, idx ≤ config.nrTp → reached.ctx.counters sample.ins idx =
        Whole.previous sample.ins idx reached.before := by
    intro idx hidx
    have hfollow := @follow_counters config lib fuel [] reached.before _ _
      (fun _ _ _ => rfl) reached.reached
    exact hfollow sample.ins idx hidx
  have hlength : sample.groups.length = config.nrTp + 1 := by
    simpa using congrArg List.length sample.whole
  simp only [hrtimerSample, if_pos hlength]
  generalize (sample.groups.foldl (readCtnr config sample.ins)
    (reached.ctx, 0)).1 = read at hmem hgrowth
  have hwords : (List.range (config.nrTp + 1)).map read.insCounters =
      sample.increments reached.before := by
    refine List.map_congr_left fun idx hidx => ?_
    have hidx := Nat.le_of_lt_succ (List.mem_range.mp hidx)
    rw [hgrowth idx hidx, hprevious idx hidx]
  rw [analyzer, hwords, hmem, hrecord]
  simp [hvalue]

theorem int_eq_one_iff (value : Word) :
    (value.setWidth 32).signExtend 64 = 1#64 ↔ value.setWidth 32 = 1#32 := by
  constructor
  · intro hone
    have hint := congrArg BitVec.toInt hone
    rw [BitVec.toInt_signExtend_of_le (by decide)] at hint
    exact BitVec.eq_of_toInt_eq hint
  · intro hone
    rw [hone]
    rfl

/-- The expression is evaluated over the increments of the counters, and a
sample is printed exactly when its value is not zero if and only if the value is
faithful. -/
theorem sample_printed_iff (reached : Reached config lib fuel)
    (sample : Whole config) :
    ∃ record, config.prog.loadData (sample.increments reached.before)
        reached.ctx.mem = some record ∧
      (∀ (i : Nat) (declare : Declare),
        (declares config.names)[i]? = some declare →
          (sample.increments reached.before)[i]? =
            some (declare.content config.alloc.data record)) ∧
      ∀ value last, config.prog.exprRun lib fuel record = some (value, last) →
        ∃ after printed, hrtimerSample config lib fuel sample.ins sample.groups
            reached.ctx = some (after, printed) ∧
          ((printed = true ↔ value ≠ 0) ↔ Faithful config.verbose value) := by
  obtain ⟨record, hrecord, hcontent⟩ := loadData_content config
    (show (sample.increments reached.before).length = config.nrTp + 1 by
      simp [Whole.increments]) reached.ctx.mem
  refine ⟨record, hrecord, hcontent, fun value last hvalue => ?_⟩
  obtain ⟨after, hafter⟩ := hrtimerSample_eq reached sample hrecord hvalue
  refine ⟨after, _, hafter, ?_⟩
  rw [Bool.or_eq_true, beq_iff_eq, int_eq_one_iff, Faithful]
  cases config.verbose with
  | true => simp
  | false =>
    simp only [Bool.false_eq_true, or_false, if_false]
    constructor
    · intro htruth
      by_cases hzero : value = 0
      · exact .inl hzero
      · exact .inr (htruth.mpr hzero)
    · rintro (rfl | hone)
      · simp
      · refine ⟨fun _ hzero => ?_, fun _ => hone⟩
        rw [hzero] at hone
        cases hone

end Print

def periodNames : List (List Byte) := [text "e"]

def periodAlloc : Alloc := ⟨0x10000, 0x20000, 0x30000, 0x40000, 0x50000, 0⟩

def periodResult : Except Failure (Prog × List Event) :=
  compile 3 periodAlloc true (declares periodNames) (text "period")

def periodProg : Prog :=
  (periodResult.toOption.map Prod.fst).getD ⟨0, [], [], 0, 0, 0, 0⟩

theorem periodResult_isSome : periodResult.toOption.isSome = true := by
  decide +kernel

def periodConfig : Config where
  names := periodNames
  few := by decide
  idToEvsel := fun id =>
    if id = 1#64 then some .leader else if id = 2#64 then some (.tp 0) else none
  verbose := false
  alloc := periodAlloc
  source := text "period"
  prog := periodProg
  compiled := by
    have hsome := periodResult_isSome
    refine ⟨3, (periodResult.toOption.map Prod.snd).getD [], ?_⟩
    rw [show compile 3 periodAlloc true (declares periodNames)
      (text "period") = periodResult from rfl, periodProg]
    cases hresult : periodResult with
    | error failure =>
      rw [hresult] at hsome
      cases hsome
    | ok result => rfl

def periodSample : Whole periodConfig where
  ins := 0
  groups := [⟨5#64, 1#64⟩, ⟨0#64, 2#64⟩]
  whole := by decide

def periodReached : Reached periodConfig ⟨fun _ _ => 0, 0, 0⟩ 5 where
  before := []
  junk := fun _ => 0
  mem := fun _ => 0
  ctx := .init (fun _ => 0) fun _ => 0
  reached := rfl

theorem period_loaded :
    ∃ record, periodConfig.prog.loadData
        (periodSample.increments periodReached.before)
        periodReached.ctx.mem = some record ∧
      ∀ (i : Nat) (declare : Declare),
        (declares periodConfig.names)[i]? = some declare →
          (periodSample.increments periodReached.before)[i]? =
            some (declare.content periodConfig.alloc.data record) :=
  (sample_printed_iff periodReached periodSample).imp
    fun _ ⟨hrecord, hcontent, _⟩ => ⟨hrecord, hcontent⟩

/-- The expression is 5 for the sample, which is not printed. -/
theorem five_not_printed :
    ((periodProg.loadData (periodSample.increments []) fun _ => 0).bind
        (periodProg.exprRun ⟨fun _ _ => 0, 0, 0⟩ 5)).map Prod.fst = some 5#64 ∧
      (hrtimerSample periodConfig ⟨fun _ _ => 0, 0, 0⟩ 5 periodSample.ins
        periodSample.groups periodReached.ctx).map Prod.snd = some false := by
  decide +kernel

end PerfProf.Hrtimer
