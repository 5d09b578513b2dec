import PerfProf.Data.Transition
import PerfProf.Tep.Filter

namespace PerfProf.Tep

open PerfProf.Expr

/-- Samples are filtered in userspace exactly when some filter fell back to it.
-/
theorem tpListApplyFilter_flag {installs : Tp → Bool}
    {compile : Tp → Option Filter} (fresh : ∀ tp ∈ tps, tp.ftraceFilter = none)
    (happly :
      tpListApplyFilter supported installs compile tps = some (applied, flag)) :
    flag = fellBack applied := by
  induction tps generalizing applied flag with
  | nil =>
    cases happly
    rfl
  | cons tp rest ih =>
    simp only [tpListApplyFilter, Option.bind_eq_bind,
      Option.bind_eq_some_iff, Prod.exists] at happly
    obtain ⟨new, fallback, hnew, others, more, hrest, hresult⟩ := happly
    cases hresult
    have htail := ih (fun tp htp => fresh tp (List.mem_cons_of_mem _ htp)) hrest
    have hhead : fallback = (new.isReal && new.ftraceFilter.isSome) := by
      have hnone := fresh tp List.mem_cons_self
      unfold Tp.applyFilter at hnew
      split at hnew
      case isTrue hreal =>
          simp only [Bool.and_eq_true] at hreal
          split at hnew
          · cases hnew
            simp [hnone]
          split at hnew
          · obtain ⟨filter, -, hfilter⟩ := Option.map_eq_some_iff.mp hnew
            cases hfilter
            have hnewReal : Tp.isReal { tp with ftraceFilter := some filter } =
                true := hreal.1.1
            simp [hnewReal]
          · cases hnew
      case isFalse =>
          cases hnew
          simp [hnone]
    rw [fellBack, List.any_cons, ← hhead, htail]
    rfl

section Judge

variable (lib : Library) (fuel : Nat) (sample : Sample) (mem : Mem)

/-- The value of a tracepoint's userspace filter on a sample. -/
def Tp.Yields (tp : Tp) (filter : Filter) (value : Word) : Prop :=
  tp.ftraceFilter = some filter ∧
    exprRun lib fuel filter (filter.loaded sample mem) = some value

def Tp.Zero (tp : Tp) : Prop :=
  ∃ filter, tp.Yields lib fuel sample mem filter 0

/-- The first entry of the list that is the tracepoint of a sample. -/
structure FirstListed (tps : List Tp) (sample : Sample) (first : Tp) :
    Prop where
  split : ∃ before after,
    tps = before ++ first :: after ∧
    ∀ tp ∈ before, tp.id ≠ sample.commonType
  type : first.id = sample.commonType

variable {sample}

private theorem Tp.real_of_type {tp : Tp} (type : tp.id = sample.commonType) :
    tp.isReal = true := by
  simp [Tp.isReal, type, Sample.commonType]
  omega

private theorem firstOfType_eq :
    firstOfType tps sample = tps.find? (·.id = sample.commonType) := by
  refine congrArg tps.find? (funext fun tp => ?_)
  by_cases type : tp.id = sample.commonType
  · simp [Tp.real_of_type type, type]
  · simp [type]

private theorem FirstListed.firstOfType
    (listed : FirstListed tps sample first) :
    firstOfType tps sample = some first := by
  obtain ⟨⟨before, after, rfl, others⟩, type⟩ := listed
  rw [firstOfType_eq, List.find?_append,
    List.find?_eq_none.mpr (by simpa using others)]
  simp [type]

private theorem FirstListed.member (listed : FirstListed tps sample first) :
    first ∈ tps := by
  obtain ⟨⟨before, after, rfl, -⟩, -⟩ := listed
  simp

/-- The filter of the first entry decides, by the size of the sample or by the
sign of its value. -/
theorem tpListFtraceFilter_small_iff (listed : FirstListed tps sample first)
    (runs : ∀ filter, first.ftraceFilter = some filter →
      ∃ value, first.Yields lib fuel sample mem filter value) :
    (∃ value, tpListFtraceFilter lib fuel tps sample mem = some value ∧
      value.toInt ≤ 0) ↔
    ∃ filter value, first.Yields lib fuel sample mem filter value ∧
      (filter.datasize < sample.raw.length ∨ value.toInt ≤ 0) := by
  simp only [tpListFtraceFilter, listed.firstOfType, Tp.Yields]
  cases hfilter : first.ftraceFilter with
  | none =>
    constructor
    · rintro ⟨value, hvalue, small⟩
      cases hvalue
      exact absurd small (by decide)
    · rintro ⟨filter, value, ⟨hsome, -⟩, -⟩
      cases hsome
  | some filter =>
    obtain ⟨value, -, hvalue⟩ := runs filter hfilter
    by_cases large : filter.datasize < sample.raw.length
    · simp only [tpProgRun, exprLoadGlobal, if_pos large]
      exact ⟨fun _ => ⟨filter, value, ⟨rfl, hvalue⟩, .inl large⟩,
        fun _ => ⟨-1, rfl, by decide⟩⟩
    · simp [tpProgRun, exprLoadGlobal, large, hvalue]

end Judge

structure Produced (tps : List Tp) (sample : Sample) where
  tp : Tp
  member : tp ∈ tps
  real : tp.isReal = true
  evsel : tp.evsel = some sample.evsel
  type : tp.id = sample.commonType

section Dispatch

variable {lib : Library} {fuel : Nat} {sample : Sample} {mem : Mem}

private theorem fellBack_of_filter (hmem : tp ∈ tps) (real : tp.isReal = true)
    (hfilter : tp.ftraceFilter = some filter) :
    fellBack tps = true := by
  rw [fellBack, List.any_eq_true]
  exact ⟨tp, hmem, by simp [real, hfilter]⟩

private theorem processRecord_filtered_iff (dev : Dev) :
    (∃ next, processRecord lib fuel tps sample mem dev =
      some (.filtered, next)) ↔
    dev.within = true ∧ dev.ftraceFilter = true ∧
      ∃ value, tpListFtraceFilter lib fuel tps sample mem = some value ∧
        value.toInt ≤ 0 := by
  have hdelivered : ∀ dev : Dev, (dev.deliver sample.time).1 ≠ .filtered := by
    intro dev
    unfold Dev.deliver
    split <;> simp
  simp only [processRecord, Option.map_eq_some_iff, Prod.mk.injEq]
  cases dev.within with
  | false => simp
  | true =>
    cases dev.ftraceFilter with
    | false =>
      simp only [if_true, Bool.false_eq_true, if_false, false_and, and_false, iff_false]
      rintro ⟨next, result, hresult, hverdict, -⟩
      cases hresult
      exact hdelivered _ hverdict
    | true =>
      simp only [if_true, true_and, Option.map_eq_some_iff]
      constructor
      · rintro ⟨next, result, ⟨value, hvalue, hjudged⟩, hverdict, -⟩
        refine ⟨value, hvalue, ?_⟩
        by_contra positive
        rw [if_neg positive] at hjudged
        exact hdelivered _ (hjudged ▸ hverdict)
      · rintro ⟨value, hvalue, small⟩
        refine ⟨_, _, ⟨value, hvalue, if_pos small⟩, rfl, rfl⟩

/-- After `tp_list_apply_filter()`, and for filters that return: a sample is
dropped exactly when the filter of its own tracepoint is zero on it, if and only
if
- where its own entry is the first one of that tracepoint in the list, a value
  other than zero is positive and the sample is not larger than the capacity;
- where another entry comes first, the sample is too large for that entry's
  filter or the value of that filter is at most zero exactly when its own one is
  zero. -/
theorem sample_dropped_iff (installs : Tp → Bool) (compile : Tp → Option Filter)
    (fresh : ∀ tp ∈ list, tp.ftraceFilter = none)
    (happly :
      tpListApplyFilter supported installs compile list = some (tps, flag))
    (dev : Dev) (hflag : dev.ftraceFilter = flag)
    (within : dev.exitN = 0 ∨ dev.sampledEvents + 1 ≤ dev.exitN)
    (produced : Produced tps sample) (listed : FirstListed tps sample first)
    (runs : ∀ tp ∈ tps, ∀ filter, tp.ftraceFilter = some filter →
      ∃ value, tp.Yields lib fuel sample mem filter value) :
    ((∃ next,
        processRecord lib fuel tps sample mem dev = some (.filtered, next)) ↔
        produced.tp.Zero lib fuel sample mem) ↔
      (first = produced.tp →
        ∀ filter value, first.Yields lib fuel sample mem filter value →
          value ≠ 0 →
          sample.raw.length ≤ filter.datasize ∧ 0 < value.toInt) ∧
      (first ≠ produced.tp →
        ((∃ filter value, first.Yields lib fuel sample mem filter value ∧
            (filter.datasize < sample.raw.length ∨ value.toInt ≤ 0)) ↔
            produced.tp.Zero lib fuel sample mem)) := by
  have hdropped : (∃ next, processRecord lib fuel tps sample mem dev =
      some (.filtered, next)) ↔
      ∃ filter value, first.Yields lib fuel sample mem filter value ∧
        (filter.datasize < sample.raw.length ∨ value.toInt ≤ 0) := by
    rw [processRecord_filtered_iff,
      tpListFtraceFilter_small_iff lib fuel mem listed (runs first listed.member),
      hflag, tpListApplyFilter_flag fresh happly]
    refine ⟨fun dropped => dropped.2.2, fun decides => ⟨?_, ?_, decides⟩⟩
    · simpa [Dev.within] using within
    · obtain ⟨filter, value, ⟨hfilter, -⟩, -⟩ := decides
      exact fellBack_of_filter listed.member (Tp.real_of_type listed.type) hfilter
  rw [hdropped]
  by_cases own : first = produced.tp
  · subst own
    simp only [ne_eq, not_true_eq_false, false_imp_iff, and_true, true_imp_iff]
    constructor
    · intro same filter value hvalue nonzero
      have kept : ¬ (filter.datasize < sample.raw.length ∨ value.toInt ≤ 0) := by
        intro decides
        obtain ⟨other, hfilter, hzero⟩ := same.mp ⟨filter, value, hvalue, decides⟩
        cases hvalue.1.symm.trans hfilter
        exact nonzero (Option.some.inj (hvalue.2.symm.trans hzero))
      omega
    · intro exact
      constructor
      · rintro ⟨filter, value, hvalue, decides⟩
        by_cases zero : value = 0
        · exact ⟨filter, zero ▸ hvalue⟩
        · have := exact filter value hvalue zero
          omega
      · rintro ⟨filter, hzero⟩
        exact ⟨filter, 0, hzero, .inr (by decide)⟩
  · simp [own]

end Dispatch

def constantFilter (value : Word) : Filter where
  prog :=
    { insn := 0, words := [Op.imm.word, value, Op.exit.word], symtab := []
      data := 0x1000, datalen := 8, str := 0, strsize := 0 }
  glo := 0x2000

def constantTp (evsel : Nat) (value : Word) : Tp where
  id := 1
  filter := text "filter"
  evsel := some evsel
  ftraceFilter := some (constantFilter value)

def plainDev (tps : List Tp) : Dev where
  ftraceFilter := fellBack tps
  exitN := 0
  sampledEvents := 0
  timed := false
  enabledAfter := 0
  closed := false

def sampleOf (evsel : Nat) : Sample where
  evsel := evsel
  cpu := 0
  pid := 0
  time := 0
  raw := [1, 0, 0, 0, 0, 0, 0, 0]

def plainLibrary : Library := ⟨fun _ _ => 0, 0, 0⟩

def verdictOf (tps : List Tp) (evsel : Nat) : Option Verdict :=
  (processRecord plainLibrary 2 tps (sampleOf evsel) (fun _ => 0)
    (plainDev tps)).map Prod.fst

/-- The second tracepoint's filter is zero, but its sample is judged by the
first one's; and a filter with the value -1 drops a sample. -/
theorem judged_by_other_filter :
    verdictOf [constantTp 0 1, constantTp 1 0] 1 = some .sampled ∧
    exprRun plainLibrary 2 (constantFilter 0)
      ((constantFilter 0).loaded (sampleOf 1) fun _ => 0) = some 0 ∧
    verdictOf [constantTp 0 (-1)] 0 = some .filtered := by
  decide +kernel

theorem sample_dropped_iff_zero :
    ((∃ next, processRecord plainLibrary 2 [constantTp 0 0] (sampleOf 0)
        (fun _ => 0) (plainDev [constantTp 0 0]) = some (.filtered, next)) ↔
        (constantTp 0 0).Zero plainLibrary 2 (sampleOf 0) fun _ => 0) := by
  have runs : ∀ filter, (constantTp 0 0).ftraceFilter = some filter →
      (constantTp 0 0).Yields plainLibrary 2 (sampleOf 0) (fun _ => 0) filter 0 := by
    rintro _ ⟨⟩
    exact ⟨rfl, by decide +kernel⟩
  refine (sample_dropped_iff (fun _ => false) (fun _ => some (constantFilter 0)) (by simp)
    (show tpListApplyFilter true _ _
      [{ constantTp 0 0 with ftraceFilter := none }] = some ([constantTp 0 0], true) from rfl)
    (plainDev [constantTp 0 0]) rfl (.inl rfl)
    ⟨constantTp 0 0, List.mem_singleton_self _, rfl, rfl, rfl⟩
    ⟨⟨[], [], rfl, by simp⟩, rfl⟩
    (by simpa using fun filter hfilter => ⟨0, runs filter hfilter⟩)).mpr ⟨?_, ?_⟩
  · intro _ filter value hvalue nonzero
    exact absurd (Option.some.inj (hvalue.2.symm.trans (runs filter hvalue.1).2)) nonzero
  · exact fun other => absurd rfl other

section Limit

variable (lib : Library) (fuel : Nat) (tps : List Tp)

def judge (input : Sample × Mem) (state : List Verdict × Dev) :
    Option (List Verdict × Dev) :=
  (processRecord lib fuel tps input.1 input.2 state.2).map fun result =>
    (state.1 ++ [result.1], result.2)

/-- If the device filters, then the first entry that is the sample's tracepoint
has no filter or one that is positive on it, within the capacity; and the sample
is not early. -/
def wanted (dev : Dev) (input : Sample × Mem) : Bool :=
  (!dev.ftraceFilter ||
    (tps.find? (·.id = input.1.commonType)).any fun first =>
      first.ftraceFilter.all fun filter =>
        decide (input.1.raw.length ≤ filter.datasize) &&
          (exprRun lib fuel filter (filter.loaded input.1 input.2)).any
            (0 < ·.toInt)) &&
  !(dev.timed && decide (input.1.time < dev.enabledAfter))

/-- After `inputs`: which samples were handed on, and the count up to the limit.
-/
structure Limited (dev : Dev) (inputs : List (Sample × Mem))
    (state : List Verdict × Dev) : Prop where
  settings : state.2 =
    { dev with sampledEvents := state.2.sampledEvents, closed := state.2.closed }
  length : state.1.length = inputs.length
  sampled : ∀ index, state.1[index]? = some .sampled ↔
    ∃ input, inputs[index]? = some input ∧ wanted lib fuel tps dev input = true ∧
      (inputs.take index).countP (wanted lib fuel tps dev) < dev.exitN
  counted : min dev.exitN state.2.sampledEvents =
    min dev.exitN (inputs.countP (wanted lib fuel tps dev))
  closed : state.2.closed = decide (dev.exitN ≤ state.2.sampledEvents)

variable {lib fuel tps} {dev last : Dev}

private theorem wanted_eq :
    wanted lib fuel tps dev (sample, mem) =
      ((!dev.ftraceFilter ||
        (tpListFtraceFilter lib fuel tps sample mem).any (0 < ·.toInt)) &&
      !(dev.timed && decide (sample.time < dev.enabledAfter))) := by
  simp only [wanted, tpListFtraceFilter, firstOfType_eq]
  cases tps.find? (·.id = sample.commonType) with
  | none => rfl
  | some first =>
    cases hfilter : first.ftraceFilter with
    | none => simp [hfilter]
    | some filter =>
      by_cases fits : sample.raw.length ≤ filter.datasize
      · simp [tpProgRun, exprLoadGlobal, hfilter, fits, Nat.not_lt.mpr fits]
      · simp [tpProgRun, exprLoadGlobal, hfilter, fits, Nat.lt_of_not_le fits]

private theorem processRecord_limited (limited : dev.exitN ≠ 0)
    (hstep : processRecord lib fuel tps sample mem dev = some (verdict, last)) :
    (verdict = .sampled ↔
      dev.within = true ∧ wanted lib fuel tps dev (sample, mem) = true) ∧
    last = (if dev.within = true ∧ wanted lib fuel tps dev (sample, mem) = false
      then dev else dev.count).closeAtLimit := by
  have hback : dev.count.uncount = dev := by simp [Dev.count, Dev.uncount, limited]
  have hsettings : dev.count.timed = dev.timed ∧
      dev.count.enabledAfter = dev.enabledAfter := by
    unfold Dev.count
    split <;> exact ⟨rfl, rfl⟩
  simp only [processRecord, Dev.deliver, hback, hsettings] at hstep
  cases hvalue : tpListFtraceFilter lib fuel tps sample mem with
  | none => grind [wanted_eq]
  | some value => grind [wanted_eq]

private theorem Dev.count_closeAtLimit (limited : dev.exitN ≠ 0)
    (closed : dev.closed = decide (dev.exitN ≤ dev.sampledEvents)) :
    dev.count.closeAtLimit =
      { dev with
        sampledEvents := dev.sampledEvents + 1
        closed := decide (dev.exitN ≤ dev.sampledEvents + 1) } := by
  simp only [Dev.count, Dev.closeAtLimit, if_neg limited]
  grind

private theorem Limited.judge {state result : List Verdict × Dev}
    (hlimit : dev.exitN ≠ 0)
    (limited : Limited lib fuel tps dev inputs state)
    (hstep : judge lib fuel tps input state = some result) :
    Limited lib fuel tps dev (inputs ++ [input]) result := by
  obtain ⟨verdicts, now⟩ := state
  obtain ⟨settings, length, sampled, counted, closed⟩ := limited
  dsimp only at settings length sampled counted closed
  obtain ⟨⟨verdict, last⟩, hresult, rfl⟩ := Option.map_eq_some_iff.mp hstep
  have hexit : now.exitN = dev.exitN := by rw [settings]
  have hwanted : wanted lib fuel tps now input = wanted lib fuel tps dev input := by
    rw [settings]
    rfl
  obtain ⟨hverdict, hlast⟩ := processRecord_limited (hexit ▸ hlimit) hresult
  rw [hwanted] at hverdict hlast
  have hwithin : now.within = true ↔
      inputs.countP (wanted lib fuel tps dev) < dev.exitN := by
    simp only [Dev.within, hexit, decide_eq_true_eq]
    omega
  have hsampled : ∀ index, (verdicts ++ [verdict])[index]? = some .sampled ↔
      ∃ other, (inputs ++ [input])[index]? = some other ∧
        wanted lib fuel tps dev other = true ∧
        ((inputs ++ [input]).take index).countP (wanted lib fuel tps dev) <
          dev.exitN := by
    intro index
    rcases lt_trichotomy index inputs.length with before | here | behind
    · rw [List.getElem?_append_left (by omega), List.getElem?_append_left before,
        List.take_append_of_le_length before.le]
      exact sampled index
    · rw [here, ← length, List.getElem?_concat_length, length,
        List.getElem?_concat_length, List.take_left]
      simp [hverdict, hwithin, and_comm]
    · rw [List.getElem?_eq_none (by simp; omega), List.getElem?_eq_none (by simp; omega)]
      simp
  have hcount : (inputs ++ [input]).countP (wanted lib fuel tps dev) =
      inputs.countP (wanted lib fuel tps dev) +
        if wanted lib fuel tps dev input = true then 1 else 0 := by
    rw [List.countP_append, List.countP_singleton]
  dsimp only at hlast hverdict
  by_cases skipped : now.within = true ∧ wanted lib fuel tps dev input = false
  · have below := hwithin.mp skipped.1
    rw [if_pos skipped, Dev.closeAtLimit, if_neg (by omega)] at hlast
    rw [skipped.2] at hcount
    rw [hlast]
    exact ⟨settings, by simp [length], hsampled, by simpa [hcount] using counted, closed⟩
  · rw [if_neg skipped, Dev.count_closeAtLimit (by omega) (hexit ▸ closed)] at hlast
    have hnext : inputs.countP (wanted lib fuel tps dev) < dev.exitN →
        wanted lib fuel tps dev input = true := by
      intro below
      simpa [hwithin.mpr below] using skipped
    rw [hlast]
    refine ⟨by rw [settings], by simp [length], hsampled, ?_, by rw [hexit]⟩
    dsimp only
    rw [hcount]
    split
    · omega
    · rename_i refused
      have := mt hnext refused
      omega

/-- With `-N`: of the samples that no userspace filter refuses and that are not
early, exactly the first N reach the profiler, and the device is closed as soon
as there were N of them. -/
theorem exit_n_exact (hlimit : dev.exitN ≠ 0) (fresh : dev.sampledEvents = 0)
    (opened : dev.closed = false)
    (hrun :
      Data.run (judge lib fuel tps) inputs ([], dev) = some (verdicts, last)) :
    verdicts.length = inputs.length ∧
    (∀ index, verdicts[index]? = some .sampled ↔
        ∃ input, inputs[index]? = some input ∧
          wanted lib fuel tps dev input = true ∧
          (inputs.take index).countP (wanted lib fuel tps dev) < dev.exitN) ∧
    (last.closed = true ↔
        dev.exitN ≤ inputs.countP (wanted lib fuel tps dev)) := by
  have limited : Limited lib fuel tps dev inputs (verdicts, last) := by
    induction inputs using List.reverseRecOn generalizing verdicts last with
    | nil =>
      cases hrun
      exact ⟨rfl, rfl, by simp, by simp [fresh], by simp [fresh, opened, hlimit]⟩
    | append_singleton inputs input ih =>
      obtain ⟨⟨earlier, middle⟩, hrun, hstep⟩ := Data.run_snoc.mp hrun
      exact (ih hrun).judge hlimit hstep
  refine ⟨limited.length, limited.sampled, ?_⟩
  have counted := limited.counted
  rw [limited.closed, decide_eq_true_iff]
  dsimp only at counted ⊢
  omega

def threeSamples : List (Sample × Mem) :=
  [(sampleOf 0, fun _ => 0), ({ sampleOf 1 with raw := [2, 0] }, fun _ => 0),
    (sampleOf 0, fun _ => 0)]

/-- With `-N 2`, when the second of three samples is filtered. -/
theorem exit_n_exact_two :
    ∃ last, Data.run
      (judge plainLibrary 2 [constantTp 0 1, { constantTp 1 0 with id := 2 }])
      threeSamples ([], { plainDev [constantTp 0 1] with exitN := 2 }) =
        some ([.sampled, .filtered, .sampled], last) ∧
    last.closed = true := by
  refine ⟨{ plainDev [constantTp 0 1] with exitN := 2, sampledEvents := 2, closed := true },
    by decide +kernel, ?_⟩
  refine (exit_n_exact (by decide) rfl rfl (show Data.run
    (judge plainLibrary 2 [constantTp 0 1, { constantTp 1 0 with id := 2 }])
    threeSamples ([], { plainDev [constantTp 0 1] with exitN := 2 }) =
      some ([.sampled, .filtered, .sampled], _) by decide +kernel)).2.2.mpr ?_
  decide +kernel

end Limit

end PerfProf.Tep
