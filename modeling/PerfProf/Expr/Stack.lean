import PerfProf.Expr.WellFormed

namespace PerfProf.Expr

/-! The slots of `stack[512]`.  A built-in goes down from `t = sp + pc[1]`,
where `pc[1]` is the count of the `ADJ` behind the call if there is one, or it
reads `*sp`. -/

/-- The parameters its C function must be given, and the slots read for it. -/
structure Builtin where
  counted : Bool
  operands : Nat
  reads : Nat

def Op.builtin? : Op → Option Builtin
  | .ksym | .nthl | .nths | .comm | .syscall => some ⟨false, 1, 1⟩
  | .prtf | .system => some ⟨true, 1, 7⟩
  | .strncmp => some ⟨true, 3, 3⟩
  | .kvmexit => some ⟨true, 2, 2⟩
  | _ => none

namespace Vm

def sp (vm : Vm) : Int := 512 - vm.stack.length

/-- `t - stack`; the first operand is at `t[-1]`. -/
def top? (prog : Prog) (builtin : Builtin) (vm : Vm) : Option Int :=
  if builtin.counted then
    (prog.word? (vm.pc + 2)).map fun count => vm.sp + count.toInt
  else some (vm.sp + 1)

def slots? (prog : Prog) (op : Op) (vm : Vm) : Option (List Int) :=
  match op.builtin? with
  | some builtin =>
    (vm.top? prog builtin).map fun top =>
      (List.range builtin.reads).map fun (below : Nat) => top - 1 - below
  | none =>
    match op with
    | .psh | .jsr | .ent => some [vm.sp - 1]
    | .lev => some [512 - vm.bp, 513 - vm.bp]
    | _ => some (if op = .si ∨ op.isOperator then [vm.sp] else [])

/-- How many values were pushed for the call at `pc`. -/
def given (prog : Prog) (vm : Vm) : Nat :=
  if prog.word? (vm.pc + 1) = some Op.adj.word then
    ((prog.word? (vm.pc + 2)).getD 0).toNat
  else 0

/-- The next instruction stays in the stack, and a built-in finds the operands
it must have among the values pushed for it. -/
structure Contained (prog : Prog) (lib : Library) (vm : Vm) : Prop where
  low : 0 ≤ vm.sp
  inside : ∀ op : Op, prog.word? vm.pc = some op.word → ∃ slots, vm.slots? prog op = some slots ∧
      ∀ slot ∈ slots, 0 ≤ slot ∧ slot < 512
  operands : ∀ (op : Op) builtin, prog.word? vm.pc = some op.word →
    op.builtin? = some builtin → ∃ top, vm.top? prog builtin = some top ∧
      vm.sp ≤ top - builtin.operands ∧ top ≤ vm.sp + vm.given prog
  stays : vm.step prog lib ≠ .wild

/-- A built-in that is called next was given its operands, and the slots below
them that are read for it are in the stack. -/
def Filled (prog : Prog) (vm : Vm) : Prop :=
  ∀ (op : Op) builtin, prog.word? vm.pc = some op.word →
    op.builtin? = some builtin → builtin.operands ≤ vm.given prog ∧
      vm.stack.length + builtin.reads ≤ 512 + vm.given prog

/-- A state of a run, up to a store into `insn` or `stack`. -/
def Reached (prog : Prog) (lib : Library) (mem : Mem) (vm : Vm) : Prop :=
  ∃ rounds, (start mem).run prog lib rounds = .next vm

def Placed (code : List Ins) (vm : Vm) : Prop :=
  ∃ first ins last, code ++ [Ins.plain .exit] = first ++ ins :: last ∧
    vm.At first ∧ flow first 0 = some vm.stack.length

private theorem Contained.filled {prog : Prog} {lib : Library} {vm : Vm}
    (contained : vm.Contained prog lib) : vm.Filled prog := by
  intro op builtin hword hbuiltin
  obtain ⟨top, htop, hlow, hhigh⟩ := contained.operands op builtin hword hbuiltin
  obtain ⟨slots, hslots, hinside⟩ := contained.inside op hword
  have hbottom := contained.low
  simp only [slots?, hbuiltin, htop, Option.map_some, Option.some.injEq] at hslots
  subst hslots
  refine ⟨by omega, ?_⟩
  have hreads : 0 < builtin.reads := by
    cases op <;> cases hbuiltin <;> decide
  have hlast := (hinside (top - 1 - (builtin.reads - 1 : Nat))
    (List.mem_map.mpr ⟨_, List.mem_range.mpr (by omega), rfl⟩)).1
  unfold sp at hlow hhigh hbottom
  omega

end Vm

private theorem Emitted.flow_at (emitted : Emitted rules le 1 code)
    (split : code ++ [Ins.plain .exit] = first ++ ins :: last)
    (hdepth : flow first 0 = some depth) :
    ∃ next, ins.flow depth = some next ∧ flow last next = some 0 := by
  have hall : flow (code ++ [Ins.plain .exit]) 0 = some 0 := by
    have hcode : flow code 0 = some 0 := emitted.piece.flows 0
    rw [flow_append, hcode]
    rfl
  rw [split, flow_append, hdepth] at hall
  exact Option.bind_eq_some_iff.mp hall

private theorem slots_of_flow {prog : Prog} {vm : Vm} {ins : Ins} {depth : Nat}
    (hflow : ins.flow vm.stack.length = some depth)
    (hbuiltin : ins.op.builtin? = none) :
    vm.slots? prog ins.op = some [] ∨
    vm.slots? prog ins.op = some [vm.sp - 1] ∨
    vm.slots? prog ins.op = some [vm.sp] ∧ vm.stack.length ≠ 0 := by
  cases ins with
  | wide op operand =>
    cases op <;> first
      | exact .inl rfl
      | cases hflow
      | (refine .inr (.inr ⟨rfl, fun hzero => ?_⟩)
         simp [Ins.flow, hzero] at hflow)
  | plain op =>
    cases op <;> first
      | (cases hbuiltin; done)
      | exact .inr (.inl rfl)
      | (refine .inr (.inr ⟨rfl, fun hzero => ?_⟩)
         rw [hzero] at hflow
         cases hflow)
      | exact .inl rfl
      | cases hflow

section Code

variable {rules : Rules} {prog : Prog} {code : List Ins}
  {vm : Vm} (hwords : prog.words = wordsOf (code ++ [Ins.plain .exit]))
  (emitted : Emitted rules prog.insn 1 code)

include hwords emitted

private theorem given_pushed
    (split : code ++ [Ins.plain .exit] = first ++ Ins.plain op :: last)
    (at_ : vm.At first) (hdepth : flow first 0 = some vm.stack.length)
    (hbuiltin : op.builtin? = some builtin) (hgiven : 0 < vm.given prog) :
    ∃ count, prog.word? (vm.pc + 2) = some count ∧
      vm.given prog = count.toNat ∧
      count.toNat ≤ vm.stack.length := by
  cases last with
  | nil =>
    obtain ⟨-, hins⟩ := List.append_inj' split rfl
    cases hins
    cases hbuiltin
  | cons next more =>
    have hprogram : prog.words = wordsOf ((first ++ [Ins.plain op]) ++ next :: more) := by
      rw [hwords, split, List.append_assoc]
      rfl
    have hpc : vm.pc + 1 = 1 + size (first ++ [Ins.plain op]) := by
      rw [at_, size_append, size_plain, size_nil, Nat.add_assoc]
    have hadj : next.op = .adj := by
      unfold Vm.given at hgiven
      split_ifs at hgiven with hadj
      · rw [hpc, word?_at hprogram] at hadj
        exact Op.word_inj (Option.some.inj hadj)
      · cases hgiven
    cases next with
    | plain other =>
      cases hadj
      have hmember : Ins.plain .adj ∈ code ++ [Ins.plain .exit] := by simp [split]
      have hcode : Ins.plain .adj ∈ code := by simpa using hmember
      cases emitted.piece.valid _ hcode
    | wide other count =>
      cases hadj
      have hcount : prog.word? (vm.pc + 2) = some count := by
        have hoperand := operand_at hprogram
        rwa [← hpc] at hoperand
      refine ⟨count, hcount, ?_, ?_⟩
      · rw [Vm.given, if_pos (by rw [hpc, word?_at hprogram]; rfl), hcount]
        rfl
      · obtain ⟨depth, hins, hrest⟩ := emitted.flow_at split hdepth
        have hdeep : (Ins.plain op).flow vm.stack.length = some vm.stack.length := by
          cases op <;> first | rfl | cases hbuiltin
        cases hdeep.symm.trans hins
        obtain ⟨_, hcount, -⟩ := Option.bind_eq_some_iff.mp hrest
        by_contra hmore
        simp [Ins.flow, hmore] at hcount

variable (bound : prog.words.length ≤ 1023)

include bound

private theorem step_placed (lib : Library) (placed : vm.Placed code) :
    (vm.step prog lib).ended = true ∨
    ∃ next, vm.step prog lib = .next next ∧ next.Placed code := by
  obtain ⟨first, ins, last, split, at_, hdepth⟩ := placed
  by_cases hlast : last = []
  · subst hlast
    obtain ⟨-, hins⟩ := List.append_inj' split rfl
    cases hins
    rw [step_exit at_ (hwords.trans (congrArg wordsOf split))]
    exact .inl rfl
  · obtain ⟨rest, rfl, hcode⟩ := split_body split hlast
    rcases step_lands lib hwords emitted bound hcode at_ hdepth with
      hstop | ⟨next, middle, final, hstep, rfl, hat, hdeep⟩
    · exact .inl hstop
    · refine .inr ⟨next, hstep, first ++ ins :: middle, ?_⟩
      cases final with
      | nil => exact ⟨Ins.plain .exit, [], by simp [hcode], hat, hdeep⟩
      | cons head tail => exact ⟨head, tail ++ [Ins.plain .exit], by simp [hcode], hat, hdeep⟩

private theorem run_placed (reached : vm.Reached prog lib mem) :
    vm.Placed code := by
  obtain ⟨rounds, hrun⟩ := reached
  have hstart : (Vm.start mem).Placed code := by
    cases code with
    | nil => exact ⟨[], _, _, rfl, rfl, rfl⟩
    | cons head tail => exact ⟨[], head, tail ++ [_], rfl, rfl, rfl⟩
  generalize Vm.start mem = first at hstart hrun
  induction rounds generalizing first with
  | zero =>
    cases hrun
    exact hstart
  | succ rounds ih =>
    rcases step_placed hwords emitted bound lib hstart with
      hstop | ⟨next, hstep, hplaced⟩
    · cases hstep : first.step prog lib <;> simp_all [Vm.run, Outcome.ended, Outcome.stopped]
    · rw [Vm.run, hstep] at hrun
      exact ih next hplaced hrun

private theorem placed_contained (lib : Library) (placed : vm.Placed code)
    (filled : vm.Filled prog) : vm.Contained prog lib := by
  have hstays : vm.step prog lib ≠ .wild := by
    rcases step_placed hwords emitted bound lib placed with
      hstop | ⟨next, hstep, -⟩
    · intro hwild
      rw [hwild] at hstop
      cases hstop
    · simp [hstep]
  obtain ⟨first, ins, last, split, at_, hdepth⟩ := placed
  have hprogram := hwords.trans (congrArg wordsOf split)
  have hfetch : prog.word? vm.pc = some ins.op.word := by rw [at_, word?_at hprogram]
  obtain ⟨depth, hins, -⟩ := emitted.flow_at split hdepth
  have hroom : vm.stack.length < 512 := by
    have hshallow := (emitted.shallow.append (.single (by simp))) first
      (ins :: last) 0 vm.stack.length split hdepth
    have hsize := congrArg List.length hprogram
    rw [wordsOf_append, List.length_append, ← size, ← size] at hsize
    omega
  have operands : ∀ builtin, ins.op.builtin? = some builtin →
      ∃ top, vm.top? prog builtin = some top ∧
        vm.sp ≤ top - builtin.operands ∧ top ≤ vm.sp + vm.given prog ∧
        top ≤ 512 ∧ builtin.reads ≤ top := by
    intro builtin hbuiltin
    obtain ⟨henough, hreads⟩ := filled ins.op builtin hfetch hbuiltin
    cases ins with
    | wide op operand => cases op <;> cases hbuiltin <;> cases hins
    | plain op =>
      have hsome : 0 < builtin.operands ∧ (builtin.counted = false →
          builtin.operands = 1 ∧ builtin.reads = 1) := by
        cases op <;> cases hbuiltin <;> decide
      obtain ⟨count, hcount, hgiven, hpushed⟩ := given_pushed hwords emitted
        split at_ hdepth hbuiltin (by omega)
      have hint : count.toInt = count.toNat := by rw [BitVec.toInt_eq_toNat_of_lt (by omega)]
      unfold Vm.top?
      cases hcounted : builtin.counted with
      | true =>
        refine ⟨vm.sp + count.toInt, by rw [hcount]; rfl, ?_⟩
        unfold Vm.sp
        omega
      | false =>
        have hsingle := hsome.2 hcounted
        refine ⟨vm.sp + 1, rfl, ?_⟩
        unfold Vm.sp
        omega
  refine ⟨by unfold Vm.sp; omega, ?_, ?_, hstays⟩
  · intro op hword
    cases Op.word_inj (Option.some.inj (hfetch.symm.trans hword))
    cases hbuiltin : ins.op.builtin? with
    | some builtin =>
      obtain ⟨top, htop, -, -, hhigh, hlow⟩ := operands builtin hbuiltin
      refine ⟨_, by simp only [Vm.slots?, hbuiltin, htop]; rfl, ?_⟩
      intro slot member
      obtain ⟨below, hbelow, rfl⟩ := List.mem_map.mp member
      have hless := List.mem_range.mp hbelow
      omega
    | none =>
      rcases slots_of_flow hins hbuiltin with hslots | hslots | ⟨hslots, hfull⟩
      · exact ⟨[], hslots, by simp⟩
      · refine ⟨_, hslots, ?_⟩
        rw [List.forall_mem_singleton, Vm.sp]
        omega
      · refine ⟨_, hslots, ?_⟩
        rw [List.forall_mem_singleton, Vm.sp]
        omega
  · intro op builtin hword hbuiltin
    cases Op.word_inj (Option.some.inj (hfetch.symm.trans hword))
    obtain ⟨top, htop, hlow, hhigh, -, -⟩ := operands builtin hbuiltin
    exact ⟨top, htop, hlow, hhigh⟩

end Code

/-- Of a compilation whose look-backs are right, every run stays in the stack
and every built-in finds its operands among the values pushed for it if and only
if every built-in that is called was given its operands. -/
theorem stack_contained_iff_filled {fuel : Nat} {alloc : Alloc}
    {sampleGlo : Bool} {declares : List Declare} {source : List Byte}
    {prog : Prog} {trace : List Event}
    (hcompile :
      compile fuel alloc sampleGlo declares source = .ok (prog, trace))
    (right : everyLookRight alloc.le trace = true) :
    (∀ lib mem vm, Vm.Reached prog lib mem vm → vm.Contained prog lib) ↔
      ∀ lib mem vm, Vm.Reached prog lib mem vm → vm.Filled prog := by
  obtain ⟨code, hwords, emitted, bound⟩ :=
    compile_emitted hcompile (right_of_everyLookRight right)
  constructor
  · intro contained lib mem vm reached
    exact (contained lib mem vm reached).filled
  · intro filled lib mem vm reached
    exact placed_contained hwords emitted bound lib
      (run_placed hwords emitted bound reached) (filled lib mem vm reached)

theorem stack_contained_iff_filled_swap :
    ∃ prog trace,
      compile 20 plainAlloc false plainDeclares
        (text "1 + ntohl((int)(c ? c : c))") = .ok (prog, trace) ∧
      everyLookRight plainAlloc.le trace = true ∧
      ((∀ lib mem vm, Vm.Reached prog lib mem vm → vm.Contained prog lib) ↔
        ∀ lib mem vm, Vm.Reached prog lib mem vm → vm.Filled prog) := by
  have hview : (compile 20 plainAlloc false plainDeclares
      (text "1 + ntohl((int)(c ? c : c))")).toOption.map
        (fun result => everyLookRight plainAlloc.le result.2) = some true := by
    decide +kernel
  obtain ⟨⟨prog, trace⟩, hcompile, right⟩ := ok_of_view hview
  exact ⟨prog, trace, hcompile, right, stack_contained_iff_filled hcompile right⟩

/-- `ntohl()` reads `stack[512]`. -/
theorem swap_of_nothing_reads_above :
    ∃ prog trace,
      compile 20 plainAlloc false plainDeclares (text "ntohl()") =
        .ok (prog, trace) ∧
      everyLookRight plainAlloc.le trace = true ∧
      ∀ lib mem, Vm.Reached prog lib mem (Vm.start mem) ∧
        prog.word? (Vm.start mem).pc = some Op.nthl.word ∧
        (Vm.start mem).slots? prog .nthl = some [512] ∧
        ¬ (Vm.start mem).Contained prog lib := by
  have hview : (compile 20 plainAlloc false plainDeclares
      (text "ntohl()")).toOption.map
        (fun result => (everyLookRight plainAlloc.le result.2,
          result.1.word? 1)) = some (true, some Op.nthl.word) := by
    decide +kernel
  obtain ⟨⟨prog, trace⟩, hcompile, hseen⟩ := ok_of_view hview
  obtain ⟨right, hword⟩ := Prod.mk.inj hseen
  refine ⟨prog, trace, hcompile, right, fun lib mem => ?_⟩
  refine ⟨⟨0, rfl⟩, hword, rfl, fun contained => ?_⟩
  obtain ⟨slots, hslots, hinside⟩ := contained.inside .nthl hword
  cases hslots
  exact absurd (hinside 512 List.mem_cons_self).2 (by decide)

end PerfProf.Expr
