import PerfProf.Expr.Relocation
import PerfProf.Expr.Execution

namespace PerfProf.Expr

open PerfProf.Data

/-- The stream as a whole.  Places count from `insn[1]`. -/
structure WellFormed (prog : Prog) : Prop where
  exits : prog.words.getLast? = some Op.exit.word
  decodes : aligned hasOperand prog.words.dropLast = true
  lands : ∀ place word target, aligned hasOperand (prog.words.take place) = true →
    prog.words[place]? = some word → isBranchWord word = true →
    prog.words[place + 1]? = some target →
      ∃ landing, target = address prog.insn (landing + 1) ∧ place < landing ∧
        landing < prog.words.length ∧
        aligned hasOperand (prog.words.take landing) = true

def Outcome.stopped : Outcome → Bool
  | .ret _ _ => true
  | .trap => true
  | _ => false

/-- The machine has stopped, or it has stored into its own words. -/
def Outcome.ended : Outcome → Bool
  | .clobbers => true
  | outcome => outcome.stopped

section Progress

variable {prog : Prog} {lib : Library} {first last : List Ins} {vm : Vm}

def Advances (prog : Prog) (lib : Library) (vm : Vm) (passed : List Ins)
    (depth : Nat) : Prop :=
  (∃ next, vm.step prog lib = .next next ∧
    next.At passed ∧
    next.stack.length = depth) ∨
  (vm.step prog lib).ended = true

variable {op : Op}

section

variable (at_ : vm.At first)
  (hwords : prog.words = wordsOf (first ++ Ins.plain op :: last))

include at_ hwords

private theorem library_advances (hop : op.isLibrary = true) :
    Advances prog lib vm (first ++ [Ins.plain op]) vm.stack.length := by
  have hstep : vm.step prog lib = _ := step_plain at_ hwords
  refine .inl ?_
  cases op <;> first | exact ⟨_, hstep, rfl, rfl⟩ | cases hop

private theorem operator_advances (hop : op.isOperator = true)
    (filled : vm.stack.length ≠ 0) :
    Advances prog lib vm (first ++ [Ins.plain op]) (vm.stack.length - 1) := by
  obtain ⟨top, rest, hstack⟩ := List.exists_cons_of_length_pos (Nat.pos_of_ne_zero filled)
  cases hbinary : op.binary with
  | some apply =>
    have hstep : vm.step prog lib = _ := step_binary at_ hwords hbinary hstack
    cases hvalue : apply top vm.a with
    | some value =>
      rw [hvalue] at hstep
      exact .inl ⟨_, hstep, rfl, by simp [hstack]⟩
    | none =>
      rw [hvalue] at hstep
      exact .inr (by rw [hstep]; rfl)
  | none =>
    have hstep : vm.step prog lib = _ := step_plain at_ hwords
    have htext : op = .wildcard ∨ op = .streq ∨ op = .strne := by
      simpa [Op.isOperator, hbinary, or_assoc] using hop
    refine .inl ?_
    rcases htext with rfl | rfl | rfl
    all_goals
      simp only [Vm.execute, Vm.operate, Vm.withTop, hstack] at hstep
      exact ⟨_, hstep, rfl, by simp [hstack]⟩

private theorem plain_advances
    (hflow : (Ins.plain op).flow vm.stack.length = some depth)
    (room : vm.stack.length < 512) :
    Advances prog lib vm (first ++ [Ins.plain op]) depth := by
  simp only [Ins.flow] at hflow
  split at hflow
  · rename_i hpush
    subst hpush
    cases hflow
    exact .inl ⟨_, step_psh at_ hwords room, rfl, rfl⟩
  · split at hflow
    · rename_i hop
      cases hflow
      rcases Bool.or_eq_true_iff.mp hop with hop | hop
      · exact library_advances at_ hwords hop
      · rw [beq_iff_eq] at hop
        subst hop
        exact .inr (by rw [step_exit at_ hwords]; rfl)
    · split at hflow
      · rename_i hop
        cases hflow
        simp only [Bool.and_eq_true, bne_iff_ne] at hop
        exact operator_advances at_ hwords hop.1 hop.2
      · cases hflow

end

private theorem wide_advances (at_ : vm.At first)
    (hwords : prog.words = wordsOf (first ++ Ins.wide op operand :: last))
    (still : op.isJump = false)
    (hflow : (Ins.wide op operand).flow vm.stack.length = some depth) :
    Advances prog lib vm (first ++ [Ins.wide op operand]) depth := by
  cases op with
  | imm =>
    cases hflow
    exact .inl ⟨_, step_imm at_ hwords, rfl, rfl⟩
  | li =>
    cases hflow
    unfold Advances
    rw [step_li at_ hwords, Vm.loadInt]
    split
    · exact .inl ⟨_, rfl, rfl, rfl⟩
    · exact .inr rfl
  | si =>
    simp only [Ins.flow] at hflow
    split at hflow
    · cases hflow
    · rename_i filled
      cases hflow
      obtain ⟨top, rest, hstack⟩ := List.exists_cons_of_length_pos (Nat.pos_of_ne_zero filled)
      unfold Advances
      rw [step_si at_ hwords, Vm.storeInt]
      simp only [Vm.withTop, hstack]
      split
      · split
        · exact .inr rfl
        · exact .inl ⟨_, rfl, rfl, by simp⟩
      · exact .inr rfl
  | adj =>
    simp only [Ins.flow] at hflow
    split at hflow
    · rename_i enough
      cases hflow
      unfold Advances
      rw [step_adj at_ hwords, Vm.adjust, if_pos enough]
      exact .inl ⟨_, rfl, rfl, by simp⟩
    · cases hflow
  | jmp => cases still
  | bz => cases still
  | bnz => cases still
  | _ => cases hflow

end Progress

section Stream

theorem split_body (split : code ++ [Ins.plain .exit] = first ++ ins :: last)
    (filled : last ≠ []) :
    ∃ rest, last = rest ++ [Ins.plain .exit] ∧ code = first ++ ins :: rest := by
  obtain ⟨rest, final, rfl⟩ := (List.eq_nil_or_concat last).resolve_left filled
  rw [List.concat_eq_append, ← List.cons_append, ← List.append_assoc] at split
  obtain ⟨hcode, hfinal⟩ := List.append_inj' split rfl
  exact ⟨rest, by rw [List.concat_eq_append, ← hfinal], hcode⟩

theorem step_lands (lib : Library)
    (hwords : prog.words = wordsOf (code ++ [Ins.plain .exit]))
    (emitted : Emitted rules prog.insn 1 code)
    (bound : prog.words.length ≤ 1023) {first rest : List Ins} {ins : Ins}
    {vm : Vm} (split : code = first ++ ins :: rest) (at_ : vm.At first)
    (hdepth : flow first 0 = some vm.stack.length) :
    (vm.step prog lib).ended = true ∨
    ∃ next middle last, vm.step prog lib = .next next ∧
      rest = middle ++ last ∧
      next.At (first ++ ins :: middle) ∧
      flow (first ++ ins :: middle) 0 = some next.stack.length := by
  have hprogram : prog.words = wordsOf (first ++ ins :: (rest ++ [Ins.plain .exit])) := by
    rw [hwords, split]
    simp
  have hsize : size first + size (ins :: rest) ≤ 1022 := by
    have hlength := congrArg List.length hprogram
    have hall : size (first ++ ins :: (rest ++ [Ins.plain .exit])) =
        size first + size (ins :: rest) + 1 := by
      rw [← List.cons_append, ← List.append_assoc, size_append, size_append]
      rfl
    rw [← size, hall] at hlength
    omega
  have hflow : ∃ depth, ins.flow vm.stack.length = some depth := by
    have hall := emitted.piece.flows 0
    rw [split, flow_append, hdepth, Option.bind_some, flow_cons] at hall
    obtain ⟨depth, hins, -⟩ := Option.bind_eq_some_iff.mp hall
    exact ⟨depth, hins⟩
  have room : vm.stack.length < 512 := by
    have hshallow := emitted.shallow first (ins :: rest) 0 vm.stack.length split hdepth
    have hins : 1 ≤ size (ins :: rest) := by
      cases ins with
      | plain op => rw [size_plain]; omega
      | wide op operand => rw [size_wide]; omega
    omega
  obtain ⟨depth, hflow⟩ := hflow
  have behind : Advances prog lib vm (first ++ [ins]) depth →
      (vm.step prog lib).ended = true ∨ ∃ next middle last,
        vm.step prog lib = .next next ∧ rest = middle ++ last ∧ next.At (first ++ ins :: middle) ∧
          flow (first ++ ins :: middle) 0 = some next.stack.length := by
    rintro (⟨next, hstep, hat, hdeep⟩ | hstop)
    · refine .inr ⟨next, [], rest, hstep, rfl, hat, ?_⟩
      rw [flow_append, hdepth, Option.bind_some, flow_cons, hflow, hdeep]
      rfl
    · exact .inl hstop
  cases ins with
  | plain op => exact behind (plain_advances at_ hprogram hflow room)
  | wide op target =>
    cases hjump : op.isJump with
    | false => exact behind (wide_advances at_ hprogram hjump hflow)
    | true =>
      obtain ⟨middle, last, rfl, htarget, hneutral, -⟩ :=
        emitted.piece.jumps first op target rest split hjump
      rw [flow_jump hjump] at hflow
      cases hflow
      have hindex : 1 + size first + 2 + size middle ≤ 2048 := by
        rw [size_wide, size_append] at hsize
        omega
      have hstep : vm.step prog lib = _ := step_jump at_ hprogram hjump htarget hindex
      refine .inr ?_
      cases htaken : op.taken vm.a with
      | true =>
        rw [htaken] at hstep
        refine ⟨_, middle, last, hstep, rfl, ?_, ?_⟩
        · simp only [Vm.At, size_append, size_wide, if_true]
          omega
        · rw [flow_append, hdepth, Option.bind_some, flow_cons,
            flow_jump hjump, Option.bind_some, hneutral]
      | false =>
        rw [htaken] at hstep
        refine ⟨_, [], middle ++ last, hstep, rfl, rfl, ?_⟩
        rw [flow_append, hdepth, Option.bind_some, flow_cons, flow_jump hjump]
        rfl

private theorem run_ends (lib : Library)
    (hwords : prog.words = wordsOf (code ++ [Ins.plain .exit]))
    (emitted : Emitted rules prog.insn 1 code)
    (bound : prog.words.length ≤ 1023) (fuel : Nat) {first last : List Ins}
    {vm : Vm} (split : code ++ [Ins.plain .exit] = first ++ last)
    (filled : last ≠ []) (hfuel : last.length ≤ fuel) (at_ : vm.At first)
    (hdepth : flow first 0 = some vm.stack.length) :
    (vm.run prog lib fuel).ended = true := by
  induction fuel generalizing first last vm with
  | zero => exact absurd (List.length_eq_zero_iff.mp (by omega)) filled
  | succ fuel ih =>
    have hrun : (vm.step prog lib).ended = true →
        (vm.run prog lib (fuel + 1)).ended = true := by
      intro hstop
      unfold Vm.run
      cases hstep : vm.step prog lib with
      | next vm =>
        rw [hstep] at hstop
        cases hstop
      | _ => rw [hstep] at hstop; exact hstop
    cases last with
    | nil => exact absurd rfl filled
    | cons ins last =>
      by_cases hlast : last = []
      · subst hlast
        obtain ⟨-, hins⟩ := List.append_inj' split rfl
        cases hins
        refine hrun ?_
        rw [step_exit at_ (hwords.trans (congrArg wordsOf split))]
        rfl
      · obtain ⟨rest, rfl, hcode⟩ := split_body split hlast
        rcases step_lands lib hwords emitted bound hcode at_ hdepth with
          hstop | ⟨next, middle, final, hstep, rfl, hat, hdeep⟩
        · exact hrun hstop
        · unfold Vm.run
          rw [hstep]
          have hsplit : code ++ [Ins.plain .exit] =
              (first ++ ins :: middle) ++ (final ++ [Ins.plain .exit]) := by
            rw [split]
            simp
          refine ih hsplit (by simp) ?_ hat hdeep
          simp only [List.length_cons, List.length_append] at hfuel ⊢
          omega

private theorem aligned_split (hvalid : ∀ ins ∈ code, ins.valid = true)
    (haligned : aligned hasOperand ((wordsOf code).take place) = true)
    (inside : place < size code) :
    ∃ first ins last, code = first ++ ins :: last ∧ size first = place := by
  induction code generalizing place with
  | nil => exact absurd inside (Nat.not_lt_zero place)
  | cons ins rest ih =>
    have hrest := fun other member => hvalid other (List.mem_cons_of_mem ins member)
    have hfirst := hvalid ins List.mem_cons_self
    cases place with
    | zero => exact ⟨[], ins, rest, rfl, rfl⟩
    | succ place =>
      cases ins with
      | plain op =>
        have narrow : hasOperand op.word = false := by simpa [Ins.valid] using hfirst
        change aligned hasOperand (op.word :: (wordsOf rest).take place) = true at haligned
        rw [aligned_narrow hasOperand narrow] at haligned
        rw [size_plain] at inside
        obtain ⟨first, ins, last, rfl, hsize⟩ := ih hrest haligned (by omega)
        refine ⟨.plain op :: first, ins, last, rfl, ?_⟩
        rw [size_plain, hsize]
        omega
      | wide op operand =>
        have hwide : hasOperand op.word = true := hfirst
        cases place with
        | zero =>
          change aligned hasOperand [op.word] = true at haligned
          simp [aligned, hwide] at haligned
        | succ place =>
          change aligned hasOperand (op.word :: operand :: (wordsOf rest).take place) = true
              at haligned
          rw [aligned_wide hasOperand hwide] at haligned
          rw [size_wide] at inside
          obtain ⟨first, ins, last, rfl, hsize⟩ := ih hrest haligned (by omega)
          refine ⟨.wide op operand :: first, ins, last, rfl, ?_⟩
          rw [size_wide, hsize]
          omega

private theorem isJump_of_isBranchWord {op : Op}
    (hbranch : isBranchWord op.word = true) : op.isJump = true := by
  revert hbranch
  cases op <;> decide

private theorem Emitted.wellFormed
    (hwords : prog.words = wordsOf (code ++ [Ins.plain .exit]))
    (emitted : Emitted rules prog.insn 1 code) : WellFormed prog where
  exits := by
    rw [hwords, wordsOf_append]
    exact List.getLast?_concat
  decodes := by
    rw [hwords, wordsOf_append]
    change aligned hasOperand (wordsOf code ++ [Op.exit.word]).dropLast = true
    rw [List.dropLast_concat]
    exact aligned_wordsOf emitted.piece.valid
  lands := by
    intro place word target haligned hword hbranch htarget
    have hvalid : ∀ ins ∈ code ++ [Ins.plain .exit], ins.valid = true :=
      valid_snoc emitted.piece.valid rfl
    rw [hwords] at haligned hword htarget
    obtain ⟨inside, -⟩ := List.getElem?_eq_some_iff.mp hword
    obtain ⟨first, ins, last, hsplit, hsize⟩ := aligned_split hvalid haligned inside
    have hop : word = ins.op.word := by
      have hfetch := word?_at (hwords.trans (congrArg wordsOf hsplit))
      rw [Prog.word?, if_neg (by omega), hwords, hsize, Nat.add_comm,
        Nat.add_sub_cancel, hword] at hfetch
      exact Option.some.inj hfetch
    rw [hop] at hbranch
    have hjump := isJump_of_isBranchWord hbranch
    cases ins with
    | plain op =>
      have hmember : Ins.plain op ∈ code ++ [Ins.plain .exit] := by simp [hsplit]
      have hnarrow := hvalid _ hmember
      have hwide : hasOperand op.word = true := isJump_hasOperand hjump
      simp [Ins.valid, hwide] at hnarrow
    | wide op operand =>
      have hoperand : target = operand := by
        have hfetch := operand_at (hwords.trans (congrArg wordsOf hsplit))
        rw [Prog.word?, if_neg (by omega), hwords, hsize,
          Nat.add_comm 1, Nat.add_sub_cancel, htarget] at hfetch
        exact Option.some.inj hfetch
      have hfilled : last ≠ [] := by
        rintro rfl
        obtain ⟨-, hexit⟩ := List.append_inj' hsplit rfl
        cases hexit
      obtain ⟨rest, rfl, hcode⟩ := split_body hsplit hfilled
      obtain ⟨middle, behind, rfl, hland, -, -⟩ :=
        emitted.piece.jumps first op operand rest hcode hjump
      refine ⟨place + 2 + size middle, ?_, by omega, ?_, ?_⟩
      · rw [hoperand, hland, hsize]
        congr 1
        omega
      · have hlength : prog.words.length = size (code ++ [Ins.plain .exit]) := by rw [hwords, size]
        rw [hlength, hcode, ← hsize]
        simp only [size_append, size_wide, size_plain, size_nil]
        omega
      · have hfront : prog.words = wordsOf (first ++ Ins.wide op operand :: middle) ++
              wordsOf (behind ++ [Ins.plain .exit]) := by
          rw [hwords, hcode]
          simp
        have hplace : place + 2 + size middle =
            (wordsOf (first ++ Ins.wide op operand :: middle)).length := by
          rw [← size, ← hsize]
          simp only [size_append, size_wide]
          omega
        rw [hfront, hplace, List.take_left]
        refine aligned_wordsOf fun ins member => emitted.piece.valid ins ?_
        rw [hcode]
        simp only [List.mem_append, List.mem_cons] at member ⊢
        rcases member with member | member | member
        · exact .inl member
        · exact .inr (.inl member)
        · exact .inr (.inr (.inl member))

theorem length_le_size (code : List Ins) : code.length ≤ size code := by
  induction code with
  | nil => exact Nat.le_refl 0
  | cons ins rest ih =>
    cases ins with
    | plain op => rw [size_plain, List.length_cons]; omega
    | wide op operand => rw [size_wide, List.length_cons]; omega

theorem Emitted.ends (hwords : prog.words = wordsOf (code ++ [Ins.plain .exit]))
    (emitted : Emitted rules prog.insn 1 code)
    (bound : prog.words.length ≤ 1023)
    (lib : Library)
    (mem : Mem) :
    ((Vm.start mem).run prog lib prog.nrInsn).ended = true := by
  have hlength : prog.words.length = size (code ++ [Ins.plain .exit]) := by rw [hwords, size]
  have hsize := length_le_size (code ++ [Ins.plain .exit])
  refine run_ends lib hwords emitted bound prog.nrInsn (List.nil_append _).symm
    (by simp) ?_ rfl rfl
  rw [Prog.nrInsn, hlength]
  omega

end Stream

def everyLookRight (le : Word) (trace : List Event) : Bool :=
  trace.all fun event =>
    match event with
    | .look code => looksRight le code
    | .cast code type => castRight code type
    | _ => true

def lookRules : Rules where
  field := fun _ => false
  swaps := false

theorem right_of_everyLookRight (right : everyLookRight le trace = true) :
    ∀ event ∈ trace, event.right lookRules le = true := by
  intro event member
  have hevent := List.all_eq_true.mp right event member
  cases event with
  | look code => exact hevent
  | cast code type => exact hevent
  | deref code => simp [Event.right, derefRight, lookRules]
  | call opcode count => simp [Event.right, lookRules]

def plainAlloc : Alloc where
  le := 0x10000
  insn := 0x20000
  data := 0x30000
  str := 0x40000
  glo := 0x50000
  ival := 0

def plainDeclares : List Declare :=
  [⟨text "c", 0, 4, 4, false⟩, ⟨text "p", 4, 4, 1, false⟩,
    ⟨text "q", 8, 4, 1, false⟩]

theorem ok_of_view {α β : Type} {result : Except Failure α} {view : α → β}
    {seen : β} (hview : result.toOption.map view = some seen) :
    ∃ value, result = .ok value ∧ view value = seen := by
  obtain ⟨value, hvalue, hseen⟩ := Option.map_eq_some_iff.mp hview
  cases result with
  | error failure => cases hvalue
  | ok other =>
    cases hvalue
    exact ⟨value, rfl, hseen⟩

end PerfProf.Expr
