import PerfProf.Expr.Code

namespace PerfProf.Expr

/-! One round of the machine on a program that is a list of instructions. -/

section Fetch

variable {prog : Prog} {first last : List Ins}

theorem word?_at (hwords : prog.words = wordsOf (first ++ ins :: last)) :
    prog.word? (1 + size first) = some ins.op.word := by
  have hplace : (wordsOf (first ++ ins :: last))[size first]? = some ins.op.word := by
    rw [wordsOf_append, size, List.getElem?_append_right (Nat.le_refl _)]
    cases ins <;> simp [Ins.words, Ins.op]
  simpa [Prog.word?, hwords, Nat.add_comm 1] using hplace

theorem operand_at
    (hwords : prog.words = wordsOf (first ++ Ins.wide op operand :: last)) :
    prog.word? (1 + size first + 1) = some operand := by
  have hplace : (wordsOf (first ++ Ins.wide op operand :: last))[
      size first + 1]? = some operand := by
    rw [wordsOf_append, size, List.getElem?_append_right (Nat.le_succ _)]
    simp [Ins.words]
  simpa [Prog.word?, hwords, Nat.add_comm 1] using hplace

theorem index?_address (bound : index ≤ 2048) :
    prog.index? (address prog.insn index) = some index := by
  have hdistance : (address prog.insn index - prog.insn).toNat = 8 * index := by
    have hcancel : address prog.insn index - prog.insn = BitVec.ofNat 64 (8 * index) := by
      unfold address
      grind
    rw [hcancel, BitVec.toNat_ofNat]
    omega
  simp [Prog.index?, hdistance]

end Fetch

section Step

variable {prog : Prog} {lib : Library} {first last : List Ins} {vm : Vm}

def Vm.At (vm : Vm) (first : List Ins) : Prop := vm.pc = 1 + size first

variable {op : Op}

variable (at_ : vm.At first)

include at_

theorem step_plain
    (hwords : prog.words = wordsOf (first ++ Ins.plain op :: last)) :
    vm.step prog lib =
      Vm.execute prog lib op
        { vm with pc := 1 + size (first ++ [Ins.plain op]) } := by
  have hfetch := word?_at hwords
  rw [← at_] at hfetch
  simp only [Vm.step, hfetch, Ins.op, Op.ofWord?_word]
  rw [at_, size_append]
  rfl

theorem step_wide
    (hwords : prog.words = wordsOf (first ++ Ins.wide op operand :: last))
    (use : Word → Vm → Outcome)
    (hexecute : ∀ vm : Vm, Vm.execute prog lib op vm =
      vm.withOperand prog use) :
    vm.step prog lib =
      use operand
        { vm with pc := 1 + size (first ++ [Ins.wide op operand]) } := by
  have hfetch := word?_at hwords
  have hoperand := operand_at hwords
  rw [← at_] at hfetch hoperand
  simp only [Vm.step, hfetch, Ins.op, Op.ofWord?_word, hexecute, Vm.withOperand, hoperand]
  rw [at_, size_append]
  rfl

theorem step_imm
    (hwords : prog.words = wordsOf (first ++ Ins.wide .imm value :: last)) :
    vm.step prog lib = .next
      { vm with a := value, pc := 1 + size (first ++ [Ins.wide .imm value]) } :=
  step_wide at_ hwords (fun operand vm => .next { vm with a := operand }) fun _ => rfl

theorem step_li
    (hwords : prog.words = wordsOf (first ++ Ins.wide .li type :: last)) :
    vm.step prog lib =
      Vm.loadInt type
        { vm with pc := 1 + size (first ++ [Ins.wide .li type]) } :=
  step_wide at_ hwords (fun operand vm => vm.loadInt operand) fun _ => rfl

theorem step_si
    (hwords : prog.words = wordsOf (first ++ Ins.wide .si type :: last)) :
    vm.step prog lib =
      Vm.storeInt prog lib type
        { vm with pc := 1 + size (first ++ [Ins.wide .si type]) } :=
  step_wide at_ hwords (fun operand vm => vm.storeInt prog lib operand)
    fun _ => rfl

theorem step_adj
    (hwords : prog.words = wordsOf (first ++ Ins.wide .adj count :: last)) :
    vm.step prog lib =
      Vm.adjust count
        { vm with pc := 1 + size (first ++ [Ins.wide .adj count]) } :=
  step_wide at_ hwords (fun operand vm => vm.adjust operand) fun _ => rfl

def Op.taken (op : Op) (a : Word) : Bool :=
  match op with
  | .bz => a == 0
  | .bnz => a != 0
  | _ => true

theorem step_jump
    (hwords : prog.words = wordsOf (first ++ Ins.wide op target :: last))
    (hjump : op.isJump = true) (htarget : target = address prog.insn index)
    (bound : index ≤ 2048) :
    vm.step prog lib = .next { vm with
      pc := if op.taken vm.a then index
        else 1 + size (first ++ [Ins.wide op target]) } := by
  have hland : ∀ vm : Vm, Vm.jump prog target vm = .next { vm with pc := index } := by
    intro vm
    rw [Vm.jump, htarget, index?_address bound]
  cases op with
  | jmp =>
    rw [step_wide at_ hwords (fun operand vm => vm.jump prog operand) fun _ => rfl, hland]
    rfl
  | bz =>
    rw [step_wide at_ hwords (fun operand vm =>
      if vm.a = 0 then vm.jump prog operand else .next vm) fun _ => rfl]
    simp only [hland, Op.taken, beq_iff_eq]
    split <;> rfl
  | bnz =>
    rw [step_wide at_ hwords (fun operand vm =>
      if vm.a = 0 then .next vm else vm.jump prog operand) fun _ => rfl]
    simp only [hland, Op.taken, bne_iff_ne]
    by_cases hzero : vm.a = 0#64 <;> simp [hzero]
  | _ => cases hjump

theorem step_psh
    (hwords : prog.words = wordsOf (first ++ Ins.plain .psh :: last))
    (room : vm.stack.length < 512) :
    vm.step prog lib = .next { vm with
      stack := vm.a :: vm.stack
      pc := 1 + size (first ++ [Ins.plain .psh]) } := by
  rw [step_plain at_ hwords]
  simp [Vm.execute, Vm.push, room]

theorem step_exit
    (hwords : prog.words = wordsOf (first ++ Ins.plain .exit :: last)) :
    vm.step prog lib =
      .ret vm.a { vm with pc := 1 + size (first ++ [Ins.plain .exit]) } :=
  step_plain at_ hwords

theorem step_binary {apply : Word → Word → Option Word}
    (hwords : prog.words = wordsOf (first ++ Ins.plain op :: last))
    (hbinary : op.binary = some apply) (hstack : vm.stack = top :: rest) :
    vm.step prog lib =
      match apply top vm.a with
      | some value => .next
          { vm with
            a := value, stack := rest
            pc := 1 + size (first ++ [Ins.plain op]) }
      | none => .trap := by
  have hexecute : ∀ vm : Vm, Vm.execute prog lib op vm = vm.operate lib op ∧
        vm.operate lib op = vm.withTop fun top rest =>
          match apply top rest.a with
          | some value => .next { rest with a := value }
          | none => .trap := by
    intro vm
    cases op <;> cases hbinary <;> exact ⟨rfl, rfl⟩
  rw [step_plain at_ hwords, (hexecute _).1, (hexecute _).2]
  simp [Vm.withTop, hstack]

end Step

end PerfProf.Expr
