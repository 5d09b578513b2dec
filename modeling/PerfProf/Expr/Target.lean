import PerfProf.Expr.Execution
import PerfProf.Expr.Relocation
import PerfProf.Expr.Source

namespace PerfProf.Expr

def BinOp.opcode (op : BinOp) (unsigned : Bool) : Op :=
  match op with
  | .mul => .mul
  | .div => if unsigned then .divu else .div
  | .mod => if unsigned then .modu else .mod
  | .add => .add
  | .sub => .sub
  | .shl => .shl
  | .shr => if unsigned then .shr else .sar
  | .lt => if unsigned then .ltu else .lt
  | .gt => if unsigned then .gtu else .gt
  | .le => if unsigned then .leu else .le
  | .ge => if unsigned then .geu else .ge
  | .eq => .eq
  | .ne => .ne
  | .and => .and
  | .xor => .xor
  | .or => .or

namespace Tree

def literal? : Tree → Option Word
  | .lit value => some value
  | _ => none

def words : Tree → Nat
  | .lit _ => 2
  | .field _ => 4
  | .paren inner => inner.words
  | .not inner => inner.words + 4
  | .complement inner => inner.words + 4
  | .plus inner => inner.words
  | .neg inner => if inner.literal?.isSome then 2 else inner.words + 4
  | .bin _ left right => left.words + right.words + 2
  | .land left right => left.words + right.words + 2
  | .lor left right => left.words + right.words + 2
  | .cond test left right => test.words + left.words + right.words + 4

/-- The code for a record at `data`, in a buffer at `le`, from the word with the
index `start` on. -/
def code (data le : Word) : Nat → Tree → List Ins
  | _, .lit value => [Ins.wide .imm value]
  | _, .field declare =>
    [Ins.wide .imm (data + BitVec.ofNat 64 declare.offset),
      Ins.wide .li (ofType (declare.type.getD 0))]
  | start, .paren inner => code data le start inner
  | start, .not inner =>
    code data le start inner ++ [Ins.plain .psh, Ins.wide .imm 0, Ins.plain .eq]
  | start, .complement inner =>
    code data le start inner ++ [Ins.plain .psh, Ins.wide .imm (-1), Ins.plain .xor]
  | start, .plus inner => code data le start inner
  | start, .neg inner =>
    match inner.literal? with
    | some value => [Ins.wide .imm (-value)]
    | none =>
      Ins.wide .imm (-1) :: Ins.plain .psh :: (code data le (start + 3) inner ++ [Ins.plain .mul])
  | start, .bin op left right =>
    code data le start left ++ Ins.plain .psh :: (code data le (start + left.words + 1) right ++
        [Ins.plain (op.opcode (left.unsigned || right.unsigned))])
  | start, .land left right =>
    code data le start left ++ Ins.wide .bz (address le (start + left.words + right.words + 2)) ::
        code data le (start + left.words + 2) right
  | start, .lor left right =>
    code data le start left ++ Ins.wide .bnz (address le (start + left.words + right.words + 2)) ::
        code data le (start + left.words + 2) right
  | start, .cond test left right =>
    code data le start test ++ Ins.wide .bz (address le (start + test.words + left.words + 4)) ::
        (code data le (start + test.words + 2) left ++ Ins.wide .jmp (address le (start + test.words
          + left.words + right.words + 4)) :: code data le (start + test.words + left.words + 4)
          right)

theorem literal?_eq_some {tree : Tree} {value : Word}
    (hliteral : tree.literal? = some value) : tree = .lit value := by
  cases tree <;> cases hliteral
  rfl

theorem two_le_words (tree : Tree) : 2 ≤ tree.words := by
  induction tree with
  | lit _ => exact Nat.le_refl 2
  | field _ => simp [words]
  | paren inner ih => exact ih
  | plus inner ih => exact ih
  | neg inner ih =>
    rw [words]
    split <;> omega
  | _ => simp only [words]; omega

theorem size_code (data le : Word) (start : Nat) (tree : Tree) :
    size (tree.code data le start) = tree.words := by
  induction tree generalizing start with
  | lit _ => rfl
  | field _ => rfl
  | paren inner ih => exact ih start
  | plus inner ih => exact ih start
  | not inner ih => simp [code, words, ih]
  | complement inner ih => simp [code, words, ih]
  | neg inner ih =>
    rw [code, words]
    cases inner.literal? with
    | some value => rfl
    | none =>
      simp [ih]
      omega
  | bin op left right first second =>
    simp [code, words, first, second]
    omega
  | land left right first second =>
    simp [code, words, first, second]
    omega
  | lor left right first second =>
    simp [code, words, first, second]
    omega
  | cond test left right first second third =>
    simp [code, words, first, second, third]
    omega

theorem code_moved (data le insn : Word) (start : Nat) (tree : Tree) :
    movedCode (le - insn) (tree.code data le start) =
      tree.code data insn start := by
  have hplain : ∀ op, Ins.moved (le - insn) (Ins.plain op) = Ins.plain op := fun _ => rfl
  have himm : ∀ value, Ins.moved (le - insn) (Ins.wide .imm value) = Ins.wide .imm value :=
    fun _ => rfl
  have hli : ∀ type, Ins.moved (le - insn) (Ins.wide .li type) = Ins.wide .li type := fun _ => rfl
  have hjump : ∀ op index, op.isJump = true →
      Ins.moved (le - insn) (Ins.wide op (address le index)) =
        Ins.wide op (address insn index) := by
    intro op index hop
    rw [Ins.moved, if_pos (isJumpWord_of_isJump hop), address_moved]
  unfold movedCode
  induction tree generalizing start with
  | lit value => exact congrArg (fun ins => [ins]) (himm value)
  | field declare => simp [code, himm, hli]
  | paren inner ih => exact ih start
  | plus inner ih => exact ih start
  | not inner ih => simp [code, ih, hplain, himm]
  | complement inner ih => simp [code, ih, hplain, himm]
  | neg inner ih =>
    rw [code, code]
    cases inner.literal? with
    | some value => exact congrArg (fun ins => [ins]) (himm (-value))
    | none => simp [ih, hplain, himm]
  | bin op left right first second => simp [code, first, second, hplain]
  | land left right first second => simp [code, first, second, hjump .bz _ rfl]
  | lor left right first second => simp [code, first, second, hjump .bnz _ rfl]
  | cond test left right first second third =>
    simp [code, first, second, third, hjump .bz _ rfl, hjump .jmp _ rfl]

end Tree

theorem overflow_iff (left right : Word) :
    left.toInt = -2 ^ 63 ∧ right.toInt = -1 ↔
      left = BitVec.intMin 64 ∧ right = -1 := by
  rw [← BitVec.toInt_inj, ← BitVec.toInt_inj]
  rfl

theorem tdiv_eq_sdiv (left right : Word) :
    BitVec.ofInt 64 (left.toInt.tdiv right.toInt) = left.sdiv right := by
  apply BitVec.eq_of_toInt_eq
  rw [BitVec.toInt_sdiv, BitVec.toInt_ofInt]

theorem tmod_eq_srem (left right : Word) :
    BitVec.ofInt 64 (left.toInt.tmod right.toInt) = left.srem right := by
  rw [← BitVec.toInt_srem, BitVec.ofInt_toInt]

theorem BinOp.opcode_eval {op : BinOp} {unsigned : Bool}
    {left right value : Word}
    (heval : op.eval unsigned left right = some value) :
    ∃ apply, (op.opcode unsigned).binary = some apply ∧
      apply left right = some value := by
  cases op with
  | div =>
    cases unsigned with
    | true => exact ⟨_, rfl, heval⟩
    | false =>
      refine ⟨_, rfl, ?_⟩
      simp only [BinOp.eval, overflow_iff, tdiv_eq_sdiv] at heval
      grind
  | mod =>
    cases unsigned with
    | true => exact ⟨_, rfl, heval⟩
    | false =>
      refine ⟨_, rfl, ?_⟩
      simp only [BinOp.eval, overflow_iff, tmod_eq_srem] at heval
      grind
  | shl =>
    refine ⟨_, rfl, ?_⟩
    simp only [BinOp.eval] at heval
    split at heval
    next hless => rwa [Nat.mod_eq_of_lt hless]
    next => cases heval
  | shr =>
    cases unsigned <;> refine ⟨_, rfl, ?_⟩
    all_goals
      simp only [BinOp.eval] at heval
      split at heval
      next hless => rwa [Nat.mod_eq_of_lt hless]
      next => cases heval
  | ne =>
    rw [BinOp.eval, decide_not, ← beq_eq_decide] at heval
    exact ⟨_, rfl, heval⟩
  | _ => cases unsigned <;> exact ⟨_, rfl, heval⟩

theorem Declare.Scalar.type_eq {declare : Declare} (scalar : declare.Scalar) :
    ∃ width, width < 4 ∧
      declare.elementsize = 2 ^ width ∧
      declare.type =
        some (if declare.isUnsigned then width + UNSIGNED else width) := by
  obtain ⟨hsize, hbasic⟩ := scalar
  have hcases : declare.elementsize = 2 ^ 0 ∨ declare.elementsize = 2 ^ 1 ∨
      declare.elementsize = 2 ^ 2 ∨ declare.elementsize = 2 ^ 3 := by
    unfold basicType at hbasic
    split at hbasic <;> simp_all
  rcases hcases with hwidth | hwidth | hwidth | hwidth
  all_goals
    refine ⟨_, ?_, hwidth, ?_⟩
    · decide
    · rw [Declare.type, hwidth, hsize, hwidth]
      cases declare.isUnsigned <;> rfl

theorem Declare.Scalar.load {declare : Declare} (scalar : declare.Scalar)
    (data : Word) (mem : Mem) :
    loadTyped mem (data + BitVec.ofNat 64 declare.offset)
      (ofType (declare.type.getD 0)) = some (declare.content data mem) := by
  obtain ⟨width, hless, hwidth, htype⟩ := scalar.type_eq
  rw [htype, Declare.content, hwidth]
  generalize data + BitVec.ofNat 64 declare.offset = addr
  have hcases : width = 0 ∨ width = 1 ∨ width = 2 ∨ width = 3 := by omega
  cases declare.isUnsigned with
  | true =>
    rcases hcases with rfl | rfl | rfl | rfl <;> simp [loadTyped, ofType, UNSIGNED]
  | false =>
    rcases hcases with rfl | rfl | rfl | rfl <;>
      simp [loadTyped, ofType, Mem.signExtended, Mem.zeroExtended]

namespace Vm

def Moves (prog : Prog) (lib : Library) (vm after : Vm) : Prop :=
  ∃ rounds, ∀ fuel, run prog lib (rounds + fuel) vm = run prog lib fuel after

variable {prog : Prog} {lib : Library} {vm middle after : Vm}

theorem Moves.refl : Moves prog lib vm vm :=
  ⟨0, fun fuel => by rw [Nat.zero_add]⟩

theorem Moves.head (hstep : vm.step prog lib = .next middle)
    (rest : Moves prog lib middle after) : Moves prog lib vm after := by
  obtain ⟨rounds, hrun⟩ := rest
  refine ⟨rounds + 1, fun fuel => ?_⟩
  rw [Nat.add_right_comm, run, hstep]
  exact hrun fuel

theorem Moves.trans (first : Moves prog lib vm middle)
    (second : Moves prog lib middle after) : Moves prog lib vm after := by
  obtain ⟨some, hfirst⟩ := first
  obtain ⟨more, hsecond⟩ := second
  refine ⟨some + more, fun fuel => ?_⟩
  rw [Nat.add_assoc, hfirst, hsecond]

def done (vm : Vm) (value : Word) (passed : List Ins) : Vm :=
  { vm with a := value, pc := 1 + size passed }

def pushed (vm : Vm) (word : Word) : Vm := { vm with stack := word :: vm.stack }

end Vm

def Prog.Has (prog : Prog) (first code : List Ins) : Prop :=
  ∃ last, prog.words = wordsOf (first ++ (code ++ last))

namespace Prog.Has

variable {prog : Prog} {first before behind : List Ins} {ins : Ins}

theorem left (has : prog.Has first (before ++ behind)) :
    prog.Has first before := by
  obtain ⟨last, hwords⟩ := has
  exact ⟨behind ++ last, by rw [hwords, List.append_assoc]⟩

theorem right (has : prog.Has first (before ++ behind)) :
    prog.Has (first ++ before) behind := by
  obtain ⟨last, hwords⟩ := has
  exact ⟨last, by rw [hwords, List.append_assoc, List.append_assoc]⟩

theorem head (has : prog.Has first (ins :: behind)) : prog.Has first [ins] := by
  obtain ⟨last, hwords⟩ := has
  exact ⟨behind ++ last, hwords⟩

theorem tail (has : prog.Has first (ins :: behind)) :
    prog.Has (first ++ [ins]) behind := by
  obtain ⟨last, hwords⟩ := has
  exact ⟨last, by rw [hwords, List.append_assoc]; rfl⟩

end Prog.Has

namespace Vm

variable {prog : Prog} {lib : Library} {vm : Vm} {first left right : List Ins}
  {value : Word}

theorem at_done : (vm.done value first).At first := rfl

theorem Moves.imm (has : prog.Has first [Ins.wide .imm value])
    (at_ : vm.At first) :
    Moves prog lib vm (vm.done value (first ++ [Ins.wide .imm value])) := by
  obtain ⟨last, hwords⟩ := has
  exact Moves.head (step_imm at_ hwords) Moves.refl

variable {op : Op}

variable {one target : Word}

theorem Moves.binary {apply : Word → Word → Option Word}
    (has : prog.Has first (left ++ Ins.plain .psh :: (right ++ [Ins.plain op])))
    (hleft : Moves prog lib vm (vm.done one (first ++ left)))
    (room : vm.stack.length < 512)
    (hright : Moves prog lib
      ((vm.pushed one).done one (first ++ left ++ [Ins.plain .psh]))
      ((vm.pushed one).done other (first ++ left ++ [Ins.plain .psh] ++ right)))
    (hbinary : op.binary = some apply) (happly : apply one other = some value) :
    Moves prog lib vm (vm.done value
      (first ++ (left ++ Ins.plain .psh :: (right ++ [Ins.plain op])))) := by
  obtain ⟨rest, hpush⟩ := has.right.head
  obtain ⟨last, hop⟩ := has.right.tail.right
  refine hleft.trans (Moves.head (step_psh at_done hpush room) (hright.trans (Moves.head
    ((step_binary at_done hop hbinary rfl).trans ?_) Moves.refl)))
  rw [done, happly]
  simp [done, pushed]

theorem Moves.taken (has : prog.Has first [Ins.wide op target])
    (hjump : op.isJump = true)
    (htarget : target =
      address prog.insn (1 + size (first ++ Ins.wide op target :: middle)))
    (bound : size (first ++ Ins.wide op target :: middle) ≤ 1023)
    (taken : op.taken value = true) :
    Moves prog lib (vm.done value first)
      (vm.done value (first ++ Ins.wide op target :: middle)) :=
    by
  obtain ⟨last, hwords⟩ := has
  refine Moves.head ((step_jump at_done hwords hjump htarget (by omega)).trans ?_) Moves.refl
  rw [done, if_pos taken]
  rfl

theorem Moves.passed (has : prog.Has first [Ins.wide op target])
    (hjump : op.isJump = true) (htarget : target = address prog.insn index)
    (bound : index ≤ 2048) (passed : op.taken value = false) :
    Moves prog lib (vm.done value first)
      (vm.done value (first ++ [Ins.wide op target])) := by
  obtain ⟨last, hwords⟩ := has
  refine Moves.head ((step_jump at_done hwords hjump htarget bound).trans ?_) Moves.refl
  rw [done, passed]
  rfl

theorem Moves.branch
    (has : prog.Has first (left ++ Ins.wide op target :: right))
    (hjump : op.isJump = true)
    (htarget : target =
      address prog.insn
        (1 + size (first ++ left ++ Ins.wide op target :: right)))
    (bound : size (first ++ left ++ Ins.wide op target :: right) ≤ 1023)
    (hleft : Moves prog lib vm (vm.done one (first ++ left)))
    (decided : op.taken one = true → value = one)
    (hright : op.taken one = false →
      Moves prog lib (vm.done one (first ++ left ++ [Ins.wide op target]))
        (vm.done value (first ++ left ++ [Ins.wide op target] ++ right))) :
    Moves prog lib vm
      (vm.done value (first ++ (left ++ Ins.wide op target :: right))) := by
  refine hleft.trans ?_
  rw [← List.append_assoc]
  cases htaken : op.taken one with
  | true =>
    rw [decided htaken]
    exact Moves.taken has.right.head hjump htarget bound htaken
  | false =>
    have hjumped : first ++ left ++ Ins.wide op target :: right =
        first ++ left ++ [Ins.wide op target] ++ right := by
      simp
    rw [hjumped]
    exact (Moves.passed has.right.head hjump htarget (by omega) htaken).trans (hright htaken)

theorem Moves.conditional
    (has : prog.Has first
      (test ++ Ins.wide .bz past :: (left ++ Ins.wide .jmp behind :: right)))
    (hpast : past =
      address prog.insn (1 +
        size (first ++ test ++ Ins.wide .bz past ::
          (left ++ [Ins.wide .jmp behind]))))
    (hbehind : behind =
      address prog.insn (1 +
        size (first ++ test ++ [Ins.wide .bz past] ++ left ++
          Ins.wide .jmp behind :: right)))
    (bound : size (first ++
      (test ++ Ins.wide .bz past :: (left ++ Ins.wide .jmp behind :: right))) ≤
      1023)
    (htest : Moves prog lib vm (vm.done one (first ++ test)))
    (hleft : one ≠ 0 →
      Moves prog lib (vm.done one (first ++ test ++ [Ins.wide .bz past]))
        (vm.done value (first ++ test ++ [Ins.wide .bz past] ++ left)))
    (hright : one = 0 →
      Moves prog lib (vm.done one (first ++ test ++ [Ins.wide .bz past] ++
          left ++ [Ins.wide .jmp behind])) (vm.done value (first ++ test ++
          [Ins.wide .bz past] ++ left ++ [Ins.wide .jmp behind] ++ right))) :
    Moves prog lib vm (vm.done value (first ++
      (test ++ Ins.wide .bz past ::
        (left ++ Ins.wide .jmp behind :: right)))) := by
  simp only [size_append, size_wide] at bound
  refine htest.trans ?_
  by_cases hzero : one = 0
  · refine (Moves.taken has.right.head rfl hpast ?_ (beq_iff_eq.mpr hzero)).trans ?_
    · simp only [size_append, size_wide, size_nil]
      omega
    · simpa using hright hzero
  · refine (Moves.passed has.right.head rfl hpast ?_
      (beq_eq_false_iff_ne.mpr hzero)).trans ((hleft hzero).trans ?_)
    · simp only [size_append, size_wide, size_nil]
      omega
    · have hshape : first ++ (test ++ Ins.wide .bz past ::
          (left ++ Ins.wide .jmp behind :: right)) =
          first ++ test ++ [Ins.wide .bz past] ++ left ++ Ins.wide .jmp behind :: right := by
        simp
      rw [hshape]
      refine Moves.taken has.right.tail.right.head rfl hbehind ?_ rfl
      simp only [size_append, size_wide, size_nil]
      omega

end Vm

section Running

structure Fits (tree : Tree) (first : List Ins) (vm : Vm) : Prop where
  room : 2 * vm.stack.length + tree.words ≤ 1023
  bound : size first + tree.words ≤ 1023

def Computes (prog : Prog) (lib : Library) (data : Word) (tree : Tree) : Prop :=
  ∀ first vm value, prog.Has first (tree.code data prog.insn (1 + size first)) →
    vm.At first → Fits tree first vm → tree.eval data vm.mem = some value →
      Vm.Moves prog lib vm (vm.done value (first ++ tree.code data prog.insn (1 + size first)))

namespace Computes

variable {prog : Prog} {lib : Library} {data : Word}
  {inner test left right : Tree}

theorem lit (constant : Word) : Computes prog lib data (.lit constant) := by
  intro first vm value has hat fits heval
  cases heval
  exact Vm.Moves.imm has hat

theorem field {declare : Declare} (scalar : declare.Scalar) :
    Computes prog lib data (.field declare) := by
  intro first vm value has hat fits heval
  cases heval
  obtain ⟨last, hload⟩ := has.tail
  refine (Vm.Moves.imm has.head hat).trans
    (Vm.Moves.head ((step_li Vm.at_done hload).trans ?_) Vm.Moves.refl)
  rw [Vm.loadInt, Vm.done]
  simp only [scalar.load]
  simp [Vm.done, Tree.code]

section

variable (compute : Computes prog lib data inner)

include compute

theorem constant {made : Tree} {op : Op} {constant : Word}
    {apply : Word → Word → Option Word}
    (hcode : ∀ start, made.code data prog.insn start =
      inner.code data prog.insn start ++
        [Ins.plain .psh, Ins.wide .imm constant, Ins.plain op])
    (hwords : made.words = inner.words + 4)
    (hbinary : op.binary = some apply)
    (heval : ∀ mem value, made.eval data mem = some value →
      ∃ one, inner.eval data mem = some one ∧
        apply one constant = some value) :
    Computes prog lib data made := by
  intro first vm value has hat ⟨room, bound⟩ hvalue
  obtain ⟨one, hone, happly⟩ := heval _ _ hvalue
  have hleast := inner.two_le_words
  rw [hcode] at has ⊢
  have hshape : prog.Has first (inner.code data prog.insn (1 + size first) ++
      Ins.plain .psh :: ([Ins.wide .imm constant] ++ [Ins.plain op])) := has
  have hmoves := Vm.Moves.binary hshape
    (compute first vm one has.left hat ⟨by omega, by omega⟩ hone) (by omega)
    (Vm.Moves.imm has.right.tail.head Vm.at_done) hbinary happly
  exact hmoves

theorem not : Computes prog lib data (.not inner) := by
  refine compute.constant (fun _ => rfl) rfl rfl ?_
  intro mem value heval
  obtain ⟨one, hone, rfl⟩ := Option.map_eq_some_iff.mp heval
  exact ⟨one, hone, rfl⟩

theorem complement : Computes prog lib data (.complement inner) := by
  refine compute.constant (fun _ => rfl) rfl rfl ?_
  intro mem value heval
  obtain ⟨one, hone, rfl⟩ := Option.map_eq_some_iff.mp heval
  have hones : (-1 : Word) = BitVec.allOnes 64 := rfl
  refine ⟨one, hone, ?_⟩
  rw [hones, BitVec.xor_allOnes]

theorem neg : Computes prog lib data (.neg inner) := by
  intro first vm value has hat ⟨room, bound⟩ heval
  obtain ⟨one, hone, rfl⟩ := Option.map_eq_some_iff.mp heval
  rw [Tree.words] at room bound
  rw [Tree.code] at has ⊢
  cases hliteral : inner.literal? with
  | some constant =>
    rw [Tree.literal?_eq_some hliteral] at hone
    cases hone
    rw [hliteral] at has
    exact Vm.Moves.imm has hat
  | none =>
    rw [hliteral] at has room bound
    change 2 * vm.stack.length + (inner.words + 4) ≤ 1023 at room
    change size first + (inner.words + 4) ≤ 1023 at bound
    have hstart : 1 + size first + 3 =
        1 + size (first ++ [Ins.wide .imm (-1)] ++ [Ins.plain .psh]) := by
      simp [Nat.add_assoc]
    rw [hstart] at has ⊢
    have hbinary : prog.Has first ([Ins.wide .imm (-1)] ++ Ins.plain .psh :: (inner.code data
        prog.insn (1 + size (first ++ [Ins.wide .imm (-1)] ++ [Ins.plain .psh])) ++ [Ins.plain
        .mul])) := has
    refine Vm.Moves.binary hbinary (Vm.Moves.imm has.head hat) (by omega)
      (compute _ _ one has.tail.tail.left Vm.at_done ⟨?_, ?_⟩ hone) rfl ?_
    · simp only [Vm.done, Vm.pushed, List.length_cons]
      omega
    · simp only [size_append, size_wide, size_plain, size_nil]
      omega
    · rw [BitVec.neg_mul]
      exact congrArg (fun word => some (-word)) (BitVec.one_mul one)

end

section

variable (first : Computes prog lib data left)
  (second : Computes prog lib data right)

include first second

theorem bin (op : BinOp) : Computes prog lib data (.bin op left right) := by
  intro passed vm value has hat ⟨room, bound⟩ heval
  obtain ⟨one, hone, hrest⟩ := Option.bind_eq_some_iff.mp heval
  obtain ⟨other, hother, hvalue⟩ := Option.bind_eq_some_iff.mp hrest
  obtain ⟨apply, hbinary, happly⟩ := BinOp.opcode_eval hvalue
  have hright := right.two_le_words
  rw [Tree.words] at room bound
  rw [Tree.code] at has ⊢
  have hstart : 1 + size passed + left.words + 1 =
      1 + size (passed ++ left.code data prog.insn (1 + size passed) ++ [Ins.plain .psh]) := by
    simp [Tree.size_code, Nat.add_assoc]
  rw [hstart] at has ⊢
  refine Vm.Moves.binary has (first passed vm one has.left hat ⟨by omega, by omega⟩ hone) (by omega)
    (second _ _ other has.right.tail.left Vm.at_done ⟨?_, ?_⟩ hother) hbinary happly
  · simp only [Vm.done, Vm.pushed, List.length_cons]
    omega
  · simp only [size_append, Tree.size_code, size_plain, size_nil]
    omega

theorem shortCircuit {made : Tree} {op : Op} (hjump : op.isJump = true)
    (hcode : ∀ start, made.code data prog.insn start =
      left.code data prog.insn start ++
        Ins.wide op
            (address prog.insn (start + left.words + right.words + 2)) ::
          right.code data prog.insn (start + left.words + 2))
    (hwords : made.words = left.words + right.words + 2)
    (heval : ∀ mem value, made.eval data mem = some value →
      ∃ one, left.eval data mem = some one ∧
        (op.taken one = true → value = one) ∧
        (op.taken one = false → right.eval data mem = some value)) :
    Computes prog lib data made := by
  intro passed vm value has hat ⟨room, bound⟩ hvalue
  obtain ⟨one, hone, decided, undecided⟩ := heval _ _ hvalue
  rw [hcode] at has ⊢
  have hstart : ∀ target, 1 + size passed + left.words + 2 =
      1 + size (passed ++ left.code data prog.insn (1 + size passed) ++
        [Ins.wide op target]) := by
    intro target
    simp [Tree.size_code, Nat.add_assoc]
  refine Vm.Moves.branch has hjump ?_ ?_
    (first passed vm one has.left hat ⟨by omega, by omega⟩ hone) decided ?_
  · congr 1
    simp only [size_append, size_wide, Tree.size_code]
    omega
  · simp only [size_append, size_wide, Tree.size_code]
    omega
  · intro htaken
    have hbehind := has.right.tail
    rw [hstart] at hbehind ⊢
    refine second _ _ value hbehind Vm.at_done ⟨?_, ?_⟩ (undecided htaken)
    · change 2 * vm.stack.length + right.words ≤ 1023
      omega
    · simp only [size_append, size_wide, Tree.size_code, size_nil]
      omega

theorem land : Computes prog lib data (.land left right) := by
  refine shortCircuit first second rfl (fun _ => rfl) rfl ?_
  intro mem value heval
  obtain ⟨one, hone, hrest⟩ := Option.bind_eq_some_iff.mp heval
  refine ⟨one, hone, ?_, ?_⟩
  · intro htaken
    rw [if_pos (eq_of_beq htaken)] at hrest
    exact (Option.some.inj hrest).symm
  · intro htaken
    rwa [if_neg (ne_of_beq_false htaken)] at hrest

theorem lor : Computes prog lib data (.lor left right) := by
  refine shortCircuit first second rfl (fun _ => rfl) rfl ?_
  intro mem value heval
  obtain ⟨one, hone, hrest⟩ := Option.bind_eq_some_iff.mp heval
  refine ⟨one, hone, ?_, ?_⟩
  · intro htaken
    rw [if_neg (bne_iff_ne.mp htaken)] at hrest
    exact (Option.some.inj hrest).symm
  · intro htaken
    rwa [if_pos (by simpa [Op.taken] using htaken)] at hrest

end

theorem cond (first : Computes prog lib data test)
    (second : Computes prog lib data left)
    (third : Computes prog lib data right) :
    Computes prog lib data (.cond test left right) := by
  intro passed vm value has hat ⟨room, bound⟩ heval
  obtain ⟨one, hone, hrest⟩ := Option.bind_eq_some_iff.mp heval
  rw [Tree.words] at room bound
  rw [Tree.code] at has ⊢
  have htest := first passed vm one has.left hat ⟨by omega, by omega⟩ hone
  have hsize := Tree.size_code data prog.insn (1 + size passed) test
  generalize test.code data prog.insn (1 + size passed) = front at has htest hsize ⊢
  generalize hpast : address prog.insn
    (1 + size passed + test.words + left.words + 4) = past at has ⊢
  generalize hbehind : address prog.insn (1 + size passed + test.words +
    left.words + right.words + 4) = behind at has ⊢
  have hleft : 1 + size passed + test.words + 2 =
      1 + size (passed ++ front ++ [Ins.wide .bz past]) := by
    simp [hsize, Nat.add_assoc]
  rw [hleft] at has ⊢
  have hright : 1 + size passed + test.words + left.words + 4 =
      1 + size (passed ++ front ++ [Ins.wide .bz past] ++ left.code data prog.insn
          (1 + size (passed ++ front ++ [Ins.wide .bz past])) ++
        [Ins.wide .jmp behind]) := by
    simp only [size_append, size_wide, Tree.size_code, hsize, size_nil]
    omega
  rw [hright] at has ⊢
  refine Vm.Moves.conditional has ?_ ?_ ?_ htest ?_ ?_
  · rw [← hpast]
    congr 1
    simp only [size_append, size_wide, Tree.size_code, hsize, size_nil]
    omega
  · rw [← hbehind]
    congr 1
    simp only [size_append, size_wide, Tree.size_code, hsize, size_nil]
    omega
  · simp only [size_append, size_wide, Tree.size_code, hsize]
    omega
  · intro hone
    rw [if_neg hone] at hrest
    refine second _ _ value has.right.tail.left Vm.at_done ⟨?_, ?_⟩ hrest
    · change 2 * vm.stack.length + left.words ≤ 1023
      omega
    · simp only [size_append, size_wide, hsize, size_nil]
      omega
  · intro hone
    rw [if_pos hone] at hrest
    refine third _ _ value has.right.tail.right.tail Vm.at_done ⟨?_, ?_⟩ hrest
    · change 2 * vm.stack.length + right.words ≤ 1023
      omega
    · simp only [size_append, size_wide, Tree.size_code, hsize, size_nil]
      omega

theorem paren (compute : Computes prog lib data inner) :
    Computes prog lib data (.paren inner) :=
  fun first vm value has hat ⟨room, bound⟩ heval =>
    compute first vm value has hat ⟨room, bound⟩ heval

theorem plus (compute : Computes prog lib data inner) :
    Computes prog lib data (.plus inner) :=
  fun first vm value has hat ⟨room, bound⟩ heval =>
    compute first vm value has hat ⟨room, bound⟩ heval

end Computes

end Running

theorem Derives.computes (derives : Derives level tokens tree) :
    Computes prog lib data tree := by
  induction derives with
  | lit value => exact .lit value
  | field scalar => exact .field scalar
  | paren _ ih => exact .paren ih
  | not _ ih => exact .not ih
  | complement _ ih => exact .complement ih
  | plus _ ih => exact .plus ih
  | neg _ ih => exact .neg ih
  | bin op _ _ left right => exact .bin left right op
  | land _ _ left right => exact .land left right
  | lor _ _ left right => exact .lor left right
  | cond _ _ _ test left right => exact .cond test left right
  | lift _ ih => exact ih

end PerfProf.Expr
