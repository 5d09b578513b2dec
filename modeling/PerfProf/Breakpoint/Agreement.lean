import PerfProf.Breakpoint.Decoded
import PerfProf.Data.Narrow

namespace PerfProf.Breakpoint

open Sdm Data

section Operands

variable (insn : Insn) (regs : Regs) (form : Form)

theorem bits_eq : bits insn form = 8 * insn.bytesOf form.byte := by
  unfold bits Insn.bytesOf
  cases form.byte <;> rfl

theorem bits_cases : bits insn form = 8 ∨ bits insn form = 16 ∨
    bits insn form = 32 ∨ bits insn form = 64 := by
  unfold bits
  cases form.byte <;> cases insn.opnd <;> decide

theorem bits_le : bits insn form ≤ 64 := by
  rcases bits_cases insn form with h | h | h | h <;> omega

theorem setWidth_masked (data : Word) :
    (insn.masked form.byte data).setWidth (bits insn form) =
      data.setWidth (bits insn form) := by
  have hmask : ∀ n, n = 1 ∨ n = 2 ∨ n = 4 →
      (data &&& byteMask n).setWidth (8 * n) = data.setWidth (8 * n) := by
    rintro n (rfl | rfl | rfl)
    all_goals
      rw [BitVec.setWidth_and]
      exact BitVec.and_allOnes
  have hbytes : insn.bytesOf form.byte = 8 ∨
      (insn.bytesOf form.byte = 1 ∨ insn.bytesOf form.byte = 2 ∨
        insn.bytesOf form.byte = 4) := by
    unfold Insn.bytesOf
    cases form.byte <;> cases insn.opnd <;> decide
  rw [bits_eq, Insn.masked]
  split_ifs with hne
  · rfl
  · exact hmask _ (hbytes.resolve_left hne)

theorem setWidth_opsrcAcc :
    (insn.opsrcAcc regs form.byte).setWidth (bits insn form) =
      (regs.gpr 0).setWidth (bits insn form) :=
  setWidth_masked insn form _

theorem setWidth_opsrcReg :
    (insn.opsrcReg regs form.byte).setWidth (bits insn form) =
      register insn regs form.byte (bits insn form) := by
  have hlt := insn.modrmReg_lt
  have hnumber : insn.regNumber = insn.modrmReg +
      if (insn.rex.getD 0).getLsbD 2 then 8 else 0 := Nat.add_comm _ _
  have hread : ∀ reg, reg < 16 → regs.read reg = regs.gpr reg := fun _ hreg => if_pos hreg
  unfold Insn.opsrcReg register
  dsimp only
  rw [setWidth_masked, ← hnumber]
  by_cases hhigh : insn.rex.getD 0 = 0 ∧ form.byte = true ∧ 4 ≤ insn.regNumber
  · obtain ⟨hrex, hbyte, hfour⟩ := hhigh
    have hsmall : insn.regNumber < 8 := by
      rw [hnumber, hrex]
      exact hlt
    have hbits : bits insn form = 8 := by rw [bits, if_pos hbyte]
    rw [if_pos ⟨⟨hrex, hbyte⟩, hfour, hsmall⟩, if_pos ⟨hbyte, hrex, hfour⟩, hread _ (by omega), show
      insn.regNumber % 4 = insn.regNumber - 4 by omega, hbits]
    apply BitVec.eq_of_getLsbD_eq
    intro index hindex
    simp [hindex]
  · rw [if_neg (fun h => hhigh ⟨h.1.1, h.1.2, h.2.1⟩),
      if_neg (fun h => hhigh ⟨h.2.1, h.1, h.2.2⟩), hread]
    rw [hnumber]
    split <;> omega

theorem le_bits : 8 ≤ bits insn form := by
  rcases bits_cases insn form with h | h | h | h <;> omega

theorem and_ff (data : Word) :
    data &&& 0xff = (data.setWidth 8).setWidth 64 := by
  apply BitVec.eq_of_toNat_eq
  rw [BitVec.toNat_and, BitVec.toNat_setWidth, BitVec.toNat_setWidth]
  have hmask := Nat.and_two_pow_sub_one_eq_mod data.toNat 8
  have hlt := Nat.mod_lt data.toNat (show 0 < 2 ^ 8 by decide)
  rw [Nat.mod_eq_of_lt (show data.toNat % 2 ^ 8 < 2 ^ 64 by omega)]
  exact hmask

theorem masked_byte (data : Word) : insn.masked true data = data &&& 0xff := by
  have hbytes : insn.bytesOf true = 1 := rfl
  have hmask : byteMask 1 = 0xff := by decide
  rw [Insn.masked, hbytes, if_neg (by decide), hmask]

theorem source_setWidth : (source insn regs form (bits insn form)).setWidth 8 =
      source insn regs form 8 := by
  have hle := le_bits insn form
  unfold source register
  cases form.source with
  | reg =>
    dsimp only
    rw [apply_ite (BitVec.setWidth 8), BitVec.setWidth_setWidth_of_le _ hle,
      BitVec.setWidth_setWidth_of_le _ hle]
  | acc => exact BitVec.setWidth_setWidth_of_le _ hle
  | imm => exact setWidth_signExtend _ hle
  | imm8 => exact BitVec.setWidth_setWidth_of_le _ hle
  | one =>
    dsimp only
    rcases bits_cases insn form with h | h | h | h <;> rw [h] <;> decide
  | cl => exact BitVec.setWidth_setWidth_of_le _ hle

variable (hsingle : insn.immediate2 = none)

include hsingle

theorem setWidth_opsrcImm :
    (insn.opsrcImm form.byte true).setWidth (bits insn form) =
      (insn.immediate1.getD 0).signExtend (bits insn form) := by
  unfold Insn.opsrcImm
  dsimp only
  rw [setWidth_masked, hsingle, if_pos rfl]
  have hzero : ((none : Option (BitVec 32)).getD 0).signExtend 64 <<< 32 = 0#64 := by decide
  rw [hzero, BitVec.zero_or, setWidth_signExtend _ (bits_le insn form)]

theorem setWidth_imm8 :
    insn.opsrcImm true true =
      ((insn.immediate1.getD 0).setWidth 8).setWidth 64 := by
  have himm : (insn.opsrcImm true true).setWidth 8 = (insn.immediate1.getD 0).signExtend 8 :=
    setWidth_opsrcImm insn ⟨.mov, true, .imm8⟩ hsingle
  have hbyte : insn.opsrcImm true true = insn.opsrcImm true true &&& 0xff := by
    unfold Insn.opsrcImm
    dsimp only
    rw [masked_byte, BitVec.and_assoc, BitVec.and_self]
  rw [hbyte, and_ff, himm, BitVec.signExtend_eq_setWidth_of_le _ (by decide)]

theorem setWidth_opsrc :
    (opsrc insn regs form).setWidth (bits insn form) =
      source insn regs form (bits insn form) := by
  unfold opsrc source
  cases form.source with
  | reg => exact setWidth_opsrcReg insn regs form
  | acc => exact setWidth_opsrcAcc insn regs form
  | imm => exact setWidth_opsrcImm insn form hsingle
  | imm8 =>
    dsimp only
    rw [setWidth_imm8 insn hsingle, BitVec.setWidth_setWidth_of_le _ (bits_le insn form)]
  | one =>
    dsimp only
    rcases bits_cases insn form with h | h | h | h <;> rw [h] <;> decide
  | cl =>
    dsimp only
    rw [Insn.opsrcCL, and_ff, BitVec.setWidth_setWidth_of_le _ (bits_le insn form)]
    rfl

theorem count_eq :
    ((opsrc insn regs form).setWidth 8).toNat = count insn regs form := by
  have hle := le_bits insn form
  rw [count, ← source_setWidth, ← setWidth_opsrc insn regs form hsingle,
    BitVec.setWidth_setWidth_of_le _ hle]

end Operands

section Results

variable {width : Nat} (old src : Word)

theorem setWidth_onLow (hle : width ≤ 64) (apply : BitVec width → BitVec width)
    (data : Word) :
    (onLow width apply data).setWidth width = apply (data.setWidth width) := by
  unfold onLow
  dsimp only
  split
  · exact setWidth_insert data _ hle
  · rw [BitVec.setWidth_setWidth_of_le _ hle, BitVec.setWidth_eq]

/-- The shifts that the code makes as the processor does: a count below the
width of the C operand, and to the left one below 32 or a value that is shifted
out anyway. -/
def Covered (operation : Operation) (count : Nat) (dest : BitVec width) :
    Prop :=
  match operation with
  | .shl => count < 64 ∧ (width = 64 ∨ count < 32 ∨ dest <<< (count % 32) = 0)
  | .shr | .sar => count < if width = 64 then 64 else 32
  | _ => True

theorem mod_two_pow (offset : Nat)
    (hwidth : width = 8 ∨ width = 16 ∨ width = 32 ∨ width = 64) :
    offset % 2 ^ width % width = offset % width := by
  apply Nat.mod_mod_of_dvd
  rcases hwidth with rfl | rfl | rfl | rfl <;> decide

theorem shl_iff (hwidth : width = 8 ∨ width = 16 ∨ width = 32 ∨ width = 64)
    {count : Nat} :
    (if count < 64 then some (old <<< count) else none).map
      (BitVec.setWidth width) =
      some (old.setWidth width <<<
        (if width = 64 then count % 64 else count % 32)) ↔
      Covered .shl count (old.setWidth width) := by
  have hle : width ≤ 64 := by omega
  unfold Covered
  by_cases hdefined : count < 64
  · rw [if_pos hdefined, Option.map_some, Option.some.injEq, BitVec.setWidth_shiftLeft_of_le hle]
    by_cases hwide : width = 64
    · simp [hwide, hdefined, Nat.mod_eq_of_lt hdefined]
    · rw [if_neg hwide]
      by_cases hshort : count < 32
      · simp [hdefined, hshort, Nat.mod_eq_of_lt hshort]
      · have hgone : old.setWidth width <<< count = (0 : BitVec width) := by
          apply BitVec.shiftLeft_eq_zero
          omega
        rw [hgone]
        constructor
        · intro hzero
          exact ⟨hdefined, Or.inr (Or.inr hzero.symm)⟩
        · rintro ⟨-, hwidth64 | hcount | hzero⟩
          · exact absurd hwidth64 hwide
          · exact absurd hcount hshort
          · exact hzero.symm
  · rw [if_neg hdefined]
    simp [hdefined]

theorem defined_iff {defined count : Nat} {value : Word} {result : BitVec width}
    (hvalue : count < defined → value.setWidth width = result) :
    (if count < defined then some value else none).map (BitVec.setWidth width) =
      some result ↔
      count < defined := by
  by_cases hcount : count < defined
  · simp [hcount, hvalue hcount]
  · simp [hcount]

theorem masked_count {count : Nat}
    (hcount : count < if width = 64 then 64 else 32) :
    (if width = 64 then count % 64 else count % 32) = count := by
  split at hcount <;> rename_i hwide
  · rw [if_pos hwide, Nat.mod_eq_of_lt hcount]
  · rw [if_neg hwide, Nat.mod_eq_of_lt hcount]

theorem decode_eq_iff (operation : Operation) {bytes : Nat}
    (hbytes : width = 8 * bytes)
    (hwidth : width = 8 ∨ width = 16 ∨ width = 32 ∨ width = 64) :
    (operation.decode bytes old src).map (BitVec.setWidth width) =
      some (result operation (src.setWidth 8).toNat (old.setWidth width)
        (src.setWidth width)) ↔
      Covered operation (src.setWidth 8).toNat (old.setWidth width) := by
  have hle : width ≤ 64 := by omega
  have hmod : src.toNat % 2 ^ width % width = src.toNat % (bytes * 8) := by
    rw [mod_two_pow src.toNat hwidth, hbytes, Nat.mul_comm]
  have hone : (1#64).setWidth width = BitVec.ofNat width 1 := by
    rcases hwidth with h | h | h | h <;> rw [h] <;> decide
  cases operation with
  | shl => exact shl_iff old hwidth
  | shr =>
    subst hbytes
    refine defined_iff fun hcount => ?_
    dsimp only [result]
    rw [setWidth_ushiftRight_narrow _ _ hle, masked_count hcount]
  | sar =>
    subst hbytes
    refine defined_iff fun hcount => ?_
    dsimp only [result]
    rw [setWidth_sshiftRight_narrow _ _ hle (by omega), masked_count hcount]
  | rol =>
    subst hbytes
    simp [Operation.decode, grp2, Covered, result, setWidth_onLow hle, countMask]
  | ror =>
    subst hbytes
    simp [Operation.decode, grp2, Covered, result, setWidth_onLow hle, countMask]
  | bts => simp [Operation.decode, btsrc, Covered, result, hmod, setWidth_twoPow _ hle]
  | btr =>
    simp [Operation.decode, btsrc, Covered, result, hmod,
      setWidth_twoPow _ hle, BitVec.setWidth_not hle]
  | btc => simp [Operation.decode, btsrc, Covered, result, hmod, setWidth_twoPow _ hle]
  | _ =>
    simp [Operation.decode, Arith.apply, Covered, result, hone, BitVec.setWidth_add _ _ hle,
      setWidth_sub _ _ hle, BitVec.setWidth_not hle, BitVec.setWidth_neg_of_le hle]

end Results

section Agreement

variable (insn : Insn) (regs : Regs) (flags : Word) (form : Form) (old : Word)

theorem setWidth_writeAcc {width : Nat} (hle : width ≤ 64)
    (value : BitVec width) :
    ((writeAcc regs value).gpr 0).setWidth width = value := by
  show (if width < 32 then _ else _ : Word).setWidth width = value
  split
  · exact setWidth_insert (regs.gpr 0) value hle
  · rw [BitVec.setWidth_setWidth_of_le _ hle, BitVec.setWidth_eq]

theorem execute_cmpxchg (hform : form.operation = .cmpxchg) :
    execute insn regs flags form old =
      if (regs.gpr 0).setWidth (bits insn form) =
          old.setWidth (bits insn form) then
        ({ regs with flags := flags ||| 0x40 },
          source insn regs form (bits insn form))
      else
        ({ writeAcc regs (old.setWidth (bits insn form)) with
            flags := flags &&& ~~~ 0x40 },
          old.setWidth (bits insn form)) := by
  unfold execute
  rw [hform]

theorem decodeForm_cmpxchg (hform : form.operation = .cmpxchg) :
    decodeForm insn regs form old =
      some (if regs.flags.getLsbD 6 then
        opsrc insn regs form
      else insn.opsrcAcc regs form.byte) := by
  unfold decodeForm
  rw [hform, apply_ite some]

/-- What the instruction has to be for its value to be found: a shift that is
covered, and with a VEX or EVEX prefix a vector that holds what the instruction
of the one-byte map would have left. -/
def Exact : Prop :=
  match insn.vector with
  | none => Covered form.operation (count insn regs form)
      (old.setWidth (bits insn form))
  | some stored => stored.setWidth (bits insn form) = (execute insn regs flags form old).2

theorem execute_of_ne (hform : form.operation ≠ .cmpxchg) :
    execute insn regs flags form old =
      ({ regs with flags := flags },
        result form.operation (count insn regs form)
          (old.setWidth (bits insn form))
          (source insn regs form (bits insn form))) := by
  unfold execute
  cases hoperation : form.operation with
  | cmpxchg => exact absurd hoperation hform
  | _ => rfl

def vectorOperations : List Operation := [.and, .sub, .xor, .mov, .not, .neg]

theorem vectorStores_form {opcode opext : Nat} {form : Form}
    (hstores : opcode ∈ vectorStores)
    (hform : Sdm.form opcode opext = some form) :
    form.operation ∈ vectorOperations := by
  simp only [vectorStores, List.mem_cons, List.not_mem_nil, or_false] at hstores
  rcases hstores with rfl | rfl | rfl | rfl | rfl | rfl | rfl | rfl
  case inr.inr.inr.inr.inr.inr.inr =>
    -- `NOT` and `NEG` have numbers of their own behind this opcode.
    obtain _ | _ | _ | _ | opext := opext <;> cases hform <;> decide
  all_goals
    cases hform
    decide

section

variable (hsingle : insn.immediate2 = none)

include hsingle

theorem cmpxchg_decoded (hform : form.operation = .cmpxchg) :
    (decodeForm insn (execute insn regs flags form old).1 form old).map
      (BitVec.setWidth (bits insn form)) =
      some (execute insn regs flags form old).2 := by
  rw [decodeForm_cmpxchg _ _ _ _ hform, Option.map_some, execute_cmpxchg _ _ _ _ _ hform]
  congr 1
  split
  · have hzf : (flags ||| 0x40).getLsbD 6 = true := by simp
    refine (congrArg _ (if_pos hzf)).trans ?_
    exact setWidth_opsrc insn { regs with flags := flags ||| 0x40 } form hsingle
  · have hzf : ¬ (flags &&& ~~~ 0x40).getLsbD 6 = true := by simp
    refine (congrArg _ (if_neg hzf)).trans ?_
    rw [setWidth_opsrcAcc]
    exact setWidth_writeAcc regs (bits_le insn form) _

theorem operation_decoded_iff (hform : form.operation ≠ .cmpxchg) :
    (decodeForm insn { regs with flags := flags } form old).map
      (BitVec.setWidth (bits insn form)) =
      some (result form.operation (count insn regs form)
        (old.setWidth (bits insn form))
        (source insn regs form (bits insn form))) ↔
      Covered form.operation (count insn regs form)
        (old.setWidth (bits insn form)) := by
  have hsource := setWidth_opsrc insn { regs with flags := flags } form hsingle
  have hcount := count_eq insn { regs with flags := flags } form hsingle
  have hdecode := decode_eq_iff old (opsrc insn { regs with flags := flags } form)
    form.operation (bits_eq insn form) (bits_cases insn form)
  rw [hsource, hcount] at hdecode
  refine Iff.trans ?_ hdecode
  have hmasked : ∀ decoded : Option Word, (decoded.map (insn.masked form.byte)).map
          (BitVec.setWidth (bits insn form)) =
        decoded.map (BitVec.setWidth (bits insn form)) := by
    intro decoded
    rw [Option.map_map]
    exact congrFun (congrArg Option.map (funext fun data => setWidth_masked insn form data)) decoded
  unfold decodeForm
  cases hoperation : form.operation with
  | mov => exact Iff.rfl
  | cmpxchg => exact absurd hoperation hform
  | _ =>
    dsimp only
    rw [hmasked]
    exact Iff.rfl

theorem execute_decoded_iff :
    (decodeForm insn (execute insn regs flags form old).1 form old).map
      (BitVec.setWidth (bits insn form)) =
      some (execute insn regs flags form old).2 ↔
      Covered form.operation (count insn regs form)
        (old.setWidth (bits insn form)) := by
  by_cases hform : form.operation = .cmpxchg
  · rw [hform]
    exact iff_of_true (cmpxchg_decoded insn regs flags form old hsingle hform) trivial
  · rw [execute_of_ne _ _ _ _ _ hform]
    exact operation_decoded_iff insn regs flags form old hsingle hform

theorem vector_decoded_iff (hform : form.operation ∈ vectorOperations) (stored : Word) :
    (decodeForm insn { regs with flags := flags } form old).map
      (BitVec.setWidth (bits insn form)) =
      some (stored.setWidth (bits insn form)) ↔
      stored.setWidth (bits insn form) =
        (execute insn regs flags form old).2 := by
  have hne : form.operation ≠ .cmpxchg := by
    rintro heq
    rw [heq] at hform
    exact absurd hform (by decide)
  have hcovered : Covered form.operation (count insn regs form)
      (old.setWidth (bits insn form)) := by
    simp only [vectorOperations, List.mem_cons, List.not_mem_nil, or_false] at hform
    rcases hform with heq | heq | heq | heq | heq | heq
    all_goals
      rw [heq]
      trivial
  rw [(operation_decoded_iff insn regs flags form old hsingle hne).2 hcovered,
    execute_of_ne _ _ _ _ _ hne, Option.some.injEq]
  exact eq_comm

end

/-- `decode_data()` returns the value that the instruction leaves in memory for
every instruction `supported()` accepts, up to the shifts whose count the
processor masks and the instructions of the vector maps. -/
theorem decodeData_perform_iff {bp : HwBreakpoint} {ctxtSafety : Bool}
    (hit : Accepted bp ctxtSafety) :
    ∃ form, Sdm.form hit.insn.opcode.value hit.insn.modrmReg = some form ∧
      ((∃ data,
          decodeData hit.insn (perform hit.insn regs flags form old).1 old =
            some data ∧
          data.setWidth (bits hit.insn form) =
            (perform hit.insn regs flags form old).2) ↔
          Exact hit.insn regs flags form old) := by
  have haccepted := hit.accepted
  simp only [supported, Bool.and_eq_true] at haccepted
  obtain ⟨form, hform, -, hdecode⟩ := form_of_supported haccepted.1.2
  refine ⟨form, hform, ?_⟩
  rw [← Option.map_eq_some_iff, hdecode]
  unfold perform Exact
  cases hvector : hit.insn.vector with
  | none => exact execute_decoded_iff hit.insn regs flags form old hit.single
  | some stored =>
    have hstores := hit.vectorCoded (by simp [hvector])
    exact vector_decoded_iff hit.insn regs flags form old hit.single
      (vectorStores_form hstores hform) stored

end Agreement

section Shift

def shllImm33 : Accepted { type := 2 } true where
  insn :=
    { opcode := .one 0xC1, opnd := .four, rex := none, modrm := some 0x20
      immediate1 := some 33, immediate2 := none, vector := none }
  accepted := by decide
  single := rfl
  vectorCoded := by simp

/-- The processor shifts by one bit; the code shifts the value out. -/
theorem shl_count_not_masked :
    let regs : Regs := { gpr := fun _ => 0, ip := 0, flags := 0 }
    let form : Form := { operation := .shl, byte := false, source := .imm8 }
    Sdm.form shllImm33.insn.opcode.value shllImm33.insn.modrmReg = some form ∧
      (perform shllImm33.insn regs 0 form 1).2.toNat = 2 ∧
      decodeData shllImm33.insn (perform shllImm33.insn regs 0 form 1).1 1 =
        some 0 := by
  refine ⟨by decide, by decide, by decide⟩

end Shift

end PerfProf.Breakpoint
