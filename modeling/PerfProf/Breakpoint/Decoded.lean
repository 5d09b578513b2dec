import PerfProf.Breakpoint.Sdm

namespace PerfProf.Breakpoint

open Sdm

variable {value : Nat} {insn : Insn}

theorem Opcode.lastByte_of_value {opcode : Opcode}
    (hvalue : opcode.value = value) (hescape : value ≠ 0x0f)
    (hlong : value ≠ 0x380f) :
    opcode.lastByte =
      BitVec.ofNat 8 (if value < 256 then value else value / 256) := by
  cases opcode with
  | one op =>
    have hlt := op.isLt
    rw [Opcode.value] at hvalue
    rw [lastByte, if_pos (by omega), ← hvalue, BitVec.ofNat_toNat, BitVec.setWidth_eq]
  | two op =>
    have hlt := op.isLt
    rw [Opcode.value] at hvalue
    have hop : op.toNat ≠ 0 := by omega
    rw [lastByte, if_neg (by omega)]
    apply BitVec.eq_of_toNat_eq
    rw [BitVec.toNat_ofNat]
    omega
  | longer => exact absurd hvalue.symm hlong

def opsrc (insn : Insn) (regs : Regs) (form : Form) : Word :=
  match form.source with
  | .reg => insn.opsrcReg regs form.byte
  | .acc => insn.opsrcAcc regs form.byte
  | .imm => insn.opsrcImm form.byte true
  | .imm8 => insn.opsrcImm true true
  | .one => 1
  | .cl => Insn.opsrcCL regs

def Sdm.Operation.decode (operation : Operation) (bytes : Nat)
    (old src : Word) : Option Word :=
  let shift := src.setWidth 8
  match operation with
  | .mov | .cmpxchg => some src
  | .add => some (Arith.add.apply old src)
  | .or => some (Arith.or.apply old src)
  | .and => some (Arith.and.apply old src)
  | .sub => some (Arith.sub.apply old src)
  | .xor => some (Arith.xor.apply old src)
  | .inc => some (old + 1)
  | .dec => some (old - 1)
  | .not => some (~~~ old)
  | .neg => some (-old)
  | .rol => grp2 0 bytes old shift
  | .ror => grp2 1 bytes old shift
  | .shl => grp2 4 bytes old shift
  | .shr => grp2 5 bytes old shift
  | .sar => grp2 7 bytes old shift
  | .bts => some (btsrc 5 old (src.toNat % (bytes * 8)))
  | .btr => some (btsrc 6 old (src.toNat % (bytes * 8)))
  | .btc => some (btsrc 7 old (src.toNat % (bytes * 8)))

def decodeForm (insn : Insn) (regs : Regs) (form : Form) (old : Word) :
    Option Word :=
  match form.operation with
  | .mov => some (opsrc insn regs form)
  | .cmpxchg =>
    if regs.flags.getLsbD 6 then some (opsrc insn regs form)
    else some (insn.opsrcAcc regs form.byte)
  | operation =>
    (operation.decode (insn.bytesOf form.byte) old
      (opsrc insn regs form)).map (insn.masked form.byte)

theorem isByteop_of_value (hvalue : insn.opcode.value = value)
    (hescape : value ≠ 0x0f) (hlong : value ≠ 0x380f) :
    insn.isByteop =
      if value = 0xBA0F then
        false
      else
        !(BitVec.ofNat 8 (if value < 256 then value else value / 256)).getLsbD
          0 := by
  rw [Insn.isByteop, Opcode.lastByte_of_value hvalue hescape hlong, hvalue]

theorem Insn.modrmReg_lt (insn : Insn) : insn.modrmReg < 8 := by
  rw [Insn.modrmReg, BitVec.toNat_and]
  exact Nat.lt_of_le_of_lt Nat.and_le_right (by decide)

theorem form_of_supported (hsupported : supportedOpcode insn = true) :
    ∃ form, Sdm.form insn.opcode.value insn.modrmReg = some form ∧
      insn.isByteop = form.byte ∧
      ∀ regs old, decodeData insn regs old = decodeForm insn regs form old := by
  have hlt := insn.modrmReg_lt
  unfold supportedOpcode at hsupported
  split at hsupported
  all_goals rename_i hvalue
  case h_36 => cases hsupported
  all_goals
    have hbyte := isByteop_of_value hvalue (by decide) (by decide)
  all_goals
    first
    | refine ⟨_, by rw [hvalue]; rfl, hbyte.trans (by decide), ?_⟩
      intro regs old
      unfold decodeData
      rw [hvalue, hbyte]
      rfl
    | generalize hreg : insn.modrmReg = reg at hsupported hlt
      match reg, hlt with
      | 0, _ | 1, _ | 2, _ | 3, _ | 4, _ | 5, _ | 6, _ | 7, _ =>
        first
        | cases hsupported
          done
        | refine ⟨_, by rw [hvalue]; rfl, hbyte.trans (by decide), ?_⟩
          intro regs old
          unfold decodeData
          rw [hvalue, hbyte, hreg]
          rfl

end PerfProf.Breakpoint
