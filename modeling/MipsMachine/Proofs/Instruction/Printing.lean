import MipsMachine.Proofs.Statement.Forms
import MipsMachine.Proofs.Token.Numeral

namespace MipsMachine

open Token

structure Printed where
  text : String
  operand : Operand
  reads : Reads text.toList operand.kinds
  not_label : ¬ operand.IsLabel

namespace Printed

def reg (r : Reg) : Printed where
  text := r.text
  operand := .reg r
  reads := by
    obtain ⟨hne, h⟩ := r.name_ne_nil_and_isAlphanum
    simpa [Reg.text, Operand.kinds] using Reads.reg hne h
  not_label := id

def decimal (v : Int) (h : -0x80000000 ≤ v ∧ v < 0x100000000) : Printed where
  text := toString v
  operand := .int v
  reads := Reads.int h
  not_label := id

def hexadecimal (n : Nat) (h : n < 0x100000000) : Printed where
  text := "0x" ++ hexDigits n
  operand := .int n
  reads := Reads.hex h
  not_label := id

def based (v : Int) (base : Reg) (h : -0x80000000 ≤ v ∧ v < 0x100000000) : Printed where
  text := toString v ++ "(" ++ base.text ++ ")"
  operand := .mem v base
  reads := by
    have hr := (reg base).reads.append Reads.nil.rparen (breaks_cons (by decide) _)
    simpa [reg, Operand.kinds] using (Reads.int h).append hr.lparen (breaks_cons (by decide) _)
  not_label := id

def more : List Printed → String
  | [] => ""
  | p :: ps => ", " ++ p.text ++ more ps

def listing : List Printed → String
  | [] => ""
  | p :: ps => " " ++ p.text ++ more ps

theorem breaks_more (ps : List Printed) : Breaks (more ps).toList := by
  cases ps with
  | nil => exact breaks_nil
  | cons p ps => simpa [more] using breaks_cons (by decide) _

theorem reads_more (ps : List Printed) :
    Reads (more ps).toList ((ps.map operand).flatMap fun o => .comma :: o.kinds) := by
  induction ps with
  | nil => exact Reads.nil
  | cons p ps ih => simpa [more] using (p.reads.append ih (breaks_more ps)).blank.comma

theorem reads_listing (ps : List Printed) :
    Reads (listing ps).toList (Operand.listKinds (ps.map operand)) := by
  cases ps with
  | nil => exact Reads.nil
  | cons p ps =>
    have h := (p.reads.append (reads_more ps) (breaks_more ps)).blank
    simpa [listing, Operand.listKinds] using h

theorem breaks_listing (ps : List Printed) : Breaks (listing ps).toList := by
  cases ps with
  | nil => exact breaks_nil
  | cons p ps => simpa [listing] using breaks_cons (by decide) _

end Printed

namespace Instr

open Printed

def realOp : Instr → RealOp
  | alu op .. => .alu op
  | shift op .. => .shift op
  | shiftVar op .. => .shiftVar op
  | imm op .. => .imm op
  | lui .. => .lui
  | mem op .. => .mem op
  | compare op .. => .compare op
  | zero op .. => .zero op
  | jump op _ => .jump op
  | jr _ => .jr
  | jalr .. => .jalr
  | hiLo op _ => .hiLo op
  | mulDiv op .. => .mulDiv op
  | syscall => .syscall

theorem mnemonic_mem_table (i : Instr) : (i.mnemonic, i.realOp) ∈ RealOp.table := by
  cases i with
  | alu op | shift op | shiftVar op | imm op | mem op
  | compare op | zero op | jump op | hiLo op | mulDiv op =>
    cases op <;> simp [mnemonic, realOp, RealOp.table, Operation.mnemonic, ShiftOp.variableMnemonic]
  | lui | jr | jalr | syscall => simp [mnemonic, realOp, RealOp.table]

theorem half_bounds (h : Half) : -0x80000000 ≤ h.toInt ∧ h.toInt < 0x100000000 := by
  have := h.le_toInt
  have := h.toInt_lt
  omega

def operandList : Instr → List Printed
  | alu _ rd rs rt => [reg rd, reg rs, reg rt]
  | shift _ rd rt amount => [reg rd, reg rt, decimal amount.toNat (by omega)]
  | shiftVar _ rd rt rs => [reg rd, reg rt, reg rs]
  | imm op rt rs value =>
    if op.zeroExtends then [reg rt, reg rs, hexadecimal value.toNat (by omega)]
    else [reg rt, reg rs, decimal value.toInt (half_bounds value)]
  | lui rt value => [reg rt, hexadecimal value.toNat (by omega)]
  | mem _ rt base offset => [reg rt, based offset.toInt base (half_bounds offset)]
  | compare _ rs rt offset => [reg rs, reg rt, decimal offset.toInt (half_bounds offset)]
  | zero _ rs offset => [reg rs, decimal offset.toInt (half_bounds offset)]
  | jump _ target => [hexadecimal (4 * target.toNat) (by omega)]
  | jr rs => [reg rs]
  | jalr rd rs => [reg rd, reg rs]
  | hiLo _ r => [reg r]
  | mulDiv _ rs rt => [reg rs, reg rt]
  | syscall => []

theorem text_eq (i : Instr) : i.text = i.mnemonic ++ listing i.operandList := by
  have hs (s : String) : toString s = s := rfl
  have hn (n : Nat) : (n : Int).repr = n.repr := rfl
  apply String.toList_inj.mp
  cases i with
  | imm op =>
    by_cases hz : op.zeroExtends <;>
      simp [text, operandList, listing, more, reg, decimal, hexadecimal, hs, hz]
  | _ => simp [text, operandList, listing, more, reg, decimal, hexadecimal, based, hs, hn]

theorem reads_text (i : Instr) :
    Reads i.text.toList (.ident i.mnemonic :: Operand.listKinds (i.operandList.map operand)) := by
  have hid : ∀ e ∈ RealOp.table, IsIdentifier e.1.toList := by decide +kernel
  rw [text_eq, String.toList_append]
  exact (Reads.ident (hid _ i.mnemonic_mem_table)).append (reads_listing _) (breaks_listing _)

def TakesLabel : Instr → Prop
  | compare .. | zero .. | jump .. => True
  | _ => False

section Parse

variable {operands : List (Located Operand)} {span : Span}

theorem means_operandList {i : Instr} (hi : ¬ i.TakesLabel) :
    SourceInstr.Means i.realOp (i.operandList.map operand) (.real i) := by
  cases i with
  | compare | zero | jump => exact (hi trivial).elim
  | alu | shiftVar | jr | jalr | hiLo | mulDiv | syscall => constructor
  | shift op rd rt amount =>
    have h := SourceInstr.Means.shift op rd rt (Signedness.fits_toNat amount)
    rwa [Offset.ofInt_toNat] at h
  | imm op rt rs value =>
    by_cases hz : op.zeroExtends
    · have hf : (SourceInstr.immediateSign op).Fits 16 value.toNat := by
        rw [SourceInstr.immediateSign, if_pos hz]
        exact Signedness.fits_toNat value
      have h := SourceInstr.Means.imm op rt rs hf
      rw [Offset.ofInt_toNat] at h
      rwa [operandList, if_pos hz]
    · have hf : (SourceInstr.immediateSign op).Fits 16 value.toInt := by
        rw [SourceInstr.immediateSign, if_neg hz]
        exact Signedness.reaches_toInt value
      have h := SourceInstr.Means.imm op rt rs hf
      rw [BitVec.ofInt_toInt] at h
      rwa [operandList, if_neg hz]
  | lui rt value =>
    have h := SourceInstr.Means.lui rt (Signedness.fits_toNat value)
    rwa [Offset.ofInt_toNat] at h
  | mem op rt base offset =>
    have h := SourceInstr.Means.mem op rt base (Signedness.reaches_toInt offset)
    rwa [BitVec.ofInt_toInt] at h

theorem ofOperands_operandList {i : Instr} (hi : ¬ i.TakesLabel)
    (h : operands.map (Located.value ·) = i.operandList.map operand) :
    SourceInstr.ofOperands i.realOp operands span = .ok (.real i) := by
  apply SourceInstr.ofOperands_of_means
  rw [h]
  exact means_operandList hi

theorem exists_ofLine (i : Instr) :
    ∃ operands span, operands.map (Located.value ·) = i.operandList.map operand ∧
      Stmt.ofLine i.text = (SourceInstr.ofOperands i.realOp operands span).map fun n =>
        ⟨none, some (.instr n), span⟩ := by
  have hl : ∀ o ∈ i.operandList.map operand, ¬ o.IsLabel := by
    intro o ho
    obtain ⟨p, -, rfl⟩ := List.mem_map.mp ho
    exact p.not_label
  obtain ⟨place, operands, span, hv, h⟩ := Stmt.exists_ofTokens hl i.reads_text.map_kind_ofLine
  refine ⟨operands, span, hv, h.trans ?_⟩
  rw [Nucleus.ofOperands_real i.mnemonic_mem_table]
  cases SourceInstr.ofOperands i.realOp operands span <;> rfl

theorem exists_ofLine_text {i : Instr} (hi : ¬ i.TakesLabel) :
    ∃ span, Stmt.ofLine i.text = .ok ⟨none, some (.instr (.real i)), span⟩ := by
  obtain ⟨operands, span, hv, h⟩ := i.exists_ofLine
  rw [ofOperands_operandList hi hv] at h
  exact ⟨span, h⟩

end Parse

end Instr

end MipsMachine
