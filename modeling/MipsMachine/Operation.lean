import MipsMachine.Word

namespace MipsMachine

class Operation (α : Type) where
  all : List α
  code : α → BitVec 6
  mnemonic : α → String

export Operation (code mnemonic)

namespace Operation

variable {α : Type} [Operation α]

def ofCode? (n : Nat) : Option α := (all : List α).find? fun op => (code op).toNat = n

def ofMnemonic? (name : String) : Option α := (all : List α).find? fun op => mnemonic op = name

end Operation

inductive AluOp where
  | add | addu | sub | subu | and | or | xor | nor | seq | slt | sltu
deriving DecidableEq

instance : Operation AluOp where
  all := [.add, .addu, .sub, .subu, .and, .or, .xor, .nor, .seq, .slt, .sltu]
  code
    | .add => 0x20 | .addu => 0x21 | .sub => 0x22 | .subu => 0x23
    | .and => 0x24 | .or => 0x25 | .xor => 0x26 | .nor => 0x27
    | .seq => 0x28 | .slt => 0x2A | .sltu => 0x2B
  mnemonic
    | .add => "add" | .addu => "addu" | .sub => "sub" | .subu => "subu"
    | .and => "and" | .or => "or" | .xor => "xor" | .nor => "nor"
    | .seq => "seq" | .slt => "slt" | .sltu => "sltu"

/-- Shifts. The code is that of a shift by a constant; a shift by a register lies four above it. -/
inductive ShiftOp where
  | sll | srl | sra
deriving DecidableEq

instance : Operation ShiftOp where
  all := [.sll, .srl, .sra]
  code | .sll => 0x00 | .srl => 0x02 | .sra => 0x03
  mnemonic | .sll => "sll" | .srl => "srl" | .sra => "sra"

def ShiftOp.variableMnemonic : ShiftOp → String
  | .sll => "sllv" | .srl => "srlv" | .sra => "srav"

inductive ImmOp where
  | addi | addiu | slti | sltiu | andi | ori | xori
deriving DecidableEq

instance : Operation ImmOp where
  all := [.addi, .addiu, .slti, .sltiu, .andi, .ori, .xori]
  code
    | .addi => 0x08 | .addiu => 0x09 | .slti => 0x0A | .sltiu => 0x0B
    | .andi => 0x0C | .ori => 0x0D | .xori => 0x0E
  mnemonic
    | .addi => "addi" | .addiu => "addiu" | .slti => "slti" | .sltiu => "sltiu"
    | .andi => "andi" | .ori => "ori" | .xori => "xori"

namespace ImmOp

def zeroExtends : ImmOp → Bool
  | andi | ori | xori => true
  | addi | addiu | slti | sltiu => false

def extend (op : ImmOp) (imm : Half) : Word :=
  if op.zeroExtends then imm.zeroExtend 32 else imm.signExtend 32

end ImmOp

inductive MemOp where
  | lb | lh | lw | lbu | lhu | sb | sh | sw
deriving DecidableEq

instance : Operation MemOp where
  all := [.lb, .lh, .lw, .lbu, .lhu, .sb, .sh, .sw]
  code
    | .lb => 0x20 | .lh => 0x21 | .lw => 0x23 | .lbu => 0x24 | .lhu => 0x25
    | .sb => 0x28 | .sh => 0x29 | .sw => 0x2B
  mnemonic
    | .lb => "lb" | .lh => "lh" | .lw => "lw" | .lbu => "lbu" | .lhu => "lhu"
    | .sb => "sb" | .sh => "sh" | .sw => "sw"

def MemOp.isStore : MemOp → Bool
  | .sb | .sh | .sw => true
  | .lb | .lh | .lw | .lbu | .lhu => false

inductive CompareOp where
  | beq | bne
deriving DecidableEq

instance : Operation CompareOp where
  all := [.beq, .bne]
  code | .beq => 0x04 | .bne => 0x05
  mnemonic | .beq => "beq" | .bne => "bne"

def CompareOp.test : CompareOp → Word → Word → Bool
  | .beq, a, b => a = b
  | .bne, a, b => a ≠ b

inductive JumpOp where
  | j | jal
deriving DecidableEq

instance : Operation JumpOp where
  all := [.j, .jal]
  code | .j => 0x02 | .jal => 0x03
  mnemonic | .j => "j" | .jal => "jal"

inductive HiLoOp where
  | mfhi | mthi | mflo | mtlo
deriving DecidableEq

instance : Operation HiLoOp where
  all := [.mfhi, .mthi, .mflo, .mtlo]
  code | .mfhi => 0x10 | .mthi => 0x11 | .mflo => 0x12 | .mtlo => 0x13
  mnemonic | .mfhi => "mfhi" | .mthi => "mthi" | .mflo => "mflo" | .mtlo => "mtlo"

def HiLoOp.isLoad : HiLoOp → Bool
  | .mfhi | .mflo => true
  | .mthi | .mtlo => false

inductive MulDivOp where
  | mult | multu | div | divu
deriving DecidableEq

instance : Operation MulDivOp where
  all := [.mult, .multu, .div, .divu]
  code | .mult => 0x18 | .multu => 0x19 | .div => 0x1A | .divu => 0x1B
  mnemonic | .mult => "mult" | .multu => "multu" | .div => "div" | .divu => "divu"

inductive ZeroOp where
  | blez | bgtz | bltz | bgez
deriving DecidableEq

namespace ZeroOp

/-- The second register field, which tells `bltz` and `bgez` apart under their one opcode. -/
def selector : ZeroOp → BitVec 5
  | blez | bgtz | bltz => 0
  | bgez => 1

def test : ZeroOp → Word → Bool
  | blez, w => w.toInt ≤ 0
  | bgtz, w => 0 < w.toInt
  | bltz, w => w.toInt < 0
  | bgez, w => 0 ≤ w.toInt

end ZeroOp

instance : Operation ZeroOp where
  all := [.blez, .bgtz, .bltz, .bgez]
  code | .blez => 0x06 | .bgtz => 0x07 | .bltz | .bgez => 0x01
  mnemonic | .blez => "blez" | .bgtz => "bgtz" | .bltz => "bltz" | .bgez => "bgez"

end MipsMachine
