import MipsMachine.Instruction

namespace MipsMachine

inductive OperandKind where
  | reg | int | label | mem
deriving DecidableEq

def OperandKind.text : OperandKind → String
  | reg => "register"
  | int => "integer"
  | label => "label"
  | mem => "offset(register)"

inductive Format where
  | threeReg | shift | shiftVariable | immArith | loadUpper | loadStore | compareBranch | zeroBranch
  | jump | noOperand | jumpReg | hiLoMove | mulDiv
deriving DecidableEq

def Format.pattern : Format → List OperandKind
  | threeReg => [.reg, .reg, .reg]
  | shift => [.reg, .reg, .int]
  | shiftVariable => [.reg, .reg, .reg]
  | immArith => [.reg, .reg, .int]
  | loadUpper => [.reg, .int]
  | loadStore => [.reg, .mem]
  | compareBranch => [.reg, .reg, .label]
  | zeroBranch => [.reg, .label]
  | jump => [.label]
  | noOperand => []
  | jumpReg => [.reg]
  | hiLoMove => [.reg]
  | mulDiv => [.reg, .reg]

inductive RealOp where
  | alu (op : AluOp)
  | shift (op : ShiftOp)
  | shiftVar (op : ShiftOp)
  | imm (op : ImmOp)
  | lui
  | mem (op : MemOp)
  | compare (op : CompareOp)
  | zero (op : ZeroOp)
  | jump (op : JumpOp)
  | syscall
  | jr
  | jalr
  | hiLo (op : HiLoOp)
  | mulDiv (op : MulDivOp)
deriving DecidableEq

namespace RealOp

def format : RealOp → Format
  | alu _ => .threeReg
  | shift _ => .shift
  | shiftVar _ => .shiftVariable
  | imm _ => .immArith
  | lui => .loadUpper
  | mem _ => .loadStore
  | compare _ => .compareBranch
  | zero _ => .zeroBranch
  | jump _ => .jump
  | syscall => .noOperand
  | jr | jalr => .jumpReg
  | hiLo _ => .hiLoMove
  | mulDiv _ => .mulDiv

def template : RealOp → Instr
  | alu op => .alu op .zero .zero .zero
  | shift op => .shift op .zero .zero 0
  | shiftVar op => .shiftVar op .zero .zero .zero
  | imm op => .imm op .zero .zero 0
  | lui => .lui .zero 0
  | mem op => .mem op .zero .zero 0
  | compare op => .compare op .zero .zero 0
  | zero op => .zero op .zero 0
  | jump op => .jump op 0
  | syscall => .syscall
  | jr => .jr .zero
  | jalr => .jalr .zero .zero
  | hiLo op => .hiLo op .zero
  | mulDiv op => .mulDiv op .zero .zero

def opcode (op : RealOp) : BitVec 6 := op.template.encode.extractLsb' 26 6

def funct (op : RealOp) : Option (BitVec 6) :=
  if op.opcode = 0 then some (op.template.encode.extractLsb' 0 6) else none

def table : List (String × RealOp) := [
  ("add", alu .add), ("addu", alu .addu), ("sub", alu .sub), ("subu", alu .subu),
  ("and", alu .and), ("or", alu .or), ("xor", alu .xor), ("nor", alu .nor),
  ("seq", alu .seq), ("slt", alu .slt), ("sltu", alu .sltu),
  ("sll", shift .sll), ("srl", shift .srl), ("sra", shift .sra),
  ("sllv", shiftVar .sll), ("srlv", shiftVar .srl), ("srav", shiftVar .sra),
  ("addi", imm .addi), ("addiu", imm .addiu), ("slti", imm .slti), ("sltiu", imm .sltiu),
  ("andi", imm .andi), ("ori", imm .ori), ("xori", imm .xori), ("lui", lui),
  ("lb", mem .lb), ("lh", mem .lh), ("lw", mem .lw), ("lbu", mem .lbu), ("lhu", mem .lhu),
  ("sb", mem .sb), ("sh", mem .sh), ("sw", mem .sw),
  ("beq", compare .beq), ("bne", compare .bne),
  ("blez", zero .blez), ("bgtz", zero .bgtz), ("bltz", zero .bltz), ("bgez", zero .bgez),
  ("j", jump .j), ("jal", jump .jal), ("syscall", syscall), ("jr", jr), ("jalr", jalr),
  ("mfhi", hiLo .mfhi), ("mthi", hiLo .mthi), ("mflo", hiLo .mflo), ("mtlo", hiLo .mtlo),
  ("mult", mulDiv .mult), ("multu", mulDiv .multu), ("div", mulDiv .div), ("divu", mulDiv .divu)]

def find? (name : String) : Option RealOp := table.lookup name

end RealOp

inductive Comparison where
  | lt | le | gt | ge
deriving DecidableEq

inductive PseudoOp where
  | move | li | la | abs | neg | negu | not | mul | sgt | sge
  | ordBranch (order : Comparison)
  | b
deriving DecidableEq

namespace PseudoOp

def pattern : PseudoOp → List OperandKind
  | move | abs | neg | negu | not => [.reg, .reg]
  | li => [.reg, .int]
  | la => [.reg, .label]
  | mul | sgt | sge => [.reg, .reg, .reg]
  | ordBranch _ => [.reg, .reg, .label]
  | b => [.label]

def table : List (String × PseudoOp) := [
  ("move", move), ("li", li), ("la", la), ("abs", abs), ("neg", neg), ("negu", negu), ("not", not),
  ("mul", mul), ("sgt", sgt), ("sge", sge), ("blt", ordBranch .lt), ("ble", ordBranch .le),
  ("bgt", ordBranch .gt), ("bge", ordBranch .ge), ("b", b)]

def find? (name : String) : Option PseudoOp := table.lookup name

end PseudoOp

end MipsMachine
