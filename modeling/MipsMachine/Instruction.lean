import MipsMachine.Operation
import MipsMachine.Register

namespace MipsMachine

inductive Instr where
  | alu (op : AluOp) (rd rs rt : Reg)
  | shift (op : ShiftOp) (rd rt : Reg) (amount : BitVec 5)
  | shiftVar (op : ShiftOp) (rd rt rs : Reg)
  | imm (op : ImmOp) (rt rs : Reg) (value : Half)
  | lui (rt : Reg) (value : Half)
  | mem (op : MemOp) (rt base : Reg) (offset : Half)
  | compare (op : CompareOp) (rs rt : Reg) (offset : Half)
  | zero (op : ZeroOp) (rs : Reg) (offset : Half)
  | jump (op : JumpOp) (target : BitVec 26)
  | jr (rs : Reg)
  | jalr (rd rs : Reg)
  | hiLo (op : HiLoOp) (reg : Reg)
  | mulDiv (op : MulDivOp) (rs rt : Reg)
  | syscall
deriving DecidableEq

namespace Instr

def mnemonic : Instr → String
  | alu op .. => Operation.mnemonic op
  | shift op .. => Operation.mnemonic op
  | shiftVar op .. => op.variableMnemonic
  | imm op .. => Operation.mnemonic op
  | lui .. => "lui"
  | mem op .. => Operation.mnemonic op
  | compare op .. => Operation.mnemonic op
  | zero op .. => Operation.mnemonic op
  | jump op .. => Operation.mnemonic op
  | jr .. => "jr"
  | jalr .. => "jalr"
  | hiLo op .. => Operation.mnemonic op
  | mulDiv op .. => Operation.mnemonic op
  | syscall => "syscall"

def registerWord (rs rt rd : Reg) (amount : BitVec 5) (funct : BitVec 6) : Word :=
  0#6 ++ rs.number ++ rt.number ++ rd.number ++ amount ++ funct

def immediateWord (opcode : BitVec 6) (rs : Reg) (rt : BitVec 5) (value : Half) : Word :=
  opcode ++ rs.number ++ rt ++ value

def encode : Instr → Word
  | alu op rd rs rt => registerWord rs rt rd 0 (code op)
  | shift op rd rt amount => registerWord .zero rt rd amount (code op)
  | shiftVar op rd rt rs => registerWord rs rt rd 0 (code op + 4)
  | imm op rt rs value => immediateWord (code op) rs rt.number value
  | lui rt value => immediateWord 0x0F .zero rt.number value
  | mem op rt base offset => immediateWord (code op) base rt.number offset
  | compare op rs rt offset => immediateWord (code op) rs rt.number offset
  | zero op rs offset => immediateWord (code op) rs op.selector offset
  | jump op target => code op ++ target
  | jr rs => registerWord rs .zero .zero 0 0x08
  | jalr rd rs => registerWord rs .zero rd 0 0x09
  | hiLo op reg =>
    if op.isLoad then registerWord .zero .zero reg 0 (code op) else registerWord reg .zero .zero 0 (code op)
  | mulDiv op rs rt => registerWord rs rt .zero 0 (code op)
  | syscall => registerWord .zero .zero .zero 0 0x0C

def ofFunct? (rs rt rd : Reg) (amount : BitVec 5) (funct : Nat) : Option Instr :=
  open Operation in
  if funct = 0x08 then some (.jr rs)
  else if funct = 0x09 then some (.jalr rd rs)
  else if funct = 0x0C then some .syscall
  else if 4 ≤ funct ∧ funct < 8 then (ofCode? (funct - 4)).map (shiftVar · rd rt rs)
  else (ofCode? funct).map (shift · rd rt amount)
    <|> (ofCode? funct).map (alu · rd rs rt)
    <|> (ofCode? funct).map (fun op => hiLo op (if op.isLoad then rd else rs))
    <|> (ofCode? funct).map (mulDiv · rs rt)

def decode? (w : Word) : Option Instr :=
  open Operation in
  let opcode := (w.extractLsb' 26 6).toNat
  let rs : Reg := ⟨w.extractLsb' 21 5⟩
  let rt : Reg := ⟨w.extractLsb' 16 5⟩
  let rd : Reg := ⟨w.extractLsb' 11 5⟩
  let value : Half := w.extractLsb' 0 16
  if opcode = 0x00 then ofFunct? rs rt rd (w.extractLsb' 6 5) (w.extractLsb' 0 6).toNat
  else if opcode = 0x01 then
    if rt.number = 0 then some (.zero .bltz rs value)
    else if rt.number = 1 then some (.zero .bgez rs value)
    else none
  else if opcode = 0x06 then some (.zero .blez rs value)
  else if opcode = 0x07 then some (.zero .bgtz rs value)
  else if opcode = 0x0F then some (.lui rt value)
  else (ofCode? opcode).map (jump · (w.extractLsb' 0 26))
    <|> (ofCode? opcode).map (compare · rs rt value)
    <|> (ofCode? opcode).map (imm · rt rs value)
    <|> (ofCode? opcode).map (mem · rt rs value)

def text (i : Instr) : String :=
  i.mnemonic ++ match i with
  | alu _ rd rs rt => s!" {rd.text}, {rs.text}, {rt.text}"
  | shift _ rd rt amount => s!" {rd.text}, {rt.text}, {amount.toNat}"
  | shiftVar _ rd rt rs => s!" {rd.text}, {rt.text}, {rs.text}"
  | imm op rt rs value =>
    if op.zeroExtends then s!" {rt.text}, {rs.text}, 0x{hexDigits value.toNat}"
    else s!" {rt.text}, {rs.text}, {value.toInt}"
  | lui rt value => s!" {rt.text}, 0x{hexDigits value.toNat}"
  | mem _ rt base offset => s!" {rt.text}, {offset.toInt}({base.text})"
  | compare _ rs rt offset => s!" {rs.text}, {rt.text}, {offset.toInt}"
  | zero _ rs offset => s!" {rs.text}, {offset.toInt}"
  | jump _ target => s!" 0x{hexDigits (4 * target.toNat)}"
  | jr rs => s!" {rs.text}"
  | jalr rd rs => s!" {rd.text}, {rs.text}"
  | hiLo _ reg => s!" {reg.text}"
  | mulDiv _ rs rt => s!" {rs.text}, {rt.text}"
  | syscall => ""

end Instr

end MipsMachine
