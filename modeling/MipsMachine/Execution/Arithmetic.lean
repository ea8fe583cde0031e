import MipsMachine.Execution.Error
import MipsMachine.Memory
import MipsMachine.Operation

namespace MipsMachine

def signedAdd (trap : Bool) (a b : Word) : Except ExecError Word :=
  if trap ∧ BitVec.saddOverflow a b then .error .integerOverflow else .ok (a + b)

def signedSub (trap : Bool) (a b : Word) : Except ExecError Word :=
  if trap ∧ BitVec.ssubOverflow a b then .error .integerOverflow else .ok (a - b)

def truth (b : Bool) : Word := if b then 1 else 0

def AluOp.result (trap : Bool) (a b : Word) : AluOp → Except ExecError Word
  | add => signedAdd trap a b
  | addu => .ok (a + b)
  | sub => signedSub trap a b
  | subu => .ok (a - b)
  | and => .ok (a &&& b)
  | or => .ok (a ||| b)
  | xor => .ok (a ^^^ b)
  | nor => .ok (~~~(a ||| b))
  | seq => .ok (truth (a = b))
  | slt => .ok (truth (a.toInt < b.toInt))
  | sltu => .ok (truth (a < b))

def ImmOp.result (trap : Bool) (a b : Word) : ImmOp → Except ExecError Word
  | addi => signedAdd trap a b
  | addiu => .ok (a + b)
  | slti => .ok (truth (a.toInt < b.toInt))
  | sltiu => .ok (truth (a < b))
  | andi => .ok (a &&& b)
  | ori => .ok (a ||| b)
  | xori => .ok (a ^^^ b)

def ShiftOp.result (v : Word) (amount : BitVec 5) : ShiftOp → Word
  | sll => v <<< amount
  | srl => v >>> amount
  | sra => v.sshiftRight amount.toNat

def MulDivOp.result (a b : Word) : MulDivOp → Except ExecError (Word × Word)
  | mult =>
    let product : BitVec 64 := a.signExtend 64 * b.signExtend 64
    .ok (product.extractLsb' 32 32, product.extractLsb' 0 32)
  | multu =>
    let product : BitVec 64 := a.zeroExtend 64 * b.zeroExtend 64
    .ok (product.extractLsb' 32 32, product.extractLsb' 0 32)
  | div => if b = 0 then .error .divideByZero else .ok (a.srem b, a.sdiv b)
  | divu => if b = 0 then .error .divideByZero else .ok (a % b, a / b)

namespace MemOp

def width : MemOp → Width
  | lb | lbu | sb => .byte
  | lh | lhu | sh => .half
  | lw | sw => .word

def extend : MemOp → Word → Word
  | lb, v => (v.setWidth 8).signExtend 32
  | lh, v => (v.setWidth 16).signExtend 32
  | _, v => v

end MemOp

end MipsMachine
