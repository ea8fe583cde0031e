import MipsMachine.Assembly.Error
import MipsMachine.Instruction

/-!
Words whose contents depend on the address of a label. A patch holds all fields but that address;
resolving it gives the words, and its placeholder stands in for them until then.
-/

namespace MipsMachine

inductive Patch where
  | compare (op : CompareOp) (rs rt : Reg)
  | zero (op : ZeroOp) (rs : Reg)
  | jump (op : JumpOp)
  | address (rd : Reg)
deriving DecidableEq

namespace Patch

def loadConstant (rd : Reg) (value : Word) : List Instr :=
  [.lui .scratch (value.extractLsb' 16 16), .imm .ori rd .scratch (value.extractLsb' 0 16)]

def size : Patch → Nat
  | compare .. | zero .. | jump _ => 1
  | address _ => 2

def placeholder : Patch → List Word
  | compare op rs rt => [(Instr.compare op rs rt 0).encode]
  | zero op rs => [(Instr.zero op rs 0).encode]
  | jump op => [(Instr.jump op 0).encode]
  | address rd => (loadConstant rd 0).map Instr.encode

def branchOffset (addr target : Word) : Except AsmCause Half :=
  if target.toNat % 4 ≠ 0 then .error (.misalignedTarget target)
  else
    match Offset.ofLiteral .signed 16 (((target.toNat : Int) - addr.toNat - 4).tdiv 4) with
    | .ok offset => .ok offset.field
    | .error e => .error (.branchOutOfRange e)

def jumpIndex (addr target : Word) : Except AsmCause (BitVec 26) :=
  if target.toNat % 4 ≠ 0 then .error (.misalignedTarget target)
  else if target.extractLsb' 28 4 ≠ (addr + 4).extractLsb' 28 4 then .error (.jumpOutOfRegion target)
  else .ok (target.extractLsb' 2 26)

def resolve (p : Patch) (addr target : Word) : Except AsmCause (List Word) :=
  match p with
  | compare op rs rt => do return [(Instr.compare op rs rt (← branchOffset addr target)).encode]
  | zero op rs => do return [(Instr.zero op rs (← branchOffset addr target)).encode]
  | jump op => do return [(Instr.jump op (← jumpIndex addr target)).encode]
  | address rd => .ok ((loadConstant rd target).map Instr.encode)

end Patch

end MipsMachine
