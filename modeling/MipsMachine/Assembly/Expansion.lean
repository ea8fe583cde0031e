import MipsMachine.Assembly.Error
import MipsMachine.Patch
import MipsMachine.Statement

namespace MipsMachine

inductive Piece where
  | word (instr : Instr)
  | ref (patch : Patch) (label : Label)
deriving DecidableEq

namespace Pseudo

def orderedBranch (order : Comparison) (rs rt : Reg) (label : Label) : List Piece :=
  match order with
  | .lt => [.word (.alu .slt .scratch rs rt), .ref (.compare .bne .scratch .zero) label]
  | .ge => [.word (.alu .slt .scratch rs rt), .ref (.compare .beq .scratch .zero) label]
  | .gt => [.word (.alu .slt .scratch rt rs), .ref (.compare .bne .scratch .zero) label]
  | .le => [.word (.alu .slt .scratch rt rs), .ref (.compare .beq .scratch .zero) label]

def expand (lookup : String → Option Word) : Pseudo → Except AsmError (List Piece)
  | move rd rs => .ok [.word (.alu .add rd rs .zero)]
  | li rt value =>
    if -0x8000 ≤ value ∧ value < 0x8000 then .ok [.word (.imm .addiu rt .zero (BitVec.ofInt 16 value))]
    else .ok ((Patch.loadConstant rt (BitVec.ofInt 32 value)).map .word)
  | la rt label =>
    match lookup label.name with
    | some addr => .ok ((Patch.loadConstant rt addr).map .word)
    | none => .error ((AsmCause.undefinedLabel label.name).marked label.span)
  | abs rd rs => .ok [
      .word (.shift .sra .scratch rs 31),
      .word (.alu .xor rd rs .scratch),
      .word (.alu .subu rd rd .scratch)]
  | neg rd rs => .ok [.word (.alu .sub rd .zero rs)]
  | negu rd rs => .ok [.word (.alu .subu rd .zero rs)]
  | not rd rs => .ok [.word (.alu .nor rd rs .zero)]
  | mul rd rs rt => .ok [.word (.mulDiv .mult rs rt), .word (.hiLo .mflo rd)]
  | sgt rd rs rt => .ok [.word (.alu .slt rd rt rs)]
  | sge rd rs rt => .ok [.word (.alu .slt rd rs rt), .word (.imm .xori rd rd 1)]
  | ordBranch order rs rt label => .ok (orderedBranch order rs rt label)
  | b label => .ok [.ref (.compare .beq .zero .zero) label]
  | memLabel op rt label => .ok [.ref (.address .scratch) label, .word (.mem op rt .scratch 0)]

end Pseudo

def SourceInstr.expand (lookup : String → Option Word) : SourceInstr → Except AsmError (List Piece)
  | real i => .ok [.word i]
  | compare op rs rt label => .ok [.ref (.compare op rs rt) label]
  | zero op rs label => .ok [.ref (.zero op rs) label]
  | jump op label => .ok [.ref (.jump op) label]
  | pseudo p => p.expand lookup

end MipsMachine
