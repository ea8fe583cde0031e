import MipsMachine.Mnemonic
import MipsMachine.Span

namespace MipsMachine

structure Label where
  name : String
  start : Nat
deriving DecidableEq

def Label.span (l : Label) : Span := ⟨l.start, l.start + l.name.utf8ByteSize⟩

inductive Pseudo where
  | move (rd rs : Reg)
  | li (rt : Reg) (value : Int)
  | la (rt : Reg) (label : Label)
  | abs (rd rs : Reg)
  | neg (rd rs : Reg)
  | negu (rd rs : Reg)
  | not (rd rs : Reg)
  | mul (rd rs rt : Reg)
  | sgt (rd rs rt : Reg)
  | sge (rd rs rt : Reg)
  | ordBranch (order : Comparison) (rs rt : Reg) (label : Label)
  | b (label : Label)
  | memLabel (op : MemOp) (rt : Reg) (label : Label)
deriving DecidableEq

inductive SourceInstr where
  | real (instr : Instr)
  | compare (op : CompareOp) (rs rt : Reg) (label : Label)
  | zero (op : ZeroOp) (rs : Reg) (label : Label)
  | jump (op : JumpOp) (label : Label)
  | pseudo (instr : Pseudo)
deriving DecidableEq

inductive Directive where
  | text
  | data
  | word (values : List Word)
  | half (values : List Half)
  | byte (values : List Byte)
  | ascii (text : String)
  | asciiz (text : String)
  | space (size : Word)
  | align (exponent : Word)
deriving DecidableEq

inductive Nucleus where
  | instr (instr : SourceInstr)
  | directive (directive : Directive)
deriving DecidableEq

structure Stmt where
  label : Option Label
  nucleus : Option Nucleus
  span : Span
deriving DecidableEq

end MipsMachine
