import MipsMachine.Memory
import MipsMachine.Register

namespace MipsMachine

/-- A test of a 32-bit value. The orders come unsigned (`below`, `above`) and signed (`less`, `greater`). -/
inductive Comparator where
  | never
  | eq (operand : Word)
  | ne (operand : Word)
  | below (operand : Word)
  | above (operand : Word)
  | less (operand : Word)
  | greater (operand : Word)
  | always
deriving DecidableEq

namespace Comparator

def check : Comparator → Word → Bool
  | never, _ => false
  | eq r, v => v = r
  | ne r, v => v ≠ r
  | below r, v => v < r
  | above r, v => r < v
  | less r, v => v.toInt < r.toInt
  | greater r, v => r.toInt < v.toInt
  | always, _ => true

def text : Comparator → String
  | never => "never"
  | eq r => s!"== 0x{hexDigits r.toNat}"
  | ne r => s!"!= 0x{hexDigits r.toNat}"
  | below r => s!"<u 0x{hexDigits r.toNat}"
  | above r => s!">u 0x{hexDigits r.toNat}"
  | less r => s!"< {r.toInt}"
  | greater r => s!"> {r.toInt}"
  | always => "always"

end Comparator

inductive Breakpoint where
  | pc (addr : Word)
  | label (name : String)
  | reg (reg : Reg) (test : Comparator)
  | hi (test : Comparator)
  | lo (test : Comparator)
  | mem (addr : Word) (width : Width) (test : Comparator)
deriving DecidableEq

def Breakpoint.text : Breakpoint → String
  | pc addr => s!"pc == {addr.hex}"
  | label name => s!"pc == {name}"
  | reg r test => s!"{r.text} {test.text}"
  | hi test => s!"hi {test.text}"
  | lo test => s!"lo {test.text}"
  | mem addr width test => s!"{width.name}[{addr.hex}] {test.text}"

end MipsMachine
