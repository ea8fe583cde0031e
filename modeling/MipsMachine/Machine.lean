import MipsMachine.Breakpoint
import MipsMachine.Console
import MipsMachine.Symbols

namespace MipsMachine

inductive Mode where
  | text
  | data
deriving DecidableEq

namespace Mode

def segment : Mode → Segment
  | text => .text
  | data => .data

end Mode

structure Flags where
  clearSymbolsOnReset : Bool
  trapOnOverflow : Bool
deriving DecidableEq

def Flags.initial : Flags := ⟨true, true⟩

structure Machine where
  memory : Memory
  registers : RegisterFile
  pc : Word
  textCursor : Word
  dataCursor : Word
  mode : Mode
  symbols : Symbols
  halted : Bool
  count : BitVec 64
  flags : Flags
  breakpoints : List Breakpoint
  console : Console

namespace Machine

def new (flags : Flags) : Machine where
  memory := .empty
  registers := .initial
  pc := Segment.text.start
  textCursor := Segment.text.start
  dataCursor := Segment.data.start
  mode := .text
  symbols := .empty
  halted := false
  count := 0
  flags := flags
  breakpoints := []
  console := .empty

/--
Goes back to a new machine's state, but for the flags, the breakpoints and the console. The
placeholders are gone with the memory and so are their fixups; labels go only if the flags say so.
-/
def reset (m : Machine) : Machine :=
  { new m.flags with
    symbols := if m.flags.clearSymbolsOnReset then .empty else m.symbols.clearFixups
    breakpoints := m.breakpoints
    console := m.console }

def get (m : Machine) (r : Reg) : Word := m.registers.get r

def addBreakpoint (m : Machine) (b : Breakpoint) : Bool × Machine :=
  if b ∈ m.breakpoints then (false, m) else (true, { m with breakpoints := b :: m.breakpoints })

def removeBreakpoint (m : Machine) (b : Breakpoint) : Bool × Machine :=
  (decide (b ∈ m.breakpoints), { m with breakpoints := m.breakpoints.erase b })

end Machine

/-- Whether a breakpoint stops a machine here. A label without address and a faulty access never do. -/
def Breakpoint.check (b : Breakpoint) (m : Machine) : Bool :=
  match b with
  | pc addr => m.pc = addr
  | label name => m.symbols.lookup name = some m.pc
  | reg r test => test.check (m.get r)
  | hi test => test.check m.registers.hi
  | lo test => test.check m.registers.lo
  | mem addr width test =>
    match m.memory.read addr width with
    | .ok v => test.check v
    | .error _ => false

end MipsMachine
