import MipsMachine.Machine

namespace MipsMachine

structure Effect where
  pc : Word
  register : Option (Reg × Word)
  hiLo : Option (Word × Word)
  store : Option (Word × List Byte)
  console : Console
  exits : Bool

/-- A failure with the console after it: a line that is no integer has been taken from the input. -/
structure Fault where
  cause : ExecError
  console : Console

namespace Machine

def next (m : Machine) : Effect := ⟨m.pc + 4, none, none, none, m.console, false⟩

def writing (m : Machine) (r : Reg) (v : Word) : Effect := { m.next with register := some (r, v) }

def fault {α : Type} (m : Machine) (cause : ExecError) : Except Fault α := .error ⟨cause, m.console⟩

def lift {α : Type} (m : Machine) (result : Except ExecError α) : Except Fault α :=
  result.mapError fun cause => ⟨cause, m.console⟩

def perform (m : Machine) (e : Effect) : Machine :=
  let registers := e.register.elim m.registers fun w => m.registers.set w.1 w.2
  { m with
    pc := e.pc
    registers := e.hiLo.elim registers fun w => { registers with hi := w.1, lo := w.2 }
    memory := e.store.elim m.memory fun s => m.memory.setBytes s.1 s.2
    console := e.console
    halted := m.halted || e.exits
    count := m.count + 1 }

end Machine

end MipsMachine
