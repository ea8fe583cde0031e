import MipsMachine.Execution.Arithmetic
import MipsMachine.Execution.Syscall

namespace MipsMachine

def Instr.decode (w : Word) : Except ExecError Instr :=
  match decode? w with
  | some i => .ok i
  | none => .error (.unknownInstruction w)

namespace Machine

def linking (m : Machine) (r : Reg) (target : Word) : Effect :=
  { m.writing r (m.pc + 4) with pc := target }

def branching (m : Machine) (taken : Bool) (offset : Half) : Effect :=
  if taken then { m.next with pc := m.pc + 4 + (offset.signExtend 32 <<< 2) } else m.next

def jumpTarget (m : Machine) (index : BitVec 26) : Word :=
  (m.pc + 4).extractLsb' 28 4 ++ index ++ 0#2

def execute (m : Machine) (i : Instr) : Except Fault Effect :=
  let trap := m.flags.trapOnOverflow
  match i with
  | .alu op rd rs rt => do return m.writing rd (← m.lift (op.result trap (m.get rs) (m.get rt)))
  | .shift op rd rt amount => .ok (m.writing rd (op.result (m.get rt) amount))
  | .shiftVar op rd rt rs => .ok (m.writing rd (op.result (m.get rt) ((m.get rs).setWidth 5)))
  | .imm op rt rs value => do
    return m.writing rt (← m.lift (op.result trap (m.get rs) (op.extend value)))
  | .lui rt value => .ok (m.writing rt (value ++ 0#16))
  | .mem op rt base offset =>
    let addr := m.get base + offset.signExtend 32
    if op.isStore then do
      m.lift (Memory.checkAccess addr op.width)
      return { m.next with store := some (addr, op.width.bytes (m.get rt)) }
    else do
      return m.writing rt (op.extend (← m.lift (m.memory.read addr op.width)))
  | .compare op rs rt offset => .ok (m.branching (op.test (m.get rs) (m.get rt)) offset)
  | .zero op rs offset => .ok (m.branching (op.test (m.get rs)) offset)
  | .jump .j index => .ok { m.next with pc := m.jumpTarget index }
  | .jump .jal index => .ok (m.linking .ra (m.jumpTarget index))
  | .jr rs => .ok { m.next with pc := m.get rs }
  | .jalr rd rs => .ok (m.linking rd (m.get rs))
  | .hiLo .mfhi rd => .ok (m.writing rd m.registers.hi)
  | .hiLo .mflo rd => .ok (m.writing rd m.registers.lo)
  | .hiLo .mthi rs => .ok { m.next with hiLo := some (m.get rs, m.registers.lo) }
  | .hiLo .mtlo rs => .ok { m.next with hiLo := some (m.registers.hi, m.get rs) }
  | .mulDiv op rs rt => do
    return { m.next with hiLo := some (← m.lift (op.result (m.get rs) (m.get rt))) }
  | .syscall => m.syscall

def fetch (m : Machine) : Except ExecError Instr := do
  if m.symbols.hasUnresolved then
    if let some f := m.symbols.fixupAt m.pc then throw (.unresolvedFixup f.label)
  if Segment.of? m.pc ≠ some .text then throw (.accessViolation m.pc)
  Instr.decode (← m.memory.read m.pc .word)

theorem fetch_covered {m : Machine} {f : Fixup} (hu : m.symbols.hasUnresolved = true)
    (hf : m.symbols.fixupAt m.pc = some f) : m.fetch = .error (.unresolvedFixup f.label) := by
  unfold fetch
  simp only [hu, hf, if_true]
  rfl

theorem fetch_settled {m : Machine} (h : m.symbols.hasUnresolved = true → m.symbols.fixupAt m.pc = none) :
    m.fetch = if Segment.of? m.pc ≠ some .text then .error (.accessViolation m.pc)
      else m.memory.read m.pc .word >>= Instr.decode := by
  unfold fetch
  by_cases hu : m.symbols.hasUnresolved = true
  · simp only [hu, h hu, if_true]
    rfl
  · simp only [hu]
    rfl

def effect (m : Machine) : Except Fault Effect := do m.execute (← m.lift m.fetch)

def step (m : Machine) : Except ExecError Unit × Machine :=
  match m.effect with
  | .ok e => (.ok (), m.perform e)
  | .error f => (.error f.cause, { m with console := f.console })

end Machine

end MipsMachine
