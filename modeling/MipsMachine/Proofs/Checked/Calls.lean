import MipsMachine.Proofs.Checked.Assembly
import MipsMachine.Proofs.Checked.Execution

namespace MipsMachine

inductive Call where
  | assembleLine (src : String)
  | define (label : String) (addr : Word)
  | emitText (word : Word)
  | emitByte (byte : Byte)
  | emitHalf (half : Half)
  | emitWord (word : Word)
  | emitAsciiz (text : String)
  | step
  | runWithLimit (limit : BitVec 64)
  | reset
  | check (b : Breakpoint)
  | read (addr : Word) (width : Width)
  | write (addr : Word) (width : Width) (value : Word)
  | setByte (addr : Word) (value : Byte)
  | setWord (addr value : Word)
  | setRegister (r : Reg) (value : Word)
  | setHiLo (hi lo : Word)
  | setPc (pc : Word)
  | setCount (count : BitVec 64)
  | setFlags (flags : Flags)
  | setBreakpoints (breakpoints : List Breakpoint)
  | setConsole (console : Console)

namespace Call

def act (m : Machine) : Call → Machine
  | assembleLine src => (m.assembleLine src).2
  | define label addr => (m.define label addr).2
  | emitText word => (m.emitText word).2
  | emitByte byte => (m.emitByte byte).2
  | emitHalf half => (m.emitHalf half).2
  | emitWord word => (m.emitWord word).2
  | emitAsciiz text => (m.emitAsciiz text).2
  | step => m.step.2
  | runWithLimit limit => (m.runWithLimit limit).elim m Run.machine
  | reset => m.reset
  | check _ | read _ _ => m
  | write addr width value => { m with memory := (m.memory.write addr width value).toOption.getD m.memory }
  | setByte addr value => { m with memory := m.memory.setByte addr value }
  | setWord addr value => { m with memory := m.memory.setWord addr value }
  | setRegister r value => { m with registers := m.registers.set r value }
  | setHiLo hi lo => { m with registers := { m.registers with hi, lo } }
  | setPc pc => { m with pc }
  | setCount count => { m with count }
  | setFlags flags => { m with flags }
  | setBreakpoints breakpoints => { m with breakpoints }
  | setConsole console => { m with console }

theorem reachable_act {m : Machine} (h : m.Reachable) (c : Call) : (c.act m).Reachable := by
  have hset (memory : Memory) (registers : RegisterFile) :=
    h.set memory registers m.pc m.count m.flags m.breakpoints m.console
  cases c with
  | assembleLine src => exact h.assembleLine src
  | define label addr => exact h.define label addr
  | emitText word => exact h.emitText word
  | emitByte byte => exact h.emitByte byte
  | emitHalf half => exact h.emitHalf half
  | emitWord word => exact h.emitWord word
  | emitAsciiz text => exact h.emitAsciiz text
  | step => exact h.step
  | runWithLimit limit =>
    obtain ⟨r, hr⟩ := Checked.exists_runWithLimit m limit
    rw [act, hr]
    exact h.runWhile (fun _ _ h => h) hr
  | reset => exact h.reset
  | check | read => exact h
  | write addr width value => exact hset _ m.registers
  | setByte addr value => exact hset _ m.registers
  | setWord addr value => exact hset _ m.registers
  | setRegister r value => exact hset m.memory _
  | setHiLo hi lo => exact hset m.memory _
  | setPc pc => exact h.set m.memory m.registers pc m.count m.flags m.breakpoints m.console
  | setCount count => exact h.set m.memory m.registers m.pc count m.flags m.breakpoints m.console
  | setFlags flags => exact h.set m.memory m.registers m.pc m.count flags m.breakpoints m.console
  | setBreakpoints bs => exact h.set m.memory m.registers m.pc m.count m.flags bs m.console
  | setConsole console => exact h.set m.memory m.registers m.pc m.count m.flags m.breakpoints console

end Call

namespace Checked

def run (m : Machine) : Call → Option Machine
  | .assembleLine src => (assembleLine m src).map Prod.snd
  | .define label addr => (define m label addr).map Prod.snd
  | .emitText word => (emitText m word).map Prod.snd
  | .emitByte byte => (emitByte m byte).map Prod.snd
  | .emitHalf half => (emitHalf m half).map Prod.snd
  | .emitWord word => (emitWord m word).map Prod.snd
  | .emitAsciiz text => (emitAsciiz m text).map Prod.snd
  | .step => (step m).map Prod.snd
  | .runWithLimit limit => (runWithLimit limit m).map Run.machine
  | .reset => some m.reset
  | .check b => (check b m).map fun _ => m
  | .read addr width => (read m.memory addr width).run.map fun _ => m
  | .write addr width value =>
    (write m.memory addr width value).run.map fun r => { m with memory := r.toOption.getD m.memory }
  | .setByte addr value => (setByte m.memory addr value).map fun memory => { m with memory }
  | .setWord addr value => (setWord m.memory addr value).map fun memory => { m with memory }
  | .setRegister r value => (set m.registers r value).map fun registers => { m with registers }
  | .setHiLo hi lo => some { m with registers := { m.registers with hi, lo } }
  | .setPc pc => some { m with pc }
  | .setCount count => some { m with count }
  | .setFlags flags => some { m with flags }
  | .setBreakpoints breakpoints => some { m with breakpoints }
  | .setConsole console => some { m with console }

theorem run_eq {m : Machine} (h : m.Consistent) (c : Call) : run m c = some (c.act m) := by
  cases c with
  | assembleLine src => rw [run, assembleLine_eq h]; rfl
  | define label addr => rw [run, define_eq h]; rfl
  | emitText word => rw [run, emitText_eq]; rfl
  | emitByte byte => rw [run, emitByte_eq]; rfl
  | emitHalf half => rw [run, emitHalf_eq]; rfl
  | emitWord word => rw [run, emitWord_eq]; rfl
  | emitAsciiz text => rw [run, emitAsciiz_eq]; rfl
  | step => rw [run, step_eq h]; rfl
  | runWithLimit limit =>
    obtain ⟨r, hr⟩ := exists_runWithLimit m limit
    rw [run, runWithLimit_eq h, Call.act, hr]
    rfl
  | check b => rw [run, check_eq]; rfl
  | read addr width => rw [run, read_eq]; rfl
  | write addr width value => rw [run, write_eq]; rfl
  | setByte addr value => rw [run, setByte_eq]; rfl
  | setWord addr value => rw [run, setWord_eq]; rfl
  | setRegister r value => rw [run, set_eq]; rfl
  | reset | setHiLo | setPc | setCount | setFlags | setBreakpoints | setConsole => rfl

theorem foldlM_run_of_reachable {m : Machine} (h : m.Reachable) (calls : List Call) :
    calls.foldlM run m = some (calls.foldl Call.act m) := by
  induction calls generalizing m with
  | nil => rfl
  | cons c calls ih =>
    rw [List.foldlM_cons, run_eq h.consistent, some_bind, ih (Call.reachable_act h c), List.foldl_cons]

/-- No call on a machine that calls have made of a new one breaks off. -/
theorem foldlM_run (flags : Flags) (calls : List Call) :
    calls.foldlM run (Machine.new flags) = some (calls.foldl Call.act (Machine.new flags)) :=
  foldlM_run_of_reachable (.new flags) calls

end Checked

end MipsMachine
