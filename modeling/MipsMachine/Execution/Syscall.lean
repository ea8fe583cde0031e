import MipsMachine.Console.Integer
import MipsMachine.Execution.Effect

/-!
The services that `syscall` offers. The service code is in `$v0`, arguments are in `$a0` and `$a1`,
and a value that is read goes to `$v0`. Output that the console refuses is dropped.
-/

namespace MipsMachine

inductive Service where
  | printInt
  | printString
  | readInt
  | readString
  | exit
  | printChar
  | readChar
deriving DecidableEq

def Service.ofCode? (code : Word) : Option Service :=
  match code.toNat with
  | 1 => some printInt
  | 4 => some printString
  | 5 => some readInt
  | 8 => some readString
  | 10 => some exit
  | 11 => some printChar
  | 12 => some readChar
  | _ => none

namespace Memory

def stringWithin (m : Memory) (fuel : Nat) (addr : Word) : Option (Except ExecError (List Byte)) :=
  match fuel with
  | 0 => none
  | fuel + 1 =>
    match m.read addr .byte with
    | .error e => some (.error e)
    | .ok v =>
      if v = 0 then some (.ok [])
      else (m.stringWithin fuel (addr + 1)).map fun r => r.map (v.setWidth 8 :: ·)

/-- One read for each address up to the end of the stack segment is always enough. -/
def string (m : Memory) (addr : Word) : Except ExecError (List Byte) :=
  let limit := Segment.stack.stop
  (m.stringWithin (limit.toNat - addr.toNat + 1) addr).getD (.error (.accessViolation limit))

end Memory

namespace Machine

def printing (m : Machine) (data : List Byte) : Effect :=
  { m.next with console := (m.console.write data).2 }

/-- Reads a line, which is taken from the input even if it is no integer. -/
def readInt (m : Machine) : Except Fault Effect :=
  let (line, taken) := m.console.nextLine
  if taken = 0 then m.fault .inputClosed
  else
    match Console.integer? line with
    | some v => .ok { m.writing .v0 v with console := m.console.consume taken }
    | none => .error ⟨.invalidInput, m.console.consume taken⟩

def lastOfBuffer (start : Word) (size : Nat) : Except ExecError Word := do
  if 0x100000000 ≤ start.toNat + (size - 1) then throw (.accessViolation start)
  let last := start + BitVec.ofNat 32 (size - 1)
  Memory.checkAccess start .byte
  Memory.checkAccess last .byte
  if Segment.of? start ≠ Segment.of? last then throw (.accessViolation last)
  return last

def readString (m : Machine) (start size : Word) : Except Fault Effect :=
  if size.toInt ≤ 0 then .ok m.next
  else
    match lastOfBuffer start size.toNat with
    | .error e => m.fault e
    | .ok _ =>
      let data := Console.nextPiece (size.toNat - 1) m.console.readable
      if data = [] ∧ 1 < size.toNat then m.fault .inputClosed
      else .ok { m.next with
        store := some (start, data ++ [0])
        console := m.console.consume data.length }

def syscall (m : Machine) : Except Fault Effect :=
  match Service.ofCode? (m.get .v0) with
  | none => m.fault (.unimplementedSyscall (m.get .v0))
  | some .printInt => .ok (m.printing (Console.integerText (m.get .a0)))
  | some .printString =>
    match m.memory.string (m.get .a0) with
    | .ok data => .ok (m.printing data)
    | .error e => m.fault e
  | some .readInt => m.readInt
  | some .readString => m.readString (m.get .a0) (m.get .a1)
  | some .exit => .ok { m.next with exits := true }
  | some .printChar => .ok (m.printing [(m.get .a0).setWidth 8])
  | some .readChar =>
    match m.console.read with
    | (some b, console) => .ok { m.writing .v0 (b.setWidth 32) with console := console }
    | (none, _) => m.fault .inputClosed

end Machine

end MipsMachine
