import MipsMachine.Segment

namespace MipsMachine

inductive ExecError where
  | unknownInstruction (word : Word)
  | integerOverflow
  | divideByZero
  | unimplementedSyscall (service : Word)
  | misalignedAccess (addr : Word)
  | accessViolation (addr : Word)
  | unresolvedFixup (label : String)
  | inputClosed
  | invalidInput
deriving DecidableEq

namespace ExecError

def message : ExecError → String
  | unknownInstruction w => s!"simulator executed unknown instruction {w.hex}"
  | integerOverflow => "integer overflow"
  | divideByZero => "division by zero"
  | unimplementedSyscall service => s!"syscall {service.toNat} is not implemented"
  | misalignedAccess addr => s!"misaligned memory access at {addr.hex}"
  | accessViolation addr => s!"access violation at {addr.hex}"
  | unresolvedFixup label => s!"instruction refers to undefined label '{label}'"
  | inputClosed => "console input was closed"
  | invalidInput => "console input is not an integer"

def segmentRange (s : Segment) : String := s!"{s.name} ({s.start.hex}-{s.stop.hex})"

def help : ExecError → Option String
  | unknownInstruction _ => some "this word was probably written as data, check the PC"
  | integerOverflow => some "use the unsigned form (addu, subu, addiu) for wrapping arithmetic"
  | divideByZero => none
  | unimplementedSyscall _ =>
    some "the service code is read from $v0; supported codes are 1, 4, 5, 8, 10, 11, 12"
  | misalignedAccess _ => some "halfwords must be at even addresses and words at multiples of 4"
  | accessViolation _ => some <| "valid addresses are in the " ++ segmentRange .text ++ ", " ++
    segmentRange .data ++ ", and " ++ segmentRange .stack ++ " segments"
  | unresolvedFixup label => some s!"define the label '{label}' before running"
  | inputClosed => none
  | invalidInput => some "read_int expects a line holding a decimal integer"

end ExecError

end MipsMachine
