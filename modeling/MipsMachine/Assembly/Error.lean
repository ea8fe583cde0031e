import MipsMachine.Segment
import MipsMachine.Statement.ParseError

namespace MipsMachine

inductive AsmCause where
  | parse (cause : ParseCause)
  | labelRedefined (label : String)
  | undefinedLabel (label : String)
  | branchOutOfRange (cause : OffsetError)
  | misalignedTarget (target : Word)
  | jumpOutOfRegion (target : Word)
  | segmentOverflow (segment : Segment)
  | misalignedData (addr : Word)
  | instrInData
  | dataInText
deriving DecidableEq

namespace AsmCause

def message : AsmCause → String
  | parse e => e.message
  | labelRedefined label => s!"label '{label}' was already defined"
  | undefinedLabel label => s!"label '{label}' is not defined"
  | branchOutOfRange e => s!"branch target out of range: {e.message}"
  | misalignedTarget target => s!"target address {target.hex} is not word-aligned"
  | jumpOutOfRegion target => s!"jump target {target.hex} is outside of the current region"
  | segmentOverflow segment => s!"{segment.name} segment is full"
  | misalignedData addr => s!"data address {addr.hex} is not aligned"
  | instrInData => "cannot assemble instruction in data segment"
  | dataInText => "cannot assemble data directive in text segment"

def help : AsmCause → Option String
  | parse e => e.help
  | labelRedefined _ => some "labels can only be defined once, try renaming this label"
  | undefinedLabel _ => some <| "la needs its label defined beforehand; " ++
    "a load/store with a label operand can refer ahead"
  | branchOutOfRange _ =>
    some "a branch reaches at most 32768 instructions in either direction; try jumping instead"
  | misalignedTarget _ => some <| "instructions are always at word-aligned addresses; " ++
    "try adding .align 2 before this label"
  | jumpOutOfRegion _ =>
    some "j and jal keep the top 4 bits of the PC; try jr with the address in a register"
  | segmentOverflow s => some s!"the {s.name} segment spans {s.start.hex} to {s.stop.hex}"
  | misalignedData _ => some "try adding an .align directive before this value"
  | instrInData => some "add a .text directive before instructions"
  | dataInText => some "add a .data directive before data"

/-- The message of the cause behind this one. What lies behind a cause from parsing is not passed on. -/
def source : AsmCause → Option String
  | branchOutOfRange e => some e.message
  | _ => none

end AsmCause

structure AsmError where
  cause : AsmCause
  marks : Option Marks
deriving DecidableEq

namespace AsmError

def ofParse (e : ParseError) : AsmError := ⟨.parse e.cause, some e.marks⟩

end AsmError

namespace AsmCause

def marked (cause : AsmCause) (span : Span) : AsmError := ⟨cause, some (.one span)⟩

def spanless (cause : AsmCause) : AsmError := ⟨cause, none⟩

end AsmCause

end MipsMachine
