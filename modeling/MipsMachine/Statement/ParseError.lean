import MipsMachine.Mnemonic
import MipsMachine.Offset
import MipsMachine.Token

namespace MipsMachine

inductive Expectation where
  | noOperands | integers | string | byteCount | exponent
deriving DecidableEq

def Expectation.text : Expectation → String
  | noOperands => "no operands"
  | integers => "a list of integers"
  | string => "a string literal"
  | byteCount => "a byte count"
  | exponent => "an alignment exponent between 0 and 3"

inductive ParseCause where
  | lex (cause : LexError)
  | expectedMnemonic
  | unknownMnemonic (name : String)
  | unknownDirective (name : String)
  | unknownRegister (name : String)
  | unexpectedToken
  | patternMismatch (pattern : List OperandKind)
  | directiveMismatch (expected : Expectation)
  | immOutOfRange (cause : OffsetError)
  | shiftOutOfRange
  | valueOutOfRange (low high : Int)
deriving DecidableEq

namespace ParseCause

def message : ParseCause → String
  | lex e => e.message
  | expectedMnemonic => "expected instruction or directive"
  | unknownMnemonic name => s!"unrecognized mnemonic '{name}'"
  | unknownDirective name => s!"unrecognized directive '{name}'"
  | unknownRegister name => s!"unknown register '${name}'"
  | unexpectedToken => "unexpected token"
  | patternMismatch _ => "operands do not match instruction"
  | directiveMismatch _ => "operands do not match directive"
  | immOutOfRange e => e.message
  | shiftOutOfRange => "shift amount out of range"
  | valueOutOfRange _ _ => "value out of range"

def help : ParseCause → Option String
  | lex e => e.help
  | expectedMnemonic =>
    some "a line holds an optional label, followed by an optional instruction or directive"
  | unknownMnemonic _ => some "instruction names are lowercase (e.g., 'add', 'lw', 'li')"
  | unknownDirective _ => some <| "the supported directives are " ++
    ".text, .data, .word, .half, .byte, .ascii, .asciiz, .space, .align"
  | unknownRegister _ =>
    some "registers are $0-$31 or named ($zero, $at, $v0, $a0, $t0, $s0, $sp, $ra, ...)"
  | unexpectedToken => some "operands are separated by commas"
  | patternMismatch [] => some "this instruction takes no operands"
  | patternMismatch pattern =>
    some ("expected operands: " ++ ", ".intercalate (pattern.map OperandKind.text))
  | directiveMismatch expected => some s!"expected {expected.text}"
  | immOutOfRange e => e.help
  | shiftOutOfRange => some "shift amounts must be between 0 and 31"
  | valueOutOfRange low high => some s!"this value must be between {low} and {high}"

def source : ParseCause → Option String
  | lex e => some e.message
  | immOutOfRange e => some e.message
  | _ => none

end ParseCause

structure ParseError where
  cause : ParseCause
  marks : Marks
deriving DecidableEq

def ParseCause.marked (cause : ParseCause) (span : Span) : ParseError := ⟨cause, .one span⟩

end MipsMachine
