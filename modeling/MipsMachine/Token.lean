import MipsMachine.Span

namespace MipsMachine

inductive LexError where
  | doesNotFit
  | invalidHex
  | emptyHex
  | invalidOctal
  | invalidDecimal
  | unknownInteger
  | unclosedString
  | unclosedChar
  | invalidChar
  | invalidSymbol
deriving DecidableEq

namespace LexError

def message : LexError → String
  | doesNotFit => "numeric token does not fit 32-bit integer"
  | invalidHex => "invalid hex literal"
  | emptyHex => "hex literal is missing digits"
  | invalidOctal => "invalid octal literal"
  | invalidDecimal => "invalid decimal literal"
  | unknownInteger => "could not parse integer"
  | unclosedString => "unclosed string literal"
  | unclosedChar => "unclosed character literal"
  | invalidChar => "invalid character literal"
  | invalidSymbol => "unrecognized symbol"

def help : LexError → Option String
  | doesNotFit => some "integer literals must be in the range [-2147483648, 4294967295]"
  | invalidHex => some "a hex literal starts with '0x' and consists of 0-9, A-F"
  | emptyHex => some "there should be hex digits (0-9, A-F) here"
  | invalidOctal => some "a literal starting with 0 is octal and consists of 0-7"
  | invalidDecimal => some "a decimal literal only consists of digits 0-9"
  | unknownInteger => none
  | unclosedString => some "add a quote to the end of the string literal"
  | unclosedChar => some "add a single quote to the end of the character literal"
  | invalidChar => some "a character literal holds exactly one character or escape (e.g., 'a', '\\n')"
  | invalidSymbol => some "this char does not occur in any token in MIPS assembly"

end LexError

inductive TokenKind where
  | int (value : Int)
  | reg (name : String)
  | ident (name : String)
  | str (text : String)
  | comma
  | lparen
  | rparen
  | colon
  | error (cause : LexError)
  | eol
deriving DecidableEq

structure Token where
  kind : TokenKind
  span : Span
deriving DecidableEq

end MipsMachine
