import MipsMachine.Character.DecimalDigit
import MipsMachine.Character.WordCharacter
import MipsMachine.Token.Numeral
import MipsMachine.Token.Quoted

/-!
Splitting a line into tokens. Every character belongs to exactly one token, to blank space between
tokens or to the comment that ends the line, and the last token marks the end of the line.
-/

namespace MipsMachine.Token

def isBlank (c : Char) : Bool := c = ' ' || c = '\t' || c = '\r' || c = '\x0c'

def isIdentStart (c : Char) : Bool := c.isAlpha || c = '_' || c = '.'

def isIdentCharacter (c : Char) : Bool := c.isAlphanum || c = '_' || c = '.'

def kindOf {α : Type} (make : α → TokenKind) : Except LexError α → TokenKind
  | .ok a => make a
  | .error e => .error e

def scan (c : Char) (r : List Char) : TokenKind × Nat :=
  if Character.isDecimalDigit c then
    let n := (r.takeWhile Character.isWordCharacter).length
    (kindOf .int (Numeral.value (c :: r.take n)), n)
  else if c = '-' ∧ r.head?.any Character.isDecimalDigit then
    let n := (r.tail.takeWhile Character.isWordCharacter).length + 1
    (kindOf .int (Numeral.value (c :: r.take n)), n)
  else if c = '\'' then
    let (value, n) := Quoted.character r
    (kindOf .int value, n)
  else if c = '"' then
    let (text, n) := Quoted.string r
    (kindOf .str text, n)
  else if c = '$' ∧ r.head?.any Char.isAlphanum then
    let n := (r.takeWhile Char.isAlphanum).length
    (.reg (String.ofList (r.take n)), n)
  else if isIdentStart c then
    let n := (r.takeWhile isIdentCharacter).length
    (.ident (String.ofList (c :: r.take n)), n)
  else if c = ',' then (.comma, 0)
  else if c = '(' then (.lparen, 0)
  else if c = ')' then (.rparen, 0)
  else if c = ':' then (.colon, 0)
  else (.error .invalidSymbol, 0)

def width : List Char → Nat
  | [] => 0
  | c :: cs => c.utf8Size + width cs

def ofChars (start : Nat) (cs : List Char) : List Token :=
  match cs with
  | [] => [⟨.eol, ⟨start, start⟩⟩]
  | c :: r =>
    if isBlank c then ofChars (start + c.utf8Size) r
    else if c = '#' then [⟨.eol, ⟨start + width cs, start + width cs⟩⟩]
    else
      let (kind, n) := scan c r
      let stop := start + width (c :: r.take n)
      ⟨kind, ⟨start, stop⟩⟩ :: ofChars stop (r.drop n)
termination_by cs.length
decreasing_by
  · simp
  · simp only [List.length_drop, List.length_cons]
    omega

def ofLine (src : String) : List Token := ofChars 0 (src.toList.takeWhile (· ≠ '\n'))

end MipsMachine.Token
