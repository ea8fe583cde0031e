import MipsMachine.Token

namespace MipsMachine.Quoted

def escape? : Char → Option Char
  | 'n' => some '\n'
  | 'r' => some '\r'
  | 't' => some '\t'
  | '0' => some '\x00'
  | '\\' => some '\\'
  | '\'' => some '\''
  | '"' => some '"'
  | _ => none

def escapeText (c : Char) : List Char :=
  match escape? c with
  | some e => [e]
  | none => ['\\', c]

def closing? (escaped : Bool) : List Char → Option Nat
  | [] => none
  | c :: r =>
    if escaped then (closing? false r).map (· + 1)
    else if c = '\\' then (closing? true r).map (· + 1)
    else if c = '"' then some 0
    else (closing? false r).map (· + 1)

def unescape (cs : List Char) : List Char :=
  match _h : cs.dropWhile (· ≠ '\\') with
  | [] => cs
  | [_] => cs
  | _ :: c :: r => cs.takeWhile (· ≠ '\\') ++ escapeText c ++ unescape r
termination_by cs.length
decreasing_by
  have hle := (List.dropWhile_sublist (· ≠ '\\') (l := cs)).length_le
  simp only [_h, List.length_cons] at hle
  omega

def string (r : List Char) : Except LexError String × Nat :=
  match closing? false r with
  | none => (.error .unclosedString, r.length)
  | some n => (.ok (String.ofList (unescape (r.take n))), n + 1)

def closeChar (value : Char) (r rest : List Char) : Except LexError Int × Nat :=
  match rest with
  | '\'' :: after => (.ok value.toNat, r.length - after.length)
  | [] => (.error .unclosedChar, r.length)
  | _ :: _ =>
    match r.findIdx? (· = '\'') with
    | some n => (.error .invalidChar, n + 1)
    | none => (.error .unclosedChar, r.length)

/-- A character literal that holds too much ends at the next quote, so that the line still goes on. -/
def character (r : List Char) : Except LexError Int × Nat :=
  match r with
  | [] => (.error .unclosedChar, 0)
  | ['\\'] => (.error .unclosedChar, 1)
  | '\\' :: c :: rest => closeChar ((escape? c).getD c) r rest
  | '\'' :: _ => (.error .invalidChar, 1)
  | c :: rest => closeChar c r rest

end MipsMachine.Quoted
