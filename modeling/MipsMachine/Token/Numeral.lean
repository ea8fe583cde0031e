import MipsMachine.Token

namespace MipsMachine.Numeral

def digit? (base : Nat) (c : Char) : Option Nat :=
  let value :=
    if c.isDigit then some (c.toNat - '0'.toNat)
    else if 'a' ≤ c ∧ c ≤ 'f' then some (c.toNat - 'a'.toNat + 10)
    else if 'A' ≤ c ∧ c ≤ 'F' then some (c.toNat - 'A'.toNat + 10)
    else none
  value.filter (· < base)

def push (base : Nat) (bad : LexError) (n : Nat) (c : Char) : Except LexError Nat :=
  match digit? base c with
  | none => .error bad
  | some d => if base * n + d < 0x10000000000000000 then .ok (base * n + d) else .error .doesNotFit

def magnitude : List Char → Except LexError Nat
  | ['0', 'x'] | ['0', 'X'] => .error .emptyHex
  | '0' :: 'x' :: digits | '0' :: 'X' :: digits => digits.foldlM (push 16 .invalidHex) 0
  | '0' :: c :: digits => (c :: digits).foldlM (push 8 .invalidOctal) 0
  | digits => digits.foldlM (push 10 .invalidDecimal) 0

def value (cs : List Char) : Except LexError Int := do
  let v ← match cs with
    | '-' :: digits => (magnitude digits).map fun n => -(n : Int)
    | digits => (magnitude digits).map fun n => (n : Int)
  if -0x80000000 ≤ v ∧ v < 0x100000000 then .ok v else .error .doesNotFit

end MipsMachine.Numeral
