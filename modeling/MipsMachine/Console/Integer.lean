import MipsMachine.Character.WhiteSpace
import MipsMachine.Word

namespace MipsMachine.Console

def decode? (bytes : List Byte) : Option (List Char) :=
  (String.fromUTF8? ⟨(bytes.map UInt8.ofBitVec).toArray⟩).map String.toList

def natural? (digits : List Char) : Option Nat :=
  if digits ≠ [] ∧ digits.all Char.isDigit then
    some (digits.foldl (fun n c => 10 * n + (c.toNat - '0'.toNat)) 0)
  else none

def signed? : List Char → Option Int
  | '-' :: digits => (natural? digits).map fun n => -(n : Int)
  | '+' :: digits => (natural? digits).map fun n => (n : Int)
  | digits => (natural? digits).map fun n => (n : Int)

def integer? (line : List Byte) : Option Word := do
  let v ← signed? (Character.trim (← decode? line))
  if -0x80000000 ≤ v ∧ v < 0x80000000 then some (BitVec.ofInt 32 v) else none

def integerText (w : Word) : List Byte := utf8 (toString w.toInt)

end MipsMachine.Console
