import Mathlib.Data.List.TakeWhile
import MipsMachine.Proofs.Console.Utf8

namespace MipsMachine.Console

open Character

structure IsNatural (digits : List Char) (n : Nat) : Prop where
  nonempty : digits ≠ []
  decimal : ∀ c ∈ digits, c.isDigit
  value : Nat.ofDigitChars 10 digits 0 = n

inductive IsInteger : List Char → Int → Prop
  | plain {digits : List Char} {n : Nat} (h : IsNatural digits n) : IsInteger digits n
  | plus {digits : List Char} {n : Nat} (h : IsNatural digits n) : IsInteger ('+' :: digits) n
  | minus {digits : List Char} {n : Nat} (h : IsNatural digits n) : IsInteger ('-' :: digits) (-n)

def Spells (line : List Byte) (v : Int) : Prop :=
  ∃ before core after : List Char, (∀ c ∈ before ++ after, isWhiteSpace c) ∧ IsInteger core v ∧
    line = utf8 (String.ofList (before ++ core ++ after))

def InRange (v : Int) : Prop := -0x80000000 ≤ v ∧ v < 0x80000000

instance (v : Int) : Decidable (InRange v) := inferInstanceAs (Decidable (_ ∧ _))

section Digits

theorem IsInteger.ne_nil {cs : List Char} {v : Int} (h : IsInteger cs v) : cs ≠ [] := by
  cases h with
  | plain h => exact h.nonempty
  | plus h | minus h => exact List.cons_ne_nil _ _

end Digits

section Trim

variable {before core after : List Char}

end Trim

section Lines

end Lines

section Printed

end Printed

end MipsMachine.Console
