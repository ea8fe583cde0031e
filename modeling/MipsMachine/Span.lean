namespace MipsMachine

structure Span where
  start : Nat
  stop : Nat
deriving DecidableEq

inductive Marks where
  | one (span : Span)
  | two (first second : Span)
  | many (spans : List Span)
deriving DecidableEq

namespace Marks

def ofList : List Span → Marks
  | [a] => one a
  | [a, b] => two a b
  | spans => many spans

def toList : Marks → List Span
  | one a => [a]
  | two a b => [a, b]
  | many spans => spans

def first (m : Marks) : Span := m.toList.headD ⟨0, 0⟩

end Marks

end MipsMachine
