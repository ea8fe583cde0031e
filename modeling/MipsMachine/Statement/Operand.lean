import MipsMachine.Register
import MipsMachine.Statement
import MipsMachine.Statement.ParseError

namespace MipsMachine

inductive Operand where
  | reg (reg : Reg)
  | int (value : Int)
  | label (label : Label)
  | mem (offset : Int) (base : Reg)
  | str (text : String)
deriving DecidableEq

structure Located (α : Type) where
  value : α
  span : Span
deriving DecidableEq

namespace Operand

def kind? : Operand → Option OperandKind
  | reg _ => some .reg
  | int _ => some .int
  | label _ => some .label
  | mem .. => some .mem
  | str _ => none

def unexpected {α : Type} (stop : Span) : List Token → Except ParseError α
  | [] => .error (ParseCause.unexpectedToken.marked stop)
  | t :: _ => .error (ParseCause.unexpectedToken.marked t.span)

def register (name : String) (span : Span) : Except ParseError Reg :=
  match Reg.ofName? name with
  | some r => .ok r
  | none => .error ((ParseCause.unknownRegister name).marked span)

def finish (stop : Span) (operand : Operand) (span : Span) : List Token → Except ParseError (Located Operand)
  | [] => .ok ⟨operand, span⟩
  | rest => unexpected stop rest

def base (stop : Span) (offset : Int) (start : Nat) : List Token → Except ParseError (Located Operand)
  | ⟨.reg name, span⟩ :: rest => do
    let r ← register name span
    match rest with
    | ⟨.rparen, close⟩ :: rest => finish stop (mem offset r) ⟨start, close.stop⟩ rest
    | rest => unexpected stop rest
  | tokens => unexpected stop tokens

def ofTokens (piece : List Token) (stop : Span) : Except ParseError (Located Operand) :=
  match piece with
  | ⟨.reg name, span⟩ :: rest => do finish stop (reg (← register name span)) span rest
  | ⟨.int v, span⟩ :: ⟨.lparen, _⟩ :: rest => base stop v span.start rest
  | ⟨.int v, span⟩ :: rest => finish stop (int v) span rest
  | ⟨.lparen, span⟩ :: rest => base stop 0 span.start rest
  | ⟨.ident name, span⟩ :: rest => finish stop (label ⟨name, span.start⟩) span rest
  | ⟨.str text, span⟩ :: rest => finish stop (str text) span rest
  | tokens => unexpected stop tokens

def pieces (stop : Span) : List Token → List (List Token × Span)
  | [] => [([], stop)]
  | t :: rest =>
    if t.kind = .comma then ([], t.span) :: pieces stop rest
    else
      match pieces stop rest with
      | [] => [([t], stop)]
      | (piece, close) :: more => (t :: piece, close) :: more

def listOfTokens (stop : Span) (tokens : List Token) : Except ParseError (List (Located Operand)) :=
  if tokens.isEmpty then .ok [] else (pieces stop tokens).mapM fun p => ofTokens p.1 p.2

end Operand

end MipsMachine
