import MipsMachine.Statement.Operand
import MipsMachine.Token.Line

namespace MipsMachine

namespace SourceInstr

def literal (s : Signedness) (n : Nat) (cause : OffsetError → ParseCause) (v : Int) (span : Span) :
    Except ParseError (BitVec n) := do
  let o ← (Offset.ofLiteral s n v).mapError fun e => (cause e).marked span
  .ok o.field

def immediate (s : Signedness) : Int → Span → Except ParseError Half := literal s 16 .immOutOfRange

def shiftAmount : Int → Span → Except ParseError (BitVec 5) := literal .unsigned 5 fun _ => .shiftOutOfRange

def ofOperands (op : RealOp) (operands : List (Located Operand)) (span : Span) :
    Except ParseError SourceInstr :=
  match op, operands with
  | .alu op, [⟨.reg rd, _⟩, ⟨.reg rs, _⟩, ⟨.reg rt, _⟩] => .ok (.real (.alu op rd rs rt))
  | .shift op, [⟨.reg rd, _⟩, ⟨.reg rt, _⟩, ⟨.int n, place⟩] => do
    .ok (.real (.shift op rd rt (← shiftAmount n place)))
  | .shiftVar op, [⟨.reg rd, _⟩, ⟨.reg rt, _⟩, ⟨.reg rs, _⟩] => .ok (.real (.shiftVar op rd rt rs))
  | .imm op, [⟨.reg rt, _⟩, ⟨.reg rs, _⟩, ⟨.int n, place⟩] => do
    let sign := if op.zeroExtends then .unsigned else .signed
    .ok (.real (.imm op rt rs (← immediate sign n place)))
  | .lui, [⟨.reg rt, _⟩, ⟨.int n, place⟩] => do .ok (.real (.lui rt (← immediate .unsigned n place)))
  | .mem op, [⟨.reg rt, _⟩, ⟨.mem offset base, place⟩] => do
    .ok (.real (.mem op rt base (← immediate .signed offset place)))
  | .mem op, [⟨.reg rt, _⟩, ⟨.label label, _⟩] => .ok (.pseudo (.memLabel op rt label))
  | .compare op, [⟨.reg rs, _⟩, ⟨.reg rt, _⟩, ⟨.label label, _⟩] => .ok (.compare op rs rt label)
  | .zero op, [⟨.reg rs, _⟩, ⟨.label label, _⟩] => .ok (.zero op rs label)
  | .jump op, [⟨.label label, _⟩] => .ok (.jump op label)
  | .syscall, [] => .ok (.real .syscall)
  | .jr, [⟨.reg rs, _⟩] => .ok (.real (.jr rs))
  | .jalr, [⟨.reg rs, _⟩] => .ok (.real (.jalr .ra rs))
  | .jalr, [⟨.reg rd, _⟩, ⟨.reg rs, _⟩] => .ok (.real (.jalr rd rs))
  | .hiLo op, [⟨.reg r, _⟩] => .ok (.real (.hiLo op r))
  | .mulDiv op, [⟨.reg rs, _⟩, ⟨.reg rt, _⟩] => .ok (.real (.mulDiv op rs rt))
  | op, _ => .error ((ParseCause.patternMismatch op.format.pattern).marked span)

end SourceInstr

def wordLow : Int := -0x80000000
def wordHigh : Int := 0xFFFFFFFF

namespace Pseudo

def ofOperands (op : PseudoOp) (operands : List (Located Operand)) (span : Span) :
    Except ParseError Pseudo :=
  match op, operands with
  | .move, [⟨.reg rd, _⟩, ⟨.reg rs, _⟩] => .ok (.move rd rs)
  | .li, [⟨.reg rt, _⟩, ⟨.int v, place⟩] =>
    if wordLow ≤ v ∧ v ≤ wordHigh then .ok (.li rt v)
    else .error ((ParseCause.valueOutOfRange wordLow wordHigh).marked place)
  | .la, [⟨.reg rt, _⟩, ⟨.label label, _⟩] => .ok (.la rt label)
  | .abs, [⟨.reg rd, _⟩, ⟨.reg rs, _⟩] => .ok (.abs rd rs)
  | .neg, [⟨.reg rd, _⟩, ⟨.reg rs, _⟩] => .ok (.neg rd rs)
  | .negu, [⟨.reg rd, _⟩, ⟨.reg rs, _⟩] => .ok (.negu rd rs)
  | .not, [⟨.reg rd, _⟩, ⟨.reg rs, _⟩] => .ok (.not rd rs)
  | .mul, [⟨.reg rd, _⟩, ⟨.reg rs, _⟩, ⟨.reg rt, _⟩] => .ok (.mul rd rs rt)
  | .sgt, [⟨.reg rd, _⟩, ⟨.reg rs, _⟩, ⟨.reg rt, _⟩] => .ok (.sgt rd rs rt)
  | .sge, [⟨.reg rd, _⟩, ⟨.reg rs, _⟩, ⟨.reg rt, _⟩] => .ok (.sge rd rs rt)
  | .ordBranch order, [⟨.reg rs, _⟩, ⟨.reg rt, _⟩, ⟨.label label, _⟩] => .ok (.ordBranch order rs rt label)
  | .b, [⟨.label label, _⟩] => .ok (.b label)
  | op, _ => .error ((ParseCause.patternMismatch op.pattern).marked span)

end Pseudo

namespace Directive

def fail {α : Type} (expected : Expectation) (span : Span) : Except ParseError α :=
  .error ((ParseCause.directiveMismatch expected).marked span)

def integer (low high : Int) (operand : Located Operand) : Except ParseError Int :=
  match operand.value with
  | .int v =>
    if low ≤ v ∧ v ≤ high then .ok v
    else .error ((ParseCause.valueOutOfRange low high).marked operand.span)
  | _ => fail .integers operand.span

def integers (low high : Int) (operands : List (Located Operand)) (span : Span) :
    Except ParseError (List Int) :=
  if operands.isEmpty then fail .integers span else operands.mapM (integer low high)

def ofOperands (name : Located String) (operands : List (Located Operand)) (span : Span) :
    Except ParseError Directive :=
  match name.value with
  | ".text" => if operands.isEmpty then .ok .text else fail .noOperands span
  | ".data" => if operands.isEmpty then .ok .data else fail .noOperands span
  | ".word" => do .ok (.word ((← integers wordLow wordHigh operands span).map (BitVec.ofInt 32)))
  | ".half" => do
    .ok (.half ((← integers (-0x8000) 0xFFFF operands span).map (BitVec.ofInt 16)))
  | ".byte" => do .ok (.byte ((← integers (-0x80) 0xFF operands span).map (BitVec.ofInt 8)))
  | ".ascii" =>
    match operands with
    | [⟨.str s, _⟩] => .ok (.ascii s)
    | _ => fail .string span
  | ".asciiz" =>
    match operands with
    | [⟨.str s, _⟩] => .ok (.asciiz s)
    | _ => fail .string span
  | ".space" =>
    match operands with
    | [operand] => do .ok (.space (BitVec.ofInt 32 (← integer 0 wordHigh operand)))
    | _ => fail .byteCount span
  | ".align" =>
    match operands with
    | [operand] => do .ok (.align (BitVec.ofInt 32 (← integer 0 3 operand)))
    | _ => fail .exponent span
  | other => .error ((ParseCause.unknownDirective other).marked name.span)

end Directive

namespace Nucleus

def ofOperands (name : Located String) (operands : List (Located Operand)) (span : Span) :
    Except ParseError Nucleus :=
  if name.value.toList.head? = some '.' then do .ok (.directive (← Directive.ofOperands name operands span))
  else
    match RealOp.find? name.value, PseudoOp.find? name.value with
    | some op, _ => do .ok (.instr (← SourceInstr.ofOperands op operands span))
    | none, some op => do .ok (.instr (.pseudo (← Pseudo.ofOperands op operands span)))
    | none, none => .error ((ParseCause.unknownMnemonic name.value).marked name.span)

end Nucleus

namespace Stmt

def splitLabel : List Token → Option Label × List Token
  | ⟨.ident name, span⟩ :: ⟨.colon, _⟩ :: rest => (some ⟨name, span.start⟩, rest)
  | tokens => (none, tokens)

def lexError? (tokens : List Token) : Option ParseError :=
  tokens.findSome? fun t =>
    match t.kind with
    | .error e => some ((ParseCause.lex e).marked t.span)
    | _ => none

def endSpan (tokens : List Token) : Span := (tokens.getLast?.map Token.span).getD ⟨0, 0⟩

def ofTokens (tokens : List Token) : Except ParseError Stmt :=
  match lexError? tokens with
  | some e => .error e
  | none =>
    let (label, body) := splitLabel (tokens.takeWhile fun t => t.kind ≠ .eol)
    match body with
    | [] => .ok ⟨label, none, endSpan tokens⟩
    | ⟨.ident name, place⟩ :: rest => do
      let operands ← Operand.listOfTokens (endSpan tokens) rest
      let span : Span := ⟨place.start, (operands.getLast?.map (Located.span ·)).elim place.stop Span.stop⟩
      .ok ⟨label, some (← Nucleus.ofOperands ⟨name, place⟩ operands span), span⟩
    | t :: _ => .error (ParseCause.expectedMnemonic.marked t.span)

def ofLine (src : String) : Except ParseError Stmt := ofTokens (Token.ofLine src)

end Stmt

end MipsMachine
