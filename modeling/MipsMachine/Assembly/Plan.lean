import MipsMachine.Assembly.Expansion
import MipsMachine.Machine
import MipsMachine.Statement.Parse

/-!
Assembling a statement. Everything that a line changes is worked out as a plan before any of it is
done, so a line that fails changes nothing.
-/

namespace MipsMachine

structure Plan where
  label : Option (String × Word)
  /-- Bytes to write, in order: resolved placeholders first, then what the line emits. -/
  stores : List (Word × List Byte)
  fixups : List Fixup
  emitted : List Word
  textCursor : Word
  dataCursor : Word
  mode : Mode

def Segment.advance (s : Segment) (cursor : Word) (n : Nat) : Except AsmCause Word :=
  if cursor.toNat + n ≤ s.stop.toNat then .ok (cursor + BitVec.ofNat 32 n)
  else .error (.segmentOverflow s)

namespace Directive

def alignment : Directive → Nat
  | word _ => 4
  | half _ => 2
  | align exponent => 1 <<< (exponent.toNat % 32)
  | _ => 1

def bytes : Directive → List Byte
  | word values => values.flatMap Word.bytes
  | half values => values.flatMap Half.bytes
  | byte values => values
  | ascii s => utf8 s
  | asciiz s => utf8 s ++ [0]
  | text | data | space _ | align _ => []

def size : Directive → Nat
  | space n => n.toNat
  | d => d.bytes.length

end Directive

def alignUp (cursor : Word) (alignment : Nat) : Word :=
  if cursor.toNat % alignment = 0 then cursor
  else cursor + BitVec.ofNat 32 (alignment - cursor.toNat % alignment)

namespace Plan

def piece (lookup : String → Option Word) (addr : Word) : Piece → Except AsmError (List Word × List Fixup)
  | .word i => .ok ([i.encode], [])
  | .ref patch label =>
    match lookup label.name with
    | none => .ok (patch.placeholder, [⟨addr, label.name, patch⟩])
    | some target =>
      match patch.resolve addr target with
      | .ok words => .ok (words, [])
      | .error e => .error (e.marked label.span)

def pieces (lookup : String → Option Word) (addr : Word) :
    List Piece → Except AsmError (List Word × List Fixup × Word)
  | [] => .ok ([], [], addr)
  | p :: rest => do
    let (words, fixups) ← piece lookup addr p
    match Segment.text.advance addr (4 * words.length) with
    | .error e => .error e.spanless
    | .ok next =>
      let (moreWords, moreFixups, stop) ← pieces lookup next rest
      .ok (words ++ moreWords, fixups ++ moreFixups, stop)

end Plan

namespace Machine

/-- The data cursor that the label of a statement sees. Data is aligned before its label is bound. -/
def alignedCursor (m : Machine) (s : Stmt) : Except AsmError Word :=
  match s.nucleus, m.mode with
  | some (.instr _), .data => .error (AsmCause.instrInData.marked s.span)
  | some (.directive .text), _ | some (.directive .data), _ => .ok m.dataCursor
  | some (.directive _), .text => .error (AsmCause.dataInText.marked s.span)
  | some (.directive d), .data =>
    let aligned := alignUp m.dataCursor d.alignment
    match Segment.data.advance aligned 0 with
    | .ok _ => .ok aligned
    | .error e => .error (e.marked s.span)
  | some (.instr _), .text | none, _ => .ok m.dataCursor

def resolutions (m : Machine) (label : String) (addr : Word) : Except AsmCause (List (Word × List Byte)) :=
  if (m.symbols.lookup label).isSome then .error (.labelRedefined label)
  else (m.symbols.waitingOn label).mapM fun f => do
    return (f.addr, (← f.patch.resolve f.addr addr).flatMap Word.bytes)

def idle (m : Machine) : Plan := ⟨none, [], [], [], m.textCursor, m.dataCursor, m.mode⟩

def planLabel (m : Machine) (label : String) (addr : Word) : Except AsmCause Plan := do
  return { m.idle with label := some (label, addr), stores := ← m.resolutions label addr }

def lookupIn (m : Machine) (own : Option (String × Word)) (name : String) : Option Word :=
  m.symbols.lookup name <|> (own.filter fun l => l.1 = name).map Prod.snd

def planInstr (m : Machine) (p : Plan) (i : SourceInstr) : Except AsmError Plan := do
  let lookup := m.lookupIn p.label
  let (words, fixups, stop) ← Plan.pieces lookup p.textCursor (← i.expand lookup)
  return { p with
    stores := p.stores ++ [(p.textCursor, words.flatMap Word.bytes)]
    fixups := fixups
    emitted := words
    textCursor := stop }

def planDirective (p : Plan) : Directive → Except AsmCause Plan
  | .text => .ok { p with mode := .text }
  | .data => .ok { p with mode := .data }
  | d => do
    return { p with
      stores := p.stores ++ [(p.dataCursor, d.bytes)]
      dataCursor := ← Segment.data.advance p.dataCursor d.size }

def planStmt (m : Machine) (s : Stmt) : Except AsmError Plan := do
  let aligned ← m.alignedCursor s
  let labelled ← match s.label with
    | none => .ok m.idle
    | some l =>
      let addr := match m.mode with
        | .text => m.textCursor
        | .data => aligned
      (m.planLabel l.name addr).mapError (·.marked l.span)
  let start := { labelled with dataCursor := aligned }
  match s.nucleus with
  | none => .ok start
  | some (.instr i) => m.planInstr start i
  | some (.directive d) => (planDirective start d).mapError (·.marked s.span)

def commit (m : Machine) (p : Plan) : Machine :=
  { m with
    memory := p.stores.foldl (fun memory s => memory.setBytes s.1 s.2) m.memory
    symbols := p.fixups.foldl Symbols.record (p.label.elim m.symbols fun l => m.symbols.define l.1 l.2)
    textCursor := p.textCursor
    dataCursor := p.dataCursor
    mode := p.mode }

def apply {α : Type} (m : Machine) (answer : Plan → α) : Except AsmError Plan → Except AsmError α × Machine
  | .ok p => (.ok (answer p), m.commit p)
  | .error e => (.error e, m)

def assemble (m : Machine) (s : Stmt) : Except AsmError (List Word) × Machine :=
  m.apply Plan.emitted (m.planStmt s)

def assembleTokens (m : Machine) (tokens : List Token) : Except AsmError (List Word) × Machine :=
  match Stmt.ofTokens tokens with
  | .ok s => m.assemble s
  | .error e => (.error (.ofParse e), m)

def assembleLine (m : Machine) (src : String) : Except AsmError (List Word) × Machine :=
  m.assembleTokens (Token.ofLine src)

def assembleLines (m : Machine) : List String → List (Except AsmError (List Word)) × Machine
  | [] => ([], m)
  | line :: rest =>
    let (result, m) := m.assembleLine line
    let (results, m) := m.assembleLines rest
    (result :: results, m)

def define (m : Machine) (label : String) (addr : Word) : Except AsmError Unit × Machine :=
  m.apply (fun _ => ()) ((m.planLabel label addr).mapError AsmCause.spanless)

end Machine

end MipsMachine
