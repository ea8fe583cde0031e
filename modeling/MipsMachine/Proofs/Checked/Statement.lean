import MipsMachine.Proofs.Checked.Encoding
import MipsMachine.Proofs.Checked.Token
import MipsMachine.Proofs.Statement.Operands

namespace MipsMachine.Checked

section Names

def Named (t : Token) : Prop := ∀ name, t.kind = .ident name → t.span.start + name.utf8ByteSize = t.span.stop

theorem named_ofLine (src : String) : ∀ t ∈ Token.ofLine src, Named t := by
  intro t ht name hk
  obtain ⟨left, text, right, -, hspan, -, hkind⟩ := (Token.tiling_ofChars [] _).placed t ht
  have htext := (hkind (by simp [hk])).2.ident name hk
  rw [hspan, Token.width_append, htext, Token.width_eq_utf8Len name.toList]
  simp [String.utf8Len_toList]

def label (name : String) (span : Span) : Option Label :=
  if span.start + name.utf8ByteSize = span.stop then some ⟨name, span.start⟩ else none

theorem label_eq {name : String} {span : Span} (h : Named ⟨.ident name, span⟩) :
    label name span = some ⟨name, span.start⟩ := if_pos (h name rfl)

def regOfName (name : String) : Option (Option Reg) :=
  let digits := name.toList
  if digits.all Char.isDigit ∨ name = "s8" then some (Reg.ofName? name)
  else
    match Reg.names.toList.findIdx? (· = name) with
    | some i => do return some (← Reg.ofNumber? i)
    | none => some none

theorem regOfName_eq (name : String) : regOfName name = some (Reg.ofName? name) := by
  unfold regOfName Reg.ofName?
  by_cases hd : name.toList.all Char.isDigit
  · rw [if_pos (.inl hd)]
  by_cases hs : name = "s8"
  · rw [if_pos (.inr hs)]
  rw [if_neg (not_or.mpr ⟨hd, hs⟩), if_neg hd, if_neg hs]
  cases h : Reg.names.toList.findIdx? (· = name) with
  | none => rfl
  | some i =>
    have hi : i < 32 := by
      obtain ⟨hlt, -⟩ := List.findIdx?_eq_some_iff_getElem.mp h
      simpa using hlt
    have hr : Reg.ofNumber? i = some ⟨BitVec.ofNat 5 i⟩ := if_pos hi
    rw [Option.bind_some]
    change (Reg.ofNumber? i >>= fun r => pure (some r)) = _
    rw [hr]
    rfl

end Names

section Operands

def namedRegister (name : String) (span : Span) : Attempt ParseError Reg := do
  match ← regOfName name with
  | some r => return r
  | none => throw ((ParseCause.unknownRegister name).marked span)

def base (stop : Span) (offset : Int) (start : Nat) : List Token → Attempt ParseError (Located Operand)
  | ⟨.reg name, span⟩ :: rest => do
    let r ← namedRegister name span
    match rest with
    | ⟨.rparen, close⟩ :: rest => total (Operand.finish stop (.mem offset r) ⟨start, close.stop⟩ rest)
    | rest => total (Operand.unexpected stop rest)
  | tokens => total (Operand.unexpected stop tokens)

def operand (piece : List Token) (stop : Span) : Attempt ParseError (Located Operand) :=
  match piece with
  | ⟨.reg name, span⟩ :: rest => do total (Operand.finish stop (.reg (← namedRegister name span)) span rest)
  | ⟨.int v, span⟩ :: ⟨.lparen, _⟩ :: rest => base stop v span.start rest
  | ⟨.lparen, span⟩ :: rest => base stop 0 span.start rest
  | ⟨.ident name, span⟩ :: rest => do total (Operand.finish stop (.label (← label name span)) span rest)
  | tokens => total (Operand.ofTokens tokens stop)

def operands (stop : Span) (tokens : List Token) : Attempt ParseError (List (Located Operand)) :=
  if tokens.isEmpty then return [] else (Operand.pieces stop tokens).mapM fun p => operand p.1 p.2

theorem namedRegister_eq (name : String) (span : Span) :
    namedRegister name span = total (Operand.register name span) := by
  rw [namedRegister, lift_eq (regOfName_eq name), ok_bind, Operand.register]
  cases Reg.ofName? name <;> rfl

theorem base_eq (stop : Span) (offset : Int) (start : Nat) (tokens : List Token) :
    base stop offset start tokens = total (Operand.base stop offset start tokens) := by
  rcases tokens with _ | ⟨⟨kind, span⟩, rest⟩
  · rfl
  · cases kind with
    | reg name =>
      rw [base, namedRegister_eq, Operand.base]
      refine total_bind fun r _ => ?_
      rcases rest with _ | ⟨⟨kind, close⟩, rest⟩
      · rfl
      · cases kind <;> rfl
    | _ => rfl

theorem operand_eq {piece : List Token} (h : ∀ t ∈ piece, Named t) (stop : Span) :
    operand piece stop = total (Operand.ofTokens piece stop) := by
  unfold operand
  split
  · rename_i name span rest
    rw [namedRegister_eq]
    exact total_bind fun r _ => rfl
  · exact base_eq ..
  · exact base_eq ..
  · rename_i name span rest
    rw [lift_eq (label_eq (h _ List.mem_cons_self))]
    rfl
  · rfl

theorem operands_eq {tokens : List Token} (h : ∀ t ∈ tokens, Named t) (stop : Span) :
    operands stop tokens = total (Operand.listOfTokens stop tokens) := by
  unfold operands Operand.listOfTokens
  split
  · rfl
  · exact mapM_eq fun p hp => operand_eq (fun t ht => h t ((Operand.pieces_sublist hp).1.subset ht)) p.2

end Operands

section Nuclei

def literalAt (s : Signedness) (n : Nat) (cause : OffsetError → ParseCause) (v : Int) (span : Span) :
    Attempt ParseError (BitVec n) :=
  relabel (fun e => (cause e).marked span) (literal s n v)

def signedImmediate (s : Signedness) : Int → Span → Attempt ParseError Half := literalAt s 16 .immOutOfRange

def shiftAmount : Int → Span → Attempt ParseError (BitVec 5) := literalAt .unsigned 5 fun _ => .shiftOutOfRange

def sourceInstr (op : RealOp) (operands : List (Located Operand)) (span : Span) :
    Attempt ParseError SourceInstr :=
  match op, operands with
  | .shift op, [⟨.reg rd, _⟩, ⟨.reg rt, _⟩, ⟨.int n, place⟩] => do
    return .real (.shift op rd rt (← shiftAmount n place))
  | .imm op, [⟨.reg rt, _⟩, ⟨.reg rs, _⟩, ⟨.int n, place⟩] => do
    return .real (.imm op rt rs (← signedImmediate (if op.zeroExtends then .unsigned else .signed) n place))
  | .lui, [⟨.reg rt, _⟩, ⟨.int n, place⟩] => do
    return .real (.lui rt (← signedImmediate .unsigned n place))
  | .mem op, [⟨.reg rt, _⟩, ⟨.mem offset base, place⟩] => do
    return .real (.mem op rt base (← signedImmediate .signed offset place))
  | op, operands => total (SourceInstr.ofOperands op operands span)

def leading (low high : Int) (operands : List (Located Operand)) (span : Span) : Attempt ParseError Int := do
  let vs ← total (Directive.integers low high operands span)
  liftM (vs[0]? : Option Int)

def directive (name : Located String) (operands : List (Located Operand)) (span : Span) :
    Attempt ParseError Directive :=
  match name.value, operands with
  | ".space", [operand] => do return .space (BitVec.ofInt 32 (← leading 0 wordHigh [operand] span))
  | ".align", [operand] => do return .align (BitVec.ofInt 32 (← leading 0 3 [operand] span))
  | _, operands => total (Directive.ofOperands name operands span)

def nucleus (name : Located String) (operands : List (Located Operand)) (span : Span) :
    Attempt ParseError Nucleus :=
  if name.value.toList.head? = some '.' then do return .directive (← directive name operands span)
  else
    match RealOp.find? name.value with
    | some op => do return .instr (← sourceInstr op operands span)
    | none => total (Nucleus.ofOperands name operands span)

theorem literalAt_eq (s : Signedness) {n : Nat} (cause : OffsetError → ParseCause) (h : 0 < n) (hn : n ≤ 32)
    (v : Int) (span : Span) : literalAt s n cause v span = total (SourceInstr.literal s n cause v span) := by
  rw [literalAt, literal_eq s v h hn, relabel_total, SourceInstr.literal]
  cases Offset.ofLiteral s n v <;> rfl

theorem signedImmediate_eq (s : Signedness) (v : Int) (span : Span) :
    signedImmediate s v span = total (SourceInstr.immediate s v span) :=
  literalAt_eq s .immOutOfRange (by decide) (by decide) v span

theorem shiftAmount_eq (v : Int) (span : Span) :
    shiftAmount v span = total (SourceInstr.shiftAmount v span) :=
  literalAt_eq .unsigned (fun _ => .shiftOutOfRange) (by decide) (by decide) v span

theorem sourceInstr_eq (op : RealOp) (operands : List (Located Operand)) (span : Span) :
    sourceInstr op operands span = total (SourceInstr.ofOperands op operands span) := by
  unfold sourceInstr
  split
  · rw [shiftAmount_eq]
    exact total_bind fun _ _ => rfl
  · rw [signedImmediate_eq]
    exact total_bind fun _ _ => rfl
  · rw [signedImmediate_eq]
    exact total_bind fun _ _ => rfl
  · rw [signedImmediate_eq]
    exact total_bind fun _ _ => rfl
  · rfl

theorem leading_eq (low high : Int) (operand : Located Operand) (span : Span) :
    leading low high [operand] span = total (Directive.integer low high operand) := by
  unfold leading Directive.integers
  cases h : Directive.integer low high operand with
  | ok v => simp [h]; rfl
  | error e => simp [h]; rfl

theorem directive_eq (name : Located String) (operands : List (Located Operand)) (span : Span) :
    directive name operands span = total (Directive.ofOperands name operands span) := by
  unfold directive
  split
  · rename_i operand hname
    unfold Directive.ofOperands
    rw [leading_eq, hname]
    exact total_bind fun _ _ => rfl
  · rename_i operand hname
    unfold Directive.ofOperands
    rw [leading_eq, hname]
    exact total_bind fun _ _ => rfl
  · rfl

theorem nucleus_eq (name : Located String) (operands : List (Located Operand)) (span : Span) :
    nucleus name operands span = total (Nucleus.ofOperands name operands span) := by
  unfold nucleus
  split
  · rename_i hdot
    rw [directive_eq, Nucleus.ofOperands, if_pos hdot]
    exact total_bind fun _ _ => rfl
  · rename_i hdot
    split
    · rename_i op hop
      rw [sourceInstr_eq, Nucleus.ofOperands, if_neg hdot, hop]
      exact total_bind fun _ _ => rfl
    · rfl

end Nuclei

section Statements

def splitLabel : List Token → Option (Option Label × List Token)
  | ⟨.ident name, span⟩ :: ⟨.colon, _⟩ :: rest => do return (some (← label name span), rest)
  | tokens => some (none, tokens)

def ofTokens (tokens : List Token) : Attempt ParseError Stmt :=
  match Stmt.lexError? tokens with
  | some e => throw e
  | none => do
    let (label, body) ← splitLabel (tokens.takeWhile fun t => t.kind ≠ .eol)
    match body with
    | [] => return ⟨label, none, Stmt.endSpan tokens⟩
    | ⟨.ident name, place⟩ :: rest => do
      let operands ← operands (Stmt.endSpan tokens) rest
      let span : Span := ⟨place.start, (operands.getLast?.map (Located.span ·)).elim place.stop Span.stop⟩
      return ⟨label, some (← nucleus ⟨name, place⟩ operands span), span⟩
    | t :: _ => throw (ParseCause.expectedMnemonic.marked t.span)

theorem splitLabel_eq {tokens : List Token} (h : ∀ t ∈ tokens, Named t) :
    splitLabel tokens = some (Stmt.splitLabel tokens) := by
  unfold splitLabel
  split
  · rw [label_eq (h _ List.mem_cons_self)]
    rfl
  · rename_i hlabel
    unfold Stmt.splitLabel
    split
    · exact (hlabel _ _ _ _ rfl).elim
    · rfl

theorem mem_of_mem_splitLabel {tokens : List Token} {t : Token}
    (ht : t ∈ (Stmt.splitLabel tokens).2) : t ∈ tokens := by
  unfold Stmt.splitLabel at ht
  split at ht
  · exact List.mem_cons_of_mem _ (List.mem_cons_of_mem _ ht)
  · exact ht

theorem ofTokens_eq {tokens : List Token} (h : ∀ t ∈ tokens, Named t) :
    ofTokens tokens = total (Stmt.ofTokens tokens) := by
  have hline : ∀ t ∈ tokens.takeWhile fun t => t.kind ≠ .eol, Named t :=
    fun t ht => h t ((List.takeWhile_sublist _).mem ht)
  have hbody : ∀ t ∈ (Stmt.splitLabel (tokens.takeWhile fun t => t.kind ≠ .eol)).2, Named t :=
    fun t ht => hline t (mem_of_mem_splitLabel ht)
  unfold ofTokens Stmt.ofTokens
  cases Stmt.lexError? tokens with
  | some e => rfl
  | none =>
    dsimp only
    rw [lift_eq (splitLabel_eq hline), ok_bind]
    revert hbody
    generalize Stmt.splitLabel (tokens.takeWhile fun t => t.kind ≠ .eol) = parts
    obtain ⟨label, body⟩ := parts
    intro hbody
    rcases body with _ | ⟨⟨kind, place⟩, rest⟩
    · rfl
    · cases kind with
      | ident name =>
        dsimp only
        rw [operands_eq fun t ht => hbody t (List.mem_cons_of_mem _ ht)]
        refine total_bind fun operands _ => ?_
        rw [nucleus_eq]
        exact total_bind fun _ _ => rfl
      | _ => rfl

end Statements

end MipsMachine.Checked
