import MipsMachine.Proofs.Assembly.Planning
import MipsMachine.Proofs.Statement.Places

namespace MipsMachine

/-- An error that points at one range with a property. Only a full text segment has no place in the line. -/
def AsmError.PointsAt (P : Span → Prop) (e : AsmError) : Prop :=
  (∃ span, e.marks = some (.one span) ∧ P span) ∨ e.marks = none ∧ e.cause = .segmentOverflow .text

variable {P : Span → Prop}

theorem AsmError.pointsAt_marked {cause : AsmCause} {span : Span} (h : P span) : (cause.marked span).PointsAt P :=
  .inl ⟨span, rfl, h⟩

theorem AsmError.pointsAt_ofParse {e : ParseError} (h : e.PointsAt P) : (ofParse e).PointsAt P := by
  obtain ⟨span, hmarks, hspan⟩ := h
  exact .inl ⟨span, congrArg some hmarks, hspan⟩

theorem failsOnly_asm_marked {α : Type} {cause : AsmCause} {span : Span} (h : P span) :
    FailsOnly (AsmError.PointsAt P) (.error (cause.marked span) : Except AsmError α) :=
  failsOnly_error (AsmError.pointsAt_marked h)

theorem Segment.failsOnly_advance (s : Segment) (cursor : Word) (n : Nat) :
    FailsOnly (· = .segmentOverflow s) (s.advance cursor n) := by
  unfold advance
  split
  · exact failsOnly_ok _
  · exact failsOnly_error rfl

section Instructions

variable {lookup : String → Option Word} {i : SourceInstr}

theorem Pseudo.failsOnly_expand {p : Pseudo} (h : ∀ l, p.label? = some l → P l.span) :
    FailsOnly (AsmError.PointsAt P) (p.expand lookup) := by
  unfold expand
  split
  case h_2 =>
    split
    · exact failsOnly_ok _
    · exact failsOnly_ok _
  case h_3 =>
    split
    · exact failsOnly_ok _
    · exact failsOnly_asm_marked (h _ rfl)
  all_goals exact failsOnly_ok _

theorem SourceInstr.failsOnly_expand (h : ∀ l, i.label? = some l → P l.span) :
    FailsOnly (AsmError.PointsAt P) (i.expand lookup) := by
  cases i with
  | pseudo p => exact p.failsOnly_expand h
  | real | compare | zero | jump => exact failsOnly_ok _

theorem Pseudo.label_of_expand {p : Pseudo} {ps : List Piece} (h : p.expand lookup = .ok ps) {patch : Patch}
    {l : Label} (hl : .ref patch l ∈ ps) : p.label? = some l := by
  cases p with
  | la rt label =>
    rw [expand] at h
    split at h
    · cases h
      simp at hl
    · cases h
  | li rt value =>
    rw [expand] at h
    split at h
    · cases h
      simp at hl
    · cases h
      simp at hl
  | ordBranch order =>
    cases h
    cases order <;> simp [orderedBranch] at hl <;> simp [label?, hl]
  | b | memLabel =>
    cases h
    simp at hl
    simp [label?, hl]
  | move | abs | neg | negu | not | mul | sgt | sge =>
    cases h
    simp at hl

theorem SourceInstr.label_of_expand {ps : List Piece} (h : i.expand lookup = .ok ps) {patch : Patch} {l : Label}
    (hl : .ref patch l ∈ ps) : i.label? = some l := by
  cases i with
  | pseudo p => exact p.label_of_expand h hl
  | real =>
    cases h
    simp at hl
  | compare | zero | jump =>
    cases h
    simp at hl
    simp [label?, hl]

theorem Plan.failsOnly_piece {addr : Word} {p : Piece} (h : ∀ patch l, p = .ref patch l → P l.span) :
    FailsOnly (AsmError.PointsAt P) (piece lookup addr p) := by
  unfold piece
  split
  · exact failsOnly_ok _
  · split
    · exact failsOnly_ok _
    split
    · exact failsOnly_ok _
    · exact failsOnly_asm_marked (h _ _ rfl)

theorem Plan.failsOnly_pieces {addr : Word} {ps : List Piece} (h : ∀ patch l, .ref patch l ∈ ps → P l.span) :
    FailsOnly (AsmError.PointsAt P) (pieces lookup addr ps) := by
  induction ps generalizing addr with
  | nil => exact failsOnly_ok _
  | cons p ps ih =>
    have hp : ∀ patch l, p = .ref patch l → P l.span := fun patch l he => h patch l (he ▸ List.mem_cons_self)
    refine failsOnly_bind (failsOnly_piece hp) fun r _ => ?_
    dsimp only
    split
    · rename_i e he
      exact failsOnly_error (.inr ⟨rfl, Segment.failsOnly_advance _ _ _ e he⟩)
    · exact failsOnly_bind (ih fun patch l hl => h patch l (List.mem_cons_of_mem p hl)) fun _ _ => failsOnly_ok _

end Instructions

namespace Machine

variable {m : Machine} {s : Stmt}

theorem failsOnly_planInstr {p : Plan} {i : SourceInstr} (h : ∀ l, i.label? = some l → P l.span) :
    FailsOnly (AsmError.PointsAt P) (m.planInstr p i) := by
  refine failsOnly_bind (SourceInstr.failsOnly_expand h) fun ps hps => ?_
  have hrefs : ∀ patch l, .ref patch l ∈ ps → P l.span :=
    fun patch l hl => h l (SourceInstr.label_of_expand hps hl)
  exact failsOnly_bind (Plan.failsOnly_pieces hrefs) fun _ _ => failsOnly_ok _

theorem failsOnly_alignedCursor (h : P s.span) : FailsOnly (AsmError.PointsAt P) (m.alignedCursor s) := by
  unfold alignedCursor
  split
  case h_1 | h_4 => exact failsOnly_asm_marked h
  case h_5 =>
    dsimp only
    split
    · exact failsOnly_ok _
    · exact failsOnly_asm_marked h
  all_goals exact failsOnly_ok _

theorem failsOnly_planNucleus (h : s.Sits P) (p : Plan) : FailsOnly (AsmError.PointsAt P) (m.planNucleus s p) := by
  unfold planNucleus
  split
  · exact failsOnly_ok p
  · rename_i i hi
    exact failsOnly_planInstr (h.target i hi)
  · exact failsOnly_mapError (fun _ => AsmError.pointsAt_marked h.span) _

theorem failsOnly_planStmt (h : s.Sits P) : FailsOnly (AsmError.PointsAt P) (m.planStmt s) := by
  cases ha : m.alignedCursor s with
  | error e =>
    have herror : m.planStmt s = .error e := by
      unfold planStmt
      rw [ha]
      rfl
    rw [herror]
    exact failsOnly_error (failsOnly_alignedCursor h.span e ha)
  | ok a =>
    obtain rfl := alignedCursor_eq ha
    cases hl : s.label with
    | none =>
      rw [planStmt_unlabelled ha hl]
      exact failsOnly_planNucleus h _
    | some l =>
      rw [planStmt_labelled ha hl]
      refine failsOnly_bind (failsOnly_mapError (fun _ => ?_) _) fun q _ => failsOnly_planNucleus h _
      exact AsmError.pointsAt_marked (h.label l hl)

theorem failsOnly_assembleTokens {tokens : List Token} (hp : Token.Places P tokens)
    (hend : P (Stmt.endSpan tokens)) : FailsOnly (AsmError.PointsAt P) (m.assembleTokens tokens).1 := by
  unfold assembleTokens
  split
  · rename_i s hs
    have hplan := failsOnly_planStmt (m := m) (Stmt.sits_of_ofTokens hp hend hs)
    unfold assemble apply
    split
    · exact failsOnly_ok _
    · rename_i e he
      exact failsOnly_error (hplan e he)
  · rename_i e he
    exact failsOnly_error (AsmError.pointsAt_ofParse (Stmt.failsOnly_ofTokens hp hend e he))

theorem error_shown (src : String) :
    (∀ e, Stmt.ofLine src = .error e →
      ∃ span, e.marks = .one span ∧ Token.Shown (Token.firstLine src) span) ∧
    ∀ (m : Machine) e, (m.assembleLine src).1 = .error e →
      (∃ span, e.marks = some (.one span) ∧ Token.Shown (Token.firstLine src) span) ∨
        e.marks = none ∧ e.cause = .segmentOverflow .text :=
  ⟨Stmt.failsOnly_ofTokens (Token.places_ofLine src) (Token.shown_endSpan src),
    fun _ => failsOnly_assembleTokens (Token.places_ofLine src) (Token.shown_endSpan src)⟩

theorem error_shown_register :
    let src := ".asciiz \"é\", $t10"
    Stmt.ofLine src = .error ⟨.unknownRegister "t10", .one ⟨14, 18⟩⟩ ∧
      Token.Shown (Token.firstLine src) ⟨14, 18⟩ := by
  intro src
  have htokens : Token.ofLine src = [⟨.ident ".asciiz", ⟨0, 7⟩⟩, ⟨.str "é", ⟨8, 12⟩⟩, ⟨.comma, ⟨12, 13⟩⟩,
      ⟨.reg "t10", ⟨14, 18⟩⟩, ⟨.eol, ⟨18, 18⟩⟩] := by decide +kernel
  have h : Stmt.ofLine src = .error ⟨.unknownRegister "t10", .one ⟨14, 18⟩⟩ := by
    rw [Stmt.ofLine, htokens]
    rfl
  obtain ⟨span, hmarks, hshown⟩ := (error_shown src).1 _ h
  cases hmarks
  exact ⟨h, hshown⟩

end Machine

end MipsMachine
