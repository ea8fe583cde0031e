import MipsMachine.Assembly.Plan
import MipsMachine.Proofs.Token.Trailing
import MipsMachine.Proofs.Traversal

namespace MipsMachine

namespace Operand

variable (stop stop' : Span) (tokens : List Token)

theorem cause_unexpected {α : Type} : (unexpected (α := α) stop tokens).mapError ParseError.cause =
    (unexpected stop' tokens).mapError ParseError.cause := by
  cases tokens <;> rfl

theorem cause_finish (operand : Operand) (span : Span) :
    (finish stop operand span tokens).mapError ParseError.cause =
      (finish stop' operand span tokens).mapError ParseError.cause := by
  cases tokens <;> rfl

theorem cause_base (offset : Int) (start : Nat) :
    (Operand.base stop offset start tokens).mapError ParseError.cause =
      (Operand.base stop' offset start tokens).mapError ParseError.cause := by
  unfold Operand.base
  split
  · rw [mapError_bind, mapError_bind]
    refine bind_congr fun r => ?_
    split
    · exact cause_finish ..
    · exact cause_unexpected ..
  · exact cause_unexpected ..

theorem cause_ofTokens :
    (ofTokens tokens stop).mapError ParseError.cause = (ofTokens tokens stop').mapError ParseError.cause := by
  unfold ofTokens
  split
  · rw [mapError_bind, mapError_bind]
    exact bind_congr fun r => cause_finish ..
  · exact cause_base ..
  · exact cause_finish ..
  · exact cause_base ..
  · exact cause_finish ..
  · exact cause_finish ..
  · exact cause_unexpected ..

theorem map_fst_pieces : (pieces stop tokens).map Prod.fst = (pieces stop' tokens).map Prod.fst := by
  induction tokens with
  | nil => rfl
  | cons t tokens ih =>
    unfold pieces
    split
    · rw [List.map_cons, List.map_cons, ih]
    · cases h : pieces stop tokens <;> cases h' : pieces stop' tokens <;> rw [h, h'] at ih <;> simp_all

theorem cause_listOfTokens : (listOfTokens stop tokens).mapError ParseError.cause =
    (listOfTokens stop' tokens).mapError ParseError.cause := by
  -- what a piece ends with does not enter once the place of an error is left out
  have hpieces (stop : Span) : ((pieces stop tokens).mapM fun p => ofTokens p.1 p.2).mapError ParseError.cause =
      ((pieces stop tokens).map Prod.fst).mapM fun piece =>
        (ofTokens piece ⟨0, 0⟩).mapError ParseError.cause := by
    rw [mapError_mapM, List.mapM_map]
    exact congrArg (fun f => List.mapM f _) (funext fun p => cause_ofTokens p.2 ⟨0, 0⟩ p.1)
  unfold listOfTokens
  split
  · rfl
  · rw [hpieces stop, hpieces stop', map_fst_pieces stop stop']

end Operand

namespace Stmt

/-- Results of parsing that differ at most in where an error or a line without instruction is. -/
def Agree : Except ParseError Stmt → Except ParseError Stmt → Prop
  | .ok s, .ok s' => s' = s ∨ s.nucleus = none ∧ ∃ span, s' = { s with span := span }
  | .error e, .error e' => e'.cause = e.cause
  | _, _ => False

theorem agree_refl (result : Except ParseError Stmt) : Agree result result := by
  cases result with
  | ok s => exact .inl rfl
  | error e => exact rfl

theorem agree_bind {α : Type} {x y : Except ParseError α} (f : α → Except ParseError Stmt)
    (h : x.mapError ParseError.cause = y.mapError ParseError.cause) : Agree (x >>= f) (y >>= f) := by
  cases x with
  | ok a =>
    cases y with
    | ok b =>
      cases h
      exact agree_refl _
    | error e => cases h
  | error e =>
    cases y with
    | ok b => cases h
    | error e' => exact (Except.error.inj h).symm

theorem agree_ofTokens {front : List Token} (h : ∀ t ∈ front, t.kind ≠ .eol) (stop stop' : Span) :
    Agree (ofTokens (front ++ [⟨.eol, stop⟩])) (ofTokens (front ++ [⟨.eol, stop'⟩])) := by
  have hlex (p : Span) : lexError? (front ++ [⟨.eol, p⟩]) = lexError? front := by
    rw [lexError?, List.findSome?_append]
    exact Option.or_none
  have htake (p : Span) : (front ++ [Token.mk .eol p]).takeWhile (fun t => t.kind ≠ .eol) = front := by
    rw [List.takeWhile_append_of_pos fun t ht => decide_eq_true (h t ht)]
    exact List.append_nil front
  have hend (p : Span) : endSpan (front ++ [⟨.eol, p⟩]) = p := by
    rw [endSpan, List.getLast?_concat]
    rfl
  unfold ofTokens
  rw [hlex, hlex, htake, htake, hend, hend]
  split
  · exact rfl
  · generalize splitLabel front = parts
    obtain ⟨label, body⟩ := parts
    dsimp only
    split
    · exact .inr ⟨rfl, stop', rfl⟩
    · exact agree_bind _ (Operand.cause_listOfTokens ..)
    · exact rfl

end Stmt

namespace Machine

theorem planStmt_moved (m : Machine) {s : Stmt} (h : s.nucleus = none) (span : Span) :
    m.planStmt { s with span := span } = m.planStmt s := by
  obtain ⟨label, nucleus, place⟩ := s
  cases h
  rfl

theorem assembleTokens_agree (m : Machine) {tokens tokens' : List Token}
    (h : Stmt.Agree (Stmt.ofTokens tokens) (Stmt.ofTokens tokens')) :
    (m.assembleTokens tokens').1.mapError AsmError.cause = (m.assembleTokens tokens).1.mapError AsmError.cause ∧
      (m.assembleTokens tokens').2 = (m.assembleTokens tokens).2 := by
  unfold assembleTokens
  generalize Stmt.ofTokens tokens = x at h
  generalize Stmt.ofTokens tokens' = y at h
  cases x with
  | ok s =>
    cases y with
    | ok s' =>
      obtain rfl | ⟨hs, span, rfl⟩ := h
      · exact ⟨rfl, rfl⟩
      · dsimp only [assemble]
        rw [m.planStmt_moved hs]
        exact ⟨rfl, rfl⟩
    | error e => exact h.elim
  | error e =>
    cases y with
    | ok s => exact h.elim
    | error e' => exact ⟨congrArg (fun cause => Except.error (AsmCause.parse cause)) h, rfl⟩

/--
Blanks and a comment after a line without an open literal change none of its tokens but the end, and the
line assembles to the same words and the same machine, or fails for the same cause.
-/
theorem assembleLine_trailing {line trail : String} (hline : '\n' ∉ line.toList) (htrail : '\n' ∉ trail.toList)
    (ho : ∀ t ∈ Token.ofLine line, ¬ Token.IsUnclosed t.kind) (h : Token.Trails trail.toList) :
    (∃ front, (∀ t ∈ front, t.kind ≠ .eol) ∧
      Token.ofLine line = front ++ [⟨.eol, ⟨line.utf8ByteSize, line.utf8ByteSize⟩⟩] ∧
      Token.ofLine (line ++ trail) =
        front ++ [⟨.eol, ⟨(line ++ trail).utf8ByteSize, (line ++ trail).utf8ByteSize⟩⟩]) ∧
      ∀ m : Machine,
        (m.assembleLine (line ++ trail)).1.mapError AsmError.cause =
          (m.assembleLine line).1.mapError AsmError.cause ∧
        (m.assembleLine (line ++ trail)).2 = (m.assembleLine line).2 := by
  obtain ⟨front, hfront, hleft, hright⟩ := Token.ofLine_append hline htrail ho h
  refine ⟨⟨front, hfront, hleft, hright⟩, fun m => ?_⟩
  have hagree := Stmt.agree_ofTokens hfront ⟨line.utf8ByteSize, line.utf8ByteSize⟩
    ⟨(line ++ trail).utf8ByteSize, (line ++ trail).utf8ByteSize⟩
  rw [← hleft, ← hright] at hagree
  exact m.assembleTokens_agree hagree

theorem assembleLine_trailing_quotes :
    let line := ".asciiz \"#'\" 'ab' # it's"
    let trail := "\t # \"no string"
    '\n' ∉ line.toList ∧ '\n' ∉ trail.toList ∧ (∀ t ∈ Token.ofLine line, ¬ Token.IsUnclosed t.kind) ∧
      Token.Trails trail.toList ∧
      ∀ m : Machine,
        (m.assembleLine (line ++ trail)).1.mapError AsmError.cause =
          (m.assembleLine line).1.mapError AsmError.cause ∧
        (m.assembleLine (line ++ trail)).2 = (m.assembleLine line).2 := by
  intro line trail
  have hline : '\n' ∉ line.toList := by decide
  have htrail : '\n' ∉ trail.toList := by decide
  have ho : ∀ t ∈ Token.ofLine line, ¬ Token.IsUnclosed t.kind := by decide +kernel
  have h : Token.Trails trail.toList :=
    ⟨['\t', ' '], "# \"no string".toList, by decide, List.all_eq_true.mp (by decide), .inr (by decide)⟩
  exact ⟨hline, htrail, ho, h, (assembleLine_trailing hline htrail ho h).2⟩

end Machine

end MipsMachine
