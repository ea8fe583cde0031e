import MipsMachine.Proofs.Checked.Statement
import MipsMachine.Proofs.Statement.Grammar

namespace MipsMachine

/-- The range of each token has a property, and so has all from one token to another that comes after it. -/
structure Token.Places (P : Span → Prop) (tokens : List Token) : Prop where
  one : ∀ t ∈ tokens, P t.span
  hull : tokens.Pairwise fun t u => P ⟨t.span.start, u.span.stop⟩
  named : ∀ t ∈ tokens, Checked.Named t

theorem Token.Places.sublist {P : Span → Prop} {tokens tokens' : List Token} (h : Places P tokens)
    (hs : tokens'.Sublist tokens) : Places P tokens' :=
  ⟨fun t ht => h.one t (hs.subset ht), h.hull.sublist hs, fun t ht => h.named t (hs.subset ht)⟩

theorem Token.Places.first {P : Span → Prop} {t u : Token} {rest : List Token} (h : Places P (t :: rest))
    (hu : u ∈ rest) : P ⟨t.span.start, u.span.stop⟩ := (List.pairwise_cons.mp h.hull).1 u hu

theorem Token.Places.label {P : Span → Prop} {name : String} {span : Span} {rest : List Token}
    (h : Places P (⟨.ident name, span⟩ :: rest)) : P (Label.span ⟨name, span.start⟩) := by
  have hnamed : span.start + name.utf8ByteSize = span.stop := h.named _ List.mem_cons_self name rfl
  rw [Label.span, hnamed]
  exact h.one _ List.mem_cons_self

def ParseError.PointsAt (P : Span → Prop) (e : ParseError) : Prop := ∃ span, e.marks = .one span ∧ P span

theorem ParseError.pointsAt_marked {P : Span → Prop} {cause : ParseCause} {span : Span} (h : P span) :
    (cause.marked span).PointsAt P := ⟨span, rfl, h⟩

variable {P : Span → Prop}

theorem failsOnly_marked {α : Type} {cause : ParseCause} {span : Span} (h : P span) :
    FailsOnly (ParseError.PointsAt P) (.error (cause.marked span) : Except ParseError α) :=
  failsOnly_error (ParseError.pointsAt_marked h)

namespace Operand

variable {tokens : List Token} {stop : Span}

section Errors

variable (hs : P stop) (ht : ∀ t ∈ tokens, P t.span)

theorem failsOnly_register {name : String} {span : Span} (h : P span) :
    FailsOnly (ParseError.PointsAt P) (register name span) := by
  unfold register
  split
  · exact failsOnly_ok _
  · exact failsOnly_marked h

include hs ht

theorem failsOnly_unexpected {α : Type} :
    FailsOnly (ParseError.PointsAt P) (unexpected stop tokens : Except ParseError α) := by
  cases tokens with
  | nil => exact failsOnly_marked hs
  | cons t ts => exact failsOnly_marked (ht t List.mem_cons_self)

theorem failsOnly_finish {operand : Operand} {span : Span} :
    FailsOnly (ParseError.PointsAt P) (finish stop operand span tokens) := by
  unfold finish
  split
  · exact failsOnly_ok _
  · exact failsOnly_unexpected hs ht

theorem failsOnly_base {offset : Int} {start : Nat} :
    FailsOnly (ParseError.PointsAt P) (Operand.base stop offset start tokens) := by
  unfold Operand.base
  split
  · obtain ⟨hreg, hrest⟩ := List.forall_mem_cons.mp ht
    refine failsOnly_bind (failsOnly_register hreg) fun r _ => ?_
    split
    · exact failsOnly_finish hs (List.forall_mem_cons.mp hrest).2
    · exact failsOnly_unexpected hs hrest
  · exact failsOnly_unexpected hs ht

theorem failsOnly_ofTokens : FailsOnly (ParseError.PointsAt P) (ofTokens tokens stop) := by
  unfold ofTokens
  split
  case h_1 =>
    obtain ⟨hreg, hrest⟩ := List.forall_mem_cons.mp ht
    exact failsOnly_bind (failsOnly_register hreg) fun r _ => failsOnly_finish hs hrest
  case h_2 => exact failsOnly_base hs (List.forall_mem_cons.mp (List.forall_mem_cons.mp ht).2).2
  case h_4 => exact failsOnly_base hs (List.forall_mem_cons.mp ht).2
  case h_3 | h_5 | h_6 => exact failsOnly_finish hs (List.forall_mem_cons.mp ht).2
  case h_7 => exact failsOnly_unexpected hs ht

theorem failsOnly_listOfTokens : FailsOnly (ParseError.PointsAt P) (listOfTokens stop tokens) := by
  unfold listOfTokens
  split
  · exact failsOnly_ok _
  · refine failsOnly_mapM fun p hp => ?_
    obtain ⟨hsub, hstop⟩ := pieces_sublist hp
    refine failsOnly_ofTokens ?_ fun t htp => ht t (hsub.subset htp)
    obtain hstop | ⟨t, htt, hstop⟩ := hstop
    · rw [hstop]
      exact hs
    · rw [hstop]
      exact ht t htt

end Errors

structure Sits (P : Span → Prop) (o : Located Operand) : Prop where
  span : P o.span
  label : ∀ l, o.value = .label l → P l.span

theorem Spells.sits {o : Located Operand} (h : Spells tokens o) (hp : Token.Places P tokens) : Sits P o := by
  cases h with
  | reg | int | str => exact ⟨hp.one _ List.mem_cons_self, nofun⟩
  | label name span =>
    refine ⟨hp.one _ List.mem_cons_self, ?_⟩
    rintro _ ⟨⟩
    exact hp.label
  | mem _ _ _ _ last => exact ⟨hp.first (u := ⟨.rparen, last⟩) (by simp), nofun⟩
  | base _ _ last => exact ⟨hp.first (u := ⟨.rparen, last⟩) (by simp), nofun⟩

theorem SpellsAll.sits {os : List (Located Operand)} (h : SpellsAll tokens os) (hp : Token.Places P tokens) :
    ∀ o ∈ os, Sits P o := by
  cases h with
  | none => exact nofun
  | some h =>
    induction h with
    | one h =>
      intro o ho
      obtain rfl := List.mem_singleton.mp ho
      exact h.sits hp
    | @cons tokens rest _ _ comma h hs ih =>
      have hrest : rest.Sublist (tokens ++ ⟨.comma, comma⟩ :: rest) :=
        (List.sublist_cons_self _ rest).trans (List.sublist_append_right tokens _)
      have hfirst := h.sits (hp.sublist (List.sublist_append_left tokens _))
      exact List.forall_mem_cons.mpr ⟨hfirst, ih (hp.sublist hrest)⟩

end Operand

section Forms

variable {operands : List (Located Operand)} {span : Span} (hs : P span) (ho : ∀ o ∈ operands, P o.span)

theorem SourceInstr.pointsAt_literal {s : Signedness} {n : Nat} {cause : OffsetError → ParseCause} {v : Int}
    (h : P span) : FailsOnly (ParseError.PointsAt P) (literal s n cause v span) :=
  failsOnly_literal fun _ => ParseError.pointsAt_marked h

theorem Directive.failsOnly_integer {low high : Int} {o : Located Operand} (h : P o.span) :
    FailsOnly (ParseError.PointsAt P) (integer low high o) := by
  unfold integer
  split
  · split
    · exact failsOnly_ok _
    · exact failsOnly_marked h
  · exact failsOnly_marked h

include hs ho

theorem SourceInstr.failsOnly_ofOperands {op : RealOp} :
    FailsOnly (ParseError.PointsAt P) (ofOperands op operands span) := by
  unfold ofOperands
  split
  case h_2 | h_4 =>
    simp only [List.forall_mem_cons] at ho
    exact failsOnly_bind (pointsAt_literal ho.2.2.1) fun _ _ => failsOnly_ok _
  case h_5 | h_6 =>
    simp only [List.forall_mem_cons] at ho
    exact failsOnly_bind (pointsAt_literal ho.2.1) fun _ _ => failsOnly_ok _
  case h_17 => exact failsOnly_marked hs
  all_goals exact failsOnly_ok _

theorem Pseudo.failsOnly_ofOperands {op : PseudoOp} :
    FailsOnly (ParseError.PointsAt P) (ofOperands op operands span) := by
  unfold ofOperands
  split
  case h_2 =>
    simp only [List.forall_mem_cons] at ho
    split
    · exact failsOnly_ok _
    · exact failsOnly_marked ho.2.1
  case h_13 => exact failsOnly_marked hs
  all_goals exact failsOnly_ok _

theorem Directive.failsOnly_integers {low high : Int} :
    FailsOnly (ParseError.PointsAt P) (integers low high operands span) := by
  unfold integers
  split
  · exact failsOnly_marked hs
  · exact failsOnly_mapM fun o h => failsOnly_integer (ho o h)

theorem Directive.failsOnly_ofOperands {name : Located String} (hn : P name.span) :
    FailsOnly (ParseError.PointsAt P) (ofOperands name operands span) := by
  unfold ofOperands
  split
  case h_3 | h_4 | h_5 => exact failsOnly_bind (failsOnly_integers hs ho) fun _ _ => failsOnly_ok _
  case h_8 | h_9 =>
    split
    · exact failsOnly_bind (failsOnly_integer (ho _ (by simp))) fun _ _ => failsOnly_ok _
    · exact failsOnly_marked hs
  case h_10 => exact failsOnly_marked hn
  all_goals
    split
    · exact failsOnly_ok _
    · exact failsOnly_marked hs

theorem Nucleus.failsOnly_ofOperands {name : Located String} (hn : P name.span) :
    FailsOnly (ParseError.PointsAt P) (ofOperands name operands span) := by
  unfold ofOperands
  split
  · exact failsOnly_bind (Directive.failsOnly_ofOperands hs ho hn) fun _ _ => failsOnly_ok _
  split
  · exact failsOnly_bind (SourceInstr.failsOnly_ofOperands hs ho) fun _ _ => failsOnly_ok _
  · exact failsOnly_bind (Pseudo.failsOnly_ofOperands hs ho) fun _ _ => failsOnly_ok _
  · exact failsOnly_marked hn

end Forms

section Labels

def Pseudo.label? : Pseudo → Option Label
  | la _ label | ordBranch _ _ _ label | b label | memLabel _ _ label => some label
  | _ => none

def SourceInstr.label? : SourceInstr → Option Label
  | real _ => none
  | compare _ _ _ label | zero _ _ label | jump _ label => some label
  | pseudo p => p.label?

variable {values : List Operand} {l : Label}

theorem Pseudo.Means.label_mem {op : PseudoOp} {p : Pseudo} (h : Means op values p) (hl : p.label? = some l) :
    .label l ∈ values := by
  cases h <;> cases hl <;> simp

theorem SourceInstr.Means.label_mem {op : RealOp} {i : SourceInstr} (h : Means op values i)
    (hl : i.label? = some l) : .label l ∈ values := by
  cases h <;> cases hl <;> simp

theorem Nucleus.Means.label_mem {name : String} {i : SourceInstr} (h : Means name values (.instr i))
    (hl : i.label? = some l) : .label l ∈ values := by
  cases h with
  | real _ h => exact h.label_mem hl
  | pseudo _ h => exact h.label_mem hl

end Labels

namespace Stmt

structure Sits (P : Span → Prop) (s : Stmt) : Prop where
  span : P s.span
  label : ∀ l, s.label = some l → P l.span
  target : ∀ i, s.nucleus = some (.instr i) → ∀ l, i.label? = some l → P l.span

variable {tokens : List Token}

theorem lexError?_pointsAt {e : ParseError} (h : lexError? tokens = some e) (ht : ∀ t ∈ tokens, P t.span) :
    e.PointsAt P := by
  obtain ⟨t, htt, he⟩ := List.exists_of_findSome?_eq_some h
  split at he
  · cases he
    exact ParseError.pointsAt_marked (ht t htt)
  · cases he

theorem nucleus_place {t : Token} {rest : List Token} (hp : Token.Places P (t :: rest)) :
    P ⟨t.span.start, (rest.getLast?.map Token.span).elim t.span.stop Span.stop⟩ := by
  cases h : rest.getLast? with
  | none => exact hp.one t List.mem_cons_self
  | some last => exact hp.first (List.mem_of_getLast? h)

theorem Opening.place {opening rest : List Token} {label : Option Label} (ho : Opening opening label)
    (hp : Token.Places P (opening ++ rest)) : ∀ l, label = some l → P l.span := by
  cases ho with
  | none => exact nofun
  | label =>
    rintro _ ⟨⟩
    exact hp.label

variable (hp : Token.Places P tokens) (hend : P (endSpan tokens))

include hp hend

theorem failsOnly_ofTokens : FailsOnly (ParseError.PointsAt P) (ofTokens tokens) := by
  unfold ofTokens
  split
  case h_1 e he => exact failsOnly_error (lexError?_pointsAt he hp.one)
  case h_2 =>
    have hline := hp.sublist (List.takeWhile_sublist fun t => t.kind ≠ .eol)
    generalize tokens.takeWhile (fun t => t.kind ≠ .eol) = line at hline
    obtain ⟨opening, -, hsplit⟩ := exists_opening line
    generalize splitLabel line = parts at hsplit
    obtain ⟨label, body⟩ := parts
    subst hsplit
    have hbody := hline.sublist (List.sublist_append_right opening body)
    dsimp only at hbody ⊢
    split
    case h_1 => exact failsOnly_ok _
    case h_2 name place rest =>
      have hrest := hbody.sublist (List.sublist_cons_self _ rest)
      have hplace : P place := hbody.one _ List.mem_cons_self
      refine failsOnly_bind (Operand.failsOnly_listOfTokens hend hrest.one) fun operands hops => ?_
      have hops := Operand.listOfTokens_ok_iff.mp hops
      have hspan := nucleus_place hbody
      rw [← hops.stop_eq] at hspan
      have hname : FailsOnly (ParseError.PointsAt P) (Nucleus.ofOperands ⟨name, place⟩ operands _) :=
        Nucleus.failsOnly_ofOperands hspan (fun o ho => (hops.sits hrest o ho).span) hplace
      exact failsOnly_bind hname fun _ _ => failsOnly_ok _
    case h_3 t rest _ => exact failsOnly_marked (hbody.one t List.mem_cons_self)

theorem sits_of_ofTokens {s : Stmt} (h : ofTokens tokens = .ok s) : Sits P s := by
  obtain ⟨-, hline⟩ := line_of_ofTokens h
  have hplaces := hp.sublist (List.takeWhile_sublist fun t => t.kind ≠ .eol)
  generalize tokens.takeWhile (fun t => t.kind ≠ .eol) = line at hplaces hline
  cases hline with
  | blank ho =>
    rw [← List.append_nil line] at hplaces
    exact ⟨hend, ho.place hplaces, nofun⟩
  | @nucleus opening label name place tokens operands n ho hops hn =>
    have hbody := hplaces.sublist (List.sublist_append_right opening _)
    have hrest := hbody.sublist (List.sublist_cons_self _ tokens)
    refine ⟨nucleus_place hbody, ho.place hplaces, ?_⟩
    rintro i ⟨⟩ l hl
    obtain ⟨o, ho, hol⟩ := List.mem_map.mp (hn.label_mem hl)
    exact (hops.sits hrest o ho).label l hol

end Stmt

namespace Token

structure Shown (line : String) (span : Span) : Prop where
  start_le_stop : span.start ≤ span.stop
  stop_le : span.stop ≤ line.utf8ByteSize
  start_boundary : IsBoundary line span.start
  stop_boundary : IsBoundary line span.stop

variable {line : String} {tokens : List Token}

theorem Tiles.start_le_stop (h : Tiles line tokens) {t : Token} (ht : t ∈ tokens) :
    t.span.start ≤ t.span.stop := by
  by_cases hk : t.kind = .eol
  · obtain ⟨front, rfl, hfront⟩ := h.last
    rcases List.mem_append.mp ht with ht | ht
    · exact (hfront t ht hk).elim
    · rw [List.mem_singleton.mp ht]
  · exact (h.nonempty t ht hk).le

theorem Tiles.shown (h : Tiles line tokens) {t : Token} (ht : t ∈ tokens) : Shown line t.span :=
  ⟨h.start_le_stop ht, h.inside t ht, (h.boundaries t ht).1, (h.boundaries t ht).2⟩

theorem places_ofLine (src : String) : Places (Shown (firstLine src)) (ofLine src) := by
  have h := tiles_ofLine src
  refine ⟨fun t ht => h.shown ht, ?_, Checked.named_ofLine src⟩
  refine h.increasing.imp_of_mem fun {t u} ht hu hle => ?_
  have hlt := h.start_le_stop ht
  have hlu := h.start_le_stop hu
  exact ⟨(hlt.trans hle).trans hlu, h.inside u hu, (h.boundaries t ht).1, (h.boundaries u hu).2⟩

theorem shown_endSpan (src : String) : Shown (firstLine src) (Stmt.endSpan (ofLine src)) := by
  have h := tiles_ofLine src
  obtain ⟨front, hlast, -⟩ := h.last
  have hmem : ⟨.eol, ⟨(firstLine src).utf8ByteSize, (firstLine src).utf8ByteSize⟩⟩ ∈ ofLine src := by
    rw [hlast]
    exact List.mem_append_right _ List.mem_cons_self
  rw [hlast, Stmt.endSpan, List.getLast?_concat]
  exact h.shown hmem

end Token

end MipsMachine
