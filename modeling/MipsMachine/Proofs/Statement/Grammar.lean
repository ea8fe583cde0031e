import MipsMachine.Proofs.Statement.Forms

namespace MipsMachine

namespace Stmt

inductive Opening : List Token → Option Label → Prop
  | none : Opening [] none
  | label (name span colon) : Opening [⟨.ident name, span⟩, ⟨.colon, colon⟩] (some ⟨name, span.start⟩)

inductive Line (ending : Span) : List Token → Stmt → Prop
  | blank {opening label} (h : Opening opening label) : Line ending opening ⟨label, none, ending⟩
  | nucleus {opening label name place tokens operands n} (h : Opening opening label)
    (ho : Operand.SpellsAll tokens operands) (hn : Nucleus.Means name (operands.map (Located.value ·)) n) :
    Line ending (opening ++ ⟨.ident name, place⟩ :: tokens)
      ⟨label, some n, ⟨place.start, (tokens.getLast?.map Token.span).elim place.stop Span.stop⟩⟩

variable {tokens : List Token} {s : Stmt}

theorem exists_opening (tokens : List Token) :
    ∃ opening, Opening opening (splitLabel tokens).1 ∧ tokens = opening ++ (splitLabel tokens).2 := by
  unfold splitLabel
  split
  · exact ⟨_, .label _ _ _, rfl⟩
  · exact ⟨_, .none, rfl⟩

theorem splitLabel_append {opening body : List Token} {label : Option Label} (h : Opening opening label)
    (hb : splitLabel body = (none, body)) : splitLabel (opening ++ body) = (label, body) := by
  cases h with
  | none => exact hb
  | label => rfl

theorem line_of_ofTokens (h : ofTokens tokens = .ok s) :
    (∀ t ∈ tokens, ∀ e, t.kind ≠ .error e) ∧
      Line (endSpan tokens) (tokens.takeWhile fun t => t.kind ≠ .eol) s := by
  unfold ofTokens at h
  split at h
  case h_1 => cases h
  case h_2 hlex =>
    refine ⟨lexError?_eq_none_iff.mp hlex, ?_⟩
    generalize tokens.takeWhile (fun t => t.kind ≠ .eol) = line at h ⊢
    obtain ⟨opening, ho, hline⟩ := exists_opening line
    generalize splitLabel line = parts at h ho hline
    obtain ⟨label, body⟩ := parts
    subst hline
    dsimp only at h
    split at h
    case h_1 =>
      cases h
      rw [List.append_nil]
      exact .blank ho
    case h_2 =>
      obtain ⟨operands, hops, h⟩ := bind_eq_ok_iff.mp h
      obtain ⟨n, hn, h⟩ := bind_eq_ok_iff.mp h
      have hops := Operand.listOfTokens_ok_iff.mp hops
      cases h
      rw [hops.stop_eq]
      exact .nucleus ho hops (Nucleus.means_of_ofOperands hn)
    case h_3 => cases h

theorem ofTokens_of_line (hlex : ∀ t ∈ tokens, ∀ e, t.kind ≠ .error e)
    (h : Line (endSpan tokens) (tokens.takeWhile fun t => t.kind ≠ .eol) s) : ofTokens tokens = .ok s := by
  unfold ofTokens
  rw [lexError?_eq_none_iff.mpr hlex]
  generalize tokens.takeWhile (fun t => t.kind ≠ .eol) = line at h ⊢
  cases h with
  | @blank _ label h =>
    have hs : splitLabel (line ++ []) = (label, []) := splitLabel_append h rfl
    rw [List.append_nil] at hs
    rw [hs]
  | nucleus h ho hn =>
    rw [splitLabel_append h (splitLabel_eq_none fun t ht => (ho.inner t ht).1), ← ho.stop_eq]
    exact bind_eq_ok_iff.mpr ⟨_, Operand.listOfTokens_ok_iff.mpr ho,
      bind_eq_ok_iff.mpr ⟨_, Nucleus.ofOperands_of_means hn, rfl⟩⟩

theorem ofTokens_iff_line : ofTokens tokens = .ok s ↔
    (∀ t ∈ tokens, ∀ e, t.kind ≠ .error e) ∧
      Line (endSpan tokens) (tokens.takeWhile fun t => t.kind ≠ .eol) s :=
  ⟨line_of_ofTokens, fun h => ofTokens_of_line h.1 h.2⟩

end Stmt

end MipsMachine
