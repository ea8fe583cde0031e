import MipsMachine.Proofs.Traversal
import MipsMachine.Statement.Parse

namespace MipsMachine

theorem Reg.ofName?_name (r : Reg) : ofName? r.name = some r := by
  obtain ⟨n⟩ := r
  revert n
  decide

theorem Reg.name_ne_nil_and_isAlphanum (r : Reg) :
    r.name.toList ≠ [] ∧ r.name.toList.all Char.isAlphanum := by
  obtain ⟨n⟩ := r
  revert n
  decide

namespace Operand

inductive Spells : List Token → Located Operand → Prop
  | reg {name r} (span) (h : Reg.ofName? name = some r) : Spells [⟨.reg name, span⟩] ⟨.reg r, span⟩
  | int (v span) : Spells [⟨.int v, span⟩] ⟨.int v, span⟩
  | mem {name base} (offset first paren place last) (h : Reg.ofName? name = some base) :
    Spells [⟨.int offset, first⟩, ⟨.lparen, paren⟩, ⟨.reg name, place⟩, ⟨.rparen, last⟩]
      ⟨.mem offset base, ⟨first.start, last.stop⟩⟩
  | base {name base} (first place last) (h : Reg.ofName? name = some base) :
    Spells [⟨.lparen, first⟩, ⟨.reg name, place⟩, ⟨.rparen, last⟩] ⟨.mem 0 base, ⟨first.start, last.stop⟩⟩
  | label (name span) : Spells [⟨.ident name, span⟩] ⟨.label ⟨name, span.start⟩, span⟩
  | str (text span) : Spells [⟨.str text, span⟩] ⟨.str text, span⟩

inductive SpellsSome : List Token → List (Located Operand) → Prop
  | one {tokens o} (h : Spells tokens o) : SpellsSome tokens [o]
  | cons {tokens rest o os} (comma) (h : Spells tokens o) (hs : SpellsSome rest os) :
    SpellsSome (tokens ++ ⟨.comma, comma⟩ :: rest) (o :: os)

inductive SpellsAll : List Token → List (Located Operand) → Prop
  | none : SpellsAll [] []
  | some {tokens os} (h : SpellsSome tokens os) : SpellsAll tokens os

variable {tokens : List Token} {o : Located Operand} {os : List (Located Operand)} {stop : Span}

section Read

theorem register_ok_iff {name : String} {span : Span} {r : Reg} :
    register name span = .ok r ↔ Reg.ofName? name = some r := by
  unfold register
  cases Reg.ofName? name <;> simp

theorem unexpected_ne_ok {α : Type} {a : α} : unexpected stop tokens ≠ .ok a := by
  cases tokens <;> exact nofun

theorem finish_ok_iff {operand : Operand} {span : Span} :
    finish stop operand span tokens = .ok o ↔ tokens = [] ∧ ⟨operand, span⟩ = o := by
  cases tokens with
  | nil => simp [finish]
  | cons t ts => simp [finish, unexpected_ne_ok]

theorem base_ok_iff {offset : Int} {start : Nat} :
    Operand.base stop offset start tokens = .ok o ↔ ∃ name place last r, Reg.ofName? name = some r ∧
      tokens = [⟨.reg name, place⟩, ⟨.rparen, last⟩] ∧ ⟨.mem offset r, ⟨start, last.stop⟩⟩ = o := by
  constructor
  · intro h
    unfold Operand.base at h
    split at h
    case h_2 => exact (unexpected_ne_ok h).elim
    case h_1 =>
      obtain ⟨r, hr, h⟩ := bind_eq_ok_iff.mp h
      split at h
      case h_2 => exact (unexpected_ne_ok h).elim
      case h_1 =>
        obtain ⟨rfl, rfl⟩ := finish_ok_iff.mp h
        exact ⟨_, _, _, r, register_ok_iff.mp hr, rfl, rfl⟩
  · rintro ⟨name, place, last, r, hr, rfl, rfl⟩
    exact bind_eq_ok_iff.mpr ⟨r, register_ok_iff.mpr hr, rfl⟩

theorem spells_of_ofTokens (h : ofTokens tokens stop = .ok o) : Spells tokens o := by
  unfold ofTokens at h
  split at h
  case h_1 =>
    obtain ⟨r, hr, h⟩ := bind_eq_ok_iff.mp h
    obtain ⟨rfl, rfl⟩ := finish_ok_iff.mp h
    exact .reg _ (register_ok_iff.mp hr)
  case h_2 =>
    obtain ⟨name, place, last, r, hr, rfl, rfl⟩ := base_ok_iff.mp h
    exact .mem _ _ _ _ _ hr
  case h_4 =>
    obtain ⟨name, place, last, r, hr, rfl, rfl⟩ := base_ok_iff.mp h
    exact .base _ _ _ hr
  case h_7 => exact (unexpected_ne_ok h).elim
  case h_3 | h_5 | h_6 =>
    obtain ⟨rfl, rfl⟩ := finish_ok_iff.mp h
    constructor

theorem ofTokens_of_spells (h : Spells tokens o) : ofTokens tokens stop = .ok o := by
  cases h with
  | reg span h => exact bind_eq_ok_iff.mpr ⟨_, register_ok_iff.mpr h, rfl⟩
  | mem offset first paren place last h => exact base_ok_iff.mpr ⟨_, place, last, _, h, rfl, rfl⟩
  | base first place last h => exact base_ok_iff.mpr ⟨_, place, last, _, h, rfl, rfl⟩
  | int | label | str => rfl

end Read

section Commas

theorem Spells.inner (h : Spells tokens o) :
    ∀ t ∈ tokens, t.kind ≠ .comma ∧ t.kind ≠ .colon ∧ t.kind ≠ .eol ∧ ∀ e, t.kind ≠ .error e := by
  cases h <;> simp

theorem Spells.exists_last (h : Spells tokens o) :
    ∃ before last, tokens = before ++ [last] ∧ last.span.stop = o.span.stop := by
  cases h with
  | reg | int | label | str => exact ⟨[], _, rfl, rfl⟩
  | mem => exact ⟨[_, _, _], _, rfl, rfl⟩
  | base => exact ⟨[_, _], _, rfl, rfl⟩

theorem pieces_of_not_comma (stop : Span) (h : ∀ t ∈ tokens, t.kind ≠ .comma) :
    pieces stop tokens = [(tokens, stop)] := by
  induction tokens with
  | nil => rfl
  | cons t ts ih =>
    obtain ⟨ht, hts⟩ := List.forall_mem_cons.mp h
    rw [pieces, if_neg ht, ih hts]

theorem pieces_append {t : Token} (stop : Span) (h : ∀ t ∈ tokens, t.kind ≠ .comma) (ht : t.kind = .comma)
    (rest : List Token) : pieces stop (tokens ++ t :: rest) = (tokens, t.span) :: pieces stop rest := by
  induction tokens with
  | nil => rw [List.nil_append, pieces, if_pos ht]
  | cons t' ts ih =>
    obtain ⟨ht', hts⟩ := List.forall_mem_cons.mp h
    rw [List.cons_append, pieces, if_neg ht', ih hts]

theorem pieces_ne_nil : pieces stop tokens ≠ [] := by
  cases tokens with
  | nil => exact List.cons_ne_nil _ _
  | cons t ts =>
    rw [pieces]
    split
    · exact List.cons_ne_nil _ _
    · split <;> exact List.cons_ne_nil _ _

theorem pieces_sublist {p : List Token × Span} (hp : p ∈ pieces stop tokens) :
    p.1.Sublist tokens ∧ (p.2 = stop ∨ ∃ t ∈ tokens, p.2 = t.span) := by
  induction tokens generalizing p with
  | nil =>
    obtain rfl := List.mem_singleton.mp hp
    exact ⟨.slnil, .inl rfl⟩
  | cons t rest ih =>
    have hmore (h : p ∈ pieces stop rest) :
        p.1.Sublist (t :: rest) ∧ (p.2 = stop ∨ ∃ u ∈ t :: rest, p.2 = u.span) := by
      obtain ⟨hsub, hstop⟩ := ih h
      exact ⟨hsub.cons t, hstop.imp_right fun ⟨u, hu, he⟩ => ⟨u, List.mem_cons_of_mem t hu, he⟩⟩
    unfold pieces at hp
    split at hp
    · obtain rfl | hp := List.mem_cons.mp hp
      · exact ⟨List.nil_sublist _, .inr ⟨t, List.mem_cons_self, rfl⟩⟩
      · exact hmore hp
    split at hp
    · obtain rfl := List.mem_singleton.mp hp
      exact ⟨List.singleton_sublist.mpr List.mem_cons_self, .inl rfl⟩
    · rename_i piece close more hpieces
      obtain rfl | hp := List.mem_cons.mp hp
      · obtain ⟨hsub, hstop⟩ := ih (p := (piece, close)) (hpieces ▸ List.mem_cons_self)
        exact ⟨hsub.cons_cons t, hstop.imp_right fun ⟨u, hu, he⟩ => ⟨u, List.mem_cons_of_mem t hu, he⟩⟩
      · exact hmore (hpieces ▸ List.mem_cons_of_mem _ hp)

theorem spellsSome_of_pieces (h : List.Forall₂ (fun p o => ofTokens p.1 p.2 = .ok o) (pieces stop tokens) os) :
    SpellsSome tokens os := by
  -- one operand is read from what stands before the first comma, the others from what stands after it
  induction os generalizing tokens with
  | nil => exact (pieces_ne_nil (List.forall₂_nil_right_iff.mp h)).elim
  | cons o os ih =>
    cases hc : tokens.find? fun t => t.kind = .comma with
    | none =>
      rw [List.find?_eq_none] at hc
      rw [pieces_of_not_comma stop (by simpa using hc)] at h
      obtain ⟨ho, hos⟩ := List.forall₂_cons.mp h
      rw [List.forall₂_nil_left_iff.mp hos]
      exact .one (spells_of_ofTokens ho)
    | some t =>
      obtain ⟨ht, before, rest, rfl, hb⟩ := List.find?_eq_some_iff_append.mp hc
      obtain ⟨kind, comma⟩ := t
      obtain rfl : kind = .comma := by simpa using ht
      rw [pieces_append stop (by simpa using hb) rfl] at h
      obtain ⟨ho, hos⟩ := List.forall₂_cons.mp h
      exact .cons comma (spells_of_ofTokens ho) (ih hos)

theorem pieces_of_spellsSome (h : SpellsSome tokens os) :
    List.Forall₂ (fun p o => ofTokens p.1 p.2 = .ok o) (pieces stop tokens) os := by
  induction h with
  | one h =>
    rw [pieces_of_not_comma stop fun t ht => (h.inner t ht).1]
    exact .cons (ofTokens_of_spells h) .nil
  | cons comma h hs ih =>
    rw [pieces_append stop (fun t ht => (h.inner t ht).1) rfl]
    exact .cons (ofTokens_of_spells h) ih

theorem SpellsSome.ne_nil (h : SpellsSome tokens os) : tokens ≠ [] := by
  cases h with
  | one h => cases h <;> exact nofun
  | cons => simp

theorem listOfTokens_ok_iff : listOfTokens stop tokens = .ok os ↔ SpellsAll tokens os := by
  by_cases ht : tokens = []
  · subst ht
    rw [listOfTokens, List.isEmpty_nil, if_pos rfl]
    constructor
    · rintro ⟨⟩
      exact .none
    · intro h
      cases h with
      | none => rfl
      | some h => exact (h.ne_nil rfl).elim
  · rw [listOfTokens, if_neg (mt List.isEmpty_iff.mp ht), mapM_eq_ok_iff]
    constructor
    · intro h
      exact .some (spellsSome_of_pieces h)
    · intro h
      cases h with
      | none => exact (ht rfl).elim
      | some h => exact pieces_of_spellsSome h

theorem SpellsAll.inner (h : SpellsAll tokens os) :
    ∀ t ∈ tokens, t.kind ≠ .colon ∧ t.kind ≠ .eol ∧ ∀ e, t.kind ≠ .error e := by
  cases h with
  | none => exact nofun
  | some h =>
    induction h with
    | one h => exact fun t ht => (h.inner t ht).2
    | cons comma h hs ih =>
      rw [List.forall_mem_append, List.forall_mem_cons]
      exact ⟨fun t ht => (h.inner t ht).2, by simp, ih⟩

theorem SpellsAll.stop_eq (h : SpellsAll tokens os) (start : Nat) :
    (os.getLast?.map (Located.span ·)).elim start Span.stop =
      (tokens.getLast?.map Token.span).elim start Span.stop := by
  cases h with
  | none => rfl
  | some h =>
    have hl : ∃ before last front o,
        tokens = before ++ [last] ∧ os = front ++ [o] ∧ last.span.stop = o.span.stop := by
      induction h with
      | one h =>
        obtain ⟨before, last, rfl, hl⟩ := h.exists_last
        exact ⟨before, last, [], _, rfl, rfl, hl⟩
      | @cons tokens _ o _ comma h hs ih =>
        obtain ⟨before, last, front, o', rfl, rfl, hl⟩ := ih
        exact ⟨tokens ++ ⟨.comma, comma⟩ :: before, last, o :: front, o', by simp, rfl, hl⟩
    obtain ⟨before, last, front, o, rfl, rfl, hl⟩ := hl
    simp [hl]

end Commas

section Kinds

def kinds : Operand → List TokenKind
  | reg r => [.reg r.name]
  | int v => [.int v]
  | label l => [.ident l.name]
  | mem offset base => [.int offset, .lparen, .reg base.name, .rparen]
  | str text => [.str text]

def listKinds : List Operand → List TokenKind
  | [] => []
  | o :: os => o.kinds ++ os.flatMap fun o => .comma :: o.kinds

def IsLabel : Operand → Prop
  | label _ => True
  | _ => False

variable {os : List Operand}

theorem exists_spells {o : Operand} (hl : ¬ o.IsLabel) (h : tokens.map Token.kind = o.kinds) :
    ∃ span, Spells tokens ⟨o, span⟩ := by
  cases o with
  | reg r =>
    obtain ⟨⟨kind, span⟩, rfl, rfl⟩ := List.map_eq_singleton_iff.mp h
    exact ⟨span, .reg span r.ofName?_name⟩
  | int v =>
    obtain ⟨⟨kind, span⟩, rfl, rfl⟩ := List.map_eq_singleton_iff.mp h
    exact ⟨span, .int v span⟩
  | label l => exact (hl trivial).elim
  | mem offset base =>
    obtain ⟨⟨kind, first⟩, tokens, rfl, rfl, h1⟩ := List.map_eq_cons_iff.mp h
    obtain ⟨⟨kind, paren⟩, tokens, rfl, rfl, h2⟩ := List.map_eq_cons_iff.mp h1
    obtain ⟨⟨kind, place⟩, tokens, rfl, rfl, h3⟩ := List.map_eq_cons_iff.mp h2
    obtain ⟨⟨kind, last⟩, rfl, rfl⟩ := List.map_eq_singleton_iff.mp h3
    exact ⟨_, .mem offset first paren place last base.ofName?_name⟩
  | str text =>
    obtain ⟨⟨kind, span⟩, rfl, rfl⟩ := List.map_eq_singleton_iff.mp h
    exact ⟨span, .str text span⟩

theorem exists_spellsSome {o : Operand} (hl : ∀ o' ∈ o :: os, ¬ o'.IsLabel)
    (h : tokens.map Token.kind = listKinds (o :: os)) :
    ∃ operands, SpellsSome tokens operands ∧ operands.map (Located.value ·) = o :: os := by
  induction os generalizing o tokens with
  | nil =>
    have hk : tokens.map Token.kind = o.kinds := by simpa [listKinds] using h
    obtain ⟨span, ho⟩ := exists_spells (hl o List.mem_cons_self) hk
    exact ⟨[⟨o, span⟩], .one ho, rfl⟩
  | cons o' os ih =>
    obtain ⟨first, rest, rfl, hk, hrest⟩ := List.map_eq_append_iff.mp h
    obtain ⟨⟨kind, comma⟩, others, rfl, rfl, hothers⟩ := List.map_eq_cons_iff.mp hrest
    obtain ⟨ho, hos⟩ := List.forall_mem_cons.mp hl
    obtain ⟨span, ho⟩ := exists_spells ho hk
    obtain ⟨operands, hs, hv⟩ := ih hos hothers
    exact ⟨⟨o, span⟩ :: operands, .cons comma ho hs, congrArg _ hv⟩

theorem exists_spellsAll (hl : ∀ o ∈ os, ¬ o.IsLabel) (h : tokens.map Token.kind = listKinds os) :
    ∃ operands, SpellsAll tokens operands ∧ operands.map (Located.value ·) = os := by
  cases os with
  | nil =>
    rw [List.map_eq_nil_iff.mp h]
    exact ⟨[], .none, rfl⟩
  | cons o os =>
    obtain ⟨operands, hs, hv⟩ := exists_spellsSome hl h
    exact ⟨operands, .some hs, hv⟩

end Kinds

section Located

variable {operands : List (Located Operand)}

theorem located_one {a : Operand} (h : operands.map (Located.value ·) = [a]) : ∃ x, operands = [⟨a, x⟩] := by
  obtain ⟨⟨_, x⟩, rfl, rfl⟩ := List.map_eq_singleton_iff.mp h
  exact ⟨x, rfl⟩

theorem located_two {a b : Operand} (h : operands.map (Located.value ·) = [a, b]) :
    ∃ x y, operands = [⟨a, x⟩, ⟨b, y⟩] := by
  obtain ⟨⟨_, x⟩, rest, rfl, rfl, hr⟩ := List.map_eq_cons_iff.mp h
  obtain ⟨y, rfl⟩ := located_one hr
  exact ⟨x, y, rfl⟩

theorem located_three {a b c : Operand} (h : operands.map (Located.value ·) = [a, b, c]) :
    ∃ x y z, operands = [⟨a, x⟩, ⟨b, y⟩, ⟨c, z⟩] := by
  obtain ⟨⟨_, x⟩, rest, rfl, rfl, hr⟩ := List.map_eq_cons_iff.mp h
  obtain ⟨y, z, rfl⟩ := located_two hr
  exact ⟨x, y, z, rfl⟩

end Located

end Operand

namespace Stmt

open Operand

variable {name : String} {os : List Operand} {tokens : List Token}

theorem lexError?_eq_none_iff : lexError? tokens = none ↔ ∀ t ∈ tokens, ∀ e, t.kind ≠ .error e := by
  rw [lexError?, List.findSome?_eq_none_iff]
  refine forall₂_congr fun t _ => ?_
  cases t.kind <;> simp

theorem splitLabel_eq_none {t : Token} (h : ∀ t ∈ tokens, t.kind ≠ .colon) :
    splitLabel (t :: tokens) = (none, t :: tokens) := by
  unfold splitLabel
  split
  case h_1 he =>
    cases he
    exact (h _ List.mem_cons_self rfl).elim
  case h_2 => rfl

theorem exists_ofTokens (hl : ∀ o ∈ os, ¬ o.IsLabel)
    (h : tokens.map Token.kind = .ident name :: listKinds os ++ [.eol]) :
    ∃ place operands span, operands.map (Located.value ·) = os ∧
      ofTokens tokens =
        (Nucleus.ofOperands ⟨name, place⟩ operands span).map fun n => ⟨none, some n, span⟩ := by
  obtain ⟨body, last, rfl, hbody, hlast⟩ := List.map_eq_append_iff.mp h
  obtain ⟨⟨kind, place⟩, rest, rfl, rfl, hrest⟩ := List.map_eq_cons_iff.mp hbody
  obtain ⟨stop, rfl, hstop⟩ := List.map_eq_singleton_iff.mp hlast
  obtain ⟨operands, hs, hv⟩ := exists_spellsAll hl hrest
  have hlex : lexError? (⟨.ident name, place⟩ :: rest ++ [stop]) = none := by
    apply lexError?_eq_none_iff.mpr
    simp only [List.mem_append, List.mem_cons, List.not_mem_nil, or_false]
    rintro t ((rfl | ht) | rfl)
    · simp
    · exact (hs.inner t ht).2.2
    · simp [hstop]
  have htake : (⟨.ident name, place⟩ :: rest ++ [stop]).takeWhile (fun t => t.kind ≠ .eol) =
      ⟨.ident name, place⟩ :: rest := by
    rw [List.takeWhile_append_of_pos, List.takeWhile_cons_of_neg (by simp [hstop]), List.append_nil]
    intro t ht
    rcases List.mem_cons.mp ht with rfl | ht
    · rfl
    · simpa using (hs.inner t ht).2.1
  have ho : listOfTokens stop.span rest = .ok operands := listOfTokens_ok_iff.mpr hs
  have hend : endSpan (⟨.ident name, place⟩ :: rest ++ [stop]) = stop.span := by
    rw [endSpan, List.getLast?_concat]
    rfl
  -- the operands are read before the name is looked up, so they decide where the nucleus ends
  let span : Span := ⟨place.start, (operands.getLast?.map (Located.span ·)).elim place.stop Span.stop⟩
  refine ⟨place, operands, span, hv, ?_⟩
  simp only [ofTokens, hlex, htake, splitLabel_eq_none fun t ht => (hs.inner t ht).1, hend, ho, bind, Except.bind]
  generalize Nucleus.ofOperands _ _ _ = r
  cases r <;> rfl

end Stmt

end MipsMachine
