import MipsMachine.Token.Line
import Mathlib.Data.List.TakeWhile

/-!
Reading a line from its left end. A text that ends where no token goes on is split into the same tokens
whatever follows it, so a line is read piece by piece.
-/

namespace MipsMachine.Token

open Character

section Chars

variable {c : Char} (start : Nat) (r : List Char)

theorem ofChars_blank (h : isBlank c) : ofChars start (c :: r) = ofChars (start + c.utf8Size) r := by
  rw [ofChars, if_pos h]

theorem ofChars_comment :
    ofChars start ('#' :: r) = [⟨.eol, ⟨start + width ('#' :: r), start + width ('#' :: r)⟩⟩] := by
  rw [ofChars, if_neg (by decide), if_pos rfl]

theorem ofChars_scan (hb : ¬ isBlank c) (hc : c ≠ '#') :
    ofChars start (c :: r) =
      ⟨(scan c r).1, ⟨start, start + width (c :: r.take (scan c r).2)⟩⟩ ::
        ofChars (start + width (c :: r.take (scan c r).2)) (r.drop (scan c r).2) := by
  rw [ofChars, if_neg hb, if_neg hc]

end Chars

theorem ofLine_of_one_line {line : String} (h : '\n' ∉ line.toList) : ofLine line = ofChars 0 line.toList := by
  have htake : line.toList.takeWhile (· ≠ '\n') = line.toList := by
    rw [List.takeWhile_eq_self_iff]
    intro c hc
    rw [decide_eq_true_eq]
    rintro rfl
    exact h hc
  rw [ofLine, htake]

def kinds (cs : List Char) : List TokenKind := (ofChars 0 cs).map Token.kind

theorem map_kind_ofChars (start : Nat) (cs : List Char) : (ofChars start cs).map Token.kind = kinds cs := by
  suffices h : ∀ stop, (ofChars start cs).map Token.kind = (ofChars stop cs).map Token.kind from h 0
  induction start, cs using ofChars.induct with
  | case1 start => simp [ofChars]
  | case2 start c r hb ih =>
    intro stop
    rw [ofChars_blank _ _ hb, ofChars_blank _ _ hb]
    apply ih
  | case3 start r => simp [ofChars_comment]
  | case4 start c r hb hc kind n hs stop ih =>
    intro stop
    rw [ofChars_scan _ _ hb hc, ofChars_scan _ _ hb hc, hs, List.map_cons, List.map_cons]
    exact congrArg _ (ih _)

theorem kinds_nil : kinds [] = [.eol] := by simp [kinds, ofChars]

theorem kinds_blank {c : Char} (h : isBlank c) (r : List Char) : kinds (c :: r) = kinds r := by
  rw [kinds, ofChars_blank _ _ h, map_kind_ofChars]

theorem kinds_scan {c : Char} (hb : ¬ isBlank c) (hc : c ≠ '#') (r : List Char) :
    kinds (c :: r) = (scan c r).1 :: kinds (r.drop (scan c r).2) := by
  rw [kinds, ofChars_scan _ _ hb hc, List.map_cons, map_kind_ofChars]

def continues (c : Char) : Bool := isWordCharacter c || c = '.'

def Breaks (rest : List Char) : Prop := ∀ c ∈ rest.head?, continues c = false

/-- The text `cs` has tokens of these kinds, whatever stands after it. -/
structure Reads (cs : List Char) (ks : List TokenKind) : Prop where
  kinds_append : ∀ rest, Breaks rest → kinds (cs ++ rest) = ks ++ kinds rest
  one_line : '\n' ∉ cs

section Breaks

theorem breaks_nil : Breaks [] := by simp [Breaks]

theorem breaks_cons {c : Char} (h : continues c = false) (r : List Char) : Breaks (c :: r) := by
  simpa [Breaks] using h

theorem Breaks.append {cs rest : List Char} (h : Breaks cs) (hr : Breaks rest) : Breaks (cs ++ rest) := by
  cases cs with
  | nil => exact hr
  | cons c cs => exact h

theorem continues_of_isWordCharacter {c : Char} (h : isWordCharacter c) : continues c := by
  simp [continues, h]

theorem continues_of_isAlphanum {c : Char} (h : c.isAlphanum) : continues c :=
  continues_of_isWordCharacter (isWordCharacter_of_isAlphanum h)

theorem continues_of_isIdentCharacter {c : Char} (h : isIdentCharacter c) : continues c := by
  simp only [isIdentCharacter, Bool.or_eq_true, decide_eq_true_eq] at h
  rcases h with (h | rfl) | rfl
  · exact continues_of_isAlphanum h
  · decide
  · decide

theorem takeWhile_eq_nil {p : Char → Bool} {rest : List Char} (hr : ∀ c ∈ rest.head?, ¬ p c) :
    rest.takeWhile p = [] := by
  cases rest with
  | nil => rfl
  | cons c r => exact List.takeWhile_cons_of_neg (hr c rfl)

theorem takeWhile_breaks {p : Char → Bool} (hp : ∀ c, p c → continues c) {cs rest : List Char}
    (hcs : ∀ c ∈ cs, p c) (hr : Breaks rest) : (cs ++ rest).takeWhile p = cs := by
  have h : rest.takeWhile p = [] := by
    apply takeWhile_eq_nil
    intro c hc hpc
    have hb := hr c hc
    rw [hp c hpc] at hb
    cases hb
  rw [List.takeWhile_append_of_pos hcs, h, List.append_nil]

theorem not_newline_of_continues {cs : List Char} (h : ∀ c ∈ cs, continues c) : '\n' ∉ cs := by
  intro hn
  have hc : continues '\n' := h _ hn
  exact absurd hc (by decide)

end Breaks

namespace Reads

variable {cs ds : List Char} {ks ls : List TokenKind}

theorem nil : Reads [] [] := ⟨fun _ _ => rfl, List.not_mem_nil⟩

theorem append (h : Reads cs ks) (h' : Reads ds ls) (hb : Breaks ds) : Reads (cs ++ ds) (ks ++ ls) := by
  constructor
  · intro rest hr
    rw [List.append_assoc, h.kinds_append _ (hb.append hr), h'.kinds_append rest hr, List.append_assoc]
  · rw [List.mem_append, not_or]
    exact ⟨h.one_line, h'.one_line⟩

theorem blank (h : Reads cs ks) : Reads (' ' :: cs) ks := by
  constructor
  · intro rest hr
    exact (kinds_blank (by decide) _).trans (h.kinds_append rest hr)
  · simpa using h.one_line

theorem map_kind_ofLine {src : String} (h : Reads src.toList ks) :
    (ofLine src).map Token.kind = ks ++ [.eol] := by
  rw [ofLine_of_one_line h.one_line, map_kind_ofChars, ← kinds_nil, ← h.kinds_append [] breaks_nil,
    List.append_nil]

theorem of_scan {c : Char} {k : TokenKind} (hb : ¬ isBlank c) (hc : c ≠ '#') (hn : '\n' ≠ c) (hcs : '\n' ∉ cs)
    (h : ∀ rest, Breaks rest → scan c (cs ++ rest) = (k, cs.length)) : Reads (c :: cs) [k] := by
  refine ⟨fun rest hr => ?_, List.not_mem_cons_of_ne_of_not_mem hn hcs⟩
  rw [List.cons_append, kinds_scan hb hc, h rest hr, List.drop_left]
  rfl

theorem cons {c : Char} {k : TokenKind} (hb : ¬ isBlank c) (hc : c ≠ '#') (hn : '\n' ≠ c)
    (hs : ∀ r, scan c r = (k, 0)) (h : Reads cs ks) : Reads (c :: cs) (k :: ks) := by
  constructor
  · intro rest hr
    rw [List.cons_append, kinds_scan hb hc, hs, List.drop_zero, h.kinds_append rest hr]
    rfl
  · exact List.not_mem_cons_of_ne_of_not_mem hn h.one_line

theorem comma (h : Reads cs ks) : Reads (',' :: cs) (.comma :: ks) :=
  h.cons (by decide) (by decide) (by decide) fun _ => rfl

theorem lparen (h : Reads cs ks) : Reads ('(' :: cs) (.lparen :: ks) :=
  h.cons (by decide) (by decide) (by decide) fun _ => rfl

theorem rparen (h : Reads cs ks) : Reads (')' :: cs) (.rparen :: ks) :=
  h.cons (by decide) (by decide) (by decide) fun _ => rfl

end Reads

section Scan

theorem not_isDecimalDigit_of_isIdentStart {c : Char} (h : isIdentStart c) : ¬ isDecimalDigit c := by
  unfold isIdentStart Char.isAlpha Char.isUpper Char.isLower at h
  unfold isDecimalDigit Char.isDigit
  simp only [Bool.or_eq_true, Bool.and_eq_true, decide_eq_true_eq, UInt32.le_iff_toNat_le, ge_iff_le] at h ⊢
  change (((65 ≤ c.toNat ∧ c.toNat ≤ 90) ∨ (97 ≤ c.toNat ∧ c.toNat ≤ 122)) ∨ c = '_') ∨ c = '.' at h
  change ¬ ((48 ≤ c.toNat ∧ c.toNat ≤ 57) ∨ (128 ≤ c.toNat ∧ _))
  rcases h with ((h | h) | rfl) | rfl
  · omega
  · omega
  · decide
  · decide

theorem take_length_takeWhile (p : Char → Bool) (r : List Char) :
    r.take (r.takeWhile p).length = r.takeWhile p :=
  (List.prefix_iff_eq_take.mp (List.takeWhile_prefix p)).symm

theorem scan_ident {c : Char} (h : isIdentStart c) (r : List Char) :
    scan c r = (.ident (String.ofList (c :: r.takeWhile isIdentCharacter)),
      (r.takeWhile isIdentCharacter).length) := by
  have hd := not_isDecimalDigit_of_isIdentStart h
  have hne {d : Char} (hd : isIdentStart d = false) : c ≠ d := by
    rintro rfl
    rw [hd] at h
    cases h
  rw [scan, if_neg hd, if_neg fun h => hne (by decide) h.1, if_neg (hne (by decide)),
    if_neg (hne (by decide)), if_neg fun h => hne (by decide) h.1, if_pos h]
  simp only [take_length_takeWhile]

theorem scan_reg {c : Char} (h : c.isAlphanum) (r : List Char) :
    scan '$' (c :: r) = (.reg (String.ofList ((c :: r).takeWhile Char.isAlphanum)),
      ((c :: r).takeWhile Char.isAlphanum).length) := by
  rw [scan, if_neg (by decide), if_neg (by simp), if_neg (by decide), if_neg (by decide), if_pos ⟨rfl, h⟩]
  simp only [take_length_takeWhile]

theorem scan_numeral {c : Char} (h : isDecimalDigit c) (r : List Char) :
    scan c r = (kindOf .int (Numeral.value (c :: r.takeWhile isWordCharacter)),
      (r.takeWhile isWordCharacter).length) := by
  rw [scan, if_pos h]
  simp only [take_length_takeWhile]

theorem scan_negative {c : Char} (h : isDecimalDigit c) (r : List Char) :
    scan '-' (c :: r) = (kindOf .int (Numeral.value ('-' :: c :: r.takeWhile isWordCharacter)),
      (r.takeWhile isWordCharacter).length + 1) := by
  rw [scan, if_neg (by decide), if_pos ⟨rfl, h⟩]
  simp only [List.tail_cons, List.take_succ_cons, take_length_takeWhile]

end Scan

def IsIdentifier : List Char → Prop
  | [] => False
  | c :: cs => isIdentStart c ∧ cs.all isIdentCharacter

instance : (cs : List Char) → Decidable (IsIdentifier cs)
  | [] => inferInstanceAs (Decidable False)
  | _ :: _ => inferInstanceAs (Decidable (_ ∧ _))

theorem starts_token {p : Char → Bool} (hp : [' ', '\t', '\r', '\x0c', '#', '\n'].all fun d => !p d)
    {c : Char} (h : p c) : ¬ isBlank c ∧ c ≠ '#' ∧ '\n' ≠ c := by
  have hne : ∀ d ∈ [' ', '\t', '\r', '\x0c', '#', '\n'], c ≠ d := by
    rintro d hd rfl
    have := List.all_eq_true.mp hp _ hd
    rw [h] at this
    cases this
  simp only [List.forall_mem_cons] at hne
  obtain ⟨h1, h2, h3, h4, h5, h6, -⟩ := hne
  exact ⟨by simp [isBlank, h1, h2, h3, h4], h5, h6.symm⟩

namespace Reads

variable {c : Char} {cs : List Char}

theorem ident {name : String} (h : IsIdentifier name.toList) : Reads name.toList [.ident name] := by
  cases hs : name.toList with
  | nil => rw [hs] at h; exact h.elim
  | cons c cs =>
    rw [hs] at h
    obtain ⟨hc, hall⟩ := h
    have hcs := List.all_eq_true.mp hall
    obtain ⟨hb, hh, hn⟩ := starts_token (by decide) hc
    have hcont : ∀ d ∈ cs, continues d := fun d hd => continues_of_isIdentCharacter (hcs d hd)
    refine of_scan hb hh hn (not_newline_of_continues hcont) ?_
    intro rest hrest
    rw [scan_ident hc, takeWhile_breaks (fun d => continues_of_isIdentCharacter) hcs hrest, ← hs,
      String.ofList_toList]

theorem reg {name : String} (hne : name.toList ≠ []) (hall : name.toList.all Char.isAlphanum) :
    Reads ('$' :: name.toList) [.reg name] := by
  have h := List.all_eq_true.mp hall
  have hcont : ∀ d ∈ name.toList, continues d := fun d hd => continues_of_isAlphanum (h d hd)
  refine of_scan (by decide) (by decide) (by decide) (not_newline_of_continues hcont) ?_
  intro rest hrest
  have ht := takeWhile_breaks (fun d => continues_of_isAlphanum) h hrest
  obtain ⟨c, cs, hs⟩ := List.exists_cons_of_ne_nil hne
  have hc : c.isAlphanum := h c (hs ▸ List.mem_cons_self)
  rw [hs] at ht
  rw [hs, List.cons_append, scan_reg hc, ← List.cons_append, ht, ← hs, String.ofList_toList]

theorem numeral (hc : isDecimalDigit c) (hcs : ∀ d ∈ cs, isWordCharacter d) :
    Reads (c :: cs) [kindOf .int (Numeral.value (c :: cs))] := by
  obtain ⟨hb, hh, hn⟩ := starts_token (by decide) hc
  have hcont : ∀ d ∈ cs, continues d := fun d hd => continues_of_isWordCharacter (hcs d hd)
  refine of_scan hb hh hn (not_newline_of_continues hcont) ?_
  intro rest hrest
  rw [scan_numeral hc, takeWhile_breaks (fun d => continues_of_isWordCharacter) hcs hrest]

theorem negative (hc : isDecimalDigit c) (hcs : ∀ d ∈ cs, isWordCharacter d) :
    Reads ('-' :: c :: cs) [kindOf .int (Numeral.value ('-' :: c :: cs))] := by
  have hn := (starts_token (by decide) hc).2.2
  have hcont : ∀ d ∈ cs, continues d := fun d hd => continues_of_isWordCharacter (hcs d hd)
  refine of_scan (by decide) (by decide) (by decide)
    (List.not_mem_cons_of_ne_of_not_mem hn (not_newline_of_continues hcont)) ?_
  intro rest hrest
  rw [List.cons_append, scan_negative hc, takeWhile_breaks (fun d => continues_of_isWordCharacter) hcs hrest]
  rfl

end Reads

end MipsMachine.Token
