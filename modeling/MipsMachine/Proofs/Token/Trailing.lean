import MipsMachine.Proofs.Token.Quotation
import MipsMachine.Proofs.Token.Tiling

namespace MipsMachine

namespace Quoted

theorem closing?_append {escaped : Bool} {r : List Char} {n : Nat} (h : closing? escaped r = some n)
    (rest : List Char) : closing? escaped (r ++ rest) = some n ∧ n < r.length := by
  induction r generalizing escaped n with
  | nil => cases h
  | cons c r ih =>
    have hmore {b : Bool} (hm : (closing? b r).map (· + 1) = some n) :
        (closing? b (r ++ rest)).map (· + 1) = some n ∧ n < (c :: r).length := by
      obtain ⟨k, hk, rfl⟩ := Option.map_eq_some_iff.mp hm
      obtain ⟨happ, hlt⟩ := ih hk
      exact ⟨by rw [happ]; rfl, Nat.succ_lt_succ hlt⟩
    rw [List.cons_append]
    unfold closing? at h ⊢
    split_ifs at h ⊢
    · exact hmore h
    · exact hmore h
    · cases h
      exact ⟨rfl, Nat.succ_pos _⟩
    · exact hmore h

theorem string_append {r : List Char} (h : (string r).1 ≠ .error .unclosedString) (rest : List Char) :
    string (r ++ rest) = string r ∧ (string r).2 ≤ r.length := by
  unfold string at h ⊢
  cases hn : closing? false r with
  | none => simp [hn] at h
  | some n =>
    obtain ⟨happ, hlt⟩ := closing?_append hn rest
    simp only [happ, List.take_append_of_le_length (Nat.le_of_lt hlt)]
    exact ⟨trivial, hlt⟩

theorem closeChar_append {value : Char} {r after : List Char} (hle : after.length ≤ r.length)
    (h : (closeChar value r after).1 ≠ .error .unclosedChar) (rest : List Char) :
    closeChar value (r ++ rest) (after ++ rest) = closeChar value r after ∧
      (closeChar value r after).2 ≤ r.length := by
  unfold closeChar at h ⊢
  split at h
  · rename_i after
    simp only [List.cons_append, List.length_append, Nat.add_sub_add_right]
    exact ⟨trivial, Nat.sub_le _ _⟩
  · exact (h rfl).elim
  · rename_i c after hc
    cases hn : r.findIdx? (· = '\'') with
    | none => simp [hn] at h
    | some n =>
      have hlt := (List.findIdx?_eq_some_iff_findIdx_eq.mp hn).1
      have happ : (r ++ rest).findIdx? (· = '\'') = some n := by
        rw [List.findIdx?_append, hn]
        rfl
      simp only [List.cons_append, happ]
      exact ⟨trivial, hlt⟩

theorem character_cons {c : Char} (hb : c ≠ '\\') (hq : c ≠ '\'') (r : List Char) :
    character (c :: r) = closeChar c (c :: r) r := by
  rw [character]
  · exact fun hc _ => hb hc
  · exact fun d _ hc _ => hb hc
  · exact hq

theorem character_append {r : List Char} (h : (character r).1 ≠ .error .unclosedChar) (rest : List Char) :
    character (r ++ rest) = character r ∧ (character r).2 ≤ r.length := by
  cases r with
  | nil => exact (h rfl).elim
  | cons c r =>
    by_cases hb : c = '\\'
    · subst hb
      cases r with
      | nil => exact (h rfl).elim
      | cons d r => exact closeChar_append (r := '\\' :: d :: r) (by simp only [List.length_cons]; omega) h rest
    by_cases hq : c = '\''
    · subst hq
      exact ⟨rfl, Nat.succ_pos _⟩
    · rw [character_cons hb hq] at h ⊢
      rw [List.cons_append, character_cons hb hq]
      exact closeChar_append (Nat.le_succ _) h rest

end Quoted

namespace Token

open Character

def IsUnclosed (kind : TokenKind) : Prop := kind = .error .unclosedString ∨ kind = .error .unclosedChar

instance (kind : TokenKind) : Decidable (IsUnclosed kind) := inferInstanceAs (Decidable (_ ∨ _))

def Trails (rest : List Char) : Prop :=
  ∃ blanks comment, rest = blanks ++ comment ∧ (∀ c ∈ blanks, isBlank c) ∧
    (comment = [] ∨ comment.head? = some '#')

theorem Trails.blank_or_comment {rest : List Char} (h : Trails rest) {c : Char} (hc : c ∈ rest.head?) :
    isBlank c ∨ c = '#' := by
  obtain ⟨blanks, comment, rfl, hb, hcomment⟩ := h
  cases blanks with
  | nil =>
    rcases hcomment with rfl | hcomment
    · cases hc
    · exact .inr (Option.some.inj (hc.symm.trans hcomment))
  | cons b blanks =>
    cases hc
    exact .inl (hb c List.mem_cons_self)

section Classes

variable {p : Char → Bool} {rest : List Char} (hp : [' ', '\t', '\r', '\x0c', '#', '\n'].all fun d => !p d)
  (h : Trails rest)

include hp h

theorem Trails.not_starts {c : Char} (hc : c ∈ rest.head?) : p c = false := by
  by_contra hpc
  obtain ⟨hb, hh, -⟩ := starts_token hp (Bool.eq_true_of_not_eq_false hpc)
  rcases h.blank_or_comment hc with h | h
  · exact hb h
  · exact hh h

theorem Trails.takeWhile_append (r : List Char) : (r ++ rest).takeWhile p = r.takeWhile p := by
  have hrest : rest.takeWhile p = [] := takeWhile_eq_nil fun c hc => ne_true_of_eq_false (h.not_starts hp hc)
  rw [List.takeWhile_append, hrest]
  split
  · rename_i hlen
    rw [List.append_nil, (List.takeWhile_prefix p).eq_of_length hlen]
  · rfl

theorem Trails.head?_any_append (r : List Char) : (r ++ rest).head?.any p = r.head?.any p := by
  cases r with
  | cons c r => rfl
  | nil =>
    cases rest with
    | nil => rfl
    | cons c rest => exact h.not_starts hp rfl

end Classes

theorem not_isUnclosed_kindOf {α : Type} {make : α → TokenKind} {result : Except LexError α}
    (h : ¬ IsUnclosed (kindOf make result)) :
    result ≠ .error .unclosedString ∧ result ≠ .error .unclosedChar := by
  constructor <;> rintro rfl
  · exact h (.inl rfl)
  · exact h (.inr rfl)

theorem scan_apostrophe (r : List Char) :
    scan '\'' r = (kindOf .int (Quoted.character r).1, (Quoted.character r).2) := by
  rw [scan, if_neg (by decide), if_neg (by simp), if_pos rfl]

theorem scan_single {c : Char} (hdigit : ¬ isDecimalDigit c) (hchar : c ≠ '\'') (hstr : c ≠ '"')
    (hident : ¬ isIdentStart c) : ∃ kind, ∀ r : List Char, ¬ (c = '-' ∧ r.head?.any isDecimalDigit) →
      ¬ (c = '$' ∧ r.head?.any Char.isAlphanum) → scan c r = (kind, 0) := by
  refine ⟨(scan c []).1, fun r hneg hreg => ?_⟩
  have hnil (p : Char → Bool) : ¬ (c = '-' ∧ ([] : List Char).head?.any p) := fun h => nomatch h.2
  have hnil' (p : Char → Bool) : ¬ (c = '$' ∧ ([] : List Char).head?.any p) := fun h => nomatch h.2
  unfold scan
  rw [if_neg hdigit, if_neg hneg, if_neg hchar, if_neg hstr, if_neg hreg, if_neg hident,
    if_neg hdigit, if_neg (hnil _), if_neg hchar, if_neg hstr, if_neg (hnil' _), if_neg hident]
  repeat' split
  all_goals rfl

theorem scan_append {c : Char} {r rest : List Char} (ho : ¬ IsUnclosed (scan c r).1) (h : Trails rest) :
    scan c (r ++ rest) = scan c r ∧ (scan c r).2 ≤ r.length := by
  by_cases hdigit : isDecimalDigit c
  · rw [scan_numeral hdigit, scan_numeral hdigit, h.takeWhile_append (by decide)]
    exact ⟨rfl, (List.takeWhile_sublist _).length_le⟩
  by_cases hneg : c = '-' ∧ r.head?.any isDecimalDigit
  · obtain ⟨rfl, hd⟩ := hneg
    obtain ⟨d, r, rfl⟩ := List.exists_cons_of_ne_nil (l := r) (by rintro rfl; cases hd)
    rw [List.cons_append, scan_negative hd, scan_negative hd, h.takeWhile_append (by decide)]
    exact ⟨rfl, Nat.succ_le_succ (List.takeWhile_sublist _).length_le⟩
  by_cases hchar : c = '\''
  · subst hchar
    rw [scan_apostrophe] at ho
    obtain ⟨happ, hle⟩ := Quoted.character_append (not_isUnclosed_kindOf ho).2 rest
    rw [scan_apostrophe, scan_apostrophe, happ]
    exact ⟨rfl, hle⟩
  by_cases hstr : c = '"'
  · subst hstr
    rw [scan_quote] at ho
    obtain ⟨happ, hle⟩ := Quoted.string_append (not_isUnclosed_kindOf ho).1 rest
    rw [scan_quote, scan_quote, happ]
    exact ⟨rfl, hle⟩
  by_cases hreg : c = '$' ∧ r.head?.any Char.isAlphanum
  · obtain ⟨rfl, hd⟩ := hreg
    obtain ⟨d, r, rfl⟩ := List.exists_cons_of_ne_nil (l := r) (by rintro rfl; cases hd)
    have htake := h.takeWhile_append (p := Char.isAlphanum) (by decide) (d :: r)
    rw [List.cons_append] at htake ⊢
    rw [scan_reg hd, scan_reg hd, htake]
    exact ⟨rfl, (List.takeWhile_sublist _).length_le⟩
  by_cases hident : isIdentStart c
  · rw [scan_ident hident, scan_ident hident, h.takeWhile_append (by decide)]
    exact ⟨rfl, (List.takeWhile_sublist _).length_le⟩
  · obtain ⟨kind, hk⟩ := scan_single hdigit hchar hstr hident
    have hneg' := hneg
    have hreg' := hreg
    rw [← h.head?_any_append (by decide)] at hneg' hreg'
    rw [hk r hneg hreg, hk (r ++ rest) hneg' hreg']
    exact ⟨rfl, Nat.zero_le _⟩

theorem ofChars_trails (start : Nat) {rest : List Char} (h : Trails rest) :
    ofChars start rest = [⟨.eol, ⟨start + width rest, start + width rest⟩⟩] := by
  obtain ⟨blanks, comment, rfl, hb, hc⟩ := h
  induction blanks generalizing start with
  | nil =>
    rcases hc with rfl | hc
    · simp [ofChars, width]
    · obtain ⟨r, rfl⟩ := List.head?_eq_some_iff.mp hc
      exact ofChars_comment start r
  | cons b blanks ih =>
    obtain ⟨hb, hbs⟩ := List.forall_mem_cons.mp hb
    rw [List.cons_append, ofChars_blank _ _ hb, ih _ hbs, width, Nat.add_assoc]

theorem ofChars_append {start : Nat} {cs rest : List Char} (ho : ∀ t ∈ ofChars start cs, ¬ IsUnclosed t.kind)
    (h : Trails rest) : ∃ front, (∀ t ∈ front, t.kind ≠ .eol) ∧
      ofChars start cs = front ++ [⟨.eol, ⟨start + width cs, start + width cs⟩⟩] ∧
      ofChars start (cs ++ rest) =
        front ++ [⟨.eol, ⟨start + width (cs ++ rest), start + width (cs ++ rest)⟩⟩] := by
  induction start, cs using ofChars.induct with
  | case1 start =>
    refine ⟨[], fun _ h => (List.not_mem_nil h).elim, ?_, ofChars_trails start h⟩
    simp [ofChars, width]
  | case2 start c r hb ih =>
    rw [ofChars_blank _ _ hb] at ho
    rw [List.cons_append, ofChars_blank _ _ hb, ofChars_blank _ _ hb, width, width, ← Nat.add_assoc,
      ← Nat.add_assoc]
    exact ih ho
  | case3 start r =>
    exact ⟨[], fun _ h => (List.not_mem_nil h).elim, ofChars_comment start r, ofChars_comment start (r ++ rest)⟩
  | case4 start c r hb hc kind n hscan stop ih =>
    rw [ofChars_scan _ _ hb hc, hscan] at ho
    obtain ⟨hkind, hrest⟩ := List.forall_mem_cons.mp ho
    have hkind' : ¬ IsUnclosed (scan c r).1 := by rwa [hscan]
    obtain ⟨happ, hle⟩ := scan_append hkind' h
    rw [hscan] at happ hle
    have hwidth (ds : List Char) : stop + width (r.drop n ++ ds) = start + width (c :: (r ++ ds)) := by
      have hsplit : c :: (r ++ ds) = (c :: r.take n) ++ (r.drop n ++ ds) := by
        rw [List.cons_append, ← List.append_assoc, List.take_append_drop]
      rw [hsplit, width_append (c :: r.take n), ← Nat.add_assoc]
    have hne : kind ≠ .eol := by
      have hnames := (names_scan c r).ne_eol
      rwa [hscan] at hnames
    obtain ⟨front, hfront, hleft, hright⟩ := ih hrest
    refine ⟨⟨kind, ⟨start, stop⟩⟩ :: front, List.forall_mem_cons.mpr ⟨hne, hfront⟩, ?_, ?_⟩
    · rw [ofChars_scan _ _ hb hc, hscan]
      have hend := hwidth []
      rw [List.append_nil, List.append_nil] at hend
      rw [List.cons_append, ← hend]
      exact congrArg _ hleft
    · rw [List.cons_append, ofChars_scan _ _ hb hc, happ]
      rw [List.take_append_of_le_length hle, List.drop_append_of_le_length hle, List.cons_append, ← hwidth rest]
      exact congrArg _ hright

theorem ofLine_append {line trail : String} (hline : '\n' ∉ line.toList) (htrail : '\n' ∉ trail.toList)
    (ho : ∀ t ∈ ofLine line, ¬ IsUnclosed t.kind) (h : Trails trail.toList) :
    ∃ front, (∀ t ∈ front, t.kind ≠ .eol) ∧
      ofLine line = front ++ [⟨.eol, ⟨line.utf8ByteSize, line.utf8ByteSize⟩⟩] ∧
      ofLine (line ++ trail) =
        front ++ [⟨.eol, ⟨(line ++ trail).utf8ByteSize, (line ++ trail).utf8ByteSize⟩⟩] := by
  have happ : '\n' ∉ (line ++ trail).toList := by
    rw [String.toList_append, List.mem_append, not_or]
    exact ⟨hline, htrail⟩
  rw [ofLine_of_one_line hline] at ho
  have hofChars := ofChars_append ho h
  simp only [Nat.zero_add, ← String.toList_append, width_toList] at hofChars
  rwa [ofLine_of_one_line hline, ofLine_of_one_line happ]

end Token

end MipsMachine
