import MipsMachine.Proofs.Token.Lexeme

namespace MipsMachine

namespace Quoted

def escaped (c : Char) : List Char :=
  if c = '\\' ∨ c = '"' then ['\\', c] else if c = '\n' then ['\\', 'n'] else [c]

theorem escaped_cases (c : Char) :
    (∃ d, escaped c = ['\\', d] ∧ d ≠ '\n' ∧ escapeText d = [c]) ∨
      (escaped c = [c] ∧ c ≠ '\\' ∧ c ≠ '"' ∧ c ≠ '\n') := by
  by_cases hb : c = '\\'
  · exact .inl ⟨'\\', by simp [escaped, hb], by decide, by rw [hb]; rfl⟩
  by_cases hq : c = '"'
  · exact .inl ⟨'"', by simp [escaped, hq], by decide, by rw [hq]; rfl⟩
  by_cases hn : c = '\n'
  · exact .inl ⟨'n', by simp [escaped, hn], by decide, by rw [hn]; rfl⟩
  · exact .inr ⟨by simp [escaped, hb, hq, hn], hb, hq, hn⟩

theorem closing?_escape (c : Char) (r : List Char) :
    closing? false ('\\' :: c :: r) = (closing? false r).map (· + 2) := by
  rw [closing?, if_neg Bool.false_ne_true, if_pos rfl, closing?, if_pos rfl, Option.map_map]
  rfl

theorem closing?_cons {c : Char} (hb : c ≠ '\\') (hq : c ≠ '"') (r : List Char) :
    closing? false (c :: r) = (closing? false r).map (· + 1) := by
  simp [closing?, hb, hq]

theorem unescape_escape (c : Char) (r : List Char) : unescape ('\\' :: c :: r) = escapeText c ++ unescape r := by
  rw [unescape]
  rfl

theorem unescape_eq (cs : List Char) : unescape cs =
    match cs.dropWhile (· ≠ '\\') with
    | [] => cs
    | [_] => cs
    | _ :: c :: r => cs.takeWhile (· ≠ '\\') ++ escapeText c ++ unescape r := by
  rw [unescape]
  split <;> rename_i h <;> rw [h]

theorem unescape_cons {c : Char} (h : c ≠ '\\') (r : List Char) : unescape (c :: r) = c :: unescape r := by
  have hd : (c :: r).dropWhile (· ≠ '\\') = r.dropWhile (· ≠ '\\') :=
    List.dropWhile_cons_of_pos (decide_eq_true h)
  have ht : (c :: r).takeWhile (· ≠ '\\') = c :: r.takeWhile (· ≠ '\\') :=
    List.takeWhile_cons_of_pos (decide_eq_true h)
  rw [unescape_eq, hd, ht, unescape_eq r]
  split <;> rfl

theorem closing?_escaped (cs rest : List Char) :
    closing? false (cs.flatMap escaped ++ '"' :: rest) = some (cs.flatMap escaped).length := by
  induction cs with
  | nil => rfl
  | cons c cs ih =>
    rw [List.flatMap_cons]
    obtain ⟨d, he, -, -⟩ | ⟨he, hb, hq, -⟩ := escaped_cases c
    · simp only [he, List.cons_append, List.nil_append, closing?_escape, ih]
      rfl
    · simp only [he, List.cons_append, List.nil_append, closing?_cons hb hq, ih]
      rfl

theorem unescape_escaped (cs : List Char) : unescape (cs.flatMap escaped) = cs := by
  induction cs with
  | nil => rw [List.flatMap_nil, unescape]; rfl
  | cons c cs ih =>
    rw [List.flatMap_cons]
    obtain ⟨d, he, -, ht⟩ | ⟨he, hb, -, -⟩ := escaped_cases c
    · simp only [he, List.cons_append, List.nil_append, unescape_escape, ht, ih]
    · simp only [he, List.cons_append, List.nil_append, unescape_cons hb, ih]

theorem string_escaped (s : String) (rest : List Char) :
    string (s.toList.flatMap escaped ++ '"' :: rest) = (.ok s, (s.toList.flatMap escaped).length + 1) := by
  rw [string, closing?_escaped]
  simp only [List.take_left, unescape_escaped, String.ofList_toList]

theorem not_newline_of_escaped (cs : List Char) : '\n' ∉ cs.flatMap escaped := by
  intro hn
  obtain ⟨c, -, hc⟩ := List.mem_flatMap.mp hn
  obtain ⟨d, he, hd, -⟩ | ⟨he, -, -, hne⟩ := escaped_cases c
  · rw [he] at hc
    simp [hd.symm] at hc
  · rw [he, List.mem_singleton] at hc
    exact hne hc.symm

end Quoted

namespace Token

def quoted (s : String) : String := String.ofList ('"' :: (s.toList.flatMap Quoted.escaped ++ ['"']))

theorem scan_quote (r : List Char) : scan '"' r = (kindOf .str (Quoted.string r).1, (Quoted.string r).2) := by
  rw [scan, if_neg (by decide), if_neg (by simp), if_neg (by decide), if_pos rfl]

namespace Reads

variable {cs : List Char} {ks : List TokenKind}

theorem colon (h : Reads cs ks) : Reads (':' :: cs) (.colon :: ks) :=
  h.cons (by decide) (by decide) (by decide) fun _ => rfl

theorem quoted (s : String) : Reads (Token.quoted s).toList [.str s] := by
  rw [Token.quoted, String.toList_ofList]
  refine of_scan (by decide) (by decide) (by decide) ?_ fun rest _ => ?_
  · rw [List.mem_append, not_or]
    exact ⟨Quoted.not_newline_of_escaped _, by decide⟩
  · rw [scan_quote, List.append_assoc, List.singleton_append, Quoted.string_escaped, List.length_append]
    rfl

end Reads

end Token

end MipsMachine
