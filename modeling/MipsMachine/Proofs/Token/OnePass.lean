import MipsMachine.Proofs.Token.Quotation

/-!
String literals read in one pass. The closing quote of a literal is found first and its escapes are replaced
afterwards, yet both passes part the literal at the same places: a backslash always takes the next character
along, and the first quote that none has taken ends the literal.
-/

namespace MipsMachine.Quoted

/-- What a reader takes of a literal at a time: a character, or a backslash with the character after it. -/
inductive Stroke where
  | plain (c : Char)
  | pair (c : Char)

namespace Stroke

def escapes : List (Char × Char) :=
  [('n', '\n'), ('r', '\r'), ('t', '\t'), ('0', '\x00'), ('\\', '\\'), ('\'', '\''), ('"', '"')]

def source : Stroke → List Char
  | plain c => [c]
  | pair c => ['\\', c]

def text : Stroke → List Char
  | plain c => [c]
  | pair c => (escapes.lookup c).elim ['\\', c] ([·])

def Stands : Stroke → Prop
  | plain c => c ≠ '\\' ∧ c ≠ '"'
  | pair _ => True

theorem escapeText_eq (c : Char) : escapeText c = (pair c).text := by
  unfold escapeText escape?
  split
  · rename_i e he
    split at he <;> cases he <;> rfl
  · rename_i he
    have hn : escapes.lookup c = none := by
      rw [List.lookup_eq_none_iff]
      rintro ⟨d, e⟩ hd
      by_contra hc
      obtain rfl : c = d := by simpa using hc
      simp only [escapes, List.mem_cons, Prod.mk.injEq, List.not_mem_nil, or_false] at hd
      rcases hd with h | h | h | h | h | h | h <;> simp [h.1] at he
    rw [text, hn]
    rfl

end Stroke

open Stroke

def onePass : List Char → Option (List Stroke × List Char)
  | [] => none
  | c :: r =>
    if c = '"' then some ([], r)
    else if c = '\\' then
      match r with
      | [] => none
      | d :: r => (onePass r).map (Prod.map (pair d :: ·) id)
    else (onePass r).map (Prod.map (plain c :: ·) id)

section OnePass

variable {c : Char} {strokes : List Stroke} {r after : List Char}

theorem onePass_quote (r : List Char) : onePass ('"' :: r) = some ([], r) := by
  rw [onePass.eq_def]
  exact if_pos rfl

theorem onePass_pair (d : Char) (r : List Char) :
    onePass ('\\' :: d :: r) = (onePass r).map (Prod.map (pair d :: ·) id) := by
  rw [onePass, if_neg (by decide), if_pos rfl]

theorem onePass_plain (hb : c ≠ '\\') (hq : c ≠ '"') (r : List Char) :
    onePass (c :: r) = (onePass r).map (Prod.map (plain c :: ·) id) := by
  rw [onePass.eq_def]
  simp only [hq, hb, if_false]

theorem onePass_source (h : ∀ s ∈ strokes, s.Stands) (after : List Char) :
    onePass (strokes.flatMap source ++ '"' :: after) = some (strokes, after) := by
  induction strokes with
  | nil => exact onePass_quote after
  | cons s strokes ih =>
    obtain ⟨hs, hstrokes⟩ := List.forall_mem_cons.mp h
    cases s with
    | plain c =>
      rw [List.flatMap_cons, List.append_assoc, source, List.singleton_append, onePass_plain hs.1 hs.2, ih hstrokes]
      rfl
    | pair c =>
      simp only [List.flatMap_cons, source, List.cons_append, List.nil_append, onePass_pair, ih hstrokes]
      rfl

theorem source_of_onePass (h : onePass r = some (strokes, after)) :
    (∀ s ∈ strokes, s.Stands) ∧ r = strokes.flatMap source ++ '"' :: after := by
  fun_induction onePass r generalizing strokes with
  | case1 => cases h
  | case2 r =>
    cases h
    exact ⟨fun s hs => (List.not_mem_nil hs).elim, rfl⟩
  | case3 => cases h
  | case4 d r _ ih =>
    obtain ⟨⟨rest, stop⟩, hr, he⟩ := Option.map_eq_some_iff.mp h
    cases he
    obtain ⟨hs, rfl⟩ := ih hr
    exact ⟨List.forall_mem_cons.mpr ⟨trivial, hs⟩, rfl⟩
  | case5 c r hq hb ih =>
    obtain ⟨⟨rest, stop⟩, hr, he⟩ := Option.map_eq_some_iff.mp h
    cases he
    obtain ⟨hs, rfl⟩ := ih hr
    exact ⟨List.forall_mem_cons.mpr ⟨⟨hb, hq⟩, hs⟩, rfl⟩

theorem closing?_eq_onePass (r : List Char) :
    closing? false r = (onePass r).map fun p => (p.1.flatMap source).length := by
  fun_induction onePass r with
  | case1 => rfl
  | case2 r => rfl
  | case3 => rfl
  | case4 d r _ ih =>
    rw [closing?_escape, ih, Option.map_map, Option.map_map]
    rfl
  | case5 c r hq hb ih =>
    rw [closing?_cons hb hq, ih, Option.map_map, Option.map_map]
    rfl

theorem unescape_source (h : ∀ s ∈ strokes, s.Stands) : unescape (strokes.flatMap source) = strokes.flatMap text := by
  induction strokes with
  | nil =>
    rw [List.flatMap_nil, unescape]
    rfl
  | cons s strokes ih =>
    obtain ⟨hs, hstrokes⟩ := List.forall_mem_cons.mp h
    rw [List.flatMap_cons, List.flatMap_cons, ← ih hstrokes]
    cases s with
    | plain c => exact unescape_cons hs.1 _
    | pair c => exact escapeText_eq c ▸ unescape_escape c _

end OnePass

theorem string_onePass (r : List Char) :
    (string r = match onePass r with
      | none => (.error .unclosedString, r.length)
      | some (strokes, _) =>
        (.ok (String.ofList (strokes.flatMap text)), (strokes.flatMap source).length + 1)) ∧
      ∀ strokes after, onePass r = some (strokes, after) ↔
        (∀ s ∈ strokes, s.Stands) ∧ r = strokes.flatMap source ++ '"' :: after := by
  refine ⟨?_, fun strokes after => ⟨source_of_onePass, ?_⟩⟩
  · rw [string, closing?_eq_onePass]
    cases h : onePass r with
    | none => rfl
    | some p =>
      obtain ⟨strokes, after⟩ := p
      obtain ⟨hs, rfl⟩ := source_of_onePass h
      simp only [Option.map_some, List.take_left, unescape_source hs]
  · rintro ⟨hs, rfl⟩
    exact onePass_source hs after

end MipsMachine.Quoted
