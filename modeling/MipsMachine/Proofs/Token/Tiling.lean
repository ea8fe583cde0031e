import Mathlib.Data.String.Basic
import MipsMachine.Proofs.Token.Lexeme

namespace MipsMachine.Token

theorem width_eq_utf8Len (cs : List Char) : width cs = String.utf8Len cs := by
  induction cs with
  | nil => rfl
  | cons c cs ih => simp [width, ih, Nat.add_comm]

theorem width_toList (s : String) : width s.toList = s.utf8ByteSize := by
  rw [width_eq_utf8Len, String.utf8Len_toList]

theorem width_append (cs ds : List Char) : width (cs ++ ds) = width cs + width ds := by
  simp [width_eq_utf8Len]

theorem width_pos {cs : List Char} (h : cs ≠ []) : 0 < width cs := by
  cases cs with
  | nil => contradiction
  | cons c cs =>
    have := c.utf8Size_pos
    simp only [width]
    omega

def firstLine (src : String) : String := String.ofList (src.toList.takeWhile (· ≠ '\n'))

def IsBoundary (line : String) (n : Nat) : Prop := String.Pos.Raw.IsValid line ⟨n⟩

def textAt (line : String) (span : Span) : String := String.Pos.Raw.extract line ⟨span.start⟩ ⟨span.stop⟩

theorem isBoundary_width (before after : List Char) :
    IsBoundary (String.ofList (before ++ after)) (width before) := by
  apply String.Pos.Raw.isValid_iff_exists_append.mpr
  exact ⟨String.ofList before, String.ofList after, String.ofList_append, by
    rw [String.rawEndPos_ofList, width_eq_utf8Len]⟩

theorem textAt_append (before text after : List Char) :
    textAt (String.ofList (before ++ text ++ after)) ⟨width before, width (before ++ text)⟩ =
      String.ofList text := by
  rw [textAt, width_eq_utf8Len, width_eq_utf8Len, String.utf8Len_append]
  exact String.extract_of_valid before text after

def Gap (line : String) (stop : Nat) (t : Token) : Prop :=
  ∃ blanks comment, textAt line ⟨stop, t.span.start⟩ = String.ofList (blanks ++ comment) ∧
    (∀ c ∈ blanks, isBlank c) ∧ (comment = [] ∨ t.kind = .eol ∧ comment.head? = some '#')

def Parted (line : String) : Nat → List Token → Prop
  | _, [] => True
  | stop, t :: tokens => Gap line stop t ∧ Parted line t.span.stop tokens

structure Tiles (line : String) (tokens : List Token) : Prop where
  last : ∃ front, tokens = front ++ [⟨.eol, ⟨line.utf8ByteSize, line.utf8ByteSize⟩⟩] ∧
    ∀ t ∈ front, t.kind ≠ .eol
  nonempty : ∀ t ∈ tokens, t.kind ≠ .eol → t.span.start < t.span.stop
  boundaries : ∀ t ∈ tokens, IsBoundary line t.span.start ∧ IsBoundary line t.span.stop
  inside : ∀ t ∈ tokens, t.span.stop ≤ line.utf8ByteSize
  increasing : tokens.Pairwise fun t u => t.span.stop ≤ u.span.start
  parted : Parted line 0 tokens
  ident : ∀ t ∈ tokens, ∀ name, t.kind = .ident name → textAt line t.span = name
  reg : ∀ t ∈ tokens, ∀ name, t.kind = .reg name → textAt line t.span = "$" ++ name

structure Names (kind : TokenKind) (text : List Char) : Prop where
  ne_eol : kind ≠ .eol
  ident : ∀ name, kind = .ident name → text = name.toList
  reg : ∀ name, kind = .reg name → text = '$' :: name.toList

theorem names_kindOf {α : Type} {make : α → TokenKind} (h : ∀ a text, Names (make a) text)
    (result : Except LexError α) (text : List Char) : Names (kindOf make result) text := by
  cases result with
  | ok a => exact h a text
  | error e => constructor <;> simp [kindOf]

theorem names_scan (c : Char) (r : List Char) : Names (scan c r).1 (c :: r.take (scan c r).2) := by
  have hint (v : Int) (text : List Char) : Names (.int v) text := by constructor <;> simp
  have hstr (s : String) (text : List Char) : Names (.str s) text := by constructor <;> simp
  unfold scan
  split
  · exact names_kindOf hint _ _
  split
  · exact names_kindOf hint _ _
  split
  · exact names_kindOf hint _ _
  split
  · exact names_kindOf hstr _ _
  split
  · rename_i h
    constructor <;> simp [h.1]
  split
  · constructor <;> simp
  repeat' split
  all_goals constructor <;> simp

/-- The tokens of `rest`, the part of a line after `before`, with all that stands between them. -/
inductive Tiling : List Char → List Char → List Token → Prop
  | eol {before blanks comment : List Char} (hb : ∀ c ∈ blanks, isBlank c)
      (hc : comment = [] ∨ comment.head? = some '#') :
      Tiling before (blanks ++ comment)
        [⟨.eol, ⟨width (before ++ (blanks ++ comment)), width (before ++ (blanks ++ comment))⟩⟩]
  | token {before blanks text rest : List Char} {kind : TokenKind} {tokens : List Token}
      (hb : ∀ c ∈ blanks, isBlank c) (hne : text ≠ []) (hk : Names kind text)
      (h : Tiling (before ++ blanks ++ text) rest tokens) :
      Tiling before (blanks ++ text ++ rest)
        (⟨kind, ⟨width (before ++ blanks), width (before ++ blanks ++ text)⟩⟩ :: tokens)

theorem Tiling.blank {before rest : List Char} {tokens : List Token} {c : Char} (hc : isBlank c)
    (h : Tiling (before ++ [c]) rest tokens) : Tiling before (c :: rest) tokens := by
  cases h with
  | @eol _ blanks comment hb hcomment =>
    simpa using @Tiling.eol before _ _ (List.forall_mem_cons.mpr ⟨hc, hb⟩) hcomment
  | @token _ blanks text rest kind tokens hb hne hk h =>
    have h' : Tiling (before ++ (c :: blanks) ++ text) rest tokens := by simpa using h
    simpa using Tiling.token (List.forall_mem_cons.mpr ⟨hc, hb⟩) hne hk h'

theorem tiling_ofChars (before cs : List Char) : Tiling before cs (ofChars (width before) cs) := by
  generalize hs : width before = start
  induction start, cs using ofChars.induct generalizing before with
  | case1 start =>
    rw [ofChars, ← hs]
    simpa using @Tiling.eol before [] [] (by simp) (.inl rfl)
  | case2 start c r hb ih =>
    rw [ofChars_blank _ _ hb]
    apply Tiling.blank hb
    apply ih
    simp [width_append, width, hs]
  | case3 start r =>
    rw [ofChars_comment, ← hs, ← width_append]
    exact @Tiling.eol before [] ('#' :: r) (by simp) (.inr rfl)
  | case4 start c r hb hc kind n hscan stop ih =>
    rw [ofChars_scan _ _ hb hc, hscan]
    have hk := names_scan c r
    rw [hscan] at hk
    have htail := ih (before ++ [] ++ (c :: r.take n)) (by simp [width_append, hs, stop])
    have := @Tiling.token before [] _ _ _ _ (by simp) (by simp) hk htail
    simpa [width_append, hs, List.take_append_drop, stop] using this

namespace Tiling

variable {before rest : List Char} {tokens : List Token}

theorem last (h : Tiling before rest tokens) :
    ∃ front, tokens = front ++ [⟨.eol, ⟨width (before ++ rest), width (before ++ rest)⟩⟩] ∧
      ∀ t ∈ front, t.kind ≠ .eol := by
  induction h with
  | eol hb hc => exact ⟨[], rfl, by simp⟩
  | @token before blanks text rest kind tokens hb hne hk h ih =>
    obtain ⟨front, rfl, hf⟩ := ih
    refine ⟨⟨kind, ⟨width (before ++ blanks), width (before ++ blanks ++ text)⟩⟩ :: front, ?_, ?_⟩
    · simp only [List.append_assoc, List.cons_append]
    · exact List.forall_mem_cons.mpr ⟨hk.ne_eol, hf⟩

theorem placed (h : Tiling before rest tokens) : ∀ t ∈ tokens, ∃ left text right,
    before ++ rest = left ++ text ++ right ∧ t.span = ⟨width left, width (left ++ text)⟩ ∧
      width before ≤ width left ∧ (t.kind ≠ .eol → text ≠ [] ∧ Names t.kind text) := by
  induction h with
  | @eol before blanks comment hb hc =>
    intro t ht
    obtain rfl := List.mem_singleton.mp ht
    refine ⟨before ++ (blanks ++ comment), [], [], by simp, by simp, ?_, fun h => (h rfl).elim⟩
    rw [width_append]
    omega
  | @token before blanks text rest kind tokens hb hne hk h ih =>
    intro t ht
    rcases List.mem_cons.mp ht with rfl | ht
    · refine ⟨before ++ blanks, text, rest, by simp, rfl, ?_, fun _ => ⟨hne, hk⟩⟩
      rw [width_append]
      omega
    · obtain ⟨left, text', right, hline, hspan, hle, hkind⟩ := ih t ht
      refine ⟨left, text', right, by rw [← hline]; simp, hspan, ?_, hkind⟩
      simp only [width_append] at hle
      omega

theorem increasing (h : Tiling before rest tokens) :
    tokens.Pairwise fun t u => t.span.stop ≤ u.span.start := by
  induction h with
  | eol hb hc => exact List.pairwise_singleton _ _
  | token hb hne hk h ih =>
    refine List.pairwise_cons.mpr ⟨fun u hu => ?_, ih⟩
    obtain ⟨left, text, right, -, hspan, hle, -⟩ := h.placed u hu
    rw [hspan]
    exact hle

theorem parted (h : Tiling before rest tokens) :
    Parted (String.ofList (before ++ rest)) (width before) tokens := by
  induction h with
  | @eol before blanks comment hb hc =>
    refine ⟨⟨blanks, comment, ?_, hb, hc.imp_right fun h => ⟨rfl, h⟩⟩, trivial⟩
    simpa using textAt_append before (blanks ++ comment) []
  | @token before blanks text rest kind tokens hb hne hk h ih =>
    refine ⟨⟨blanks, [], ?_, hb, .inl rfl⟩, by simpa using ih⟩
    simpa using textAt_append before blanks (text ++ rest)

theorem tiles (h : Tiling [] rest tokens) : Tiles (String.ofList rest) tokens where
  last := by
    obtain ⟨front, rfl, hf⟩ := h.last
    exact ⟨front, by simp [String.utf8ByteSize_ofList, width_eq_utf8Len], hf⟩
  nonempty t ht hk := by
    obtain ⟨left, text, right, -, hspan, -, hkind⟩ := h.placed t ht
    rw [hspan, width_append]
    exact Nat.lt_add_of_pos_right (width_pos (hkind hk).1)
  boundaries t ht := by
    obtain ⟨left, text, right, hline, hspan, -, -⟩ := h.placed t ht
    rw [List.nil_append] at hline
    rw [hspan, hline]
    exact ⟨by simpa using isBoundary_width left (text ++ right), isBoundary_width (left ++ text) right⟩
  inside t ht := by
    obtain ⟨left, text, right, hline, hspan, -, -⟩ := h.placed t ht
    rw [List.nil_append] at hline
    rw [hspan, hline, String.utf8ByteSize_ofList, ← width_eq_utf8Len, width_append (left ++ text)]
    exact Nat.le_add_right _ _
  increasing := h.increasing
  parted := h.parted
  ident t ht name hk := by
    obtain ⟨left, text, right, hline, hspan, -, hkind⟩ := h.placed t ht
    obtain rfl := (hkind (by simp [hk])).2.ident name hk
    rw [List.nil_append] at hline
    rw [hspan, hline, textAt_append, String.ofList_toList]
  reg t ht name hk := by
    obtain ⟨left, text, right, hline, hspan, -, hkind⟩ := h.placed t ht
    obtain rfl := (hkind (by simp [hk])).2.reg name hk
    rw [List.nil_append] at hline
    rw [hspan, hline, textAt_append]
    simp

end Tiling

theorem tiles_ofLine (src : String) : Tiles (firstLine src) (ofLine src) :=
  (tiling_ofChars [] _).tiles

end MipsMachine.Token
