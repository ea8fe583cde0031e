import Mathlib.Data.Nat.Digits.Defs
import MipsMachine.Proofs.Token.Numeral
import MipsMachine.Proofs.Token.Trailing

namespace MipsMachine

namespace Numeral

def IsDigit (base : Nat) (c : Char) (d : Nat) : Prop := d < base ∧ (c = d.digitChar ∨ c = d.digitChar.toUpper)

def Writes (base : Nat) (digits : List Char) (n : Nat) : Prop :=
  ∃ ds, List.Forall₂ (IsDigit base) digits ds ∧ Nat.ofDigits base ds.reverse = n

inductive Magnitude : List Char → Nat → Prop
  | hex {mark digits n} (hm : mark = 'x' ∨ mark = 'X') (hne : digits ≠ []) (h : Writes 16 digits n) :
    Magnitude ('0' :: mark :: digits) n
  | octal {digits n} (hne : digits ≠ []) (h : Writes 8 digits n) : Magnitude ('0' :: digits) n
  | zero : Magnitude ['0'] 0
  | decimal {c digits n} (hc : c ≠ '0') (h : Writes 10 (c :: digits) n) : Magnitude (c :: digits) n

inductive Denotes : List Char → Int → Prop
  | natural {digits n} (h : Magnitude digits n) : Denotes digits n
  | negative {digits n} (h : Magnitude digits n) : Denotes ('-' :: digits) (-n)

section Digits

variable {base : Nat} {c : Char} {d : Nat}

theorem digit?_eq_filter (hb : base ≤ 16) (c : Char) : digit? base c = (digit? 16 c).filter (· < base) := by
  have hp : (fun d => decide (d < 16) && decide (d < base)) = fun d => decide (d < base) := by
    funext d
    simpa using fun h => Nat.lt_of_lt_of_le h hb
  unfold digit?
  rw [Option.filter_filter, hp]

theorem toNat_lt_of_digit? (h : digit? base c = some d) : c.toNat < 128 := by
  unfold digit? at h
  obtain ⟨h, -⟩ := Option.filter_eq_some_iff.mp h
  have hle {a : Char} (ha : c ≤ a) (hlt : a.toNat < 128) : c.toNat < 128 := Nat.lt_of_le_of_lt ha hlt
  split_ifs at h with h1 h2 h3
  · have : c.toNat ≤ 57 := by simpa [Char.isDigit, UInt32.le_iff_toNat_le] using (Bool.and_eq_true_iff.mp h1).2
    omega
  · exact hle h2.2 (by decide)
  · exact hle h3.2 (by decide)

theorem IsDigit.toNat_lt (hb : base ≤ 16) (h : IsDigit base c d) : c.toNat < 128 := by
  have hsmall : ∀ d < 16, d.digitChar.toNat < 128 ∧ d.digitChar.toUpper.toNat < 128 := by decide
  obtain ⟨hlow, hupper⟩ := hsmall d (Nat.lt_of_lt_of_le h.1 hb)
  rcases h.2 with rfl | rfl
  · exact hlow
  · exact hupper

theorem digit?_eq_some_iff (hb : base ≤ 16) : digit? base c = some d ↔ IsDigit base c d := by
  -- the characters that may be digits are few enough to compare all of them
  have hsmall : ∀ k < 128, ∀ d < 16, digit? 16 (Char.ofNat k) = some d ↔
      Char.ofNat k = d.digitChar ∨ Char.ofNat k = d.digitChar.toUpper := by decide +kernel
  have hc (hlt : c.toNat < 128) (hd : d < base) : digit? base c = some d ↔ IsDigit base c d := by
    have h := hsmall c.toNat hlt d (Nat.lt_of_lt_of_le hd hb)
    rw [Char.ofNat_toNat] at h
    rw [digit?_eq_filter hb, Option.filter_eq_some_iff, h, IsDigit, decide_eq_true_eq, and_comm]
  constructor
  · intro h
    have hd : d < base := by simpa using (Option.filter_eq_some_iff.mp h).2
    exact (hc (toNat_lt_of_digit? h) hd).mp h
  · intro h
    exact (hc (h.toNat_lt hb) h.1).mpr h

end Digits

theorem ofDigits_reverse (base : Nat) (ds : List Nat) :
    Nat.ofDigits base ds.reverse = ds.foldl (fun n d => base * n + d) 0 := by
  rw [Nat.ofDigits_eq_foldr, List.foldr_reverse]
  simp [Nat.add_comm]

section Accumulation

variable {base : Nat} {bad : LexError}

theorem le_foldl (hb : 0 < base) (ds : List Nat) (m : Nat) : m ≤ ds.foldl (fun n d => base * n + d) m := by
  induction ds generalizing m with
  | nil => exact Nat.le_refl m
  | cons d ds ih =>
    have hm : m ≤ base * m := Nat.le_mul_of_pos_left m hb
    exact (hm.trans (Nat.le_add_right _ d)).trans (ih _)

theorem push_eq_ok_iff (hb : base ≤ 16) {m n : Nat} {c : Char} :
    push base bad m c = .ok n ↔ ∃ d, IsDigit base c d ∧ base * m + d = n ∧ n < 0x10000000000000000 := by
  simp only [← digit?_eq_some_iff hb]
  unfold push
  cases digit? base c with
  | none => simp
  | some d =>
    simp only [Option.some.injEq, exists_eq_left']
    split
    · rename_i hlt
      rw [Except.ok.injEq]
      exact ⟨fun h => ⟨h, h ▸ hlt⟩, fun h => h.1⟩
    · rename_i hlt
      exact ⟨fun h => (nomatch h), fun h => (hlt (h.1 ▸ h.2)).elim⟩

theorem foldlM_push_eq_ok_iff (h0 : 0 < base) (hb : base ≤ 16) {cs : List Char} {m n : Nat}
    (hm : m < 0x10000000000000000) : cs.foldlM (push base bad) m = .ok n ↔
      (∃ ds, List.Forall₂ (IsDigit base) cs ds ∧ ds.foldl (fun n d => base * n + d) m = n) ∧
        n < 0x10000000000000000 := by
  induction cs generalizing m with
  | nil =>
    rw [List.foldlM_nil]
    constructor
    · rintro ⟨⟩
      exact ⟨⟨[], .nil, rfl⟩, hm⟩
    · rintro ⟨⟨ds, hds, rfl⟩, -⟩
      rw [List.forall₂_nil_left_iff.mp hds]
      rfl
  | cons c cs ih =>
    rw [List.foldlM_cons, bind_eq_ok_iff]
    constructor
    · rintro ⟨k, hk, hcs⟩
      obtain ⟨d, hd, rfl, hlt⟩ := (push_eq_ok_iff hb).mp hk
      obtain ⟨⟨ds, hds, hn⟩, hnlt⟩ := (ih hlt).mp hcs
      exact ⟨⟨d :: ds, .cons hd hds, hn⟩, hnlt⟩
    · rintro ⟨⟨_, hall, hn⟩, hnlt⟩
      obtain ⟨d, ds, hd, hds, rfl⟩ := List.forall₂_cons_left_iff.mp hall
      rw [List.foldl_cons] at hn
      have hlt : base * m + d < 0x10000000000000000 := (hn ▸ le_foldl h0 ds _).trans_lt hnlt
      exact ⟨_, (push_eq_ok_iff hb).mpr ⟨d, hd, rfl, hlt⟩, (ih hlt).mpr ⟨⟨ds, hds, hn⟩, hnlt⟩⟩

theorem foldlM_push_zero (h0 : 0 < base) (hb : base ≤ 16) {cs : List Char} {n : Nat} :
    cs.foldlM (push base bad) 0 = .ok n ↔ Writes base cs n ∧ n < 0x10000000000000000 := by
  simp only [foldlM_push_eq_ok_iff h0 hb (show 0 < 0x10000000000000000 by decide), Writes, ofDigits_reverse]

end Accumulation

section Magnitudes

variable {mark c : Char} {digits : List Char} {n : Nat}

theorem not_writes_cons {base : Nat} (hb : base ≤ 16) (hc : digit? base c = none) :
    ¬ Writes base (c :: digits) n := by
  rintro ⟨_, hds, -⟩
  obtain ⟨d, _, hd, -, -⟩ := List.forall₂_cons_left_iff.mp hds
  rw [← digit?_eq_some_iff hb, hc] at hd
  cases hd

theorem not_writes_mark (hm : mark = 'x' ∨ mark = 'X') : ¬ Writes 8 (mark :: digits) n := by
  rcases hm with rfl | rfl
  · exact not_writes_cons (by decide) rfl
  · exact not_writes_cons (by decide) rfl

theorem magnitude_mark_iff (hm : mark = 'x' ∨ mark = 'X') :
    Magnitude ('0' :: mark :: digits) n ↔ digits ≠ [] ∧ Writes 16 digits n := by
  constructor
  · rintro (⟨-, hne, h⟩ | ⟨-, h⟩ | _ | ⟨hc, -⟩)
    · exact ⟨hne, h⟩
    · exact (not_writes_mark hm h).elim
    · exact (hc rfl).elim
  · rintro ⟨hne, h⟩
    exact .hex hm hne h

theorem magnitude_octal_iff (hm : ¬ (mark = 'x' ∨ mark = 'X')) :
    Magnitude ('0' :: mark :: digits) n ↔ Writes 8 (mark :: digits) n := by
  constructor
  · rintro (⟨h, -, -⟩ | ⟨-, h⟩ | _ | ⟨hc, -⟩)
    · exact (hm h).elim
    · exact h
    · exact (hc rfl).elim
  · exact .octal (List.cons_ne_nil _ _)

theorem magnitude_zero_iff : Magnitude ['0'] n ↔ n = 0 := by
  constructor
  · rintro (_ | ⟨hne, -⟩ | _ | ⟨hc, -⟩)
    · exact (hne rfl).elim
    · rfl
    · exact (hc rfl).elim
  · rintro rfl
    exact .zero

theorem magnitude_decimal_iff (hc : c ≠ '0') : Magnitude (c :: digits) n ↔ Writes 10 (c :: digits) n := by
  constructor
  · rintro (_ | _ | _ | ⟨-, h⟩)
    · exact (hc rfl).elim
    · exact (hc rfl).elim
    · exact (hc rfl).elim
    · exact h
  · exact .decimal hc

end Magnitudes

section Values

variable {cs : List Char}

theorem magnitude_eq_ok_iff (hne : cs ≠ []) {n : Nat} :
    magnitude cs = .ok n ↔ Magnitude cs n ∧ n < 0x10000000000000000 := by
  obtain ⟨c, r, rfl⟩ := List.exists_cons_of_ne_nil hne
  by_cases hc : c = '0'
  · subst hc
    rcases r with _ | ⟨mark, digits⟩
    · rw [magnitude_zero_iff]
      constructor
      · rintro ⟨⟩
        decide
      · rintro ⟨rfl, -⟩
        rfl
    · by_cases hm : mark = 'x' ∨ mark = 'X'
      · rw [magnitude_mark_iff hm]
        cases digits with
        | nil => rcases hm with rfl | rfl <;> simp [magnitude]
        | cons d digits =>
          rw [magnitude_mark hm, foldlM_push_zero (by decide) (by decide)]
          exact and_congr_left' (and_iff_right (List.cons_ne_nil d digits)).symm
      · rw [magnitude_octal hm, foldlM_push_zero (by decide) (by decide), magnitude_octal_iff hm]
  · rw [magnitude_decimal hc, foldlM_push_zero (by decide) (by decide), magnitude_decimal_iff hc]

theorem value_natural_iff (hne : cs ≠ []) (hc : cs.head? ≠ some '-') {v : Int} :
    value cs = .ok v ↔ Denotes cs v ∧ -0x80000000 ≤ v ∧ v < 0x100000000 := by
  simp only [value_of_head? hc, bind_eq_ok_iff, bounded_eq_ok_iff, magnitude_eq_ok_iff hne]
  constructor
  · rintro ⟨n, ⟨hn, -⟩, rfl, hr⟩
    exact ⟨.natural hn, hr⟩
  · rintro ⟨hden, hr⟩
    cases hden with
    | @natural _ n h => exact ⟨n, ⟨h, by omega⟩, rfl, hr⟩
    | negative => exact (hc rfl).elim

theorem not_magnitude_minus {n : Nat} : ¬ Magnitude ('-' :: cs) n := by
  rw [magnitude_decimal_iff (by decide)]
  exact not_writes_cons (by decide) rfl

theorem value_negative_iff (hne : cs ≠ []) {v : Int} :
    value ('-' :: cs) = .ok v ↔ Denotes ('-' :: cs) v ∧ -0x80000000 ≤ v ∧ v < 0x100000000 := by
  simp only [value_minus, bind_eq_ok_iff, bounded_eq_ok_iff, magnitude_eq_ok_iff hne]
  constructor
  · rintro ⟨n, ⟨hn, -⟩, rfl, hr⟩
    exact ⟨.negative hn, hr⟩
  · rintro ⟨hden, hr⟩
    cases hden with
    | @negative _ n h => exact ⟨n, ⟨h, by omega⟩, rfl, hr⟩
    | natural h => exact (not_magnitude_minus h).elim

end Values

-- the reading of an integer may fail, but then it is known what is wrong with its text
section Reasons

theorem failsOnly_push {base : Nat} {bad : LexError} (hbad : bad ≠ .unknownInteger) (m : Nat) (c : Char) :
    FailsOnly (· ≠ .unknownInteger) (push base bad m c) := by
  unfold push
  split
  · exact failsOnly_error hbad
  split
  · exact failsOnly_ok _
  · exact failsOnly_error nofun

theorem failsOnly_magnitude (cs : List Char) : FailsOnly (· ≠ .unknownInteger) (magnitude cs) := by
  have hfold (base : Nat) {bad : LexError} (hbad : bad ≠ .unknownInteger) (cs : List Char) :
      FailsOnly (· ≠ .unknownInteger) (cs.foldlM (push base bad) 0) :=
    failsOnly_foldlM (fun m c _ => failsOnly_push hbad m c) 0
  unfold magnitude
  split
  · exact failsOnly_error nofun
  · exact failsOnly_error nofun
  · exact hfold 16 (by decide) _
  · exact hfold 16 (by decide) _
  · exact hfold 8 (by decide) _
  · exact hfold 10 (by decide) _

theorem failsOnly_bounded (v : Int) : FailsOnly (· ≠ .unknownInteger) (bounded v) := by
  unfold bounded
  split
  · exact failsOnly_ok v
  · exact failsOnly_error nofun

theorem failsOnly_value (cs : List Char) : FailsOnly (· ≠ .unknownInteger) (value cs) := by
  by_cases hc : cs.head? = some '-'
  · obtain ⟨digits, rfl⟩ := List.head?_eq_some_iff.mp hc
    rw [value_minus]
    exact failsOnly_bind (failsOnly_magnitude digits) fun _ _ => failsOnly_bounded _
  · rw [value_of_head? hc]
    exact failsOnly_bind (failsOnly_magnitude cs) fun _ _ => failsOnly_bounded _

end Reasons

end Numeral

namespace Token

open Character

inductive IsNumeral : List Char → Prop
  | natural {c cs} (hc : isDecimalDigit c) (hcs : ∀ d ∈ cs, isWordCharacter d) : IsNumeral (c :: cs)
  | negative {c cs} (hc : isDecimalDigit c) (hcs : ∀ d ∈ cs, isWordCharacter d) : IsNumeral ('-' :: c :: cs)

section Numerals

variable {cs rest : List Char}

theorem takeWhile_word (hcs : ∀ d ∈ cs, isWordCharacter d) (hr : ∀ d ∈ rest.head?, ¬ isWordCharacter d) :
    (cs ++ rest).takeWhile isWordCharacter = cs := by
  rw [List.takeWhile_append_of_pos hcs, takeWhile_eq_nil hr, List.append_nil]

theorem ofChars_isNumeral (h : IsNumeral cs) (hr : ∀ d ∈ rest.head?, ¬ isWordCharacter d) (start : Nat) :
    ofChars start (cs ++ rest) = ⟨kindOf .int (Numeral.value cs), ⟨start, start + width cs⟩⟩ ::
      ofChars (start + width cs) rest := by
  cases h with
  | natural hc hcs =>
    obtain ⟨hb, hh, -⟩ := starts_token (by decide) hc
    rw [List.cons_append, ofChars_scan _ _ hb hh, scan_numeral hc, takeWhile_word hcs hr, List.take_left,
      List.drop_left]
  | @negative c cs hc hcs =>
    have hlen : (c :: (cs ++ rest)).take (cs.length + 1) = c :: cs ∧
        (c :: (cs ++ rest)).drop (cs.length + 1) = rest := by
      rw [List.take_succ_cons, List.take_left, List.drop_succ_cons, List.drop_left]
      exact ⟨rfl, rfl⟩
    rw [List.cons_append, List.cons_append, ofChars_scan _ _ (by decide) (by decide), scan_negative hc,
      takeWhile_word hcs hr, hlen.1, hlen.2]

theorem value_isNumeral_iff (h : IsNumeral cs) {v : Int} : Numeral.value cs = .ok v ↔
    Numeral.Denotes cs v ∧ -0x80000000 ≤ v ∧ v < 0x100000000 := by
  cases h with
  | @natural c cs hc hcs =>
    apply Numeral.value_natural_iff (List.cons_ne_nil c cs)
    rintro ⟨⟩
    exact absurd hc (by decide)
  | @negative c cs hc hcs => exact Numeral.value_negative_iff (List.cons_ne_nil c cs)

end Numerals

section Reasons

theorem kindOf_ne_unknown {α : Type} {make : α → TokenKind} {result : Except LexError α}
    (hmake : ∀ a e, make a ≠ .error e) (h : FailsOnly (· ≠ .unknownInteger) result) :
    kindOf make result ≠ .error .unknownInteger := by
  cases result with
  | ok a => exact hmake a _
  | error e =>
    rintro ⟨⟩
    exact h _ rfl rfl

theorem failsOnly_closeChar (value : Char) (r rest : List Char) :
    FailsOnly (· ≠ .unknownInteger) (Quoted.closeChar value r rest).1 := by
  unfold Quoted.closeChar
  split
  · exact failsOnly_ok _
  · exact failsOnly_error nofun
  split
  · exact failsOnly_error nofun
  · exact failsOnly_error nofun

theorem failsOnly_character (r : List Char) : FailsOnly (· ≠ .unknownInteger) (Quoted.character r).1 := by
  unfold Quoted.character
  split
  · exact failsOnly_error nofun
  · exact failsOnly_error nofun
  · exact failsOnly_closeChar _ _ _
  · exact failsOnly_error nofun
  · exact failsOnly_closeChar _ _ _

theorem failsOnly_string (r : List Char) : FailsOnly (· ≠ .unknownInteger) (Quoted.string r).1 := by
  unfold Quoted.string
  split
  · exact failsOnly_error nofun
  · exact failsOnly_ok _

theorem scan_ne_unknown (c : Char) (r : List Char) : (scan c r).1 ≠ .error .unknownInteger := by
  have hint (v : Int) (e : LexError) : TokenKind.int v ≠ .error e := by simp
  have htext (text : String) (e : LexError) : TokenKind.str text ≠ .error e := by simp
  by_cases hdigit : isDecimalDigit c
  · rw [scan, if_pos hdigit]
    exact kindOf_ne_unknown hint (Numeral.failsOnly_value _)
  by_cases hsign : c = '-' ∧ r.head?.any isDecimalDigit
  · rw [scan, if_neg hdigit, if_pos hsign]
    exact kindOf_ne_unknown hint (Numeral.failsOnly_value _)
  by_cases hchar : c = '\''
  · rw [hchar, scan_apostrophe]
    exact kindOf_ne_unknown hint (failsOnly_character r)
  by_cases hstr : c = '"'
  · rw [hstr, scan_quote]
    exact kindOf_ne_unknown htext (failsOnly_string r)
  rw [scan, if_neg hdigit, if_neg hsign, if_neg hchar, if_neg hstr]
  repeat' split
  all_goals simp

theorem ofChars_ne_unknown (start : Nat) (cs : List Char) :
    ∀ t ∈ ofChars start cs, t.kind ≠ .error .unknownInteger := by
  induction start, cs using ofChars.induct with
  | case1 start => simp [ofChars]
  | case2 start c r hb ih =>
    rw [ofChars_blank _ _ hb]
    exact ih
  | case3 start r => simp [ofChars_comment]
  | case4 start c r hb hc kind n hscan stop ih =>
    have hkind := scan_ne_unknown c r
    rw [hscan] at hkind
    rw [ofChars_scan _ _ hb hc, hscan, List.forall_mem_cons]
    exact ⟨hkind, ih⟩

end Reasons

/-- The token that an integer's text has in a line, up to where the text ends, is the number that the text
stands for or, where it stands for none that fits, an error. -/
structure ReadsNumeral (cs : List Char) (kind : TokenKind) : Prop where
  token : ∀ start rest, (∀ d ∈ rest.head?, ¬ isWordCharacter d) →
    ofChars start (cs ++ rest) = ⟨kind, ⟨start, start + width cs⟩⟩ :: ofChars (start + width cs) rest
  eq_int_iff : ∀ v, kind = .int v ↔ Numeral.Denotes cs v ∧ -0x80000000 ≤ v ∧ v ≤ 0xFFFFFFFF
  eq_error : (¬ ∃ v, Numeral.Denotes cs v ∧ -0x80000000 ≤ v ∧ v ≤ 0xFFFFFFFF) → ∃ e, kind = .error e

theorem exists_readsNumeral {cs : List Char} (h : IsNumeral cs) : ∃ kind, ReadsNumeral cs kind := by
  have hint (v : Int) : kindOf .int (Numeral.value cs) = .int v ↔
      Numeral.Denotes cs v ∧ -0x80000000 ≤ v ∧ v ≤ 0xFFFFFFFF := by
    rw [show v ≤ 0xFFFFFFFF ↔ v < 0x100000000 by omega, ← value_isNumeral_iff h]
    cases Numeral.value cs <;> simp [kindOf]
  refine ⟨kindOf .int (Numeral.value cs), fun start rest hr => ofChars_isNumeral h hr start, hint, fun hv => ?_⟩
  cases hval : Numeral.value cs with
  | error e => exact ⟨e, rfl⟩
  | ok v =>
    rw [hval] at hint
    exact (hv ⟨v, (hint v).mp rfl⟩).elim

theorem ofLine_integers : (∀ cs, IsNumeral cs → ∃ kind, ReadsNumeral cs kind) ∧
    ∀ src, ∀ t ∈ ofLine src, t.kind ≠ .error .unknownInteger :=
  ⟨fun _ => exists_readsNumeral, fun _ => ofChars_ne_unknown 0 _⟩

theorem ofLine_integers_hex : IsNumeral "-0X7fFF".toList ∧ ReadsNumeral "-0X7fFF".toList (.int (-0x7fff)) := by
  have hnum : IsNumeral "-0X7fFF".toList :=
    .negative (by decide) (List.all_eq_true.mp (by decide))
  have hdigits : Numeral.Writes 16 ['7', 'f', 'F', 'F'] 0x7fff := by
    refine ⟨[7, 15, 15, 15], ?_, by decide⟩
    simp only [List.forall₂_cons, List.forall₂_nil_left_iff, Numeral.IsDigit]
    decide
  have hden : Numeral.Denotes "-0X7fFF".toList (-0x7fff) :=
    .negative (.hex (.inr rfl) (List.cons_ne_nil _ _) hdigits)
  obtain ⟨kind, h⟩ := ofLine_integers.1 _ hnum
  have hkind := (h.eq_int_iff (-0x7fff)).mpr ⟨hden, by decide⟩
  exact ⟨hnum, hkind ▸ h⟩

end Token

end MipsMachine
