import MipsMachine.Proofs.Token.Lexeme
import MipsMachine.Proofs.Traversal
import MipsMachine.Word

namespace MipsMachine

namespace Numeral

section Equations

theorem magnitude_mark {mark d : Char} (hm : mark = 'x' ∨ mark = 'X') (digits : List Char) :
    magnitude ('0' :: mark :: d :: digits) = (d :: digits).foldlM (push 16 .invalidHex) 0 := by
  rcases hm with rfl | rfl
  · rfl
  · rfl

theorem magnitude_octal {mark : Char} (hm : ¬ (mark = 'x' ∨ mark = 'X')) (digits : List Char) :
    magnitude ('0' :: mark :: digits) = (mark :: digits).foldlM (push 8 .invalidOctal) 0 := by
  rw [magnitude]
  · exact fun h _ => hm (.inl h)
  · exact fun h _ => hm (.inr h)
  · exact fun h => hm (.inl h)
  · exact fun h => hm (.inr h)

theorem magnitude_decimal {c : Char} (hc : c ≠ '0') (digits : List Char) :
    magnitude (c :: digits) = (c :: digits).foldlM (push 10 .invalidDecimal) 0 := by
  rw [magnitude]
  · exact fun h => hc (List.cons.inj h).1
  · exact fun h => hc (List.cons.inj h).1
  · exact fun _ h => hc (List.cons.inj h).1
  · exact fun _ h => hc (List.cons.inj h).1
  · exact fun _ _ h => hc (List.cons.inj h).1

def bounded (v : Int) : Except LexError Int :=
  if -0x80000000 ≤ v ∧ v < 0x100000000 then .ok v else .error .doesNotFit

theorem bounded_eq_ok_iff {u v : Int} : bounded u = .ok v ↔ u = v ∧ -0x80000000 ≤ v ∧ v < 0x100000000 := by
  unfold bounded
  split
  · rename_i hu
    rw [Except.ok.injEq]
    exact ⟨fun h => ⟨h, h ▸ hu⟩, fun h => h.1⟩
  · rename_i hu
    exact ⟨fun h => (nomatch h), fun h => (hu (h.1 ▸ h.2)).elim⟩

theorem value_minus (digits : List Char) : value ('-' :: digits) = magnitude digits >>= fun n => bounded (-n) := by
  change (Except.map _ (magnitude digits >>= _) >>= _) = _
  cases magnitude digits <;> rfl

theorem value_of_head? {cs : List Char} (hc : cs.head? ≠ some '-') :
    value cs = magnitude cs >>= fun n => bounded n := by
  unfold value
  split
  · exact (hc rfl).elim
  · cases magnitude cs <;> rfl

end Equations

theorem digit?_digitChar {base d : Nat} (hb : base ≤ 16) (hd : d < base) :
    digit? base d.digitChar = some d := by
  have h : ∀ base ≤ 16, ∀ d < base, digit? base d.digitChar = some d := by decide
  exact h base hb d hd

variable {base n : Nat}

theorem foldlM_push_toDigits (h1 : 1 < base) (hb : base ≤ 16) (bad : LexError)
    (hn : n < 0x10000000000000000) : (Nat.toDigits base n).foldlM (push base bad) 0 = .ok n := by
  induction n using Nat.strongRecOn with
  | ind n ih =>
    rw [Nat.toDigits_eq_if h1]
    split
    case isTrue h =>
      simp [push, digit?_digitChar hb h, hn]
    case isFalse h =>
      have hlt : n / base < n := Nat.div_lt_self (by omega) h1
      have hd : n % base < base := Nat.mod_lt n (by omega)
      rw [List.foldlM_append, ih _ hlt (hlt.trans hn)]
      change push base bad (n / base) (n % base).digitChar >>= pure = _
      simp [push, digit?_digitChar hb hd, Nat.div_add_mod, hn]

theorem exists_toDigits (h1 : 1 < base) (hn : 0 < n) :
    ∃ d cs, 0 < d ∧ d < base ∧ Nat.toDigits base n = d.digitChar :: cs := by
  induction n using Nat.strongRecOn with
  | ind n ih =>
    rw [Nat.toDigits_eq_if h1]
    split
    case isTrue h => exact ⟨n, [], hn, h, rfl⟩
    case isFalse h =>
      obtain ⟨d, cs, h0, hd, he⟩ := ih (n / base) (Nat.div_lt_self hn h1) (Nat.div_pos (by omega) (by omega))
      exact ⟨d, cs ++ [(n % base).digitChar], h0, hd, by rw [he, List.cons_append]⟩

theorem magnitude_toDigits (hn : n < 0x10000000000000000) : magnitude (Nat.toDigits 10 n) = .ok n := by
  rcases Nat.eq_zero_or_pos n with rfl | h0
  · rfl
  · obtain ⟨d, cs, hd, h10, he⟩ := exists_toDigits (show 1 < 10 by decide) h0
    have hz : d.digitChar ≠ '0' := by simpa using hd.ne'
    rw [he, magnitude_decimal hz, ← he, foldlM_push_toDigits (by decide) (by decide) _ hn]

theorem magnitude_hex (hn : n < 0x10000000000000000) :
    magnitude ('0' :: 'x' :: Nat.toDigits 16 n) = .ok n := by
  obtain ⟨c, cs, h⟩ := List.exists_cons_of_ne_nil (Nat.toDigits_ne_nil (n := n) (b := 16))
  rw [h, magnitude_mark (.inl rfl), ← h, foldlM_push_toDigits (by decide) (by decide) _ hn]

theorem value_natural {cs : List Char} (hc : cs.head? ≠ some '-') (hm : magnitude cs = .ok n)
    (hn : n < 0x100000000) : value cs = .ok n := by
  rw [value_of_head? hc, bind_eq_ok_iff]
  exact ⟨n, hm, bounded_eq_ok_iff.mpr ⟨rfl, by omega, by omega⟩⟩

theorem value_negative {cs : List Char} (hm : magnitude cs = .ok n) (hn : n ≤ 0x80000000) :
    value ('-' :: cs) = .ok (-n) := by
  rw [value_minus, bind_eq_ok_iff]
  exact ⟨n, hm, bounded_eq_ok_iff.mpr ⟨rfl, by omega, by omega⟩⟩

theorem value_toDigits (hn : n < 0x100000000) : value (Nat.toDigits 10 n) = .ok n := by
  refine value_natural (fun h => ?_) (magnitude_toDigits (by omega)) hn
  have hd := Nat.isDigit_of_mem_toDigits (by decide) (by decide) (List.mem_of_mem_head? h)
  exact absurd hd (by decide)

theorem value_neg_toDigits (hn : n ≤ 0x80000000) : value ('-' :: Nat.toDigits 10 n) = .ok (-n) :=
  value_negative (magnitude_toDigits (by omega)) hn

theorem value_hex (hn : n < 0x100000000) : value ('0' :: 'x' :: Nat.toDigits 16 n) = .ok n :=
  value_natural (by simp) (magnitude_hex (by omega)) hn

theorem isAlphanum_of_mem_toDigits (h1 : 1 < base) (hb : base ≤ 16) {c : Char}
    (hc : c ∈ Nat.toDigits base n) : c.isAlphanum := by
  induction n using Nat.strongRecOn with
  | ind n ih =>
    have hdigit : ∀ d < 16, d.digitChar.isAlphanum := by decide
    rw [Nat.toDigits_eq_if h1] at hc
    split at hc
    case isTrue h =>
      rw [List.mem_singleton.mp hc]
      exact hdigit n (by omega)
    case isFalse h =>
      rcases List.mem_append.mp hc with hc | hc
      · exact ih _ (Nat.div_lt_self (by omega) h1) hc
      · rw [List.mem_singleton.mp hc]
        exact hdigit _ (by have := Nat.mod_lt n (show 0 < base by omega); omega)

end Numeral

namespace Token.Reads

open Character

theorem exists_digits (n : Nat) :
    ∃ c cs, Nat.toDigits 10 n = c :: cs ∧ isDecimalDigit c ∧ ∀ d ∈ cs, isWordCharacter d := by
  obtain ⟨c, cs, h⟩ := List.exists_cons_of_ne_nil (Nat.toDigits_ne_nil (n := n) (b := 10))
  have hc : c ∈ Nat.toDigits 10 n := h ▸ List.mem_cons_self
  refine ⟨c, cs, h, isDecimalDigit_of_isDigit (Nat.isDigit_of_mem_toDigits (by decide) (by decide) hc), ?_⟩
  intro d hd
  have hd : d ∈ Nat.toDigits 10 n := h ▸ List.mem_cons_of_mem c hd
  exact isWordCharacter_of_isAlphanum (Numeral.isAlphanum_of_mem_toDigits (by decide) (by decide) hd)

theorem nat {n : Nat} (hn : n < 0x100000000) : Reads (toString n).toList [.int n] := by
  obtain ⟨c, cs, h, hc, hcs⟩ := exists_digits n
  have hr := numeral hc hcs
  rwa [← h, Numeral.value_toDigits hn, ← Nat.toList_repr] at hr

theorem neg {n : Nat} (hn : n ≤ 0x80000000) : Reads ('-' :: (toString n).toList) [.int (-n)] := by
  obtain ⟨c, cs, h, hc, hcs⟩ := exists_digits n
  have hr := negative hc hcs
  rwa [← h, Numeral.value_neg_toDigits hn, ← Nat.toList_repr] at hr

theorem int {v : Int} (hv : -0x80000000 ≤ v ∧ v < 0x100000000) : Reads (toString v).toList [.int v] := by
  cases v with
  | ofNat n => exact nat (by simp at hv; omega)
  | negSucc n =>
    have ht : (toString (Int.negSucc n)).toList = '-' :: (toString (n + 1)).toList := by
      simp [toString, Int.repr]
    rw [ht]
    exact neg (n := n + 1) (by omega)

theorem hex {n : Nat} (hn : n < 0x100000000) : Reads ("0x" ++ hexDigits n).toList [.int n] := by
  have hcs : ∀ d ∈ 'x' :: Nat.toDigits 16 n, isWordCharacter d := by
    rw [List.forall_mem_cons]
    exact ⟨by decide, fun d hd => isWordCharacter_of_isAlphanum
      (Numeral.isAlphanum_of_mem_toDigits (by decide) (by decide) hd)⟩
  have hr := numeral (c := '0') (by decide) hcs
  rw [Numeral.value_hex hn] at hr
  simpa [hexDigits, kindOf] using hr

end Token.Reads

end MipsMachine
