import Mathlib.Data.Int.ModEq
import MipsMachine.Proofs.Offset

namespace MipsMachine

namespace Signedness

variable {n : Nat} {s : Signedness}

theorem ofInt_eq_iff {a b : Int} : BitVec.ofInt n a = BitVec.ofInt n b ↔ a ≡ b [ZMOD 2 ^ n] := by
  rw [← BitVec.toNat_inj, ← Int.ofNat_inj, natCast_toNat_ofInt, natCast_toNat_ofInt]
  rfl

theorem ofInt_value (hn : n ≤ 32) (s : Signedness) (w : Word) : BitVec.ofInt n (s.value w) = w.setWidth n := by
  cases s with
  | signed => rw [value, ← Offset.setWidth_ofInt hn, BitVec.ofInt_toInt]
  | unsigned => rw [value, ← Offset.setWidth_ofInt hn, Offset.ofInt_toNat]

theorem extend_eq_iff (h0 : 0 < n) (hn : n ≤ 32) (s : Signedness) (w : Word) :
    s.extend n w = w ↔ s.Fits n (s.value w) := by
  cases s with
  | signed => exact extend_signed_eq_iff h0 hn w
  | unsigned =>
    rw [extend_unsigned_eq_iff hn, Fits, value, Int.ofNat_lt]
    exact (and_iff_right (Int.natCast_nonneg _)).symm

theorem setWidth_extend (hn : n ≤ 32) (s : Signedness) (w : Word) : (s.extend n w).setWidth n = w.setWidth n := by
  cases s with
  | signed =>
    apply BitVec.eq_of_getLsbD_eq
    intro i hi
    rw [extend_signed hn, BitVec.getLsbD_setWidth, BitVec.getLsbD_signExtend, if_pos hi]
    simp [hi, Nat.lt_of_lt_of_le hi hn]
  | unsigned => rw [extend_unsigned hn, BitVec.setWidth_setWidth_of_le _ hn, BitVec.setWidth_eq]

theorem extend_congr (hn : n ≤ 32) (s : Signedness) {w w' : Word} (h : w.setWidth n = w'.setWidth n) :
    s.extend n w = s.extend n w' := by
  cases s with
  | signed => rw [extend_signed hn, extend_signed hn, h]
  | unsigned => rw [extend_unsigned hn, extend_unsigned hn, h]

theorem value_extend_modEq (hn : n ≤ 32) (s : Signedness) (w : Word) :
    s.value (s.extend n w) ≡ s.value w [ZMOD 2 ^ n] := by
  rw [← ofInt_eq_iff, ofInt_value hn, ofInt_value hn, setWidth_extend hn]

theorem Fits.eq_of_modEq (h0 : 0 < n) {a b : Int} (ha : s.Fits n a) (hb : s.Fits n b)
    (h : a ≡ b [ZMOD 2 ^ n]) : a = b := by
  have hp : (2 : Int) ^ n = 2 * limit n := by
    rw [limit_eq, Int.natCast_pow, ← Nat.sub_add_cancel h0, Int.pow_succ', Nat.add_sub_cancel]
    rfl
  have hlt : |b - a| < 2 ^ n := by
    rw [abs_lt]
    cases s with
    | signed =>
      obtain ⟨ha, ha'⟩ := ha
      obtain ⟨hb, hb'⟩ := hb
      omega
    | unsigned =>
      obtain ⟨ha, ha'⟩ := ha
      obtain ⟨hb, hb'⟩ := hb
      rw [Int.natCast_pow, Nat.cast_ofNat] at ha' hb'
      constructor <;> omega
  have := Int.eq_zero_of_abs_lt_dvd h.dvd hlt
  omega

end Signedness

namespace Offset

variable {n : Nat} {s : Signedness}

theorem fits_value (h0 : 0 < n) (hn : n ≤ 32) (o : Offset s n) : s.Fits n o.value :=
  (Signedness.extend_eq_iff h0 hn s o.word).mp o.extend_word

structure Exact (s : Signedness) (n : Nat) : Prop where
  ofWord_ok : ∀ w, s.Fits n (s.value w) → ∃ o : Offset s n, ofWord s n w = .ok o ∧ o.value = s.value w
  ofWord_error : ∀ w, ¬ s.Fits n (s.value w) → ofWord s n w = .error (.doesNotFit s n)
  ofLiteral_ok : ∀ v, s.Fits n v → ∃ o : Offset s n, ofLiteral s n v = .ok o ∧ o.value = v
  ofLiteral_error : ∀ v, ¬ s.Fits n v → ofLiteral s n v = .error (.doesNotFit s n)
  truncate_ok : ∀ w, ∃ o : Offset s n, truncate s n w = .ok o ∧ s.Fits n o.value ∧
    o.value ≡ s.value w [ZMOD 2 ^ n] ∧ ∀ v, s.Fits n v → v ≡ s.value w [ZMOD 2 ^ n] → v = o.value
  field_toNat : ∀ o : Offset s n, (o.field.toNat : Int) = o.value % 2 ^ n
  truncate_field : ∀ o : Offset s n, truncate s n (o.field.setWidth 32) = .ok o

section Exact

variable (h0 : 0 < n) (hn : n ≤ 32)

include hn in
theorem truncate_eq (w : Word) : truncate s n w = .ok ⟨s.extend n w, s.extend_extend n w⟩ :=
  if_neg (Nat.not_lt.mpr hn)

include h0 hn

theorem ofWord_of_not_fits {w : Word} (h : ¬ s.Fits n (s.value w)) : ofWord s n w = .error (.doesNotFit s n) := by
  rw [ofWord, if_neg (Nat.not_lt.mpr hn), dif_neg]
  rwa [Signedness.extend_eq_iff h0 hn]

theorem ofLiteral_of_fits {v : Int} (h : s.Fits n v) :
    ∃ o : Offset s n, ofLiteral s n v = .ok o ∧ o.value = v := by
  obtain ⟨hv, he⟩ := (Signedness.fits_iff h0 hn).mp h
  refine ⟨_, Offset.ofLiteral_ok hn hv he, ?_⟩
  cases s with
  | signed => exact Signedness.toInt_ofInt hv
  | unsigned =>
    rw [value, Signedness.value, Signedness.natCast_toNat_ofInt]
    exact Int.emod_eq_of_lt hv.1 hv.2

theorem ofLiteral_of_not_fits {v : Int} (h : ¬ s.Fits n v) : ofLiteral s n v = .error (.doesNotFit s n) := by
  rw [Signedness.fits_iff h0 hn] at h
  unfold ofLiteral
  split
  · rename_i hv
    rw [ofWord, if_neg (Nat.not_lt.mpr hn), dif_neg fun he => h ⟨hv, he⟩]
  · rfl

theorem exact_of_le (s : Signedness) : Exact s n where
  ofWord_ok w h := by
    refine ⟨⟨w, (Signedness.extend_eq_iff h0 hn s w).mpr h⟩, ?_, rfl⟩
    rw [ofWord, if_neg (Nat.not_lt.mpr hn), dif_pos]
  ofWord_error w h := ofWord_of_not_fits h0 hn h
  ofLiteral_ok v h := ofLiteral_of_fits h0 hn h
  ofLiteral_error v h := ofLiteral_of_not_fits h0 hn h
  truncate_ok w := by
    have hmod := Signedness.value_extend_modEq hn s w
    refine ⟨_, truncate_eq hn w, fits_value h0 hn _, hmod, fun v hv hw => ?_⟩
    exact hv.eq_of_modEq h0 (fits_value h0 hn _) (hw.trans hmod.symm)
  field_toNat o := by
    rw [field, ← Signedness.ofInt_value hn s, Signedness.natCast_toNat_ofInt]
    rfl
  truncate_field o := by
    have hword : s.extend n (o.field.setWidth 32) = o.word := by
      have hlow : (o.field.setWidth 32).setWidth n = o.word.setWidth n := by
        rw [BitVec.setWidth_setWidth_of_le _ hn, BitVec.setWidth_eq, field]
      exact (Signedness.extend_congr hn s hlow).trans o.extend_word
    rw [truncate_eq hn]
    congr

end Exact

theorem exact_of_le_sixteen : 0 < 16 ∧ 16 ≤ 32 ∧ Exact .signed 16 :=
  ⟨by decide, by decide, exact_of_le (by decide) (by decide) .signed⟩

end Offset

end MipsMachine
