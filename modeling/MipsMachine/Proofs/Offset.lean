import MipsMachine.Offset
import Mathlib.Algebra.Group.Int.Defs
import Mathlib.Algebra.Group.Nat.Defs
import Mathlib.Tactic.Common

namespace MipsMachine

namespace Signedness

variable {n : Nat}

def limit (n : Nat) : Nat := 1 <<< (n - 1)

theorem limit_eq (n : Nat) : limit n = 2 ^ (n - 1) := by
  rw [limit, Nat.shiftLeft_eq, Nat.one_mul]

def Reaches (n : Nat) (v : Int) : Prop := -(limit n : Int) ≤ v ∧ v < limit n

instance (n : Nat) (v : Int) : Decidable (Reaches n v) := inferInstanceAs (Decidable (_ ∧ _))

theorem extend_signed (hn : n ≤ 32) (w : Word) : signed.extend n w = (w.setWidth n).signExtend 32 := by
  apply BitVec.eq_of_getLsbD_eq
  intro i hi
  simp only [extend, BitVec.getLsbD_sshiftRight, BitVec.getLsbD_shiftLeft, BitVec.msb_eq_getLsbD_last,
    BitVec.getLsbD_signExtend, BitVec.getLsbD_setWidth]
  grind

theorem extend_unsigned (hn : n ≤ 32) (w : Word) : unsigned.extend n w = (w.setWidth n).setWidth 32 := by
  apply BitVec.eq_of_getLsbD_eq
  intro i hi
  simp only [extend, BitVec.getLsbD_ushiftRight, BitVec.getLsbD_shiftLeft, BitVec.getLsbD_setWidth]
  grind

theorem extend_signed_eq_iff (h0 : 0 < n) (hn : n ≤ 32) (w : Word) :
    signed.extend n w = w ↔ Reaches n w.toInt := by
  have hp : 2 ^ n = 2 * limit n := by
    rw [limit_eq, ← Nat.pow_succ', Nat.succ_eq_add_one, Nat.sub_add_cancel h0]
  have hpos : 0 < limit n := limit_eq n ▸ Nat.two_pow_pos _
  have hmod : (signed.extend n w).toInt = w.toInt.bmod (2 * limit n) := by
    rw [extend_signed hn, BitVec.toInt_signExtend_of_le hn, BitVec.toInt_setWidth, ← hp,
      BitVec.toInt_eq_toNat_bmod w, Int.bmod_bmod_of_dvd (Nat.pow_dvd_pow 2 hn)]
  rw [← BitVec.toInt_inj, hmod, Reaches]
  generalize limit n = k at *
  constructor
  · intro h
    have hlow := Int.le_bmod (x := w.toInt) (m := 2 * k) (by omega)
    have hhigh := Int.bmod_lt (x := w.toInt) (m := 2 * k) (by omega)
    omega
  · rintro ⟨hlow, hhigh⟩
    apply Int.bmod_eq_of_le <;> omega

theorem extend_unsigned_eq_iff (hn : n ≤ 32) (w : Word) : unsigned.extend n w = w ↔ w.toNat < 2 ^ n := by
  have hpos := Nat.two_pow_pos n
  have hp : 2 ^ n ≤ 2 ^ 32 := Nat.pow_le_pow_right (by decide) hn
  have hlt := Nat.mod_lt w.toNat hpos
  rw [extend_unsigned hn, ← BitVec.toNat_inj, BitVec.toNat_setWidth, BitVec.toNat_setWidth,
    Nat.mod_eq_of_lt (by omega), Nat.mod_eq_iff_lt (by omega)]

theorem reaches_toInt (b : BitVec n) : Reaches n b.toInt := by
  rw [Reaches, limit_eq, Int.natCast_pow]
  exact ⟨BitVec.le_toInt b, BitVec.toInt_lt⟩

theorem Reaches.holds {v : Int} (hn : n ≤ 32) (h : Reaches n v) : signed.Holds v := by
  have hp : limit n ≤ 0x80000000 := by
    rw [limit_eq]
    exact Nat.pow_le_pow_right (Nat.zero_lt_succ 1) (show n - 1 ≤ 31 by omega)
  obtain ⟨hlow, hhigh⟩ := h
  constructor <;> omega

theorem toInt_ofInt {v : Int} (h : signed.Holds v) : (BitVec.ofInt 32 v).toInt = v := by
  obtain ⟨hlow, hhigh⟩ := h
  rw [BitVec.toInt_ofInt]
  apply Int.bmod_eq_of_le <;> omega

theorem natCast_toNat_ofInt (n : Nat) (v : Int) : ((BitVec.ofInt n v).toNat : Int) = v % 2 ^ n := by
  have hpos : (0 : Int) < 2 ^ n := Int.pow_pos (by decide)
  have hpow : ((2 ^ n : Nat) : Int) = 2 ^ n := Int.natCast_pow 2 n
  rw [BitVec.toNat_ofInt, hpow, Int.toNat_of_nonneg (Int.emod_nonneg v (Int.ne_of_gt hpos))]

def Fits (n : Nat) : Signedness → Int → Prop
  | signed, v => Reaches n v
  | unsigned, v => 0 ≤ v ∧ v < (2 ^ n : Nat)

theorem fits_toNat (b : BitVec n) : unsigned.Fits n b.toNat :=
  ⟨Int.natCast_nonneg _, Int.ofNat_lt.mpr b.isLt⟩

theorem fits_iff {s : Signedness} {v : Int} (h0 : 0 < n) (hn : n ≤ 32) :
    s.Fits n v ↔ s.Holds v ∧ s.extend n (BitVec.ofInt 32 v) = BitVec.ofInt 32 v := by
  cases s with
  | signed =>
    rw [extend_signed_eq_iff h0 hn]
    constructor
    · intro h
      have hv := h.holds hn
      exact ⟨hv, (toInt_ofInt hv).symm ▸ h⟩
    · rintro ⟨hv, he⟩
      rwa [toInt_ofInt hv] at he
  | unsigned =>
    have hp : 2 ^ n ≤ 2 ^ 32 := Nat.pow_le_pow_right (by decide) hn
    have hv := natCast_toNat_ofInt 32 v
    rw [extend_unsigned_eq_iff hn, Fits, Holds]
    omega

end Signedness

namespace Offset

variable {n : Nat} {v : Int}

theorem signExtend_field (o : Offset .signed n) (hn : n ≤ 32) : o.field.signExtend 32 = o.word :=
  (Signedness.extend_signed hn o.word).symm.trans o.extend_word

theorem ofLiteral_ok {s : Signedness} (hn : n ≤ 32) (hv : s.Holds v)
    (he : s.extend n (BitVec.ofInt 32 v) = BitVec.ofInt 32 v) : ofLiteral s n v = .ok ⟨_, he⟩ := by
  rw [ofLiteral, if_pos hv, ofWord, if_neg (by omega), dif_pos he]

theorem ofLiteral_signed_ok (h0 : 0 < n) (hn : n ≤ 32) (h : Signedness.Reaches n v) :
    ∃ o : Offset .signed n, ofLiteral .signed n v = .ok o ∧ o.word = BitVec.ofInt 32 v := by
  have hv := h.holds hn
  have he : Signedness.signed.extend n (BitVec.ofInt 32 v) = BitVec.ofInt 32 v := by
    rw [Signedness.extend_signed_eq_iff h0 hn, Signedness.toInt_ofInt hv]
    exact h
  exact ⟨⟨_, he⟩, ofLiteral_ok hn hv he, rfl⟩

theorem ofLiteral_signed_error (h0 : 0 < n) (hn : n ≤ 32) (h : ¬ Signedness.Reaches n v) :
    ofLiteral .signed n v = .error (.doesNotFit .signed n) := by
  unfold ofLiteral
  by_cases hv : Signedness.signed.Holds v
  · rw [if_pos hv, ofWord, if_neg (by omega), dif_neg]
    rw [Signedness.extend_signed_eq_iff h0 hn, Signedness.toInt_ofInt hv]
    exact h
  · rw [if_neg hv]

theorem setWidth_ofInt (hn : n ≤ 32) (v : Int) : (BitVec.ofInt 32 v).setWidth n = BitVec.ofInt n v := by
  have hd : (2 : Int) ^ n ∣ 2 ^ 32 := ⟨2 ^ (32 - n), by rw [← Int.pow_add, Nat.add_sub_of_le hn]⟩
  have hpow : ((2 ^ n : Nat) : Int) = 2 ^ n := Int.natCast_pow 2 n
  apply BitVec.eq_of_toNat_eq
  apply Int.ofNat_inj.mp
  rw [BitVec.toNat_setWidth, Int.natCast_emod, hpow, Signedness.natCast_toNat_ofInt, Int.emod_emod_of_dvd v hd,
    Signedness.natCast_toNat_ofInt]

theorem field_ofLiteral_iff {s : Signedness} (h0 : 0 < n) (hn : n ≤ 32) {b : BitVec n} :
    (∃ o : Offset s n, ofLiteral s n v = .ok o ∧ o.field = b) ↔ s.Fits n v ∧ BitVec.ofInt n v = b := by
  rw [Signedness.fits_iff h0 hn, ← setWidth_ofInt hn]
  constructor
  · rintro ⟨o, ho, rfl⟩
    unfold ofLiteral ofWord at ho
    split at ho
    case isFalse => cases ho
    case isTrue hv =>
      rw [if_neg (by omega)] at ho
      split at ho
      case isFalse => cases ho
      case isTrue he =>
        cases ho
        exact ⟨⟨hv, he⟩, rfl⟩
  · rintro ⟨⟨hv, he⟩, rfl⟩
    exact ⟨_, ofLiteral_ok hn hv he, rfl⟩

theorem ofInt_toNat (b : BitVec n) : BitVec.ofInt n b.toNat = b := by
  rw [BitVec.ofInt_natCast, BitVec.ofNat_toNat, BitVec.setWidth_eq]

end Offset

end MipsMachine
