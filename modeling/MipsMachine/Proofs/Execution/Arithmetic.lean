import MipsMachine.Execution.Arithmetic
import MipsMachine.Proofs.Offset

namespace MipsMachine

section Sums

variable (trap : Bool) (a b : Word)

theorem saddOverflow_iff :
    BitVec.saddOverflow a b = true ↔ ¬ Signedness.signed.Holds (a.toInt + b.toInt) := by
  simp [BitVec.saddOverflow, Signedness.Holds]
  omega

theorem ssubOverflow_iff :
    BitVec.ssubOverflow a b = true ↔ ¬ Signedness.signed.Holds (a.toInt - b.toInt) := by
  simp [BitVec.ssubOverflow, Signedness.Holds]
  omega

theorem signedAdd_eq :
    signedAdd trap a b = if trap = true ∧ ¬ Signedness.signed.Holds (a.toInt + b.toInt)
      then .error .integerOverflow else .ok (BitVec.ofInt 32 (a.toInt + b.toInt)) := by
  rw [signedAdd, BitVec.ofInt_add, BitVec.ofInt_toInt, BitVec.ofInt_toInt]
  simp only [saddOverflow_iff]

theorem signedSub_eq :
    signedSub trap a b = if trap = true ∧ ¬ Signedness.signed.Holds (a.toInt - b.toInt)
      then .error .integerOverflow else .ok (BitVec.ofInt 32 (a.toInt - b.toInt)) := by
  rw [signedSub, Int.sub_eq_add_neg, BitVec.ofInt_add, BitVec.ofInt_neg, BitVec.ofInt_toInt, BitVec.ofInt_toInt,
    ← BitVec.sub_eq_add_neg, ← Int.sub_eq_add_neg]
  simp only [ssubOverflow_iff]

end Sums

section Products

variable (p : BitVec 64) (a b : Word)

theorem toInt_product : (a.signExtend 64 * b.signExtend 64).toInt = a.toInt * b.toInt := by
  have hle := BitVec.toInt_mul_toInt_le (x := a) (y := b)
  have hge := BitVec.le_toInt_mul_toInt (x := a) (y := b)
  rw [BitVec.toInt_mul, BitVec.toInt_signExtend_of_le (by decide), BitVec.toInt_signExtend_of_le (by decide)]
  apply Int.bmod_eq_of_le <;> omega

end Products

section Expansions

theorem holds_toInt (a : Word) : Signedness.signed.Holds a.toInt := ⟨a.le_toInt, a.toInt_lt⟩

theorem signedAdd_zero (trap : Bool) (a : Word) : signedAdd trap a 0 = .ok a := by
  have hz : a.toInt + (0 : Word).toInt = a.toInt := by simp
  rw [signedAdd_eq, hz, if_neg fun h => h.2 (holds_toInt a), BitVec.ofInt_toInt]

theorem zero_sub_eq_ofInt (b : Word) : 0 - b = BitVec.ofInt 32 (-b.toInt) := by
  rw [BitVec.ofInt_neg, BitVec.ofInt_toInt]
  exact BitVec.zero_sub b

theorem signedSub_zero (trap : Bool) (b : Word) :
    signedSub trap 0 b =
      if trap = true ∧ b.toInt = -0x80000000 then .error .integerOverflow
      else .ok (BitVec.ofInt 32 (-b.toInt)) := by
  have hz : (0 : Word).toInt - b.toInt = -b.toInt := by simp
  have hh : ¬ Signedness.signed.Holds (-b.toInt) ↔ b.toInt = -0x80000000 := by
    obtain ⟨hl, hu⟩ := holds_toInt b
    unfold Signedness.Holds
    omega
  rw [signedSub_eq, hz]
  simp only [hh]

theorem zero_add_signExtend {v : Int} (h : -0x8000 ≤ v ∧ v < 0x8000) :
    0 + (BitVec.ofInt 16 v).signExtend 32 = BitVec.ofInt 32 v := by
  have hv : (BitVec.ofInt 16 v).toInt = v := by
    rw [BitVec.toInt_ofInt]
    apply Int.bmod_eq_of_le <;> omega
  rw [BitVec.signExtend, hv]
  exact BitVec.zero_add _

theorem sshiftRight_sign (a : Word) : a.sshiftRight 31 = if a.toInt < 0 then -1 else 0 := by
  have hl := a.le_toInt
  have hu := a.toInt_lt
  apply BitVec.eq_of_toInt_eq
  rw [BitVec.toInt_sshiftRight, Int.shiftRight_eq_div_pow]
  by_cases h : a.toInt < 0
  · rw [if_pos h]
    change _ = -1
    omega
  · rw [if_neg h]
    change _ = 0
    omega

theorem xor_sub_sign (a : Word) :
    (a ^^^ a.sshiftRight 31) - a.sshiftRight 31 = BitVec.ofNat 32 a.toInt.natAbs := by
  rw [sshiftRight_sign, ← BitVec.ofInt_natCast]
  by_cases h : a.toInt < 0
  · rw [if_pos h, Int.ofNat_natAbs_of_nonpos (Int.le_of_lt h), BitVec.ofInt_neg, BitVec.ofInt_toInt,
      BitVec.neg_eq_not_add a]
    change (a ^^^ BitVec.allOnes 32) - BitVec.allOnes 32 = _
    rw [BitVec.xor_allOnes, BitVec.sub_eq_add_neg]
    rfl
  · rw [if_neg h, Int.natAbs_of_nonneg (Int.not_lt.mp h), BitVec.ofInt_toInt]
    simp

theorem low_product (a b : Word) :
    (a.signExtend 64 * b.signExtend 64).extractLsb' 0 32 = BitVec.ofInt 32 (a.toInt * b.toInt) := by
  rw [← BitVec.setWidth_eq_extractLsb' (by decide), ← BitVec.signExtend_eq_setWidth_of_le _ (by decide),
    BitVec.signExtend, toInt_product]

theorem truth_decide (p : Prop) [Decidable p] : truth (decide p) = if p then 1 else 0 := by
  simp only [truth, decide_eq_true_eq]

theorem truth_xor_one (b : Bool) : truth b ^^^ 1 = truth (!b) := by
  cases b <;> rfl

theorem bne_truth (b : Bool) : CompareOp.bne.test (truth b) 0 = b := by
  cases b <;> rfl

theorem beq_truth (b : Bool) : CompareOp.beq.test (truth b) 0 = !b := by
  cases b <;> rfl

end Expansions

end MipsMachine
