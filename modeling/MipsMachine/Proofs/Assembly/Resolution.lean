import MipsMachine.Proofs.Execution.Stepping
import MipsMachine.Proofs.Memory.Stores
import MipsMachine.Proofs.Offset

namespace MipsMachine

open Machine

/-- The result is the obstacle if there is one, and a value with the property if not. -/
def Unless {ε α : Type} (obstacle : Option ε) (P : α → Prop) (result : Except ε α) : Prop :=
  match obstacle with
  | some e => result = .error e
  | none => ∃ a, result = .ok a ∧ P a

namespace Unless

variable {ε α β : Type} {obstacle : Option ε} {P : α → Prop} {Q : β → Prop} {result : Except ε α}

theorem map {f : α → β} (h : Unless obstacle P result) (hf : ∀ a, P a → Q (f a)) :
    Unless obstacle Q (do return f (← result)) := by
  cases obstacle with
  | some e =>
    obtain rfl : result = .error e := h
    rfl
  | none =>
    obtain ⟨a, rfl, ha⟩ := h
    exact ⟨f a, rfl, hf a ha⟩

theorem error_iff (h : Unless obstacle P result) (e : ε) : result = .error e ↔ obstacle = some e := by
  cases obstacle with
  | some d =>
    obtain rfl : result = .error d := h
    rw [Except.error.injEq, Option.some.injEq]
  | none =>
    obtain ⟨a, rfl, -⟩ := h
    exact ⟨fun he => (nomatch he), fun he => (nomatch he)⟩

theorem exists_ok (h : Unless obstacle P result) (ho : obstacle = none) : ∃ a, result = .ok a ∧ P a := by
  subst ho
  exact h

theorem of_ok (h : Unless obstacle P result) {a : α} (ha : result = .ok a) : P a := by
  cases obstacle with
  | some e => cases ha.symm.trans (show result = .error e from h)
  | none =>
    obtain ⟨b, hb, hp⟩ := h
    cases ha.symm.trans hb
    exact hp

end Unless

namespace Patch

def distance (addr target : Word) : Int := ((target.toNat : Int) - addr.toNat - 4) / 4

def region (addr : Word) : Nat := addr.toNat / 0x10000000

def branchObstacle (addr target : Word) : Option AsmCause :=
  if target.toNat % 4 ≠ 0 then some (.misalignedTarget target)
  else if distance addr target < -32768 ∨ 32767 < distance addr target then
    some (.branchOutOfRange (.doesNotFit .signed 16))
  else none

def jumpObstacle (addr target : Word) : Option AsmCause :=
  if target.toNat % 4 ≠ 0 then some (.misalignedTarget target)
  else if region target ≠ region (addr + 4) then some (.jumpOutOfRegion target)
  else none

def obstacle (p : Patch) (addr target : Word) : Option AsmCause :=
  match p with
  | compare .. | zero .. => branchObstacle addr target
  | jump _ => jumpObstacle addr target
  | address _ => none

section Arithmetic

variable {addr target : Word}

theorem tdiv_eq_distance (ha : addr.toNat % 4 = 0) (ht : target.toNat % 4 = 0) :
    ((target.toNat : Int) - addr.toNat - 4).tdiv 4 = distance addr target ∧
      4 * distance addr target = (target.toNat : Int) - addr.toNat - 4 := by
  have hd : (4 : Int) ∣ (target.toNat : Int) - addr.toNat - 4 := by omega
  exact ⟨Int.tdiv_eq_ediv_of_dvd hd, Int.mul_ediv_cancel' hd⟩

theorem not_reaches_iff (d : Int) : ¬ Signedness.Reaches 16 d ↔ d < -32768 ∨ 32767 < d := by
  have hl : Signedness.limit 16 = 32768 := rfl
  unfold Signedness.Reaches
  omega

theorem add_shiftLeft_ofInt {d : Int} (h : 4 * d = (target.toNat : Int) - addr.toNat - 4) :
    addr + (4 : Word) + (BitVec.ofInt 32 d <<< 2) = target := by
  have h4 : (4 : Word).toNat = 4 := rfl
  have hla := addr.isLt
  have hlt := target.isLt
  apply BitVec.eq_of_toNat_eq
  simp only [BitVec.toNat_add, BitVec.toNat_ofInt, BitVec.toNat_shiftLeft, Nat.shiftLeft_eq]
  rw [h4]
  omega

theorem region_eq_iff (a b : Word) : a.extractLsb' 28 4 = b.extractLsb' 28 4 ↔ region a = region b := by
  have hla := a.isLt
  have hlb := b.isLt
  unfold region
  rw [← BitVec.toNat_inj, BitVec.extractLsb'_toNat, BitVec.extractLsb'_toNat, Nat.shiftRight_eq_div_pow,
    Nat.shiftRight_eq_div_pow]
  omega

theorem append_index (ht : target.toNat % 4 = 0) {next : Word}
    (hr : target.extractLsb' 28 4 = next.extractLsb' 28 4) :
    next.extractLsb' 28 4 ++ target.extractLsb' 2 26 ++ 0#2 = target := by
  have h0 : target.extractLsb' 0 2 = 0#2 := by
    apply BitVec.eq_of_toNat_eq
    simpa using ht
  rw [← hr, ← h0]
  apply BitVec.eq_of_getLsbD_eq
  intro i hi
  simp only [BitVec.getLsbD_extractLsb', BitVec.getLsbD_append]
  grind

theorem upper_or_lower (value : Word) :
    (value.extractLsb' 16 16 ++ 0#16) ||| (value.extractLsb' 0 16).zeroExtend 32 = value := by
  apply BitVec.eq_of_getLsbD_eq
  intro i hi
  simp only [BitVec.getLsbD_extractLsb', BitVec.getLsbD_append, BitVec.getLsbD_or, BitVec.getLsbD_setWidth,
    BitVec.zeroExtend]
  grind

end Arithmetic

section Fields

variable {addr target : Word}

theorem branchOffset_unless (ha : addr.toNat % 4 = 0) (target : Word) :
    Unless (branchObstacle addr target)
      (fun offset : Half => addr + (4 : Word) + (offset.signExtend 32 <<< 2) = target)
      (branchOffset addr target) := by
  unfold branchObstacle branchOffset
  by_cases ht : target.toNat % 4 = 0
  · obtain ⟨hdiv, hmul⟩ := tdiv_eq_distance ha ht
    simp only [ht, ne_eq, not_true, if_false, hdiv]
    by_cases hd : distance addr target < -32768 ∨ 32767 < distance addr target
    · rw [if_pos hd, Offset.ofLiteral_signed_error (by decide) (by decide) ((not_reaches_iff _).mpr hd)]
      rfl
    · obtain ⟨o, ho, hw⟩ := Offset.ofLiteral_signed_ok (n := 16) (by decide) (by decide)
        (not_not.mp fun hr => hd ((not_reaches_iff _).mp hr))
      rw [if_neg hd, ho]
      have hland := add_shiftLeft_ofInt hmul
      rw [← hw, ← o.signExtend_field (by decide)] at hland
      exact ⟨o.field, rfl, hland⟩
  · simp only [ht, ne_eq, not_false_iff, if_true]
    rfl

theorem jumpIndex_unless (addr target : Word) :
    Unless (jumpObstacle addr target) (fun index => (addr + 4).extractLsb' 28 4 ++ index ++ 0#2 = target)
      (jumpIndex addr target) := by
  unfold jumpObstacle jumpIndex
  by_cases ht : target.toNat % 4 = 0
  · simp only [ht, ne_eq, not_true, if_false, region_eq_iff]
    by_cases hr : region target = region (addr + 4)
    · simp only [hr, not_true, if_false]
      exact ⟨_, rfl, append_index ht ((region_eq_iff _ _).mpr hr)⟩
    · simp only [hr, not_false_iff, if_true]
      rfl
  · simp only [ht, ne_eq, not_false_iff, if_true]
    rfl

end Fields

section Lands

variable {m : Machine} {target : Word}

def Lands (p : Patch) (m : Machine) (target : Word) : Prop :=
  match p with
  | compare op rs rt => ∃ m', m.step = (.ok (), m') ∧ m'.registers = m.registers ∧ m'.memory = m.memory ∧
      m'.pc = if op.test (m.get rs) (m.get rt) then target else m.pc + 4
  | zero op rs => ∃ m', m.step = (.ok (), m') ∧ m'.registers = m.registers ∧ m'.memory = m.memory ∧
      m'.pc = if op.test (m.get rs) then target else m.pc + 4
  | jump .j => ∃ m', m.step = (.ok (), m') ∧ m'.registers = m.registers ∧ m'.memory = m.memory ∧
      m'.pc = target
  | jump .jal => ∃ m', m.step = (.ok (), m') ∧ m'.pc = target ∧ m'.get .ra = m.pc + 4 ∧
      m'.memory = m.memory ∧ ∀ r, r ≠ .ra → m'.get r = m.get r
  | address rd => ∃ m', m.Takes 2 m' ∧ m'.pc = m.pc + 8 ∧ (rd ≠ .zero → m'.get rd = target) ∧
      m'.memory = m.memory ∧ ∀ r, r ≠ rd → r ≠ .scratch → m'.get r = m.get r

theorem pc_branching {offset : Half} (taken : Bool)
    (h : m.pc + (4 : Word) + (offset.signExtend 32 <<< 2) = target) :
    (m.perform (m.branching taken offset)).pc = if taken then target else m.pc + 4 := by
  cases taken with
  | false => rfl
  | true => exact h

theorem registers_branching (offset : Half) (taken : Bool) :
    (m.perform (m.branching taken offset)).registers = m.registers := by
  cases taken <;> rfl

theorem memory_branching (offset : Half) (taken : Bool) :
    (m.perform (m.branching taken offset)).memory = m.memory := by
  cases taken <;> rfl

theorem execute_ori (rd rs : Reg) (value : Half) :
    m.execute (.imm .ori rd rs value) = .ok (m.writing rd (m.get rs ||| value.zeroExtend 32)) := rfl

theorem step_loadConstant {rd : Reg} {value : Word}
    (h : m.Carries m.pc ((loadConstant rd value).map Instr.encode)) :
    let upper := m.put .scratch (value.extractLsb' 16 16 ++ 0#16)
    m.step = (.ok (), upper) ∧ upper.step = (.ok (), upper.put rd value) := by
  intro upper
  obtain ⟨hlui, hori, -⟩ := h
  have hvalue := execute_ori (m := upper) rd .scratch (value.extractLsb' 0 16)
  rw [get_put_self _ _ _ (by decide), upper_or_lower] at hvalue
  exact ⟨step_put hlui rfl, step_put (hori.congr rfl rfl) hvalue⟩

theorem takes_loadConstant {rd : Reg} {value : Word}
    (h : m.Carries m.pc ((loadConstant rd value).map Instr.encode)) :
    m.Takes 2 ((m.put .scratch (value.extractLsb' 16 16 ++ 0#16)).put rd value) := by
  obtain ⟨hupper, hlower⟩ := step_loadConstant h
  exact .cons hupper (takes_one hlower)

theorem resolve_unless (p : Patch) {addr : Word} (ha : addr.toNat % 4 = 0) (target : Word) :
    Unless (p.obstacle addr target)
      (fun ws => ∀ m : Machine, m.pc = addr → m.Carries addr ws → p.Lands m target)
      (p.resolve addr target) := by
  cases p with
  | compare op rs rt =>
    apply (branchOffset_unless ha target).map
    rintro offset hland m rfl ⟨hw, -⟩
    exact ⟨_, step_of_execute hw rfl, registers_branching offset _, memory_branching offset _,
      pc_branching _ hland⟩
  | zero op rs =>
    apply (branchOffset_unless ha target).map
    rintro offset hland m rfl ⟨hw, -⟩
    exact ⟨_, step_of_execute hw rfl, registers_branching offset _, memory_branching offset _,
      pc_branching _ hland⟩
  | jump op =>
    apply (jumpIndex_unless addr target).map
    rintro index hland m rfl ⟨hw, -⟩
    cases op with
    | j => exact ⟨_, step_of_execute hw rfl, rfl, rfl, hland⟩
    | jal =>
      refine ⟨_, step_of_execute hw rfl, hland, ?_, rfl, ?_⟩
      · exact get_put_self m .ra (m.pc + 4) (by decide)
      · exact fun r hr => get_put_of_ne m .ra (m.pc + 4) hr
  | address rd =>
    refine ⟨_, rfl, ?_⟩
    rintro m rfl hw
    refine ⟨_, takes_loadConstant hw, ?_, fun hr => get_put_self _ rd target hr, rfl, fun r hr hs => ?_⟩
    · exact BitVec.add_assoc m.pc 4 4
    · rw [get_put_of_ne _ _ _ hr, get_put_of_ne _ _ _ hs]

end Lands

theorem resolve_exact (p : Patch) {addr : Word} (ha : addr.toNat % 4 = 0) (target : Word) :
    (∀ e, p.resolve addr target = .error e ↔ p.obstacle addr target = some e) ∧
      ∀ ws, p.resolve addr target = .ok ws →
        ∀ m : Machine, m.pc = addr → m.Carries addr ws → p.Lands m target :=
  ⟨(p.resolve_unless ha target).error_iff, fun _ h => (p.resolve_unless ha target).of_ok h⟩

theorem resolve_exact_jal :
    let m : Machine := { new .initial with
      memory := Memory.empty.setWord 0x0FFFFFFC 0x0C000000
      pc := 0x0FFFFFFC }
    (jump .jal).resolve 0x0FFFFFFC 0x10000000 = .ok [0x0C000000] ∧ (jump .jal).Lands m 0x10000000 := by
  intro m
  have hr : (jump .jal).resolve 0x0FFFFFFC 0x10000000 = .ok [0x0C000000] := rfl
  have hw : m.memory.getWord 0x0FFFFFFC = 0x0C000000 :=
    Memory.getWord_setBytes .empty 0x0FFFFFFC 0x0C000000 (by decide)
  have hc : m.Carries 0x0FFFFFFC [0x0C000000] :=
    ⟨⟨by decide, by decide, fun f hf => (List.not_mem_nil hf).elim, hw⟩, trivial⟩
  exact ⟨hr, (resolve_exact (jump .jal) (by decide) 0x10000000).2 _ hr m rfl hc⟩

end Patch

end MipsMachine
