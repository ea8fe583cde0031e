import MipsMachine.Proofs.Assembly.Reachable
import MipsMachine.Proofs.Checked.Patch
import MipsMachine.Proofs.Checked.Syscall
import MipsMachine.Proofs.Execution.Arithmetic
import MipsMachine.Proofs.Execution.Iteration

namespace MipsMachine.Checked

section Results

def shifted (op : ShiftOp) (v : Word) (amount : Nat) : Option Word :=
  match op with
  | .sll => shl v amount
  | .srl => shr v amount
  | .sra => sar v amount

def mul {n : Nat} (a b : BitVec n) : Option (BitVec n) := if a.toNat * b.toNat < 2 ^ n then some (a * b) else none

def division (b : Word) (halves : Word × Word) : Option (Word × Word) := if b = 0 then none else some halves

def mulDiv (op : MulDivOp) (a b : Word) : Attempt ExecError (Word × Word) :=
  match op with
  | .mult => do
    let product := BitVec.ofInt 64 (← int64 (a.toInt * b.toInt))
    return ((← sar product 32).setWidth 32, product.setWidth 32)
  | .multu => do
    let product ← mul (a.setWidth 64) (b.setWidth 64)
    return ((← shr product 32).setWidth 32, product.setWidth 32)
  | .div => do if b = 0 then throw .divideByZero else division b (a.srem b, a.sdiv b)
  | .divu => do if b = 0 then throw .divideByZero else division b (a % b, a / b)

theorem shifted_eq (op : ShiftOp) (v : Word) (amount : BitVec 5) :
    shifted op v amount.toNat = some (op.result v amount) := by
  have h : amount.toNat < 32 := amount.isLt
  cases op with
  | sll => exact shl_eq v h
  | srl => exact shr_eq v h
  | sra => exact sar_eq v h

theorem division_eq {b : Word} (h : b ≠ 0) (halves : Word × Word) : division b halves = some halves := if_neg h

theorem setWidth_sshiftRight (p : BitVec 64) : (p.sshiftRight 32).setWidth 32 = p.extractLsb' 32 32 := by
  apply BitVec.eq_of_getLsbD_eq
  intro i hi
  simp only [BitVec.getLsbD_setWidth, BitVec.getLsbD_sshiftRight, BitVec.getLsbD_extractLsb']
  grind

theorem mulDiv_eq (op : MulDivOp) (a b : Word) : mulDiv op a b = total (op.result a b) := by
  have hlow (p : BitVec 64) : p.setWidth 32 = p.extractLsb' 0 32 := BitVec.setWidth_eq_extractLsb' (by decide)
  cases op with
  | mult =>
    -- the product of two signed words is at most 2 ^ 62 away from zero
    have hle := BitVec.toInt_mul_toInt_le (x := a) (y := b)
    have hge := BitVec.le_toInt_mul_toInt (x := a) (y := b)
    have hp : BitVec.ofInt 64 (a.toInt * b.toInt) = a.signExtend 64 * b.signExtend 64 := by
      rw [← toInt_product, BitVec.ofInt_toInt]
    rw [mulDiv, lift_eq (int64_eq (by omega) (by omega)), ok_bind, hp]
    dsimp only
    rw [lift_eq (sar_eq _ (by decide)), ok_bind, setWidth_sshiftRight, hlow]
    rfl
  | multu =>
    have ha := a.isLt
    have hb := b.isLt
    have hlt : a.toNat * b.toNat < 2 ^ 32 * 2 ^ 32 := Nat.mul_lt_mul'' ha hb
    have hm : mul (a.setWidth 64) (b.setWidth 64) = some (a.setWidth 64 * b.setWidth 64) := by
      apply if_pos
      rw [BitVec.toNat_setWidth_of_le (by decide), BitVec.toNat_setWidth_of_le (by decide)]
      omega
    rw [mulDiv, lift_eq hm, ok_bind, lift_eq (shr_eq _ (by decide)), ok_bind,
      BitVec.setWidth_ushiftRight_eq_extractLsb, hlow]
    rfl
  | div | divu =>
    rw [mulDiv, MulDivOp.result]
    split
    · rfl
    · rename_i hb
      exact lift_eq (division_eq hb _)

end Results

section Instructions

def branching (m : Machine) (taken : Bool) (offset : Half) : Option Effect :=
  if taken then do return { m.next with pc := m.pc + 4 + (← shl (offset.signExtend 32) 2) } else some m.next

def jumpTarget (m : Machine) (index : BitVec 26) : Option Word := do
  return ((m.pc + 4) &&& 0xF0000000) ||| (← shl (index.setWidth 32) 2)

def execute (m : Machine) (i : Instr) : Attempt Fault Machine := do
  let trap := m.flags.trapOnOverflow
  match i with
  | .alu op rd rs rt =>
    let v ← total (m.lift (op.result trap (← get m.registers rs) (← get m.registers rt)))
    perform m (m.writing rd v)
  | .shift op rd rt amount => perform m (m.writing rd (← shifted op (← get m.registers rt) amount.toNat))
  | .shiftVar op rd rt rs =>
    let amount := (← get m.registers rs) &&& 0x1F
    perform m (m.writing rd (← shifted op (← get m.registers rt) amount.toNat))
  | .imm op rt rs value =>
    let v ← total (m.lift (op.result trap (← get m.registers rs) (op.extend value)))
    perform m (m.writing rt v)
  | .lui rt value => perform m (m.writing rt (← shl (value.setWidth 32) 16))
  | .mem op rt base offset =>
    let addr := (← get m.registers base) + offset.signExtend 32
    if op.isStore then
      let memory ← faulting m (write m.memory addr op.width (← get m.registers rt))
      return { m.perform m.next with memory }
    else
      let v ← faulting m (read m.memory addr op.width)
      perform m (m.writing rt (op.extend v))
  | .compare op rs rt offset =>
    let taken := op.test (← get m.registers rs) (← get m.registers rt)
    perform m (← branching m taken offset)
  | .zero op rs offset => perform m (← branching m (op.test (← get m.registers rs)) offset)
  | .jump .j index => perform m { m.next with pc := ← jumpTarget m index }
  | .jump .jal index => perform m (m.linking .ra (← jumpTarget m index))
  | .jr rs => perform m { m.next with pc := ← get m.registers rs }
  | .jalr rd rs => perform m (m.linking rd (← get m.registers rs))
  | .hiLo .mfhi rd => perform m (m.writing rd m.registers.hi)
  | .hiLo .mflo rd => perform m (m.writing rd m.registers.lo)
  | .hiLo .mthi rs => perform m { m.next with hiLo := some (← get m.registers rs, m.registers.lo) }
  | .hiLo .mtlo rs => perform m { m.next with hiLo := some (m.registers.hi, ← get m.registers rs) }
  | .mulDiv op rs rt =>
    let halves ← faulting m (mulDiv op (← get m.registers rs) (← get m.registers rt))
    perform m { m.next with hiLo := some halves }
  | .syscall => syscall m

theorem branching_eq (m : Machine) (taken : Bool) (offset : Half) :
    branching m taken offset = some (m.branching taken offset) := by
  unfold branching Machine.branching
  split
  · rw [shl_eq _ (by decide)]
    rfl
  · rfl

theorem jumpTarget_eq (m : Machine) (index : BitVec 26) : jumpTarget m index = some (m.jumpTarget index) := by
  have ht : ((m.pc + 4) &&& 0xF0000000 : Word) ||| (index.setWidth 32 : Word) <<< 2 = m.jumpTarget index := by
    have hmask : (0xF0000000 : Word) = BitVec.allOnes 32 <<< 28 := by decide
    rw [hmask]
    apply BitVec.eq_of_getLsbD_eq
    intro i hi
    simp only [Machine.jumpTarget, BitVec.getLsbD_append, BitVec.getLsbD_or, BitVec.getLsbD_and,
      BitVec.getLsbD_shiftLeft, BitVec.getLsbD_setWidth, BitVec.getLsbD_extractLsb', BitVec.getLsbD_allOnes]
    grind
  rw [jumpTarget, shl_eq _ (by decide), ← ht]
  rfl

theorem execute_eq (m : Machine) (i : Instr) : execute m i = total ((m.execute i).map m.perform) := by
  cases i with
  | alu op rd rs rt =>
    simp only [execute, lift_get, ok_bind]
    exact total_bind_map fun v _ => lift_perform m (m.writing rd v)
  | shift op rd rt amount =>
    simp only [execute, lift_get, ok_bind, lift_eq (shifted_eq op (m.get rt) amount)]
    exact lift_perform m _
  | shiftVar op rd rt rs =>
    have hamount : (m.get rs &&& 0x1F).toNat = ((m.get rs).setWidth 5).toNat := by
      rw [BitVec.toNat_and, BitVec.toNat_setWidth]
      exact Nat.and_two_pow_sub_one_eq_mod _ 5
    simp only [execute, lift_get, ok_bind, hamount, lift_eq (shifted_eq op (m.get rt) ((m.get rs).setWidth 5))]
    exact lift_perform m _
  | imm op rt rs value =>
    simp only [execute, lift_get, ok_bind]
    exact total_bind_map fun v _ => lift_perform m (m.writing rt v)
  | lui rt value =>
    have hv : value.setWidth 32 <<< 16 = value ++ 0#16 := by
      apply BitVec.eq_of_getLsbD_eq
      intro i hi
      simp only [BitVec.getLsbD_append, BitVec.getLsbD_shiftLeft, BitVec.getLsbD_setWidth]
      grind
    simp only [execute, lift_eq (shl_eq (value.setWidth 32) (by decide : 16 < 32)), ok_bind, hv]
    exact lift_perform m _
  | mem op rt base offset =>
    simp only [execute, lift_get, ok_bind, write_eq, read_eq, faulting_total, Machine.execute]
    split
    · rw [Memory.write]
      cases Memory.checkAccess (m.get base + offset.signExtend 32) op.width <;> rfl
    · exact total_bind_map fun v _ => lift_perform m (m.writing rt (op.extend v))
  | compare op rs rt offset =>
    simp only [execute, lift_get, ok_bind, lift_eq (branching_eq m _ offset)]
    exact lift_perform m _
  | zero op rs offset =>
    simp only [execute, lift_get, ok_bind, lift_eq (branching_eq m _ offset)]
    exact lift_perform m _
  | jump op index =>
    cases op <;> simp only [execute, ok_bind, lift_eq (jumpTarget_eq m index)] <;> exact lift_perform m _
  | jr rs =>
    simp only [execute, lift_get, ok_bind]
    exact lift_perform m _
  | jalr rd rs =>
    simp only [execute, lift_get, ok_bind]
    exact lift_perform m _
  | hiLo op reg =>
    cases op <;> simp only [execute, lift_get, ok_bind] <;> exact lift_perform m _
  | mulDiv op rs rt =>
    simp only [execute, lift_get, ok_bind, mulDiv_eq, faulting_total]
    exact total_bind_map fun halves _ => lift_perform m { m.next with hiLo := some halves }
  | syscall => exact syscall_eq m

end Instructions

section Steps

def covering (m : Machine) : Option (Option Fixup) :=
  if m.symbols.hasUnresolved then fixupAt m.pc m.symbols.fixups else some none

def fetch (m : Machine) : Attempt ExecError Instr := do
  match ← covering m with
  | some f => throw (.unresolvedFixup f.label)
  | none =>
    if Segment.of? m.pc ≠ some .text then throw (.accessViolation m.pc)
    else
      let w ← read m.memory m.pc .word
      match ← decode w with
      | some i => return i
      | none => throw (.unknownInstruction w)

def attempt (m : Machine) : Attempt Fault Machine := do
  let i ← faulting m (fetch m)
  let _ ← names i
  execute m i

def step (m : Machine) : Option (Except ExecError Unit × Machine) := do
  match ← (attempt m).run with
  | .ok m => return (.ok (), m)
  | .error f => return (.error f.cause, { m with console := f.console })

theorem fetch_eq {m : Machine} (h : m.Consistent) : fetch m = total m.fetch := by
  -- pending references end within the text segment, far below the last address
  have hstop : ∀ f ∈ m.symbols.fixups, f.stop < 0x100000000 := by
    intro f hf
    have hbound : f.stop ≤ 0x10000000 := Nat.le_trans (h.placed f hf).ref.2.2 h.bounds.text_stop
    omega
  have hcover : covering m = some (if m.symbols.hasUnresolved then m.symbols.fixupAt m.pc else none) := by
    unfold covering
    split
    · exact fixupAt_eq hstop m.pc
    · rfl
  rw [fetch, lift_eq hcover, ok_bind]
  -- a reference that covers the PC ends the fetch before a word is read
  by_cases hc : m.symbols.hasUnresolved = true → m.symbols.fixupAt m.pc = none
  · have hnone : (if m.symbols.hasUnresolved then m.symbols.fixupAt m.pc else none) = none := by
      split
      · exact hc ‹_›
      · rfl
    rw [hnone, Machine.fetch_settled hc]
    dsimp only
    split
    · rfl
    · rw [read_eq]
      refine total_bind fun w _ => ?_
      rw [lift_eq (decode_eq w), ok_bind, Instr.decode]
      cases Instr.decode? w <;> rfl
  · obtain ⟨hu, hf⟩ := Classical.not_imp.mp hc
    obtain ⟨f, hf⟩ := Option.ne_none_iff_exists'.mp hf
    rw [if_pos hu, hf, Machine.fetch_covered hu hf]
    rfl

theorem attempt_eq {m : Machine} (h : m.Consistent) : attempt m = total (m.effect.map m.perform) := by
  rw [attempt, fetch_eq h, faulting_total, Machine.effect]
  refine total_bind_map fun i _ => ?_
  rw [lift_eq (names_eq i), ok_bind, execute_eq]

theorem step_eq {m : Machine} (h : m.Consistent) : step m = some m.step := by
  rw [step, attempt_eq h, Machine.step]
  cases m.effect <;> rfl

end Steps

section Runs

def check (b : Breakpoint) (m : Machine) : Option Bool :=
  match b with
  | .reg r test => do return test.check (← get m.registers r)
  | .mem addr width test => do
    match ← (read m.memory addr width).run with
    | .ok v => return test.check v
    | .error _ => return false
  | b => some (b.check m)

def stops (m : Machine) : Option Bool := if m.halted then some true else m.breakpoints.anyM fun b => check b m

def loop (start limit : BitVec 64) (fuel : Nat) (m : Machine) : Option (Run Unit) :=
  match fuel with
  | 0 => none
  | fuel + 1 =>
    if m.pc = m.textCursor then some ⟨.ok (), (), m⟩
    else if m.count - start < limit then do
      match ← step m with
      | (.error e, m) => return ⟨.error e, (), m⟩
      | (.ok (), m) => if ← stops m then return ⟨.ok (), (), m⟩ else loop start limit fuel m
    else some ⟨.ok (), (), m⟩

def runWithLimit (limit : BitVec 64) (m : Machine) : Option (Run Unit) :=
  match m.symbols.fixups with
  | f :: _ => some ⟨.error (.unresolvedFixup f.label), (), m⟩
  | [] => loop m.count limit (limit.toNat + 1) { m with halted := false }

theorem check_eq (b : Breakpoint) (m : Machine) : check b m = some (b.check m) := by
  cases b with
  | reg r test =>
    rw [check, get_eq]
    rfl
  | mem addr width test =>
    rw [check, read_eq, Breakpoint.check]
    cases m.memory.read addr width <;> rfl
  | _ => rfl

theorem stops_eq (m : Machine) : stops m = some m.stops := by
  rw [stops, anyM_some (check_eq · m), Machine.stops]
  cases m.halted <;> rfl

theorem loop_eq {m : Machine} (h : m.Consistent) (start limit : BitVec 64) (fuel : Nat) :
    loop start limit fuel m = m.loop (Machine.withinLimit start limit) fuel () := by
  -- a step asks for consistency and leaves it, so the machine varies in the induction
  induction fuel generalizing m with
  | zero => rfl
  | succ fuel ih =>
    rw [loop, Machine.loop]
    split
    · rfl
    rw [Machine.withinLimit]
    by_cases hl : m.count - start < limit
    · rw [if_pos hl, decide_eq_true hl, step_eq h, some_bind]
      have hnext : m.step.2.Consistent := h.step
      dsimp only
      generalize m.step = next at hnext ⊢
      obtain ⟨e | _, m'⟩ := next
      · rfl
      · dsimp only
        rw [stops_eq, some_bind, ih hnext]
        split <;> rfl
    · rw [if_neg hl, decide_eq_false hl]

theorem runWithLimit_eq {m : Machine} (h : m.Consistent) (limit : BitVec 64) :
    runWithLimit limit m = m.runWithLimit limit := by
  have hr : m.resumed.Consistent := h.congr rfl rfl
  unfold runWithLimit Machine.runWithLimit
  cases hf : m.symbols.fixups with
  | nil =>
    rw [Machine.runWhile_eq hf, ← loop_eq hr]
    rfl
  | cons f fs => exact (Machine.runWhile_pending hf).symm

theorem exists_runWithLimit (m : Machine) (limit : BitVec 64) : ∃ r, m.runWithLimit limit = some r := by
  cases hf : m.symbols.fixups with
  | nil =>
    obtain ⟨k, hk, s, hs⟩ := Machine.exists_first_limit m.resumed limit.toNat
    exact ⟨_, hs.runWithLimit_eq hf hk⟩
  | cons f fs => exact ⟨_, Machine.runWhile_pending hf⟩

end Runs

end MipsMachine.Checked
