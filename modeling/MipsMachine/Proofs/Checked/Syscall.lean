import MipsMachine.Proofs.Checked.Encoding
import MipsMachine.Proofs.Checked.Memory
import MipsMachine.Proofs.Memory.Buffer
import MipsMachine.Proofs.Memory.CString

namespace MipsMachine.Checked

section Effects

theorem lift_get {ε : Type} (m : Machine) (r : Reg) :
    (liftM (get m.registers r) : Attempt ε Word) = total (.ok (m.get r)) := lift_eq (get_eq m.registers r)

def perform (m : Machine) (e : Effect) : Option Machine := do
  let registers ← e.register.elim (some m.registers) fun w => set m.registers w.1 w.2
  return { m with registers }.perform { e with register := none }

def faulting {α : Type} (m : Machine) (x : Attempt ExecError α) : Attempt Fault α :=
  relabel (fun cause => ⟨cause, m.console⟩) x

theorem perform_eq (m : Machine) (e : Effect) : perform m e = some (m.perform e) := by
  obtain ⟨pc, register, hiLo, store, console, exits⟩ := e
  unfold perform
  cases register with
  | none => rfl
  | some w =>
    rw [Option.elim_some, set_eq]
    rfl

theorem lift_perform {ε : Type} (m : Machine) (e : Effect) :
    (liftM (perform m e) : Attempt ε Machine) = total (.ok (m.perform e)) := lift_eq (perform_eq m e)

theorem faulting_total {α : Type} (m : Machine) (r : Except ExecError α) :
    faulting m (total r) = total (m.lift r) := rfl

end Effects

section Services

def stringWithin (m : Memory) : Nat → Word → Attempt ExecError (List Byte)
  | 0, _ => ExceptT.mk none
  | fuel + 1, addr => do
    let v ← read m addr .byte
    if v = 0 then return [] else return v.setWidth 8 :: (← stringWithin m fuel (addr + 1))

def stringAt (m : Memory) (addr : Word) : Attempt ExecError (List Byte) :=
  stringWithin m (Segment.stack.stop.toNat - addr.toNat + 1) addr

def lastOfBuffer (start : Word) (size : Nat) : Attempt ExecError Word := do
  let past ← sub size 1
  if 0x100000000 ≤ start.toNat + past then throw (.accessViolation start)
  else
    let last := start + BitVec.ofNat 32 past
    checkAccess start .byte
    checkAccess last .byte
    if Segment.of? start ≠ Segment.of? last then throw (.accessViolation last) else return last

def readString (m : Machine) (start size : Word) : Attempt Fault Machine :=
  if size.toInt ≤ 0 then perform m m.next
  else do
    let _ ← faulting m (lastOfBuffer start size.toNat)
    let data := Console.nextPiece (← sub size.toNat 1) m.console.readable
    if data = [] ∧ 1 < size.toNat then throw ⟨.inputClosed, m.console⟩
    else
      let memory ← setLocated m.memory (← addresses 1 start (data ++ [0]))
      return { m.perform { m.next with console := m.console.consume data.length } with memory }

def syscall (m : Machine) : Attempt Fault Machine := do
  let code ← get m.registers .v0
  let arg ← get m.registers .a0
  match Service.ofCode? code with
  | none => throw ⟨.unimplementedSyscall code, m.console⟩
  | some .printInt => perform m (m.printing (Console.integerText arg))
  | some .printString => do perform m (m.printing (← faulting m (stringAt m.memory arg)))
  | some .readInt => do perform m (← total m.readInt)
  | some .readString => do readString m arg (← get m.registers .a1)
  | some .exit => perform m { m.next with exits := true }
  | some .printChar => perform m (m.printing [arg.setWidth 8])
  | some .readChar =>
    match m.console.read with
    | (some b, console) => perform m { m.writing .v0 (b.setWidth 32) with console := console }
    | (none, _) => throw ⟨.inputClosed, m.console⟩

theorem stringWithin_eq (m : Memory) (fuel : Nat) (addr : Word) :
    stringWithin m fuel addr = ExceptT.mk (m.stringWithin fuel addr) := by
  induction fuel generalizing addr with
  | zero => rfl
  | succ fuel ih =>
    rw [stringWithin, read_eq, Memory.stringWithin]
    cases m.read addr .byte with
    | error e => rfl
    | ok v =>
      rw [ok_bind, ih]
      dsimp only
      split
      · rfl
      · cases m.stringWithin fuel (addr + 1) with
        | none => rfl
        | some r => cases r <;> rfl

theorem stringAt_eq (m : Memory) (addr : Word) : stringAt m addr = total (m.string addr) := by
  rw [stringAt, stringWithin_eq, Memory.stringWithin_eq]
  rfl

theorem lastOfBuffer_eq {start : Word} {size : Nat} (h : 1 ≤ size) :
    lastOfBuffer start size = total (Machine.lastOfBuffer start size) := by
  rw [lastOfBuffer, lift_eq (sub_eq h), ok_bind, Machine.lastOfBuffer]
  split
  · rfl
  · dsimp only
    rw [checkAccess_eq, checkAccess_eq]
    refine total_bind fun _ _ => total_bind fun _ _ => ?_
    split <;> rfl

theorem readString_eq (m : Machine) (start size : Word) :
    readString m start size = total ((m.readString start size).map m.perform) := by
  unfold readString Machine.readString
  split
  · exact lift_perform m m.next
  · rename_i hs
    have hsize : 1 ≤ size.toNat := by
      by_contra hz
      have hzero : size = 0 := BitVec.eq_of_toNat_eq (by simpa using hz)
      exact hs (hzero ▸ Int.le_refl 0)
    rw [lastOfBuffer_eq hsize, faulting_total]
    cases hl : Machine.lastOfBuffer start size.toNat with
    | error e => rfl
    | ok last =>
      have hend : start.toNat + (size.toNat - 1) < 0x80000000 := (Machine.isBuffer_of_lastOfBuffer hl).stop_le
      have hlen := Console.length_nextPiece_le (size.toNat - 1) m.console.readable
      refine (ok_bind last _).trans ?_
      rw [lift_eq (sub_eq hsize), ok_bind]
      dsimp only
      split
      · rfl
      · have haddr : addresses 1 start (Console.nextPiece (size.toNat - 1) m.console.readable ++ [0]) =
            some (located 1 start (Console.nextPiece (size.toNat - 1) m.console.readable ++ [0])) := by
          apply addresses_eq
          rw [List.length_append, List.length_singleton]
          omega
        rw [lift_eq haddr, ok_bind, lift_eq (setLocated_located _ _ _)]
        rfl

theorem syscall_eq (m : Machine) : syscall m = total (m.syscall.map m.perform) := by
  rw [syscall, lift_get, ok_bind, lift_get, ok_bind, Machine.syscall]
  cases Service.ofCode? (m.get .v0) with
  | none => rfl
  | some service =>
    cases service with
    | printInt | exit | printChar => exact lift_perform m _
    | printString =>
      dsimp only
      rw [stringAt_eq, faulting_total]
      cases m.memory.string (m.get .a0) with
      | error e => rfl
      | ok data => exact lift_perform m (m.printing data)
    | readInt =>
      dsimp only
      cases m.readInt with
      | error f => rfl
      | ok e => exact lift_perform m e
    | readString =>
      dsimp only
      rw [lift_get, ok_bind, readString_eq]
    | readChar =>
      dsimp only
      generalize m.console.read = input
      obtain ⟨b | b, console⟩ := input
      · rfl
      · exact lift_perform m { m.writing .v0 (b.setWidth 32) with console }

end Services

end MipsMachine.Checked
