import MipsMachine.Execution.Step

/-!
Execution that writes to the machine as it goes. The PC moves on before the instruction executes and goes
back if that fails, and services take their input byte by byte. It comes to the same as `step`, which works
out all changes before it makes any.
-/

namespace MipsMachine

namespace Console

theorem consume_zero (c : Console) : c.consume 0 = c := by
  induction c with
  | empty => rfl
  | buffered b =>
    unfold consume Buffered.consume
    rw [Guarded.access_eq]
    cases b.input.isFree <;> rfl
  | channel c => rfl
  | custom c ih => exact congrArg custom ih

theorem consume_consume (m n : Nat) (c : Console) : (c.consume m).consume n = c.consume (m + n) := by
  induction c with
  | empty => rfl
  | buffered b =>
    cases h : b.input.access <;> simp [consume, Buffered.consume, Guarded.access_update, h]
  | channel c => simp [consume]
  | custom c ih => exact congrArg custom ih

theorem readable_of_read {c d : Console} {b : Byte} (h : c.read = (some b, d)) :
    c.readable = b :: d.readable ∧ d = c.consume 1 := by
  unfold read at h
  split at h
  · cases h
  · rename_i b' rest hr
    cases h
    exact ⟨by rw [readable_consume, hr]; rfl, rfl⟩

theorem readable_of_read_none {c d : Console} (h : c.read = (none, d)) : c.readable = [] ∧ d = c := by
  unfold read at h
  split at h
  · cases h
    exact ⟨‹_›, rfl⟩
  · cases h

def readLine (line : List Byte) (c : Console) : Except ExecError (List Byte) × Console :=
  match _h : c.read with
  | (some b, d) => if b = 0x0A then (.ok line, d) else d.readLine (line ++ [b])
  | (none, d) => (if line = [] then .error .inputClosed else .ok line, d)
termination_by c.readable.length
decreasing_by
  rw [(readable_of_read _h).1]
  exact Nat.lt_succ_self _

def readPiece : Nat → List Byte → Console → Except ExecError (List Byte) × Console
  | 0, data, c => (.ok data, c)
  | n + 1, data, c =>
    match c.read with
    | (some b, d) => if b = 0x0A then (.ok (data ++ [b]), d) else readPiece n (data ++ [b]) d
    | (none, d) => (if data = [] then .error .inputClosed else .ok data, d)

theorem nextLine_nil {c : Console} (h : c.readable = []) : c.nextLine = ([], 0) := by
  simp [nextLine, h]

theorem nextLine_newline {c d : Console} (h : c.readable = 0x0A :: d.readable) : c.nextLine = ([], 1) := by
  simp [nextLine, h]

theorem nextLine_cons {c d : Console} {b : Byte} (h : c.readable = b :: d.readable) (hb : b ≠ 0x0A) :
    c.nextLine = (b :: d.nextLine.1, d.nextLine.2 + 1) := by
  unfold nextLine
  rw [h, List.takeWhile_cons_of_pos (by simpa using hb)]
  simp only [List.length_cons, Nat.add_lt_add_iff_right]
  split <;> rfl

theorem readLine_eq (line : List Byte) (c : Console) :
    c.readLine line =
      if line = [] ∧ c.nextLine.2 = 0 then (.error .inputClosed, c)
      else (.ok (line ++ c.nextLine.1), c.consume c.nextLine.2) := by
  induction line, c using readLine.induct with
  | case1 line c d h =>
    obtain ⟨hr, rfl⟩ := readable_of_read h
    rw [readLine, h, nextLine_newline hr]
    simp
  | case2 line c b d h hb ih =>
    obtain ⟨hr, hd⟩ := readable_of_read h
    rw [readLine, h, nextLine_cons hr hb]
    simp only [hb, if_false, ih]
    simp [hd, consume_consume, Nat.add_comm]
  | case3 line c d h =>
    obtain ⟨hr, rfl⟩ := readable_of_read_none h
    rw [readLine, h, nextLine_nil hr]
    by_cases hl : line = [] <;> simp [hl, consume_zero]

theorem readPiece_eq (n : Nat) (data : List Byte) (c : Console) :
    c.readPiece n data =
      if data = [] ∧ nextPiece n c.readable = [] ∧ 0 < n then (.error .inputClosed, c)
      else (.ok (data ++ nextPiece n c.readable), c.consume (nextPiece n c.readable).length) := by
  induction n generalizing data c with
  | zero =>
    have hp : nextPiece 0 c.readable = [] :=
      List.length_eq_zero_iff.mp (Nat.le_zero.mp (length_nextPiece_le _ _))
    simp [readPiece, hp, consume_zero]
  | succ n ih =>
    unfold readPiece
    cases h : c.read with
    | mk b d =>
      cases b with
      | none =>
        obtain ⟨hr, rfl⟩ := readable_of_read_none h
        by_cases hd : data = [] <;> simp [hr, hd, nextPiece, consume_zero]
      | some b =>
        obtain ⟨hr, hd⟩ := readable_of_read h
        by_cases hb : b = 0x0A
        · simp [hr, hb, nextPiece, hd]
        · simp only [hr, hb, if_false, nextPiece, ih]
          simp [hd, consume_consume, Nat.add_comm]

end Console

abbrev InPlace := EStateM ExecError Machine

namespace InPlace

variable {α : Type}

def lift (result : Except ExecError α) : InPlace α :=
  match result with
  | .ok a => return a
  | .error e => throw e

def input (f : Console → Except ExecError α × Console) : InPlace α := do
  let (result, console) := f (← get).console
  modify fun m => { m with console := console }
  lift result

def output (data : List Byte) : InPlace Unit := modify fun m => { m with console := (m.console.write data).2 }

def setPc (pc : Word) : InPlace Unit := modify fun m => { m with pc := pc }

def setReg (r : Reg) (v : Word) : InPlace Unit := modify fun m => { m with registers := m.registers.set r v }

def setHi (v : Word) : InPlace Unit := modify fun m => { m with registers := { m.registers with hi := v } }

def setLo (v : Word) : InPlace Unit := modify fun m => { m with registers := { m.registers with lo := v } }

def readString (start size : Word) : InPlace Unit := do
  if size.toInt ≤ 0 then return
  let _ ← lift (Machine.lastOfBuffer start size.toNat)
  let data ← input fun c => c.readPiece (size.toNat - 1) []
  modify fun m => { m with memory := m.memory.setBytes start (data ++ [0]) }

def serve (service : Service) : InPlace Unit := do
  let m ← get
  match service with
  | .printInt => output (Console.integerText (m.get .a0))
  | .printString => output (← lift (m.memory.string (m.get .a0)))
  | .readInt =>
    let line ← input fun c => c.readLine []
    setReg .v0 (← lift ((Console.integer? line).elim (.error .invalidInput) .ok))
  | .readString => readString (m.get .a0) (m.get .a1)
  | .exit => modify fun m => { m with halted := true }
  | .printChar => output [(m.get .a0).setWidth 8]
  | .readChar =>
    let b ← input fun c => (c.read.1.elim (.error .inputClosed) .ok, c.read.2)
    setReg .v0 (b.setWidth 32)

def syscall : InPlace Unit := do
  let code := (← get).get .v0
  serve (← lift ((Service.ofCode? code).elim (.error (.unimplementedSyscall code)) .ok))

def execute (i : Instr) : InPlace Unit := do
  let m ← get
  let trap := m.flags.trapOnOverflow
  match i with
  | .alu op rd rs rt => setReg rd (← lift (op.result trap (m.get rs) (m.get rt)))
  | .shift op rd rt amount => setReg rd (op.result (m.get rt) amount)
  | .shiftVar op rd rt rs => setReg rd (op.result (m.get rt) ((m.get rs).setWidth 5))
  | .imm op rt rs value => setReg rt (← lift (op.result trap (m.get rs) (op.extend value)))
  | .lui rt value => setReg rt (value ++ 0#16)
  | .mem op rt base offset =>
    let addr := m.get base + offset.signExtend 32
    if op.isStore then
      let memory ← lift (m.memory.write addr op.width (m.get rt))
      modify fun m => { m with memory := memory }
    else
      setReg rt (op.extend (← lift (m.memory.read addr op.width)))
  | .compare op rs rt offset =>
    if op.test (m.get rs) (m.get rt) then setPc (m.pc + (offset.signExtend 32 <<< 2))
  | .zero op rs offset =>
    if op.test (m.get rs) then setPc (m.pc + (offset.signExtend 32 <<< 2))
  | .jump op index =>
    if op = .jal then setReg .ra m.pc
    setPc (m.pc.extractLsb' 28 4 ++ index ++ 0#2)
  | .jr rs => setPc (m.get rs)
  | .jalr rd rs =>
    setReg rd m.pc
    setPc (m.get rs)
  | .hiLo .mfhi rd => setReg rd m.registers.hi
  | .hiLo .mflo rd => setReg rd m.registers.lo
  | .hiLo .mthi rs => setHi (m.get rs)
  | .hiLo .mtlo rs => setLo (m.get rs)
  | .mulDiv op rs rt =>
    let (hi, lo) ← lift (op.result (m.get rs) (m.get rt))
    setHi hi
    setLo lo
  | .syscall => syscall

def step : InPlace Unit := do
  let m ← get
  let i ← lift m.fetch
  setPc (m.pc + 4)
  try
    execute i
    modify fun m => { m with count := m.count + 1 }
  catch e =>
    setPc m.pc
    throw e

section Settle

variable {m : Machine}

def settle (m : Machine) : Except Fault Effect → EStateM.Result ExecError Machine Unit
  | .ok effect => .ok () { m.perform effect with count := m.count }
  | .error f => .error f.cause { m with pc := m.pc + 4, console := f.console }

theorem settle_ok (effect : Effect) (h : effect.exits = false) :
    settle m (.ok effect) = .ok () { m with
      pc := effect.pc
      registers :=
        let registers := effect.register.elim m.registers fun w => m.registers.set w.1 w.2
        effect.hiLo.elim registers fun w => { registers with hi := w.1, lo := w.2 }
      memory := effect.store.elim m.memory fun s => m.memory.setBytes s.1 s.2
      console := effect.console } := by
  simp [settle, Machine.perform, h]

theorem settle_lift {α : Type} (result : Except ExecError α) {f : α → InPlace Unit}
    {g : α → Except Fault Effect} (h : ∀ a, f a { m with pc := m.pc + 4 } = settle m (g a)) :
    (lift result >>= f) { m with pc := m.pc + 4 } = settle m (m.lift result >>= g) := by
  cases result with
  | ok a => exact h a
  | error e => rfl

theorem settle_store (addr : Word) (width : Width) (v : Word) :
    (lift (m.memory.write addr width v) >>= fun memory => modify fun m => { m with memory := memory } :
      InPlace Unit) { m with pc := m.pc + 4 } =
    settle m (m.lift (Memory.checkAccess addr width) >>= fun _ =>
      .ok { m.next with store := some (addr, width.bytes v) }) := by
  unfold Memory.write
  cases Memory.checkAccess addr width with
  | ok _ => exact (settle_ok { m.next with store := some (addr, width.bytes v) } rfl).symm
  | error e => rfl

theorem settle_branch (taken : Bool) (offset : Half) :
    (if taken then setPc (m.pc + 4 + (offset.signExtend 32 <<< 2)) else pure () : InPlace Unit)
      { m with pc := m.pc + 4 } = settle m (.ok (m.branching taken offset)) := by
  cases taken with
  | true => exact (settle_ok { m.next with pc := m.pc + 4 + (offset.signExtend 32 <<< 2) } rfl).symm
  | false => exact (settle_ok m.next rfl).symm

theorem input_bind {α : Type} {f : Console → Except ExecError α × Console} {g : α → InPlace Unit} :
    (input f >>= g) m = (lift (f m.console).1 >>= g) { m with console := (f m.console).2 } := rfl

theorem readString_eq (m : Machine) (start size : Word) :
    readString start size { m with pc := m.pc + 4 } = settle m (m.readString start size) := by
  unfold readString Machine.readString
  by_cases hs : size.toInt ≤ 0
  · rw [if_pos hs, if_pos hs, settle_ok] <;> rfl
  · rw [if_neg hs, if_neg hs]
    cases hl : Machine.lastOfBuffer start size.toNat with
    | error e => rfl
    | ok last =>
      change (input (fun c => c.readPiece (size.toNat - 1) []) >>= fun data =>
        modify fun m => { m with memory := m.memory.setBytes start (data ++ [0]) }) _ = _
      rw [input_bind, Console.readPiece_eq]
      dsimp only
      simp only [List.nil_append, true_and, Nat.sub_pos_iff_lt]
      split
      · rfl
      · rw [settle_ok] <;> rfl

theorem readInt_eq (m : Machine) : serve .readInt { m with pc := m.pc + 4 } = settle m m.readInt := by
  unfold Machine.readInt
  change (input (fun c => c.readLine []) >>= fun line =>
    lift ((Console.integer? line).elim (.error .invalidInput) .ok) >>= setReg .v0) _ = _
  rw [input_bind, Console.readLine_eq]
  dsimp only
  simp only [List.nil_append, true_and]
  split
  · rfl
  · change (lift ((Console.integer? _).elim (.error .invalidInput) .ok) >>= setReg .v0) _ = _
    cases Console.integer? m.console.nextLine.1 with
    | none => rfl
    | some v => exact (settle_ok { m.writing .v0 v with console := m.console.consume _ } rfl).symm

theorem serve_eq (m : Machine) (service : Service) (h : Service.ofCode? (m.get .v0) = some service) :
    serve service { m with pc := m.pc + 4 } = settle m m.syscall := by
  unfold Machine.syscall
  rw [h]
  cases service with
  | printInt | printChar => exact (settle_ok (m.printing _) rfl).symm
  | printString =>
    change (lift (m.memory.string (m.get .a0)) >>= output) _ = _
    cases m.memory.string (m.get .a0) with
    | ok data => exact (settle_ok (m.printing data) rfl).symm
    | error e => rfl
  | readInt => exact readInt_eq m
  | readString => exact readString_eq m _ _
  | exit =>
    simp only [settle, Machine.perform, Bool.or_true]
    rfl
  | readChar =>
    change (input (fun c => (c.read.1.elim (.error .inputClosed) .ok, c.read.2)) >>= fun b : Byte =>
      setReg .v0 (b.setWidth 32)) _ = _
    rw [input_bind]
    cases hr : m.console.read with
    | mk b c =>
      cases b with
      | none =>
        obtain ⟨-, rfl⟩ := Console.readable_of_read_none hr
        rfl
      | some b => exact (settle_ok { m.writing .v0 (b.setWidth 32) with console := c } rfl).symm

theorem syscall_eq (m : Machine) : syscall { m with pc := m.pc + 4 } = settle m m.syscall := by
  change (lift ((Service.ofCode? (m.get .v0)).elim (.error (.unimplementedSyscall _)) .ok) >>= serve) _ = _
  cases hs : Service.ofCode? (m.get .v0) with
  | none =>
    unfold Machine.syscall
    rw [hs]
    rfl
  | some service => exact serve_eq m service hs

theorem execute_eq (m : Machine) (i : Instr) :
    execute i { m with pc := m.pc + 4 } = settle m (m.execute i) := by
  cases i with
  | alu op rd rs rt => exact settle_lift _ fun v => (settle_ok (m.writing rd v) rfl).symm
  | imm op rt rs value => exact settle_lift _ fun v => (settle_ok (m.writing rt v) rfl).symm
  | mulDiv op rs rt => exact settle_lift _ fun v => (settle_ok { m.next with hiLo := some v } rfl).symm
  | mem op rt base offset =>
    change (if op.isStore then lift (m.memory.write _ op.width _) >>= _ else lift _ >>= _ : InPlace Unit) _ =
      settle m (if op.isStore then _ else _)
    by_cases ho : op.isStore = true
    · rw [if_pos ho, if_pos ho]
      exact settle_store _ op.width (m.get rt)
    · rw [if_neg ho, if_neg ho]
      exact settle_lift _ fun v => (settle_ok (m.writing rt (op.extend v)) rfl).symm
  | compare op rs rt offset => exact settle_branch _ offset
  | zero op rs offset => exact settle_branch _ offset
  | jump op index => cases op <;> rw [Machine.execute, settle_ok] <;> rfl
  | hiLo op r => cases op <;> rw [Machine.execute, settle_ok] <;> rfl
  | shift | shiftVar | lui | jr | jalr => rw [Machine.execute, settle_ok] <;> rfl
  | syscall => exact syscall_eq m

end Settle

def outcome : Except ExecError Unit × Machine → EStateM.Result ExecError Machine Unit
  | (.ok (), m) => .ok () m
  | (.error e, m) => .error e m

theorem step_eq (m : Machine) : step m = outcome m.step := by
  unfold Machine.step
  change (lift m.fetch >>= fun i => setPc (m.pc + 4) >>= fun _ => tryCatch (execute i >>= fun _ =>
    modify fun m => { m with count := m.count + 1 }) fun e => setPc m.pc >>= fun _ => throw e) m = _
  cases hf : m.fetch with
  | error e =>
    have he : m.effect = .error ⟨e, m.console⟩ := by
      unfold Machine.effect
      rw [hf]
      rfl
    rw [he]
    rfl
  | ok i =>
    have he : m.effect = m.execute i := by
      unfold Machine.effect
      rw [hf]
      rfl
    rw [he]
    change EStateM.tryCatch (EStateM.bind (execute i) _) _ { m with pc := m.pc + 4 } = _
    unfold EStateM.tryCatch EStateM.bind
    rw [execute_eq]
    cases m.execute i with
    | ok effect => rfl
    | error f => rfl

end InPlace

end MipsMachine
