import MipsMachine.Proofs.Assembly.Reachable

namespace MipsMachine.Machine

/-- The machines that a program can bring about by calling and by writing to the parts open to it. -/
inductive Driven : Machine → Prop
  | new (flags : Flags) : Driven (new flags)
  | assemble {m : Machine} (h : Driven m) (s : Stmt) : Driven (m.assemble s).2
  | define {m : Machine} (h : Driven m) (label : String) (addr : Word) : Driven (m.define label addr).2
  | emitText {m : Machine} (h : Driven m) (word : Word) : Driven (m.emitText word).2
  | emitByte {m : Machine} (h : Driven m) (byte : Byte) : Driven (m.emitByte byte).2
  | emitHalf {m : Machine} (h : Driven m) (half : Half) : Driven (m.emitHalf half).2
  | emitWord {m : Machine} (h : Driven m) (word : Word) : Driven (m.emitWord word).2
  | emitAsciiz {m : Machine} (h : Driven m) (text : String) : Driven (m.emitAsciiz text).2
  | step {m : Machine} (h : Driven m) : Driven m.step.2
  | run {m : Machine} (h : Driven m) {fuel : Nat} {r : Run Unit} (hr : m.run fuel = some r) :
      Driven r.machine
  | runWithLimit {m : Machine} (h : Driven m) {limit : BitVec 64} {r : Run Unit}
      (hr : m.runWithLimit limit = some r) : Driven r.machine
  | reset {m : Machine} (h : Driven m) : Driven m.reset
  | setPc {m : Machine} (h : Driven m) (pc : Word) : Driven { m with pc }
  | setRegister {m : Machine} (h : Driven m) (r : Reg) (v : Word) :
      Driven { m with registers := m.registers.set r v }
  | setHiLo {m : Machine} (h : Driven m) (hi lo : Word) :
      Driven { m with registers := { m.registers with hi, lo } }
  | setMemory {m : Machine} (h : Driven m) (memory : Memory) : Driven { m with memory }
  | setFlags {m : Machine} (h : Driven m) (flags : Flags) : Driven { m with flags }
  | setBreakpoints {m : Machine} (h : Driven m) (breakpoints : List Breakpoint) : Driven { m with breakpoints }
  | setConsole {m : Machine} (h : Driven m) (console : Console) : Driven { m with console }

structure Invariant (m : Machine) : Prop where
  zero : m.get .zero = 0
  text_aligned : m.textCursor.toNat % 4 = 0
  text_cursor : Segment.text.start ≤ m.textCursor ∧ m.textCursor ≤ Segment.text.stop
  data_cursor : Segment.data.start ≤ m.dataCursor ∧ m.dataCursor ≤ Segment.data.stop
  aligned : ∀ f ∈ m.symbols.fixups, f.addr.toNat % 4 = 0
  increasing : m.symbols.fixups.Pairwise fun f g => f.addr < g.addr
  disjoint : m.symbols.fixups.Pairwise fun f g =>
    ∀ a, f.addr.toNat ≤ a ∧ a < f.stop → ¬ (g.addr.toNat ≤ a ∧ a < g.stop)
  inside : ∀ f ∈ m.symbols.fixups, Segment.text.start ≤ f.addr ∧ f.stop ≤ m.textCursor.toNat
  unknown : ∀ f ∈ m.symbols.fixups, m.symbols.lookup f.label = none

theorem Consistent.invariant {m : Machine} (h : m.Consistent) (hz : m.get .zero = 0) : m.Invariant where
  zero := hz
  text_aligned := h.bounds.text_aligned
  text_cursor := ⟨h.bounds.text_start, h.bounds.text_stop⟩
  data_cursor := ⟨h.bounds.data_start, h.bounds.data_stop⟩
  aligned f hf := (h.placed f hf).ref.2.1
  increasing := h.sorted.imp fun {f _} hs => Nat.lt_of_lt_of_le f.addr_lt_stop hs
  disjoint := h.sorted.imp fun hs _ hf hg => Nat.not_lt.mpr (Nat.le_trans hs hg.1) hf.2
  inside f hf := ⟨(h.placed f hf).ref.1, (h.placed f hf).ref.2.2⟩
  unknown := h.unknown

section Zero

variable {m : Machine}

theorem get_perform (m : Machine) (e : Effect) (r : Reg) :
    (m.perform e).get r = (e.register.elim m.registers fun w => m.registers.set w.1 w.2).get r := by
  unfold perform get
  cases e.hiLo <;> rfl

theorem get_zero_perform (m : Machine) (e : Effect) : (m.perform e).get .zero = m.get .zero := by
  rw [get_perform]
  cases e.register with
  | none => rfl
  | some w => exact m.registers.get_zero_set w.1 w.2

theorem get_zero_step (m : Machine) : m.step.2.get .zero = m.get .zero := by
  unfold step
  cases m.effect with
  | error f => rfl
  | ok e => exact get_zero_perform m e

theorem registers_apply {α : Type} (m : Machine) (answer : Plan → α) (p : Except AsmError Plan) :
    (m.apply answer p).2.registers = m.registers := by
  cases p <;> rfl

theorem registers_emitText (m : Machine) (word : Word) : (m.emitText word).2.registers = m.registers := by
  obtain ⟨memory, cursor, h⟩ := m.emitText_eq word
  rw [h]

theorem registers_emitData (m : Machine) (bytes : List Byte) (alignment : Nat) :
    (m.emitData bytes alignment).2.registers = m.registers := by
  obtain ⟨memory, cursor, h⟩ := m.emitData_eq bytes alignment
  rw [h]

end Zero

namespace Driven

variable {m : Machine}

theorem reachable (h : m.Driven) : m.Reachable := by
  induction h with
  | new flags => exact .new flags
  | assemble _ s ih => exact ih.assemble s
  | define _ label addr ih => exact ih.define label addr
  | emitText _ word ih => exact ih.emitText word
  | emitByte _ byte ih => exact ih.emitByte byte
  | emitHalf _ half ih => exact ih.emitHalf half
  | emitWord _ word ih => exact ih.emitWord word
  | emitAsciiz _ text ih => exact ih.emitAsciiz text
  | step _ ih => exact ih.step
  | run _ hr ih => exact ih.runWhile (fun _ _ h => h) hr
  | runWithLimit _ hr ih => exact ih.runWhile (fun _ _ h => h) hr
  | reset _ ih => exact ih.reset
  | setPc _ pc ih => exact ih.set _ _ pc _ _ _ _
  | setRegister _ r v ih => exact ih.set _ _ _ _ _ _ _
  | setHiLo _ hi lo ih => exact ih.set _ _ _ _ _ _ _
  | setMemory _ memory ih => exact ih.set memory _ _ _ _ _ _
  | setFlags _ flags ih => exact ih.set _ _ _ _ flags _ _
  | setBreakpoints _ breakpoints ih => exact ih.set _ _ _ _ _ breakpoints _
  | setConsole _ console ih => exact ih.set _ _ _ _ _ _ console

theorem assembleLine (h : m.Driven) (src : String) : (m.assembleLine src).2.Driven := by
  unfold Machine.assembleLine assembleTokens
  cases Stmt.ofTokens (Token.ofLine src) with
  | error e => exact h
  | ok s => exact h.assemble s

theorem zero (h : m.Driven) : m.get .zero = 0 := by
  have hstep (n : Machine) (hn : n.get .zero = 0) : n.step.2.get .zero = 0 := (get_zero_step n).trans hn
  induction h with
  | new flags => exact RegisterFile.get_zero_initial
  | assemble _ s ih => rw [get, Machine.assemble, registers_apply]; exact ih
  | define _ label addr ih => rw [get, Machine.define, registers_apply]; exact ih
  | emitText _ word ih => rw [get, registers_emitText]; exact ih
  | emitByte _ byte ih => rw [get, Machine.emitByte, registers_emitData]; exact ih
  | emitHalf _ half ih => rw [get, Machine.emitHalf, registers_emitData]; exact ih
  | emitWord _ word ih => rw [get, Machine.emitWord, registers_emitData]; exact ih
  | emitAsciiz _ text ih => rw [get, Machine.emitAsciiz, registers_emitData]; exact ih
  | step _ ih => exact hstep _ ih
  | run _ hr ih =>
    exact runWhile_preserves (P := fun n => n.get .zero = 0) (fun _ _ h => h) hstep (fun _ h => h) ih hr
  | runWithLimit _ hr ih =>
    exact runWhile_preserves (P := fun n => n.get .zero = 0) (fun _ _ h => h) hstep (fun _ h => h) ih hr
  | reset _ _ => exact RegisterFile.get_zero_initial
  | setRegister _ r v ih => exact (RegisterFile.get_zero_set _ r v).trans ih
  | setPc _ _ ih | setHiLo _ _ _ ih | setMemory _ _ ih | setFlags _ _ ih | setBreakpoints _ _ ih
  | setConsole _ _ ih => exact ih

end Driven

theorem invariant_of_driven {m : Machine} (h : m.Driven) : m.Invariant :=
  h.reachable.consistent.invariant h.zero

theorem invariant_of_driven_jump :
    let m : Machine :=
      { ((new .initial).assemble ⟨none, some (.instr (.jump .j ⟨"l", 2⟩)), ⟨0, 3⟩⟩).2 with
        pc := 0x00400004 }
    m.Driven ∧ m.symbols.fixups = [⟨0x00400000, "l", .jump .j⟩] ∧ m.Invariant := by
  intro m
  have hd : m.Driven := ((Driven.new .initial).assemble jumping).setPc 0x00400004
  exact ⟨hd, fixups_jumping .initial, invariant_of_driven hd⟩

end MipsMachine.Machine
