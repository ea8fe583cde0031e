import MipsMachine.Proofs.Execution.Placeholder
import MipsMachine.Proofs.Execution.Possible

namespace MipsMachine.Machine

inductive Accesses (m : Machine) : Instr → Word → Prop
  | operand {op : MemOp} {rt base : Reg} {offset : Half} {a : Word}
      (start : (m.get base + offset.signExtend 32).toNat ≤ a.toNat)
      (stop : a.toNat < (m.get base + offset.signExtend 32).toNat + op.width.size) :
      Accesses m (.mem op rt base offset) a
  | text {data : List Byte} {a : Word} (service : Service.ofCode? (m.get .v0) = some .printString)
      (string : m.memory.string (m.get .a0) = .ok data) (start : (m.get .a0).toNat ≤ a.toNat)
      (stop : a.toNat ≤ (m.get .a0).toNat + data.length) : Accesses m .syscall a

/--
The next step reads the byte or writes it. Of the buffer that a line of input is read into, these are the
bytes that are filled.
-/
inductive StepTouches (m : Machine) (a : Word) : Prop
  | fetched (start : m.pc.toNat ≤ a.toNat) (stop : a.toNat < m.pc.toNat + 4)
  | accessed {i : Instr} (instr : m.fetch = .ok i) (access : m.Accesses i a)
  | written {e : Effect} {t : Store} (effect : m.effect = .ok e) (store : e.store = some t)
      (covers : t.Covers a)

section Execute

variable {m : Machine} {i : Instr} {e : Effect}

theorem syscall_congr (he : m.syscall = .ok e) (memory : Memory) (symbols : Symbols)
    (textCursor dataCursor : Word) (mode : Mode)
    (h : ∀ a, m.Accesses .syscall a → memory.getByte a = m.memory.getByte a) :
    { m with memory, symbols, textCursor, dataCursor, mode }.syscall = .ok e := by
  have hget : Machine.get { m with memory, symbols, textCursor, dataCursor, mode } = m.get := rfl
  unfold syscall at he ⊢
  rw [hget]
  cases hs : Service.ofCode? (m.get .v0) with
  | none => rw [hs] at he; cases he
  | some service =>
    rw [hs] at he
    cases service with
    | printString =>
      cases hd : m.memory.string (m.get .a0) with
      | error f => simp only [hd] at he; cases he
      | ok data =>
        have hstring := Memory.string_congr hd fun a hlo hhi => h a (.text hs hd hlo hhi)
        simp only [hd] at he
        simp only [hstring]
        exact he
    | _ => exact he

theorem execute_congr (he : m.execute i = .ok e) (memory : Memory) (symbols : Symbols)
    (textCursor dataCursor : Word) (mode : Mode)
    (h : ∀ a, m.Accesses i a → memory.getByte a = m.memory.getByte a) :
    { m with memory, symbols, textCursor, dataCursor, mode }.execute i = .ok e := by
  cases i with
  | mem op rt base offset =>
    unfold execute at he ⊢
    dsimp only at he ⊢
    by_cases hs : op.isStore = true
    · rw [if_pos hs] at he ⊢
      exact he
    · rw [if_neg hs] at he ⊢
      cases hr : m.memory.read (m.get base + offset.signExtend 32) op.width with
      | error f => rw [hr] at he; cases he
      | ok v =>
        have hread := Memory.read_congr hr fun a hlo hhi => h a (.operand hlo hhi)
        rw [hr] at he
        change (m.lift (memory.read (m.get base + offset.signExtend 32) op.width) >>= fun v =>
          Except.ok (m.writing rt (op.extend v))) = .ok e
        rw [hread]
        exact he
  | syscall => exact syscall_congr he memory symbols textCursor dataCursor mode h
  | jump op index => cases op <;> exact he
  | hiLo op r => cases op <;> exact he
  | _ => exact he

end Execute

section Step

variable {m : Machine} {i : Instr} {e : Effect}

theorem fetch_congr (hi : m.fetch = .ok i) (memory : Memory) (symbols : Symbols) (textCursor dataCursor : Word)
    (mode : Mode) (hf : ∀ f ∈ symbols.fixups, f.covers m.pc = false)
    (h : ∀ a : Word, m.pc.toNat ≤ a.toNat → a.toNat < m.pc.toNat + 4 → memory.getByte a = m.memory.getByte a) :
    { m with memory, symbols, textCursor, dataCursor, mode }.fetch = .ok i := by
  have hn : symbols.fixupAt m.pc = none := List.find?_eq_none.mpr fun f hm => Bool.eq_false_iff.mp (hf f hm)
  rw [fetch_settled (fixupAt_of_fetch hi)] at hi
  rw [fetch_settled (fun _ => hn)]
  by_cases hs : Segment.of? m.pc ≠ some .text
  · rw [if_pos hs] at hi
    cases hi
  · rw [if_neg hs] at hi ⊢
    cases hr : m.memory.read m.pc .word with
    | error d => rw [hr] at hi; cases hi
    | ok v =>
      have hread := Memory.read_congr hr h
      change (memory.read m.pc .word >>= Instr.decode) = .ok i
      rw [hread, ← hr]
      exact hi

theorem fetch_of_effect (he : m.effect = .ok e) : ∃ i, m.fetch = .ok i ∧ m.execute i = .ok e := by
  unfold effect at he
  cases hi : m.fetch with
  | error d => rw [hi] at he; cases he
  | ok i => rw [hi] at he; exact ⟨i, rfl, he⟩

theorem effect_congr (he : m.effect = .ok e) (memory : Memory) (symbols : Symbols)
    (textCursor dataCursor : Word) (mode : Mode) (hf : ∀ f ∈ symbols.fixups, f.covers m.pc = false)
    (h : ∀ a, m.StepTouches a → memory.getByte a = m.memory.getByte a) :
    { m with memory, symbols, textCursor, dataCursor, mode }.effect = .ok e := by
  obtain ⟨i, hi, hx⟩ := fetch_of_effect he
  have hfetch := fetch_congr hi memory symbols textCursor dataCursor mode hf fun a hlo hhi => h a (.fetched hlo hhi)
  have hexec := execute_congr hx memory symbols textCursor dataCursor mode fun a ha => h a (.accessed hi ha)
  unfold effect
  rw [hfetch]
  exact hexec

theorem memory_perform (m : Machine) (e : Effect) : (m.perform e).memory = m.memory.setAll e.store.toList := by
  unfold perform
  cases e.store <;> rfl

end Step

end MipsMachine.Machine
