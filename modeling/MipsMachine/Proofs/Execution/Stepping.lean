import MipsMachine.Execution.Run
import MipsMachine.Proofs.Instruction.Codec

namespace MipsMachine.Machine

structure Fetchable (m : Machine) (addr w : Word) : Prop where
  aligned : addr.toNat % 4 = 0
  text : Segment.text.Contains addr
  settled : ∀ f ∈ m.symbols.fixups, f.covers addr = false
  word : m.memory.getWord addr = w

def Carries (m : Machine) (addr : Word) : List Word → Prop
  | [] => True
  | w :: ws => m.Fetchable addr w ∧ m.Carries (addr + 4) ws

def Takes (m : Machine) (n : Nat) (m' : Machine) : Prop := (m.steps n).1 = .ok () ∧ (m.steps n).2.2 = m'

def put (m : Machine) (r : Reg) (v : Word) : Machine := m.perform (m.writing r v)

section Put

variable (m : Machine) (r : Reg) (v : Word)

@[simp] theorem pc_put : (m.put r v).pc = m.pc + 4 := rfl

theorem get_put (s : Reg) : (m.put r v).get s = if s = r ∧ r ≠ Reg.zero then v else m.get s :=
  m.registers.get_set r s v

theorem get_put_self (h : r ≠ Reg.zero) : (m.put r v).get r = v := by
  rw [get_put, if_pos ⟨rfl, h⟩]

theorem get_put_of_ne {s : Reg} (h : s ≠ r) : (m.put r v).get s = m.get s := by
  rw [get_put, if_neg fun hs => h hs.1]

theorem get_put_zero : (m.put r v).get .zero = m.get .zero := m.registers.get_zero_set r v

end Put

section Steps

variable {m m' n : Machine} {k : Nat}

theorem effect_of_step (h : m.step = (.ok (), m')) : ∃ e, m.effect = .ok e ∧ m' = m.perform e := by
  unfold step at h
  cases he : m.effect with
  | error f => rw [he] at h; cases h
  | ok e => rw [he] at h; cases h; exact ⟨e, rfl, rfl⟩

theorem takes_zero (m : Machine) : m.Takes 0 m := ⟨rfl, rfl⟩

theorem Takes.cons (h : m.step = (.ok (), m')) (ht : m'.Takes k n) : m.Takes (k + 1) n := by
  unfold Takes steps
  rw [h]
  exact ht

theorem takes_one (h : m.step = (.ok (), m')) : m.Takes 1 m' := .cons h (takes_zero m')

theorem Takes.step_error {e : ExecError} (h : m.Takes k n) (he : n.step.1 = .error e) :
    (m.steps (k + 1)).1 = .error e := by
  obtain ⟨hok, rfl⟩ := h
  induction k generalizing m with
  | zero =>
    rw [steps]
    change m.step.1 = .error e at he
    generalize m.step = r at he
    obtain ⟨result, m'⟩ := r
    cases he
    rfl
  | succ k ih =>
    rw [steps] at hok he ⊢
    cases hs : m.step with
    | mk result m' =>
      rw [hs] at hok he
      cases result with
      | error d => cases hok
      | ok u =>
        obtain ⟨⟩ := u
        exact ih hok he

end Steps

section Fetch

variable {m : Machine} {i : Instr}

theorem fetch_eq (h : m.Fetchable m.pc i.encode) : m.fetch = .ok i := by
  have hat : m.symbols.fixupAt m.pc = none := by
    rw [Symbols.fixupAt, List.find?_eq_none]
    intro f hf
    rw [h.settled f hf]
    exact Bool.false_ne_true
  have hseg : Segment.of? m.pc = some .text := List.find?_cons_of_pos (decide_eq_true h.text)
  have hread : m.memory.read m.pc .word = .ok i.encode := by
    unfold Memory.read Memory.checkAccess
    rw [if_neg (fun hn => hn h.aligned), hseg]
    exact congrArg Except.ok h.word
  have hdecode : Instr.decode i.encode = .ok i := by
    unfold Instr.decode
    rw [Instr.decode?_encode]
  unfold fetch
  rw [hat, hseg, hread]
  by_cases hu : m.symbols.hasUnresolved = true
  · simp only [hu, if_true]
    exact hdecode
  · simp only [hu]
    exact hdecode

theorem effect_of_fetch (h : m.fetch = .ok i) : m.effect = m.execute i := by
  unfold effect
  rw [h]
  rfl

theorem step_of_fetch {e : Effect} (h : m.fetch = .ok i) (he : m.execute i = .ok e) :
    m.step = (.ok (), m.perform e) := by
  rw [step, effect_of_fetch h, he]

theorem step_of_fetch_fault {f : Fault} (h : m.fetch = .ok i) (he : m.execute i = .error f) :
    m.step = (.error f.cause, { m with console := f.console }) := by
  rw [step, effect_of_fetch h, he]

theorem step_of_failure {e : ExecError} (h : m.fetch = .ok i) (he : m.execute i = m.fault e) :
    m.step = (.error e, m) := step_of_fetch_fault h he

theorem effect_eq (h : m.Fetchable m.pc i.encode) : m.effect = m.execute i := effect_of_fetch (fetch_eq h)

theorem step_of_execute {e : Effect} (h : m.Fetchable m.pc i.encode) (he : m.execute i = .ok e) :
    m.step = (.ok (), m.perform e) := step_of_fetch (fetch_eq h) he

theorem step_of_fault {f : Fault} (h : m.Fetchable m.pc i.encode) (he : m.execute i = .error f) :
    m.step = (.error f.cause, { m with console := f.console }) := step_of_fetch_fault (fetch_eq h) he

theorem step_put {r : Reg} {v : Word} (h : m.Fetchable m.pc i.encode)
    (he : m.execute i = .ok (m.writing r v)) : m.step = (.ok (), m.put r v) := step_of_execute h he

end Fetch

section Keep

variable {m m' : Machine} {addr w : Word} {ws : List Word}

theorem Fetchable.congr (h : m.Fetchable addr w) (hm : m'.memory = m.memory) (hs : m'.symbols = m.symbols) :
    m'.Fetchable addr w := ⟨h.aligned, h.text, hs ▸ h.settled, hm ▸ h.word⟩

theorem Carries.congr (h : m.Carries addr ws) (hm : m'.memory = m.memory) (hs : m'.symbols = m.symbols) :
    m'.Carries addr ws := by
  induction ws generalizing addr with
  | nil => trivial
  | cons w ws ih => exact ⟨h.1.congr hm hs, ih h.2⟩

end Keep

end MipsMachine.Machine
