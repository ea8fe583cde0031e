import MipsMachine.Execution.Step
import MipsMachine.Proofs.Memory.Buffer
import MipsMachine.Proofs.Memory.CString

namespace MipsMachine

section Arithmetic

variable {a b : Word}

def Wraps (trapping wrapping : Except ExecError Word) : Prop :=
  ∃ v, wrapping = .ok v ∧ (trapping = .ok v ∨ trapping = .error .integerOverflow)

theorem wraps_ok (v : Word) : Wraps (.ok v) (.ok v) := ⟨v, rfl, .inl rfl⟩

theorem Wraps.trap {r : Bool → Except ExecError Word} (h : Wraps (r true) (r false)) {trap : Bool}
    {e : ExecError} (he : r trap = .error e) : trap = true := by
  cases trap with
  | true => rfl
  | false =>
    obtain ⟨v, hv, -⟩ := h
    rw [hv] at he
    cases he

theorem wraps_signedAdd : Wraps (signedAdd true a b) (signedAdd false a b) := by
  refine ⟨a + b, if_neg fun h => Bool.false_ne_true h.1, ?_⟩
  unfold signedAdd
  split
  · exact .inr rfl
  · exact .inl rfl

theorem wraps_signedSub : Wraps (signedSub true a b) (signedSub false a b) := by
  refine ⟨a - b, if_neg fun h => Bool.false_ne_true h.1, ?_⟩
  unfold signedSub
  split
  · exact .inr rfl
  · exact .inl rfl

theorem AluOp.wraps_result (op : AluOp) : Wraps (op.result true a b) (op.result false a b) := by
  cases op with
  | add => exact wraps_signedAdd
  | sub => exact wraps_signedSub
  | _ => exact wraps_ok _

theorem ImmOp.wraps_result (op : ImmOp) : Wraps (op.result true a b) (op.result false a b) := by
  cases op with
  | addi => exact wraps_signedAdd
  | _ => exact wraps_ok _

theorem MulDivOp.eq_of_error {op : MulDivOp} {e : ExecError} (h : op.result a b = .error e) :
    e = .divideByZero := by
  cases op with
  | mult | multu => cases h
  | div | divu =>
    rw [result] at h
    split at h <;> cases h
    rfl

end Arithmetic

namespace Machine

inductive Possible (m : Machine) : Except Fault Effect → Prop
  | done {e : Effect} (range : ∀ t, e.store = some t → Store.InRange t) : Possible m (.ok e)
  | failed {f : Fault} (trap : f.cause = .integerOverflow → m.flags.trapOnOverflow = true) : Possible m (.error f)

section Possible

variable {m : Machine}

theorem possible_ok {e : Effect} (h : e.store = none) : m.Possible (.ok e) := by
  apply Possible.done
  intro t ht
  rw [h] at ht
  cases ht

theorem possible_error {f : Fault} (h : f.cause ≠ .integerOverflow) : m.Possible (.error f) :=
  .failed fun he => (h he).elim

theorem possible_bind {α : Type} {result : Except ExecError α} {next : α → Except Fault Effect}
    (he : ∀ e, result = .error e → e = .integerOverflow → m.flags.trapOnOverflow = true)
    (hn : ∀ a, result = .ok a → m.Possible (next a)) : m.Possible (m.lift result >>= next) := by
  cases result with
  | error e => exact .failed (he e rfl)
  | ok a => exact hn a rfl

theorem possible_readInt (m : Machine) : m.Possible m.readInt := by
  unfold readInt
  dsimp only
  split
  · exact possible_error fun he => nomatch he
  · split
    · exact possible_ok rfl
    · exact possible_error fun he => nomatch he

theorem possible_readString (m : Machine) (start size : Word) : m.Possible (m.readString start size) := by
  unfold readString
  by_cases hs : size.toInt ≤ 0
  · rw [if_pos hs]
    exact possible_ok rfl
  · rw [if_neg hs]
    cases hl : lastOfBuffer start size.toNat with
    | error e =>
      obtain ⟨b, rfl⟩ := lastOfBuffer_error hl
      exact possible_error fun he => nomatch he
    | ok last =>
      have hlast := (isBuffer_of_lastOfBuffer hl).bound
      dsimp only
      split
      · exact possible_error fun he => nomatch he
      · apply Possible.done
        rintro t ⟨⟩
        have hlen := Console.length_nextPiece_le (size.toNat - 1) m.console.readable
        change start.toNat + (_ ++ [0]).length ≤ _
        rw [List.length_append, List.length_singleton]
        omega

theorem possible_syscall (m : Machine) : m.Possible m.syscall := by
  unfold syscall
  cases Service.ofCode? (m.get .v0) with
  | none => exact possible_error fun he => nomatch he
  | some service =>
    cases service with
    | printInt | printChar | exit => exact possible_ok rfl
    | readInt => exact m.possible_readInt
    | readString => exact m.possible_readString _ _
    | printString =>
      cases hs : m.memory.string (m.get .a0) with
      | ok data => exact possible_ok rfl
      | error e =>
        obtain ⟨b, rfl⟩ := Memory.string_error hs
        exact possible_error fun he => nomatch he
    | readChar =>
      dsimp only
      split
      · exact possible_ok rfl
      · exact possible_error fun he => nomatch he

theorem possible_execute (m : Machine) (i : Instr) : m.Possible (m.execute i) := by
  cases i with
  | alu op rd rs rt =>
    exact possible_bind (fun e he _ => op.wraps_result.trap (r := (op.result · _ _)) he) fun _ _ => possible_ok rfl
  | imm op rt rs value =>
    exact possible_bind (fun e he _ => op.wraps_result.trap (r := (op.result · _ _)) he) fun _ _ => possible_ok rfl
  | mulDiv op rs rt =>
    refine possible_bind (fun e he ho => ?_) fun _ _ => possible_ok rfl
    cases (MulDivOp.eq_of_error he).symm.trans ho
  | mem op rt base offset =>
    have haccess (e : ExecError)
        (he : Memory.checkAccess (m.get base + offset.signExtend 32) op.width = .error e) :
        e ≠ .integerOverflow := by
      rcases Memory.checkAccess_error he with rfl | rfl <;> exact fun ho => nomatch ho
    rw [execute]
    dsimp only
    split
    · refine possible_bind (fun e he ho => (haccess e he ho).elim) fun _ hc => .done ?_
      rintro t ⟨⟩
      have hend := Memory.end_of_checkAccess hc
      change (m.get base + offset.signExtend 32).toNat + _ ≤ _
      rw [Width.length_bytes]
      exact Nat.le_trans hend (by decide)
    · exact possible_bind (fun e he ho => (haccess e (Memory.read_error he) ho).elim) fun _ _ => possible_ok rfl
  | compare op rs rt offset | zero op rs offset =>
    apply possible_ok
    unfold branching
    split <;> rfl
  | jump op index => cases op <;> exact possible_ok rfl
  | hiLo op r => cases op <;> exact possible_ok rfl
  | syscall => exact m.possible_syscall
  | _ => exact possible_ok rfl

end Possible

theorem inRange_execute {m : Machine} {i : Instr} {e : Effect} (h : m.execute i = .ok e) {t : Store}
    (ht : e.store = some t) : t.InRange := by
  have hp := m.possible_execute i
  rw [h] at hp
  cases hp with
  | done range => exact range t ht

theorem trap_of_overflow {m : Machine} {i : Instr} {f : Fault} (h : m.execute i = .error f)
    (hf : f.cause = .integerOverflow) : m.flags.trapOnOverflow = true := by
  have hp := m.possible_execute i
  rw [h] at hp
  cases hp with
  | failed trap => exact trap hf

end Machine

end MipsMachine
