import MipsMachine.Proofs.Execution.Invariant
import MipsMachine.Proofs.Execution.Iteration
import MipsMachine.Proofs.Execution.Touched
import MipsMachine.Proofs.Instruction.Fields

namespace MipsMachine

namespace Instr

def WritesHi : Instr → Prop
  | mulDiv .. | hiLo .mthi _ => True
  | _ => False

def WritesLo : Instr → Prop
  | mulDiv .. | hiLo .mtlo _ => True
  | _ => False

end Instr

namespace Service

def Prints : Service → Prop
  | printInt | printString | printChar => True
  | readInt | readString | readChar | exit => False

def Reads : Service → Prop
  | readInt | readString | readChar => True
  | printInt | printString | printChar | exit => False

end Service

theorem Console.write_eq_or (c : Console) (data : List Byte) :
    (c.write data).2 = c ∨
      ∃ output, c.close = some output ∧ (c.write data).2.close = some (output ++ data) := by
  induction c with
  | empty => exact .inl rfl
  | buffered b =>
    rw [write, Buffered.write, Guarded.access_eq]
    cases b.output.isFree with
    | true => exact .inr ⟨b.output.bytes, rfl, rfl⟩
    | false => exact .inl rfl
  | channel c => exact .inr ⟨c.outgoing, rfl, rfl⟩
  | custom c ih =>
    rcases ih with h | h
    · exact .inl (congrArg custom h)
    · exact .inr h

namespace Machine

def Asks (m : Machine) (i : Instr) (s : Service) : Prop :=
  i = .syscall ∧ Service.ofCode? (m.get .v0) = some s

def Transfers (m : Machine) : Instr → Prop
  | .compare op rs rt _ => op.test (m.get rs) (m.get rt) = true
  | .zero op rs _ => op.test (m.get rs) = true
  | .jump .. | .jr _ | .jalr .. => True
  | _ => False

inductive MayWrite (m : Machine) (i : Instr) (a : Word) : Prop
  | operand {op : MemOp} {rt base : Reg} {offset : Half} (instr : i = .mem op rt base offset)
      (store : op.isStore = true) (start : (m.get base + offset.signExtend 32).toNat ≤ a.toNat)
      (stop : a.toNat < (m.get base + offset.signExtend 32).toNat + op.width.size)
  | buffer (asks : m.Asks i .readString) (start : (m.get .a0).toNat ≤ a.toNat)
      (stop : (a.toNat : Int) ≤ (m.get .a0).toNat + (m.get .a1).toInt - 1)

inductive Serves (m : Machine) (i : Instr) : Console → Prop
  | idle : Serves m i m.console
  | printed {s : Service} (asks : m.Asks i s) (prints : s.Prints) (data : List Byte) :
    Serves m i (m.console.write data).2
  | read {s : Service} (asks : m.Asks i s) (reads : s.Reads) (n : Nat) : Serves m i (m.console.consume n)

structure Within (m : Machine) (i : Instr) (e : Effect) : Prop where
  pc : ¬ m.Transfers i → e.pc = m.pc + 4
  hi : ∀ w, e.hiLo = some w → w.1 ≠ m.registers.hi → i.WritesHi
  lo : ∀ w, e.hiLo = some w → w.2 ≠ m.registers.lo → i.WritesLo
  store : ∀ t, e.store = some t → ∀ a, Store.Covers t a → m.MayWrite i a
  console : m.Serves i e.console
  exits : e.exits = true → m.Asks i .exit

def OnlyWithin (m : Machine) (i : Instr) (result : Except Fault Effect) : Prop :=
  ∀ e, result = .ok e → m.Within i e

section Execute

variable {m : Machine} {i : Instr}

theorem within_next : m.Within i m.next where
  pc _ := rfl
  hi _ h := nomatch h
  lo _ h := nomatch h
  store _ h := nomatch h
  console := .idle
  exits h := nomatch h

theorem within_writing (r : Reg) (v : Word) : m.Within i (m.writing r v) := { within_next with }

theorem onlyWithin_ok {e : Effect} (h : m.Within i e) : m.OnlyWithin i (.ok e) := by
  rintro e' he
  cases he
  exact h

theorem onlyWithin_error (f : Fault) : m.OnlyWithin i (.error f) := fun _ h => nomatch h

theorem onlyWithin_bind {α : Type} {result : Except ExecError α} {next : α → Except Fault Effect}
    (hn : ∀ a, m.OnlyWithin i (next a)) : m.OnlyWithin i (m.lift result >>= next) := by
  cases result with
  | error e => exact onlyWithin_error _
  | ok a => exact hn a

theorem Within.transferring {e : Effect} (h : m.Within i e) (hi : m.Transfers i) (target : Word) :
    m.Within i { e with pc := target } :=
  { h with pc := fun hn => (hn hi).elim }

theorem within_branching {taken : Bool} (h : taken = true → m.Transfers i) (offset : Half) :
    m.Within i (m.branching taken offset) := by
  unfold branching
  split
  case isTrue ht => exact within_next.transferring (h ht) _
  case isFalse => exact within_next

theorem within_printing {s : Service} (h : m.Asks i s) (hs : s.Prints) (data : List Byte) :
    m.Within i (m.printing data) :=
  { within_next with console := .printed h hs data }

theorem Within.reading {e : Effect} (h : m.Within i e) {s : Service} (ha : m.Asks i s) (hs : s.Reads) (n : Nat) :
    m.Within i { e with console := m.console.consume n } :=
  { h with console := .read ha hs n }

theorem onlyWithin_readInt (h : m.Asks i .readInt) : m.OnlyWithin i m.readInt := by
  unfold readInt
  dsimp only
  split
  · exact onlyWithin_error _
  · split
    · exact onlyWithin_ok ((within_writing _ _).reading h trivial _)
    · exact onlyWithin_error _

theorem onlyWithin_readString (h : m.Asks i .readString) :
    m.OnlyWithin i (m.readString (m.get .a0) (m.get .a1)) := by
  unfold readString
  by_cases hs : (m.get .a1).toInt ≤ 0
  · rw [if_pos hs]
    exact onlyWithin_ok within_next
  · rw [if_neg hs]
    cases lastOfBuffer (m.get .a0) (m.get .a1).toNat with
    | error e => exact onlyWithin_error _
    | ok last =>
      dsimp only
      split
      · exact onlyWithin_error _
      · apply onlyWithin_ok
        refine { within_next.reading h trivial _ with store := ?_ }
        rintro t ⟨⟩ a ⟨hstart, hstop⟩
        refine .buffer h hstart ?_
        -- The piece read is one byte short of the buffer, so that the zero after it is still inside.
        have hlen := Console.length_nextPiece_le ((m.get .a1).toNat - 1) m.console.readable
        change a.toNat < (m.get .a0).toNat + (_ ++ [0]).length at hstop
        rw [List.length_append, List.length_singleton] at hstop
        have hsize := BitVec.toInt_eq_toNat_cond (m.get .a1)
        split at hsize <;> omega

theorem onlyWithin_syscall (m : Machine) : m.OnlyWithin .syscall m.syscall := by
  unfold syscall
  cases hs : Service.ofCode? (m.get .v0) with
  | none => exact onlyWithin_error _
  | some service =>
    have ha : m.Asks .syscall service := ⟨rfl, hs⟩
    cases service with
    | printInt | printChar => exact onlyWithin_ok (within_printing ha trivial _)
    | exit => exact onlyWithin_ok { within_next with exits := fun _ => ha }
    | readInt => exact onlyWithin_readInt ha
    | readString => exact onlyWithin_readString ha
    | printString =>
      cases m.memory.string (m.get .a0) with
      | ok data => exact onlyWithin_ok (within_printing ha trivial data)
      | error e => exact onlyWithin_error _
    | readChar =>
      unfold Console.read
      cases m.console.readable with
      | nil => exact onlyWithin_error _
      | cons b bs => exact onlyWithin_ok ((within_writing _ _).reading ha trivial 1)

theorem onlyWithin_execute (m : Machine) (i : Instr) : m.OnlyWithin i (m.execute i) := by
  cases i with
  | alu op rd rs rt | imm op rt rs value =>
    exact onlyWithin_bind fun _ => onlyWithin_ok (within_writing _ _)
  | shift op rd rt amount | shiftVar op rd rt rs | lui rt value => exact onlyWithin_ok (within_writing _ _)
  | mem op rt base offset =>
    rw [execute]
    dsimp only
    split
    case isTrue hs =>
      refine onlyWithin_bind fun _ => onlyWithin_ok { within_next with store := ?_ }
      rintro t ⟨⟩ a ⟨hstart, hstop⟩
      refine .operand rfl hs hstart ?_
      rwa [Store.stop, Width.length_bytes] at hstop
    case isFalse => exact onlyWithin_bind fun _ => onlyWithin_ok (within_writing _ _)
  | compare op rs rt offset | zero op rs offset => exact onlyWithin_ok (within_branching id offset)
  | jump op index =>
    have hl : m.Transfers (.jump op index) := trivial
    cases op with
    | j => exact onlyWithin_ok (within_next.transferring hl _)
    | jal => exact onlyWithin_ok ((within_writing _ _).transferring hl _)
  | jr rs =>
    have hl : m.Transfers (.jr rs) := trivial
    exact onlyWithin_ok (within_next.transferring hl _)
  | jalr rd rs =>
    have hl : m.Transfers (.jalr rd rs) := trivial
    exact onlyWithin_ok ((within_writing _ _).transferring hl _)
  | hiLo op r =>
    cases op with
    | mfhi | mflo => exact onlyWithin_ok (within_writing _ _)
    | mthi =>
      refine onlyWithin_ok { within_next with hi := fun _ _ _ => trivial, lo := ?_ }
      rintro w ⟨⟩ hne
      exact (hne rfl).elim
    | mtlo =>
      refine onlyWithin_ok { within_next with hi := ?_, lo := fun _ _ _ => trivial }
      rintro w ⟨⟩ hne
      exact (hne rfl).elim
  | mulDiv op rs rt =>
    exact onlyWithin_bind fun _ =>
      onlyWithin_ok { within_next with hi := fun _ _ _ => trivial, lo := fun _ _ _ => trivial }
  | syscall => exact m.onlyWithin_syscall

end Execute

structure StepFrame (m : Machine) (i : Instr) (m' : Machine) : Prop where
  untouched : m' = { m with
    memory := m'.memory
    registers := m'.registers
    pc := m'.pc
    halted := m'.halted
    count := m.count + 1
    console := m'.console }
  register : ∃ r, ∀ s, s ≠ r → m'.get s = m.get s
  zero : m'.get .zero = m.get .zero
  hi : m'.registers.hi ≠ m.registers.hi → i.WritesHi
  lo : m'.registers.lo ≠ m.registers.lo → i.WritesLo
  memory : ∀ a, m'.memory.getByte a ≠ m.memory.getByte a → m.MayWrite i a
  pc : ¬ m.Transfers i → m'.pc = m.pc + 4
  halted : m'.halted ≠ m.halted → m.halted = false ∧ m'.halted = true ∧ m.Asks i .exit
  console : m.Serves i m'.console
  output : m'.console.close ≠ m.console.close → (∃ s, m.Asks i s ∧ s.Prints) ∧
    ∃ output, ∃ data : List Byte, m.console.close = some output ∧ m'.console.close = some (output ++ data)
  input : m'.console.readable ≠ m.console.readable → (∃ s, m.Asks i s ∧ s.Reads) ∧
    ∃ n, m'.console.readable = m.console.readable.drop n

section Step

variable {m m' : Machine} {i : Instr} {e : Effect} {c : Console}

theorem hiLo_perform (m : Machine) (e : Effect) :
    ((m.perform e).registers.hi, (m.perform e).registers.lo) = e.hiLo.getD (m.registers.hi, m.registers.lo) := by
  unfold perform
  cases e.hiLo with
  | some w => rfl
  | none =>
    cases e.register with
    | none => rfl
    | some w => exact congrArg₂ Prod.mk (m.registers.hi_set w.1 w.2) (m.registers.lo_set w.1 w.2)

theorem hiLo_eq_some (h : (m.perform e).registers.hi ≠ m.registers.hi ∨
    (m.perform e).registers.lo ≠ m.registers.lo) :
    e.hiLo = some ((m.perform e).registers.hi, (m.perform e).registers.lo) := by
  have hp := m.hiLo_perform e
  cases hh : e.hiLo with
  | some w =>
    rw [hp, hh]
    rfl
  | none =>
    rw [hh] at hp
    rcases h with hne | hne
    · exact (hne (congrArg Prod.fst hp)).elim
    · exact (hne (congrArg Prod.snd hp)).elim

theorem Serves.output (h : m.Serves i c) (hne : c.close ≠ m.console.close) :
    (∃ s, m.Asks i s ∧ s.Prints) ∧
      ∃ output, ∃ data : List Byte, m.console.close = some output ∧ c.close = some (output ++ data) := by
  cases h with
  | idle => exact (hne rfl).elim
  | printed asks prints data =>
    rcases m.console.write_eq_or data with hw | ⟨output, ho, hw⟩
    · exact (hne (congrArg Console.close hw)).elim
    · exact ⟨⟨_, asks, prints⟩, output, data, ho, hw⟩
  | read asks reads n => exact (hne (m.console.close_consume n)).elim

theorem Serves.input (h : m.Serves i c) (hne : c.readable ≠ m.console.readable) :
    (∃ s, m.Asks i s ∧ s.Reads) ∧ ∃ n, c.readable = m.console.readable.drop n := by
  cases h with
  | idle => exact (hne rfl).elim
  | printed asks prints data => exact (hne (m.console.readable_write data)).elim
  | read asks reads n => exact ⟨⟨_, asks, reads⟩, n, m.console.readable_consume n⟩

theorem stepFrame_perform (h : m.execute i = .ok e) : m.StepFrame i (m.perform e) := by
  have hw := m.onlyWithin_execute i e h
  constructor
  case untouched => rfl
  case register =>
    cases hr : e.register with
    | none => exact ⟨.zero, fun s _ => by rw [get_perform, hr]; rfl⟩
    | some w =>
      refine ⟨w.1, fun s hs => ?_⟩
      rw [get_perform, hr]
      exact (m.registers.get_set w.1 s w.2).trans (if_neg fun h => hs h.1)
  case zero => exact m.get_zero_perform e
  case hi => exact fun hne => hw.hi _ (hiLo_eq_some (.inl hne)) hne
  case lo => exact fun hne => hw.lo _ (hiLo_eq_some (.inr hne)) hne
  case memory =>
    intro a hne
    by_contra hout
    apply hne
    rw [memory_perform]
    apply Memory.getByte_setAll_of_not_covers
    · exact fun t ht => inRange_execute h (Option.mem_toList.mp ht)
    · exact fun t ht hc => hout (hw.store t (Option.mem_toList.mp ht) a hc)
  case pc => exact hw.pc
  case halted =>
    intro hne
    change (m.halted || e.exits) ≠ m.halted at hne
    change m.halted = false ∧ (m.halted || e.exits) = true ∧ _
    cases hh : m.halted with
    | true =>
      rw [hh] at hne
      exact (hne rfl).elim
    | false =>
      rw [hh, Bool.false_or] at hne
      have hx := eq_true_of_ne_false hne
      exact ⟨rfl, hx, hw.exits hx⟩
  case console => exact hw.console
  case output => exact hw.console.output
  case input => exact hw.console.input

theorem decode?_of_fetch (h : m.fetch = .ok i) : Instr.decode? (m.memory.getWord m.pc) = some i := by
  rw [fetch_settled (fixupAt_of_fetch h)] at h
  split at h
  case isTrue => cases h
  case isFalse =>
    obtain ⟨w, hr, hd⟩ := bind_eq_ok_iff.mp h
    obtain ⟨-, rfl⟩ := Memory.checkAccess_of_read hr
    exact Instr.decode_ok_iff.mp hd

theorem stepFrame_of_step (h : m.step = (.ok (), m')) :
    ∃ i, Instr.decode? (m.memory.getWord m.pc) = some i ∧ m.StepFrame i m' := by
  obtain ⟨e, he, rfl⟩ := effect_of_step h
  obtain ⟨i, hi, hx⟩ := fetch_of_effect he
  exact ⟨i, decode?_of_fetch hi, stepFrame_perform hx⟩

end Step

theorem stepFrame_of_step_readString :
    let m : Machine := { holding .syscall with
      registers := (((holding .syscall).registers.set .v0 8).set .a0 0x10000000).set .a1 3
      console := .buffered (.ofInput [0x61, 0x62, 0x0A]) }
    ∃ m', m.step = (.ok (), m') ∧ m.StepFrame .syscall m' ∧ m'.console.readable = [0x0A] ∧
      m'.memory.bytes 0x10000000 3 = [0x61, 0x62, 0x00] := by
  intro m
  have hfetch : m.Fetchable m.pc Instr.syscall.encode := (fetchable_holding .syscall).congr rfl rfl
  have hexec : m.execute .syscall = .ok { m.next with
      store := some (0x10000000, [0x61, 0x62, 0x00])
      console := m.console.consume 2 } := by
    have hservice : Service.ofCode? (m.get .v0) = some .readString := rfl
    have hstart : m.get .a0 = 0x10000000 := rfl
    have hsize : m.get .a1 = 3 := rfl
    have hlast : lastOfBuffer 0x10000000 (3 : Word).toNat = .ok 0x10000002 := by rfl
    have hpiece : Console.nextPiece ((3 : Word).toNat - 1) m.console.readable = [0x61, 0x62] := rfl
    change m.syscall = _
    unfold syscall readString
    simp only [hservice, hstart, hsize, hlast, hpiece]
    rfl
  have hstep := step_of_execute hfetch hexec
  obtain ⟨i, hi, hframe⟩ := stepFrame_of_step hstep
  rw [hfetch.word, Instr.decode?_encode] at hi
  obtain rfl := Option.some.inj hi
  have hin : Store.InRange (0x10000000, [0x61, 0x62, 0x00]) :=
    show (0x10000000 : Word).toNat + 3 ≤ 0x100000000 by decide
  have hholds := Memory.holds_setBytes m.memory hin
  exact ⟨_, hstep, hframe, rfl, hholds.bytes (by decide)⟩

end Machine

end MipsMachine
