import MipsMachine.Proofs.Console.Input
import MipsMachine.Proofs.Execution.InPlace
import MipsMachine.Proofs.Memory.Buffer
import MipsMachine.Proofs.Memory.CString

namespace MipsMachine

namespace Console

inductive IsLine : List Byte → List Byte → Prop
  | newline {body : List Byte} (rest : List Byte) (h : 0x0A ∉ body) : IsLine (body ++ [0x0A]) rest
  | last {line : List Byte} (hn : line ≠ []) (h : 0x0A ∉ line) : IsLine line []

def TakesLine (c d : Console) : Prop :=
  ∃ line, IsLine line d.readable ∧ c.readable = line ++ d.readable ∧ d = c.consume line.length

theorem close_consume (n : Nat) (c : Console) : (c.consume n).close = c.close := by
  induction c with
  | empty => rfl
  | buffered b =>
    change some (b.consume n).output.bytes = some b.output.bytes
    unfold Buffered.consume
    split <;> rfl
  | channel c => rfl
  | custom c ih => exact ih

theorem takesLine_nextLine {c : Console} (h : c.nextLine.2 ≠ 0) : c.TakesLine (c.consume c.nextLine.2) := by
  have hne : c.readable ≠ [] := fun he => h (congrArg Prod.snd (nextLine_nil he))
  obtain ⟨body, taken, hl⟩ := exists_nextLine hne
  rw [hl.nextLine_eq]
  cases hl with
  | @newline _ rest hb hi =>
    have hd : (c.consume (body.length + 1)).readable = rest := by
      rw [readable_consume, hi]
      simp
    refine ⟨body ++ [0x0A], ?_, ?_, ?_⟩
    · exact .newline _ hb
    · rw [hd, hi, List.append_assoc]
      rfl
    · rw [List.length_append]
      rfl
  | last hn hb =>
    have hd : (c.consume c.readable.length).readable = [] := by
      rw [readable_consume, List.drop_length]
    exact ⟨c.readable, hd ▸ .last hn hb, by rw [hd, List.append_nil], rfl⟩

end Console

def ExecError.Plain : ExecError → Prop
  | .invalidInput | .unresolvedFixup _ => False
  | _ => True

theorem ExecError.Plain.ne_invalidInput {e : ExecError} (h : e.Plain) : e ≠ .invalidInput := by
  rintro rfl
  exact h

def Plain {α : Type} (result : Except ExecError α) : Prop := ∀ e, result = .error e → e.Plain

section Causes

variable {α β : Type} {trap : Bool} {a b addr : Word} {width : Width}

theorem plain_ok (a : α) : Plain (.ok a) := fun _ h => nomatch h

theorem plain_error {e : ExecError} (h : e.Plain) : Plain (.error e : Except ExecError α) := by
  rintro d hd
  cases hd
  exact h

theorem plain_bind {x : Except ExecError α} {f : α → Except ExecError β} (hx : Plain x)
    (hf : ∀ a, Plain (f a)) : Plain (x >>= f) := by
  cases x with
  | error e => exact plain_error (hx e rfl)
  | ok a => exact hf a

theorem plain_signedAdd : Plain (signedAdd trap a b) := by
  unfold signedAdd
  split
  · exact plain_error trivial
  · exact plain_ok _

theorem plain_signedSub : Plain (signedSub trap a b) := by
  unfold signedSub
  split
  · exact plain_error trivial
  · exact plain_ok _

theorem AluOp.plain_result (op : AluOp) : Plain (op.result trap a b) := by
  cases op with
  | add => exact plain_signedAdd
  | sub => exact plain_signedSub
  | _ => exact plain_ok _

theorem ImmOp.plain_result (op : ImmOp) : Plain (op.result trap a b) := by
  cases op with
  | addi => exact plain_signedAdd
  | _ => exact plain_ok _

theorem MulDivOp.plain_result (op : MulDivOp) : Plain (op.result a b) := by
  cases op with
  | mult | multu => exact plain_ok _
  | div | divu =>
    rw [result]
    split
    · exact plain_error trivial
    · exact plain_ok _

theorem Instr.plain_decode (w : Word) : Plain (Instr.decode w) := by
  unfold decode
  split
  · exact plain_ok _
  · exact plain_error trivial

theorem Memory.plain_checkAccess : Plain (Memory.checkAccess addr width) := by
  intro e h
  rcases checkAccess_error h with rfl | rfl <;> trivial

theorem Memory.plain_read (m : Memory) : Plain (m.read addr width) :=
  fun e h => plain_checkAccess e (read_error h)

theorem Memory.plain_string (m : Memory) (addr : Word) : Plain (m.string addr) := by
  intro e h
  obtain ⟨b, rfl⟩ := string_error h
  trivial

end Causes

namespace Machine

theorem plain_lastOfBuffer (start : Word) (size : Nat) : Plain (lastOfBuffer start size) := by
  intro e h
  obtain ⟨b, rfl⟩ := lastOfBuffer_error h
  trivial

theorem fetch_error {m : Machine} {e : ExecError} (h : m.fetch = .error e) :
    e.Plain ∨ ∃ f, m.symbols.fixupAt m.pc = some f ∧ e = .unresolvedFixup f.label := by
  by_cases hc : m.symbols.hasUnresolved = true → m.symbols.fixupAt m.pc = none
  · rw [fetch_settled hc] at h
    by_cases ht : Segment.of? m.pc ≠ some .text
    · rw [if_pos ht] at h
      cases h
      exact .inl trivial
    · rw [if_neg ht] at h
      exact .inl (plain_bind m.memory.plain_read Instr.plain_decode e h)
  · obtain ⟨hu, hf⟩ := Classical.not_imp.mp hc
    obtain ⟨f, hf⟩ := Option.ne_none_iff_exists'.mp hf
    rw [fetch_covered hu hf] at h
    cases h
    exact .inr ⟨f, hf, rfl⟩

def Fails (m : Machine) (f : Fault) : Prop :=
  if f.cause = .invalidInput then m.console.TakesLine f.console else f.console = m.console

def Safe {α : Type} (m : Machine) (result : Except Fault α) : Prop := ∀ f, result = .error f → m.Fails f

inductive Faults (m : Machine) : Fault → Prop
  | plain {e : ExecError} (h : e.Plain) : Faults m ⟨e, m.console⟩
  | line {c : Console} (h : m.console.TakesLine c) : Faults m ⟨.invalidInput, c⟩

theorem Faults.fails {m : Machine} {f : Fault} (h : m.Faults f) : m.Fails f := by
  cases h with
  | plain h => exact (if_neg h.ne_invalidInput).mpr rfl
  | line h => exact (if_pos rfl).mpr h

def OnlyFaults {α : Type} (m : Machine) (result : Except Fault α) : Prop := ∀ f, result = .error f → m.Faults f

section OnlyFaults

variable {m : Machine} {α β : Type}

theorem onlyFaults_ok (a : α) : m.OnlyFaults (.ok a) := fun _ h => nomatch h

theorem onlyFaults_fault {cause : ExecError} (h : cause.Plain) :
    m.OnlyFaults (m.fault cause : Except Fault α) := by
  rintro f hf
  cases hf
  exact .plain h

theorem onlyFaults_lift {result : Except ExecError α} (h : Plain result) : m.OnlyFaults (m.lift result) := by
  cases result with
  | ok a => exact onlyFaults_ok a
  | error e => exact onlyFaults_fault (h e rfl)

theorem onlyFaults_bind {result : Except Fault α} {next : α → Except Fault β} (h : m.OnlyFaults result)
    (hn : ∀ a, m.OnlyFaults (next a)) : m.OnlyFaults (result >>= next) := by
  cases result with
  | ok a => exact hn a
  | error f =>
    rintro g hg
    cases hg
    exact h f rfl

theorem onlyFaults_readInt (m : Machine) : m.OnlyFaults m.readInt := by
  unfold readInt
  by_cases ht : m.console.nextLine.2 = 0
  · simp only [ht, if_true]
    exact onlyFaults_fault trivial
  · simp only [ht, if_false]
    cases hv : Console.integer? m.console.nextLine.1 with
    | some v => exact onlyFaults_ok _
    | none =>
      rintro f hf
      cases hf
      exact .line (Console.takesLine_nextLine ht)

theorem onlyFaults_readString (m : Machine) (start size : Word) : m.OnlyFaults (m.readString start size) := by
  unfold readString
  by_cases hs : size.toInt ≤ 0
  · rw [if_pos hs]
    exact onlyFaults_ok _
  · rw [if_neg hs]
    cases hl : lastOfBuffer start size.toNat with
    | error e => exact onlyFaults_fault (plain_lastOfBuffer _ _ e hl)
    | ok last =>
      dsimp only
      split
      · exact onlyFaults_fault trivial
      · exact onlyFaults_ok _

theorem onlyFaults_syscall (m : Machine) : m.OnlyFaults m.syscall := by
  unfold syscall
  cases Service.ofCode? (m.get .v0) with
  | none => exact onlyFaults_fault trivial
  | some service =>
    cases service with
    | printInt | printChar | exit => exact onlyFaults_ok _
    | readInt => exact m.onlyFaults_readInt
    | readString => exact m.onlyFaults_readString _ _
    | printString =>
      cases hs : m.memory.string (m.get .a0) with
      | ok data => exact onlyFaults_ok _
      | error e => exact onlyFaults_fault (m.memory.plain_string _ e hs)
    | readChar =>
      dsimp only
      split
      · exact onlyFaults_ok _
      · exact onlyFaults_fault trivial

theorem onlyFaults_execute (m : Machine) (i : Instr) : m.OnlyFaults (m.execute i) := by
  cases i with
  | alu op rd rs rt => exact onlyFaults_bind (onlyFaults_lift op.plain_result) fun _ => onlyFaults_ok _
  | imm op rt rs value => exact onlyFaults_bind (onlyFaults_lift op.plain_result) fun _ => onlyFaults_ok _
  | mulDiv op rs rt => exact onlyFaults_bind (onlyFaults_lift op.plain_result) fun _ => onlyFaults_ok _
  | mem op rt base offset =>
    rw [execute]
    dsimp only
    split
    · exact onlyFaults_bind (onlyFaults_lift Memory.plain_checkAccess) fun _ => onlyFaults_ok _
    · exact onlyFaults_bind (onlyFaults_lift m.memory.plain_read) fun _ => onlyFaults_ok _
  | jump op index => cases op <;> exact onlyFaults_ok _
  | hiLo op r => cases op <;> exact onlyFaults_ok _
  | syscall => exact m.onlyFaults_syscall
  | _ => exact onlyFaults_ok _

end OnlyFaults

theorem effect_error {m : Machine} {f : Fault} (h : m.effect = .error f) :
    m.Faults f ∨ ∃ g, m.symbols.fixupAt m.pc = some g ∧ f = ⟨.unresolvedFixup g.label, m.console⟩ := by
  unfold effect at h
  cases hf : m.fetch with
  | ok i =>
    rw [hf] at h
    exact .inl (m.onlyFaults_execute i f h)
  | error e =>
    rw [hf] at h
    cases h
    rcases fetch_error hf with he | ⟨g, hg, rfl⟩
    · exact .inl (.plain he)
    · exact .inr ⟨g, hg, rfl⟩

theorem safe_effect (m : Machine) : m.Safe m.effect := by
  intro f h
  rcases effect_error h with h | ⟨g, -, rfl⟩
  · exact h.fails
  · exact (if_neg fun h => nomatch h).mpr rfl

/-- What a step that has failed may have changed: the input, by the line that is no integer. -/
structure FailedStep (m : Machine) (e : ExecError) (m' : Machine) : Prop where
  unchanged : m' = { m with console := m'.console }
  output : m'.console.close = m.console.close
  console : e ≠ .invalidInput → m'.console = m.console
  line : e = .invalidInput → m.console.TakesLine m'.console

theorem failedStep_of_step {m m' : Machine} {e : ExecError} (h : m.step = (.error e, m')) :
    m.FailedStep e m' := by
  unfold step at h
  cases hf : m.effect with
  | ok effect => rw [hf] at h; cases h
  | error f =>
    rw [hf] at h
    cases h
    have hs := m.safe_effect f hf
    unfold Fails at hs
    by_cases hi : f.cause = .invalidInput
    · rw [if_pos hi] at hs
      have hout : f.console.close = m.console.close := by
        obtain ⟨line, -, -, hc⟩ := hs
        rw [hc, Console.close_consume]
      exact ⟨rfl, hout, fun he => (he hi).elim, fun _ => hs⟩
    · rw [if_neg hi] at hs
      exact ⟨rfl, congrArg _ hs, fun _ => hs, fun he => (hi he).elim⟩

theorem step_failed {m m' : Machine} {e : ExecError} (h : m.step = (.error e, m')) :
    InPlace.step m = .error e m' ∧ m.FailedStep e m' := by
  refine ⟨?_, failedStep_of_step h⟩
  rw [InPlace.step_eq, h]
  rfl

theorem step_failed_invalidInput :
    let m : Machine := { new .initial with
      memory := Memory.empty.setWord 0x00400000 0x0000000C
      registers := (new .initial).registers.set .v0 5
      console := .buffered (.ofInput [0x78, 0x0A, 0x37]) }
    m.step.1 = .error .invalidInput ∧
      InPlace.step m = .error .invalidInput m.step.2 ∧ m.FailedStep .invalidInput m.step.2 := by
  intro m
  have hword : m.memory.getWord m.pc = 0x0000000C :=
    Memory.getWord_setBytes .empty 0x00400000 0x0000000C (by decide)
  have haccess : Memory.checkAccess m.pc .word = .ok () := by
    decide
  have hread : m.memory.read m.pc .word = .ok 0x0000000C := by
    unfold Memory.read
    rw [haccess]
    exact congrArg Except.ok hword
  have hfetch : m.fetch = .ok .syscall := by
    change (m.memory.read m.pc .word >>= Instr.decode) = _
    rw [hread]
    rfl
  have hservice : Service.ofCode? (m.get .v0) = some .readInt := rfl
  have hline : m.console.nextLine = ([0x78], 2) := rfl
  have hint : Console.integer? [0x78] = none := rfl
  have hsyscall : m.syscall = .error ⟨.invalidInput, m.console.consume 2⟩ := by
    unfold syscall readInt
    simp only [hservice, hline, hint, Nat.succ_ne_zero, if_false]
  have heffect : m.effect = .error ⟨.invalidInput, m.console.consume 2⟩ := by
    unfold effect
    rw [hfetch]
    exact hsyscall
  have hstep : m.step = (.error .invalidInput, { m with console := m.console.consume 2 }) := by
    unfold step
    rw [heffect]
  rw [hstep]
  exact ⟨rfl, step_failed hstep⟩

end Machine

end MipsMachine
