import MipsMachine.Proofs.Console.Input
import MipsMachine.Proofs.Console.Integer
import MipsMachine.Proofs.Execution.Iteration
import MipsMachine.Proofs.Memory.Buffer
import MipsMachine.Proofs.Memory.CString

namespace MipsMachine.Machine

def served (m : Machine) (c : Console) : Machine := { m with pc := m.pc + 4, count := m.count + 1, console := c }

section Step

variable {m : Machine}

theorem perform_next (m : Machine) (c : Console) : m.perform { m.next with console := c } = m.served c := by
  simp [perform, next, served]

theorem step_of_printing (hf : m.fetch = .ok .syscall) {data : List Byte} (h : m.syscall = .ok (m.printing data)) :
    m.step = (.ok (), m.served (m.console.write data).2) := by
  rw [step_of_fetch hf h]
  exact congrArg _ (m.perform_next _)

end Step

section PrintString

def offering (m : Machine) : Except ExecError (List Byte) → Except ExecError Unit × Machine
  | .ok data => (.ok (), m.served (m.console.write data).2)
  | .error e => (.error e, m)

/--
The service prints the bytes from an address up to the first zero, whatever segments they are in. The loop
that looks for it ends, for an address past the segments in its first iteration.
-/
structure PrintsString (m : Machine) (a : Word) : Prop where
  outside : (∀ s : Segment, ¬ s.Contains a) → m.step = (.error (.accessViolation a), m)
  found : (∃ s : Segment, s.Contains a) → (∃ b, a ≤ b ∧ b < Segment.stack.stop ∧ m.memory.getByte b = 0) →
    ∃ b, m.memory.FirstZero a b ∧
      m.step = (.ok (), m.served (m.console.write (m.memory.bytes a (b.toNat - a.toNat))).2)
  missing : (∃ s : Segment, s.Contains a) → (∀ b, a ≤ b → b < Segment.stack.stop → m.memory.getByte b ≠ 0) →
    m.step = (.error (.accessViolation Segment.stack.stop), m)
  loop : ∃ n result, n ≤ Segment.stack.stop.toNat - a.toNat + 1 ∧ Scan.Ends m.memory ⟨a, []⟩ n result ∧
    m.step = m.offering result

variable {m : Machine}

theorem step_printString (hf : m.fetch = .ok .syscall) (hv : m.get .v0 = 4) :
    m.step = m.offering (m.memory.string (m.get .a0)) := by
  have hservice : Service.ofCode? (m.get .v0) = some .printString := hv ▸ rfl
  cases hs : m.memory.string (m.get .a0) with
  | ok data =>
    apply step_of_printing hf
    unfold syscall
    simp only [hservice, hs]
  | error e =>
    apply step_of_failure hf
    change m.syscall = _
    unfold syscall
    simp only [hservice, hs]

theorem printsString_of_fetch (hf : m.fetch = .ok .syscall) (hv : m.get .v0 = 4) :
    m.PrintsString (m.get .a0) := by
  have hstep := step_printString hf hv
  constructor
  case outside =>
    intro h
    rw [hstep, Memory.string_outside h]
    rfl
  case found =>
    intro h hz
    obtain ⟨b, hb⟩ := Memory.exists_firstZero hz
    refine ⟨b, hb, ?_⟩
    rw [hstep, Memory.string_of_firstZero h hb]
    rfl
  case missing =>
    intro h hn
    rw [hstep, Memory.string_of_no_zero h hn]
    rfl
  case loop =>
    obtain ⟨n, hn, h⟩ := m.memory.exists_ends (m.get .a0)
    exact ⟨n, _, hn, h, hstep⟩

theorem printsString_across_segments :
    let m : Machine := { holding .syscall with
      memory := (holding .syscall).memory.setBytes 0x0FFFFFFF [0x68, 0x69, 0x00]
      registers := ((holding .syscall).registers.set .v0 4).set .a0 0x0FFFFFFF
      console := .channel ⟨[], #[]⟩ }
    m.fetch = .ok .syscall ∧ m.get .v0 = 4 ∧ m.PrintsString (m.get .a0) ∧
      ∃ m', m.step = (.ok (), m') ∧ m'.console.close = some #[0x68, 0x69] := by
  intro m
  have hold := fetchable_holding .syscall
  have hin : Store.InRange (0x0FFFFFFF, [0x68, 0x69, 0x00]) :=
    show (0x0FFFFFFF : Word).toNat + 3 ≤ 0x100000000 by decide
  have hword : m.memory.getWord 0x00400000 = Instr.syscall.encode := by
    refine (Memory.getWord_congr (fun b _ hlt => ?_) (by decide)).trans hold.word
    refine (Memory.getByte_setStore _ _ hin b).trans ?_
    have hb : ¬ (0x0FFFFFFF : Word).toNat ≤ b.toNat := Nat.not_le.mpr (Nat.lt_trans hlt (by decide))
    rw [Store.byteAt, if_neg hb]
    rfl
  have hf : m.fetch = .ok .syscall := fetch_eq ⟨hold.aligned, hold.text, hold.settled, hword⟩
  have hp := printsString_of_fetch hf rfl
  refine ⟨hf, rfl, hp, ?_⟩
  obtain ⟨n, result, hn, hends, hstep⟩ := hp.loop
  have hdata : m.memory.string 0x0FFFFFFF = .ok [0x68, 0x69] :=
    Memory.string_of_holds (Memory.holds_setBytes _ hin) (by decide) (by decide) (by decide)
  obtain rfl : result = .ok [0x68, 0x69] := (hends.string_eq hn).symm.trans hdata
  exact ⟨_, hstep, rfl⟩

end PrintString

section ReadInt

variable {m : Machine}

variable {body : List Byte} {taken : Nat}

end ReadInt

section ReadString

structure FillsBuffer (m : Machine) (start : Word) (size : Nat) (piece : List Byte) (m' : Machine) : Prop where
  untouched : m' = { m.served (m.console.consume piece.length) with memory := m'.memory }
  input : m.console.readable = piece ++ m'.console.readable
  bytes : m'.memory.bytes start (piece.length + 1) = piece ++ [0]
  fits : start.toNat + piece.length ≤ (start + BitVec.ofNat 32 (size - 1)).toNat
  inside : ∃ s : Segment, ∀ a : Word, start ≤ a → a.toNat ≤ start.toNat + piece.length → s.Contains a
  others : ∀ a : Word, ¬ (start ≤ a ∧ a.toNat ≤ start.toNat + piece.length) →
    m'.memory.getByte a = m.memory.getByte a

/--
The service reads no more of a line than there is room for before a zero. Without room for anything it does
nothing, and it takes no input if the buffer is refused.
-/
structure ReadsString (m : Machine) (start size : Word) : Prop where
  idle : size.toInt ≤ 0 → m.step = (.ok (), m.served m.console)
  refused : 0 < size.toInt → ∀ a, RefusesBuffer start size.toNat a → m.step = (.error (.accessViolation a), m)
  read : 0 < size.toInt → (∀ a, ¬ RefusesBuffer start size.toNat a) →
    ∃ piece, Console.LongestPiece (size.toNat - 1) m.console.readable piece ∧
      if piece = [] ∧ 1 < size.toNat then m.step = (.error .inputClosed, m)
      else ∃ m', m.step = (.ok (), m') ∧ m.FillsBuffer start size.toNat piece m'

variable {m : Machine} {start : Word} {size : Nat}

theorem fillsBuffer_perform {piece rest : List Byte} (hb : IsBuffer start size) (hlen : piece.length ≤ size - 1)
    (hi : piece ++ rest = m.console.readable) : m.FillsBuffer start size piece (m.perform { m.next with
      store := some (start, piece ++ [0])
      console := m.console.consume piece.length }) := by
  have hstop : start.toNat + (size - 1) < 0x80000000 := hb.stop_le
  have hall : (piece ++ [0]).length = piece.length + 1 := by
    rw [List.length_append, List.length_singleton]
  have hin : Store.InRange (start, piece ++ [0]) := by
    change start.toNat + (piece ++ [0]).length ≤ _
    omega
  constructor
  case untouched => simp [perform, next, served]
  case input =>
    change _ = piece ++ (m.console.consume piece.length).readable
    rw [Console.readable_consume, ← hi, List.drop_left]
  case bytes =>
    have hbytes := (Memory.holds_setBytes m.memory hin).bytes (by omega)
    rwa [hall] at hbytes
  case fits =>
    rw [Word.toNat_add_ofNat start (size - 1) hb.bound]
    omega
  case inside =>
    obtain ⟨s, hs⟩ := hb.contains
    exact ⟨s, fun a hle hge => hs a hle (by omega)⟩
  case others =>
    intro a ha
    have hout : ¬ Store.Covers (start, piece ++ [0]) a := by
      rintro ⟨hle, hlt⟩
      change a.toNat < start.toNat + (piece ++ [0]).length at hlt
      exact ha ⟨hle, by omega⟩
    refine (Memory.getByte_setStore m.memory _ hin a).trans ?_
    rw [(Store.byteAt_eq_none_iff _ a).mpr hout]
    rfl

theorem execute_readString (hv : m.get .v0 = 8) :
    m.execute .syscall = m.readString (m.get .a0) (m.get .a1) := by
  change m.syscall = _
  unfold syscall
  rw [hv]
  rfl

theorem readsString_of_fetch (hf : m.fetch = .ok .syscall) (hv : m.get .v0 = 8) :
    m.ReadsString (m.get .a0) (m.get .a1) := by
  have hexec := execute_readString hv
  unfold readString at hexec
  constructor
  case idle =>
    intro hs
    rw [if_pos hs] at hexec
    rw [step_of_fetch hf hexec]
    exact congrArg _ (m.perform_next m.console)
  case refused =>
    intro hs a ha
    rw [if_neg (Int.not_le.mpr hs), lastOfBuffer_of_refuses ha] at hexec
    exact step_of_failure hf hexec
  case read =>
    intro hs hn
    have hb := (isBuffer_or_refuses _ _).resolve_right fun ⟨a, ha⟩ => hn a ha
    rw [if_neg (Int.not_le.mpr hs), lastOfBuffer_of_isBuffer hb] at hexec
    refine ⟨_, Console.longestPiece_nextPiece _ _, ?_⟩
    split
    case isTrue he =>
      apply step_of_failure hf
      rw [hexec]
      exact if_pos he
    case isFalse he =>
      refine ⟨_, step_of_fetch hf (hexec.trans (if_neg he)), ?_⟩
      exact fillsBuffer_perform hb (Console.length_nextPiece_le _ _) (Console.nextPiece_append_drop _ _)

theorem readsString_to_segment_end :
    let m : Machine := { holding .syscall with
      registers := (((holding .syscall).registers.set .v0 8).set .a0 0x1003FFFD).set .a1 3
      console := .channel ⟨[0x61, 0x62, 0x0A], #[]⟩ }
    m.fetch = .ok .syscall ∧ m.get .v0 = 8 ∧ m.ReadsString (m.get .a0) (m.get .a1) ∧
      ∃ m', m.step = (.ok (), m') ∧ m'.memory.bytes 0x1003FFFD 3 = [0x61, 0x62, 0x00] ∧
        m'.console.readable = [0x0A] := by
  intro m
  have hf : m.fetch = .ok .syscall := fetch_eq ((fetchable_holding .syscall).congr rfl rfl)
  have hr := readsString_of_fetch hf rfl
  refine ⟨hf, rfl, hr, ?_⟩
  have hb : IsBuffer 0x1003FFFD 3 := ⟨by decide, .data, by decide, by decide⟩
  obtain ⟨piece, hp, h⟩ := hr.read (by decide) fun a => hb.not_refuses
  obtain rfl : piece = [0x61, 0x62] := hp.unique (Console.longestPiece_nextPiece 2 [0x61, 0x62, 0x0A])
  rw [if_neg (by decide)] at h
  obtain ⟨m', hstep, hfills⟩ := h
  exact ⟨m', hstep, hfills.bytes, List.append_cancel_left hfills.input.symm⟩

end ReadString

end MipsMachine.Machine
