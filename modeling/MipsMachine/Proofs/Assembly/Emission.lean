import MipsMachine.Proofs.Assembly.Disassembly
import MipsMachine.Proofs.Assembly.Planning

namespace MipsMachine

inductive Datum where
  | byte (value : Byte)
  | half (value : Half)
  | word (value : Word)
  | asciiz (text : String)

def Datum.directive : Datum → Directive
  | byte value => .byte [value]
  | half value => .half [value]
  | word value => .word [value]
  | asciiz text => .asciiz text

theorem Datum.target_directive (v : Datum) : v.directive.target = none := by
  cases v <;> rfl

theorem Datum.size_directive (v : Datum) : v.directive.size = v.directive.bytes.length := by
  cases v <;> rfl

namespace Machine

variable {m : Machine}

def emit (m : Machine) : Datum → Except AsmError Word × Machine
  | .byte value => m.emitByte value
  | .half value => m.emitHalf value
  | .word value => m.emitWord value
  | .asciiz text => m.emitAsciiz text

def listed (m : Machine) (d : Directive) : Machine :=
  { m with
    memory := m.memory.setBytes m.dataCursor d.bytes
    dataCursor := m.dataCursor + BitVec.ofNat 32 d.size }

theorem emit_eq (m : Machine) (v : Datum) :
    m.emit v = m.emitData v.directive.bytes v.directive.alignment := by
  cases v <;> rfl

theorem emit_misaligned {v : Datum} (h : m.dataCursor.toNat % v.directive.alignment ≠ 0) :
    m.emit v = (.error (AsmCause.misalignedData m.dataCursor).spanless, m) := by
  rw [emit_eq, emitData, if_pos h]

theorem emit_aligned {v : Datum} (h : m.dataCursor.toNat % v.directive.alignment = 0) :
    m.emit v =
      if m.dataCursor.toNat + v.directive.size ≤ Segment.data.stop.toNat then
        (.ok m.dataCursor, m.listed v.directive)
      else (.error (AsmCause.segmentOverflow .data).spanless, m) := by
  rw [emit_eq, emitData, if_neg (not_not_intro h), ← v.size_directive, Segment.advance]
  by_cases hle : m.dataCursor.toNat + v.directive.size ≤ Segment.data.stop.toNat
  · rw [if_pos hle, if_pos hle]
    rfl
  · rw [if_neg hle, if_neg hle]

theorem assemble_aligned {d : Directive} (hd : d.target = none) (hm : m.mode = .data)
    (h : m.dataCursor.toNat % d.alignment = 0) (span : Span) :
    m.assemble ⟨none, some (.directive d), span⟩ =
      if m.dataCursor.toNat + d.size ≤ Segment.data.stop.toNat then (.ok [], m.listed d)
      else (.error ((AsmCause.segmentOverflow .data).marked span), m) := by
  have hal : m.cursors.aligned ⟨none, some (.directive d), span⟩ = m.dataCursor := if_pos h
  have hcursor := alignedCursor_data (s := ⟨none, some (.directive d), span⟩) rfl hd hm
  rw [hal] at hcursor
  unfold assemble planStmt
  rw [hcursor]
  by_cases hstop : m.dataCursor.toNat ≤ Segment.data.stop.toNat
  · rw [if_pos hstop]
    simp only [bind, Except.bind, planDirective_data hd, Segment.advance]
    by_cases hle : m.dataCursor.toNat + d.size ≤ Segment.data.stop.toNat
    · rw [if_pos hle, if_pos hle]
      rfl
    · rw [if_neg hle, if_neg hle]
      rfl
  · rw [if_neg hstop, if_neg (by omega)]
    rfl

theorem emit_eq_assemble (m : Machine) (span : Span) :
    (∀ v : Datum, m.mode = .data → m.dataCursor.toNat % v.directive.alignment = 0 →
      let assembled := m.assemble ⟨none, some (.directive v.directive), span⟩
      if m.dataCursor.toNat + v.directive.size ≤ Segment.data.stop.toNat then
        ∃ n, m.emit v = (.ok m.dataCursor, n) ∧ assembled = (.ok [], n)
      else
        m.emit v = (.error (AsmCause.segmentOverflow .data).spanless, m) ∧
          assembled = (.error ((AsmCause.segmentOverflow .data).marked span), m)) ∧
    (∀ v : Datum, m.dataCursor.toNat % v.directive.alignment ≠ 0 →
      m.emit v = (.error (AsmCause.misalignedData m.dataCursor).spanless, m)) ∧
    (∀ i : Instr, m.mode = .text →
      let assembled := m.assemble ⟨none, some (.instr (.real i)), span⟩
      if m.textCursor.toNat + 4 ≤ Segment.text.stop.toNat then
        ∃ n, m.emitText i.encode = (.ok m.textCursor, n) ∧ assembled = (.ok [i.encode], n)
      else
        m.emitText i.encode = (.error (AsmCause.segmentOverflow .text).spanless, m) ∧
          assembled = (.error (AsmCause.segmentOverflow .text).spanless, m)) := by
  refine ⟨?_, fun v => emit_misaligned, ?_⟩
  · intro v hm ha assembled
    rw [emit_aligned ha, show assembled = _ from assemble_aligned v.target_directive hm ha span]
    split
    · exact ⟨_, rfl, rfl⟩
    · exact ⟨rfl, rfl⟩
  · intro i hm assembled
    rw [show assembled = _ from assemble_real hm i span, emitText, Segment.advance]
    split
    · exact ⟨_, rfl, rfl⟩
    · exact ⟨rfl, rfl⟩

theorem emit_eq_assemble_stop :
    let opened := ((new .initial).assemble ⟨none, some (.directive .data), ⟨0, 5⟩⟩).2
    let m := (opened.assemble ⟨none, some (.directive (.space 0x3FFFE)), ⟨0, 14⟩⟩).2
    let text : Datum := .asciiz "ab"
    (∃ n, m.emit (.half 7) = (.ok 0x1003FFFE, n) ∧
      m.assemble ⟨none, some (.directive (.half [7])), ⟨0, 7⟩⟩ = (.ok [], n)) ∧
    m.emit text = (.error (AsmCause.segmentOverflow .data).spanless, m) ∧
    m.assemble ⟨none, some (.directive text.directive), ⟨0, 7⟩⟩ =
      (.error ((AsmCause.segmentOverflow .data).marked ⟨0, 7⟩), m) ∧
    m.emit (.word 7) = (.error (AsmCause.misalignedData 0x1003FFFE).spanless, m) ∧
    ∃ n, (new .initial).emitText Instr.syscall.encode = (.ok 0x00400000, n) ∧
      (new .initial).assemble ⟨none, some (.instr (.real .syscall)), ⟨0, 7⟩⟩ = (.ok [0x0000000C], n) := by
  intro opened m text
  have hm : m.mode = .data := by decide +kernel
  have hcursor : m.dataCursor = 0x1003FFFE := by decide +kernel
  have hroom : ¬ (0x1003FFFE : Word).toNat + text.directive.size ≤ Segment.data.stop.toNat := by decide
  clear_value m
  obtain ⟨hdata, hmisaligned, -⟩ := emit_eq_assemble m ⟨0, 7⟩
  rw [hcursor] at hdata hmisaligned
  have hhalf := hdata (.half 7) hm (by decide)
  have hfull := hdata text hm (by decide)
  rw [if_pos (by decide)] at hhalf
  rw [if_neg hroom] at hfull
  exact ⟨hhalf, hfull.1, hfull.2, hmisaligned (.word 7) (by decide),
    (emit_eq_assemble (new .initial) ⟨0, 7⟩).2.2 .syscall rfl⟩

end Machine

end MipsMachine
