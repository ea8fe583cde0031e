import MipsMachine.Assembly.Emit
import MipsMachine.Proofs.Assembly.Pieces
import MipsMachine.Proofs.Instruction.Fields
import MipsMachine.Proofs.Instruction.Printing

namespace MipsMachine

namespace Machine

variable {m : Machine}

theorem assemble_real (hm : m.mode = .text) (i : Instr) (span : Span) :
    m.assemble ⟨none, some (.instr (.real i)), span⟩ =
      ((m.emitText i.encode).1.map fun _ => [i.encode], (m.emitText i.encode).2) := by
  unfold assemble emitText planStmt alignedCursor
  simp only [hm, bind, Except.bind, planInstr, SourceInstr.expand, Plan.pieces, Plan.piece, idle]
  cases Segment.text.advance m.textCursor 4 <;> rfl

theorem assembleLine_text_eq (hm : m.mode = .text) {i : Instr} (hi : ¬ i.TakesLabel) :
    m.assembleLine i.text = ((m.emitText i.encode).1.map fun _ => [i.encode], (m.emitText i.encode).2) := by
  obtain ⟨span, hs⟩ := Instr.exists_ofLine_text hi
  rw [← assemble_real hm i span, assembleLine, assembleTokens,
    show Stmt.ofTokens (Token.ofLine i.text) = _ from hs]

theorem emitText_ok (word : Word) (h : m.textCursor.toNat + 4 ≤ Segment.text.stop.toNat) :
    (m.emitText word).1 = .ok m.textCursor := by
  rw [emitText, Segment.advance_eq_ok_iff.mpr ⟨h, rfl⟩]

theorem assembleLine_text (hm : m.mode = .text) (h : m.textCursor.toNat + 4 ≤ Segment.text.stop.toNat) :
    (∀ i : Instr, ¬ i.TakesLabel → (m.assembleLine i.text).1 = .ok [i.encode]) ∧
    ∀ w i, Instr.decode w = .ok i → ¬ i.TakesLabel → (m.assembleLine i.text).1 = .ok [w &&& i.used] := by
  have hline {i : Instr} (hi : ¬ i.TakesLabel) : (m.assembleLine i.text).1 = .ok [i.encode] := by
    rw [assembleLine_text_eq hm hi, emitText_ok i.encode h]
    rfl
  refine ⟨fun i => hline, fun w i hw hi => ?_⟩
  rw [hline hi, Instr.encode_of_decode? (Instr.decode_ok_iff.mp hw)]

theorem assembleLine_text_lw :
    ((new .initial).assembleLine "lw $t0, -4($sp)").1 = .ok [0x8FA8FFFC] ∧
      ((new .initial).assembleLine "jr $ra").1 = .ok [0x03FFFFC8 &&& (Instr.jr .ra).used] := by
  have hlw : (Instr.mem .lw ⟨8⟩ .sp (-4)).text = "lw $t0, -4($sp)" := by decide
  have hjr : (Instr.jr .ra).text = "jr $ra" := by decide
  obtain ⟨hline, hword⟩ := assembleLine_text (m := new .initial) rfl (by decide)
  rw [← hlw, ← hjr]
  exact ⟨hline (.mem .lw ⟨8⟩ .sp (-4)) id, hword 0x03FFFFC8 (.jr .ra) rfl id⟩

end Machine

end MipsMachine
