import MipsMachine.Proofs.Assembly.Reachable
import MipsMachine.Proofs.Execution.Services
import MipsMachine.Proofs.Statement.Grammar
import MipsMachine.Proofs.Token.Quotation

namespace MipsMachine

namespace Console

def Accepts : Console → Prop
  | empty => False
  | buffered b => b.output.isFree
  | channel _ => True
  | custom c => c.Accepts

theorem close_write {c : Console} (h : c.Accepts) (data : List Byte) :
    ∃ output, c.close = some output ∧ (c.write data).2.close = some (output ++ data) := by
  induction c with
  | empty => exact h.elim
  | buffered b =>
    have h : b.output.isFree = true := h
    refine ⟨b.output.bytes, rfl, ?_⟩
    simp [write, Buffered.write, Guarded.access_eq, h, close]
  | channel c => exact ⟨c.outgoing, rfl, rfl⟩
  | custom c ih => exact ih h

end Console

namespace Machine

section Line

variable {name text : String}

def stringLine (name text : String) : String := name ++ ": .asciiz " ++ Token.quoted text

theorem reads_stringLine (h : Token.IsIdentifier name.toList) (text : String) :
    Token.Reads (stringLine name text).toList [.ident name, .colon, .ident ".asciiz", .str text] := by
  have hd : Token.IsIdentifier ".asciiz".toList := by decide
  have hr := (Token.Reads.ident hd).append (Token.Reads.quoted text).blank (Token.breaks_cons (by decide) _)
  have hl := (Token.Reads.ident h).append hr.blank.colon (Token.breaks_cons (by decide) _)
  simpa [stringLine] using hl

theorem ofLine_stringLine (h : Token.IsIdentifier name.toList) (text : String) : ∃ start span,
    Stmt.ofLine (stringLine name text) = .ok ⟨some ⟨name, start⟩, some (.directive (.asciiz text)), span⟩ := by
  have hk := (reads_stringLine h text).map_kind_ofLine
  unfold Stmt.ofLine
  generalize Token.ofLine (stringLine name text) = tokens at hk ⊢
  obtain ⟨⟨kind, start⟩, rest, rfl, rfl, h1⟩ := List.map_eq_cons_iff.mp hk
  obtain ⟨⟨kind, colon⟩, rest, rfl, rfl, h2⟩ := List.map_eq_cons_iff.mp h1
  obtain ⟨⟨kind, place⟩, rest, rfl, rfl, h3⟩ := List.map_eq_cons_iff.mp h2
  obtain ⟨⟨kind, span⟩, rest, rfl, rfl, h4⟩ := List.map_eq_cons_iff.mp h3
  obtain ⟨⟨kind, stop⟩, rfl, rfl⟩ := List.map_eq_singleton_iff.mp h4
  refine ⟨start.start, ⟨place.start, span.stop⟩, Stmt.ofTokens_of_line (by simp) ?_⟩
  have hl : Stmt.Line stop
      ([⟨.ident name, start⟩, ⟨.colon, colon⟩] ++ ⟨.ident ".asciiz", place⟩ :: [⟨.str text, span⟩])
      ⟨some ⟨name, start.start⟩, some (.directive (.asciiz text)), ⟨place.start, span.stop⟩⟩ :=
    .nucleus (.label name start colon) (.some (.one (.str text span))) (.directive (.asciiz text))
  simpa [Stmt.endSpan] using hl

end Line

section Assemble

variable {m : Machine} {name text : String}

theorem exists_assembleLine_stringLine (hc : m.Consistent) (hmode : m.mode = .data)
    (hid : Token.IsIdentifier name.toList) (hl : m.symbols.lookup name = none)
    (hw : m.symbols.waitingOn name = [])
    (hroom : m.dataCursor.toNat + (utf8 text).length + 1 ≤ Segment.data.stop.toNat) :
    ∃ m', m.assembleLine (stringLine name text) = (.ok [], m') ∧
      m'.symbols.lookup name = some m.dataCursor ∧
      m'.memory = m.memory.setBytes m.dataCursor (utf8 text ++ [0]) := by
  obtain ⟨start, span, hs⟩ := ofLine_stringLine hid text
  let s : Stmt := ⟨some ⟨name, start⟩, some (.directive (.asciiz text)), span⟩
  let data : Store := (m.dataCursor, utf8 text ++ [0])
  have ha : m.cursors.aligned s = m.dataCursor := alignUp_one m.dataCursor
  have hhere : m.cursors.here s = m.dataCursor := by
    rw [Cursors.here, show m.cursors.mode = .data from hmode]
    exact ha
  have hfits : m.cursors.Fits s := by
    refine (Cursors.fits_directive_iff rfl).mpr fun _ => ⟨hmode, ?_⟩
    rw [ha]
    simpa [Directive.size, Directive.bytes, Nat.add_assoc] using hroom
  have hacc : m.Accepts s [] [.fixed data] [data] := by
    refine ⟨hfits, ?_, ?_, ?_, rfl⟩
    · rintro l ⟨⟩
      exact hl
    · rw [show m.waiting s = [] from hw]
      rfl
    · rw [Stmt.chunks_directive rfl, ha]
      rfl
  obtain ⟨words, hm⟩ := exists_assemble hc.bounds.text_stop hacc
  have hwords : words = [] := by
    obtain ⟨_, _, _, -, -, hemits⟩ := assemble_ok hc.bounds.text_stop hm
    exact hemits.eq_nil rfl
  refine ⟨m.after s [] [.fixed data] [data], ?_, ?_, rfl⟩
  · rw [Stmt.ofLine] at hs
    rw [assembleLine, assembleTokens, hs, ← hwords]
    exact hm
  · rw [lookup_after, table, Stmt.bind_apply, if_pos ((Stmt.defines_iff rfl name).mpr rfl), hhere]

end Assemble

section Print

def Prints (m : Machine) (data : List Byte) : Prop :=
  ∃ output m', m.console.close = some output ∧ m.step = (.ok (), m') ∧
    m'.console.close = some (output ++ data)

theorem prints_of_holds {m : Machine} {addr : Word} {data : List Byte} (hf : m.fetch = .ok .syscall)
    (hv : m.get .v0 = 4) (ha : m.get .a0 = addr) (hc : m.console.Accepts)
    (hs : m.memory.string addr = .ok data) : m.Prints data := by
  obtain ⟨output, ho, hw⟩ := Console.close_write hc data
  refine ⟨output, m.served (m.console.write data).2, ho, ?_, hw⟩
  rw [step_printString hf hv, ha, hs]
  rfl

/--
A string without zero characters that a line places in memory is what the print service prints from its
label, as long as the bytes there stay as the line has left them.
-/
theorem stringLine_prints {m : Machine} {name text : String} (h : m.Reachable) (hmode : m.mode = .data)
    (hid : Token.IsIdentifier name.toList) (hl : m.symbols.lookup name = none)
    (hw : m.symbols.waitingOn name = []) (hz : '\x00' ∉ text.toList)
    (hroom : m.dataCursor.toNat + (utf8 text).length + 1 ≤ Segment.data.stop.toNat) :
    ∃ m', m.assembleLine (stringLine name text) = (.ok [], m') ∧
      m'.symbols.lookup name = some m.dataCursor ∧
      ∀ n : Machine,
        (∀ a, Store.Covers (m.dataCursor, utf8 text ++ [0]) a → n.memory.getByte a = m'.memory.getByte a) →
        n.fetch = .ok .syscall → n.get .v0 = 4 → n.get .a0 = m.dataCursor → n.console.Accepts →
        n.Prints (utf8 text) := by
  have hc := h.consistent
  obtain ⟨m', hm, hlookup, hmem⟩ := exists_assembleLine_stringLine hc hmode hid hl hw hroom
  refine ⟨m', hm, hlookup, fun n hkept hf hv ha haccepts => ?_⟩
  have hstart : Segment.data.start.toNat ≤ m.dataCursor.toNat := hc.bounds.data_start
  have hlow : Segment.text.start.toNat ≤ Segment.data.start.toNat := by decide
  have hhigh : Segment.data.stop.toNat ≤ Segment.stack.stop.toNat := by decide
  have hin : Store.InRange (m.dataCursor, utf8 text ++ [0]) := by
    have hlast : Segment.data.stop.toNat < 0x100000000 := Segment.data.stop.isLt
    change m.dataCursor.toNat + (utf8 text ++ [0]).length ≤ _
    rw [List.length_append, List.length_singleton]
    omega
  have hholds : n.memory.Holds (m.dataCursor, utf8 text ++ [0]) := by
    apply Memory.Holds.congr _ hkept
    rw [hmem]
    exact Memory.holds_setBytes m.memory hin
  apply prints_of_holds hf hv ha haccepts
  exact Memory.string_of_holds hholds (zero_not_mem_utf8 hz) (by omega) (by omega)

theorem stringLine_prints_hi :
    let m : Machine := ((new .initial).assemble ⟨none, some (.directive .data), ⟨0, 5⟩⟩).2
    ∃ m' n : Machine, m.assembleLine (stringLine "x" "hi\n") = (.ok [], m') ∧ n.fetch = .ok .syscall ∧
      n.get .v0 = 4 ∧ n.get .a0 = m.dataCursor ∧ n.console.Accepts ∧ n.Prints [0x68, 0x69, 0x0A] := by
  intro m
  have hr : m.Reachable := (Reachable.new .initial).assemble _
  have hid : Token.IsIdentifier "x".toList := by decide
  have hz : '\x00' ∉ "hi\n".toList := by decide
  obtain ⟨m', hm, -, hprints⟩ :=
    stringLine_prints hr rfl hid (Symbols.lookup_empty "x") (Symbols.waitingOn_empty "x") hz (by decide)
  let code : Store := (0x00400000, Instr.syscall.encode.bytes)
  let n : Machine := { holding .syscall with
    memory := m'.memory.setBytes code.1 code.2
    registers := (RegisterFile.initial.set .v0 4).set .a0 m.dataCursor
    console := .channel ⟨[], #[]⟩ }
  have hold := fetchable_holding .syscall
  have hword : n.memory.getWord 0x00400000 = Instr.syscall.encode :=
    Memory.getWord_setBytes _ _ _ (by decide)
  have hf : n.fetch = .ok .syscall := fetch_eq ⟨hold.aligned, hold.text, hold.settled, hword⟩
  refine ⟨m', n, hm, hf, rfl, rfl, trivial, hprints n ?_ hf rfl rfl trivial⟩
  rintro a ⟨hle, -⟩
  have hin : code.stop ≤ 0x100000000 := by decide
  have hcode : code.byteAt a = none := by
    rw [Store.byteAt_eq_none_iff]
    rintro ⟨-, hlt⟩
    have hstop : code.stop ≤ Segment.data.start.toNat := by decide
    exact Nat.not_lt.mpr (Nat.le_trans hstop hle) hlt
  change (m'.memory.setBytes code.1 code.2).getByte a = _
  rw [Memory.getByte_setStore _ _ hin, hcode]
  rfl

end Print

end Machine

end MipsMachine
