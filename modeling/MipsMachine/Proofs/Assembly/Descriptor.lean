import MipsMachine.Proofs.Assembly.TextLine
import MipsMachine.Proofs.Execution.Realization
import MipsMachine.Proofs.Instruction.Fields
import MipsMachine.Proofs.Instruction.Printing
import MipsMachine.Proofs.Statement.Pattern

namespace MipsMachine

namespace RealOp

structure Describes (op : RealOp) (name : String) (w : Word) : Prop where
  opcode : w.extractLsb' 26 6 = op.opcode
  funct : ∀ code, op.funct = some code → w.extractLsb' 0 6 = code
  mnemonic : ∃ i, Instr.decode w = .ok i ∧ i.mnemonic = name

theorem name_unique {name name' : String} {op : RealOp} (h : (name, op) ∈ table) (h' : (name', op) ∈ table) :
    name = name' := by
  have hunique : ∀ e ∈ table, ∀ e' ∈ table, e.2 = e'.2 → e.1 = e'.1 := by decide +kernel
  exact hunique _ h _ h' rfl

end RealOp

namespace Instr

theorem codes_hiLo (op : HiLoOp) (r : Reg) :
    (hiLo op r).encode.extractLsb' 26 6 = 0 ∧ (hiLo op r).encode.extractLsb' 0 6 = code op := by
  rw [encode]
  split <;> simp only [fields_registerWord, and_self]

theorem opcode_encode (i : Instr) : i.encode.extractLsb' 26 6 = i.realOp.opcode := by
  unfold RealOp.opcode
  cases i with
  | hiLo op r => simp only [realOp, RealOp.template, codes_hiLo]
  | _ => simp only [realOp, RealOp.template, encode, fields_registerWord, fields_immediateWord, fields_jumpWord]

theorem funct_encode {i : Instr} {funct : BitVec 6} (h : i.realOp.funct = some funct) :
    i.encode.extractLsb' 0 6 = funct := by
  unfold RealOp.funct at h
  split at h
  case isFalse => cases h
  case isTrue hop =>
    cases h
    -- only the register formats have the opcode zero
    rw [← opcode_encode] at hop
    cases i with
    | imm op | mem op | compare op | zero op =>
      rw [encode, (fields_immediateWord _ _ _ _).1] at hop
      cases op <;> exact absurd hop (by decide)
    | lui =>
      rw [encode, (fields_immediateWord _ _ _ _).1] at hop
      exact absurd hop (by decide)
    | jump op =>
      rw [encode, (fields_jumpWord _ _).1] at hop
      cases op <;> exact absurd hop (by decide)
    | hiLo op r => simp only [realOp, RealOp.template, codes_hiLo]
    | _ => simp only [realOp, RealOp.template, encode, fields_registerWord]

theorem describes_encode {i : Instr} {name : String} (h : (name, i.realOp) ∈ RealOp.table) :
    i.realOp.Describes name i.encode where
  opcode := i.opcode_encode
  funct _ := funct_encode
  mnemonic := ⟨i, decode_ok_iff.mpr i.decode?_encode, RealOp.name_unique i.mnemonic_mem_table h⟩

end Instr

section Pieces

def Patch.op? : Patch → Option RealOp
  | compare op .. => some (.compare op)
  | zero op _ => some (.zero op)
  | jump op => some (.jump op)
  | address _ => none

def Piece.op? : Piece → Option RealOp
  | .word i => some i.realOp
  | .ref patch _ => patch.op?

variable {op : RealOp}

theorem Patch.exists_placeholder {p : Patch} (h : p.op? = some op) :
    ∃ i : Instr, i.realOp = op ∧ p.placeholder = [i.encode] := by
  cases p with
  | compare | zero | jump => cases h; exact ⟨_, rfl, rfl⟩
  | address => cases h

theorem Patch.exists_resolve {p : Patch} (h : p.op? = some op) {addr target : Word} {ws : List Word}
    (hr : p.resolve addr target = .ok ws) : ∃ i : Instr, i.realOp = op ∧ ws = [i.encode] := by
  cases p with
  | compare | zero | jump =>
    cases h
    obtain ⟨field, -, hr⟩ := bind_eq_ok_iff.mp hr
    cases hr
    exact ⟨_, rfl, rfl⟩
  | address => cases h

theorem Chunk.store_ofPiece {p : Piece} (h : p.op? = some op) {addr : Word} {table : LabelTable} {s : Store}
    (hs : (ofPiece addr p).store table = .ok s) :
    ∃ i : Instr, i.realOp = op ∧ s = (addr, [i.encode].flatMap Word.bytes) := by
  cases p with
  | word i =>
    cases h
    cases hs
    exact ⟨i, rfl, by rw [List.flatMap_singleton]⟩
  | ref patch label =>
    rw [ofPiece, store] at hs
    cases ht : table label.name with
    | none =>
      rw [ht] at hs
      obtain ⟨i, hi, hw⟩ := patch.exists_placeholder h
      exact ⟨i, hi, (Except.ok.inj hs).symm.trans (by rw [hw])⟩
    | some target =>
      rw [ht] at hs
      obtain ⟨ws, hr, hs⟩ := bind_eq_ok_iff.mp hs
      obtain ⟨i, hi, rfl⟩ := patch.exists_resolve h hr
      exact ⟨i, hi, (Except.ok.inj hs).symm⟩

theorem SourceInstr.Means.expand_eq {operands : List Operand} {i : SourceInstr} (h : Means op operands i)
    (hsize : i.size = 1) (table : LabelTable) : ∃ p, i.expand table = .ok [p] ∧ p.op? = some op := by
  cases h with
  | memLabel => cases hsize
  | _ => exact ⟨_, rfl, rfl⟩

end Pieces

namespace Stmt

def mnemonic? (tokens : List Token) : Option String :=
  match (splitLabel (tokens.takeWhile fun t => t.kind ≠ .eol)).2 with
  | ⟨.ident name, _⟩ :: _ => some name
  | _ => none

theorem exists_means {tokens : List Token} {s : Stmt} {name : String} {op : RealOp}
    (hop : (name, op) ∈ RealOp.table) (hname : mnemonic? tokens = some name) (h : ofTokens tokens = .ok s) :
    ∃ i operands, s.nucleus = some (.instr i) ∧ SourceInstr.Means op operands i := by
  unfold mnemonic? at hname
  unfold ofTokens at h
  split at h
  case h_1 => cases h
  case h_2 =>
    generalize splitLabel _ = parts at h hname
    obtain ⟨label, body⟩ := parts
    split at hname
    case h_2 => cases hname
    case h_1 heq =>
      cases hname
      dsimp only at heq h
      subst heq
      obtain ⟨operands, -, h⟩ := bind_eq_ok_iff.mp h
      obtain ⟨n, hn, h⟩ := bind_eq_ok_iff.mp h
      cases h
      rw [Nucleus.ofOperands_real hop] at hn
      cases hi : SourceInstr.ofOperands op operands _ with
      | error e => rw [hi] at hn; cases hn
      | ok i =>
        rw [hi] at hn
        cases hn
        exact ⟨i, _, rfl, SourceInstr.means_of_ofOperands hi⟩

end Stmt

namespace Machine

variable {m m' n : Machine} {name : String} {op : RealOp} {w : Word}

theorem describes_of_onward (hm : m.Reachable) (hop : (name, op) ∈ RealOp.table) {s : Stmt} {i : SourceInstr}
    {operands : List Operand} (hs : s.nucleus = some (.instr i)) (hi : SourceInstr.Means op operands i)
    (ha : m.assemble s = (.ok [w], m')) (hn : Onward (m.TextBetween m') m' n) :
    op.Describes name (n.memory.getWord m.textCursor) := by
  have hc := hm.consistent
  obtain ⟨ps, he, -, hk⟩ := keeps_of_onward hm hs ha hn
  obtain ⟨p, hp, hpop⟩ := hi.expand_eq (laidOut_of_assemble hc hs ha).length.symm m'.symbols.lookup
  obtain rfl := Except.ok.inj (he.symm.trans hp)
  obtain ⟨st, hst, hheld⟩ := (hk _ List.mem_cons_self).2
  obtain ⟨j, rfl, rfl⟩ := Chunk.store_ofPiece hpop hst
  have hroom : m.textCursor.toNat + 4 * 1 ≤ 0x100000000 :=
    Nat.le_trans (Nat.add_le_add_right hc.bounds.text_stop _) (by decide)
  have hword : n.memory.words m.textCursor 1 = [j.encode] := hheld.words hroom
  rw [(List.cons.inj hword).1]
  exact Instr.describes_encode hop

theorem describes_line (hm : m.Reachable) (hop : (name, op) ∈ RealOp.table) {src : String}
    (hname : Stmt.mnemonic? (Token.ofLine src) = some name) (ha : m.assembleLine src = (.ok [w], m')) :
    m'.memory.getWord m.textCursor = w ∧
      ∀ n, Onward (m.TextBetween m') m' n → op.Describes name (n.memory.getWord m.textCursor) := by
  unfold assembleLine assembleTokens at ha
  cases hs : Stmt.ofTokens (Token.ofLine src) with
  | error e => rw [hs] at ha; cases ha
  | ok s =>
    rw [hs] at ha
    obtain ⟨i, operands, hnuc, hi⟩ := Stmt.exists_means hop hname hs
    have hlaid := laidOut_of_assemble hm.consistent hnuc ha
    have hwords := hlaid.words
    rw [← hlaid.length] at hwords
    exact ⟨(List.cons.inj hwords).1, fun n => describes_of_onward hm hop hnuc hi ha⟩

end Machine

open Operand Machine

theorem tables_truthful :
    (∀ name op, (name, op) ∈ RealOp.table →
      (∀ operands span, Answers op.Allows op.Holds operands
        ((ParseCause.patternMismatch op.format.pattern).marked span)
        (SourceInstr.ofOperands op operands span)) ∧
      ∀ m m' src w, Reachable m → Stmt.mnemonic? (Token.ofLine src) = some name →
        m.assembleLine src = (.ok [w], m') →
        m'.memory.getWord m.textCursor = w ∧
          ∀ n, Onward (m.TextBetween m') m' n → op.Describes name (n.memory.getWord m.textCursor)) ∧
    ∀ name op, (name, op) ∈ PseudoOp.table → ∀ operands span, Answers (· = op.pattern) op.Holds operands
      ((ParseCause.patternMismatch op.pattern).marked span) (Pseudo.ofOperands op operands span) := by
  refine ⟨fun name op hop => ⟨SourceInstr.answers_ofOperands op, ?_⟩, fun name op _ => Pseudo.answers_ofOperands op⟩
  exact fun m m' src w hm hname ha => describes_line hm hop hname ha

theorem tables_truthful_jump :
    ∃ w m', (new .initial).assembleLine "j l" = (.ok [w], m') ∧ (RealOp.jump .j).Describes "j" w ∧
      let (result, n) := m'.define "l" 0x00400020
      result = .ok () ∧ (RealOp.jump .j).Describes "j" (n.memory.getWord 0x00400000) := by
  have hparse : Stmt.ofTokens (Token.ofLine "j l") = .ok jumping := by decide +kernel
  have hname : Stmt.mnemonic? (Token.ofLine "j l") = some "j" := by decide +kernel
  have hop : ("j", RealOp.jump .j) ∈ RealOp.table := by decide
  obtain ⟨words, ha⟩ := assemble_jumping .initial
  have hc : (new .initial).Consistent := .new .initial
  obtain ⟨w, rfl⟩ := List.length_eq_one_iff.mp (laidOut_of_assemble hc rfl ha).length
  have hline : (new .initial).assembleLine "j l" = (.ok [w], ((new .initial).assemble jumping).2) := by
    rw [assembleLine, assembleTokens, hparse]
    change (new .initial).assemble jumping = _
    rw [ha]
  have hw : (((new .initial).assemble jumping).2.symbols.waitingOn "l").mapM (Fixup.rewrite 0x00400020) =
      .ok [(0x00400000, [0x08, 0x10, 0x00, 0x08])] := by
    rw [Symbols.waitingOn_eq (hc.assemble jumping).indexed, fixups_jumping]
    rfl
  have hd := define_ok_iff.mpr ⟨lookup_jumping .initial "l", _, hw, rfl⟩
  obtain ⟨rfl, hdescribed⟩ := (tables_truthful.1 "j" (.jump .j) hop).2 _ _ _ _ (.new .initial) hname hline
  refine ⟨_, _, hline, hdescribed _ .refl, ?_⟩
  have hresolved := hdescribed _ (Onward.refl.define "l" 0x00400020)
  rw [hd] at hresolved ⊢
  exact ⟨rfl, hresolved⟩

end MipsMachine
