import Mathlib.Data.List.Pairwise
import MipsMachine.Assembly.Emit
import MipsMachine.Proofs.Assembly.Line
import MipsMachine.Proofs.Execution.Running

/-!
The machines that a program using this library can get hold of, and what holds of their cursors and of
their pending references: these stand in order in what has been assembled, and their labels are unknown.
-/

namespace MipsMachine.Machine

/-- What the operations make of a new machine, when the parts open to all are set freely in between. -/
inductive Reachable : Machine → Prop
  | new (flags : Flags) : Reachable (new flags)
  | assemble {m : Machine} (h : Reachable m) (s : Stmt) : Reachable (m.assemble s).2
  | define {m : Machine} (h : Reachable m) (label : String) (addr : Word) : Reachable (m.define label addr).2
  | emitText {m : Machine} (h : Reachable m) (word : Word) : Reachable (m.emitText word).2
  | emitByte {m : Machine} (h : Reachable m) (byte : Byte) : Reachable (m.emitByte byte).2
  | emitHalf {m : Machine} (h : Reachable m) (half : Half) : Reachable (m.emitHalf half).2
  | emitWord {m : Machine} (h : Reachable m) (word : Word) : Reachable (m.emitWord word).2
  | emitAsciiz {m : Machine} (h : Reachable m) (text : String) : Reachable (m.emitAsciiz text).2
  | step {m : Machine} (h : Reachable m) : Reachable m.step.2
  | resume {m : Machine} (h : Reachable m) : Reachable { m with halted := false }
  | reset {m : Machine} (h : Reachable m) : Reachable m.reset
  | set {m : Machine} (h : Reachable m) (memory : Memory) (registers : RegisterFile) (pc : Word)
      (count : BitVec 64) (flags : Flags) (breakpoints : List Breakpoint) (console : Console) :
      Reachable { m with memory, registers, pc, count, flags, breakpoints, console }

namespace Reachable

variable {m : Machine}

theorem assembleTokens (h : m.Reachable) (tokens : List Token) : (m.assembleTokens tokens).2.Reachable := by
  unfold Machine.assembleTokens
  cases Stmt.ofTokens tokens with
  | error e => exact h
  | ok s => exact h.assemble s

theorem assembleLine (h : m.Reachable) (src : String) : (m.assembleLine src).2.Reachable :=
  h.assembleTokens (Token.ofLine src)

theorem assembleLines (h : m.Reachable) (lines : List String) : (m.assembleLines lines).2.Reachable := by
  induction lines generalizing m with
  | nil => exact h
  | cons line rest ih => exact ih (h.assembleLine line)

theorem runWhile {σ : Type} {wire : Tripwire σ} (hw : ∀ s m, m.Reachable → (wire s m).2.2.Reachable)
    (h : m.Reachable) {fuel : Nat} {s : σ} {r : Run σ} (hr : m.runWhile wire fuel s = some r) :
    r.machine.Reachable :=
  runWhile_preserves hw (fun _ h => h.step) (fun _ h => h.resume) h hr

end Reachable

section Emit

variable (m : Machine)

theorem emitText_eq (word : Word) :
    ∃ memory textCursor, (m.emitText word).2 = { m with memory := memory, textCursor := textCursor } := by
  unfold emitText
  cases Segment.text.advance m.textCursor 4 <;> exact ⟨_, _, rfl⟩

theorem emitData_eq (bytes : List Byte) (alignment : Nat) :
    ∃ memory dataCursor, (m.emitData bytes alignment).2 =
      { m with memory := memory, dataCursor := dataCursor } := by
  unfold emitData
  split
  · exact ⟨_, _, rfl⟩
  · cases Segment.data.advance m.dataCursor bytes.length <;> exact ⟨_, _, rfl⟩

end Emit

structure Consistent (m : Machine) : Prop where
  bounds : m.cursors.InBounds
  indexed : m.symbols.Indexed
  placed : ∀ f ∈ m.symbols.fixups, (Chunk.ref f).Between .start m.cursors
  sorted : m.symbols.fixups.Pairwise fun f g => f.stop ≤ g.addr.toNat
  unknown : ∀ f ∈ m.symbols.fixups, m.symbols.lookup f.label = none

namespace Consistent

variable {m m' : Machine} {s : Stmt} {rewrites : List Store} {chunks : List Chunk} {stores : List Store}

theorem congr (h : m.Consistent) (hc : m'.cursors = m.cursors) (hs : m'.symbols = m.symbols) :
    m'.Consistent := by
  constructor
  · rw [hc]; exact h.bounds
  · rw [hs]; exact h.indexed
  · rw [hs, hc]; exact h.placed
  · rw [hs]; exact h.sorted
  · rw [hs]; exact h.unknown

theorem apart (h : m.Consistent) {f g : Fixup} (hf : f ∈ m.symbols.fixups) (hg : g ∈ m.symbols.fixups)
    (hne : f ≠ g) : (Chunk.ref f).Apart (.ref g) := by
  have hsym : Std.Symm fun f g : Fixup => (Chunk.ref f).Apart (.ref g) := ⟨fun _ _ => Or.symm⟩
  have hp : m.symbols.fixups.Pairwise fun f g => (Chunk.ref f).Apart (.ref g) := h.sorted.imp Or.inl
  exact hp.forall hf hg hne

theorem advance (h : m.Consistent) (hs : m'.symbols = m.symbols) (hb : m'.cursors.InBounds)
    (ht : m.textCursor.toNat ≤ m'.textCursor.toNat) (hd : m.dataCursor.toNat ≤ m'.dataCursor.toNat) :
    m'.Consistent := by
  refine ⟨hb, ?_, ?_, ?_, ?_⟩
  · rw [hs]; exact h.indexed
  · rw [hs]
    intro f hf
    exact (h.placed f hf).mono ⟨Nat.le_refl _, ht⟩ ⟨Nat.le_refl _, hd⟩
  · rw [hs]; exact h.sorted
  · rw [hs]; exact h.unknown

theorem of_fixups_eq_nil (hb : m.cursors.InBounds) (hi : m.symbols.Indexed) (hf : m.symbols.fixups = []) :
    m.Consistent := by
  refine ⟨hb, hi, ?_, ?_, ?_⟩ <;> rw [hf]
  · exact fun f hf => (List.not_mem_nil hf).elim
  · exact .nil
  · exact fun f hf => (List.not_mem_nil hf).elim

theorem new (flags : Flags) : (new flags).Consistent :=
  of_fixups_eq_nil Cursors.inBounds_start Symbols.indexed_empty Symbols.fixups_empty

theorem reset (m : Machine) : m.reset.Consistent := by
  have hb : m.reset.cursors.InBounds := Cursors.inBounds_start
  have hs : m.reset.symbols = if m.flags.clearSymbolsOnReset then .empty else m.symbols.clearFixups := rfl
  apply of_fixups_eq_nil hb <;> rw [hs] <;> split
  · exact Symbols.indexed_empty
  · exact m.symbols.indexed_clearFixups
  · exact Symbols.fixups_empty
  · exact m.symbols.fixups_clearFixups

theorem after (h : m.Consistent) (ha : m.Accepts s rewrites chunks stores) :
    (m.after s rewrites chunks stores).Consistent := by
  obtain ⟨hb, ht, hd⟩ := h.bounds.next ha.fits
  obtain ⟨hc, hp⟩ := Stmt.bounds_chunks h.bounds ha.fits ha.chunks_eq
  have hold : ∀ f ∈ m.symbols.fixups.filter (¬ s.Defines ·.label),
      f ∈ m.symbols.fixups ∧ ¬ s.Defines f.label := by
    intro f hf
    obtain ⟨hm, hl⟩ := List.mem_filter.mp hf
    exact ⟨hm, of_decide_eq_true hl⟩
  refine ⟨hb, indexed_after h.indexed, ?_, ?_, ?_⟩ <;> rw [fixups_after h.indexed]
  · intro f hf
    rcases List.mem_append.mp hf with hf | hf
    · exact (h.placed f (hold f hf).1).mono ⟨Nat.le_refl _, ht⟩ ⟨Nat.le_refl _, hd⟩
    · exact (hc _ (Chunk.mem_pending.mp hf).1).mono ⟨h.bounds.text_start, Nat.le_refl _⟩
        ⟨h.bounds.data_start, Nat.le_refl _⟩
  · rw [List.pairwise_append]
    refine ⟨h.sorted.filter _, ?_, ?_⟩
    · apply hp.filterMap
      intro k l hkl f hf g hg
      obtain ⟨rfl, -⟩ := Chunk.pending_eq_some_iff.mp hf
      obtain ⟨rfl, -⟩ := Chunk.pending_eq_some_iff.mp hg
      exact hkl
    · intro f hf g hg
      exact Nat.le_trans (h.placed f (hold f hf).1).ref.2.2 (hc _ (Chunk.mem_pending.mp hg).1).ref.1
  · intro f hf
    rw [lookup_after]
    rcases List.mem_append.mp hf with hf | hf
    · obtain ⟨hm, hl⟩ := hold f hf
      rw [table, Stmt.bind_apply, if_neg hl]
      exact h.unknown f hm
    · exact (Chunk.mem_pending.mp hf).2

theorem assemble (h : m.Consistent) (s : Stmt) : (m.assemble s).2.Consistent := by
  cases ha : m.assemble s with
  | mk result m' =>
    cases result with
    | error e => exact (assemble_error ha) ▸ h
    | ok words =>
      obtain ⟨rewrites, chunks, stores, hacc, rfl, -⟩ := assemble_ok h.bounds.text_stop ha
      exact h.after hacc

theorem of_define (h : m.Consistent) {label : String} {addr : Word} {m' : Machine}
    (hc : m'.cursors = m.cursors) (hs : m'.symbols = m.symbols.define label addr) : m'.Consistent := by
  have hf : m'.symbols.fixups = m.symbols.fixups.filter (·.label ≠ label) := by
    rw [hs, Symbols.fixups_define h.indexed]
  have hold : ∀ f ∈ m'.symbols.fixups, f ∈ m.symbols.fixups ∧ f.label ≠ label := by
    intro f hm
    rw [hf] at hm
    exact ⟨(List.mem_filter.mp hm).1, of_decide_eq_true (List.mem_filter.mp hm).2⟩
  constructor
  · rw [hc]; exact h.bounds
  · rw [hs]; exact h.indexed.define label addr
  · rw [hc]
    exact fun f hm => h.placed f (hold f hm).1
  · rw [hf]
    exact h.sorted.filter _
  · intro f hm
    rw [hs, Symbols.lookup_define, if_neg (Ne.symm (hold f hm).2)]
    exact h.unknown f (hold f hm).1

theorem define (h : m.Consistent) (label : String) (addr : Word) : (m.define label addr).2.Consistent := by
  cases hd : m.define label addr with
  | mk result m' =>
    cases result with
    | error e => exact (define_error hd) ▸ h
    | ok u =>
      obtain ⟨-, rewrites, -, rfl⟩ := define_ok_iff.mp hd
      exact h.of_define rfl rfl

theorem emitText (h : m.Consistent) (word : Word) : (m.emitText word).2.Consistent := by
  unfold Machine.emitText
  cases ha : Segment.text.advance m.textCursor 4 with
  | error e => exact h
  | ok next =>
    obtain ⟨hle, rfl⟩ := Segment.advance_eq_ok_iff.mp ha
    have hn := Segment.toNat_of_le_stop hle
    have hb := h.bounds
    have hal : m.textCursor.toNat % 4 = 0 := hb.text_aligned
    have hst : Segment.text.start.toNat ≤ m.textCursor.toNat := hb.text_start
    have hnext : Cursors.InBounds ⟨m.textCursor + BitVec.ofNat 32 4, m.dataCursor, m.mode⟩ := by
      refine ⟨?_, ?_, ?_, hb.data_start, hb.data_stop⟩ <;> rw [hn]
      · omega
      · omega
      · exact hle
    exact h.advance rfl hnext (hn ▸ Nat.le_add_right _ _) (Nat.le_refl _)

theorem emitData (h : m.Consistent) (bytes : List Byte) (alignment : Nat) :
    (m.emitData bytes alignment).2.Consistent := by
  unfold Machine.emitData
  by_cases hm : m.dataCursor.toNat % alignment ≠ 0
  · rw [if_pos hm]
    exact h
  · rw [if_neg hm]
    cases ha : Segment.data.advance m.dataCursor bytes.length with
    | error e => exact h
    | ok next =>
      obtain ⟨hle, rfl⟩ := Segment.advance_eq_ok_iff.mp ha
      have hn := Segment.toNat_of_le_stop hle
      have hb := h.bounds
      have hst : Segment.data.start.toNat ≤ m.dataCursor.toNat := hb.data_start
      have hnext : Cursors.InBounds ⟨m.textCursor, m.dataCursor + BitVec.ofNat 32 bytes.length, m.mode⟩ := by
        refine ⟨hb.text_aligned, hb.text_start, hb.text_stop, ?_, ?_⟩ <;> rw [hn]
        · omega
        · exact hle
      exact h.advance rfl hnext (Nat.le_refl _) (hn ▸ Nat.le_add_right _ _)

theorem step (h : m.Consistent) : m.step.2.Consistent := by
  unfold Machine.step
  cases m.effect with
  | error f => exact h.congr rfl rfl
  | ok e => exact h.congr rfl rfl

end Consistent

theorem Reachable.consistent {m : Machine} (h : m.Reachable) : m.Consistent := by
  induction h with
  | new flags => exact .new flags
  | assemble _ s ih => exact ih.assemble s
  | define _ label addr ih => exact ih.define label addr
  | emitText _ word ih => exact ih.emitText word
  | emitByte _ byte ih => exact ih.emitData _ _
  | emitHalf _ half ih => exact ih.emitData _ _
  | emitWord _ word ih => exact ih.emitData _ _
  | emitAsciiz _ text ih => exact ih.emitData _ _
  | step _ ih => exact ih.step
  | resume _ ih => exact ih.congr rfl rfl
  | @reset m _ _ => exact .reset m
  | set _ memory registers pc count flags breakpoints console ih => exact ih.congr rfl rfl

section Jumping

def jumping : Stmt := ⟨none, some (.instr (.jump .j ⟨"l", 2⟩)), ⟨0, 3⟩⟩

variable (flags : Flags)

theorem accepts_jumping : (Machine.new flags).Accepts jumping [] [.ref ⟨0x00400000, "l", .jump .j⟩]
    [(0x00400000, [0x08, 0x00, 0x00, 0x00])] := by
  have hstop : Segment.text.start.toNat + 4 * 1 ≤ Segment.text.stop.toNat := by decide
  refine ⟨⟨rfl, hstop⟩, fun l hl => (nomatch hl), rfl, rfl, ?_⟩
  have ht : (Machine.new flags).table jumping "l" = none := Symbols.lookup_empty "l"
  rw [List.mapM_cons, Chunk.store, ht]
  rfl

theorem assemble_jumping : ∃ words, (Machine.new flags).assemble jumping = (.ok words,
    (Machine.new flags).after jumping [] [.ref ⟨0x00400000, "l", .jump .j⟩]
      [(0x00400000, [0x08, 0x00, 0x00, 0x00])]) :=
  exists_assemble (m := Machine.new flags) (show Segment.text.start.toNat ≤ Segment.text.stop.toNat by decide)
    (accepts_jumping flags)

theorem fixups_jumping :
    ((Machine.new flags).assemble jumping).2.symbols.fixups = [⟨0x00400000, "l", .jump .j⟩] := by
  have ht : (Machine.new flags).table jumping "l" = none := Symbols.lookup_empty "l"
  obtain ⟨words, h⟩ := assemble_jumping flags
  rw [h, fixups_after Symbols.indexed_empty]
  simp only [List.filterMap_cons, List.filterMap_nil, Chunk.pending, ht, if_true]
  rfl

theorem lookup_jumping (name : String) :
    ((Machine.new flags).assemble jumping).2.symbols.lookup name = none := by
  obtain ⟨words, h⟩ := assemble_jumping flags
  rw [h, lookup_after]
  exact Symbols.lookup_empty name

end Jumping

end MipsMachine.Machine
