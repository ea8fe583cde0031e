import MipsMachine.Proofs.Symbols.Arena
import MipsMachine.Proofs.Assembly.Reachable

/-!
The symbols of a machine against a plain account of them: a map of labels and a list of references. The
arena, its holes and the positions kept for each label are not to be seen in any answer.
-/

namespace MipsMachine

inductive SymbolOp where
  | record (f : Fixup)
  | define (label : String) (addr : Word)
  | clear
  | clearFixups

structure Ledger where
  labels : String → Option Word
  pending : List Fixup

namespace Ledger

def empty : Ledger := ⟨fun _ => none, []⟩

def act (l : Ledger) : SymbolOp → Ledger
  | .record f => { l with pending := l.pending ++ [f] }
  | .define label addr =>
    ⟨fun name => if label = name then some addr else l.labels name, l.pending.filter (·.label ≠ label)⟩
  | .clear => empty
  | .clearFixups => { l with pending := [] }

def replay (ops : List SymbolOp) : Ledger := ops.foldl act empty

end Ledger

namespace Symbols

def act (s : Symbols) : SymbolOp → Symbols
  | .record f => s.record f
  | .define label addr => s.define label addr
  | .clear => .empty
  | .clearFixups => s.clearFixups

def replay (ops : List SymbolOp) : Symbols := ops.foldl act empty

structure Refines (s : Symbols) (l : Ledger) : Prop where
  lookup : ∀ label, s.lookup label = l.labels label
  fixups : s.fixups = l.pending
  waitingOn : ∀ label, s.waitingOn label = l.pending.filter (·.label = label)
  hasUnresolved : s.hasUnresolved = true ↔ l.pending ≠ []
  fixupAt : ∀ addr, s.fixupAt addr = l.pending.find? (·.covers addr)
  live : ∀ label i, i ∈ s.waiting.getD label [] ↔ ∃ f, s.arena[i]? = some (some f) ∧ f.label = label
  nodup : ∀ label, (s.waiting.getD label []).Nodup
  waited : ∀ label : String, s.waiting[label]? ≠ some []
  emptied : l.pending = [] → s.arena = #[]

structure Tracks (s : Symbols) (l : Ledger) : Prop where
  indexed : s.Indexed
  lookup : ∀ label, s.lookup label = l.labels label
  fixups : s.fixups = l.pending
  emptied : l.pending = [] → s.arena = #[]

theorem arena_release_of_fixups {s : Symbols} (h : s.Indexed) {label : String}
    (hf : (s.release label).fixups = []) : (s.release label).arena = #[] := by
  by_cases he : (s.waiting.erase label).isEmpty = true
  · rw [release_of_isEmpty s he]
  · have hu : (s.release label).hasUnresolved = true := by
      rw [hasUnresolved, Symbols.release, if_neg he, Bool.not_eq_true', ← Bool.not_eq_true]
      exact he
    exact absurd hf ((hasUnresolved_iff (h.release label)).mp hu)

theorem nodup_positions (slots : List (Option Fixup)) (label : String) : (positions slots label).Nodup :=
  List.nodup_range.filter _

namespace Tracks

variable {s : Symbols} {l : Ledger}

theorem empty : Symbols.empty.Tracks .empty := ⟨indexed_empty, lookup_empty, fixups_empty, fun _ => rfl⟩

theorem act (h : s.Tracks l) (op : SymbolOp) : (s.act op).Tracks (l.act op) := by
  cases op with
  | record f =>
    refine ⟨h.indexed.record f, fun label => h.lookup label, ?_, fun hn => ?_⟩
    · exact (s.fixups_record f).trans (congrArg (· ++ [f]) h.fixups)
    · exact absurd hn (List.concat_ne_nil f l.pending)
  | define label addr =>
    have hf : (s.release label).fixups = l.pending.filter (·.label ≠ label) :=
      (fixups_release h.indexed label).trans (congrArg _ h.fixups)
    refine ⟨h.indexed.define label addr, fun name => ?_, hf, fun hn => ?_⟩
    · exact (s.lookup_define label name addr).trans (by rw [h.lookup]; rfl)
    · exact arena_release_of_fixups h.indexed (hf.trans hn)
  | clear => exact empty
  | clearFixups =>
    exact ⟨s.indexed_clearFixups, fun label => h.lookup label, s.fixups_clearFixups, fun _ => rfl⟩

theorem foldl (h : s.Tracks l) (ops : List SymbolOp) :
    (ops.foldl Symbols.act s).Tracks (ops.foldl Ledger.act l) := by
  induction ops generalizing s l with
  | nil => exact h
  | cons op ops ih => exact ih (h.act op)

theorem refines (h : s.Tracks l) : s.Refines l where
  lookup := h.lookup
  fixups := h.fixups
  waitingOn label := by rw [waitingOn_eq h.indexed, h.fixups]
  hasUnresolved := by rw [hasUnresolved_iff h.indexed, h.fixups]
  fixupAt addr := by rw [Symbols.fixupAt, h.fixups]
  live label i := by rw [h.indexed.getD_waiting, mem_positions, Array.getElem?_toList]
  nodup label := by
    rw [h.indexed.getD_waiting]
    exact nodup_positions _ label
  waited := h.indexed.ne_nil
  emptied := h.emptied

end Tracks

theorem refines_replay (ops : List SymbolOp) : (replay ops).Refines (Ledger.replay ops) :=
  (Tracks.empty.foldl ops).refines

end Symbols

namespace Machine

theorem symbols_commit (m : Machine) (p : Plan) :
    ∃ ops : List SymbolOp, (m.commit p).symbols = ops.foldl Symbols.act m.symbols := by
  let defines : List SymbolOp := p.label.elim [] fun l => [.define l.1 l.2]
  refine ⟨defines ++ p.fixups.map .record, ?_⟩
  rw [List.foldl_append, List.foldl_map]
  cases hp : p.label with
  | none => simp only [commit, defines, hp, Option.elim, List.foldl_nil]; rfl
  | some l => simp only [commit, defines, hp, Option.elim, List.foldl_cons, List.foldl_nil]; rfl

theorem symbols_apply {α : Type} (m : Machine) (answer : Plan → α) (p : Except AsmError Plan) :
    ∃ ops : List SymbolOp, (m.apply answer p).2.symbols = ops.foldl Symbols.act m.symbols := by
  cases p with
  | error e => exact ⟨[], rfl⟩
  | ok p => exact m.symbols_commit p

theorem symbols_emitText (m : Machine) (word : Word) : (m.emitText word).2.symbols = m.symbols := by
  obtain ⟨memory, cursor, h⟩ := m.emitText_eq word
  rw [h]

theorem symbols_emitData (m : Machine) (bytes : List Byte) (alignment : Nat) :
    (m.emitData bytes alignment).2.symbols = m.symbols := by
  obtain ⟨memory, cursor, h⟩ := m.emitData_eq bytes alignment
  rw [h]

theorem symbols_step (m : Machine) : m.step.2.symbols = m.symbols := by
  unfold step
  cases m.effect <;> rfl

theorem Reachable.exists_replay {m : Machine} (h : m.Reachable) :
    ∃ ops, m.symbols = Symbols.replay ops := by
  have extend {m m' : Machine} (ih : ∃ ops, m.symbols = Symbols.replay ops)
      (hm : ∃ more : List SymbolOp, m'.symbols = more.foldl Symbols.act m.symbols) :
      ∃ ops, m'.symbols = Symbols.replay ops := by
    obtain ⟨ops, ho⟩ := ih
    obtain ⟨more, hm⟩ := hm
    exact ⟨ops ++ more, by rw [hm, ho, Symbols.replay, Symbols.replay, List.foldl_append]⟩
  induction h with
  | new flags => exact ⟨[], rfl⟩
  | assemble _ s ih => exact extend ih (symbols_apply _ _ _)
  | define _ label addr ih => exact extend ih (symbols_apply _ _ _)
  | emitText _ word ih => exact extend ih ⟨[], symbols_emitText _ word⟩
  | emitByte _ byte ih => exact extend ih ⟨[], symbols_emitData _ _ _⟩
  | emitHalf _ half ih => exact extend ih ⟨[], symbols_emitData _ _ _⟩
  | emitWord _ word ih => exact extend ih ⟨[], symbols_emitData _ _ _⟩
  | emitAsciiz _ text ih => exact extend ih ⟨[], symbols_emitData _ _ _⟩
  | step _ ih => exact extend ih ⟨[], symbols_step _⟩
  | resume _ ih => exact ih
  | @reset m _ ih =>
    have hs : m.reset.symbols = if m.flags.clearSymbolsOnReset then .empty else m.symbols.clearFixups := rfl
    by_cases hf : m.flags.clearSymbolsOnReset = true
    · exact extend ih ⟨[.clear], hs.trans (if_pos hf)⟩
    · exact extend ih ⟨[.clearFixups], hs.trans (if_neg hf)⟩
  | set _ memory registers pc count flags breakpoints console ih => exact ih

end Machine

end MipsMachine
