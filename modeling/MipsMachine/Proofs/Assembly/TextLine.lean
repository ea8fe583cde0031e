import MipsMachine.Proofs.Assembly.Reachable
import MipsMachine.Proofs.Assembly.References

namespace MipsMachine

theorem SourceInstr.exists_expand {i : SourceInstr} {table : LabelTable}
    (h : ∀ rt label, i = .pseudo (.la rt label) → ∃ target, table label.name = some target) :
    ∃ ps, i.expand table = .ok ps := by
  cases i with
  | pseudo p =>
    cases p with
    | la rt label =>
      obtain ⟨target, ht⟩ := h rt label rfl
      exact ⟨_, by rw [expand, Pseudo.expand, ht]⟩
    | li rt value =>
      rw [expand, Pseudo.expand]
      split <;> exact ⟨_, rfl⟩
    | _ => exact ⟨_, rfl⟩
  | _ => exact ⟨_, rfl⟩

theorem SourceInstr.known_of_expand {rt : Reg} {label : Label} {table : LabelTable} {ps : List Piece}
    (h : (pseudo (.la rt label)).expand table = .ok ps) : ∃ target, table label.name = some target := by
  cases ht : table label.name with
  | some target => exact ⟨target, rfl⟩
  | none =>
    rw [expand, Pseudo.expand, ht] at h
    cases h

theorem Fixup.exists_rewrite_iff {f : Fixup} {target : Word} :
    (∃ s, f.rewrite target = .ok s) ↔ ∃ ws, f.patch.resolve f.addr target = .ok ws := by
  unfold rewrite
  cases f.patch.resolve f.addr target with
  | error e => constructor <;> rintro ⟨_, ⟨⟩⟩
  | ok ws => exact ⟨fun _ => ⟨ws, rfl⟩, fun _ => ⟨_, rfl⟩⟩

theorem Chunk.exists_store_ref_iff {table : LabelTable} {f : Fixup} :
    (∃ s, (Chunk.ref f).store table = .ok s) ↔
      ∀ target, table f.label = some target → ∃ ws, f.patch.resolve f.addr target = .ok ws := by
  rw [store]
  cases table f.label with
  | none => simp
  | some target => simpa using f.exists_rewrite_iff

namespace Machine

def Knows (m : Machine) (s : Stmt) (name : String) (target : Word) : Prop :=
  m.symbols.lookup name = some target ∨ s.Defines name ∧ target = m.textCursor

structure Admits (m : Machine) (s : Stmt) (i : SourceInstr) : Prop where
  fresh : ∀ l, s.label = some l → m.symbols.lookup l.name = none
  resolves : ∀ f ∈ m.symbols.fixups, s.Defines f.label →
    ∃ ws, f.patch.resolve f.addr m.textCursor = .ok ws
  known : ∀ rt label, i = .pseudo (.la rt label) → ∃ target, m.Knows s label.name target
  reaches : ∀ f ∈ i.references m.textCursor, ∀ target, m.Knows s f.label target →
    ∃ ws, f.patch.resolve f.addr target = .ok ws
  room : m.textCursor.toNat + 4 * i.size ≤ Segment.text.stop.toNat

section Text

variable {m m' : Machine} {s : Stmt} {i : SourceInstr} {words : List Word}

theorem knows_iff (hm : m.mode = .text) (hf : ∀ l, s.label = some l → m.symbols.lookup l.name = none)
    (name : String) (target : Word) : m.Knows s name target ↔ m.table s name = some target := by
  have hh : m.cursors.here s = m.textCursor := by simp [Cursors.here, cursors, hm]
  rw [Knows, table, Stmt.bind_apply, hh]
  by_cases hd : s.Defines name
  · have hn : m.symbols.lookup name = none := by
      obtain ⟨l, hl, rfl⟩ := Option.map_eq_some_iff.mp hd
      exact hf l hl
    simp [hd, hn, eq_comm]
  · simp [hd]

theorem exists_rewrites_iff (h : m.symbols.Indexed) {target : Word} :
    (∃ rewrites, (m.waiting s).mapM (Fixup.rewrite target) = .ok rewrites) ↔
      ∀ f ∈ m.symbols.fixups, s.Defines f.label → ∃ ws, f.patch.resolve f.addr target = .ok ws := by
  simp only [exists_mapM_eq_ok_iff, Fixup.exists_rewrite_iff, waiting_eq h, List.mem_filter,
    decide_eq_true_eq, and_imp]

theorem Accepts.admits {rewrites stores : List Store} {chunks : List Chunk} (h : m.Consistent)
    (hm : m.mode = .text) (hs : s.nucleus = some (.instr i)) (ha : m.Accepts s rewrites chunks stores) :
    m.Admits s i where
  fresh := ha.fresh
  resolves := by
    have hh : m.cursors.here s = m.textCursor := by simp [Cursors.here, cursors, hm]
    exact (exists_rewrites_iff h.indexed).mp ⟨rewrites, hh ▸ ha.rewrites_eq⟩
  known := by
    rintro rt label rfl
    have hc := ha.chunks_eq
    rw [Stmt.chunks_instr hs] at hc
    cases he : (SourceInstr.pseudo (.la rt label)).expand (m.table s) with
    | error e => rw [he] at hc; cases hc
    | ok ps =>
      obtain ⟨target, ht⟩ := SourceInstr.known_of_expand he
      exact ⟨target, (knows_iff hm ha.fresh _ _).mpr ht⟩
  reaches := by
    intro f hf target ht
    have href : f ∈ s.references m.cursors.text := by rwa [Stmt.references, hs]
    have hst := exists_mapM_eq_ok_iff.mp ⟨_, ha.stores_eq⟩ _ ((Chunk.mem_references ha.chunks_eq).mp href)
    exact Chunk.exists_store_ref_iff.mp hst target ((knows_iff hm ha.fresh _ _).mp ht)
  room := ((Cursors.fits_instr_iff hs).mp ha.fits).2

theorem Admits.exists_accepts (h : m.Consistent) (hm : m.mode = .text) (hs : s.nucleus = some (.instr i))
    (ha : m.Admits s i) : ∃ rewrites chunks stores, m.Accepts s rewrites chunks stores := by
  have hh : m.cursors.here s = m.textCursor := by simp [Cursors.here, cursors, hm]
  have hr : ∃ rewrites, (m.waiting s).mapM (Fixup.rewrite (m.cursors.here s)) = .ok rewrites := by
    rw [hh]
    exact (exists_rewrites_iff h.indexed).mpr ha.resolves
  have he : ∃ ps, i.expand (m.table s) = .ok ps := by
    apply SourceInstr.exists_expand
    intro rt label hi
    obtain ⟨target, ht⟩ := ha.known rt label hi
    exact ⟨target, (knows_iff hm ha.fresh _ _).mp ht⟩
  obtain ⟨rewrites, hr⟩ := hr
  obtain ⟨ps, he⟩ := he
  have hc : s.chunks m.cursors (m.table s) = .ok (Chunk.ofPieces m.cursors.text ps) := by
    rw [Stmt.chunks_instr hs, he]
    rfl
  have hst : ∃ stores, (Chunk.ofPieces m.cursors.text ps).mapM (Chunk.store (m.table s)) = .ok stores := by
    apply exists_mapM_eq_ok_iff.mpr
    intro c hmem
    cases c with
    | fixed store => exact ⟨store, rfl⟩
    | ref f =>
      have hf : f ∈ i.references m.textCursor := by
        have := (Chunk.mem_references hc).mpr hmem
        rwa [Stmt.references, hs] at this
      apply Chunk.exists_store_ref_iff.mpr
      intro target ht
      exact ha.reaches f hf target ((knows_iff hm ha.fresh _ _).mpr ht)
  obtain ⟨stores, hst⟩ := hst
  exact ⟨rewrites, _, stores, (Cursors.fits_instr_iff hs).mpr ⟨hm, ha.room⟩, ha.fresh, hr, hc, hst⟩

structure LaidOut (m : Machine) (i : SourceInstr) (words : List Word) (m' : Machine) : Prop where
  length : words.length = i.size
  cursor : m'.textCursor.toNat = m.textCursor.toNat + 4 * i.size
  words : m'.memory.words m.textCursor i.size = words

theorem laidOut_of_assemble (h : m.Consistent) (hs : s.nucleus = some (.instr i))
    (ha : m.assemble s = (.ok words, m')) : m.LaidOut i words m' := by
  obtain ⟨rewrites, chunks, stores, hacc, rfl, hcursor, hwords⟩ := assemble_ok h.bounds.text_stop ha
  have hroom := ((Cursors.fits_instr_iff hs).mp hacc.fits).2
  have hnext : (m.cursors.next s).text.toNat = m.textCursor.toNat + 4 * i.size := by
    rw [Cursors.next_instr hs]
    exact Segment.toNat_of_le_stop hroom
  have hlen : words.length = i.size := by omega
  exact ⟨hlen, hnext, hlen ▸ hwords _⟩

theorem assemble_instr_iff (h : m.Reachable) (hm : m.mode = .text) (hs : s.nucleus = some (.instr i)) :
    ((∃ words m', m.assemble s = (.ok words, m') ∧ m.LaidOut i words m') ↔ m.Admits s i) ∧
      ((∃ e, m.assemble s = (.error e, m)) ↔ ¬ m.Admits s i) := by
  have hc := h.consistent
  have hok : m.Admits s i → ∃ words m', m.assemble s = (.ok words, m') ∧ m.LaidOut i words m' := by
    intro ha
    obtain ⟨rewrites, chunks, stores, hacc⟩ := ha.exists_accepts hc hm hs
    obtain ⟨words, hw⟩ := exists_assemble hc.bounds.text_stop hacc
    exact ⟨words, _, hw, laidOut_of_assemble hc hs hw⟩
  have hacc : ∀ {words m'}, m.assemble s = (.ok words, m') → m.Admits s i := by
    intro words m' ha
    obtain ⟨rewrites, chunks, stores, hacc, -, -⟩ := assemble_ok hc.bounds.text_stop ha
    exact hacc.admits hc hm hs
  refine ⟨⟨fun ⟨words, m', ha, _⟩ => hacc ha, hok⟩, exists_error_iff.trans (not_congr ?_)⟩
  refine ⟨fun ⟨words, m', ha⟩ => hacc ha, fun ha => ?_⟩
  obtain ⟨words, m', hw, -⟩ := hok ha
  exact ⟨words, m', hw⟩

end Text

theorem assemble_instr_iff_self :
    let i : SourceInstr := .pseudo (.ordBranch .lt ⟨8⟩ ⟨9⟩ ⟨"l", 17⟩)
    let s : Stmt := ⟨some ⟨"l", 0⟩, some (.instr i), ⟨3, 18⟩⟩
    (new .initial).Reachable ∧ (new .initial).mode = .text ∧
      ∃ words m', (new .initial).assemble s = (.ok words, m') ∧ (new .initial).LaidOut i words m' := by
  intro i s
  have hnone (name : String) : (new .initial).symbols.lookup name = none := Symbols.lookup_empty name
  have ha : (new .initial).Admits s i := by
    refine ⟨fun l _ => hnone l.name, fun f hf => (List.not_mem_nil hf).elim, ?_, ?_, by decide⟩
    · intro rt label hi
      simp [i] at hi
    · intro f hf target ht
      obtain rfl := List.mem_singleton.mp hf
      -- the label is the statement's own, one word before the branch
      obtain ht | ⟨-, rfl⟩ := ht
      · rw [hnone] at ht
        cases ht
      · exact ⟨[0x1420FFFE], rfl⟩
  exact ⟨.new .initial, rfl, (assemble_instr_iff (.new .initial) rfl rfl).1.mpr ha⟩

end Machine

end MipsMachine
