import MipsMachine.Proofs.Assembly.Planning
import MipsMachine.Proofs.Symbols.Arena

namespace MipsMachine.Machine

structure Accepts (m : Machine) (s : Stmt) (rewrites : List Store) (chunks : List Chunk)
    (stores : List Store) : Prop where
  fits : m.cursors.Fits s
  fresh : ∀ l, s.label = some l → m.symbols.lookup l.name = none
  rewrites_eq : (m.waiting s).mapM (Fixup.rewrite (m.cursors.here s)) = .ok rewrites
  chunks_eq : s.chunks m.cursors (m.table s) = .ok chunks
  stores_eq : chunks.mapM (Chunk.store (m.table s)) = .ok stores

def symbolsAfter (m : Machine) (s : Stmt) (chunks : List Chunk) : Symbols :=
  (chunks.filterMap (Chunk.pending (m.table s))).foldl Symbols.record
    (s.label.elim m.symbols fun l => m.symbols.define l.name (m.cursors.here s))

def after (m : Machine) (s : Stmt) (rewrites : List Store) (chunks : List Chunk) (stores : List Store) :
    Machine :=
  { m with
    memory := (m.memory.setAll rewrites).setAll stores
    symbols := m.symbolsAfter s chunks
    textCursor := (m.cursors.next s).text
    dataCursor := (m.cursors.next s).data
    mode := (m.cursors.next s).mode }

def Emits (m : Machine) (s : Stmt) (stores : List Store) (words : List Word) : Prop :=
  (m.cursors.next s).text.toNat = m.textCursor.toNat + 4 * words.length ∧
    ∀ memory : Memory, (memory.setAll stores).words m.textCursor words.length = words

theorem Emits.eq_nil {m : Machine} {s : Stmt} {stores : List Store} {words : List Word}
    (h : m.Emits s stores words) {d : Directive} (hs : s.nucleus = some (.directive d)) : words = [] := by
  have htext : (m.cursors.next s).text = m.textCursor := by
    rw [Cursors.next_directive hs]
    rfl
  have hlen := h.1
  rw [htext] at hlen
  exact List.length_eq_zero_iff.mp (by omega)

theorem commit_eq_after {m : Machine} {s : Stmt} {rewrites stores : List Store} {chunks : List Chunk}
    {p : Plan} (hl : p.label = (m.opening s rewrites).label)
    (hm : m.memory.setAll p.stores = (m.memory.setAll rewrites).setAll stores)
    (hf : p.fixups = chunks.filterMap (Chunk.pending (m.table s)))
    (hc : ⟨p.textCursor, p.dataCursor, p.mode⟩ = m.cursors.next s) :
    m.commit p = m.after s rewrites chunks stores := by
  have hs : (p.label.elim m.symbols fun l => m.symbols.define l.1 l.2) =
      s.label.elim m.symbols fun l => m.symbols.define l.name (m.cursors.here s) := by
    rw [hl, opening]
    cases s.label <;> rfl
  unfold commit after symbolsAfter
  rw [← hc, hf, hs, ← hm]
  rfl

section Nucleus

variable {m : Machine} {s : Stmt} {rewrites : List Store} {p : Plan}

theorem chunks_of_planNucleus (ht : m.textCursor.toNat ≤ Segment.text.stop.toNat) {a : Word}
    (ha : m.alignedCursor s = .ok a) (hf : ∀ l, s.label = some l → m.symbols.lookup l.name = none)
    (h : m.planNucleus s (m.opening s rewrites) = .ok p) :
    ∃ chunks stores, m.cursors.Fits s ∧ s.chunks m.cursors (m.table s) = .ok chunks ∧
      chunks.mapM (Chunk.store (m.table s)) = .ok stores ∧
      m.commit p = m.after s rewrites chunks stores ∧ m.Emits s stores p.emitted := by
  cases hs : s.nucleus with
  | none =>
    rw [planNucleus_none hs] at h
    cases h
    have hc : (⟨m.textCursor, m.cursors.aligned s, m.mode⟩ : Cursors) = m.cursors.next s := by
      rw [Cursors.aligned_none hs, Cursors.next_none hs]
      rfl
    refine ⟨[], [], Cursors.fits_none hs, Stmt.chunks_none hs, rfl, commit_eq_after rfl rfl rfl hc, ?_,
      fun _ => rfl⟩
    rw [Cursors.next_none hs]
    rfl
  | some n =>
    cases n with
    | instr i =>
      rw [planNucleus_instr hs] at h
      obtain ⟨ps, words, stores, he, hst, hm, hlen, hb, rfl⟩ := planInstr_ok h ht
      have hle : m.textCursor.toNat + 4 * words.length ≤ Segment.text.stop.toNat := hlen ▸ hb
      have hc : s.chunks m.cursors (m.table s) = .ok (Chunk.ofPieces m.textCursor ps) := by
        rw [Stmt.chunks_instr hs, ← lookupIn_opening hf rewrites, he]
        rfl
      refine ⟨_, stores, ?_, hc, lookupIn_opening hf rewrites ▸ hst, commit_eq_after rfl ?_ ?_ ?_, ?_, ?_⟩
      · exact (Cursors.fits_instr_iff hs).mpr ⟨mode_of_alignedCursor hs ha, hb⟩
      · exact (Memory.setAll_append _ _ _).trans (hm _)
      · rw [lookupIn_opening hf]
        rfl
      · rw [Cursors.next_instr hs, opening, Cursors.aligned_instr hs]
        rfl
      · rw [Cursors.next_instr hs, hlen]
        exact Segment.toNat_of_le_stop hb
      · intro memory
        rw [← hm]
        exact Memory.words_setBytes memory m.textCursor words (Nat.le_trans hle (by decide))
    | directive d =>
      rw [planNucleus_directive hs] at h
      cases hd : planDirective (m.opening s rewrites) d with
      | error e => rw [hd] at h; cases h
      | ok q =>
        rw [hd] at h
        cases h
        obtain ⟨hl, hfix, hem, hm, hn⟩ := planDirective_ok hs hd
        refine ⟨_, _, fits_of_planDirective hs ha hd, Stmt.chunks_directive hs, rfl,
          commit_eq_after hl hm hfix hn, ?_, ?_⟩
        · rw [Cursors.next_directive hs, hem]
          rfl
        · intro memory
          rw [hem]
          rfl

theorem exists_planNucleus (rewrites : List Store)
    (hf : ∀ l, s.label = some l → m.symbols.lookup l.name = none) (hfit : m.cursors.Fits s)
    {chunks : List Chunk} {stores : List Store} (hc : s.chunks m.cursors (m.table s) = .ok chunks)
    (hst : chunks.mapM (Chunk.store (m.table s)) = .ok stores) :
    ∃ p, m.planNucleus s (m.opening s rewrites) = .ok p := by
  cases hs : s.nucleus with
  | none => exact ⟨_, planNucleus_none hs⟩
  | some n =>
    cases n with
    | instr i =>
      rw [Stmt.chunks_instr hs] at hc
      rw [planNucleus_instr hs]
      cases he : i.expand (m.table s) with
      | error e => rw [he] at hc; cases hc
      | ok ps =>
        rw [he] at hc
        cases hc
        rw [← lookupIn_opening hf rewrites] at he hst
        exact exists_planInstr he hst ((Cursors.fits_instr_iff hs).mp hfit).2
    | directive d =>
      rw [planNucleus_directive hs]
      cases hd : d.target with
      | some mode =>
        rw [planDirective_target hd]
        exact ⟨_, rfl⟩
      | none =>
        rw [(planDirective_ok_iff hd).mpr ⟨((Cursors.fits_directive_iff hs).mp hfit hd).2, rfl⟩]
        exact ⟨_, rfl⟩

end Nucleus

section Assemble

variable {m m' : Machine} {s : Stmt} {rewrites rewrites' : List Store} {chunks chunks' : List Chunk}
  {stores stores' : List Store} {words : List Word}

theorem Accepts.unique (h : m.Accepts s rewrites chunks stores) (h' : m.Accepts s rewrites' chunks' stores') :
    rewrites = rewrites' ∧ chunks = chunks' ∧ stores = stores' := by
  obtain rfl := Except.ok.inj (h.chunks_eq.symm.trans h'.chunks_eq)
  obtain rfl := Except.ok.inj (h.rewrites_eq.symm.trans h'.rewrites_eq)
  obtain rfl := Except.ok.inj (h.stores_eq.symm.trans h'.stores_eq)
  exact ⟨rfl, rfl, rfl⟩

theorem assemble_ok (ht : m.textCursor.toNat ≤ Segment.text.stop.toNat)
    (h : m.assemble s = (.ok words, m')) :
    ∃ rewrites chunks stores, m.Accepts s rewrites chunks stores ∧ m' = m.after s rewrites chunks stores ∧
      m.Emits s stores words := by
  unfold assemble apply at h
  cases hp : m.planStmt s with
  | error e => rw [hp] at h; cases h
  | ok p =>
    rw [hp] at h
    cases h
    obtain ⟨ha, hf, rewrites, hw, hn⟩ := planStmt_ok_iff.mp hp
    obtain ⟨chunks, stores, hfit, hc, hs, hm, he⟩ := chunks_of_planNucleus ht ha hf hn
    exact ⟨rewrites, chunks, stores, ⟨hfit, hf, hw, hc, hs⟩, hm, he⟩

theorem assemble_error {e : AsmError} (h : m.assemble s = (.error e, m')) : m' = m := by
  unfold assemble apply at h
  cases hp : m.planStmt s with
  | error e => rw [hp] at h; cases h; rfl
  | ok p => rw [hp] at h; cases h

theorem exists_error_iff :
    (∃ e, m.assemble s = (.error e, m)) ↔ ¬ ∃ words m', m.assemble s = (.ok words, m') := by
  constructor
  · rintro ⟨e, he⟩ ⟨words, m', ha⟩
    cases he.symm.trans ha
  · intro hn
    cases ha : m.assemble s with
    | mk result m' =>
      cases result with
      | ok words => exact (hn ⟨words, m', ha⟩).elim
      | error e => exact ⟨e, by rw [assemble_error ha]⟩

theorem exists_assemble (ht : m.textCursor.toNat ≤ Segment.text.stop.toNat)
    (h : m.Accepts s rewrites chunks stores) :
    ∃ words, m.assemble s = (.ok words, m.after s rewrites chunks stores) := by
  obtain ⟨p, hn⟩ := exists_planNucleus rewrites h.fresh h.fits h.chunks_eq h.stores_eq
  have hp : m.planStmt s = .ok p :=
    planStmt_ok_iff.mpr ⟨alignedCursor_of_fits h.fits, h.fresh, rewrites, h.rewrites_eq, hn⟩
  have ha : m.assemble s = (.ok p.emitted, m.commit p) := by
    unfold assemble apply
    rw [hp]
  obtain ⟨rewrites', chunks', stores', h', hm, -⟩ := assemble_ok ht ha
  obtain ⟨rfl, rfl, rfl⟩ := h.unique h'
  exact ⟨p.emitted, ha.trans (congrArg _ hm)⟩

def defined (m : Machine) (label : String) (addr : Word) (rewrites : List Store) : Machine :=
  { m with memory := m.memory.setAll rewrites, symbols := m.symbols.define label addr }

theorem define_ok_iff {label : String} {addr : Word} :
    m.define label addr = (.ok (), m') ↔ m.symbols.lookup label = none ∧
      ∃ rewrites, (m.symbols.waitingOn label).mapM (Fixup.rewrite addr) = .ok rewrites ∧
        m' = m.defined label addr rewrites := by
  unfold Machine.define apply
  cases hp : m.planLabel label addr with
  | error e =>
    constructor
    · intro h
      cases h
    · rintro ⟨hl, rewrites, hw, -⟩
      rw [planLabel_ok_iff.mpr ⟨hl, rewrites, hw, rfl⟩] at hp
      cases hp
  | ok p =>
    obtain ⟨hl, rewrites, hw, rfl⟩ := planLabel_ok_iff.mp hp
    constructor
    · intro h
      cases h
      exact ⟨hl, rewrites, hw, rfl⟩
    · rintro ⟨-, rewrites', hw', rfl⟩
      cases hw.symm.trans hw'
      rfl

theorem define_error {label : String} {addr : Word} {e : AsmError}
    (h : m.define label addr = (.error e, m')) : m' = m := by
  unfold Machine.define apply at h
  cases hp : m.planLabel label addr with
  | error e => rw [hp] at h; cases h; rfl
  | ok p => rw [hp] at h; cases h

theorem lookup_after : (m.after s rewrites chunks stores).symbols.lookup = m.table s := by
  funext name
  change ((chunks.filterMap _).foldl Symbols.record _).lookup name = _
  rw [Symbols.lookup_foldl_record]
  unfold table Stmt.bind
  cases s.label with
  | none => rfl
  | some l => exact m.symbols.lookup_define l.name name (m.cursors.here s)

theorem waiting_eq (h : m.symbols.Indexed) (s : Stmt) :
    m.waiting s = m.symbols.fixups.filter (s.Defines ·.label) := by
  unfold waiting
  cases hl : s.label with
  | none => simp [Stmt.not_defines hl]
  | some l => simp [Symbols.waitingOn_eq h, Stmt.defines_iff hl, eq_comm]

theorem fixups_after (h : m.symbols.Indexed) :
    (m.after s rewrites chunks stores).symbols.fixups =
      m.symbols.fixups.filter (¬ s.Defines ·.label) ++ chunks.filterMap (Chunk.pending (m.table s)) := by
  change ((chunks.filterMap _).foldl Symbols.record _).fixups = _
  rw [Symbols.fixups_foldl_record]
  cases hl : s.label with
  | none => simp [Stmt.not_defines hl]
  | some l => simp [Symbols.fixups_define h, Stmt.defines_iff hl, eq_comm]

theorem indexed_after (h : m.symbols.Indexed) : (m.after s rewrites chunks stores).symbols.Indexed := by
  apply Symbols.indexed_foldl_record
  cases s.label with
  | none => exact h
  | some l => exact h.define l.name _

end Assemble

end MipsMachine.Machine
