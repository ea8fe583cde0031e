import Mathlib.Tactic.Push
import MipsMachine.Proofs.Assembly.Reachable
import MipsMachine.Proofs.Assembly.References

namespace MipsMachine

theorem Memory.getElem_words (m : Memory) (a : Word) (k i : Nat) (h : i < (m.words a k).length) :
    (m.words a k)[i] = m.getWord (a + BitVec.ofNat 32 (4 * i)) := by
  induction k generalizing a i with
  | zero => exact (Nat.not_lt_zero i h).elim
  | succ k ih =>
    cases i with
    | zero => exact congrArg m.getWord (BitVec.add_zero a).symm
    | succ i =>
      have hi : a + 4 + BitVec.ofNat 32 (4 * i) = a + BitVec.ofNat 32 (4 * (i + 1)) := by
        rw [Nat.mul_succ, Nat.add_comm, BitVec.ofNat_add, BitVec.add_assoc]
        rfl
      simp only [words, List.getElem_cons_succ]
      rw [ih, hi]

namespace Machine

/-- What the words `ws` of a statement `s`, once assembled into `m`, have made of it in `m'`. -/
structure Footprint (m : Machine) (s : Stmt) (ws : List Word) (m' : Machine) : Prop where
  text_cursor : m'.textCursor.toNat = m.textCursor.toNat + 4 * ws.length
  emitted : ∀ i (h : i < ws.length), m'.memory.getWord (m.textCursor + BitVec.ofNat 32 (4 * i)) = ws[i]
  data_cursor : m.dataCursor.toNat ≤ m'.dataCursor.toNat
  changed : ∀ a, m'.memory.getByte a ≠ m.memory.getByte a →
    (m.textCursor.toNat ≤ a.toNat ∧ a.toNat < m'.textCursor.toNat) ∨
    (m.dataCursor.toNat ≤ a.toNat ∧ a.toNat < m'.dataCursor.toNat) ∨
    ∃ f ∈ m.symbols.fixups, s.Defines f.label ∧ f.addr.toNat ≤ a.toNat ∧ a.toNat < f.stop
  labels : ∀ name addr, m.symbols.lookup name = some addr → m'.symbols.lookup name = some addr
  new_label : ∀ name, m.symbols.lookup name = none → m'.symbols.lookup name ≠ none → s.Defines name
  fixups : m'.symbols.fixups = m.symbols.fixups.filter (¬ s.Defines ·.label) ++
    (s.references m.textCursor).filter (m'.symbols.lookup ·.label = none)
  untouched : m' = { m with
    memory := m'.memory
    symbols := m'.symbols
    textCursor := m'.textCursor
    dataCursor := m'.dataCursor
    mode := m'.mode }

section Footprint

variable {m m' : Machine} {s : Stmt} {rewrites : List Store} {chunks : List Chunk} {stores : List Store}

theorem inRange_rewrites (h : m.Consistent) (ha : m.Accepts s rewrites chunks stores) :
    ∀ t ∈ rewrites, t.InRange ∧
      ∃ f ∈ m.symbols.fixups, s.Defines f.label ∧ t.1 = f.addr ∧ t.stop = f.stop := by
  intro t ht
  obtain ⟨f, hm, hd, hr⟩ := Fixup.exists_of_mem_rewrites (waiting_eq h.indexed s ▸ ha.rewrites_eq) ht
  have hs := Fixup.stop_rewrite hr
  refine ⟨?_, f, hm, hd, (Fixup.shape_rewrite hr).1, hs⟩
  unfold Store.InRange
  rw [hs]
  exact (h.placed f hm).inRange

theorem between_stores (h : m.Consistent) (ha : m.Accepts s rewrites chunks stores) :
    ∀ t ∈ stores, t.InRange ∧
      ((m.textCursor.toNat ≤ t.1.toNat ∧ t.stop ≤ (m.cursors.next s).text.toNat) ∨
        (m.dataCursor.toNat ≤ t.1.toNat ∧ t.stop ≤ (m.cursors.next s).data.toNat)) := by
  intro t ht
  obtain ⟨c, hc, hs⟩ := exists_of_mem_mapM ha.stores_eq ht
  have hb := (Stmt.bounds_chunks h.bounds ha.fits ha.chunks_eq).1 c hc
  refine ⟨Chunk.inRange_store hb.inRange hs, ?_⟩
  rw [Chunk.stop_store hs, (Chunk.shape_store hs).1]
  cases hb with
  | text hst _ hsp => exact .inl ⟨hst, hsp⟩
  | data _ hst hsp => exact .inr ⟨hst, hsp⟩

theorem changed_after (h : m.Consistent) (ha : m.Accepts s rewrites chunks stores) {a : Word}
    (hne : (m.after s rewrites chunks stores).memory.getByte a ≠ m.memory.getByte a) :
    (m.textCursor.toNat ≤ a.toNat ∧ a.toNat < (m.cursors.next s).text.toNat) ∨
    (m.dataCursor.toNat ≤ a.toNat ∧ a.toNat < (m.cursors.next s).data.toNat) ∨
    ∃ f ∈ m.symbols.fixups, s.Defines f.label ∧ f.addr.toNat ≤ a.toNat ∧ a.toNat < f.stop := by
  have hr := inRange_rewrites h ha
  have hb := between_stores h ha
  -- a byte outside all three ranges is covered by no store, so it keeps its value
  by_contra hout
  push Not at hout
  obtain ⟨htext, hdata, hwait⟩ := hout
  apply hne
  calc ((m.memory.setAll rewrites).setAll stores).getByte a
    _ = (m.memory.setAll rewrites).getByte a := by
      apply Memory.getByte_setAll_of_not_covers _ _ _ (fun t ht => (hb t ht).1)
      rintro t ht ⟨hle, hlt⟩
      rcases (hb t ht).2 with ⟨hst, hsp⟩ | ⟨hst, hsp⟩
      · have := htext (Nat.le_trans hst hle)
        omega
      · have := hdata (Nat.le_trans hst hle)
        omega
    _ = m.memory.getByte a := by
      apply Memory.getByte_setAll_of_not_covers _ _ _ (fun t ht => (hr t ht).1)
      rintro t ht ⟨hle, hlt⟩
      obtain ⟨-, f, hf, hd, haddr, hstop⟩ := hr t ht
      rw [haddr] at hle
      have := hwait f hf hd hle
      omega

theorem footprint_after (h : m.Consistent) (ha : m.Accepts s rewrites chunks stores) {ws : List Word}
    (he : m.Emits s stores ws) : m.Footprint s ws (m.after s rewrites chunks stores) := by
  have hl : (m.after s rewrites chunks stores).symbols.lookup = m.table s := lookup_after
  constructor
  · exact he.1
  · intro i hi
    have hw := he.2 (m.memory.setAll rewrites)
    have hlen : i < (((m.memory.setAll rewrites).setAll stores).words m.textCursor ws.length).length := by
      rw [hw]
      exact hi
    have hg := Memory.getElem_words _ _ _ _ hlen
    simp only [hw] at hg
    exact hg.symm
  · exact (h.bounds.next ha.fits).2.2
  · exact fun a hne => changed_after h ha hne
  · intro name addr hn
    rw [hl, table, Stmt.bind_apply, if_neg, hn]
    intro hd
    unfold Stmt.Defines at hd
    obtain ⟨l, hs, rfl⟩ := Option.map_eq_some_iff.mp hd
    rw [ha.fresh l hs] at hn
    cases hn
  · intro name hn hne
    rw [hl, table, Stmt.bind_apply] at hne
    by_contra hd
    rw [if_neg hd] at hne
    exact hne hn
  · rw [fixups_after h.indexed, hl, Chunk.filterMap_pending, Chunk.filterMap_fixup?_chunks ha.chunks_eq]
    rfl
  · rfl

end Footprint

theorem assembleLine_transaction {m : Machine} (h : m.Reachable) (src : String) :
    (∃ e, m.assembleLine src = (.error e, m)) ∨
      ∃ ws m' s, m.assembleLine src = (.ok ws, m') ∧ Stmt.ofTokens (Token.ofLine src) = .ok s ∧
        m.Footprint s ws m' := by
  have hc := h.consistent
  unfold assembleLine assembleTokens
  cases hs : Stmt.ofTokens (Token.ofLine src) with
  | error e => exact .inl ⟨_, rfl⟩
  | ok s =>
    cases ha : m.assemble s with
    | mk result m' =>
      cases result with
      | error e =>
        obtain rfl := assemble_error ha
        exact .inl ⟨e, ha⟩
      | ok ws =>
        obtain ⟨rewrites, chunks, stores, hacc, rfl, he⟩ := assemble_ok hc.bounds.text_stop ha
        exact .inr ⟨ws, _, s, ha, rfl, footprint_after hc hacc he⟩

theorem assembleLine_transaction_mul :
    ∃ m', (new .initial).assembleLine "mul $t0, $t1, $t2" = (.ok [0x012A0018, 0x00004012], m') ∧
      (new .initial).Footprint ⟨none, some (.instr (.pseudo (.mul ⟨8⟩ ⟨9⟩ ⟨10⟩))), ⟨0, 17⟩⟩
        [0x012A0018, 0x00004012] m' := by
  have hp : Stmt.ofTokens (Token.ofLine "mul $t0, $t1, $t2") =
      .ok ⟨none, some (.instr (.pseudo (.mul ⟨8⟩ ⟨9⟩ ⟨10⟩))), ⟨0, 17⟩⟩ := by decide +kernel
  have hw : ((new .initial).assembleLine "mul $t0, $t1, $t2").1 = .ok [0x012A0018, 0x00004012] := by
    rw [assembleLine, assembleTokens, hp]
    rfl
  rcases assembleLine_transaction (.new .initial) "mul $t0, $t1, $t2" with ⟨e, he⟩ | ⟨ws, m', s, ha, hs, hf⟩
  · rw [he] at hw
    cases hw
  · rw [ha] at hw
    cases hw
    cases hp.symm.trans hs
    exact ⟨m', ha, hf⟩

end Machine

end MipsMachine
