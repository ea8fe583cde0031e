import MipsMachine.Proofs.Assembly.Reachable

namespace MipsMachine

namespace Machine

def assembleThenDefine (m : Machine) (s : Stmt) (label : String) (addr : Word) : Option Machine :=
  match m.assemble s with
  | (.error _, _) => none
  | (.ok _, m) =>
    match m.define label addr with
    | (.error _, _) => none
    | (.ok _, m) => some m

def defineThenAssemble (m : Machine) (s : Stmt) (label : String) (addr : Word) : Option Machine :=
  match m.define label addr with
  | (.error _, _) => none
  | (.ok _, m) =>
    match m.assemble s with
    | (.error _, _) => none
    | (.ok _, m) => some m

structure Agrees (m n : Machine) : Prop where
  memory : m.memory.getByte = n.memory.getByte
  labels : m.symbols.lookup = n.symbols.lookup
  fixups : m.symbols.fixups = n.symbols.fixups
  text_cursor : m.textCursor = n.textCursor
  data_cursor : m.dataCursor = n.dataCursor
  mode : m.mode = n.mode

theorem assembleThenDefine_eq_some_iff {m n : Machine} {s : Stmt} {label : String} {addr : Word} :
    m.assembleThenDefine s label addr = some n ↔
      ∃ words m', m.assemble s = (.ok words, m') ∧ m'.define label addr = (.ok (), n) := by
  unfold assembleThenDefine
  constructor
  · intro h
    cases ha : m.assemble s with
    | mk result m' =>
      rw [ha] at h
      cases result with
      | error e => cases h
      | ok words =>
        cases hd : m'.define label addr with
        | mk result n' =>
          simp only [hd] at h
          cases result with
          | error e => cases h
          | ok u => cases h; exact ⟨words, m', rfl, hd⟩
  · rintro ⟨words, m', ha, hd⟩
    simp only [ha, hd]

theorem defineThenAssemble_eq_some_iff {m n : Machine} {s : Stmt} {label : String} {addr : Word} :
    m.defineThenAssemble s label addr = some n ↔
      ∃ words m', m.define label addr = (.ok (), m') ∧ m'.assemble s = (.ok words, n) := by
  unfold defineThenAssemble
  constructor
  · intro h
    cases hd : m.define label addr with
    | mk result m' =>
      rw [hd] at h
      cases result with
      | error e => cases h
      | ok u =>
        cases ha : m'.assemble s with
        | mk result n' =>
          simp only [ha] at h
          cases result with
          | error e => cases h
          | ok words => cases h; exact ⟨words, m', rfl, ha⟩
  · rintro ⟨words, m', hd, ha⟩
    simp only [hd, ha]

section Orders

variable {m : Machine} {s : Stmt} {label : String} {addr : Word} {waited rewrites : List Store}
  {chunks : List Chunk} {stores : List Store}

theorem table_defined (hd : ¬ s.Defines label) :
    (m.defined label addr waited).table s = (m.table s).define label addr := by
  funext name
  change s.bind m.cursors (m.symbols.define label addr).lookup name = LabelTable.define _ _ _ name
  rw [Stmt.bind_apply, Symbols.lookup_define, LabelTable.define, table, Stmt.bind_apply]
  by_cases hs : s.Defines name
  · rw [if_pos hs, if_pos hs, if_neg (by rintro rfl; exact hd hs)]
  · rw [if_neg hs, if_neg hs]

theorem waiting_defined (h : m.Consistent) (hd : ¬ s.Defines label) :
    (m.defined label addr waited).waiting s = m.waiting s := by
  rw [waiting_eq (h.indexed.define label addr), waiting_eq h.indexed]
  change (m.symbols.define label addr).fixups.filter _ = _
  rw [Symbols.fixups_define h.indexed, List.filter_filter]
  apply List.filter_congr
  intro f hf
  by_cases hs : s.Defines f.label
  · have hn : f.label ≠ label := by
      rintro rfl
      exact hd hs
    simp [hs, hn]
  · simp [hs]

theorem accepts_defined_iff (h : m.Consistent) (hd : ¬ s.Defines label)
    (hla : ∀ rt l, s.nucleus = some (.instr (.pseudo (.la rt l))) → l.name ≠ label) :
    (m.defined label addr waited).Accepts s rewrites chunks stores ↔
      m.cursors.Fits s ∧ (∀ l, s.label = some l → m.symbols.lookup l.name = none) ∧
      (m.waiting s).mapM (Fixup.rewrite (m.cursors.here s)) = .ok rewrites ∧
      s.chunks m.cursors (m.table s) = .ok chunks ∧
      chunks.mapM (Chunk.store ((m.table s).define label addr)) = .ok stores := by
  have hc : s.chunks m.cursors ((m.table s).define label addr) = s.chunks m.cursors (m.table s) := by
    apply Stmt.chunks_congr
    intro rt l hl
    exact if_neg (Ne.symm (hla rt l hl))
  have hf : (∀ l, s.label = some l → (m.symbols.define label addr).lookup l.name = none) ↔
      ∀ l, s.label = some l → m.symbols.lookup l.name = none := by
    refine forall₂_congr fun l hl => ?_
    rw [Symbols.lookup_define, if_neg]
    rintro rfl
    exact hd ((Stmt.defines_iff hl _).mpr rfl)
  constructor
  · rintro ⟨hfit, hfresh, hr, hch, hst⟩
    rw [waiting_defined h hd] at hr
    rw [table_defined hd] at hch hst
    exact ⟨hfit, hf.mp hfresh, hr, hc.symm.trans hch, hst⟩
  · rintro ⟨hfit, hfresh, hr, hch, hst⟩
    refine ⟨hfit, hf.mpr hfresh, ?_, ?_, ?_⟩
    · rw [waiting_defined h hd]
      exact hr
    · rw [table_defined hd]
      exact hc.trans hch
    · rw [table_defined hd]
      exact hst

theorem waitingOn_after (h : m.Consistent) (hd : ¬ s.Defines label) :
    (m.after s rewrites chunks stores).symbols.waitingOn label = m.symbols.waitingOn label ++
      (chunks.filterMap (Chunk.pending (m.table s))).filter (·.label = label) := by
  rw [Symbols.waitingOn_eq (indexed_after h.indexed), fixups_after h.indexed, List.filter_append,
    Symbols.waitingOn_eq h.indexed, List.filter_filter]
  congr 1
  apply List.filter_congr
  intro f hf
  by_cases hl : f.label = label
  · simp [hl, hd]
  · simp [hl]

theorem apart_waited (h : m.Consistent) (ha : m.Accepts s rewrites chunks stores) (hd : ¬ s.Defines label)
    (hw : (m.symbols.waitingOn label).mapM (Fixup.rewrite addr) = .ok waited) :
    (∀ t ∈ waited, t.InRange) ∧ (∀ t ∈ rewrites ++ stores, t.InRange) ∧
      ∀ t ∈ rewrites ++ stores, ∀ u ∈ waited, t.Apart u := by
  rw [Symbols.waitingOn_eq h.indexed] at hw
  have hwaited : ∀ u ∈ waited, ∃ f ∈ m.symbols.fixups, f.label = label ∧
      (Chunk.ref f).store (fun _ => some addr) = .ok u :=
    fun u hu => Fixup.exists_of_mem_rewrites (p := (· = label)) hw hu
  have hrewrites : ∀ t ∈ rewrites, ∃ f ∈ m.symbols.fixups, s.Defines f.label ∧
      (Chunk.ref f).store (fun _ => some (m.cursors.here s)) = .ok t :=
    fun t ht => Fixup.exists_of_mem_rewrites (waiting_eq h.indexed s ▸ ha.rewrites_eq) ht
  have hstores : ∀ t ∈ stores, ∃ c : Chunk, c.Between m.cursors (m.cursors.next s) ∧
      c.store (m.table s) = .ok t := by
    intro t ht
    obtain ⟨c, hc, hs⟩ := exists_of_mem_mapM ha.stores_eq ht
    exact ⟨c, (Stmt.bounds_chunks h.bounds ha.fits ha.chunks_eq).1 c hc, hs⟩
  refine ⟨?_, ?_, ?_⟩
  · intro u hu
    obtain ⟨f, hf, -, hs⟩ := hwaited u hu
    exact Chunk.inRange_store (h.placed f hf).inRange hs
  · intro t ht
    rcases List.mem_append.mp ht with ht | ht
    · obtain ⟨f, hf, -, hs⟩ := hrewrites t ht
      exact Chunk.inRange_store (h.placed f hf).inRange hs
    · obtain ⟨c, hc, hs⟩ := hstores t ht
      exact Chunk.inRange_store hc.inRange hs
  · intro t ht u hu
    obtain ⟨f, hf, hlabel, hsu⟩ := hwaited u hu
    rcases List.mem_append.mp ht with ht | ht
    · obtain ⟨g, hg, hdef, hst⟩ := hrewrites t ht
      have hne : g ≠ f := by
        rintro rfl
        exact hd (hlabel ▸ hdef)
      exact Chunk.apart_store (h.apart hg hf hne) hst hsu
    · obtain ⟨c, hc, hst⟩ := hstores t ht
      have hap := (h.placed f hf).apart Cursors.inBounds_start h.bounds (h.bounds.next ha.fits).1 hc
      exact (Chunk.apart_store hap hsu hst).symm

end Orders

section Comm

variable {m : Machine} {s : Stmt} {label : String} {addr : Word}

theorem exists_assembleThenDefine (h : m.Consistent) (hl : m.symbols.lookup label = none)
    (hd : ¬ s.Defines label)
    (hla : ∀ rt l, s.nucleus = some (.instr (.pseudo (.la rt l))) → l.name ≠ label) {n : Machine}
    (hn : m.defineThenAssemble s label addr = some n) :
    ∃ n', m.assembleThenDefine s label addr = some n' := by
  obtain ⟨words, m', hdef, has⟩ := defineThenAssemble_eq_some_iff.mp hn
  obtain ⟨-, waited, hw, rfl⟩ := define_ok_iff.mp hdef
  have ht : (m.defined label addr waited).textCursor.toNat ≤ Segment.text.stop.toNat := h.bounds.text_stop
  obtain ⟨rewrites, chunks, stores', hacc, -, -⟩ := assemble_ok ht has
  obtain ⟨hfit, hfresh, hr, hc, hs'⟩ := (accepts_defined_iff h hd hla).mp hacc
  have hlt : m.table s label = none := by
    rw [table, Stmt.bind_apply, if_neg hd]
    exact hl
  obtain ⟨stores, hs⟩ := Chunk.exists_stores_of_define hlt hs'
  obtain ⟨late, hlate⟩ := (Chunk.exists_stores_define hlt hs).mp ⟨stores', hs'⟩
  obtain ⟨words', ha⟩ := exists_assemble h.bounds.text_stop ⟨hfit, hfresh, hr, hc, hs⟩
  have hw' : ((m.after s rewrites chunks stores).symbols.waitingOn label).mapM (Fixup.rewrite addr) =
      .ok (waited ++ late) := by
    rw [waitingOn_after h hd]
    exact mapM_append_eq_ok_iff.mpr ⟨waited, late, hw, hlate, rfl⟩
  have hl' : (m.after s rewrites chunks stores).symbols.lookup label = none := by
    rw [lookup_after]
    exact hlt
  exact ⟨_, assembleThenDefine_eq_some_iff.mpr ⟨words', _, ha, define_ok_iff.mpr ⟨hl', _, hw', rfl⟩⟩⟩

theorem agrees_defineThenAssemble (h : m.Consistent) (hl : m.symbols.lookup label = none)
    (hd : ¬ s.Defines label)
    (hla : ∀ rt l, s.nucleus = some (.instr (.pseudo (.la rt l))) → l.name ≠ label) {n : Machine}
    (hn : m.assembleThenDefine s label addr = some n) :
    ∃ n', m.defineThenAssemble s label addr = some n' ∧ n.Agrees n' := by
  obtain ⟨words, m', has, hdef⟩ := assembleThenDefine_eq_some_iff.mp hn
  obtain ⟨rewrites, chunks, stores, ha, rfl, -⟩ := assemble_ok h.bounds.text_stop has
  obtain ⟨hl', all, hall, rfl⟩ := define_ok_iff.mp hdef
  rw [lookup_after] at hl'
  rw [waitingOn_after h hd] at hall
  obtain ⟨waited, late, hw, hlate, rfl⟩ := mapM_append_eq_ok_iff.mp hall
  obtain ⟨stores', hs'⟩ := (Chunk.exists_stores_define hl' ha.stores_eq).mpr ⟨late, hlate⟩
  have hacc : (m.defined label addr waited).Accepts s rewrites chunks stores' :=
    (accepts_defined_iff h hd hla).mpr ⟨ha.fits, ha.fresh, ha.rewrites_eq, ha.chunks_eq, hs'⟩
  have ht : (m.defined label addr waited).textCursor.toNat ≤ Segment.text.stop.toNat := h.bounds.text_stop
  obtain ⟨words', has'⟩ := exists_assemble ht hacc
  have hdef' := define_ok_iff.mpr ⟨hl, waited, hw, rfl⟩
  refine ⟨_, defineThenAssemble_eq_some_iff.mpr ⟨words', _, hdef', has'⟩, ?_⟩
  obtain ⟨hwr, htr, hap⟩ := apart_waited h ha hd hw
  obtain ⟨hch, hpair⟩ := Stmt.bounds_chunks h.bounds ha.fits ha.chunks_eq
  constructor
  · calc (((m.memory.setAll rewrites).setAll stores).setAll (waited ++ late)).getByte
      _ = (((m.memory.setAll (rewrites ++ stores)).setAll waited).setAll late).getByte := by
        rw [Memory.setAll_append, Memory.setAll_append]
      _ = (((m.memory.setAll waited).setAll (rewrites ++ stores)).setAll late).getByte := by
        apply Memory.setAll_congr
        · exact Memory.setAll_comm _ _ _ htr hwr hap
        · intro t ht
          obtain ⟨f, hf, hr⟩ := exists_of_mem_mapM hlate ht
          have hin := (hch _ (Chunk.mem_pending.mp (List.mem_filter.mp hf).1).1).inRange
          have hst : (Chunk.ref f).store (fun _ => some addr) = .ok t := hr
          exact Chunk.inRange_store hin hst
      _ = ((((m.memory.setAll waited).setAll rewrites).setAll stores).setAll late).getByte := by
        rw [Memory.setAll_append]
      _ = (((m.memory.setAll waited).setAll rewrites).setAll stores').getByte := by
        have hin : ∀ c ∈ chunks, c.InRange := fun c hc => (hch c hc).inRange
        exact (Chunk.getByte_setAll_define hl' hin (hpair.imp Or.inl) ha.stores_eq hs' hlate _).symm
  · funext name
    rw [lookup_after, table_defined hd]
    change ((m.after s rewrites chunks stores).symbols.define label addr).lookup name = _
    rw [Symbols.lookup_define, lookup_after]
    rfl
  · have hi : (m.defined label addr waited).symbols.Indexed := h.indexed.define label addr
    rw [fixups_after hi, table_defined hd, Chunk.filterMap_pending_define]
    change ((m.after s rewrites chunks stores).symbols.define label addr).fixups =
      (m.symbols.define label addr).fixups.filter _ ++ _
    rw [Symbols.fixups_define (indexed_after h.indexed), fixups_after h.indexed, List.filter_append,
      Symbols.fixups_define h.indexed, List.filter_filter, List.filter_filter]
    simp only [Bool.and_comm]
  · rfl
  · rfl
  · rfl

theorem assemble_define_comm (h : m.Reachable) (hl : m.symbols.lookup label = none) (hd : ¬ s.Defines label)
    (hla : ∀ rt l, s.nucleus = some (.instr (.pseudo (.la rt l))) → l.name ≠ label) (addr : Word) :
    Option.Rel Agrees (m.assembleThenDefine s label addr) (m.defineThenAssemble s label addr) := by
  have hc := h.consistent
  cases ha : m.assembleThenDefine s label addr with
  | some n =>
    obtain ⟨n', hn', hag⟩ := agrees_defineThenAssemble hc hl hd hla ha
    rw [hn']
    exact .some hag
  | none =>
    cases hb : m.defineThenAssemble s label addr with
    | none => exact .none
    | some n =>
      obtain ⟨n', hn'⟩ := exists_assembleThenDefine hc hl hd hla hb
      cases ha.symm.trans hn'

end Comm

theorem assemble_define_comm_jump :
    let s : Stmt := ⟨none, some (.instr (.jump .j ⟨"l", 2⟩)), ⟨0, 3⟩⟩
    ∃ n n', (new .initial).assembleThenDefine s "l" 0x00400000 = some n ∧
      (new .initial).defineThenAssemble s "l" 0x00400000 = some n' ∧ n.Agrees n' := by
  intro s
  have hl : (new .initial).symbols.lookup "l" = none := Symbols.lookup_empty "l"
  have hd : ¬ s.Defines "l" := Stmt.not_defines rfl "l"
  have hla : ∀ rt l, s.nucleus = some (.instr (.pseudo (.la rt l))) → l.name ≠ "l" := fun rt l h => nomatch h
  have hw : (new .initial).symbols.waitingOn "l" = [] := Symbols.waitingOn_empty "l"
  have hdef : (new .initial).define "l" 0x00400000 = (.ok (), (new .initial).defined "l" 0x00400000 []) :=
    define_ok_iff.mpr ⟨hl, [], hw ▸ rfl, rfl⟩
  have ht : ((new .initial).defined "l" 0x00400000 []).table s "l" = some 0x00400000 := by
    rw [table_defined hd]
    exact if_pos rfl
  have hacc : ((new .initial).defined "l" 0x00400000 []).Accepts s []
      [.ref ⟨0x00400000, "l", .jump .j⟩] [(0x00400000, [0x08, 0x10, 0x00, 0x00])] := by
    refine ⟨⟨rfl, by decide⟩, fun l hl => (nomatch hl), rfl, rfl, ?_⟩
    rw [List.mapM_cons, Chunk.store, ht]
    rfl
  obtain ⟨words, has⟩ := exists_assemble (by decide) hacc
  have hsome := defineThenAssemble_eq_some_iff.mpr ⟨words, _, hdef, has⟩
  have hrel := assemble_define_comm (.new .initial) hl hd hla 0x00400000
  rw [hsome] at hrel
  generalize ha : (new .initial).assembleThenDefine s "l" 0x00400000 = result at hrel
  cases hrel with
  | some hag => exact ⟨_, _, rfl, hsome, hag⟩

end Machine

end MipsMachine
