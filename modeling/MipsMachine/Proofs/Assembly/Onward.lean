import MipsMachine.Proofs.Assembly.Reachable

/-!
What becomes of assembled chunks while their machine goes on. A chunk that waits for a label keeps its
place among the references, is rewritten when the label gets its address, and stands from then on; all
other chunks stand unchanged, wherever later lines, labels and emitted values go.
-/

namespace MipsMachine

theorem Fixup.store_const (f : Fixup) (target : Word) :
    (Chunk.ref f).store (fun _ => some target) = f.rewrite target := rfl

def Chunk.Covers (c : Chunk) (a : Word) : Prop := c.addr.toNat ≤ a.toNat ∧ a.toNat < c.stop

theorem Chunk.covers_store {table : LabelTable} {c : Chunk} {s : Store} (h : c.store table = .ok s)
    (a : Word) : s.Covers a ↔ c.Covers a := by
  unfold Store.Covers Covers
  rw [stop_store h, (shape_store h).1]

theorem Chunk.lookup_of_settled {table : LabelTable} {f : Fixup} (h : (ref f).pending table = none) :
    ∃ target, table f.label = some target := by
  rw [pending] at h
  by_cases hn : table f.label = none
  · rw [if_pos hn] at h
    cases h
  · exact Option.ne_none_iff_exists'.mp hn

theorem mapM_map_ref (fs : List Fixup) (target : Word) :
    (fs.map Chunk.ref).mapM (Chunk.store fun _ => some target) = fs.mapM (Fixup.rewrite target) := by
  induction fs with
  | nil => rfl
  | cons f fs ih => rw [List.map_cons, List.mapM_cons, List.mapM_cons, ih, Fixup.store_const]

namespace Machine

/--
A change of a machine: some labels get an address, the references to them are rewritten, and chunks are
stored from the cursors on. Only the bytes at the addresses in `keep` are accounted for.
-/
structure Grows (keep : Word → Prop) (m m' : Machine) (labels : String → Prop) [DecidablePred labels]
    (target : Word) (chunks : List Chunk) (rewrites stores : List Store) : Prop where
  text : m.textCursor.toNat ≤ m'.textCursor.toNat
  data : m.dataCursor.toNat ≤ m'.dataCursor.toNat
  fresh : ∀ name, labels name → m.symbols.lookup name = none
  lookup : ∀ name, m'.symbols.lookup name = if labels name then some target else m.symbols.lookup name
  fixups : m'.symbols.fixups = m.symbols.fixups.filter (¬ labels ·.label) ++
    chunks.filterMap (Chunk.pending m'.symbols.lookup)
  rewrites_eq : (m.symbols.fixups.filter (labels ·.label)).mapM (Fixup.rewrite target) = .ok rewrites
  placed : ∀ c ∈ chunks, c.Between m.cursors m'.cursors
  sorted : chunks.Pairwise Chunk.Apart
  stores_eq : chunks.mapM (Chunk.store m'.symbols.lookup) = .ok stores
  memory : ∀ a, keep a → m'.memory.getByte a = ((m.memory.setAll rewrites).setAll stores).getByte a

/-- The chunk is among the references of the machine, or it has been stored and no reference meets it. -/
structure Keeps (m : Machine) (c : Chunk) : Prop where
  between : c.Between .start m.cursors
  waits : ∀ f, c.pending m.symbols.lookup = some f → f ∈ m.symbols.fixups
  stands : c.pending m.symbols.lookup = none →
    (∃ s, c.store m.symbols.lookup = .ok s ∧ m.memory.Holds s) ∧
      ∀ f ∈ m.symbols.fixups, c.Apart (.ref f)

def Bears (m : Machine) (c : Chunk) : Prop := ∃ s, c.store m.symbols.lookup = .ok s ∧ m.memory.Holds s

namespace Grows

variable {keep : Word → Prop} {m m' : Machine} {labels : String → Prop} [DecidablePred labels]
  {target : Word} {chunks : List Chunk} {rewrites stores : List Store}

theorem lookup_mono (hg : m.Grows keep m' labels target chunks rewrites stores) {name : String} {addr : Word}
    (h : m.symbols.lookup name = some addr) : m'.symbols.lookup name = some addr := by
  rw [hg.lookup, if_neg, h]
  intro hl
  rw [hg.fresh name hl] at h
  cases h

theorem exists_rewrite (hg : m.Grows keep m' labels target chunks rewrites stores) {s : Store}
    (hs : s ∈ rewrites) : ∃ f ∈ m.symbols.fixups, labels f.label ∧ f.rewrite target = .ok s :=
  Fixup.exists_of_mem_rewrites hg.rewrites_eq hs

theorem inRange_rewrites (hg : m.Grows keep m' labels target chunks rewrites stores) (hc : m.Consistent) :
    ∀ s ∈ rewrites, s.InRange := by
  intro s hs
  obtain ⟨f, hf, -, hr⟩ := hg.exists_rewrite hs
  exact Chunk.inRange_store (hc.placed f hf).inRange (f.store_const target ▸ hr)

theorem pairwise_rewrites (hg : m.Grows keep m' labels target chunks rewrites stores) (hc : m.Consistent) :
    rewrites.Pairwise Store.Apart := by
  have hp : ((m.symbols.fixups.filter (labels ·.label)).map Chunk.ref).Pairwise Chunk.Apart :=
    List.pairwise_map.mpr ((hc.sorted.filter _).imp Or.inl)
  exact Chunk.pairwise_stores hp ((mapM_map_ref _ target).trans hg.rewrites_eq)

theorem inRange_stores (hg : m.Grows keep m' labels target chunks rewrites stores) :
    ∀ s ∈ stores, s.InRange := by
  intro s hs
  obtain ⟨c, hc, hst⟩ := exists_of_mem_mapM hg.stores_eq hs
  exact Chunk.inRange_store (hg.placed c hc).inRange hst

theorem holds (hg : m.Grows keep m' labels target chunks rewrites stores) {c : Chunk} {s : Store}
    {table : LabelTable} (hk : ∀ a, c.Covers a → keep a) (hs : c.store table = .ok s)
    (h : ((m.memory.setAll rewrites).setAll stores).Holds s) : m'.memory.Holds s :=
  h.congr fun a ha => hg.memory a (hk a ((Chunk.covers_store hs a).mp ha))

theorem apart_chunks (hg : m.Grows keep m' labels target chunks rewrites stores) (hc : m.Consistent)
    (hc' : m'.Consistent) {c : Chunk} (h : c.Between .start m.cursors) : ∀ d ∈ chunks, c.Apart d :=
  fun d hd => h.apart Cursors.inBounds_start hc.bounds hc'.bounds (hg.placed d hd)

theorem apart_stores (hg : m.Grows keep m' labels target chunks rewrites stores) {c : Chunk}
    (h : ∀ d ∈ chunks, c.Apart d) {table : LabelTable} {s : Store} (hs : c.store table = .ok s) :
    ∀ t ∈ stores, s.Apart t := by
  intro t ht
  obtain ⟨d, hd, hst⟩ := exists_of_mem_mapM hg.stores_eq ht
  exact Chunk.apart_store (h d hd) hs hst

theorem apart_fixups (hg : m.Grows keep m' labels target chunks rewrites stores) {c : Chunk}
    (h : ∀ d ∈ chunks, c.Apart d)
    (ho : ∀ f ∈ m.symbols.fixups, ¬ labels f.label → c.Apart (.ref f)) :
    ∀ f ∈ m'.symbols.fixups, c.Apart (.ref f) := by
  intro f hf
  rw [hg.fixups] at hf
  rcases List.mem_append.mp hf with hf | hf
  · obtain ⟨hm, hl⟩ := List.mem_filter.mp hf
    exact ho f hm (of_decide_eq_true hl)
  · exact h _ (Chunk.mem_pending.mp hf).1

theorem between_mono (hg : m.Grows keep m' labels target chunks rewrites stores) {c : Chunk}
    (h : c.Between .start m.cursors) : c.Between .start m'.cursors :=
  h.mono ⟨Nat.le_refl _, hg.text⟩ ⟨Nat.le_refl _, hg.data⟩

theorem keeps_settled (hg : m.Grows keep m' labels target chunks rewrites stores) (hc : m.Consistent)
    (hc' : m'.Consistent) {c : Chunk} (hk : ∀ a, c.Covers a → keep a) (h : m.Keeps c)
    (hp : c.pending m.symbols.lookup = none) : m'.Keeps c := by
  obtain ⟨⟨s, hs, hm⟩, ho⟩ := h.stands hp
  have hnew := hg.apart_chunks hc hc' h.between
  have hs' : c.store m'.symbols.lookup = .ok s ∧ c.pending m'.symbols.lookup = none := by
    cases c with
    | fixed t => exact ⟨hs, rfl⟩
    | ref f =>
      obtain ⟨addr, hl⟩ := Chunk.lookup_of_settled hp
      have hl' := hg.lookup_mono hl
      rw [Chunk.store, hl] at hs
      rw [Chunk.store, Chunk.pending, hl']
      exact ⟨hs, if_neg (Option.some_ne_none addr)⟩
  have hrw : ∀ t ∈ rewrites, s.Apart t := by
    intro t ht
    obtain ⟨f, hf, -, hr⟩ := hg.exists_rewrite ht
    exact Chunk.apart_store (ho f hf) hs (f.store_const target ▸ hr)
  have hheld := (hm.setAll (hg.inRange_rewrites hc) hrw).setAll hg.inRange_stores (hg.apart_stores hnew hs)
  refine ⟨hg.between_mono h.between, fun f hf => ?_, fun _ => ⟨⟨s, hs'.1, hg.holds hk hs hheld⟩, ?_⟩⟩
  · cases hs'.2.symm.trans hf
  · exact hg.apart_fixups hnew fun f hf _ => ho f hf

theorem keeps_resolved (hg : m.Grows keep m' labels target chunks rewrites stores) (hc : m.Consistent)
    (hc' : m'.Consistent) {f : Fixup} (hk : ∀ a, (Chunk.ref f).Covers a → keep a) (h : m.Keeps (.ref f))
    (hf : f ∈ m.symbols.fixups) (hlab : labels f.label) : m'.Keeps (.ref f) := by
  have hnew := hg.apart_chunks hc hc' h.between
  have hl' : m'.symbols.lookup f.label = some target := (hg.lookup _).trans (if_pos hlab)
  have hmem : f ∈ m.symbols.fixups.filter (labels ·.label) :=
    List.mem_filter.mpr ⟨hf, decide_eq_true hlab⟩
  obtain ⟨s, hs, hr⟩ := exists_mem_of_mapM hg.rewrites_eq hmem
  have hst : (Chunk.ref f).store m'.symbols.lookup = .ok s := by rw [Chunk.store, hl']; exact hr
  have hm := Memory.holds_setAll m.memory (hg.inRange_rewrites hc) (hg.pairwise_rewrites hc) hs
  have hheld := hm.setAll hg.inRange_stores (hg.apart_stores hnew hst)
  refine ⟨hg.between_mono h.between, fun g hg' => ?_, fun _ => ⟨⟨s, hst, hg.holds hk hst hheld⟩, ?_⟩⟩
  · obtain ⟨he, hn⟩ := Chunk.pending_eq_some_iff.mp hg'
    cases he
    cases hl'.symm.trans hn
  · -- what still waits has another label, so it is another reference
    exact hg.apart_fixups hnew fun g hg' hn => hc.apart hf hg' fun he => hn (he ▸ hlab)

theorem keeps_waiting (hg : m.Grows keep m' labels target chunks rewrites stores) {f : Fixup}
    (h : m.Keeps (.ref f)) (hf : f ∈ m.symbols.fixups) (hl : m.symbols.lookup f.label = none)
    (hlab : ¬ labels f.label) : m'.Keeps (.ref f) := by
  have hl' : m'.symbols.lookup f.label = none := (hg.lookup _).trans ((if_neg hlab).trans hl)
  refine ⟨hg.between_mono h.between, fun g hg' => ?_, fun hn => ?_⟩
  · cases (Chunk.pending_eq_some_iff.mp hg').1
    rw [hg.fixups]
    exact List.mem_append_left _ (List.mem_filter.mpr ⟨hf, decide_eq_true hlab⟩)
  · obtain ⟨addr, ha⟩ := Chunk.lookup_of_settled hn
    cases hl'.symm.trans ha

theorem keeps (hg : m.Grows keep m' labels target chunks rewrites stores) (hc : m.Consistent)
    (hc' : m'.Consistent) {c : Chunk} (hk : ∀ a, c.Covers a → keep a) (h : m.Keeps c) : m'.Keeps c := by
  cases hp : c.pending m.symbols.lookup with
  | none => exact hg.keeps_settled hc hc' hk h hp
  | some f =>
    have hf := h.waits f hp
    obtain ⟨rfl, hl⟩ := Chunk.pending_eq_some_iff.mp hp
    by_cases hlab : labels f.label
    · exact hg.keeps_resolved hc hc' hk h hf hlab
    · exact hg.keeps_waiting h hf hl hlab

theorem holds_waiting (hg : m.Grows keep m' labels target chunks rewrites stores) (hc : m.Consistent)
    (hc' : m'.Consistent) {f : Fixup} (hk : ∀ a, (Chunk.ref f).Covers a → keep a) (h : m.Keeps (.ref f))
    (hf : f ∈ m.symbols.fixups) (hlab : ¬ labels f.label) {table : LabelTable} {s : Store}
    (hs : (Chunk.ref f).store table = .ok s) (hm : m.memory.Holds s) : m'.memory.Holds s := by
  have hrw : ∀ t ∈ rewrites, s.Apart t := by
    intro t ht
    obtain ⟨g, hg', hl, hr⟩ := hg.exists_rewrite ht
    have hne : f ≠ g := by
      rintro rfl
      exact hlab hl
    exact Chunk.apart_store (hc.apart hf hg' hne) hs (g.store_const target ▸ hr)
  have hst := hg.apart_stores (hg.apart_chunks hc hc' h.between) hs
  exact hg.holds hk hs ((hm.setAll (hg.inRange_rewrites hc) hrw).setAll hg.inRange_stores hst)

theorem bears (hg : m.Grows keep m' labels target chunks rewrites stores) (hc : m.Consistent)
    (hc' : m'.Consistent) {c : Chunk} (hk : ∀ a, c.Covers a → keep a) (h : m.Keeps c) (hb : m.Bears c) :
    m'.Bears c := by
  cases hp' : c.pending m'.symbols.lookup with
  | none => exact ((hg.keeps hc hc' hk h).stands hp').1
  | some f =>
    -- a label that has no address after the change had none before it
    obtain ⟨rfl, hl'⟩ := Chunk.pending_eq_some_iff.mp hp'
    rw [hg.lookup] at hl'
    have hlab : ¬ labels f.label := by
      intro hlab
      rw [if_pos hlab] at hl'
      cases hl'
    rw [if_neg hlab] at hl'
    obtain ⟨s, hs, hm⟩ := hb
    have hf := h.waits f (Chunk.pending_eq_some_iff.mpr ⟨rfl, hl'⟩)
    refine ⟨s, ?_, hg.holds_waiting hc hc' hk h hf hlab hs hm⟩
    rw [Chunk.store, hl'] at hs
    rw [Chunk.store, hg.lookup, if_neg hlab, hl']
    exact hs

theorem bears_new (hg : m.Grows keep m' labels target chunks rewrites stores) {c : Chunk}
    (hk : ∀ a, c.Covers a → keep a) (h : c ∈ chunks) : m'.Bears c := by
  obtain ⟨s, hs, hst⟩ := exists_mem_of_mapM hg.stores_eq h
  exact ⟨s, hst, hg.holds hk hst (Memory.holds_setAll (m.memory.setAll rewrites) hg.inRange_stores
    (Chunk.pairwise_stores hg.sorted hg.stores_eq) hs)⟩

theorem keeps_new (hg : m.Grows keep m' labels target chunks rewrites stores) (hc : m.Consistent)
    (hc' : m'.Consistent) {c : Chunk} (hk : ∀ a, c.Covers a → keep a) (h : c ∈ chunks) : m'.Keeps c := by
  have hsym : Std.Symm Chunk.Apart := ⟨fun _ _ => Or.symm⟩
  have hb := hg.placed c h
  refine ⟨?_, fun f hf => ?_, fun hp => ?_⟩
  · exact hb.mono ⟨hc.bounds.text_start, Nat.le_refl _⟩ ⟨hc.bounds.data_start, Nat.le_refl _⟩
  · rw [hg.fixups]
    exact List.mem_append_right _ (List.mem_filterMap.mpr ⟨c, h, hf⟩)
  · refine ⟨hg.bears_new hk h, fun f hf => ?_⟩
    rw [hg.fixups] at hf
    rcases List.mem_append.mp hf with hf | hf
    · exact ((hc.placed f (List.mem_filter.mp hf).1).apart Cursors.inBounds_start hc.bounds hc'.bounds hb).symm
    · obtain ⟨hm, hn⟩ := Chunk.mem_pending.mp hf
      apply hg.sorted.forall h hm
      rintro rfl
      obtain ⟨addr, ha⟩ := Chunk.lookup_of_settled hp
      cases hn.symm.trans ha

end Grows

section Changes

variable {keep : Word → Prop} {m m' : Machine}

theorem Accepts.grows {s : Stmt} {rewrites : List Store} {chunks : List Chunk} {stores : List Store}
    (ha : m.Accepts s rewrites chunks stores) (hc : m.Consistent) :
    m.Grows keep (m.after s rewrites chunks stores) s.Defines (m.cursors.here s) chunks rewrites stores where
  text := (hc.bounds.next ha.fits).2.1
  data := (hc.bounds.next ha.fits).2.2
  fresh name hd := by
    obtain ⟨l, hl, rfl⟩ := Option.map_eq_some_iff.mp hd
    exact ha.fresh l hl
  lookup name := by rw [lookup_after, table, Stmt.bind_apply]
  fixups := by rw [fixups_after hc.indexed, lookup_after]
  rewrites_eq := waiting_eq hc.indexed s ▸ ha.rewrites_eq
  placed := (Stmt.bounds_chunks hc.bounds ha.fits ha.chunks_eq).1
  sorted := (Stmt.bounds_chunks hc.bounds ha.fits ha.chunks_eq).2.imp Or.inl
  stores_eq := by rw [lookup_after]; exact ha.stores_eq
  memory _ _ := rfl

theorem grows_defined (hc : m.Consistent) {label : String} {addr : Word} {rewrites : List Store}
    (hl : m.symbols.lookup label = none)
    (hw : (m.symbols.waitingOn label).mapM (Fixup.rewrite addr) = .ok rewrites) :
    m.Grows keep (m.defined label addr rewrites) (· = label) addr [] rewrites [] where
  text := Nat.le_refl _
  data := Nat.le_refl _
  fresh name hd := hd ▸ hl
  lookup name := by
    simp only [eq_comm (a := name)]
    exact m.symbols.lookup_define label name addr
  fixups := (Symbols.fixups_define hc.indexed label addr).trans (List.append_nil _).symm
  rewrites_eq := Symbols.waitingOn_eq hc.indexed label ▸ hw
  placed c hc := (List.not_mem_nil hc).elim
  sorted := .nil
  stores_eq := rfl
  memory _ _ := rfl

theorem grows_of_symbols_eq (hs : m'.symbols = m.symbols) (ht : m.textCursor.toNat ≤ m'.textCursor.toNat)
    (hd : m.dataCursor.toNat ≤ m'.dataCursor.toNat) {chunks : List Chunk} {stores : List Store}
    (hp : ∀ c ∈ chunks, c.Between m.cursors m'.cursors) (ha : chunks.Pairwise Chunk.Apart)
    (hf : chunks = stores.map .fixed)
    (hm : ∀ a, keep a → m'.memory.getByte a = (m.memory.setAll stores).getByte a) :
    m.Grows keep m' (fun _ => False) 0 chunks [] stores := by
  subst hf
  refine ⟨ht, hd, fun name hl => hl.elim, fun name => ?_, ?_, ?_, hp, ha, ?_, hm⟩
  · rw [hs, if_neg id]
  · simp [hs, List.filterMap_map, Function.comp_def, Chunk.pending]
  · simp [pure, Except.pure]
  · rw [mapM_eq_ok_iff, List.forall₂_map_left_iff, List.forall₂_same]
    exact fun _ _ => rfl

def Changes (keep : Word → Prop) (m m' : Machine) : Prop :=
  ∃ (labels : String → Prop) (_ : DecidablePred labels) (target : Word) (chunks : List Chunk)
    (rewrites stores : List Store), m.Grows keep m' labels target chunks rewrites stores

theorem changes_of_symbols_eq (hs : m'.symbols = m.symbols) (hc : m'.cursors = m.cursors)
    (hm : ∀ a, keep a → m'.memory.getByte a = m.memory.getByte a) : m.Changes keep m' := by
  have ht : m'.textCursor = m.textCursor := congrArg Cursors.text hc
  have hd : m'.dataCursor = m.dataCursor := congrArg Cursors.data hc
  have hg : m.Grows keep m' (fun _ => False) 0 [] [] [] :=
    grows_of_symbols_eq hs (ht ▸ Nat.le_refl _) (hd ▸ Nat.le_refl _)
      (fun c hc => (List.not_mem_nil hc).elim) .nil rfl hm
  exact ⟨_, inferInstance, _, _, _, _, hg⟩

theorem changes_of_store {s : Store} (hs : m'.symbols = m.symbols)
    (ht : m.textCursor.toNat ≤ m'.textCursor.toNat) (hd : m.dataCursor.toNat ≤ m'.dataCursor.toNat)
    (hb : (Chunk.fixed s).Between m.cursors m'.cursors) (hm : m'.memory = m.memory.setAll [s]) :
    m.Changes keep m' :=
  ⟨_, inferInstance, _, _, _, _, grows_of_symbols_eq hs ht hd (List.forall_mem_singleton.mpr hb)
    (List.pairwise_singleton _ _) List.map_singleton.symm fun _ _ => hm ▸ rfl⟩

theorem changes_refl (m : Machine) : m.Changes keep m := changes_of_symbols_eq rfl rfl fun _ _ => rfl

theorem changes_assemble (hc : m.Consistent) (s : Stmt) : m.Changes keep (m.assemble s).2 := by
  cases ha : m.assemble s with
  | mk result m' =>
    cases result with
    | error e =>
      obtain rfl := assemble_error ha
      exact changes_refl _
    | ok words =>
      obtain ⟨rewrites, chunks, stores, hacc, rfl, -⟩ := assemble_ok hc.bounds.text_stop ha
      exact ⟨_, inferInstance, _, _, _, _, hacc.grows hc⟩

theorem changes_define (hc : m.Consistent) (label : String) (addr : Word) :
    m.Changes keep (m.define label addr).2 := by
  cases hd : m.define label addr with
  | mk result m' =>
    cases result with
    | error e =>
      obtain rfl := define_error hd
      exact changes_refl _
    | ok u =>
      obtain ⟨hl, rewrites, hw, rfl⟩ := define_ok_iff.mp hd
      exact ⟨_, inferInstance, _, _, _, _, grows_defined hc hl hw⟩

theorem changes_emitText (hc : m.Consistent) (word : Word) : m.Changes keep (m.emitText word).2 := by
  unfold emitText
  cases ha : Segment.text.advance m.textCursor 4 with
  | error e => exact changes_refl m
  | ok next =>
    obtain ⟨hle, rfl⟩ := Segment.advance_eq_ok_iff.mp ha
    have hn := Segment.toNat_of_le_stop hle
    have hb : (Chunk.fixed (m.textCursor, word.bytes)).Between m.cursors
        ⟨m.textCursor + BitVec.ofNat 32 4, m.dataCursor, m.mode⟩ :=
      .text (Nat.le_refl _) hc.bounds.text_aligned (Nat.le_of_eq hn.symm)
    exact changes_of_store rfl (hn ▸ Nat.le_add_right _ _) (Nat.le_refl _) hb rfl

theorem changes_emitData (m : Machine) (bytes : List Byte) (alignment : Nat) :
    m.Changes keep (m.emitData bytes alignment).2 := by
  unfold emitData
  by_cases hm : m.dataCursor.toNat % alignment ≠ 0
  · rw [if_pos hm]
    exact changes_refl m
  · rw [if_neg hm]
    cases ha : Segment.data.advance m.dataCursor bytes.length with
    | error e => exact changes_refl m
    | ok next =>
      obtain ⟨hle, rfl⟩ := Segment.advance_eq_ok_iff.mp ha
      have hn := Segment.toNat_of_le_stop hle
      have hb : (Chunk.fixed (m.dataCursor, bytes)).Between m.cursors
          ⟨m.textCursor, m.dataCursor + BitVec.ofNat 32 bytes.length, m.mode⟩ :=
        .data (fun _ => Chunk.noConfusion) (Nat.le_refl _) (Nat.le_of_eq hn.symm)
      exact changes_of_store rfl (Nat.le_refl _) (hn ▸ Nat.le_add_right _ _) hb rfl

end Changes

/-- What a machine may go through, short of a reset, while the bytes in `keep` are not overwritten. -/
inductive Onward (keep : Word → Prop) (m : Machine) : Machine → Prop
  | refl : Onward keep m m
  | assemble {n : Machine} (h : Onward keep m n) (s : Stmt) : Onward keep m (n.assemble s).2
  | define {n : Machine} (h : Onward keep m n) (label : String) (addr : Word) :
      Onward keep m (n.define label addr).2
  | emitText {n : Machine} (h : Onward keep m n) (word : Word) : Onward keep m (n.emitText word).2
  | emitData {n : Machine} (h : Onward keep m n) (bytes : List Byte) (alignment : Nat) :
      Onward keep m (n.emitData bytes alignment).2
  | set {n : Machine} (h : Onward keep m n) (memory : Memory) (registers : RegisterFile) (pc : Word)
      (halted : Bool) (count : BitVec 64) (flags : Flags) (breakpoints : List Breakpoint) (console : Console)
      (hm : ∀ a, keep a → memory.getByte a = n.memory.getByte a) :
      Onward keep m { n with memory, registers, pc, halted, count, flags, breakpoints, console }

namespace Onward

variable {keep : Word → Prop} {m n : Machine}

theorem induct {P : Machine → Prop}
    (hP : ∀ n n', n.Consistent → n'.Consistent → n.Changes keep n' → P n → P n') (h : Onward keep m n)
    (hc : m.Consistent) (hm : P m) : n.Consistent ∧ P n := by
  have go {n n' : Machine} (ih : n.Consistent ∧ P n) (hn' : n'.Consistent) (hch : n.Changes keep n') :
      n'.Consistent ∧ P n' := ⟨hn', hP n n' ih.1 hn' hch ih.2⟩
  induction h with
  | refl => exact ⟨hc, hm⟩
  | assemble _ s ih => exact go ih (ih.1.assemble s) (changes_assemble ih.1 s)
  | define _ label addr ih => exact go ih (ih.1.define label addr) (changes_define ih.1 label addr)
  | emitText _ word ih => exact go ih (ih.1.emitText word) (changes_emitText ih.1 word)
  | emitData _ bytes alignment ih =>
    exact go ih (ih.1.emitData bytes alignment) (changes_emitData _ bytes alignment)
  | set _ memory registers pc halted count flags breakpoints console hk ih =>
    exact go ih (ih.1.congr rfl rfl) (changes_of_symbols_eq rfl rfl hk)

theorem consistent (h : Onward keep m n) (hc : m.Consistent) : n.Consistent :=
  (h.induct (P := fun _ => True) (fun _ _ _ _ _ _ => trivial) hc trivial).1

theorem keeps (h : Onward keep m n) (hc : m.Consistent) {c : Chunk} (hk : ∀ a, c.Covers a → keep a)
    (hm : m.Keeps c) : n.Keeps c := by
  refine (h.induct (P := fun n => n.Keeps c) ?_ hc hm).2
  rintro n n' hn hn' ⟨labels, _, target, chunks, rewrites, stores, hg⟩ hkeeps
  exact hg.keeps hn hn' hk hkeeps

theorem bears (h : Onward keep m n) (hc : m.Consistent) {c : Chunk} (hk : ∀ a, c.Covers a → keep a)
    (hm : m.Keeps c) (hb : m.Bears c) : n.Bears c := by
  refine (h.induct (P := fun n => n.Keeps c ∧ n.Bears c) ?_ hc ⟨hm, hb⟩).2.2
  rintro n n' hn hn' ⟨labels, _, target, chunks, rewrites, stores, hg⟩ ⟨hkeeps, hbears⟩
  exact ⟨hg.keeps hn hn' hk hkeeps, hg.bears hn hn' hk hkeeps hbears⟩

theorem lookup (h : Onward keep m n) (hc : m.Consistent) {name : String} {addr : Word}
    (hm : m.symbols.lookup name = some addr) : n.symbols.lookup name = some addr := by
  refine (h.induct (P := fun n => n.symbols.lookup name = some addr) ?_ hc hm).2
  rintro n n' - - ⟨labels, _, target, chunks, rewrites, stores, hg⟩ hl
  exact hg.lookup_mono hl

end Onward

end Machine

end MipsMachine
