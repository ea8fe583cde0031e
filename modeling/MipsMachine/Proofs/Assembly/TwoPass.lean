import MipsMachine.Proofs.Assembly.Reachable
import MipsMachine.Proofs.Assembly.References

/-!
An assembler in two passes, and the proof that assembling line by line comes to the same. The first pass
places every statement by the sizes of those before it, which gives every label its address; the second
encodes all statements with the complete table of labels.
-/

namespace MipsMachine

structure Image where
  cursors : Cursors
  labels : LabelTable
  bytes : Word → Byte
  fixups : List Fixup

def Machine.image (m : Machine) : Image := ⟨m.cursors, m.symbols.lookup, m.memory.getByte, m.symbols.fixups⟩

def Machine.Linked (m : Machine) (f : Fixup) : Prop :=
  match m.symbols.lookup f.label with
  | some target =>
    f.patch.resolve f.addr target = .ok (m.memory.words f.addr f.patch.size) ∧
      ∀ g ∈ m.symbols.fixups, g.addr ≠ f.addr
  | none =>
    m.memory.words f.addr f.patch.size = f.patch.placeholder ∧ m.symbols.fixups.filter (·.addr = f.addr) = [f]

namespace TwoPass

def place (c : Cursors) : List Stmt → List (Cursors × Stmt)
  | [] => []
  | s :: ss => (c, s) :: place (c.next s) ss

def labels (placed : List (Cursors × Stmt)) : LabelTable := fun name =>
  (placed.find? fun p => p.2.Defines name).map fun p => p.1.here p.2

def chunks (table : LabelTable) (placed : List (Cursors × Stmt)) : Except AsmError (List Chunk) := do
  return (← placed.mapM fun p => p.2.chunks p.1 table).flatten

def assemble (ss : List Stmt) : Except AsmError Image := do
  let placed := place .start ss
  let table := labels placed
  let cs ← chunks table placed
  let stores ← (cs.mapM (Chunk.store table)).mapError AsmCause.spanless
  return {
    cursors := ss.foldl Cursors.next .start
    labels := table
    bytes := (Memory.empty.setAll stores).getByte
    fixups := cs.filterMap (Chunk.pending table) }

def parse (lines : List String) : Except AsmError (List Stmt) :=
  lines.mapM fun line => (Stmt.ofTokens (Token.ofLine line)).mapError .ofParse

def kept (lines : List String) (results : List (Except AsmError (List Word))) : List String :=
  ((lines.zip results).filter (·.2.isOk)).map Prod.fst

theorem place_append (c : Cursors) (ss ts : List Stmt) :
    place c (ss ++ ts) = place c ss ++ place (ss.foldl Cursors.next c) ts := by
  induction ss generalizing c with
  | nil => rfl
  | cons s ss ih => exact congrArg _ (ih (c.next s))

theorem labels_append_singleton {placed : List (Cursors × Stmt)} {c : Cursors} {s : Stmt}
    (h : ∀ name, s.Defines name → labels placed name = none) :
    labels (placed ++ [(c, s)]) = s.bind c (labels placed) := by
  funext name
  rw [Stmt.bind_apply]
  by_cases hd : s.Defines name
  · have hn : placed.find? (fun p => p.2.Defines name) = none := Option.map_eq_none_iff.mp (h name hd)
    rw [if_pos hd, labels, List.find?_append, hn, List.find?_cons_of_pos (by simpa using hd)]
    rfl
  · rw [if_neg hd, labels, labels, List.find?_append, List.find?_cons_of_neg (by simpa using hd),
      List.find?_nil, Option.or_none]

theorem chunks_eq_ok_iff {table : LabelTable} {placed : List (Cursors × Stmt)} {cs : List Chunk} :
    chunks table placed = .ok cs ↔
      ∃ css, placed.mapM (fun p => p.2.chunks p.1 table) = .ok css ∧ cs = css.flatten := by
  unfold chunks
  cases placed.mapM fun p => p.2.chunks p.1 table with
  | error e => exact ⟨fun h => (nomatch h), fun ⟨_, h, _⟩ => (nomatch h)⟩
  | ok css =>
    constructor
    · intro h
      cases h
      exact ⟨css, rfl, rfl⟩
    · rintro ⟨_, h, rfl⟩
      cases h
      rfl

theorem chunks_append {table : LabelTable} {placed : List (Cursors × Stmt)} {cs ds : List Chunk} {c : Cursors}
    {s : Stmt} (h : chunks table placed = .ok cs) (hs : s.chunks c table = .ok ds) :
    chunks table (placed ++ [(c, s)]) = .ok (cs ++ ds) := by
  obtain ⟨css, hcss, rfl⟩ := chunks_eq_ok_iff.mp h
  refine chunks_eq_ok_iff.mpr ⟨css ++ [ds], ?_, ?_⟩
  · refine mapM_append_eq_ok_iff.mpr ⟨css, [ds], hcss, ?_, rfl⟩
    exact mapM_eq_ok_iff.mpr (.cons hs .nil)
  · rw [List.flatten_append, List.flatten_singleton]

theorem chunks_mono {table table' : LabelTable} {placed : List (Cursors × Stmt)} {cs : List Chunk}
    (h : chunks table placed = .ok cs) (ht : ∀ name addr, table name = some addr → table' name = some addr) :
    chunks table' placed = .ok cs := by
  obtain ⟨css, hcss, rfl⟩ := chunks_eq_ok_iff.mp h
  refine chunks_eq_ok_iff.mpr ⟨css, ?_, rfl⟩
  rw [mapM_eq_ok_iff] at hcss ⊢
  exact hcss.imp fun p ds hp => Stmt.chunks_mono hp ht

theorem mem_chunks {table : LabelTable} {placed : List (Cursors × Stmt)} {cs : List Chunk}
    (h : chunks table placed = .ok cs) {p : Cursors × Stmt} (hp : p ∈ placed) :
    ∃ ds, p.2.chunks p.1 table = .ok ds ∧ ∀ d ∈ ds, d ∈ cs := by
  obtain ⟨css, hcss, rfl⟩ := chunks_eq_ok_iff.mp h
  obtain ⟨ds, hds, hd⟩ := exists_mem_of_mapM hcss hp
  exact ⟨ds, hd, fun d hm => List.mem_flatten.mpr ⟨ds, hds, hm⟩⟩

section Bind

variable {s : Stmt} {c : Cursors} {table : LabelTable} {cs : List Chunk} {stores rewrites : List Store}

theorem filterMap_pending_bind (s : Stmt) (c : Cursors) (table : LabelTable) (cs : List Chunk) :
    cs.filterMap (Chunk.pending (s.bind c table)) =
      (cs.filterMap (Chunk.pending table)).filter (¬ s.Defines ·.label) := by
  unfold Stmt.bind
  cases hl : s.label with
  | none => simp [Stmt.not_defines hl]
  | some l =>
    change cs.filterMap (Chunk.pending (table.define l.name (c.here s))) = _
    rw [Chunk.filterMap_pending_define]
    simp [Stmt.defines_iff hl, eq_comm]

theorem exists_stores_bind (hf : ∀ l, s.label = some l → table l.name = none) (hr : ∀ k ∈ cs, k.InRange)
    (ha : cs.Pairwise Chunk.Apart) (hs : cs.mapM (Chunk.store table) = .ok stores)
    (hw : ((cs.filterMap (Chunk.pending table)).filter (s.Defines ·.label)).mapM (Fixup.rewrite (c.here s)) =
      .ok rewrites) :
    ∃ stores', cs.mapM (Chunk.store (s.bind c table)) = .ok stores' ∧
      ∀ m : Memory, (m.setAll stores').getByte = ((m.setAll stores).setAll rewrites).getByte := by
  unfold Stmt.bind
  cases hl : s.label with
  | none =>
    simp only [Stmt.not_defines hl, decide_false, List.filter_false] at hw
    cases hw
    exact ⟨stores, hs, fun m => rfl⟩
  | some l =>
    simp only [Stmt.defines_iff hl, eq_comm (a := l.name)] at hw
    obtain ⟨stores', hs'⟩ := (Chunk.exists_stores_define (hf l hl) hs).mpr ⟨rewrites, hw⟩
    exact ⟨stores', hs', Chunk.getByte_setAll_define (hf l hl) hr ha hs hs' hw⟩

end Bind

open Machine

structure Assembled (m : Machine) (ss : List Stmt) (cs : List Chunk) (stores : List Store) : Prop where
  consistent : m.Consistent
  cursors : m.cursors = ss.foldl Cursors.next .start
  labels : m.symbols.lookup = labels (place .start ss)
  bound : ∀ p ∈ place .start ss, ∀ name, p.2.Defines name → m.symbols.lookup name = some (p.1.here p.2)
  chunks_eq : chunks m.symbols.lookup (place .start ss) = .ok cs
  stores_eq : cs.mapM (Chunk.store m.symbols.lookup) = .ok stores
  bytes : m.memory.getByte = (Memory.empty.setAll stores).getByte
  fixups : m.symbols.fixups = cs.filterMap (Chunk.pending m.symbols.lookup)
  between : ∀ k ∈ cs, k.Between .start m.cursors
  apart : cs.Pairwise Chunk.Apart

namespace Assembled

variable {m : Machine} {ss : List Stmt} {cs : List Chunk} {stores : List Store}

theorem new (flags : Flags) : Assembled (new flags) [] [] [] where
  consistent := .new flags
  cursors := rfl
  labels := funext Symbols.lookup_empty
  bound _ hp := (List.not_mem_nil hp).elim
  chunks_eq := rfl
  stores_eq := rfl
  bytes := rfl
  fixups := rfl
  between _ hk := (List.not_mem_nil hk).elim
  apart := .nil

theorem assemble_eq (h : Assembled m ss cs stores) : assemble ss = .ok m.image := by
  have hc := h.chunks_eq
  have hs := h.stores_eq
  rw [h.labels] at hc hs
  unfold assemble Machine.image
  simp only [hc, hs, bind, Except.bind, Except.mapError]
  rw [h.cursors, h.bytes, h.fixups, h.labels]
  rfl

theorem after (h : Assembled m ss cs stores) {s : Stmt} {rewrites : List Store} {ds : List Chunk}
    {more : List Store} (ha : m.Accepts s rewrites ds more) :
    ∃ stores', Assembled (m.after s rewrites ds more) (ss ++ [s]) (cs ++ ds) stores' := by
  obtain ⟨hnext, htext, hdata⟩ := h.consistent.bounds.next ha.fits
  obtain ⟨hbetween, hsorted⟩ := Stmt.bounds_chunks h.consistent.bounds ha.fits ha.chunks_eq
  -- the rewrites of the machine are those of the chunks that wait for the label under the old table
  have hwait := ha.rewrites_eq
  rw [waiting_eq h.consistent.indexed, h.fixups] at hwait
  have hin : ∀ k ∈ cs, k.InRange := fun k hk => (h.between k hk).inRange
  obtain ⟨stores', hstores', hbytes⟩ := exists_stores_bind ha.fresh hin h.apart h.stores_eq hwait
  have hmono : ∀ name addr, m.symbols.lookup name = some addr → m.table s name = some addr := by
    intro name addr hn
    rw [table, Stmt.bind_apply, if_neg, hn]
    intro hd
    obtain ⟨l, hl, rfl⟩ := Option.map_eq_some_iff.mp hd
    rw [ha.fresh l hl] at hn
    cases hn
  have hplace : place .start (ss ++ [s]) = place .start ss ++ [(m.cursors, s)] := by
    rw [place_append, ← h.cursors]
    rfl
  refine ⟨stores' ++ more, ?_⟩
  constructor
  · exact h.consistent.after ha
  · rw [List.foldl_append, ← h.cursors]
    rfl
  · rw [lookup_after, hplace, labels_append_singleton, ← h.labels]
    · rfl
    · intro name hd
      obtain ⟨l, hl, rfl⟩ := Option.map_eq_some_iff.mp hd
      rw [← h.labels]
      exact ha.fresh l hl
  · intro p hp name hd
    rw [lookup_after]
    rw [hplace] at hp
    rcases List.mem_append.mp hp with hp | hp
    · exact hmono name _ (h.bound p hp name hd)
    · obtain rfl := List.mem_singleton.mp hp
      rw [table, Stmt.bind_apply, if_pos hd]
  · rw [lookup_after, hplace]
    exact chunks_append (chunks_mono h.chunks_eq hmono) ha.chunks_eq
  · rw [lookup_after]
    exact mapM_append_eq_ok_iff.mpr ⟨stores', more, hstores', ha.stores_eq, rfl⟩
  · rw [Memory.setAll_append]
    apply Memory.setAll_congr
    · rw [hbytes]
      apply Memory.setAll_congr h.bytes
      intro t ht
      obtain ⟨f, hf, hr⟩ := exists_of_mem_mapM hwait ht
      have hst : (Chunk.ref f).store (fun _ => some (m.cursors.here s)) = .ok t := hr
      exact Chunk.inRange_store (hin _ (Chunk.mem_pending.mp (List.mem_filter.mp hf).1).1) hst
    · intro t ht
      obtain ⟨k, hk, hst⟩ := exists_of_mem_mapM ha.stores_eq ht
      exact Chunk.inRange_store (hbetween k hk).inRange hst
  · rw [fixups_after h.consistent.indexed, lookup_after, List.filterMap_append, h.fixups,
      ← filterMap_pending_bind s m.cursors m.symbols.lookup cs]
    rfl
  · intro k hk
    rcases List.mem_append.mp hk with hk | hk
    · exact (h.between k hk).mono ⟨Nat.le_refl _, htext⟩ ⟨Nat.le_refl _, hdata⟩
    · exact (hbetween k hk).mono ⟨h.consistent.bounds.text_start, Nat.le_refl _⟩
        ⟨h.consistent.bounds.data_start, Nat.le_refl _⟩
  · refine List.pairwise_append.mpr ⟨h.apart, hsorted.imp Or.inl, fun k hk d hd => ?_⟩
    exact (h.between k hk).apart Cursors.inBounds_start h.consistent.bounds hnext (hbetween d hd)

theorem words_eq (h : Assembled m ss cs stores) {f : Fixup} {ws : List Word} (hlen : ws.length = f.patch.size)
    (hf : .ref f ∈ cs) (hs : (Chunk.ref f).store m.symbols.lookup = .ok (f.addr, ws.flatMap Word.bytes)) :
    m.memory.words f.addr f.patch.size = ws := by
  have hin : ∀ t ∈ stores, t.InRange := by
    intro t ht
    obtain ⟨k, hk, hst⟩ := exists_of_mem_mapM h.stores_eq ht
    exact Chunk.inRange_store (h.between k hk).inRange hst
  have hmem : (f.addr, ws.flatMap Word.bytes) ∈ stores := by
    obtain ⟨t, ht, hst⟩ := exists_mem_of_mapM h.stores_eq hf
    cases hs.symm.trans hst
    exact ht
  have hrange : f.addr.toNat + 4 * f.patch.size ≤ 0x100000000 := (h.between _ hf).inRange
  rw [Memory.words_congr (fun b _ _ => congrFun h.bytes b) hrange, ← hlen]
  exact Memory.words_setAll_of_mem _ hin (Chunk.pairwise_stores h.apart h.stores_eq) hmem

theorem addr_ne (h : Assembled m ss cs stores) {f g : Fixup} (hf : .ref f ∈ cs) (hg : .ref g ∈ cs)
    (hne : g ≠ f) : g.addr ≠ f.addr := by
  have hsym : Std.Symm Chunk.Apart := ⟨fun _ _ => Or.symm⟩
  have hap : (Chunk.ref g).stop ≤ f.addr.toNat ∨ (Chunk.ref f).stop ≤ g.addr.toNat :=
    h.apart.forall hg hf fun he => hne (Chunk.ref.inj he)
  have hlf : f.addr.toNat < (Chunk.ref f).stop := f.addr_lt_stop
  have hlg : g.addr.toNat < (Chunk.ref g).stop := g.addr_lt_stop
  intro he
  rw [he] at hap hlg
  omega

theorem linked (h : Assembled m ss cs stores) {f : Fixup} (hf : .ref f ∈ cs) : m.Linked f := by
  obtain ⟨t, -, hst⟩ := exists_mem_of_mapM h.stores_eq hf
  unfold Linked
  cases hl : m.symbols.lookup f.label with
  | some target =>
    have hrw : f.rewrite target = .ok t := by
      rw [← hst, Chunk.store, hl]
    unfold Fixup.rewrite at hrw
    cases hr : f.patch.resolve f.addr target with
    | error e => rw [hr] at hrw; cases hrw
    | ok ws =>
      rw [hr] at hrw
      cases hrw
      have hw := h.words_eq (Patch.length_resolve hr) hf hst
      refine ⟨hr.trans (congrArg Except.ok hw.symm), fun g hg => ?_⟩
      rw [h.fixups] at hg
      obtain ⟨hm, hn⟩ := Chunk.mem_pending.mp hg
      apply h.addr_ne hf hm
      rintro rfl
      rw [hl] at hn
      cases hn
  | none =>
    have hs : (Chunk.ref f).store m.symbols.lookup =
        .ok (f.addr, f.patch.placeholder.flatMap Word.bytes) := by
      rw [Chunk.store, hl]
    refine ⟨h.words_eq f.patch.length_placeholder hf hs, ?_⟩
    apply Fixup.filter_addr_eq h.consistent.sorted
    rw [h.fixups]
    exact Chunk.mem_pending.mpr ⟨hf, hl⟩

theorem linked_references (h : Assembled m ss cs stores) {p : Cursors × Stmt} (hp : p ∈ place .start ss)
    {f : Fixup} (hf : f ∈ p.2.references p.1.text) : m.Linked f := by
  obtain ⟨ds, hds, hsub⟩ := mem_chunks h.chunks_eq hp
  exact h.linked (hsub _ ((Chunk.mem_references hds).mp hf))

theorem assembleLine (h : Assembled m ss cs stores) (line : String) :
    (∃ e, m.assembleLine line = (.error e, m)) ∨
      ∃ words m' s cs' stores', m.assembleLine line = (.ok words, m') ∧
        Stmt.ofTokens (Token.ofLine line) = .ok s ∧ Assembled m' (ss ++ [s]) cs' stores' := by
  unfold Machine.assembleLine assembleTokens
  cases hs : Stmt.ofTokens (Token.ofLine line) with
  | error e => exact .inl ⟨_, rfl⟩
  | ok s =>
    cases ha : m.assemble s with
    | mk result m' =>
      cases result with
      | error e =>
        obtain rfl := assemble_error ha
        exact .inl ⟨e, ha⟩
      | ok words =>
        obtain ⟨rewrites, ds, more, hacc, rfl, -⟩ := assemble_ok h.consistent.bounds.text_stop ha
        obtain ⟨stores', h'⟩ := h.after hacc
        exact .inr ⟨words, _, s, _, _, ha, rfl, h'⟩

theorem assembleLines (h : Assembled m ss cs stores) (lines : List String) :
    ∃ ts cs' stores', parse (kept lines (m.assembleLines lines).1) = .ok ts ∧
      Assembled (m.assembleLines lines).2 (ss ++ ts) cs' stores' := by
  induction lines generalizing m ss cs stores with
  | nil =>
    refine ⟨[], cs, stores, rfl, ?_⟩
    rw [List.append_nil]
    exact h
  | cons line rest ih =>
    rw [Machine.assembleLines]
    rcases h.assembleLine line with ⟨e, he⟩ | ⟨words, m', s, cs', stores', ha, hs, h'⟩
    · rw [he]
      exact ih h
    · rw [ha]
      obtain ⟨ts, cs'', stores'', hts, h''⟩ := ih h'
      refine ⟨s :: ts, cs'', stores'', ?_, List.append_cons ss s ts ▸ h''⟩
      unfold parse at hts ⊢
      change (line :: kept rest (m'.assembleLines rest).1).mapM _ = _
      rw [mapM_eq_ok_iff] at hts ⊢
      refine .cons ?_ hts
      rw [hs]
      rfl

end Assembled

/-- Lines assembled one by one on a new machine come to what two passes over the kept ones lay out. -/
theorem assembleLines_eq_twoPass (flags : Flags) (lines : List String) :
    let (results, m) := (new flags).assembleLines lines
    (∃ ss, parse (kept lines results) = .ok ss ∧ assemble ss = .ok m.image ∧
      (∀ p ∈ place .start ss, ∀ name, p.2.Defines name → m.symbols.lookup name = some (p.1.here p.2)) ∧
      ∀ p ∈ place .start ss, ∀ f ∈ p.2.references p.1.text, m.Linked f) ∧
    ∀ (i : SourceInstr) (table : LabelTable) (ps : List Piece),
      i.expand table = .ok ps → Piece.sizes ps = i.size := by
  obtain ⟨ss, cs, stores, hp, h⟩ := (Assembled.new flags).assembleLines lines
  rw [List.nil_append] at h
  refine ⟨⟨ss, hp, h.assemble_eq, h.bound, fun p hp f hf => h.linked_references hp hf⟩, ?_⟩
  exact fun i table ps => SourceInstr.sizes_expand

end TwoPass

end MipsMachine
