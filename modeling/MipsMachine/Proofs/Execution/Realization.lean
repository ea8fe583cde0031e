import MipsMachine.Proofs.Assembly.Onward
import MipsMachine.Proofs.Execution.Stepping

namespace MipsMachine

theorem Fixup.covers_iff {f : Fixup} (h : f.stop < 0x100000000) (a : Word) :
    f.covers a = true ↔ f.addr.toNat ≤ a.toNat ∧ a.toNat < f.stop := by
  have hs : (f.addr + BitVec.ofNat 32 (4 * f.patch.size)).toNat = f.stop := Word.toNat_add_ofNat _ _ h
  rw [covers, Bool.and_eq_true, decide_eq_true_iff, decide_eq_true_iff, BitVec.le_def, BitVec.lt_def, hs]

namespace Machine

section Carries

variable {n : Machine} {addr : Word} {ws : List Word}

def Settled (n : Machine) (start stop : Nat) : Prop :=
  ∀ f ∈ n.symbols.fixups, ∀ a : Word, start ≤ a.toNat → a.toNat < stop → f.covers a = false

theorem carries_of_words (ha : addr.toNat % 4 = 0) (hs : Segment.text.start.toNat ≤ addr.toNat)
    (he : addr.toNat + 4 * ws.length ≤ Segment.text.stop.toNat)
    (hset : n.Settled addr.toNat (addr.toNat + 4 * ws.length)) (hw : n.memory.words addr ws.length = ws) :
    n.Carries addr ws := by
  have hstop : Segment.text.stop.toNat = 0x10000000 := rfl
  induction ws generalizing addr with
  | nil => trivial
  | cons w ws ih =>
    rw [List.length_cons] at he hset hw
    obtain ⟨hw, hws⟩ := List.cons.inj hw
    have hn : (addr + 4).toNat = addr.toNat + 4 := Word.toNat_add_ofNat addr 4 (by omega)
    have hlt : addr.toNat < Segment.text.stop.toNat := by omega
    have hfirst : n.Fetchable addr w :=
      ⟨ha, ⟨hs, hlt⟩, fun f hf => hset f hf addr (Nat.le_refl _) (by omega), hw⟩
    refine ⟨hfirst, ih ?_ ?_ ?_ ?_ hws⟩
    · omega
    · omega
    · omega
    · exact fun f hf a h1 h2 => hset f hf a (by omega) (by omega)

theorem Consistent.settled (hc : n.Consistent) {c : Chunk} (h : ∀ f ∈ n.symbols.fixups, c.Apart (.ref f)) :
    n.Settled c.addr.toNat c.stop := by
  intro f hf a h1 h2
  have hstop : f.stop < 0x100000000 :=
    Nat.lt_of_le_of_lt (hc.placed f hf).ref.2.2 n.textCursor.isLt
  rw [Bool.eq_false_iff, ne_eq, Fixup.covers_iff hstop]
  rintro ⟨h3, h4⟩
  rcases h f hf with h | h
  · exact absurd (Nat.lt_of_le_of_lt h3 h2) (Nat.not_lt.mpr h)
  · exact absurd (Nat.lt_of_le_of_lt h1 h4) (Nat.not_lt.mpr h)

theorem Keeps.carries {c : Chunk} (h : n.Keeps c) (hc : n.Consistent) (ha : c.addr.toNat % 4 = 0)
    (hs : Segment.text.start.toNat ≤ c.addr.toNat) (he : c.stop ≤ Segment.text.stop.toNat)
    (hp : c.pending n.symbols.lookup = none) :
    ∃ s, c.store n.symbols.lookup = .ok s ∧
      ∀ ws : List Word, s.2 = ws.flatMap Word.bytes → n.Carries c.addr ws := by
  obtain ⟨⟨s, hst, hm⟩, hap⟩ := h.stands hp
  refine ⟨s, hst, fun ws hws => ?_⟩
  obtain ⟨haddr, hlen⟩ := Chunk.shape_store hst
  have hstop : Segment.text.stop.toNat = 0x10000000 := rfl
  have hsize : c.addr.toNat + 4 * ws.length = c.stop := by
    rw [Chunk.stop, ← hlen, hws, Memory.length_flatMap_bytes]
  obtain ⟨a, bs⟩ := s
  subst hws
  subst haddr
  refine carries_of_words ha hs (hsize ▸ he) (hsize ▸ hc.settled hap) (hm.words ?_)
  omega

end Carries

def Realizes (n : Machine) (addr : Word) : Piece → Prop
  | .word i => n.Fetchable addr i.encode
  | .ref patch label => ∀ target, n.symbols.lookup label.name = some target →
      ∃ ws, patch.resolve addr target = .ok ws ∧ n.Carries addr ws

def RealizesAll (n : Machine) (addr : Word) : List Piece → Prop
  | [] => True
  | p :: ps => n.Realizes addr p ∧ n.RealizesAll (addr + BitVec.ofNat 32 (4 * p.size)) ps

section Realizes

variable {n : Machine} {addr : Word}

theorem realizes_of_keeps (hc : n.Consistent) {p : Piece} (ha : addr.toNat % 4 = 0)
    (hs : Segment.text.start.toNat ≤ addr.toNat) (he : addr.toNat + 4 * p.size ≤ Segment.text.stop.toNat)
    (hk : n.Keeps (Chunk.ofPiece addr p)) : n.Realizes addr p := by
  cases p with
  | word i =>
    obtain ⟨s, hst, hw⟩ := hk.carries hc ha hs he rfl
    cases hst
    exact (hw [i.encode] (List.append_nil _).symm).1
  | ref patch label =>
    intro target ht
    have hp : (Chunk.ofPiece addr (.ref patch label)).pending n.symbols.lookup = none := by
      rw [Chunk.ofPiece, Chunk.pending, ht]
      exact if_neg (Option.some_ne_none target)
    obtain ⟨s, hst, hw⟩ := hk.carries hc ha hs he hp
    rw [Chunk.ofPiece, Chunk.store, ht] at hst
    simp only [Fixup.rewrite] at hst
    cases hr : patch.resolve addr target with
    | error e => rw [hr] at hst; cases hst
    | ok ws =>
      rw [hr] at hst
      cases hst
      exact ⟨ws, rfl, hw ws rfl⟩

theorem realizesAll_of_keeps (hc : n.Consistent) {ps : List Piece} (ha : addr.toNat % 4 = 0)
    (hs : Segment.text.start.toNat ≤ addr.toNat)
    (he : addr.toNat + 4 * Piece.sizes ps ≤ Segment.text.stop.toNat)
    (hk : ∀ c ∈ Chunk.ofPieces addr ps, n.Keeps c) : n.RealizesAll addr ps := by
  induction ps generalizing addr with
  | nil => trivial
  | cons p ps ih =>
    rw [Piece.sizes_cons] at he
    obtain ⟨hp, hps⟩ := List.forall_mem_cons.mp hk
    have hn := Segment.toNat_of_le_stop (s := .text) (show addr.toNat + 4 * p.size ≤ _ by omega)
    refine ⟨realizes_of_keeps hc ha hs (by omega) hp, ih ?_ ?_ ?_ hps⟩ <;> rw [hn] <;> omega

end Realizes

def TextBetween (m m' : Machine) (a : Word) : Prop :=
  m.textCursor.toNat ≤ a.toNat ∧ a.toNat < m'.textCursor.toNat

theorem keeps_of_onward {m m' n : Machine} (hm : m.Reachable) {s : Stmt} {i : SourceInstr} {ws : List Word}
    (hs : s.nucleus = some (.instr i)) (ha : m.assemble s = (.ok ws, m'))
    (hn : Onward (m.TextBetween m') m' n) :
    ∃ ps, i.expand m'.symbols.lookup = .ok ps ∧
      m.textCursor.toNat + 4 * Piece.sizes ps ≤ Segment.text.stop.toNat ∧
      ∀ c ∈ Chunk.ofPieces m.textCursor ps, n.Keeps c ∧ n.Bears c := by
  have hc := hm.consistent
  obtain ⟨rewrites, chunks, stores, hacc, rfl, -⟩ := assemble_ok hc.bounds.text_stop ha
  have hc' := hc.after hacc
  have hle := ((Cursors.fits_instr_iff hs).mp hacc.fits).2
  have hch := hacc.chunks_eq
  rw [Stmt.chunks_instr hs] at hch
  rw [lookup_after]
  cases he : i.expand (m.table s) with
  | error e => rw [he] at hch; cases hch
  | ok ps =>
    rw [he] at hch
    cases hch
    have hstop : (m.after s rewrites (Chunk.ofPieces m.textCursor ps) stores).textCursor.toNat =
        m.textCursor.toNat + 4 * i.size := by
      change (m.cursors.next s).text.toNat = _
      rw [Cursors.next_instr hs]
      exact Segment.toNat_of_le_stop hle
    rw [← SourceInstr.sizes_expand he] at hle hstop
    refine ⟨ps, rfl, hle, fun c hcm => ?_⟩
    have hown : ∀ a, c.Covers a →
        m.TextBetween (m.after s rewrites (Chunk.ofPieces m.textCursor ps) stores) a := by
      rintro a ⟨h1, h2⟩
      obtain ⟨hst, -, hen⟩ := (Chunk.bounds_ofPieces hle).1 c hcm
      rw [TextBetween, hstop]
      exact ⟨Nat.le_trans hst h1, Nat.lt_of_lt_of_le h2 hen⟩
    have hkeeps := (hacc.grows hc).keeps_new hc hc' hown hcm
    have hbears := (hacc.grows hc).bears_new hown hcm
    exact ⟨hn.keeps hc' hown hkeeps, hn.bears hc' hown hkeeps hbears⟩

theorem realizesAll_of_onward {m m' n : Machine} (hm : m.Reachable) {s : Stmt} {i : SourceInstr}
    {ws : List Word} (hs : s.nucleus = some (.instr i)) (ha : m.assemble s = (.ok ws, m'))
    (hn : Onward (m.TextBetween m') m' n) :
    ∃ ps, i.expand m'.symbols.lookup = .ok ps ∧ n.RealizesAll m.textCursor ps := by
  have hb := hm.consistent.bounds
  have hc' : m'.Consistent := by
    have hc := hm.consistent.assemble s
    rwa [ha] at hc
  obtain ⟨ps, he, hle, hk⟩ := keeps_of_onward hm hs ha hn
  exact ⟨ps, he, realizesAll_of_keeps (hn.consistent hc') hb.text_aligned hb.text_start hle fun c hc => (hk c hc).1⟩

end Machine

end MipsMachine
