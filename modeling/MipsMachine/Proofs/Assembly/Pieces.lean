import MipsMachine.Proofs.Assembly.Chunk

namespace MipsMachine

theorem Segment.advance_eq_ok_iff {s : Segment} {cursor next : Word} {n : Nat} :
    s.advance cursor n = .ok next ↔ cursor.toNat + n ≤ s.stop.toNat ∧ next = cursor + BitVec.ofNat 32 n := by
  unfold advance
  by_cases h : cursor.toNat + n ≤ s.stop.toNat
  · rw [if_pos h]
    exact ⟨fun he => ⟨h, (Except.ok.inj he).symm⟩, fun ⟨_, he⟩ => congrArg _ he.symm⟩
  · rw [if_neg h]
    exact ⟨fun he => (nomatch he), fun ⟨hle, _⟩ => (h hle).elim⟩

theorem Segment.toNat_of_le_stop {s : Segment} {cursor : Word} {n : Nat}
    (h : cursor.toNat + n ≤ s.stop.toNat) : (cursor + BitVec.ofNat 32 n).toNat = cursor.toNat + n :=
  Word.toNat_add_ofNat cursor n (Nat.lt_of_le_of_lt h s.stop.isLt)

namespace Chunk

def ofPiece (addr : Word) : Piece → Chunk
  | .word i => .fixed (addr, i.encode.bytes)
  | .ref patch label => .ref ⟨addr, label.name, patch⟩

def ofPieces (addr : Word) : List Piece → List Chunk
  | [] => []
  | p :: ps => ofPiece addr p :: ofPieces (addr + BitVec.ofNat 32 (4 * p.size)) ps

theorem addr_ofPiece (addr : Word) (p : Piece) : (ofPiece addr p).addr = addr := by
  cases p <;> rfl

theorem size_ofPiece (addr : Word) (p : Piece) : (ofPiece addr p).size = 4 * p.size := by
  cases p <;> rfl

theorem bounds_ofPieces {addr : Word} {ps : List Piece}
    (h : addr.toNat + 4 * Piece.sizes ps ≤ Segment.text.stop.toNat) :
    (∀ c ∈ ofPieces addr ps, addr.toNat ≤ c.addr.toNat ∧ c.addr.toNat % 4 = addr.toNat % 4 ∧
      c.stop ≤ addr.toNat + 4 * Piece.sizes ps) ∧
      (ofPieces addr ps).Pairwise fun c d => c.stop ≤ d.addr.toNat := by
  induction ps generalizing addr with
  | nil => exact ⟨fun c hc => (List.not_mem_nil hc).elim, .nil⟩
  | cons p ps ih =>
    rw [Piece.sizes_cons] at h
    have hn := Segment.toNat_of_le_stop (s := .text) (show addr.toNat + 4 * p.size ≤ _ by omega)
    have hrest : (addr + BitVec.ofNat 32 (4 * p.size)).toNat + 4 * Piece.sizes ps ≤
        Segment.text.stop.toNat := by
      omega
    obtain ⟨hb, hp⟩ := ih hrest
    have hs : (ofPiece addr p).stop = addr.toNat + 4 * p.size := by
      rw [stop, addr_ofPiece, size_ofPiece]
    constructor
    · intro c hc
      rw [Piece.sizes_cons]
      rcases List.mem_cons.mp hc with rfl | hc
      · rw [hs, addr_ofPiece]
        omega
      · have := hb c hc
        omega
    · refine List.pairwise_cons.mpr ⟨fun d hd => ?_, hp⟩
      have := hb d hd
      omega

end Chunk

namespace Plan

open Chunk

variable {table : LabelTable} {addr : Word}

theorem piece_ok {p : Piece} {ws : List Word} {fs : List Fixup} (h : piece table addr p = .ok (ws, fs)) :
    (ofPiece addr p).store table = .ok (addr, ws.flatMap Word.bytes) ∧
      fs = ((ofPiece addr p).pending table).toList ∧ ws.length = p.size := by
  cases p with
  | word i =>
    cases h
    exact ⟨congrArg (fun bs => Except.ok (addr, bs)) (List.append_nil _).symm, rfl, rfl⟩
  | ref patch label =>
    rw [piece] at h
    rw [ofPiece, store, pending]
    cases ht : table label.name with
    | none =>
      rw [ht] at h
      cases h
      exact ⟨rfl, by rw [if_pos rfl]; rfl, patch.length_placeholder⟩
    | some target =>
      rw [ht] at h
      cases hr : patch.resolve addr target with
      | error e => simp only [hr] at h; cases h
      | ok words =>
        simp only [hr] at h
        cases h
        refine ⟨?_, by rw [if_neg (Option.some_ne_none target)]; rfl, Patch.length_resolve hr⟩
        simp only [Fixup.rewrite, hr]
        rfl

theorem exists_piece {p : Piece} (h : ∃ s, (ofPiece addr p).store table = .ok s) :
    ∃ r, piece table addr p = .ok r := by
  obtain ⟨s, h⟩ := h
  cases p with
  | word i => exact ⟨_, rfl⟩
  | ref patch label =>
    rw [ofPiece, store] at h
    rw [piece]
    cases ht : table label.name with
    | none => exact ⟨_, rfl⟩
    | some target =>
      simp only [ht, Fixup.rewrite] at h
      cases hr : patch.resolve addr target with
      | error e => rw [hr] at h; cases h
      | ok words => exact ⟨(words, []), by simp only [hr]⟩

theorem pieces_ok {ps : List Piece} {ws : List Word} {fs : List Fixup} {stop : Word}
    (ha : addr.toNat ≤ Segment.text.stop.toNat) (h : pieces table addr ps = .ok (ws, fs, stop)) :
    ∃ stores, (ofPieces addr ps).mapM (store table) = .ok stores ∧
      (∀ m : Memory, m.setBytes addr (ws.flatMap Word.bytes) = m.setAll stores) ∧
      fs = (ofPieces addr ps).filterMap (pending table) ∧ ws.length = Piece.sizes ps ∧
      addr.toNat + 4 * Piece.sizes ps ≤ Segment.text.stop.toNat ∧
      stop = addr + BitVec.ofNat 32 (4 * Piece.sizes ps) := by
  induction ps generalizing addr ws fs stop with
  | nil =>
    cases h
    exact ⟨[], rfl, fun m => rfl, rfl, rfl, ha, (BitVec.add_zero addr).symm⟩
  | cons p ps ih =>
    rw [pieces] at h
    cases hp : piece table addr p with
    | error e => rw [hp] at h; cases h
    | ok r =>
      obtain ⟨words, fixups⟩ := r
      obtain ⟨hstore, hfix, hlen⟩ := piece_ok hp
      cases hn : Segment.text.advance addr (4 * words.length) with
      | error e => simp only [hp, bind, Except.bind, hn] at h; cases h
      | ok next =>
        obtain ⟨hle, rfl⟩ := Segment.advance_eq_ok_iff.mp hn
        cases hq : pieces table (addr + BitVec.ofNat 32 (4 * words.length)) ps with
        | error e => simp only [hp, bind, Except.bind, hn, hq] at h; cases h
        | ok r =>
          obtain ⟨moreWords, moreFixups, stop'⟩ := r
          simp only [hp, bind, Except.bind, hn, hq] at h
          cases h
          have hnat := Segment.toNat_of_le_stop hle
          obtain ⟨stores, hs, hm, hf, hl, hb, he⟩ := ih (by omega) hq
          rw [hlen] at hs hm hf hb he hle hnat
          have hsum : 4 * p.size + 4 * Piece.sizes ps = 4 * (p.size + Piece.sizes ps) := by omega
          have hstores := mapM_eq_ok_iff.mpr (.cons hstore (mapM_eq_ok_iff.mp hs))
          refine ⟨_ :: stores, hstores, fun m => ?_, ?_, ?_, ?_, ?_⟩
          · rw [List.flatMap_append, Memory.setBytes_append, Memory.length_flatMap_bytes, hlen, hm]
            rfl
          · rw [hfix, hf, ofPieces]
            cases hc : (ofPiece addr p).pending table with
            | none => rw [List.filterMap_cons_none hc]; rfl
            | some f => rw [List.filterMap_cons_some hc]; rfl
          · rw [List.length_append, hlen, hl, Piece.sizes_cons]
          · rw [Piece.sizes_cons]
            omega
          · rw [he, Piece.sizes_cons, ← hsum, BitVec.ofNat_add, BitVec.add_assoc]

theorem exists_pieces {ps : List Piece} (ha : addr.toNat + 4 * Piece.sizes ps ≤ Segment.text.stop.toNat)
    (h : ∀ c ∈ ofPieces addr ps, ∃ s, c.store table = .ok s) : ∃ r, pieces table addr ps = .ok r := by
  induction ps generalizing addr with
  | nil => exact ⟨_, rfl⟩
  | cons p ps ih =>
    rw [Piece.sizes_cons] at ha
    obtain ⟨hp, hps⟩ := List.forall_mem_cons.mp h
    obtain ⟨⟨words, fixups⟩, hw⟩ := exists_piece hp
    have hle : addr.toNat + 4 * words.length ≤ Segment.text.stop.toNat := by
      rw [(piece_ok hw).2.2]
      omega
    have hn := Segment.advance_eq_ok_iff.mpr ⟨hle, rfl⟩
    have hnat := Segment.toNat_of_le_stop hle
    rw [(piece_ok hw).2.2] at hn hnat
    obtain ⟨r, hr⟩ := ih (by omega) hps
    rw [pieces]
    simp only [hw, bind, Except.bind, (piece_ok hw).2.2, hn, hr]
    exact ⟨_, rfl⟩

end Plan

end MipsMachine
