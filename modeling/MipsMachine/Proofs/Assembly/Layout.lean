import MipsMachine.Proofs.Assembly.Pieces

namespace MipsMachine

structure Cursors where
  text : Word
  data : Word
  mode : Mode
deriving DecidableEq

def Machine.cursors (m : Machine) : Cursors := ⟨m.textCursor, m.dataCursor, m.mode⟩

def Directive.target : Directive → Option Mode
  | text => some .text
  | data => some .data
  | _ => none

namespace Cursors

def aligned (c : Cursors) (s : Stmt) : Word :=
  match s.nucleus with
  | some (.directive d) => alignUp c.data d.alignment
  | _ => c.data

def here (c : Cursors) (s : Stmt) : Word :=
  match c.mode with
  | .text => c.text
  | .data => c.aligned s

def next (c : Cursors) (s : Stmt) : Cursors :=
  match s.nucleus with
  | none => c
  | some (.instr i) => { c with text := c.text + BitVec.ofNat 32 (4 * i.size) }
  | some (.directive d) => ⟨c.text, c.aligned s + BitVec.ofNat 32 d.size, d.target.getD c.mode⟩

def Fits (c : Cursors) (s : Stmt) : Prop :=
  match s.nucleus with
  | none => True
  | some (.instr i) => c.mode = .text ∧ c.text.toNat + 4 * i.size ≤ Segment.text.stop.toNat
  | some (.directive d) =>
    d.target = none → c.mode = .data ∧ (c.aligned s).toNat + d.size ≤ Segment.data.stop.toNat

structure InBounds (c : Cursors) : Prop where
  text_aligned : c.text.toNat % 4 = 0
  text_start : Segment.text.start.toNat ≤ c.text.toNat
  text_stop : c.text.toNat ≤ Segment.text.stop.toNat
  data_start : Segment.data.start.toNat ≤ c.data.toNat
  data_stop : c.data.toNat ≤ Segment.data.stop.toNat

def start : Cursors := ⟨Segment.text.start, Segment.data.start, .text⟩

theorem inBounds_start : start.InBounds := by
  constructor <;> decide

end Cursors

theorem Directive.alignment_of_target {d : Directive} {mode : Mode} (h : d.target = some mode) :
    d.alignment = 1 ∧ d.bytes = [] ∧ d.size = 0 := by
  cases d <;> first | exact ⟨rfl, rfl, rfl⟩ | cases h

theorem Directive.alignment_bounds (d : Directive) : 0 < d.alignment ∧ d.alignment ≤ 0x80000000 := by
  cases d with
  | align exponent =>
    have h : exponent.toNat % 32 ≤ 31 := by omega
    rw [alignment, Nat.shiftLeft_eq, Nat.one_mul]
    exact ⟨Nat.two_pow_pos _, Nat.pow_le_pow_right (by decide) h⟩
  | _ => constructor <;> simp [alignment]

theorem Directive.length_bytes_le (d : Directive) : d.bytes.length ≤ d.size := by
  cases d with
  | space n => exact Nat.zero_le _
  | _ => exact Nat.le_refl _

theorem alignUp_one (cursor : Word) : alignUp cursor 1 = cursor := by
  unfold alignUp
  rw [if_pos (Nat.mod_one _)]

theorem le_alignUp {cursor : Word} {n : Nat} (hn : 0 < n) (h : cursor.toNat + n ≤ 0x100000000) :
    cursor.toNat ≤ (alignUp cursor n).toNat := by
  unfold alignUp
  by_cases hz : cursor.toNat % n = 0
  · simp [hz]
  · have hlt := Nat.mod_lt cursor.toNat hn
    rw [if_neg hz, Word.toNat_add_ofNat _ _ (by omega)]
    omega

namespace Cursors

variable {c : Cursors} {s : Stmt}

theorem InBounds.le_aligned (h : c.InBounds) (s : Stmt) : c.data.toNat ≤ (c.aligned s).toNat := by
  have hs := h.data_stop
  have hstop : Segment.data.stop.toNat = 0x10040000 := rfl
  unfold aligned
  split
  · rename_i d _
    obtain ⟨hp, hle⟩ := d.alignment_bounds
    exact le_alignUp hp (by omega)
  · exact Nat.le_refl _

theorem aligned_none (hs : s.nucleus = none) : c.aligned s = c.data := by
  unfold aligned
  rw [hs]

theorem aligned_instr {i : SourceInstr} (hs : s.nucleus = some (.instr i)) : c.aligned s = c.data := by
  unfold aligned
  rw [hs]

theorem aligned_directive {d : Directive} (hs : s.nucleus = some (.directive d)) :
    c.aligned s = alignUp c.data d.alignment := by
  unfold aligned
  rw [hs]

theorem aligned_of_target {d : Directive} {mode : Mode} (hs : s.nucleus = some (.directive d))
    (hd : d.target = some mode) : c.aligned s = c.data := by
  rw [aligned_directive hs, (Directive.alignment_of_target hd).1, alignUp_one]

theorem next_none (hs : s.nucleus = none) : c.next s = c := by
  unfold Cursors.next
  rw [hs]

theorem next_instr {i : SourceInstr} (hs : s.nucleus = some (.instr i)) :
    c.next s = { c with text := c.text + BitVec.ofNat 32 (4 * i.size) } := by
  unfold Cursors.next
  rw [hs]

theorem next_directive {d : Directive} (hs : s.nucleus = some (.directive d)) :
    c.next s = ⟨c.text, c.aligned s + BitVec.ofNat 32 d.size, d.target.getD c.mode⟩ := by
  unfold Cursors.next
  rw [hs]

theorem fits_none (hs : s.nucleus = none) : c.Fits s := by
  unfold Fits
  rw [hs]
  trivial

theorem fits_instr_iff {i : SourceInstr} (hs : s.nucleus = some (.instr i)) :
    c.Fits s ↔ c.mode = .text ∧ c.text.toNat + 4 * i.size ≤ Segment.text.stop.toNat := by
  unfold Fits
  rw [hs]

theorem fits_directive_iff {d : Directive} (hs : s.nucleus = some (.directive d)) :
    c.Fits s ↔
      (d.target = none → c.mode = .data ∧ (c.aligned s).toNat + d.size ≤ Segment.data.stop.toNat) := by
  unfold Fits
  rw [hs]

theorem InBounds.stop_of_fits (h : c.InBounds) {d : Directive} (hs : s.nucleus = some (.directive d))
    (hf : c.Fits s) : (c.aligned s).toNat + d.size ≤ Segment.data.stop.toNat := by
  cases hd : d.target with
  | none => exact ((fits_directive_iff hs).mp hf hd).2
  | some mode =>
    rw [aligned_of_target hs hd, (Directive.alignment_of_target hd).2.2]
    exact h.data_stop

theorem InBounds.next (h : c.InBounds) (hf : c.Fits s) :
    (c.next s).InBounds ∧ c.text.toNat ≤ (c.next s).text.toNat ∧ c.data.toNat ≤ (c.next s).data.toNat := by
  cases hs : s.nucleus with
  | none =>
    rw [next_none hs]
    exact ⟨h, Nat.le_refl _, Nat.le_refl _⟩
  | some n =>
    cases n with
    | instr i =>
      have hn := Segment.toNat_of_le_stop ((fits_instr_iff hs).mp hf).2
      have hle := ((fits_instr_iff hs).mp hf).2
      have ha := h.text_aligned
      have hst := h.text_start
      rw [next_instr hs]
      refine ⟨⟨?_, ?_, ?_, h.data_start, h.data_stop⟩, ?_, Nat.le_refl _⟩ <;> rw [hn]
      · omega
      · omega
      · exact hle
      · exact Nat.le_add_right _ _
    | directive d =>
      have hle := h.stop_of_fits hs hf
      have hn := Segment.toNat_of_le_stop hle
      have ha := h.le_aligned s
      have hst := h.data_start
      rw [next_directive hs]
      refine ⟨⟨h.text_aligned, h.text_start, h.text_stop, ?_, ?_⟩, Nat.le_refl _, ?_⟩ <;> rw [hn]
      · omega
      · exact hle
      · omega

end Cursors

inductive Chunk.Between (c c' : Cursors) (k : Chunk) : Prop where
  | text (start : c.text.toNat ≤ k.addr.toNat) (aligned : k.addr.toNat % 4 = 0)
      (stop : k.stop ≤ c'.text.toNat)
  | data (fixed : ∀ f, k ≠ .ref f) (start : c.data.toNat ≤ k.addr.toNat) (stop : k.stop ≤ c'.data.toNat)

namespace Chunk.Between

variable {a b c d : Cursors} {k l : Chunk}

theorem mono (h : Between b c k) (ht : a.text.toNat ≤ b.text.toNat ∧ c.text.toNat ≤ d.text.toNat)
    (hd : a.data.toNat ≤ b.data.toNat ∧ c.data.toNat ≤ d.data.toNat) : Between a d k := by
  cases h with
  | text hs ha he => exact .text (Nat.le_trans ht.1 hs) ha (Nat.le_trans he ht.2)
  | data hf hs he => exact .data hf (Nat.le_trans hd.1 hs) (Nat.le_trans he hd.2)

theorem inRange (h : Between a b k) : k.InRange := by
  cases h with
  | text _ _ he => exact Nat.le_trans he (Nat.le_of_lt b.text.isLt)
  | data _ _ he => exact Nat.le_trans he (Nat.le_of_lt b.data.isLt)

theorem ref {f : Fixup} (h : Between a b (.ref f)) :
    a.text.toNat ≤ f.addr.toNat ∧ f.addr.toNat % 4 = 0 ∧ f.stop ≤ b.text.toNat := by
  cases h with
  | text hs ha he => exact ⟨hs, ha, he⟩
  | data hf _ _ => exact (hf f rfl).elim

theorem apart (ha : a.InBounds) (hb : b.InBounds) (hc : c.InBounds) (hk : Between a b k)
    (hl : Between b c l) : k.Apart l := by
  have hab := ha.data_start
  have hbt := hb.text_stop
  have hbd := hb.data_start
  have hct := hc.text_stop
  have hgap : Segment.text.stop.toNat ≤ Segment.data.start.toNat := by decide
  unfold Apart
  cases hk with
  | text _ _ hks =>
    cases hl with
    | text hls _ _ => exact .inl (Nat.le_trans hks hls)
    | data _ hls _ => exact .inl (by omega)
  | data _ hks hke =>
    cases hl with
    | text _ _ hle => exact .inr (by omega)
    | data _ hls _ => exact .inl (Nat.le_trans hke hls)

end Chunk.Between

namespace Stmt

def chunks (s : Stmt) (c : Cursors) (table : LabelTable) : Except AsmError (List Chunk) :=
  match s.nucleus with
  | none => .ok []
  | some (.instr i) => (i.expand table).map (Chunk.ofPieces c.text)
  | some (.directive d) => .ok [.fixed (c.aligned s, d.bytes)]

variable {s : Stmt} {c : Cursors} {table : LabelTable}

theorem chunks_none (hs : s.nucleus = none) : s.chunks c table = .ok [] := by
  unfold chunks
  rw [hs]

theorem chunks_instr {i : SourceInstr} (hs : s.nucleus = some (.instr i)) :
    s.chunks c table = (i.expand table).map (Chunk.ofPieces c.text) := by
  unfold chunks
  rw [hs]

theorem chunks_directive {d : Directive} (hs : s.nucleus = some (.directive d)) :
    s.chunks c table = .ok [.fixed (c.aligned s, d.bytes)] := by
  unfold chunks
  rw [hs]

theorem chunks_congr {table' : LabelTable}
    (h : ∀ rt label, s.nucleus = some (.instr (.pseudo (.la rt label))) →
      table label.name = table' label.name) :
    s.chunks c table = s.chunks c table' := by
  cases hs : s.nucleus with
  | none => rw [chunks_none hs, chunks_none hs]
  | some n =>
    cases n with
    | directive d => rw [chunks_directive hs, chunks_directive hs]
    | instr i =>
      have he : i.expand table = i.expand table' := by
        apply SourceInstr.expand_congr
        rintro rt label rfl
        exact h rt label hs
      rw [chunks_instr hs, chunks_instr hs, he]

theorem chunks_mono {table' : LabelTable} {cs : List Chunk} (h : s.chunks c table = .ok cs)
    (ht : ∀ name addr, table name = some addr → table' name = some addr) : s.chunks c table' = .ok cs := by
  rw [← h]
  apply chunks_congr
  intro rt label hs
  cases ha : table label.name with
  | some addr => exact ht _ _ ha
  | none =>
    rw [chunks_instr hs, SourceInstr.expand, Pseudo.expand, ha] at h
    cases h

theorem bounds_chunks {cs : List Chunk} (h : c.InBounds) (hf : c.Fits s) (hc : s.chunks c table = .ok cs) :
    (∀ k ∈ cs, k.Between c (c.next s)) ∧ cs.Pairwise fun k l => k.stop ≤ l.addr.toNat := by
  cases hs : s.nucleus with
  | none =>
    rw [chunks_none hs] at hc
    cases hc
    exact ⟨fun k hk => (List.not_mem_nil hk).elim, .nil⟩
  | some n =>
    cases n with
    | instr i =>
      rw [chunks_instr hs] at hc
      cases he : i.expand table with
      | error e => rw [he] at hc; cases hc
      | ok ps =>
        rw [he] at hc
        cases hc
        have hle := ((Cursors.fits_instr_iff hs).mp hf).2
        rw [← SourceInstr.sizes_expand he] at hle
        obtain ⟨hb, hp⟩ := Chunk.bounds_ofPieces hle
        refine ⟨fun k hk => ?_, hp⟩
        obtain ⟨hst, hal, hen⟩ := hb k hk
        refine .text hst (hal.trans h.text_aligned) ?_
        rw [Cursors.next_instr hs, Segment.toNat_of_le_stop (SourceInstr.sizes_expand he ▸ hle)]
        exact SourceInstr.sizes_expand he ▸ hen
    | directive d =>
      rw [chunks_directive hs] at hc
      cases hc
      have hle := h.stop_of_fits hs hf
      refine ⟨List.forall_mem_singleton.mpr (.data (fun f => Chunk.noConfusion) (h.le_aligned s) ?_),
        List.pairwise_singleton _ _⟩
      rw [Cursors.next_directive hs, Segment.toNat_of_le_stop hle]
      exact Nat.add_le_add_left d.length_bytes_le _

end Stmt

namespace Stmt

def Defines (s : Stmt) (name : String) : Prop := s.label.map Label.name = some name

instance (s : Stmt) (name : String) : Decidable (s.Defines name) := inferInstanceAs (Decidable (_ = _))

def bind (s : Stmt) (c : Cursors) (table : LabelTable) : LabelTable :=
  match s.label with
  | none => table
  | some l => table.define l.name (c.here s)

theorem defines_iff {s : Stmt} {l : Label} (hl : s.label = some l) (name : String) :
    s.Defines name ↔ l.name = name := by
  unfold Defines
  rw [hl, Option.map_some, Option.some.injEq]

theorem not_defines {s : Stmt} (hl : s.label = none) (name : String) : ¬ s.Defines name := by
  unfold Defines
  rw [hl]
  exact fun h => nomatch h

theorem bind_apply (s : Stmt) (c : Cursors) (table : LabelTable) (name : String) :
    s.bind c table name = if s.Defines name then some (c.here s) else table name := by
  unfold bind
  cases hl : s.label with
  | none => rw [if_neg (not_defines hl name)]
  | some l => simp only [LabelTable.define, defines_iff hl]

end Stmt

end MipsMachine
