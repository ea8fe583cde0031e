import MipsMachine.Proofs.Assembly.Layout

namespace MipsMachine.Machine

def waiting (m : Machine) (s : Stmt) : List Fixup :=
  match s.label with
  | none => []
  | some l => m.symbols.waitingOn l.name

def table (m : Machine) (s : Stmt) : LabelTable := s.bind m.cursors m.symbols.lookup

theorem lookupIn_none (m : Machine) : m.lookupIn none = m.symbols.lookup := by
  funext name
  simp [lookupIn]

theorem lookupIn_some {m : Machine} {label : String} (h : m.symbols.lookup label = none) (addr : Word) :
    m.lookupIn (some (label, addr)) = LabelTable.define m.symbols.lookup label addr := by
  funext name
  unfold lookupIn LabelTable.define
  by_cases hn : label = name
  · rw [if_pos hn, ← hn, h]
    simp
  · rw [if_neg hn]
    simp [Option.filter, hn]

theorem planStmt_congr {m n : Machine} (hs : n.symbols = m.symbols) (hc : n.cursors = m.cursors) (s : Stmt) :
    n.planStmt s = m.planStmt s := by
  obtain ⟨_, _, _, _, _, _, _, _, _, _, _, _⟩ := m
  obtain ⟨_, _, _, _, _, _, _, _, _, _, _, _⟩ := n
  cases hs
  cases hc
  rfl

section AlignedCursor

variable {m : Machine} {s : Stmt}

theorem alignedCursor_none (hs : s.nucleus = none) : m.alignedCursor s = .ok m.dataCursor := by
  unfold alignedCursor
  rw [hs]

theorem alignedCursor_instr {i : SourceInstr} (hs : s.nucleus = some (.instr i)) :
    m.alignedCursor s =
      if m.mode = .text then .ok m.dataCursor else .error (AsmCause.instrInData.marked s.span) := by
  unfold alignedCursor
  rw [hs]
  cases m.mode <;> rfl

theorem alignedCursor_target {d : Directive} {mode : Mode} (hs : s.nucleus = some (.directive d))
    (hd : d.target = some mode) : m.alignedCursor s = .ok m.dataCursor := by
  unfold alignedCursor
  rw [hs]
  cases d <;> first | rfl | cases hd

theorem alignedCursor_data {d : Directive} (hs : s.nucleus = some (.directive d)) (hd : d.target = none)
    (hm : m.mode = .data) :
    m.alignedCursor s =
      if (m.cursors.aligned s).toNat ≤ Segment.data.stop.toNat then .ok (m.cursors.aligned s)
      else .error ((AsmCause.segmentOverflow .data).marked s.span) := by
  have ha : m.cursors.aligned s = alignUp m.dataCursor d.alignment := Cursors.aligned_directive hs
  have hadv := Segment.advance.eq_def .data (alignUp m.dataCursor d.alignment) 0
  rw [ha]
  unfold alignedCursor
  rw [hs, hm]
  by_cases h : (alignUp m.dataCursor d.alignment).toNat ≤ Segment.data.stop.toNat
  · rw [Nat.add_zero, if_pos h] at hadv
    rw [if_pos h]
    cases d <;> first | (dsimp only; rw [hadv]) | cases hd
  · rw [Nat.add_zero, if_neg h] at hadv
    rw [if_neg h]
    cases d <;> first | (dsimp only; rw [hadv]) | cases hd

theorem alignedCursor_text {d : Directive} (hs : s.nucleus = some (.directive d)) (hd : d.target = none)
    (hm : m.mode = .text) : m.alignedCursor s = .error (AsmCause.dataInText.marked s.span) := by
  unfold alignedCursor
  rw [hs, hm]
  cases d <;> first | rfl | cases hd

theorem alignedCursor_eq {a : Word} (h : m.alignedCursor s = .ok a) : a = m.cursors.aligned s := by
  cases hs : s.nucleus with
  | none =>
    rw [alignedCursor_none hs] at h
    cases h
    rw [Cursors.aligned_none hs]
    rfl
  | some n =>
    cases n with
    | instr i =>
      rw [alignedCursor_instr hs] at h
      split at h
      · cases h
        rw [Cursors.aligned_instr hs]
        rfl
      · cases h
    | directive d =>
      cases hd : d.target with
      | some mode =>
        rw [alignedCursor_target hs hd] at h
        cases h
        rw [Cursors.aligned_of_target hs hd]
        rfl
      | none =>
        cases hm : m.mode with
        | text => rw [alignedCursor_text hs hd hm] at h; cases h
        | data =>
          rw [alignedCursor_data hs hd hm] at h
          split at h
          · cases h; rfl
          · cases h

theorem mode_of_alignedCursor {i : SourceInstr} (hs : s.nucleus = some (.instr i))
    {a : Word} (h : m.alignedCursor s = .ok a) : m.mode = .text := by
  rw [alignedCursor_instr hs] at h
  by_contra hm
  rw [if_neg hm] at h
  cases h

theorem alignedCursor_of_fits (hfit : m.cursors.Fits s) : m.alignedCursor s = .ok (m.cursors.aligned s) := by
  cases hs : s.nucleus with
  | none => rw [alignedCursor_none hs, Cursors.aligned_none hs]; rfl
  | some n =>
    cases n with
    | instr i =>
      have hm : m.mode = .text := ((Cursors.fits_instr_iff hs).mp hfit).1
      rw [alignedCursor_instr hs, if_pos hm, Cursors.aligned_instr hs]
      rfl
    | directive d =>
      cases hd : d.target with
      | some mode => rw [alignedCursor_target hs hd, Cursors.aligned_of_target hs hd]; rfl
      | none =>
        obtain ⟨hm, hle⟩ := (Cursors.fits_directive_iff hs).mp hfit hd
        rw [alignedCursor_data hs hd hm, if_pos (by omega)]

end AlignedCursor

theorem planLabel_ok_iff {m : Machine} {label : String} {addr : Word} {p : Plan} :
    m.planLabel label addr = .ok p ↔ m.symbols.lookup label = none ∧
      ∃ rewrites, (m.symbols.waitingOn label).mapM (Fixup.rewrite addr) = .ok rewrites ∧
        p = { m.idle with label := some (label, addr), stores := rewrites } := by
  unfold planLabel resolutions
  cases hl : m.symbols.lookup label with
  | some a =>
    constructor
    · intro h
      cases h
    · rintro ⟨h, -⟩
      cases h
  | none =>
    change (do return { m.idle with label := some (label, addr), stores := (←
      (m.symbols.waitingOn label).mapM (Fixup.rewrite addr)) } : Except AsmCause Plan) = .ok p ↔ _
    cases hw : (m.symbols.waitingOn label).mapM (Fixup.rewrite addr) with
    | error e =>
      constructor
      · intro h
        cases h
      · rintro ⟨-, r, h, -⟩
        cases h
    | ok rewrites =>
      constructor
      · intro h
        cases h
        exact ⟨rfl, rewrites, rfl, rfl⟩
      · rintro ⟨-, r, h, rfl⟩
        cases h
        rfl

theorem planDirective_target {p : Plan} {d : Directive} {mode : Mode} (hd : d.target = some mode) :
    planDirective p d = .ok { p with mode := mode } := by
  cases d <;> cases hd <;> rfl

theorem planDirective_data {p : Plan} {d : Directive} (hd : d.target = none) :
    planDirective p d = (Segment.data.advance p.dataCursor d.size).map fun next =>
      { p with stores := p.stores ++ [(p.dataCursor, d.bytes)], dataCursor := next } := by
  cases d <;> first | rfl | cases hd

theorem planDirective_ok_iff {p q : Plan} {d : Directive} (hd : d.target = none) :
    planDirective p d = .ok q ↔ p.dataCursor.toNat + d.size ≤ Segment.data.stop.toNat ∧
      q = { p with
        stores := p.stores ++ [(p.dataCursor, d.bytes)]
        dataCursor := p.dataCursor + BitVec.ofNat 32 d.size } := by
  rw [planDirective_data hd, Segment.advance]
  by_cases h : p.dataCursor.toNat + d.size ≤ Segment.data.stop.toNat
  · rw [if_pos h]
    exact ⟨fun he => ⟨h, (Except.ok.inj he).symm⟩, fun ⟨_, he⟩ => congrArg _ he.symm⟩
  · rw [if_neg h]
    exact ⟨fun he => (nomatch he), fun ⟨hle, _⟩ => (h hle).elim⟩

-- the plan of a statement before its nucleus is looked at
def opening (m : Machine) (s : Stmt) (rewrites : List Store) : Plan :=
  { m.idle with
    label := s.label.map fun l => (l.name, m.cursors.here s)
    stores := rewrites
    dataCursor := m.cursors.aligned s }

def planNucleus (m : Machine) (s : Stmt) (p : Plan) : Except AsmError Plan :=
  match s.nucleus with
  | none => .ok p
  | some (.instr i) => m.planInstr p i
  | some (.directive d) => (planDirective p d).mapError (·.marked s.span)

theorem lookupIn_opening {m : Machine} {s : Stmt} (h : ∀ l, s.label = some l → m.symbols.lookup l.name = none)
    (rewrites : List Store) : m.lookupIn (m.opening s rewrites).label = m.table s := by
  unfold opening table Stmt.bind
  cases hl : s.label with
  | none => exact m.lookupIn_none
  | some l => exact lookupIn_some (h l hl) (m.cursors.here s)

theorem fits_of_planDirective {m : Machine} {s : Stmt} {d : Directive} (hs : s.nucleus = some (.directive d))
    {rewrites : List Store} {p : Plan} {a : Word} (ha : m.alignedCursor s = .ok a)
    (h : planDirective (m.opening s rewrites) d = .ok p) : m.cursors.Fits s := by
  rw [Cursors.fits_directive_iff hs]
  intro hd
  refine ⟨?_, ((planDirective_ok_iff hd).mp h).1⟩
  cases hm : m.mode with
  | data => exact hm
  | text => rw [alignedCursor_text hs hd hm] at ha; cases ha

theorem planDirective_ok {m : Machine} {s : Stmt} {d : Directive} (hs : s.nucleus = some (.directive d))
    {rewrites : List Store} {p : Plan} (h : planDirective (m.opening s rewrites) d = .ok p) :
    p.label = (m.opening s rewrites).label ∧ p.fixups = [] ∧ p.emitted = [] ∧
      m.memory.setAll p.stores = (m.memory.setAll rewrites).setAll [(m.cursors.aligned s, d.bytes)] ∧
      ⟨p.textCursor, p.dataCursor, p.mode⟩ = m.cursors.next s := by
  rw [Cursors.next_directive hs]
  cases hd : d.target with
  | some mode =>
    obtain ⟨-, hb, hz⟩ := Directive.alignment_of_target hd
    rw [planDirective_target hd] at h
    cases h
    rw [hb, hz, BitVec.add_zero]
    exact ⟨rfl, rfl, rfl, rfl, rfl⟩
  | none =>
    obtain ⟨-, rfl⟩ := (planDirective_ok_iff hd).mp h
    exact ⟨rfl, rfl, rfl, Memory.setAll_append _ _ _, rfl⟩

section Nucleus

variable {m : Machine} {s : Stmt} {p : Plan}

theorem planNucleus_none (hs : s.nucleus = none) : m.planNucleus s p = .ok p := by
  unfold planNucleus
  rw [hs]

theorem planNucleus_instr {i : SourceInstr} (hs : s.nucleus = some (.instr i)) :
    m.planNucleus s p = m.planInstr p i := by
  unfold planNucleus
  rw [hs]

theorem planNucleus_directive {d : Directive} (hs : s.nucleus = some (.directive d)) :
    m.planNucleus s p = (planDirective p d).mapError (·.marked s.span) := by
  unfold planNucleus
  rw [hs]

end Nucleus

theorem planStmt_unlabelled {m : Machine} {s : Stmt} (h : m.alignedCursor s = .ok (m.cursors.aligned s))
    (hl : s.label = none) : m.planStmt s = m.planNucleus s (m.opening s []) := by
  unfold planStmt opening
  rw [h, hl]
  rfl

theorem planStmt_labelled {m : Machine} {s : Stmt} (h : m.alignedCursor s = .ok (m.cursors.aligned s))
    {l : Label} (hl : s.label = some l) :
    m.planStmt s = ((m.planLabel l.name (m.cursors.here s)).mapError (·.marked l.span)).bind fun q =>
      m.planNucleus s { q with dataCursor := m.cursors.aligned s } := by
  unfold planStmt
  rw [h, hl]
  rfl

theorem planStmt_ok_iff {m : Machine} {s : Stmt} {p : Plan} :
    m.planStmt s = .ok p ↔ m.alignedCursor s = .ok (m.cursors.aligned s) ∧
      (∀ l, s.label = some l → m.symbols.lookup l.name = none) ∧
      ∃ rewrites, (m.waiting s).mapM (Fixup.rewrite (m.cursors.here s)) = .ok rewrites ∧
        m.planNucleus s (m.opening s rewrites) = .ok p := by
  constructor
  · intro h
    cases ha : m.alignedCursor s with
    | error e =>
      unfold planStmt at h
      rw [ha] at h
      cases h
    | ok a =>
      obtain rfl := alignedCursor_eq ha
      refine ⟨rfl, ?_⟩
      unfold waiting
      cases hl : s.label with
      | none =>
        rw [planStmt_unlabelled ha hl] at h
        exact ⟨fun l hl => (nomatch hl), [], rfl, h⟩
      | some l =>
        rw [planStmt_labelled ha hl] at h
        cases hp : m.planLabel l.name (m.cursors.here s) with
        | error e => rw [hp] at h; cases h
        | ok q =>
          obtain ⟨hf, rewrites, hw, rfl⟩ := planLabel_ok_iff.mp hp
          rw [hp] at h
          refine ⟨fun k hk => Option.some.inj hk ▸ hf, rewrites, hw, ?_⟩
          unfold opening
          rw [hl]
          exact h
  · rintro ⟨ha, hf, rewrites, hw, hp⟩
    unfold waiting at hw
    cases hl : s.label with
    | none =>
      rw [hl] at hw
      cases hw
      rw [planStmt_unlabelled ha hl]
      exact hp
    | some l =>
      rw [hl] at hw
      unfold opening at hp
      rw [hl] at hp
      rw [planStmt_labelled ha hl, planLabel_ok_iff.mpr ⟨hf l hl, rewrites, hw, rfl⟩]
      exact hp

theorem planInstr_ok {m : Machine} {p q : Plan} {i : SourceInstr} (h : m.planInstr p i = .ok q)
    (ht : p.textCursor.toNat ≤ Segment.text.stop.toNat) :
    ∃ ps words stores, i.expand (m.lookupIn p.label) = .ok ps ∧
      (Chunk.ofPieces p.textCursor ps).mapM (Chunk.store (m.lookupIn p.label)) = .ok stores ∧
      (∀ memory : Memory, memory.setBytes p.textCursor (words.flatMap Word.bytes) = memory.setAll stores) ∧
      words.length = i.size ∧ p.textCursor.toNat + 4 * i.size ≤ Segment.text.stop.toNat ∧
      q = { p with
        stores := p.stores ++ [(p.textCursor, words.flatMap Word.bytes)]
        fixups := (Chunk.ofPieces p.textCursor ps).filterMap (Chunk.pending (m.lookupIn p.label))
        emitted := words
        textCursor := p.textCursor + BitVec.ofNat 32 (4 * i.size) } := by
  unfold planInstr at h
  cases he : i.expand (m.lookupIn p.label) with
  | error e =>
    simp only [he, bind, Except.bind] at h
    cases h
  | ok ps =>
    cases hp : Plan.pieces (m.lookupIn p.label) p.textCursor ps with
    | error e =>
      simp only [he, hp, bind, Except.bind] at h
      cases h
    | ok r =>
      obtain ⟨words, fixups, stop⟩ := r
      simp only [he, hp, bind, Except.bind] at h
      cases h
      obtain ⟨stores, hs, hm, rfl, hl, hb, rfl⟩ := Plan.pieces_ok ht hp
      rw [SourceInstr.sizes_expand he] at *
      exact ⟨ps, words, stores, rfl, hs, hm, hl, hb, rfl⟩

theorem exists_planInstr {m : Machine} {p : Plan} {i : SourceInstr} {ps : List Piece} {stores : List Store}
    (he : i.expand (m.lookupIn p.label) = .ok ps)
    (hs : (Chunk.ofPieces p.textCursor ps).mapM (Chunk.store (m.lookupIn p.label)) = .ok stores)
    (hb : p.textCursor.toNat + 4 * i.size ≤ Segment.text.stop.toNat) : ∃ q, m.planInstr p i = .ok q := by
  rw [← SourceInstr.sizes_expand he] at hb
  obtain ⟨⟨words, fixups, stop⟩, hr⟩ := Plan.exists_pieces hb (exists_mapM_eq_ok_iff.mp ⟨stores, hs⟩)
  unfold planInstr
  simp only [he, hr, bind, Except.bind]
  exact ⟨_, rfl⟩

end MipsMachine.Machine
