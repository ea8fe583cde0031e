import MipsMachine.Proofs.Assembly.Layout

namespace MipsMachine

def SourceInstr.references (addr : Word) : SourceInstr → List Fixup
  | compare op rs rt label => [⟨addr, label.name, .compare op rs rt⟩]
  | zero op rs label => [⟨addr, label.name, .zero op rs⟩]
  | jump op label => [⟨addr, label.name, .jump op⟩]
  | pseudo (.b label) => [⟨addr, label.name, .compare .beq .zero .zero⟩]
  | pseudo (.memLabel _ _ label) => [⟨addr, label.name, .address .scratch⟩]
  | pseudo (.ordBranch .lt _ _ label) | pseudo (.ordBranch .gt _ _ label) =>
    [⟨addr + 4, label.name, .compare .bne .scratch .zero⟩]
  | pseudo (.ordBranch .ge _ _ label) | pseudo (.ordBranch .le _ _ label) =>
    [⟨addr + 4, label.name, .compare .beq .scratch .zero⟩]
  | _ => []

def Stmt.references (s : Stmt) (addr : Word) : List Fixup :=
  match s.nucleus with
  | some (.instr i) => i.references addr
  | _ => []

namespace Chunk

def fixup? : Chunk → Option Fixup
  | fixed _ => none
  | ref f => some f

theorem fixup?_eq_some_iff {c : Chunk} {f : Fixup} : c.fixup? = some f ↔ c = ref f := by
  cases c with
  | fixed s => exact ⟨fun h => (nomatch h), fun h => (nomatch h)⟩
  | ref g => rw [fixup?, Option.some.injEq, ref.injEq]

theorem filterMap_pending (table : LabelTable) (cs : List Chunk) :
    cs.filterMap (pending table) = (cs.filterMap fixup?).filter (table ·.label = none) := by
  rw [List.filter_filterMap]
  congr 1
  funext c
  cases c with
  | fixed s => rfl
  | ref f => by_cases hf : table f.label = none <;> simp [pending, fixup?, Option.filter, hf]

theorem filterMap_fixup?_word (addr : Word) (is : List Instr) :
    (ofPieces addr (is.map .word)).filterMap fixup? = [] := by
  induction is generalizing addr with
  | nil => rfl
  | cons i is ih => exact ih _

theorem filterMap_fixup?_expand {i : SourceInstr} {table : LabelTable} {ps : List Piece} (addr : Word)
    (h : i.expand table = .ok ps) : (ofPieces addr ps).filterMap fixup? = i.references addr := by
  cases i with
  | pseudo p =>
    cases p with
    | li rt value =>
      rw [SourceInstr.expand, Pseudo.expand] at h
      split at h
      · cases h; rfl
      · cases h; exact filterMap_fixup?_word addr _
    | la rt label =>
      rw [SourceInstr.expand, Pseudo.expand] at h
      split at h
      · cases h; exact filterMap_fixup?_word addr _
      · cases h
    | ordBranch order rs rt label => cases order <;> cases h <;> rfl
    | _ => cases h; rfl
  | _ => cases h; rfl

theorem filterMap_fixup?_chunks {s : Stmt} {c : Cursors} {table : LabelTable} {cs : List Chunk}
    (h : s.chunks c table = .ok cs) : cs.filterMap fixup? = s.references c.text := by
  unfold Stmt.references
  cases hs : s.nucleus with
  | none =>
    rw [Stmt.chunks_none hs] at h
    cases h
    rfl
  | some n =>
    cases n with
    | directive d =>
      rw [Stmt.chunks_directive hs] at h
      cases h
      rfl
    | instr i =>
      rw [Stmt.chunks_instr hs] at h
      cases he : i.expand table with
      | error e => rw [he] at h; cases h
      | ok ps =>
        rw [he] at h
        cases h
        exact filterMap_fixup?_expand c.text he

theorem mem_references {s : Stmt} {c : Cursors} {table : LabelTable} {cs : List Chunk}
    (h : s.chunks c table = .ok cs) {f : Fixup} : f ∈ s.references c.text ↔ ref f ∈ cs := by
  rw [← filterMap_fixup?_chunks h, List.mem_filterMap]
  constructor
  · rintro ⟨k, hk, hf⟩
    exact fixup?_eq_some_iff.mp hf ▸ hk
  · exact fun hf => ⟨_, hf, rfl⟩

end Chunk

end MipsMachine
