import MipsMachine.Assembly.Expansion

namespace MipsMachine

abbrev LabelTable := String → Option Word

theorem Patch.length_placeholder (p : Patch) : p.placeholder.length = p.size := by
  cases p <;> rfl

theorem Patch.size_pos (p : Patch) : 0 < p.size := by
  cases p <;> exact Nat.zero_lt_succ _

theorem Patch.length_resolve {p : Patch} {addr target : Word} {ws : List Word}
    (h : p.resolve addr target = .ok ws) : ws.length = p.size := by
  cases p with
  | compare op rs rt =>
    unfold resolve at h
    cases ho : branchOffset addr target with
    | error e => rw [ho] at h; cases h
    | ok offset => rw [ho] at h; cases h; rfl
  | zero op rs =>
    unfold resolve at h
    cases ho : branchOffset addr target with
    | error e => rw [ho] at h; cases h
    | ok offset => rw [ho] at h; cases h; rfl
  | jump op =>
    unfold resolve at h
    cases hj : jumpIndex addr target with
    | error e => rw [hj] at h; cases h
    | ok index => rw [hj] at h; cases h; rfl
  | address rd => cases h; rfl

def Piece.size : Piece → Nat
  | .word _ => 1
  | .ref patch _ => patch.size

def Piece.sizes : List Piece → Nat
  | [] => 0
  | p :: ps => p.size + sizes ps

theorem Piece.sizes_cons (p : Piece) (ps : List Piece) : sizes (p :: ps) = p.size + sizes ps := rfl

def Pseudo.size : Pseudo → Nat
  | li _ value => if -0x8000 ≤ value ∧ value < 0x8000 then 1 else 2
  | move .. | neg .. | negu .. | not .. | sgt .. | b _ => 1
  | la .. | mul .. | sge .. | ordBranch .. => 2
  | abs .. | memLabel .. => 3

def SourceInstr.size : SourceInstr → Nat
  | real _ | compare .. | zero .. | jump .. => 1
  | pseudo p => p.size

theorem Pseudo.sizes_expand {table : LabelTable} {p : Pseudo} {ps : List Piece}
    (h : p.expand table = .ok ps) : Piece.sizes ps = p.size := by
  cases p with
  | li rt value =>
    rw [expand] at h
    rw [size]
    by_cases hv : -0x8000 ≤ value ∧ value < 0x8000
    · rw [if_pos hv] at h ⊢
      cases h
      rfl
    · rw [if_neg hv] at h ⊢
      cases h
      rfl
  | la rt label =>
    rw [expand] at h
    cases ha : table label.name with
    | none => rw [ha] at h; cases h
    | some addr => rw [ha] at h; cases h; rfl
  | ordBranch order rs rt label => cases order <;> cases h <;> rfl
  | _ => cases h; rfl

theorem SourceInstr.sizes_expand {table : LabelTable} {i : SourceInstr} {ps : List Piece}
    (h : i.expand table = .ok ps) : Piece.sizes ps = i.size := by
  cases i with
  | pseudo p => exact Pseudo.sizes_expand h
  | _ => cases h; rfl

theorem SourceInstr.expand_congr {i : SourceInstr} {table table' : LabelTable}
    (h : ∀ rt label, i = .pseudo (.la rt label) → table label.name = table' label.name) :
    i.expand table = i.expand table' := by
  cases i with
  | pseudo p =>
    cases p with
    | la rt label =>
      rw [expand, expand, Pseudo.expand, Pseudo.expand, h rt label rfl]
    | _ => rfl
  | _ => rfl

end MipsMachine
