import MipsMachine.Proofs.Assembly.Chunk
import MipsMachine.Proofs.Checked.Encoding

namespace MipsMachine.Checked

section Resolve

def branchOffset (addr target : Word) : Attempt AsmCause Half := do
  if target.toNat % 4 ≠ 0 then throw (.misalignedTarget target)
  else
    let distance ← int64 ((target.toNat : Int) - addr.toNat)
    let distance ← int64 (distance - 4)
    relabel .branchOutOfRange (literal .signed 16 (distance.tdiv 4))

def jumpIndex (addr target : Word) : Attempt AsmCause (BitVec 26) := do
  if target.toNat % 4 ≠ 0 then throw (.misalignedTarget target)
  else if target.extractLsb' 28 4 ≠ (addr + 4).extractLsb' 28 4 then throw (.jumpOutOfRegion target)
  else
    let words ← shr target 2
    truncate .unsigned 26 words

def loadConstant (rd : Reg) (value : Word) : Option (List Instr) := do
  let high ← truncate .unsigned 16 (← shr value 16)
  return [.lui .scratch high, .imm .ori rd .scratch (value.extractLsb' 0 16)]

def encodeAll (is : List Instr) : Option (List Word) := is.mapM encode

def placeholder : Patch → Option (List Word)
  | .compare op rs rt => do return [← encode (.compare op rs rt (← truncate .signed 16 0))]
  | .zero op rs => do return [← encode (.zero op rs (← truncate .signed 16 0))]
  | .jump op => do return [← encode (.jump op (← truncate .unsigned 26 0))]
  | .address rd => do encodeAll (← loadConstant rd 0)

def resolve (p : Patch) (addr target : Word) : Attempt AsmCause (List Word) :=
  match p with
  | .compare op rs rt => do return [← encode (.compare op rs rt (← branchOffset addr target))]
  | .zero op rs => do return [← encode (.zero op rs (← branchOffset addr target))]
  | .jump op => do return [← encode (.jump op (← jumpIndex addr target))]
  | .address rd => do encodeAll (← loadConstant rd target)

theorem branchOffset_eq (addr target : Word) :
    branchOffset addr target = total (Patch.branchOffset addr target) := by
  have ha := addr.isLt
  have ht := target.isLt
  unfold branchOffset Patch.branchOffset
  split
  · rfl
  · rw [lift_eq (int64_eq (by omega) (by omega)), ok_bind, lift_eq (int64_eq (by omega) (by omega)), ok_bind,
      literal_eq .signed _ (by decide) (by decide), relabel_total]
    cases Offset.ofLiteral .signed 16 (((target.toNat : Int) - addr.toNat - 4).tdiv 4) <;> rfl

theorem jumpIndex_eq (addr target : Word) : jumpIndex addr target = total (Patch.jumpIndex addr target) := by
  unfold jumpIndex Patch.jumpIndex
  split
  · rfl
  split
  · rfl
  · rw [lift_eq (shr_eq target (by decide)), ok_bind, lift_eq (truncate_eq _ _ (by decide) (by decide)),
      BitVec.setWidth_ushiftRight_eq_extractLsb]

theorem loadConstant_eq (rd : Reg) (value : Word) :
    loadConstant rd value = some (Patch.loadConstant rd value) := by
  rw [loadConstant, shr_eq value (by decide), some_bind, truncate_eq _ _ (by decide) (by decide), some_bind,
    BitVec.setWidth_ushiftRight_eq_extractLsb]
  rfl

theorem encodeAll_eq (is : List Instr) : encodeAll is = some (is.map Instr.encode) :=
  mapM_some fun i _ => encode_eq i

theorem placeholder_eq (p : Patch) : placeholder p = some p.placeholder := by
  cases p with
  | compare op rs rt =>
    rw [placeholder, truncate_eq _ _ (by decide) (by decide), some_bind, encode_eq]
    rfl
  | zero op rs =>
    rw [placeholder, truncate_eq _ _ (by decide) (by decide), some_bind, encode_eq]
    rfl
  | jump op =>
    rw [placeholder, truncate_eq _ _ (by decide) (by decide), some_bind, encode_eq]
    rfl
  | address rd =>
    rw [placeholder, loadConstant_eq, some_bind, encodeAll_eq]
    rfl

theorem resolve_eq (p : Patch) (addr target : Word) : resolve p addr target = total (p.resolve addr target) := by
  cases p with
  | compare op rs rt =>
    rw [resolve, branchOffset_eq, Patch.resolve]
    refine total_bind fun offset _ => ?_
    rw [lift_eq (encode_eq _)]
    rfl
  | zero op rs =>
    rw [resolve, branchOffset_eq, Patch.resolve]
    refine total_bind fun offset _ => ?_
    rw [lift_eq (encode_eq _)]
    rfl
  | jump op =>
    rw [resolve, jumpIndex_eq, Patch.resolve]
    refine total_bind fun index _ => ?_
    rw [lift_eq (encode_eq _)]
    rfl
  | address rd =>
    rw [resolve, lift_eq (loadConstant_eq rd target), ok_bind, lift_eq (encodeAll_eq _)]
    rfl

end Resolve

section Expand

def expand (lookup : String → Option Word) (i : SourceInstr) : Attempt AsmError (List Piece) :=
  match i with
  | .pseudo (.li rt value) =>
    if -0x8000 ≤ value ∧ value < 0x8000 then total (i.expand lookup)
    else do return (← loadConstant rt (BitVec.ofInt 32 value)).map .word
  | .pseudo (.la rt label) =>
    match lookup label.name with
    | some addr => do return (← loadConstant rt addr).map .word
    | none => total (i.expand lookup)
  | .pseudo (.abs rd rs) => do return [
      .word (.shift .sra .scratch rs (← truncate .unsigned 5 31)),
      .word (.alu .xor rd rs .scratch),
      .word (.alu .subu rd rd .scratch)]
  | .pseudo (.memLabel op rt label) => do
    return [.ref (.address .scratch) label, .word (.mem op rt .scratch (← truncate .signed 16 0))]
  | i => total (i.expand lookup)

theorem expand_eq (lookup : String → Option Word) (i : SourceInstr) :
    expand lookup i = total (i.expand lookup) := by
  unfold expand
  split
  · rename_i rt value
    split
    · rfl
    · rename_i hv
      rw [lift_eq (loadConstant_eq _ _), SourceInstr.expand, Pseudo.expand, if_neg hv]
      rfl
  · rename_i rt label
    split
    · rename_i addr ha
      rw [lift_eq (loadConstant_eq _ _), SourceInstr.expand, Pseudo.expand, ha]
      rfl
    · rfl
  · rw [lift_eq (truncate_eq _ _ (by decide) (by decide))]
    rfl
  · rw [lift_eq (truncate_eq _ _ (by decide) (by decide))]
    rfl
  · rfl

end Expand

section Cover

def covers (f : Fixup) (addr : Word) : Option Bool := do
  let stop ← add f.addr (4 * f.patch.size)
  return f.addr ≤ addr && addr < stop

def fixupAt (addr : Word) : List Fixup → Option (Option Fixup)
  | [] => some none
  | f :: fs => do if ← covers f addr then return some f else fixupAt addr fs

theorem covers_eq {f : Fixup} (h : f.stop < 0x100000000) (addr : Word) :
    covers f addr = some (f.covers addr) := by
  rw [covers, add_eq h]
  rfl

-- the last word of memory is out of reach for a pending reference
example : covers ⟨0xFFFFFFFC, "end", .jump .j⟩ 0 = none := rfl

theorem fixupAt_eq {fs : List Fixup} (h : ∀ f ∈ fs, f.stop < 0x100000000) (addr : Word) :
    fixupAt addr fs = some (fs.find? fun f => f.covers addr) := by
  induction fs with
  | nil => rfl
  | cons f fs ih =>
    rw [List.forall_mem_cons] at h
    rw [fixupAt, covers_eq h.1, some_bind, ih h.2, List.find?_cons]
    cases f.covers addr <;> rfl

end Cover

end MipsMachine.Checked
