import Mathlib.Data.Option.Basic
import MipsMachine.Execution.Step
import MipsMachine.Proofs.Instruction.Codec

/-!
The fields of a machine word. Each form of instruction uses some of them; decoding looks at these alone,
and encoding leaves the rest zero. Main statement: a word is decoded to an instruction exactly if it is the
word of that instruction in all fields that its form uses.
-/

namespace MipsMachine

/-- A range of bits. The value of an immediate format and the index of a jump lie over other fields. -/
inductive Field where
  | opcode | rs | rt | rd | amount | funct
  | value
  | target
deriving DecidableEq

namespace Field

def low : Field → Nat
  | opcode => 26 | rs => 21 | rt => 16 | rd => 11 | amount => 6
  | funct | value | target => 0

def width : Field → Nat
  | opcode | funct => 6
  | rs | rt | rd | amount => 5
  | value => 16
  | target => 26

def bits (f : Field) (w : Word) : BitVec f.width := w.extractLsb' f.low f.width

def mask (f : Field) : Word := (BitVec.allOnes f.width).setWidth 32 <<< f.low

def masks (fs : List Field) : Word := fs.foldr (fun f rest => f.mask ||| rest) 0

def Apart (f g : Field) : Prop := f.low + f.width ≤ g.low ∨ g.low + g.width ≤ f.low

instance (f g : Field) : Decidable (f.Apart g) := inferInstanceAs (Decidable (_ ∨ _))

def registerFormat : List Field := [opcode, rs, rt, rd, amount, funct]

def immediateFormat : List Field := [opcode, rs, rt, value]

def cleared (fs : List Field) (w : Word) (f : Field) : BitVec f.width :=
  bif fs.contains f then f.bits w else 0

section Bits

variable {f : Field} {fs format : List Field}

theorem bits_mask_self (f : Field) : f.bits f.mask = BitVec.allOnes f.width := by
  cases f <;> decide

theorem bits_mask_of_apart {g : Field} (h : f.Apart g) : f.bits g.mask = 0 := by
  revert h
  cases f <;> cases g <;> decide

theorem bits_masks_of_mem (h : f ∈ fs) : f.bits (masks fs) = BitVec.allOnes f.width := by
  induction fs with
  | nil => exact (List.not_mem_nil h).elim
  | cons g fs ih =>
    change f.bits (g.mask ||| masks fs) = _
    rw [bits, BitVec.extractLsb'_or]
    rcases List.mem_cons.mp h with rfl | h
    · exact (congrArg (· ||| _) f.bits_mask_self).trans BitVec.allOnes_or
    · exact (congrArg (_ ||| ·) (ih h)).trans BitVec.or_allOnes

theorem bits_masks_of_apart (h : ∀ g ∈ fs, f.Apart g) : f.bits (masks fs) = 0 := by
  induction fs with
  | nil => exact BitVec.extractLsb'_zero
  | cons g fs ih =>
    obtain ⟨hg, hfs⟩ := List.forall_mem_cons.mp h
    change f.bits (g.mask ||| masks fs) = _
    rw [bits, BitVec.extractLsb'_or]
    exact (congr (congrArg (· ||| ·) (bits_mask_of_apart hg)) (ih hfs)).trans BitVec.or_zero

theorem bits_and_of_mem (h : f ∈ fs) (w : Word) : f.bits (w &&& masks fs) = f.bits w := by
  rw [bits, BitVec.extractLsb'_and]
  exact (congrArg (_ &&& ·) (bits_masks_of_mem h)).trans BitVec.and_allOnes

theorem bits_and_of_apart (h : ∀ g ∈ fs, f.Apart g) (w : Word) : f.bits (w &&& masks fs) = 0 := by
  rw [bits, BitVec.extractLsb'_and]
  exact (congrArg (_ &&& ·) (bits_masks_of_apart h)).trans BitVec.and_zero

theorem bits_and (hd : ∀ f ∈ format, ∀ g ∈ format, f ≠ g → f.Apart g) (hs : ∀ g ∈ fs, g ∈ format)
    (hf : f ∈ format) (w : Word) : f.bits (w &&& masks fs) = cleared fs w f := by
  unfold cleared
  by_cases h : f ∈ fs
  · rw [bits_and_of_mem h, List.contains_iff_mem.mpr h, cond_true]
  · have hn : fs.contains f = false := Bool.eq_false_iff.mpr fun hc => h (List.contains_iff_mem.mp hc)
    rw [bits_and_of_apart fun g hg => hd f hf g (hs g hg) fun he => h (he ▸ hg), hn, cond_false]

end Bits

end Field

theorem Operation.code_of_ofCode? {α : Type} [Operation α] {n : Nat} {op : α} (h : ofCode? n = some op) :
    (code op).toNat = n := by
  simpa using List.find?_some h

namespace Instr

def fields : Instr → List Field
  | alu .. | shiftVar .. => [.opcode, .rs, .rt, .rd, .funct]
  | shift .. => [.opcode, .rt, .rd, .amount, .funct]
  | imm .. | mem .. | compare .. => [.opcode, .rs, .rt, .value]
  | lui .. => [.opcode, .rt, .value]
  | zero .blez .. | zero .bgtz .. => [.opcode, .rs, .value]
  | zero .bltz .. | zero .bgez .. => [.opcode, .rs, .rt, .value]
  | jump .. => [.opcode, .target]
  | jr _ => [.opcode, .rs, .funct]
  | jalr .. => [.opcode, .rs, .rd, .funct]
  | hiLo op _ => if op.isLoad then [.opcode, .rd, .funct] else [.opcode, .rs, .funct]
  | mulDiv .. => [.opcode, .rs, .rt, .funct]
  | syscall => [.opcode, .funct]

def used (i : Instr) : Word := Field.masks i.fields

section Words

theorem registerWord_extract {w : Word} (h : w.extractLsb' 26 6 = 0) :
    registerWord ⟨w.extractLsb' 21 5⟩ ⟨w.extractLsb' 16 5⟩ ⟨w.extractLsb' 11 5⟩ (w.extractLsb' 6 5)
      (w.extractLsb' 0 6) = w := by
  apply BitVec.eq_of_getLsbD_eq
  intro i hi
  have hop := congrArg (·.getLsbD (i - 26)) h
  simp only [registerWord, BitVec.getLsbD_extractLsb', BitVec.getLsbD_append] at hop ⊢
  grind

theorem immediateWord_extract (w : Word) :
    immediateWord (w.extractLsb' 26 6) ⟨w.extractLsb' 21 5⟩ (w.extractLsb' 16 5) (w.extractLsb' 0 16) =
      w := by
  apply BitVec.eq_of_getLsbD_eq
  intro i hi
  simp only [immediateWord, BitVec.getLsbD_extractLsb', BitVec.getLsbD_append]
  grind

theorem and_eq_self_iff {w v : Word} : w &&& v = w ↔ w &&& ~~~v = 0 := by
  constructor <;> intro h
  · rw [← h, BitVec.and_assoc, BitVec.and_not_self]
    exact BitVec.and_zero
  · calc w &&& v = (w &&& v) ||| (w &&& ~~~v) := by rw [h]; exact BitVec.or_zero.symm
      _ = w := by rw [← BitVec.and_or_distrib_left, BitVec.or_not_self, BitVec.and_allOnes]

end Words

section Decode

open MipsMachine.Field

variable {w : Word} {i : Instr}

theorem registerWord_cleared (fs : List Field) (hs : ∀ g ∈ fs, g ∈ registerFormat) (hop : opcode ∈ fs)
    (h : opcode.bits w = 0) {code : BitVec 6} (hc : cleared fs w .funct = code) :
    registerWord ⟨cleared fs w .rs⟩ ⟨cleared fs w .rt⟩ ⟨cleared fs w .rd⟩ (cleared fs w .amount) code =
      w &&& masks fs := by
  have hbits {f : Field} (hf : f ∈ registerFormat) : f.bits (w &&& masks fs) = cleared fs w f :=
    bits_and (by decide) hs hf w
  rw [← registerWord_extract (w := w &&& masks fs) ((bits_and_of_mem hop w).trans h), ← hc,
    ← hbits (f := rs) (by decide), ← hbits (f := rt) (by decide), ← hbits (f := rd) (by decide),
    ← hbits (f := amount) (by decide), ← hbits (f := funct) (by decide)]
  rfl

theorem immediateWord_cleared (fs : List Field) (hs : ∀ g ∈ fs, g ∈ immediateFormat) {code : BitVec 6}
    (hc : cleared fs w .opcode = code) :
    immediateWord code ⟨cleared fs w .rs⟩ (cleared fs w .rt) (cleared fs w .value) = w &&& masks fs := by
  have hbits {f : Field} (hf : f ∈ immediateFormat) : f.bits (w &&& masks fs) = cleared fs w f :=
    bits_and (by decide) hs hf w
  rw [← immediateWord_extract (w &&& masks fs), ← hc, ← hbits (f := rs) (by decide),
    ← hbits (f := rt) (by decide), ← hbits (f := value) (by decide), ← hbits (f := opcode) (by decide)]
  rfl

theorem exists_of_map_ofCode? {α : Type} [Operation α] {n : Nat} {f : α → Instr}
    (h : (Operation.ofCode? n).map f = some i) : ∃ op : α, (code op).toNat = n ∧ f op = i := by
  obtain ⟨op, hop, rfl⟩ := Option.map_eq_some_iff.mp h
  exact ⟨op, Operation.code_of_ofCode? hop, rfl⟩

theorem bits_eq_of_toNat {f : Field} {code : BitVec f.width} (h : code.toNat = (f.bits w).toNat) :
    f.bits w = code :=
  (BitVec.eq_of_toNat_eq h).symm

theorem encode_of_ofFunct? (hop : opcode.bits w = 0)
    (h : ofFunct? ⟨rs.bits w⟩ ⟨rt.bits w⟩ ⟨rd.bits w⟩ (amount.bits w) (funct.bits w).toNat = some i) :
    i.encode = w &&& i.used := by
  have hcode {code : BitVec 6} : code.toNat = (funct.bits w).toNat → funct.bits w = code :=
    bits_eq_of_toNat (f := funct)
  -- along the decoder's tests; the tables of operations that follow them are looked up in turn
  unfold ofFunct? at h
  split at h
  case isTrue h8 =>
    cases h
    exact registerWord_cleared [.opcode, .rs, .funct] (by decide) (by decide) hop (hcode h8.symm)
  split at h
  case isTrue h9 =>
    cases h
    exact registerWord_cleared [.opcode, .rs, .rd, .funct] (by decide) (by decide) hop (hcode h9.symm)
  split at h
  case isTrue hC =>
    cases h
    exact registerWord_cleared [.opcode, .funct] (by decide) (by decide) hop (hcode hC.symm)
  split at h
  case isTrue hv =>
    obtain ⟨op, hc, rfl⟩ := exists_of_map_ofCode? h
    have h4 : (code op + 4).toNat = (funct.bits w).toNat := by
      rw [BitVec.toNat_add, hc]
      change (_ - 4 + 4) % 64 = _
      omega
    exact registerWord_cleared [.opcode, .rs, .rt, .rd, .funct] (by decide) (by decide) hop (hcode h4)
  simp only [Option.orElse_eq_some] at h
  rcases h with h | ⟨-, h | ⟨-, h | ⟨-, h⟩⟩⟩ <;> obtain ⟨op, hc, rfl⟩ := exists_of_map_ofCode? h
  · exact registerWord_cleared [.opcode, .rt, .rd, .amount, .funct] (by decide) (by decide) hop (hcode hc)
  · exact registerWord_cleared [.opcode, .rs, .rt, .rd, .funct] (by decide) (by decide) hop (hcode hc)
  · cases op
    case mfhi | mflo =>
      exact registerWord_cleared [.opcode, .rd, .funct] (by decide) (by decide) hop (hcode hc)
    case mthi | mtlo =>
      exact registerWord_cleared [.opcode, .rs, .funct] (by decide) (by decide) hop (hcode hc)
  · exact registerWord_cleared [.opcode, .rs, .rt, .funct] (by decide) (by decide) hop (hcode hc)

theorem jumpWord_cleared {code : BitVec 6} (hc : opcode.bits w = code) :
    (code ++ target.bits w : Word) = w &&& masks [.opcode, .target] := by
  have hparts : (opcode.bits (w &&& masks [.opcode, .target]) ++ target.bits (w &&& masks [.opcode, .target]) : Word) =
      w &&& masks [.opcode, .target] := BitVec.extractLsb'_append_extractLsb'
  rw [← hparts, ← hc, bits_and_of_mem (by decide), bits_and_of_mem (by decide)]
  rfl

theorem encode_of_decode? (h : decode? w = some i) : i.encode = w &&& i.used := by
  have hcode {code : BitVec 6} : code.toNat = (opcode.bits w).toNat → opcode.bits w = code :=
    bits_eq_of_toNat (f := opcode)
  simp only [decode?] at h
  split at h
  case isTrue h0 => exact encode_of_ofFunct? (hcode h0.symm) h
  split at h
  case isTrue h1 =>
    split at h
    case isTrue hrt =>
      cases h
      exact (congrArg (immediateWord _ _ · _) hrt.symm).trans
        (immediateWord_cleared [.opcode, .rs, .rt, .value] (by decide) (hcode h1.symm))
    split at h
    case isTrue hrt =>
      cases h
      exact (congrArg (immediateWord _ _ · _) hrt.symm).trans
        (immediateWord_cleared [.opcode, .rs, .rt, .value] (by decide) (hcode h1.symm))
    cases h
  split at h
  case isTrue h6 =>
    cases h
    exact immediateWord_cleared [.opcode, .rs, .value] (by decide) (hcode h6.symm)
  split at h
  case isTrue h7 =>
    cases h
    exact immediateWord_cleared [.opcode, .rs, .value] (by decide) (hcode h7.symm)
  split at h
  case isTrue hF =>
    cases h
    exact immediateWord_cleared [.opcode, .rt, .value] (by decide) (hcode hF.symm)
  simp only [Option.orElse_eq_some] at h
  rcases h with h | ⟨-, h | ⟨-, h | ⟨-, h⟩⟩⟩ <;> obtain ⟨op, hc, rfl⟩ := exists_of_map_ofCode? h
  · exact jumpWord_cleared (hcode hc)
  · exact immediateWord_cleared [.opcode, .rs, .rt, .value] (by decide) (hcode hc)
  · exact immediateWord_cleared [.opcode, .rs, .rt, .value] (by decide) (hcode hc)
  · exact immediateWord_cleared [.opcode, .rs, .rt, .value] (by decide) (hcode hc)

theorem decode?_of_bits (h : ∀ f ∈ i.fields, f.bits w = f.bits i.encode) : decode? w = some i := by
  have opcode_eq : .opcode ∈ i.fields → w.extractLsb' 26 6 = i.encode.extractLsb' 26 6 := h .opcode
  have rs_eq : .rs ∈ i.fields → w.extractLsb' 21 5 = i.encode.extractLsb' 21 5 := h .rs
  have rt_eq : .rt ∈ i.fields → w.extractLsb' 16 5 = i.encode.extractLsb' 16 5 := h .rt
  have rd_eq : .rd ∈ i.fields → w.extractLsb' 11 5 = i.encode.extractLsb' 11 5 := h .rd
  have amount_eq : .amount ∈ i.fields → w.extractLsb' 6 5 = i.encode.extractLsb' 6 5 := h .amount
  have funct_eq : .funct ∈ i.fields → w.extractLsb' 0 6 = i.encode.extractLsb' 0 6 := h .funct
  have value_eq : .value ∈ i.fields → w.extractLsb' 0 16 = i.encode.extractLsb' 0 16 := h .value
  have target_eq : .target ∈ i.fields → w.extractLsb' 0 26 = i.encode.extractLsb' 0 26 := h .target
  clear h
  -- each field that the form has is replaced by what was encoded; the decoder's tests then compute
  cases i with
  | alu op | shift op | shiftVar op | mulDiv op =>
    simp [fields, encode, fields_registerWord] at *
    simp only [decode?, *]
    cases op <;> rfl
  | hiLo op =>
    cases op <;>
    · simp [fields, encode, fields_registerWord, HiLoOp.isLoad] at *
      simp only [decode?, *]
      rfl
  | zero op =>
    cases op <;>
    · simp [fields, encode, fields_immediateWord] at *
      simp only [decode?, *]
      rfl
  | imm op | mem op | compare op =>
    simp [fields, encode, fields_immediateWord] at *
    simp only [decode?, *]
    cases op <;> rfl
  | jump op =>
    simp [fields, encode, fields_jumpWord] at *
    simp only [decode?, *]
    cases op <;> rfl
  | jr | jalr | syscall =>
    simp [fields, encode, fields_registerWord] at *
    simp only [decode?, *]
    rfl
  | lui =>
    simp [fields, encode, fields_immediateWord] at *
    simp only [decode?, *]
    rfl

theorem decode?_eq_some_iff : decode? w = some i ↔ i.encode = w &&& i.used := by
  constructor
  · exact encode_of_decode?
  · intro h
    apply decode?_of_bits
    intro f hf
    rw [h]
    exact (bits_and_of_mem hf w).symm

theorem encode_and_used (i : Instr) : i.encode &&& i.used = i.encode :=
  (encode_of_decode? i.decode?_encode).symm

theorem decode_ok_iff : decode w = .ok i ↔ decode? w = some i := by
  unfold decode
  cases decode? w <;> simp

theorem decode_error_iff {e : ExecError} :
    decode w = .error e ↔ e = .unknownInstruction w ∧ decode? w = none := by
  unfold decode
  cases decode? w <;> simp [eq_comm]

theorem decode?_eq_none_iff : decode? w = none ↔ ¬∃ i : Instr, w &&& i.used = i.encode &&& i.used := by
  simp only [Option.eq_none_iff_forall_ne_some, ne_eq, decode?_eq_some_iff, encode_and_used, not_exists]
  exact forall_congr' fun i => not_congr eq_comm

end Decode

theorem decode_encode (i : Instr) : decode i.encode = .ok i :=
  decode_ok_iff.mpr i.decode?_encode

/-- Encoding undoes decoding up to unused fields, and decoding fails only on a word that agrees with no
instruction in the fields of its form. -/
theorem decode_exact (w : Word) :
    (∀ i, decode w = .ok i →
      i.encode = w &&& i.used ∧ (i.encode = w ↔ w &&& ~~~i.used = 0) ∧ decode i.encode = .ok i) ∧
    ∀ e, decode w = .error e ↔
      e = .unknownInstruction w ∧ ¬∃ i : Instr, w &&& i.used = i.encode &&& i.used := by
  constructor
  · intro i h
    have he : i.encode = w &&& i.used := encode_of_decode? (decode_ok_iff.mp h)
    refine ⟨he, ?_, decode_ok_iff.mpr i.decode?_encode⟩
    rw [he]
    exact and_eq_self_iff
  · intro e
    rw [decode_error_iff, decode?_eq_none_iff]

-- `bltz` and `bgez` are told apart by a field that `blez` ignores
example : (zero .blez .ra 1).used = 0xFFE0FFFF ∧ (zero .bltz .ra 1).used = 0xFFFFFFFF := by decide

end Instr

end MipsMachine
