import MipsMachine.Execution.Step
import MipsMachine.Proofs.Checked.Arithmetic
import MipsMachine.Proofs.Offset

namespace MipsMachine.Checked

section Registers

def name (r : Reg) : Option String := Reg.names[r.number.toNat]?

theorem name_eq (r : Reg) : name r = some r.name := Vector.getElem?_eq_getElem r.number.isLt

def get (f : RegisterFile) (r : Reg) : Option Word := f.regs[r.number.toNat]?

theorem get_eq (f : RegisterFile) (r : Reg) : get f r = some (f.get r) :=
  Vector.getElem?_eq_getElem r.number.isLt

def set (f : RegisterFile) (r : Reg) (v : Word) : Option RegisterFile :=
  if r = Reg.zero then some f
  else if h : r.number.toNat < 32 then some { f with regs := f.regs.set r.number.toNat v h } else none

theorem set_eq (f : RegisterFile) (r : Reg) (v : Word) : set f r v = some (f.set r v) := by
  unfold set RegisterFile.set
  rw [dif_pos r.number.isLt]
  split <;> rfl

end Registers

section Bits

def extend (s : Signedness) (n : Nat) (w : Word) : Option Word := do
  let k ← sub 32 n
  let w ← shl w k
  match s with
  | .signed => sar w k
  | .unsigned => shr w k

def bits (n : Nat) (w : Word) : Option Word := do return w &&& (← shr (BitVec.allOnes 32) (← sub 32 n))

theorem extend_eq {n : Nat} (s : Signedness) (w : Word) (h : 0 < n) (hn : n ≤ 32) :
    extend s n w = some (s.extend n w) := by
  rw [extend, sub_eq hn, some_bind, shl_eq w (by omega), some_bind]
  cases s with
  | signed => exact sar_eq _ (by omega)
  | unsigned => exact shr_eq _ (by omega)

theorem bits_eq {n : Nat} (w : Word) (h : 0 < n) (hn : n ≤ 32) :
    bits n w = some ((w.setWidth n).setWidth 32) := by
  have hm : w &&& (BitVec.allOnes 32 >>> (32 - n)) = (w.setWidth n).setWidth 32 := by
    apply BitVec.eq_of_getLsbD_eq
    intro i hi
    simp only [BitVec.getLsbD_and, BitVec.getLsbD_ushiftRight, BitVec.getLsbD_allOnes, BitVec.getLsbD_setWidth]
    grind
  rw [bits, sub_eq hn, some_bind, shr_eq _ (by omega), ← hm]
  rfl

def truncate (s : Signedness) (n : Nat) (w : Word) : Option (BitVec n) := do return (← extend s n w).setWidth n

theorem mask_eq {n : Nat} (v : BitVec n) (h : n ≤ 32) :
    v.setWidth 32 &&& BitVec.ofNat 32 (2 ^ n - 1) = v.setWidth 32 := by
  have hv : v.toNat < 2 ^ n := v.isLt
  have hw : 2 ^ n ≤ 2 ^ 32 := Nat.pow_le_pow_right (by omega) h
  apply BitVec.eq_of_toNat_eq
  rw [BitVec.toNat_and, BitVec.toNat_ofNat, BitVec.toNat_setWidth, Nat.mod_eq_of_lt (by omega),
    Nat.mod_eq_of_lt (by omega), Nat.and_two_pow_sub_one_eq_mod, Nat.mod_eq_of_lt hv]

theorem bits_setWidth {n : Nat} (v : BitVec n) (h : 0 < n) (hn : n ≤ 32) :
    bits n (v.setWidth 32) = some (v.setWidth 32) := by
  rw [bits_eq _ h hn, BitVec.setWidth_setWidth_of_le v hn, BitVec.setWidth_eq]

theorem setWidth_signExtend {n : Nat} (v : BitVec n) (hn : n ≤ 32) : (v.signExtend 32).setWidth n = v := by
  apply BitVec.eq_of_getLsbD_eq
  intro i hi
  simp only [BitVec.getLsbD_setWidth, BitVec.getLsbD_signExtend]
  grind

theorem setWidth_extend {n : Nat} (s : Signedness) (w : Word) (hn : n ≤ 32) :
    (s.extend n w).setWidth n = w.setWidth n := by
  cases s with
  | signed => rw [Signedness.extend_signed hn, setWidth_signExtend _ hn]
  | unsigned => rw [Signedness.extend_unsigned hn, BitVec.setWidth_setWidth_of_le _ hn, BitVec.setWidth_eq]

theorem truncate_eq {n : Nat} (s : Signedness) (w : Word) (h : 0 < n) (hn : n ≤ 32) :
    truncate s n w = some (w.setWidth n) := by
  rw [truncate, extend_eq s w h hn, some_bind, setWidth_extend s w hn]
  rfl

theorem bits_signExtend {n : Nat} (v : BitVec n) (h : 0 < n) (hn : n ≤ 32) :
    bits n (v.signExtend 32) = some (v.setWidth 32) := by
  rw [bits_eq _ h hn, setWidth_signExtend v hn]

end Bits

def literal (s : Signedness) (n : Nat) (v : Int) : Attempt OffsetError (BitVec n) :=
  if s.Holds v then do
    if (← extend s n (BitVec.ofInt 32 v)) = BitVec.ofInt 32 v then
      return (← bits n (BitVec.ofInt 32 v)).setWidth n
    else throw (.doesNotFit s n)
  else throw (.doesNotFit s n)

theorem literal_eq {n : Nat} (s : Signedness) (v : Int) (h : 0 < n) (hn : n ≤ 32) :
    literal s n v = total ((Offset.ofLiteral s n v).map Offset.field) := by
  unfold literal Offset.ofLiteral Offset.ofWord
  split
  · rw [if_neg (by omega), lift_eq (extend_eq s _ h hn), ok_bind]
    split
    · rw [lift_eq (bits_eq _ h hn), ok_bind, BitVec.setWidth_setWidth_of_le _ hn, BitVec.setWidth_eq]
      rfl
    · rfl
  · rfl

section Encode

def number (r : Reg) : Word := r.number.setWidth 32

def opcode {α : Type} [Operation α] (op : α) : Word := (code op).setWidth 32

def registerWord (rs rt rd : Reg) (amount funct : Word) : Option Word := do
  let rs ← shl (number rs) 21
  let rt ← shl (number rt) 16
  let rd ← shl (number rd) 11
  return rs ||| rt ||| rd ||| (← shl (amount &&& 0x1F) 6) ||| (funct &&& 0x3F)

def immediateWord (opcode : Word) (rs : Reg) (rt value : Word) : Option Word := do
  let opcode ← shl opcode 26
  let rs ← shl (number rs) 21
  return opcode ||| rs ||| (← shl (rt &&& 0x1F) 16) ||| (value &&& 0xFFFF)

def encode : Instr → Option Word
  | .alu op rd rs rt => registerWord rs rt rd 0 (opcode op)
  | .shift op rd rt amount => do registerWord .zero rt rd (← bits 5 (amount.setWidth 32)) (opcode op)
  | .shiftVar op rd rt rs => do registerWord rs rt rd 0 (← add (opcode op) 4)
  | .imm op rt rs value => immediateWord (opcode op) rs (number rt) (value.setWidth 32)
  | .lui rt value => do immediateWord 0x0F .zero (number rt) (← bits 16 (value.setWidth 32))
  | .mem op rt base offset => do
    immediateWord (opcode op) base (number rt) (← bits 16 (offset.signExtend 32))
  | .compare op rs rt offset => do
    immediateWord (opcode op) rs (number rt) (← bits 16 (offset.signExtend 32))
  | .zero op rs offset => do
    immediateWord (opcode op) rs (op.selector.setWidth 32) (← bits 16 (offset.signExtend 32))
  | .jump op target => do return (← shl (opcode op) 26) ||| (← bits 26 (target.setWidth 32))
  | .jr rs => registerWord rs .zero .zero 0 0x08
  | .jalr rd rs => registerWord rs .zero rd 0 0x09
  | .hiLo op reg =>
    if op.isLoad then registerWord .zero .zero reg 0 (opcode op) else registerWord reg .zero .zero 0 (opcode op)
  | .mulDiv op rs rt => registerWord rs rt .zero 0 (opcode op)
  | .syscall => registerWord .zero .zero .zero 0 0x0C

theorem registerWord_eq (rs rt rd : Reg) (amount : BitVec 5) (funct : BitVec 6) :
    registerWord rs rt rd (amount.setWidth 32) (funct.setWidth 32) =
      some (Instr.registerWord rs rt rd amount funct) := by
  have hw : rs.number.setWidth 32 <<< 21 ||| rt.number.setWidth 32 <<< 16 |||
      rd.number.setWidth 32 <<< 11 ||| amount.setWidth 32 <<< 6 ||| funct.setWidth 32 =
        Instr.registerWord rs rt rd amount funct := by
    -- the fields do not overlap, so each bit of the word is a bit of one of them
    apply BitVec.eq_of_getLsbD_eq
    intro i hi
    simp only [Instr.registerWord, BitVec.getLsbD_append, BitVec.getLsbD_or, BitVec.getLsbD_shiftLeft,
      BitVec.getLsbD_setWidth]
    grind
  have ha : amount.setWidth 32 &&& 0x1F = amount.setWidth 32 := mask_eq amount (by decide)
  have hf : funct.setWidth 32 &&& 0x3F = funct.setWidth 32 := mask_eq funct (by decide)
  rw [registerWord, ha, hf, ← hw]
  rfl

theorem immediateWord_eq (opcode : BitVec 6) (rs : Reg) (rt : BitVec 5) (value : Half) :
    immediateWord (opcode.setWidth 32) rs (rt.setWidth 32) (value.setWidth 32) =
      some (Instr.immediateWord opcode rs rt value) := by
  have hw : opcode.setWidth 32 <<< 26 ||| rs.number.setWidth 32 <<< 21 ||| rt.setWidth 32 <<< 16 |||
      value.setWidth 32 = Instr.immediateWord opcode rs rt value := by
    apply BitVec.eq_of_getLsbD_eq
    intro i hi
    simp only [Instr.immediateWord, BitVec.getLsbD_append, BitVec.getLsbD_or, BitVec.getLsbD_shiftLeft,
      BitVec.getLsbD_setWidth]
    grind
  have hr : rt.setWidth 32 &&& 0x1F = rt.setWidth 32 := mask_eq rt (by decide)
  have hv : value.setWidth 32 &&& 0xFFFF = value.setWidth 32 := mask_eq value (by decide)
  rw [immediateWord, hr, hv, ← hw]
  rfl

theorem jumpWord_eq (opcode : BitVec 6) (target : BitVec 26) :
    opcode.setWidth 32 <<< 26 ||| target.setWidth 32 = opcode ++ target :=
  (shl_or opcode target).trans (BitVec.setWidth_eq _)

theorem encode_eq (i : Instr) : encode i = some i.encode := by
  cases i with
  | alu op rd rs rt => exact registerWord_eq rs rt rd 0 (code op)
  | shift op rd rt amount =>
    rw [encode, bits_setWidth amount (by decide) (by decide), some_bind]
    exact registerWord_eq .zero rt rd amount (code op)
  | shiftVar op rd rt rs =>
    have ha : add (opcode op) 4 = some ((code op + 4).setWidth 32) := by cases op <;> rfl
    rw [encode, ha, some_bind]
    exact registerWord_eq rs rt rd 0 (code op + 4)
  | imm op rt rs value => exact immediateWord_eq (code op) rs rt.number value
  | lui rt value =>
    rw [encode, bits_setWidth value (by decide) (by decide), some_bind]
    exact immediateWord_eq 0x0F .zero rt.number value
  | mem op rt base offset =>
    rw [encode, bits_signExtend offset (by decide) (by decide), some_bind]
    exact immediateWord_eq (code op) base rt.number offset
  | compare op rs rt offset =>
    rw [encode, bits_signExtend offset (by decide) (by decide), some_bind]
    exact immediateWord_eq (code op) rs rt.number offset
  | zero op rs offset =>
    rw [encode, bits_signExtend offset (by decide) (by decide), some_bind]
    exact immediateWord_eq (code op) rs op.selector offset
  | jump op target =>
    rw [encode, bits_setWidth target (by decide) (by decide)]
    exact congrArg some (jumpWord_eq (code op) target)
  | jr rs => exact registerWord_eq rs .zero .zero 0 0x08
  | jalr rd rs => exact registerWord_eq rs .zero rd 0 0x09
  | hiLo op reg =>
    cases op with
    | mfhi | mflo => exact registerWord_eq .zero .zero reg 0 _
    | mthi | mtlo => exact registerWord_eq reg .zero .zero 0 _
  | mulDiv op rs rt => exact registerWord_eq rs rt .zero 0 (code op)
  | syscall => exact registerWord_eq .zero .zero .zero 0 0x0C

end Encode

section Decode

def field (w : Word) (k : Nat) : Option Reg := do Reg.ofNumber? ((← shr w k) &&& 0x1F).toNat

def ofFunct (rs rt rd : Reg) (amount : BitVec 5) (funct : Nat) : Option (Option Instr) :=
  if 4 ≤ funct ∧ funct < 8 then do return (Operation.ofCode? (← sub funct 4)).map (.shiftVar · rd rt rs)
  else some (Instr.ofFunct? rs rt rd amount funct)

def select (opcode : Nat) (rs rt rd : Reg) (amount : BitVec 5) (funct : Nat) (value offset upper : Half)
    (index : BitVec 26) : Option (Option Instr) :=
  open Operation in
  if opcode = 0x00 then ofFunct rs rt rd amount funct
  else if opcode = 0x01 then
    if rt.number = 0 then some (some (.zero .bltz rs offset))
    else if rt.number = 1 then some (some (.zero .bgez rs offset))
    else some none
  else if opcode = 0x06 then some (some (.zero .blez rs offset))
  else if opcode = 0x07 then some (some (.zero .bgtz rs offset))
  else if opcode = 0x0F then some (some (.lui rt upper))
  else some ((ofCode? opcode).map (Instr.jump · index)
    <|> (ofCode? opcode).map (Instr.compare · rs rt offset)
    <|> (ofCode? opcode).map (Instr.imm · rt rs value)
    <|> (ofCode? opcode).map (Instr.mem · rt rs offset))

def immediate (w : Word) : Half := (w &&& 0xFFFF).setWidth 16

def decode (w : Word) : Option (Option Instr) := do
  select (← shr w 26).toNat (← field w 21) (← field w 16) (← field w 11)
    (← truncate .unsigned 5 (← shr w 6)) (w &&& 0x3F).toNat (immediate w)
    (← truncate .signed 16 ((immediate w).signExtend 32))
    (← truncate .unsigned 16 ((immediate w).setWidth 32))
    (← truncate .unsigned 26 w)

theorem field_eq (w : Word) {k : Nat} (h : k < 32) : field w k = some ⟨w.extractLsb' k 5⟩ := by
  have hm : ((w >>> k) &&& 0x1F).toNat = (w.extractLsb' k 5).toNat := by
    rw [BitVec.toNat_and, BitVec.extractLsb'_toNat, BitVec.toNat_ushiftRight]
    exact Nat.and_two_pow_sub_one_eq_mod _ 5
  rw [field, shr_eq w h, some_bind, hm, Reg.ofNumber?, if_pos (w.extractLsb' k 5).isLt, BitVec.ofNat_toNat,
    BitVec.setWidth_eq]

theorem ofFunct_eq (rs rt rd : Reg) (amount : BitVec 5) (funct : Nat) :
    ofFunct rs rt rd amount funct = some (Instr.ofFunct? rs rt rd amount funct) := by
  unfold ofFunct
  split
  · rename_i h
    rw [sub_eq h.1, Instr.ofFunct?, if_neg (by omega), if_neg (by omega), if_neg (by omega), if_pos h]
    rfl
  · rfl

theorem decode_eq (w : Word) : decode w = some (Instr.decode? w) := by
  have hopcode : (w >>> 26).toNat = (w.extractLsb' 26 6).toNat := by
    rw [BitVec.extractLsb'_toNat, BitVec.toNat_ushiftRight, Nat.shiftRight_eq_div_pow, Nat.mod_eq_of_lt]
    omega
  have hfunct : (w &&& 0x3F).toNat = (w.extractLsb' 0 6).toNat := by
    rw [BitVec.toNat_and, BitVec.extractLsb'_toNat]
    exact Nat.and_two_pow_sub_one_eq_mod _ 6
  have hvalue : immediate w = w.extractLsb' 0 16 := by
    apply BitVec.eq_of_toNat_eq
    have hm : w.toNat &&& 0xFFFF = w.toNat % 0x10000 := Nat.and_two_pow_sub_one_eq_mod _ 16
    rw [immediate, BitVec.toNat_setWidth, BitVec.toNat_and, BitVec.extractLsb'_toNat]
    exact (congrArg (· % 0x10000) hm).trans (Nat.mod_mod _ _)
  have hindex : w.setWidth 26 = w.extractLsb' 0 26 := BitVec.setWidth_eq_extractLsb' (by decide)
  simp (disch := decide) only [decode, shr_eq, field_eq, truncate_eq, some_bind, setWidth_signExtend,
    BitVec.setWidth_setWidth_of_le, BitVec.setWidth_eq, BitVec.setWidth_ushiftRight_eq_extractLsb, hopcode, hfunct,
    hvalue, hindex]
  rw [Instr.decode?, select, ofFunct_eq]
  split_ifs <;> rfl

end Decode

section Names

def registers : Instr → List Reg
  | .alu _ rd rs rt => [rd, rs, rt]
  | .shift _ rd rt _ => [rd, rt]
  | .shiftVar _ rd rt rs => [rd, rt, rs]
  | .imm _ rt rs _ => [rt, rs]
  | .lui rt _ => [rt]
  | .mem _ rt base _ => [rt, base]
  | .compare _ rs rt _ => [rs, rt]
  | .zero _ rs _ => [rs]
  | .jump _ _ => []
  | .jr rs => [rs]
  | .jalr rd rs => [rd, rs]
  | .hiLo _ reg => [reg]
  | .mulDiv _ rs rt => [rs, rt]
  | .syscall => []

def names (i : Instr) : Option (List String) := (registers i).mapM name

theorem names_eq (i : Instr) : names i = some ((registers i).map Reg.name) := mapM_some fun r _ => name_eq r

end Names

end MipsMachine.Checked
