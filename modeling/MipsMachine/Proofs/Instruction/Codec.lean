import MipsMachine.Instruction

namespace MipsMachine.Instr

theorem fields_registerWord (rs rt rd : Reg) (amount : BitVec 5) (funct : BitVec 6) :
    (registerWord rs rt rd amount funct).extractLsb' 26 6 = 0 ∧
    (registerWord rs rt rd amount funct).extractLsb' 21 5 = rs.number ∧
    (registerWord rs rt rd amount funct).extractLsb' 16 5 = rt.number ∧
    (registerWord rs rt rd amount funct).extractLsb' 11 5 = rd.number ∧
    (registerWord rs rt rd amount funct).extractLsb' 6 5 = amount ∧
    (registerWord rs rt rd amount funct).extractLsb' 0 6 = funct := by
  refine ⟨?_, ?_, ?_, ?_, ?_, ?_⟩ <;>
  · apply BitVec.eq_of_getLsbD_eq
    intro i hi
    simp only [registerWord, BitVec.getLsbD_extractLsb', BitVec.getLsbD_append]
    grind

theorem fields_immediateWord (opcode : BitVec 6) (rs : Reg) (rt : BitVec 5) (value : Half) :
    (immediateWord opcode rs rt value).extractLsb' 26 6 = opcode ∧
    (immediateWord opcode rs rt value).extractLsb' 21 5 = rs.number ∧
    (immediateWord opcode rs rt value).extractLsb' 16 5 = rt ∧
    (immediateWord opcode rs rt value).extractLsb' 0 16 = value := by
  refine ⟨?_, ?_, ?_, ?_⟩ <;>
  · apply BitVec.eq_of_getLsbD_eq
    intro i hi
    simp only [immediateWord, BitVec.getLsbD_extractLsb', BitVec.getLsbD_append]
    grind

theorem fields_jumpWord (opcode : BitVec 6) (target : BitVec 26) :
    (opcode ++ target : Word).extractLsb' 26 6 = opcode ∧
    (opcode ++ target : Word).extractLsb' 0 26 = target :=
  ⟨BitVec.extractLsb'_append_eq_left, BitVec.extractLsb'_append_eq_right⟩

theorem decode?_registerWord (rs rt rd : Reg) (amount : BitVec 5) (funct : BitVec 6) :
    decode? (registerWord rs rt rd amount funct) = ofFunct? rs rt rd amount funct.toNat := by
  simp only [decode?, fields_registerWord]
  rfl

theorem decode?_encode (i : Instr) : decode? i.encode = some i := by
  cases i with
  | alu op rd rs rt => cases op <;> exact decode?_registerWord ..
  | shift op rd rt amount => cases op <;> exact decode?_registerWord ..
  | shiftVar op rd rt rs => cases op <;> exact decode?_registerWord ..
  | jr rs => exact decode?_registerWord ..
  | jalr rd rs => exact decode?_registerWord ..
  | hiLo op reg => cases op <;> exact decode?_registerWord ..
  | mulDiv op rs rt => cases op <;> exact decode?_registerWord ..
  | syscall => exact decode?_registerWord ..
  | imm op rt rs value => cases op <;> simp only [encode, decode?, fields_immediateWord] <;> rfl
  | lui rt value =>
    simp only [encode, decode?, fields_immediateWord]
    rfl
  | mem op rt base offset => cases op <;> simp only [encode, decode?, fields_immediateWord] <;> rfl
  | compare op rs rt offset => cases op <;> simp only [encode, decode?, fields_immediateWord] <;> rfl
  | zero op rs offset => cases op <;> simp only [encode, decode?, fields_immediateWord] <;> rfl
  | jump op target => cases op <;> simp only [encode, decode?, fields_jumpWord] <;> rfl

end MipsMachine.Instr
