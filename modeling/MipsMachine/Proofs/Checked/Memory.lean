import MipsMachine.Proofs.Checked.Arithmetic
import MipsMachine.Proofs.Memory.Reads

namespace MipsMachine.Checked

section Bytes

def page (addr : Word) : Option (BitVec 20) := do return (← shr addr 12).setWidth 20

def place (addr : Word) : Nat := addr.toNat &&& 0xFFF

def getByte (m : Memory) (addr : Word) : Option Byte := do
  match m.pages[← page addr]? with
  | none => return 0
  | some bytes => bytes[place addr]?

def setByte (m : Memory) (addr : Word) (value : Byte) : Option Memory := do
  let page ← page addr
  if h : place addr < 4096 then
    return ⟨m.pages.alter page fun bytes => some ((bytes.getD Page.blank).set (place addr) value h)⟩
  else none

def setLocated (m : Memory) (bytes : List (Word × Byte)) : Option Memory :=
  bytes.foldlM (fun m b => setByte m b.1 b.2) m

def setWord (m : Memory) (addr value : Word) : Option Memory := setLocated m (located 1 addr value.bytes)

theorem page_eq (addr : Word) : page addr = some (Memory.pageOf addr) := by
  rw [page, shr_eq addr (by decide), Memory.pageOf, ← BitVec.setWidth_ushiftRight_eq_extractLsb]
  rfl

theorem place_eq (addr : Word) : place addr = (Memory.offsetOf addr).toNat := by
  rw [Memory.offsetOf, BitVec.extractLsb'_toNat]
  exact Nat.and_two_pow_sub_one_eq_mod _ 12

theorem getByte_eq (m : Memory) (addr : Word) : getByte m addr = some (m.getByte addr) := by
  rw [getByte, page_eq, some_bind, Memory.getByte]
  cases m.pages[Memory.pageOf addr]? with
  | none => rfl
  | some bytes =>
    dsimp only
    rw [place_eq]
    exact Vector.getElem?_eq_getElem (Memory.offsetOf addr).isLt

theorem setByte_eq (m : Memory) (addr : Word) (value : Byte) :
    setByte m addr value = some (m.setByte addr value) := by
  rw [setByte, page_eq, some_bind, dif_pos (by rw [place_eq]; exact (Memory.offsetOf addr).isLt)]
  simp only [place_eq]
  rfl

theorem foldl_located (m : Memory) (addr : Word) (bytes : List Byte) :
    (located 1 addr bytes).foldl (fun m b => m.setByte b.1 b.2) m = m.setBytes addr bytes := by
  induction bytes generalizing m addr with
  | nil => rfl
  | cons b bytes ih => exact ih (m.setByte addr b) (addr + 1)

theorem setLocated_eq (m : Memory) (bytes : List (Word × Byte)) :
    setLocated m bytes = some (bytes.foldl (fun m b => m.setByte b.1 b.2) m) :=
  foldlM_some (fun b _ m => setByte_eq m b.1 b.2) m

theorem setLocated_located (m : Memory) (addr : Word) (bytes : List Byte) :
    setLocated m (located 1 addr bytes) = some (m.setBytes addr bytes) := by
  rw [setLocated_eq, foldl_located]

theorem setWord_eq (m : Memory) (addr value : Word) : setWord m addr value = some (m.setWord addr value) :=
  setLocated_located m addr value.bytes

end Bytes

section Accesses

def checkAccess (addr : Word) (width : Width) : Attempt ExecError Unit := do
  if (← remainder addr.toNat width.size) ≠ 0 then throw (.misalignedAccess addr)
  else if (Segment.of? addr).isSome then return ()
  else throw (.accessViolation addr)

def load (m : Memory) (addr : Word) (size : Nat) : Option Word :=
  (List.range size).foldlM (fun acc i => do
    let b ← getByte m (← add addr i)
    return (← shl acc 8) ||| b.setWidth 32) 0

def read (m : Memory) (addr : Word) (width : Width) : Attempt ExecError Word := do
  checkAccess addr width
  liftM (load m addr width.size)

def store (m : Memory) (addr : Word) (size : Nat) (value : Word) : Option Memory :=
  (List.range size).foldlM (fun m i => do
    let amount := 8 * (← sub (← sub size 1) i)
    setByte m (← add addr i) ((← shr value amount).setWidth 8)) m

def write (m : Memory) (addr : Word) (width : Width) (value : Word) : Attempt ExecError Memory := do
  checkAccess addr width
  liftM (store m addr width.size value)

theorem checkAccess_eq (addr : Word) (width : Width) :
    checkAccess addr width = total (Memory.checkAccess addr width) := by
  have hr : remainder addr.toNat width.size = some (addr.toNat % width.size) :=
    remainder_eq _ (by cases width <;> decide)
  rw [checkAccess, lift_eq hr, ok_bind, Memory.checkAccess]
  split
  · rfl
  · split <;> rfl

theorem range_byte : List.range Width.byte.size = [0] := rfl

theorem range_half : List.range Width.half.size = [0, 1] := rfl

theorem range_word : List.range Width.word.size = [0, 1, 2, 3] := rfl

theorem load_eq {m : Memory} {addr : Word} {width : Width} (h : addr.toNat + width.size ≤ 0x100000000) :
    load m addr width.size = some (m.load addr width) := by
  have hfold : load m addr width.size = some ((List.range width.size).foldl
      (fun (acc : Word) i => acc <<< 8 ||| (m.getByte (addr + BitVec.ofNat 32 i)).setWidth 32) 0) := by
    apply foldlM_some
    intro i hi acc
    rw [List.mem_range] at hi
    rw [add_eq (by omega), some_bind, getByte_eq, some_bind, shl_eq acc (by decide)]
    rfl
  have hzero : addr + BitVec.ofNat 32 0 = addr := BitVec.add_zero addr
  have hfirst (b : Byte) : (0 : Word) <<< 8 ||| b.setWidth 32 = b.setWidth 32 := BitVec.zero_or
  rw [hfold]
  cases width with
  | byte =>
    simp only [range_byte, List.foldl_cons, List.foldl_nil, hzero, hfirst]
    rfl
  | half =>
    simp only [range_half, List.foldl_cons, List.foldl_nil, hzero, hfirst, shl_or]
    rfl
  | word =>
    simp only [range_word, List.foldl_cons, List.foldl_nil, hzero, hfirst, shl_or]
    exact congrArg some (BitVec.setWidth_eq _)

theorem read_eq (m : Memory) (addr : Word) (width : Width) : read m addr width = total (m.read addr width) := by
  rw [read, checkAccess_eq]
  refine total_bind fun _ hc => ?_
  have hend := Memory.end_of_checkAccess hc
  exact lift_eq (load_eq (Nat.le_trans hend (by decide)))

theorem foldl_setByte (m : Memory) (addr value : Word) (width : Width) :
    (List.range width.size).foldl (fun (m : Memory) i => m.setByte (addr + BitVec.ofNat 32 i)
      ((value >>> (8 * (width.size - 1 - i))).setWidth 8)) m = m.setBytes addr (width.bytes value) := by
  have hzero : addr + BitVec.ofNat 32 0 = addr := BitVec.add_zero addr
  have htwo : addr + 1 + 1 = addr + BitVec.ofNat 32 2 := BitVec.add_assoc addr 1 1
  have hthree : addr + BitVec.ofNat 32 2 + 1 = addr + BitVec.ofNat 32 3 := BitVec.add_assoc addr 2 1
  have hlow (k : Nat) (hk : k + 8 ≤ 16) : (value.extractLsb' 0 16).extractLsb' k 8 = value.extractLsb' k 8 := by
    rw [BitVec.extractLsb'_extractLsb'_of_le hk]
  cases width with
  | byte =>
    simp only [range_byte, List.foldl_cons, List.foldl_nil, hzero, BitVec.setWidth_ushiftRight_eq_extractLsb]
    rfl
  | half =>
    simp only [range_half, List.foldl_cons, List.foldl_nil, hzero, BitVec.setWidth_ushiftRight_eq_extractLsb,
      Width.bytes, Half.bytes, hlow 8 (by decide), hlow 0 (by decide)]
    rfl
  | word =>
    simp only [range_word, List.foldl_cons, List.foldl_nil, hzero, BitVec.setWidth_ushiftRight_eq_extractLsb,
      Width.bytes, Word.bytes, Memory.setBytes, htwo, hthree]
    rfl

theorem store_eq {m : Memory} {addr value : Word} {width : Width} (h : addr.toNat + width.size ≤ 0x100000000) :
    store m addr width.size value = some (m.setBytes addr (width.bytes value)) := by
  have hsize : 1 ≤ width.size ∧ width.size ≤ 4 := by cases width <;> decide
  rw [← foldl_setByte]
  apply foldlM_some
  intro i hi m
  rw [List.mem_range] at hi
  rw [sub_eq hsize.1, some_bind, sub_eq (by omega), some_bind, add_eq (by omega), some_bind,
    shr_eq value (by omega), some_bind, setByte_eq]

theorem write_eq (m : Memory) (addr : Word) (width : Width) (value : Word) :
    write m addr width value = total (m.write addr width value) := by
  rw [write, checkAccess_eq]
  refine total_bind fun _ hc => ?_
  have hend := Memory.end_of_checkAccess hc
  exact lift_eq (store_eq (Nat.le_trans hend (by decide)))

end Accesses

end MipsMachine.Checked
