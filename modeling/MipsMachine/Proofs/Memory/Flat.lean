import MipsMachine.Proofs.Memory.Reads
import Mathlib.Logic.Function.Basic
import Mathlib.Tactic.Ring

/-!
Memory against a plain map from addresses to bytes. Pages, the two ways to write and the two ways to read
are not to be seen in any answer: numbers are read and written in base 256, the highest digit first.
-/

namespace MipsMachine

inductive MemoryOp where
  | setByte (addr : Word) (value : Byte)
  | setWord (addr value : Word)
  | write (addr : Word) (width : Width) (value : Word)
  | clear

def bigEndian : List Byte → Nat
  | [] => 0
  | b :: bs => b.toNat * 256 ^ bs.length + bigEndian bs

def lowBytes (v : Nat) : Nat → List Byte
  | 0 => []
  | n + 1 => BitVec.ofNat 8 (v / 256 ^ n) :: lowBytes v n

def Width.Permits (width : Width) (addr : Word) : Prop :=
  addr.toNat % width.size = 0 ∧ Segment.text.start ≤ addr ∧ addr < Segment.stack.stop

instance (width : Width) (addr : Word) : Decidable (width.Permits addr) :=
  inferInstanceAs (Decidable (_ ∧ _ ∧ _))

abbrev ByteMap := Word → Byte

namespace ByteMap

def blank : ByteMap := fun _ => 0

def store (f : ByteMap) (addr : Word) : List Byte → ByteMap
  | [] => f
  | b :: bs => store (Function.update f addr b) (addr + 1) bs

def act (f : ByteMap) : MemoryOp → ByteMap
  | .setByte addr value => Function.update f addr value
  | .setWord addr value => f.store addr (lowBytes value.toNat 4)
  | .write addr width value =>
    if width.Permits addr then f.store addr (lowBytes value.toNat width.size) else f
  | .clear => blank

def replay (ops : List MemoryOp) : ByteMap := ops.foldl act blank

def range (f : ByteMap) (addr : Word) (n : Nat) : List Byte :=
  (List.range n).map fun i => f (addr + BitVec.ofNat 32 i)

end ByteMap

section Digits

theorem bigEndian_lt (bs : List Byte) : bigEndian bs < 256 ^ bs.length := by
  induction bs with
  | nil => simp [bigEndian]
  | cons b bs ih =>
    have hb : b.toNat + 1 ≤ 256 := b.isLt
    have hm := Nat.mul_le_mul_right (256 ^ bs.length) hb
    rw [Nat.add_mul, Nat.one_mul] at hm
    rw [bigEndian, List.length_cons, Nat.pow_succ, Nat.mul_comm (256 ^ bs.length)]
    omega

theorem lowBytes_bigEndian (k : Nat) (bs : List Byte) :
    lowBytes (k * 256 ^ bs.length + bigEndian bs) bs.length = bs := by
  induction bs generalizing k with
  | nil => rfl
  | cons b bs ih =>
    have hp : 0 < 256 ^ bs.length := Nat.pow_pos (by decide)
    have hv : k * 256 ^ (bs.length + 1) + (b.toNat * 256 ^ bs.length + bigEndian bs) =
        (k * 256 + b.toNat) * 256 ^ bs.length + bigEndian bs := by ring
    have hd : ((k * 256 + b.toNat) * 256 ^ bs.length + bigEndian bs) / 256 ^ bs.length =
        k * 256 + b.toNat := by
      rw [Nat.mul_comm, Nat.mul_add_div hp, Nat.div_eq_of_lt (bigEndian_lt bs), Nat.add_zero]
    have hb : BitVec.ofNat 8 (k * 256 + b.toNat) = b := by
      have hlt := b.isLt
      apply BitVec.eq_of_toNat_eq
      rw [BitVec.toNat_ofNat]
      omega
    rw [bigEndian, List.length_cons, hv, lowBytes, hd, hb, ih]

theorem length_lowBytes (v n : Nat) : (lowBytes v n).length = n := by
  induction n with
  | zero => rfl
  | succ n ih => rw [lowBytes, List.length_cons, ih]

theorem bigEndian_lowBytes (v n : Nat) : bigEndian (lowBytes v n) = v % 256 ^ n := by
  induction n with
  | zero => rw [Nat.pow_zero, Nat.mod_one]; rfl
  | succ n ih =>
    rw [lowBytes, bigEndian, ih, length_lowBytes, BitVec.toNat_ofNat, Nat.mod_pow_succ (b := 256), Nat.mul_comm,
      Nat.add_comm]

theorem toNat_append_byte {n : Nat} (x : BitVec n) (b : Byte) : (x ++ b).toNat = x.toNat * 256 + b.toNat := by
  rw [BitVec.toNat_append, ← Nat.shiftLeft_add_eq_or_of_lt b.isLt, Nat.shiftLeft_eq]

theorem extractLsb'_eq_ofNat (v : Word) (k : Nat) :
    v.extractLsb' (8 * k) 8 = BitVec.ofNat 8 (v.toNat / 256 ^ k) := by
  apply BitVec.eq_of_toNat_eq
  rw [BitVec.extractLsb'_toNat, Nat.shiftRight_eq_div_pow, Nat.pow_mul, BitVec.toNat_ofNat]

end Digits

namespace Width

theorem size_le (width : Width) : width.size ≤ 4 := by
  cases width <;> decide

theorem bytes_eq (width : Width) (v : Word) : width.bytes v = lowBytes v.toNat width.size := by
  have hlow (k : Nat) (hk : 8 * k + 8 ≤ 16) :
      (v.extractLsb' 0 16).extractLsb' (8 * k) 8 = v.extractLsb' (8 * k) 8 := by
    rw [BitVec.extractLsb'_extractLsb'_of_le hk]
  cases width with
  | byte =>
    change [v.extractLsb' (8 * 0) 8] = _
    rw [extractLsb'_eq_ofNat]
    rfl
  | half =>
    change [(v.extractLsb' 0 16).extractLsb' (8 * 1) 8, (v.extractLsb' 0 16).extractLsb' (8 * 0) 8] = _
    rw [hlow 1 (by omega), hlow 0 (by omega), extractLsb'_eq_ofNat, extractLsb'_eq_ofNat]
    rfl
  | word =>
    change [v.extractLsb' (8 * 3) 8, v.extractLsb' (8 * 2) 8, v.extractLsb' (8 * 1) 8,
      v.extractLsb' (8 * 0) 8] = _
    simp only [extractLsb'_eq_ofNat]
    rfl

end Width

namespace ByteMap

variable (f : ByteMap) (addr : Word)

theorem getElem?_range {n i : Nat} (hi : i < n) :
    (f.range addr n)[i]? = some (f (addr + BitVec.ofNat 32 i)) := by
  simp [range, hi]

theorem range_congr {f g : ByteMap} {addr : Word} {n : Nat}
    (h : ∀ i < n, f (addr + BitVec.ofNat 32 i) = g (addr + BitVec.ofNat 32 i)) :
    f.range addr n = g.range addr n := by
  apply List.map_congr_left
  intro i hi
  exact h i (List.mem_range.mp hi)

theorem length_range (n : Nat) : (f.range addr n).length = n := by
  simp [range]

end ByteMap

theorem Memory.bytes_eq_range (m : Memory) (addr : Word) (n : Nat) :
    m.bytes addr n = ByteMap.range m.getByte addr n := by
  induction n generalizing addr with
  | zero => rfl
  | succ n ih =>
    rw [Memory.bytes, ih, ByteMap.range, ByteMap.range, List.range_succ_eq_map, List.map_cons, List.map_map,
      BitVec.add_zero]
    congr 1
    apply List.map_congr_left
    intro i _
    exact congrArg m.getByte (addr.add_ofNat_succ i).symm

namespace Memory

def act (m : Memory) : MemoryOp → Memory
  | .setByte addr value => m.setByte addr value
  | .setWord addr value => m.setWord addr value
  | .write addr width value => (m.write addr width value).toOption.getD m
  | .clear => .empty

def replay (ops : List MemoryOp) : Memory := ops.foldl act empty

structure Written (m n : Memory) (addr : Word) (width : Width) (v : Word) : Prop where
  bytes : ∀ i < width.size,
    some (n.getByte (addr + BitVec.ofNat 32 i)) = (lowBytes v.toNat width.size)[i]?
  others : ∀ a, (∀ i < width.size, a ≠ addr + BitVec.ofNat 32 i) → n.getByte a = m.getByte a
  overlapping : ∀ a w u, n.read a w = .ok u → ∀ i < w.size, ∀ j < width.size,
    a + BitVec.ofNat 32 i = addr + BitVec.ofNat 32 j →
      (lowBytes u.toNat w.size)[i]? = (lowBytes v.toNat width.size)[j]?
  disjoint : ∀ a w,
    (∀ i < w.size, ∀ j < width.size, a + BitVec.ofNat 32 i ≠ addr + BitVec.ofNat 32 j) →
      n.read a w = m.read a w

/-- The memory gives every answer that the map gives, and what is written to it next will be seen. -/
structure Refines (m : Memory) (f : ByteMap) : Prop where
  getByte : ∀ addr, m.getByte addr = f addr
  getWord : ∀ addr, (m.getWord addr).toNat = bigEndian (f.range addr 4)
  read : ∀ addr width v, m.read addr width = .ok v ↔
    width.Permits addr ∧ v.toNat = bigEndian (f.range addr width.size)
  read_word : ∀ addr v, m.read addr .word = .ok v → v = m.getWord addr
  write : ∀ addr (width : Width) v,
    if width.Permits addr then ∃ n, m.write addr width v = .ok n ∧ m.Written n addr width v
    else ∃ e, m.write addr width v = .error e

variable {m n : Memory} {addr : Word} {width : Width} {v : Word}

section Access

theorem segment_iff : (Segment.of? addr).isSome ↔ Segment.text.start ≤ addr ∧ addr < Segment.stack.stop := by
  simp [Segment.of?, Segment.all, Segment.Contains, Segment.start, Segment.stop, BitVec.le_def,
    BitVec.lt_def]
  omega

theorem checkAccess_eq_ok_iff : checkAccess addr width = .ok () ↔ width.Permits addr := by
  unfold checkAccess Width.Permits
  rw [← segment_iff]
  by_cases ha : addr.toNat % width.size = 0
  · by_cases hs : (Segment.of? addr).isSome = true <;> simp [ha, hs]
  · simp [ha]

theorem read_eq_ok_iff : m.read addr width = .ok v ↔ width.Permits addr ∧ v = m.load addr width := by
  rw [← checkAccess_eq_ok_iff]
  constructor
  · exact checkAccess_of_read
  · rintro ⟨hc, rfl⟩
    rw [read, hc]
    rfl

theorem write_permitted (h : width.Permits addr) (v : Word) :
    m.write addr width v = .ok (m.setBytes addr (lowBytes v.toNat width.size)) := by
  rw [write, checkAccess_eq_ok_iff.mpr h, width.bytes_eq]
  rfl

theorem exists_write_error (h : ¬ width.Permits addr) (v : Word) : ∃ e, m.write addr width v = .error e := by
  rw [← checkAccess_eq_ok_iff] at h
  unfold write
  cases hc : checkAccess addr width with
  | ok u => exact absurd hc h
  | error e => exact ⟨e, rfl⟩

end Access

section Numbers

theorem toNat_getWord (m : Memory) (addr : Word) :
    (m.getWord addr).toNat = bigEndian (ByteMap.range m.getByte addr 4) := by
  unfold getWord Word.ofBytes
  simp only [toNat_append_byte]
  simp [ByteMap.range, List.range_succ, bigEndian]
  omega

theorem toNat_load (m : Memory) (addr : Word) (width : Width) :
    (m.load addr width).toNat = bigEndian (ByteMap.range m.getByte addr width.size) := by
  cases width with
  | byte =>
    have hlt := (m.getByte addr).isLt
    simp [load, ByteMap.range, Width.size, bigEndian]
    omega
  | half =>
    have hlt := (m.getByte addr ++ m.getByte (addr + 1)).isLt
    rw [load, BitVec.toNat_setWidth, Nat.mod_eq_of_lt (by omega), toNat_append_byte]
    simp [ByteMap.range, Width.size, List.range_succ, bigEndian]
  | word => exact m.toNat_getWord addr

theorem lowBytes_of_read (h : m.read addr width = .ok v) :
    lowBytes v.toNat width.size = ByteMap.range m.getByte addr width.size := by
  obtain ⟨-, rfl⟩ := read_eq_ok_iff.mp h
  have hb := lowBytes_bigEndian 0 (ByteMap.range m.getByte addr width.size)
  rw [ByteMap.length_range, Nat.zero_mul, Nat.zero_add] at hb
  rw [toNat_load, hb]

end Numbers

section Store

theorem getByte_setBytes_eq_store (m : Memory) (addr : Word) (bs : List Byte) :
    (m.setBytes addr bs).getByte = ByteMap.store m.getByte addr bs := by
  induction bs generalizing m addr with
  | nil => rfl
  | cons b bs ih =>
    have hs : (m.setByte addr b).getByte = Function.update m.getByte addr b := by
      funext a
      rw [getByte_setByte, Function.update_apply]
    rw [setBytes, ByteMap.store, ih, hs]

theorem written_setBytes (m : Memory) (addr : Word) (width : Width) (v : Word) :
    m.Written (m.setBytes addr (lowBytes v.toNat width.size)) addr width v := by
  have hsize := width.size_le
  have hlen := length_lowBytes v.toNat width.size
  have hbytes : ∀ i < width.size,
      some ((m.setBytes addr (lowBytes v.toNat width.size)).getByte (addr + BitVec.ofNat 32 i)) =
        (lowBytes v.toNat width.size)[i]? := by
    intro i hi
    have hn : (addr + BitVec.ofNat 32 i - addr).toNat = i := by
      rw [BitVec.add_comm, BitVec.add_sub_cancel, BitVec.toNat_ofNat]
      omega
    rw [getByte_setBytes _ _ _ _ (by omega), hn, List.getElem?_eq_getElem (by omega), Option.getD_some]
  have hothers : ∀ a, (∀ i < width.size, a ≠ addr + BitVec.ofNat 32 i) →
      (m.setBytes addr (lowBytes v.toNat width.size)).getByte a = m.getByte a := by
    intro a ha
    rw [getByte_setBytes _ _ _ _ (by omega), List.getElem?_eq_none, Option.getD_none]
    by_contra hlt
    apply ha (a - addr).toNat (by omega)
    rw [BitVec.ofNat_toNat, BitVec.setWidth_eq, BitVec.add_comm, BitVec.sub_add_cancel]
  refine ⟨hbytes, hothers, ?_, ?_⟩
  · intro a w u hu i hi j hj he
    rw [lowBytes_of_read hu, ByteMap.getElem?_range _ _ hi, he, hbytes j hj]
  · intro a w hd
    have hload : (m.setBytes addr (lowBytes v.toNat width.size)).load a w = m.load a w := by
      apply BitVec.eq_of_toNat_eq
      rw [toNat_load, toNat_load, ByteMap.range_congr]
      intro i hi
      exact hothers _ (hd i hi)
    rw [read, read, hload]

end Store

namespace Refines

variable {f : ByteMap}

theorem of_getByte (h : m.getByte = f) : m.Refines f where
  getByte := congrFun h
  getWord addr := h ▸ m.toNat_getWord addr
  read addr width v := by
    rw [read_eq_ok_iff, ← h, ← toNat_load, BitVec.toNat_inj]
  read_word addr v hv := (read_eq_ok_iff.mp hv).2
  write addr width v := by
    split
    case isTrue hp => exact ⟨_, write_permitted hp v, m.written_setBytes addr width v⟩
    case isFalse hp => exact exists_write_error hp v

end Refines

theorem getByte_act (m : Memory) (op : MemoryOp) : (m.act op).getByte = ByteMap.act m.getByte op := by
  cases op with
  | setByte addr value =>
    funext a
    rw [act, getByte_setByte, ByteMap.act, Function.update_apply]
  | setWord addr value =>
    rw [act, setWord, getByte_setBytes_eq_store, show value.bytes = _ from Width.word.bytes_eq value]
    rfl
  | write addr width value =>
    by_cases hp : width.Permits addr
    · rw [act, write_permitted hp, ByteMap.act, if_pos hp, ← getByte_setBytes_eq_store]
      rfl
    · obtain ⟨e, he⟩ := exists_write_error (m := m) hp value
      rw [act, he, ByteMap.act, if_neg hp]
      rfl
  | clear => exact funext getByte_empty

theorem getByte_foldl (m : Memory) (ops : List MemoryOp) :
    (ops.foldl act m).getByte = ops.foldl ByteMap.act m.getByte := by
  induction ops generalizing m with
  | nil => rfl
  | cons op ops ih => rw [List.foldl_cons, List.foldl_cons, ih, getByte_act]

theorem refines_byteMap (ops : List MemoryOp) : (replay ops).Refines (ByteMap.replay ops) := by
  apply Refines.of_getByte
  rw [replay, getByte_foldl, ByteMap.replay, show empty.getByte = ByteMap.blank from funext getByte_empty]

end Memory

end MipsMachine
