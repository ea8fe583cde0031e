import MipsMachine.Execution.Error
import Std.Data.HashMap

/-!
Memory over the whole 32-bit address space. Bytes are held in pages, which exist once a byte of
theirs has been written, and `getByte` shows them as a map from addresses in which everything
starts at zero. Multi-byte values are big-endian.
-/

namespace MipsMachine

abbrev Page := Vector Byte 4096

def Page.blank : Page := Vector.replicate 4096 0

structure Memory where
  pages : Std.HashMap (BitVec 20) Page

inductive Width where
  | byte
  | half
  | word
deriving DecidableEq

namespace Width

def size : Width → Nat
  | byte => 1
  | half => 2
  | word => 4

def name : Width → String
  | byte => "byte"
  | half => "half"
  | word => "word"

def bytes (w : Width) (value : Word) : List Byte :=
  match w with
  | byte => [value.extractLsb' 0 8]
  | half => Half.bytes (value.extractLsb' 0 16)
  | word => value.bytes

end Width

namespace Memory

def empty : Memory := ⟨∅⟩

def pageOf (addr : Word) : BitVec 20 := addr.extractLsb' 12 20

def offsetOf (addr : Word) : BitVec 12 := addr.extractLsb' 0 12

def getByte (m : Memory) (addr : Word) : Byte :=
  match m.pages[pageOf addr]? with
  | none => 0
  | some page => page.get (offsetOf addr).toFin

def setByte (m : Memory) (addr : Word) (value : Byte) : Memory :=
  ⟨m.pages.alter (pageOf addr) fun page =>
    some ((page.getD Page.blank).set (offsetOf addr).toNat value (offsetOf addr).isLt)⟩

/-- Writes bytes at an address and the ones after it, starting over at zero past the last address. -/
def setBytes (m : Memory) (addr : Word) : List Byte → Memory
  | [] => m
  | b :: bs => (m.setByte addr b).setBytes (addr + 1) bs

def getWord (m : Memory) (addr : Word) : Word :=
  Word.ofBytes (m.getByte addr) (m.getByte (addr + 1)) (m.getByte (addr + 2)) (m.getByte (addr + 3))

def setWord (m : Memory) (addr : Word) (value : Word) : Memory := m.setBytes addr value.bytes

def bytes (m : Memory) (addr : Word) : Nat → List Byte
  | 0 => []
  | n + 1 => m.getByte addr :: m.bytes (addr + 1) n

def words (m : Memory) (addr : Word) : Nat → List Word
  | 0 => []
  | n + 1 => m.getWord addr :: m.words (addr + 4) n

def load (m : Memory) (addr : Word) : Width → Word
  | .byte => (m.getByte addr).setWidth 32
  | .half => (m.getByte addr ++ m.getByte (addr + 1)).setWidth 32
  | .word => m.getWord addr

/--
Refuses an address that is no multiple of the width or outside the segments. An aligned access
stays within the segment of its first byte, since all bounds of segments are multiples of four.
-/
def checkAccess (addr : Word) (width : Width) : Except ExecError Unit :=
  if addr.toNat % width.size ≠ 0 then .error (.misalignedAccess addr)
  else if (Segment.of? addr).isSome then .ok ()
  else .error (.accessViolation addr)

def read (m : Memory) (addr : Word) (width : Width) : Except ExecError Word := do
  checkAccess addr width
  return m.load addr width

def write (m : Memory) (addr : Word) (width : Width) (value : Word) : Except ExecError Memory := do
  checkAccess addr width
  return m.setBytes addr (width.bytes value)

theorem getByte_empty (addr : Word) : empty.getByte addr = 0 := by
  simp [getByte, empty]

theorem eq_of_pageOf_offsetOf {a b : Word} (hp : pageOf a = pageOf b) (ho : offsetOf a = offsetOf b) :
    a = b := by
  unfold pageOf at hp
  unfold offsetOf at ho
  apply BitVec.eq_of_getLsbD_eq
  intro i hi
  by_cases h : i < 12
  · have := congrArg (·.getLsbD i) ho
    simpa [BitVec.getLsbD_extractLsb', h] using this
  · have := congrArg (·.getLsbD (i - 12)) hp
    simpa [BitVec.getLsbD_extractLsb', show i - 12 < 20 by omega, show 12 + (i - 12) = i by omega] using this

theorem getByte_setByte (m : Memory) (a b : Word) (v : Byte) :
    (m.setByte a v).getByte b = if b = a then v else m.getByte b := by
  unfold getByte setByte
  by_cases hb : b = a
  · subst hb
    simp only [Std.HashMap.getElem?_alter, beq_self_eq_true, ↓reduceIte]
    exact Vector.getElem_set_self (offsetOf b).isLt
  · by_cases hp : pageOf a = pageOf b
    · have ho : offsetOf a ≠ offsetOf b := fun h => hb (eq_of_pageOf_offsetOf hp h).symm
      have hn : (offsetOf a).toNat ≠ (offsetOf b).toNat := fun h => ho (BitVec.eq_of_toNat_eq h)
      simp only [Std.HashMap.getElem?_alter, hp, beq_self_eq_true, ↓reduceIte, hb]
      cases h : m.pages[pageOf b]? with
      | none =>
        simp only [Option.getD_none]
        exact (Vector.getElem_set_ne (offsetOf a).isLt (offsetOf b).isLt hn).trans (by simp [Page.blank])
      | some page => exact Vector.getElem_set_ne (offsetOf a).isLt (offsetOf b).isLt hn
    · simp [Std.HashMap.getElem?_alter, hp, hb]

theorem getByte_setBytes (m : Memory) (a b : Word) (vs : List Byte) (h : vs.length ≤ 0x100000000) :
    (m.setBytes a vs).getByte b = (vs[(b - a).toNat]?).getD (m.getByte b) := by
  induction vs generalizing m a with
  | nil => simp [setBytes]
  | cons v vs ih =>
    simp only [List.length_cons] at h
    rw [setBytes, ih _ _ (by omega), getByte_setByte]
    by_cases hb : b = a
    · subst hb
      have hn : (b - (b + 1)).toNat = 0xFFFFFFFF := by
        rw [show b - (b + 1) = -1#32 by grind]
        rfl
      rw [hn, List.getElem?_eq_none (by omega)]
      simp
    · have hs : (b - a).toNat = (b - (a + 1)).toNat + 1 := by
        have hne : b.toNat ≠ a.toNat := fun e => hb (BitVec.eq_of_toNat_eq e)
        simp only [BitVec.toNat_sub, BitVec.toNat_add, BitVec.ofNat_eq_ofNat, BitVec.toNat_ofNat]
        omega
      simp [hs, hb]

end Memory

end MipsMachine
