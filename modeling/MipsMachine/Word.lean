namespace MipsMachine

abbrev Byte := BitVec 8
abbrev Half := BitVec 16
abbrev Word := BitVec 32

def utf8 (s : String) : List Byte := s.toUTF8.data.toList.map UInt8.toBitVec

def hexDigits (n : Nat) : String := String.ofList (Nat.toDigits 16 n)

namespace Half

def bytes (h : Half) : List Byte := [h.extractLsb' 8 8, h.extractLsb' 0 8]

end Half

namespace Word

def bytes (w : Word) : List Byte :=
  [w.extractLsb' 24 8, w.extractLsb' 16 8, w.extractLsb' 8 8, w.extractLsb' 0 8]

def ofBytes (a b c d : Byte) : Word := a ++ b ++ c ++ d

def hex (w : Word) : String :=
  "0x" ++ String.ofList ((Nat.toDigits 16 w.toNat).leftpad 8 '0')

theorem ofBytes_bytes (w : Word) :
    ofBytes (w.extractLsb' 24 8) (w.extractLsb' 16 8) (w.extractLsb' 8 8) (w.extractLsb' 0 8) = w := by
  unfold ofBytes
  ext i hi
  simp only [BitVec.getElem_append, BitVec.getElem_extractLsb']
  split
  · simp_all
  split
  · simp only [BitVec.getLsbD_eq_getElem (show 8 + (i - 8) < 32 by omega)]
    congr 1
    omega
  split
  · simp only [BitVec.getLsbD_eq_getElem (show 16 + (i - 8 - 8) < 32 by omega)]
    congr 1
    omega
  · simp only [BitVec.getLsbD_eq_getElem (show 24 + (i - 8 - 8 - 8) < 32 by omega)]
    congr 1
    omega

end Word

end MipsMachine
