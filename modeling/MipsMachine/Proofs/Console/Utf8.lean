import MipsMachine.Console.Integer
import Mathlib.Tactic.Common

namespace MipsMachine

section Encode

theorem utf8_eq (s : String) : utf8 s = (s.toList.flatMap String.utf8EncodeChar).map UInt8.toBitVec := by
  rw [utf8, String.toUTF8_eq_toByteArray, ← String.utf8Encode_toList, List.utf8Encode]
  simp

theorem toNat_of_mem_utf8EncodeChar {c : Char} {b : UInt8} (hb : b ∈ String.utf8EncodeChar c)
    (h : b.toNat < 0x80) : c.toNat = b.toNat := by
  have hbig {n : Nat} (hlow : 0x80 ≤ n) (hhigh : n < 0x100) : b ≠ UInt8.ofNat n := by
    rintro rfl
    rw [UInt8.toNat_ofNat'] at h
    omega
  unfold String.utf8EncodeChar at hb
  simp only at hb
  -- a character of several bytes has none that is small
  split at hb
  · obtain rfl := List.mem_singleton.mp hb
    rw [UInt8.toNat_ofNat']
    exact (Nat.mod_eq_of_lt (show c.val.toNat < 0x100 by omega)).symm
  · exfalso
    split at hb
    · simp only [List.mem_cons, List.not_mem_nil, or_false] at hb
      rcases hb with hb | hb <;> exact hbig (by omega) (by omega) hb
    · split at hb
      · simp only [List.mem_cons, List.not_mem_nil, or_false] at hb
        rcases hb with hb | hb | hb <;> exact hbig (by omega) (by omega) hb
      · simp only [List.mem_cons, List.not_mem_nil, or_false] at hb
        rcases hb with hb | hb | hb | hb <;> exact hbig (by omega) (by omega) hb

theorem mem_of_mem_utf8 {s : String} {b : Byte} (hb : b ∈ utf8 s) (h : b.toNat < 0x80) :
    Char.ofNat b.toNat ∈ s.toList := by
  rw [utf8_eq, List.mem_map] at hb
  obtain ⟨u, hu, rfl⟩ := hb
  obtain ⟨c, hc, hu⟩ := List.mem_flatMap.mp hu
  have hn : c.toNat = u.toNat := toNat_of_mem_utf8EncodeChar hu h
  rw [UInt8.toNat_toBitVec, ← hn, Char.ofNat_toNat]
  exact hc

theorem zero_not_mem_utf8 {s : String} (h : '\x00' ∉ s.toList) : 0 ∉ utf8 s :=
  fun hb => h (mem_of_mem_utf8 hb (by decide))

end Encode

section Decode

theorem fromUTF8?_eq_some_iff {bytes : ByteArray} {s : String} :
    String.fromUTF8? bytes = some s ↔ s.toUTF8 = bytes := by
  unfold String.fromUTF8?
  constructor
  · intro h
    split at h
    case isTrue hv => exact Option.some.inj h ▸ rfl
    case isFalse => cases h
  · rintro rfl
    exact dif_pos s.isValidUTF8

theorem utf8_eq_iff {s : String} {line : List Byte} :
    utf8 s = line ↔ s.toUTF8 = ⟨(line.map UInt8.ofBitVec).toArray⟩ := by
  have hright (bytes : List UInt8) : (bytes.map UInt8.toBitVec).map UInt8.ofBitVec = bytes := by
    rw [List.map_map]
    exact List.map_id bytes
  have hleft (bytes : List Byte) : (bytes.map UInt8.ofBitVec).map UInt8.toBitVec = bytes := by
    rw [List.map_map]
    exact List.map_id bytes
  constructor
  · rintro rfl
    rw [utf8, hright]
  · intro h
    rw [utf8, h]
    exact hleft line

theorem Console.decode?_eq_some_iff {line : List Byte} {cs : List Char} :
    decode? line = some cs ↔ utf8 (String.ofList cs) = line := by
  rw [decode?, Option.map_eq_some_iff, utf8_eq_iff]
  constructor
  · rintro ⟨s, hs, rfl⟩
    rw [String.ofList_toList]
    exact fromUTF8?_eq_some_iff.mp hs
  · intro h
    exact ⟨String.ofList cs, fromUTF8?_eq_some_iff.mpr h, String.toList_ofList⟩

end Decode

end MipsMachine
