import MipsMachine.Proofs.Memory.Reads

namespace MipsMachine.Machine

structure IsBuffer (start : Word) (size : Nat) : Prop where
  bound : start.toNat + (size - 1) < 0x100000000
  segment : ∃ s : Segment, s.Contains start ∧ s.Contains (start + BitVec.ofNat 32 (size - 1))

inductive RefusesBuffer (start : Word) (size : Nat) : Word → Prop
  | overflow (h : 0x100000000 ≤ start.toNat + (size - 1)) : RefusesBuffer start size start
  | first (h : start.toNat + (size - 1) < 0x100000000) (hs : ∀ s : Segment, ¬ s.Contains start) :
    RefusesBuffer start size start
  | last {s : Segment} (h : start.toNat + (size - 1) < 0x100000000) (hs : s.Contains start)
      (ht : ∀ t : Segment, ¬ t.Contains (start + BitVec.ofNat 32 (size - 1))) :
    RefusesBuffer start size (start + BitVec.ofNat 32 (size - 1))
  | apart {s t : Segment} (h : start.toNat + (size - 1) < 0x100000000) (hs : s.Contains start)
      (ht : t.Contains (start + BitVec.ofNat 32 (size - 1))) (hne : s ≠ t) :
    RefusesBuffer start size (start + BitVec.ofNat 32 (size - 1))

section Buffer

variable {start a : Word} {size : Nat}

theorem isBuffer_or_refuses (start : Word) (size : Nat) :
    IsBuffer start size ∨ ∃ a, RefusesBuffer start size a := by
  by_cases h : start.toNat + (size - 1) < 0x100000000
  · by_cases hs : ∃ s : Segment, s.Contains start
    · obtain ⟨s, hs⟩ := hs
      by_cases ht : ∃ t : Segment, t.Contains (start + BitVec.ofNat 32 (size - 1))
      · obtain ⟨t, ht⟩ := ht
        by_cases he : s = t
        · exact .inl ⟨h, s, hs, he ▸ ht⟩
        · exact .inr ⟨_, .apart h hs ht he⟩
      · exact .inr ⟨_, .last h hs fun t hc => ht ⟨t, hc⟩⟩
    · exact .inr ⟨_, .first h fun s hc => hs ⟨s, hc⟩⟩
  · exact .inr ⟨_, .overflow (Nat.not_lt.mp h)⟩

theorem lastOfBuffer_of_isBuffer (h : IsBuffer start size) :
    lastOfBuffer start size = .ok (start + BitVec.ofNat 32 (size - 1)) := by
  obtain ⟨s, hs, ht⟩ := h.segment
  have he : Segment.of? start = Segment.of? (start + BitVec.ofNat 32 (size - 1)) :=
    (Segment.of?_eq_some_iff.mpr hs).trans (Segment.of?_eq_some_iff.mpr ht).symm
  rw [lastOfBuffer, if_neg (Nat.not_le.mpr h.bound), Memory.checkByte_of_contains hs]
  dsimp only
  rw [Memory.checkByte_of_contains ht]
  exact if_neg (not_not_intro he)

theorem lastOfBuffer_of_refuses (h : RefusesBuffer start size a) :
    lastOfBuffer start size = .error (.accessViolation a) := by
  unfold lastOfBuffer
  cases h with
  | overflow h =>
    rw [if_pos h]
    rfl
  | first h hs =>
    rw [if_neg (Nat.not_le.mpr h), Memory.checkByte_outside hs]
    rfl
  | last h hs ht =>
    rw [if_neg (Nat.not_le.mpr h), Memory.checkByte_of_contains hs]
    dsimp only
    rw [Memory.checkByte_outside ht]
    rfl
  | @apart s t h hs ht hne =>
    have he : Segment.of? start ≠ Segment.of? (start + BitVec.ofNat 32 (size - 1)) := by
      rw [Segment.of?_eq_some_iff.mpr hs, Segment.of?_eq_some_iff.mpr ht]
      exact fun h => hne (Option.some.inj h)
    rw [if_neg (Nat.not_le.mpr h), Memory.checkByte_of_contains hs]
    dsimp only
    rw [Memory.checkByte_of_contains ht]
    exact if_pos he

theorem IsBuffer.not_refuses (h : IsBuffer start size) : ¬ RefusesBuffer start size a := by
  intro hr
  have he := (lastOfBuffer_of_isBuffer h).symm.trans (lastOfBuffer_of_refuses hr)
  cases he

theorem isBuffer_of_lastOfBuffer {last : Word} (h : lastOfBuffer start size = .ok last) : IsBuffer start size := by
  rcases isBuffer_or_refuses start size with hb | ⟨a, hr⟩
  · exact hb
  · rw [lastOfBuffer_of_refuses hr] at h
    cases h

theorem lastOfBuffer_error {e : ExecError} (h : lastOfBuffer start size = .error e) :
    ∃ a, e = .accessViolation a := by
  rcases isBuffer_or_refuses start size with hb | ⟨a, hr⟩
  · rw [lastOfBuffer_of_isBuffer hb] at h
    cases h
  · rw [lastOfBuffer_of_refuses hr] at h
    cases h
    exact ⟨a, rfl⟩

theorem IsBuffer.contains (h : IsBuffer start size) :
    ∃ s : Segment, ∀ a : Word, start ≤ a → a.toNat ≤ start.toNat + (size - 1) → s.Contains a := by
  obtain ⟨s, hs, ht⟩ := h.segment
  have hlast := Word.toNat_add_ofNat start (size - 1) h.bound
  have hstop : (start + BitVec.ofNat 32 (size - 1)).toNat < s.stop.toNat := ht.2
  exact ⟨s, fun a hle hge => ⟨BitVec.le_trans hs.1 hle, BitVec.lt_def.mpr (by omega)⟩⟩

theorem IsBuffer.stop_le (h : IsBuffer start size) : start.toNat + (size - 1) < Segment.stack.stop.toNat := by
  obtain ⟨s, -, ht⟩ := h.segment
  have hstop : (start + BitVec.ofNat 32 (size - 1)).toNat < s.stop.toNat := ht.2
  rw [Word.toNat_add_ofNat start (size - 1) h.bound] at hstop
  exact Nat.lt_of_lt_of_le hstop s.stop_le

end Buffer

end MipsMachine.Machine
