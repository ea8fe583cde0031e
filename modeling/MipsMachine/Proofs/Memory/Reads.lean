import MipsMachine.Execution.Syscall
import MipsMachine.Proofs.Memory.Stores

namespace MipsMachine

namespace Segment

theorem contains_of_eq_some {a : Word} {s : Segment} (h : of? a = some s) : s.Contains a := by
  simpa using List.find?_some h

theorem eq_or_apart (s t : Segment) :
    s = t ∨ s.stop.toNat ≤ t.start.toNat ∨ t.stop.toNat ≤ s.start.toNat := by
  cases s <;> cases t <;> decide

theorem Contains.unique {a : Word} {s t : Segment} (hs : s.Contains a) (ht : t.Contains a) : s = t := by
  have hs : s.start.toNat ≤ a.toNat ∧ a.toNat < s.stop.toNat := hs
  have ht : t.start.toNat ≤ a.toNat ∧ a.toNat < t.stop.toNat := ht
  rcases s.eq_or_apart t with h | h | h
  · exact h
  · omega
  · omega

theorem isSome_of?_iff {a : Word} : (of? a).isSome ↔ ∃ s : Segment, s.Contains a := by
  have hall (s : Segment) : s ∈ all := by
    cases s <;> decide
  simp [of?, hall]

theorem of?_eq_some_iff {a : Word} {s : Segment} : of? a = some s ↔ s.Contains a := by
  refine ⟨contains_of_eq_some, fun h => ?_⟩
  obtain ⟨t, ht⟩ := Option.isSome_iff_exists.mp (isSome_of?_iff.mpr ⟨s, h⟩)
  rw [ht, (contains_of_eq_some ht).unique h]

theorem stop_le (s : Segment) : s.stop.toNat ≤ Segment.stack.stop.toNat := by
  cases s <;> decide

theorem stop_mod_four (s : Segment) : s.stop.toNat % 4 = 0 := by
  cases s <;> decide

theorem Contains.end_le {s : Segment} {a : Word} {width : Width} (h : s.Contains a)
    (hal : a.toNat % width.size = 0) : a.toNat + width.size ≤ s.stop.toNat := by
  have hlt : a.toNat < s.stop.toNat := h.2
  have hfour := s.stop_mod_four
  cases width <;> simp only [Width.size] at hal ⊢ <;> omega

end Segment

theorem Width.length_bytes (width : Width) (v : Word) : (width.bytes v).length = width.size := by
  cases width <;> rfl

namespace Memory

variable {m n : Memory} {addr : Word} {width : Width}

theorem checkAccess_ok (h : checkAccess addr width = .ok ()) :
    addr.toNat % width.size = 0 ∧ ∃ s, Segment.of? addr = some s := by
  unfold checkAccess at h
  split at h
  · cases h
  · rename_i hal
    split at h
    · exact ⟨Decidable.not_not.mp hal, Option.isSome_iff_exists.mp ‹_›⟩
    · cases h

theorem checkAccess_error {e : ExecError} (h : checkAccess addr width = .error e) :
    e = .misalignedAccess addr ∨ e = .accessViolation addr := by
  unfold checkAccess at h
  split at h
  · cases h
    exact .inl rfl
  · split at h
    · cases h
    · cases h
      exact .inr rfl

theorem checkByte_of_contains {s : Segment} (h : s.Contains addr) : checkAccess addr .byte = .ok () := by
  have hal : addr.toNat % Width.byte.size = 0 := Nat.mod_one _
  rw [checkAccess, if_neg (not_not_intro hal), if_pos (Segment.isSome_of?_iff.mpr ⟨s, h⟩)]

theorem checkByte_outside (h : ∀ s : Segment, ¬ s.Contains addr) :
    checkAccess addr .byte = .error (.accessViolation addr) := by
  have hal : addr.toNat % Width.byte.size = 0 := Nat.mod_one _
  have hseg : ¬ (Segment.of? addr).isSome = true := fun hs => (Segment.isSome_of?_iff.mp hs).elim h
  rw [checkAccess, if_neg (not_not_intro hal), if_neg hseg]

theorem end_of_checkAccess (h : checkAccess addr width = .ok ()) :
    addr.toNat + width.size ≤ Segment.stack.stop.toNat := by
  obtain ⟨hal, s, hs⟩ := checkAccess_ok h
  exact Nat.le_trans ((Segment.contains_of_eq_some hs).end_le hal) s.stop_le

theorem checkAccess_of_read {v : Word} (h : m.read addr width = .ok v) :
    checkAccess addr width = .ok () ∧ v = m.load addr width := by
  unfold read at h
  cases hc : checkAccess addr width with
  | error e => rw [hc] at h; cases h
  | ok u => rw [hc] at h; cases h; exact ⟨rfl, rfl⟩

theorem read_error {e : ExecError} (h : m.read addr width = .error e) : checkAccess addr width = .error e := by
  unfold read at h
  cases hc : checkAccess addr width with
  | error d => rw [hc] at h; cases h; rfl
  | ok u => rw [hc] at h; cases h

theorem load_congr (ha : addr.toNat + width.size ≤ 0x100000000)
    (h : ∀ b : Word, addr.toNat ≤ b.toNat → b.toNat < addr.toNat + width.size → n.getByte b = m.getByte b) :
    n.load addr width = m.load addr width := by
  cases width with
  | byte => exact congrArg (·.setWidth 32) (h addr (Nat.le_refl _) (Nat.lt_succ_self _))
  | half =>
    have hn : (addr + 1).toNat = addr.toNat + 1 := Word.toNat_add_ofNat addr 1 ha
    have hlow := h addr (Nat.le_refl _) (Nat.lt_add_of_pos_right Nat.two_pos)
    have hhigh := h (addr + 1) (by omega) (by rw [hn]; exact Nat.lt_succ_self _)
    rw [load, load, hlow, hhigh]
  | word => exact getWord_congr h ha

theorem read_congr {v : Word} (hv : m.read addr width = .ok v)
    (h : ∀ b : Word, addr.toNat ≤ b.toNat → b.toNat < addr.toNat + width.size → n.getByte b = m.getByte b) :
    n.read addr width = .ok v := by
  obtain ⟨hc, rfl⟩ := checkAccess_of_read hv
  have hend := end_of_checkAccess hc
  rw [read, hc, ← load_congr (Nat.le_trans hend (by decide)) h]
  rfl

theorem stringWithin_congr {fuel : Nat} {data : List Byte} (hs : m.stringWithin fuel addr = some (.ok data))
    (h : ∀ b : Word, addr.toNat ≤ b.toNat → b.toNat ≤ addr.toNat + data.length → n.getByte b = m.getByte b) :
    n.stringWithin fuel addr = some (.ok data) := by
  induction fuel generalizing addr data with
  | zero => cases hs
  | succ fuel ih =>
    rw [stringWithin] at hs ⊢
    cases hr : m.read addr .byte with
    | error e => rw [hr] at hs; cases hs
    | ok v =>
      have hend : addr.toNat + 1 ≤ Segment.stack.stop.toNat := end_of_checkAccess (checkAccess_of_read hr).1
      have hread : n.read addr .byte = .ok v := by
        apply read_congr hr
        intro b hle hlt
        exact h b hle (Nat.le_trans (Nat.le_of_lt_succ hlt) (Nat.le_add_right _ _))
      rw [hr] at hs
      rw [hread]
      by_cases hv : v = 0
      · simpa only [hv, if_true] using hs
      · simp only [hv, if_false] at hs ⊢
        obtain ⟨r, hr', hd⟩ := Option.map_eq_some_iff.mp hs
        cases r with
        | error e => cases hd
        | ok rest =>
          cases hd
          have hn : (addr + 1).toNat = addr.toNat + 1 :=
            Word.toNat_add_ofNat addr 1 (Nat.lt_of_le_of_lt hend (by decide))
          rw [ih hr' (fun b hle hlt => h b (by omega) (by rw [List.length_cons]; omega))]
          rfl

theorem string_congr {data : List Byte} (hs : m.string addr = .ok data)
    (h : ∀ b : Word, addr.toNat ≤ b.toNat → b.toNat ≤ addr.toNat + data.length → n.getByte b = m.getByte b) :
    n.string addr = .ok data := by
  unfold string at hs ⊢
  cases hw : m.stringWithin (Segment.stack.stop.toNat - addr.toNat + 1) addr with
  | none =>
    simp only [hw] at hs
    cases hs
  | some r =>
    simp only [hw, Option.getD_some] at hs
    subst hs
    simp only [stringWithin_congr hw h, Option.getD_some]

end Memory

end MipsMachine
