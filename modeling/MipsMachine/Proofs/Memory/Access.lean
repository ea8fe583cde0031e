import MipsMachine.Proofs.Checked.Memory
import MipsMachine.Proofs.Execution.Stepping
import MipsMachine.Proofs.Memory.Flat

namespace MipsMachine

section Verdict

def Width.Aligns (width : Width) (addr : Word) : Prop := width.size ∣ addr.toNat

def Segment.Encloses (s : Segment) (addr : Word) (width : Width) : Prop :=
  ∀ i < width.size, s.start.toNat ≤ addr.toNat + i ∧ addr.toNat + i < s.stop.toNat

structure Width.Decides {α : Type} (width : Width) (addr : Word) (result : Except ExecError α) : Prop where
  ok : (∃ a, result = .ok a) ↔ width.Aligns addr ∧ ∃ s : Segment, s.Encloses addr width
  misaligned : result = .error (.misalignedAccess addr) ↔ ¬ width.Aligns addr
  violation : result = .error (.accessViolation addr) ↔
    width.Aligns addr ∧ ¬ ∃ s : Segment, s.Encloses addr width

variable {addr : Word} {width : Width}

theorem exists_encloses_iff (h : width.Aligns addr) :
    (∃ s : Segment, s.Encloses addr width) ↔ (Segment.of? addr).isSome := by
  rw [Segment.isSome_of?_iff]
  constructor
  · rintro ⟨s, hs⟩
    exact ⟨s, hs 0 (by cases width <;> decide)⟩
  · rintro ⟨s, hc⟩
    have hstart : s.start.toNat ≤ addr.toNat := hc.1
    have hend := hc.end_le (Nat.mod_eq_zero_of_dvd h)
    exact ⟨s, fun i hi => ⟨by omega, by omega⟩⟩

theorem Width.Decides.map {α β : Type} {result : Except ExecError α} (h : width.Decides addr result)
    (f : α → β) : width.Decides addr (result.map f) := by
  have hok : (∃ b, result.map f = .ok b) ↔ ∃ a, result = .ok a := by
    cases result <;> simp [Except.map]
  have herror (e : ExecError) : result.map f = .error e ↔ result = .error e := by
    cases result <;> simp [Except.map]
  exact ⟨hok.trans h.ok, (herror _).trans h.misaligned, (herror _).trans h.violation⟩

theorem decides_checkAccess (addr : Word) (width : Width) :
    width.Decides addr (Memory.checkAccess addr width) := by
  unfold Memory.checkAccess
  by_cases ha : width.Aligns addr
  · rw [if_neg (not_not_intro (Nat.mod_eq_zero_of_dvd ha))]
    by_cases hs : (Segment.of? addr).isSome = true
    · rw [if_pos hs]
      have hs := (exists_encloses_iff ha).mpr hs
      exact ⟨by simp [ha, hs], by simp [ha], by simp [hs]⟩
    · rw [if_neg hs]
      have hs := (exists_encloses_iff ha).not.mpr hs
      exact ⟨by simp [hs], by simp [ha], by simp [ha, hs]⟩
  · rw [if_pos fun h => ha (Nat.dvd_of_mod_eq_zero h)]
    exact ⟨by simp [ha], by simp [ha], by simp [ha]⟩

end Verdict

namespace Memory

def writeInPlace (addr : Word) (width : Width) (value : Word) : EStateM ExecError Memory Unit := do
  match checkAccess addr width with
  | .error e => throw e
  | .ok () =>
    (List.range width.size).forM fun i => modify fun m =>
      m.setByte (addr + BitVec.ofNat 32 i) ((value >>> (8 * (width.size - 1 - i))).setWidth 8)

structure WritesInPlace (m : Memory) (addr : Word) (width : Width) (value : Word) : Prop where
  ok : ∀ n, writeInPlace addr width value m = .ok () n ↔ m.write addr width value = .ok n
  error : ∀ e n, writeInPlace addr width value m = .error e n ↔ m.write addr width value = .error e ∧ n = m

variable (m : Memory) (addr : Word) (width : Width) (value : Word)

theorem forM_modify {α : Type} (f : Memory → α → Memory) (as : List α) :
    (as.forM fun a => modify fun m => f m a : EStateM ExecError Memory Unit) m = .ok () (as.foldl f m) := by
  induction as generalizing m with
  | nil => rfl
  | cons a as ih => exact ih (f m a)

theorem writeInPlace_eq : writeInPlace addr width value m =
    match m.write addr width value with
    | .ok n => .ok () n
    | .error e => .error e m := by
  unfold writeInPlace write
  cases checkAccess addr width with
  | error e => rfl
  | ok u => exact (forM_modify m _ _).trans (congrArg _ (Checked.foldl_setByte m addr value width))

theorem writesInPlace : m.WritesInPlace addr width value := by
  have h := writeInPlace_eq m addr width value
  cases hw : m.write addr width value with
  | ok n =>
    rw [hw] at h
    exact ⟨by simp [h, hw], by simp [h, hw]⟩
  | error e =>
    rw [hw] at h
    exact ⟨by simp [h, hw], by simp [h, hw, eq_comm]⟩

end Memory

namespace Machine

structure FetchesAligned (m : Machine) : Prop where
  misaligned : m.fetch = .error (.misalignedAccess m.pc) ↔ ¬ Width.word.Aligns m.pc
  aligned : Width.word.Aligns m.pc → m.fetch = Instr.decode (m.memory.getWord m.pc)

/--
Whatever the machine does with memory at an address is refused, or not, as the address and the width say. A
fetch is refused before that if a pending reference covers the PC.
-/
structure AccessExact (m : Machine) (addr : Word) (width : Width) : Prop where
  check : width.Decides addr (Memory.checkAccess addr width)
  read : width.Decides addr (m.memory.read addr width)
  write : ∀ value, width.Decides addr (m.memory.write addr width value)
  inPlace : ∀ value, m.memory.WritesInPlace addr width value
  pending : m.symbols.hasUnresolved = true → ∀ f, m.symbols.fixupAt m.pc = some f →
    m.fetch = .error (.unresolvedFixup f.label)
  fetch : Segment.text.Contains m.pc → (m.symbols.hasUnresolved = true → m.symbols.fixupAt m.pc = none) →
    m.FetchesAligned
  breakpoint : ∀ test, (Breakpoint.mem addr width test).check m = true ↔
    (width.Aligns addr ∧ ∃ s : Segment, s.Encloses addr width) ∧ test.check (m.memory.load addr width) = true

variable {m : Machine}

theorem fetchesAligned (ht : Segment.text.Contains m.pc)
    (hs : m.symbols.hasUnresolved = true → m.symbols.fixupAt m.pc = none) : m.FetchesAligned := by
  have hseg : Segment.of? m.pc = some .text := Segment.of?_eq_some_iff.mpr ht
  have hfetch : m.fetch = m.memory.read m.pc .word >>= Instr.decode := by
    rw [fetch_settled hs, if_neg (not_not_intro hseg)]
  by_cases ha : Width.word.Aligns m.pc
  · have hread : m.memory.read m.pc .word = .ok (m.memory.getWord m.pc) := by
      rw [Memory.read, Memory.checkAccess, if_neg (not_not_intro (Nat.mod_eq_zero_of_dvd ha)), hseg]
      rfl
    rw [hread] at hfetch
    refine ⟨⟨fun h => ?_, fun h => (h ha).elim⟩, fun _ => hfetch⟩
    -- the only failure that decoding knows is of the word
    rw [h] at hfetch
    change _ = Instr.decode _ at hfetch
    unfold Instr.decode at hfetch
    split at hfetch <;> cases hfetch
  · have hread : m.memory.read m.pc .word = .error (.misalignedAccess m.pc) := by
      rw [Memory.read, (decides_checkAccess m.pc .word).misaligned.mpr ha]
      rfl
    rw [hread] at hfetch
    exact ⟨⟨fun _ => ha, fun _ => hfetch⟩, fun h => (ha h).elim⟩

theorem check_mem_iff (m : Machine) (addr : Word) (width : Width) (test : Comparator) :
    (Breakpoint.mem addr width test).check m = true ↔
      (width.Aligns addr ∧ ∃ s : Segment, s.Encloses addr width) ∧
        test.check (m.memory.load addr width) = true := by
  rw [← (decides_checkAccess addr width).ok, Breakpoint.check, Memory.read]
  cases Memory.checkAccess addr width with
  | ok u => simp [bind, Except.bind, pure, Except.pure]
  | error e => simp [bind, Except.bind]

theorem accessExact (m : Machine) (addr : Word) (width : Width) : m.AccessExact addr width where
  check := decides_checkAccess addr width
  read := (decides_checkAccess addr width).map fun _ => m.memory.load addr width
  write value := (decides_checkAccess addr width).map fun _ => m.memory.setBytes addr (width.bytes value)
  inPlace value := m.memory.writesInPlace addr width value
  pending hu _ hf := fetch_covered hu hf
  fetch ht hs := fetchesAligned ht hs
  breakpoint test := m.check_mem_iff addr width test

end Machine

end MipsMachine
