import MipsMachine.Execution.Syscall
import MipsMachine.Proofs.Memory.Flat
import Mathlib.Order.Basic

/-!
Strings in memory that a zero byte ends. The loop that looks for the zero has no bound of its own: it is the
end of the stack segment, where reading fails, that stops it. Bounds between segments do not, since they
adjoin each other.
-/

namespace MipsMachine

structure Scan where
  addr : Word
  found : List Byte

namespace Scan

def iterate (m : Memory) (s : Scan) : Scan ⊕ Except ExecError (List Byte) :=
  match m.read s.addr .byte with
  | .error e => .inr (.error e)
  | .ok v =>
    let b : Byte := v.setWidth 8
    if b = 0 then .inr (.ok s.found) else .inl ⟨s.addr + 1, s.found ++ [b]⟩

inductive Ends (m : Memory) : Scan → Nat → Except ExecError (List Byte) → Prop
  | last {s : Scan} {r : Except ExecError (List Byte)} (h : s.iterate m = .inr r) : Ends m s 1 r
  | next {s t : Scan} {n : Nat} {r : Except ExecError (List Byte)} (h : s.iterate m = .inl t)
      (rest : Ends m t n r) : Ends m s (n + 1) r

end Scan

theorem Segment.Contains.bounds {s : Segment} {a : Word} (h : s.Contains a) :
    Segment.text.start.toNat ≤ a.toNat ∧ a.toNat < Segment.stack.stop.toNat :=
  Memory.segment_iff.mp (Segment.isSome_of?_iff.mpr ⟨s, h⟩)

namespace Memory

structure FirstZero (m : Memory) (a b : Word) : Prop where
  start : a ≤ b
  stop : b < Segment.stack.stop
  zero : m.getByte b = 0
  least : ∀ c, a ≤ c → c < b → m.getByte c ≠ 0

variable {m : Memory} {a b : Word}

theorem exists_firstZero (h : ∃ b, a ≤ b ∧ b < Segment.stack.stop ∧ m.getByte b = 0) :
    ∃ b, m.FirstZero a b := by
  classical
  have hn : ∃ n, ∃ b : Word, b.toNat = n ∧ a ≤ b ∧ b < Segment.stack.stop ∧ m.getByte b = 0 :=
    let ⟨b, hb⟩ := h
    ⟨b.toNat, b, rfl, hb⟩
  obtain ⟨b, hfind, hab, hstop, hzero⟩ := Nat.find_spec hn
  refine ⟨b, hab, hstop, hzero, fun c hac hcb hc => ?_⟩
  have hlt : c.toNat < b.toNat := hcb
  exact Nat.find_min hn (hfind ▸ hlt) ⟨c, rfl, hac, BitVec.lt_trans hcb hstop, hc⟩

theorem read_byte (hstart : Segment.text.start.toNat ≤ a.toNat) (hstop : a.toNat < Segment.stack.stop.toNat) :
    m.read a .byte = .ok ((m.getByte a).setWidth 32) :=
  read_eq_ok_iff.mpr ⟨⟨Nat.mod_one _, hstart, hstop⟩, rfl⟩

theorem read_byte_outside (h : ∀ s : Segment, ¬ s.Contains a) : m.read a .byte = .error (.accessViolation a) := by
  rw [read, checkByte_outside h]
  rfl

end Memory

namespace Scan

variable {m : Memory} {a b : Word} {found : List Byte} {s : Scan} {n : Nat} {r : Except ExecError (List Byte)}

theorem iterate_eq (hstart : Segment.text.start.toNat ≤ a.toNat) (hstop : a.toNat < Segment.stack.stop.toNat) :
    iterate m ⟨a, found⟩ =
      if m.getByte a = 0 then .inr (.ok found) else .inl ⟨a + 1, found ++ [m.getByte a]⟩ := by
  have hb : ((m.getByte a).setWidth 32).setWidth 8 = m.getByte a := by simp
  rw [iterate, Memory.read_byte hstart hstop]
  simp only [hb]

theorem ends_outside (h : ∀ s : Segment, ¬ s.Contains a) (found : List Byte) :
    Ends m ⟨a, found⟩ 1 (.error (.accessViolation a)) := by
  apply Ends.last
  rw [iterate, Memory.read_byte_outside h]

theorem Ends.after {k : Nat} (hstart : Segment.text.start.toNat ≤ a.toNat)
    (hstop : a.toNat + k ≤ Segment.stack.stop.toNat) (hne : ∀ i < k, m.getByte (a + BitVec.ofNat 32 i) ≠ 0)
    (h : Ends m ⟨a + BitVec.ofNat 32 k, found ++ m.bytes a k⟩ n r) : Ends m ⟨a, found⟩ (n + k) r := by
  have hlimit : Segment.stack.stop.toNat < 0x100000000 := Segment.stack.stop.isLt
  induction k generalizing a found with
  | zero => simpa [Memory.bytes] using h
  | succ k ih =>
    have hn : (a + 1).toNat = a.toNat + 1 := Word.toNat_add_ofNat a 1 (by omega)
    have hfirst : m.getByte a ≠ 0 := by simpa using hne 0 (Nat.succ_pos k)
    refine .next (t := ⟨a + 1, found ++ [m.getByte a]⟩) ?_ (ih (by omega) (by omega) ?_ ?_)
    · rw [iterate_eq hstart (by omega), if_neg hfirst]
    · intro i hi
      rw [← Word.add_ofNat_succ]
      exact hne (i + 1) (by omega)
    · rwa [← Word.add_ofNat_succ, List.append_assoc]

theorem Ends.reaching (hstart : Segment.text.start.toNat ≤ a.toNat) (hab : a ≤ b) (hb : b ≤ Segment.stack.stop)
    (hne : ∀ c, a ≤ c → c < b → m.getByte c ≠ 0) (h : Ends m ⟨b, m.bytes a (b.toNat - a.toNat)⟩ n r) :
    Ends m ⟨a, []⟩ (n + (b.toNat - a.toNat)) r := by
  have hab : a.toNat ≤ b.toNat := hab
  have hb : b.toNat ≤ Segment.stack.stop.toNat := hb
  have hlimit : Segment.stack.stop.toNat < 0x100000000 := Segment.stack.stop.isLt
  have hat (i : Nat) (hi : i ≤ b.toNat - a.toNat) : (a + BitVec.ofNat 32 i).toNat = a.toNat + i :=
    Word.toNat_add_ofNat a i (by omega)
  apply Ends.after hstart (by omega)
  · intro i hi
    have hn := hat i (by omega)
    exact hne _ (BitVec.le_def.mpr (by omega)) (BitVec.lt_def.mpr (by omega))
  · have hreach : a + BitVec.ofNat 32 (b.toNat - a.toNat) = b := BitVec.eq_of_toNat_eq (by rw [hat _ le_rfl]; omega)
    rwa [hreach]

theorem ends_of_firstZero (hstart : Segment.text.start.toNat ≤ a.toNat) (h : m.FirstZero a b) :
    Ends m ⟨a, []⟩ (1 + (b.toNat - a.toNat)) (.ok (m.bytes a (b.toNat - a.toNat))) := by
  refine .reaching hstart h.start (BitVec.le_of_lt h.stop) h.least (.last ?_)
  rw [iterate_eq (Nat.le_trans hstart h.start) h.stop, if_pos h.zero]

theorem ends_of_no_zero (hstart : Segment.text.start.toNat ≤ a.toNat) (hstop : a ≤ Segment.stack.stop)
    (h : ∀ b, a ≤ b → b < Segment.stack.stop → m.getByte b ≠ 0) :
    Ends m ⟨a, []⟩ (1 + (Segment.stack.stop.toNat - a.toNat)) (.error (.accessViolation Segment.stack.stop)) := by
  have hout : ∀ s : Segment, ¬ s.Contains Segment.stack.stop := by
    intro s
    cases s <;> decide
  exact .reaching hstart hstop (BitVec.le_refl _) h (ends_outside hout _)

theorem stringWithin_succ (m : Memory) (fuel : Nat) (s : Scan) :
    (m.stringWithin (fuel + 1) s.addr).map (·.map (s.found ++ ·)) =
      match s.iterate m with
      | .inr r => some r
      | .inl t => (m.stringWithin fuel t.addr).map (·.map (t.found ++ ·)) := by
  rw [Memory.stringWithin, iterate]
  cases hr : m.read s.addr .byte with
  | error e => rfl
  | ok v =>
    obtain ⟨-, rfl⟩ := Memory.read_eq_ok_iff.mp hr
    have hb : ((m.getByte s.addr).setWidth 32).setWidth 8 = m.getByte s.addr := by simp
    have hzero : (m.getByte s.addr).setWidth 32 = 0 ↔ m.getByte s.addr = 0 :=
      ⟨fun h => by rw [← hb, h]; rfl, fun h => by rw [h]; rfl⟩
    simp only [Memory.load, hb, hzero]
    split
    · simp [Except.map]
    · rw [Option.map_map]
      congr 1
      funext r
      cases r <;> simp [Except.map]

theorem Ends.stringWithin_eq (h : Ends m s n r) {fuel : Nat} (hn : n ≤ fuel) :
    (m.stringWithin fuel s.addr).map (·.map (s.found ++ ·)) = some r := by
  induction h generalizing fuel with
  | @last s r h =>
    obtain ⟨fuel, rfl⟩ := Nat.exists_eq_add_of_le' hn
    rw [stringWithin_succ, h]
  | @next s t n r h rest ih =>
    obtain ⟨fuel, rfl⟩ := Nat.exists_eq_add_of_le' (Nat.le_trans (Nat.le_add_left 1 n) hn)
    rw [stringWithin_succ, h]
    exact ih (by omega)

theorem Ends.stringWithin_eq_some (h : Ends m ⟨a, []⟩ n r) {fuel : Nat} (hn : n ≤ fuel) :
    m.stringWithin fuel a = some r := by
  have hs := h.stringWithin_eq hn
  have hmap : (fun x : Except ExecError (List Byte) => x.map (([] : List Byte) ++ ·)) = id := by
    funext x
    cases x <;> rfl
  rwa [hmap, Option.map_id] at hs

theorem Ends.string_eq (h : Ends m ⟨a, []⟩ n r) (hn : n ≤ Segment.stack.stop.toNat - a.toNat + 1) :
    m.string a = r := by
  rw [Memory.string, h.stringWithin_eq_some hn, Option.getD_some]

end Scan

namespace Memory

variable {m : Memory} {a b : Word}

theorem string_outside (h : ∀ s : Segment, ¬ s.Contains a) : m.string a = .error (.accessViolation a) :=
  (Scan.ends_outside h []).string_eq (Nat.le_add_left 1 _)

theorem string_of_firstZero (h : ∃ s : Segment, s.Contains a) (hb : m.FirstZero a b) :
    m.string a = .ok (m.bytes a (b.toNat - a.toNat)) := by
  obtain ⟨s, hs⟩ := h
  have hstop : b.toNat < Segment.stack.stop.toNat := hb.stop
  exact (Scan.ends_of_firstZero hs.bounds.1 hb).string_eq (by omega)

theorem string_of_no_zero (h : ∃ s : Segment, s.Contains a)
    (hn : ∀ b, a ≤ b → b < Segment.stack.stop → m.getByte b ≠ 0) :
    m.string a = .error (.accessViolation Segment.stack.stop) := by
  obtain ⟨s, hs⟩ := h
  obtain ⟨hstart, hstop⟩ := hs.bounds
  exact (Scan.ends_of_no_zero hstart (Nat.le_of_lt hstop) hn).string_eq (by omega)

theorem string_cases (m : Memory) (a : Word) :
    (∀ s : Segment, ¬ s.Contains a) ∨ (∃ s : Segment, s.Contains a) ∧
      ((∃ b, m.FirstZero a b) ∨ ∀ b, a ≤ b → b < Segment.stack.stop → m.getByte b ≠ 0) := by
  by_cases h : ∃ s : Segment, s.Contains a
  · by_cases hz : ∃ b, a ≤ b ∧ b < Segment.stack.stop ∧ m.getByte b = 0
    · exact .inr ⟨h, .inl (exists_firstZero hz)⟩
    · exact .inr ⟨h, .inr fun b hab hb hzero => hz ⟨b, hab, hb, hzero⟩⟩
  · exact .inl fun s hs => h ⟨s, hs⟩

theorem exists_ends (m : Memory) (a : Word) :
    ∃ n ≤ Segment.stack.stop.toNat - a.toNat + 1, Scan.Ends m ⟨a, []⟩ n (m.string a) := by
  rcases m.string_cases a with hout | ⟨h, ⟨b, hb⟩ | hn⟩
  · exact ⟨1, Nat.le_add_left 1 _, string_outside hout ▸ Scan.ends_outside hout []⟩
  · have hlt : b.toNat < Segment.stack.stop.toNat := hb.stop
    exact ⟨_, by omega, string_of_firstZero h hb ▸ Scan.ends_of_firstZero h.choose_spec.bounds.1 hb⟩
  · obtain ⟨hstart, hstop⟩ := h.choose_spec.bounds
    exact ⟨_, by omega, string_of_no_zero h hn ▸ Scan.ends_of_no_zero hstart (Nat.le_of_lt hstop) hn⟩

theorem string_error {e : ExecError} (h : m.string a = .error e) : ∃ b, e = .accessViolation b := by
  rcases m.string_cases a with hout | ⟨hs, ⟨b, hb⟩ | hn⟩
  · rw [string_outside hout] at h
    cases h
    exact ⟨a, rfl⟩
  · rw [string_of_firstZero hs hb] at h
    cases h
  · rw [string_of_no_zero hs hn] at h
    cases h
    exact ⟨_, rfl⟩

theorem stringWithin_eq (m : Memory) (a : Word) :
    m.stringWithin (Segment.stack.stop.toNat - a.toNat + 1) a = some (m.string a) := by
  obtain ⟨n, hn, h⟩ := m.exists_ends a
  exact h.stringWithin_eq_some hn

theorem string_of_holds {data : List Byte} (h : m.Holds (a, data ++ [0])) (hz : 0 ∉ data)
    (hstart : Segment.text.start.toNat ≤ a.toNat) (hstop : a.toNat + data.length < Segment.stack.stop.toNat) :
    m.string a = .ok data := by
  have hlimit : Segment.stack.stop.toNat < 0x100000000 := Segment.stack.stop.isLt
  have hlast := Word.toNat_add_ofNat a data.length (by omega)
  have hbytes : m.bytes a data.length = data := h.left.bytes (by omega)
  have hfirst : m.FirstZero a (a + BitVec.ofNat 32 data.length) := by
    refine ⟨BitVec.le_def.mpr (by omega), BitVec.lt_def.mpr (by omega), ?_, fun c hac hc => ?_⟩
    · exact (h.right (by simpa using by omega)).head
    · have hac : a.toNat ≤ c.toNat := hac
      have hc : c.toNat < (a + BitVec.ofNat 32 data.length).toNat := hc
      have hlt : c.toNat - a.toNat < data.length := by omega
      have hbyte : m.getByte c = data[c.toNat - a.toNat] := by
        apply h.left c
        rw [Store.byteAt, if_pos hac]
        exact List.getElem?_eq_getElem hlt
      rw [hbyte]
      exact fun h0 => hz (h0 ▸ List.getElem_mem hlt)
  obtain ⟨s, hs⟩ := Segment.isSome_of?_iff.mp (segment_iff.mpr ⟨hstart, BitVec.lt_def.mpr (by omega)⟩)
  rw [string_of_firstZero ⟨s, hs⟩ hfirst, hlast, Nat.add_sub_cancel_left, hbytes]

end Memory

end MipsMachine
