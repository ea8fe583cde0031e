import MipsMachine.Word

namespace MipsMachine

structure Reg where
  number : BitVec 5
deriving DecidableEq

namespace Reg

def zero : Reg := ⟨0⟩
def scratch : Reg := ⟨1⟩
def v0 : Reg := ⟨2⟩
def a0 : Reg := ⟨4⟩
def a1 : Reg := ⟨5⟩
def sp : Reg := ⟨29⟩
def fp : Reg := ⟨30⟩
def ra : Reg := ⟨31⟩

def all : List Reg := (List.finRange 32).map fun i => ⟨BitVec.ofFin i⟩

def names : Vector String 32 := #v[
  "zero", "at", "v0", "v1", "a0", "a1", "a2", "a3",
  "t0", "t1", "t2", "t3", "t4", "t5", "t6", "t7",
  "s0", "s1", "s2", "s3", "s4", "s5", "s6", "s7",
  "t8", "t9", "k0", "k1", "gp", "sp", "fp", "ra"]

def name (r : Reg) : String := names[r.number.toFin]

def text (r : Reg) : String := "$" ++ r.name

def ofNumber? (n : Nat) : Option Reg := if n < 32 then some ⟨BitVec.ofNat 5 n⟩ else none

/--
Resolves a name without its dollar sign. A name of digits alone is a register number and has one
spelling, so leading zeros are refused; any other name is conventional, with `s8` for `$fp`.
-/
def ofName? (name : String) : Option Reg :=
  let digits := name.toList
  if digits.all Char.isDigit then
    if digits = [] ∨ (1 < digits.length ∧ digits.head? = some '0') then none
    else ofNumber? (digits.foldl (fun n c => 10 * n + (c.toNat - '0'.toNat)) 0)
  else if name = "s8" then some fp
  else (names.toList.findIdx? (· = name)).bind ofNumber?

end Reg

structure RegisterFile where
  regs : Vector Word 32
  hi : Word
  lo : Word
deriving DecidableEq

namespace RegisterFile

def stackStart : Word := 0x7FFFEFFC

def initial : RegisterFile :=
  ⟨(Vector.replicate 32 0).set Reg.sp.number.toNat stackStart (by decide), 0, 0⟩

def get (f : RegisterFile) (r : Reg) : Word := f.regs[r.number.toFin]

def set (f : RegisterFile) (r : Reg) (v : Word) : RegisterFile :=
  if r = Reg.zero then f else { f with regs := f.regs.set r.number.toNat v r.number.isLt }

theorem get_set (f : RegisterFile) (r s : Reg) (v : Word) :
    (f.set r v).get s = if s = r ∧ r ≠ Reg.zero then v else f.get s := by
  obtain ⟨r⟩ := r
  obtain ⟨s⟩ := s
  unfold set get
  by_cases hz : (⟨r⟩ : Reg) = Reg.zero
  · simp [hz]
  · by_cases hs : s = r
    · subst hs
      simp [hz]
    · have hn : r.toNat ≠ s.toNat := fun h => hs (BitVec.eq_of_toNat_eq h.symm)
      have hr : (⟨s⟩ : Reg) ≠ ⟨r⟩ := fun h => hs (congrArg Reg.number h)
      simp only [hz, hr, false_and, ↓reduceIte]
      exact Vector.getElem_set_ne r.isLt s.isLt hn

@[simp] theorem get_zero_set (f : RegisterFile) (r : Reg) (v : Word) : (f.set r v).get .zero = f.get .zero :=
  (f.get_set r .zero v).trans (if_neg fun h => h.2 h.1.symm)

theorem get_zero_initial : initial.get .zero = 0 := by decide

@[simp] theorem hi_set (f : RegisterFile) (r : Reg) (v : Word) : (f.set r v).hi = f.hi := by
  unfold set
  split <;> rfl

@[simp] theorem lo_set (f : RegisterFile) (r : Reg) (v : Word) : (f.set r v).lo = f.lo := by
  unfold set
  split <;> rfl

end RegisterFile

end MipsMachine
