import MipsMachine.Patch
import Std.Data.HashMap

/-!
Labels and the references that wait for them. References are recorded in an arena and found by the
label they wait for; a reference that has been resolved leaves a hole. `fixups` shows the pending
references as a list, in the order in which they were recorded.
-/

namespace MipsMachine

structure Fixup where
  addr : Word
  label : String
  patch : Patch
deriving DecidableEq

/-- Whether an address lies in the placeholder words. Words that reach the end of memory cover nothing. -/
def Fixup.covers (f : Fixup) (addr : Word) : Bool :=
  f.addr ≤ addr && addr < f.addr + BitVec.ofNat 32 (4 * f.patch.size)

structure Symbols where
  labels : Std.HashMap String Word
  arena : Array (Option Fixup)
  waiting : Std.HashMap String (List Nat)

namespace Symbols

def empty : Symbols := ⟨∅, #[], ∅⟩

instance : BEq Symbols where
  beq a b := a.labels == b.labels && a.arena == b.arena && a.waiting == b.waiting

def lookup (s : Symbols) (label : String) : Option Word := s.labels[label]?

def listedBefore (a b : String × Word) : Bool := a.2 < b.2 || (a.2 = b.2 && decide (a.1 ≤ b.1))

def labelList (s : Symbols) : List (String × Word) := s.labels.toList.mergeSort listedBefore

def least (best : Option String) (name : String) : Option String :=
  match best with
  | none => some name
  | some b => some (if name < b then name else b)

def labelAt (s : Symbols) (addr : Word) : Option String :=
  ((s.labels.toList.filter fun l => l.2 = addr).map Prod.fst).foldl least none

def fixups (s : Symbols) : List Fixup := s.arena.toList.filterMap id

def fixupAt (s : Symbols) (addr : Word) : Option Fixup := s.fixups.find? fun f => f.covers addr

def hasUnresolved (s : Symbols) : Bool := !s.waiting.isEmpty

def waitingOn (s : Symbols) (label : String) : List Fixup :=
  (s.waiting.getD label []).filterMap fun i => s.arena[i]?.join

def clearFixups (s : Symbols) : Symbols := ⟨s.labels, #[], ∅⟩

def record (s : Symbols) (f : Fixup) : Symbols :=
  ⟨s.labels, s.arena.push (some f),
    s.waiting.insert f.label (s.waiting.getD f.label [] ++ [s.arena.size])⟩

/-- Removes the references that wait for a label, and the whole arena once no reference is left. -/
def release (s : Symbols) (label : String) : Symbols :=
  let waiting := s.waiting.erase label
  if waiting.isEmpty then ⟨s.labels, #[], waiting⟩
  else ⟨s.labels, (s.waiting.getD label []).foldl (fun a i => a.setIfInBounds i none) s.arena, waiting⟩

def define (s : Symbols) (label : String) (addr : Word) : Symbols :=
  let s := s.release label
  { s with labels := s.labels.insert label addr }

theorem fixups_empty : empty.fixups = [] := rfl

theorem fixups_clearFixups (s : Symbols) : s.clearFixups.fixups = [] := rfl

theorem fixups_record (s : Symbols) (f : Fixup) : (s.record f).fixups = s.fixups ++ [f] := by
  simp [fixups, record]

theorem lookup_release (s : Symbols) (l k : String) : (s.release l).lookup k = s.lookup k := by
  unfold release lookup
  simp only
  split <;> rfl

theorem lookup_define (s : Symbols) (l k : String) (addr : Word) :
    (s.define l addr).lookup k = if l = k then some addr else s.lookup k := by
  have h := s.lookup_release l k
  simp only [lookup] at h
  simp [define, lookup, Std.HashMap.getElem?_insert, h]

end Symbols

end MipsMachine
