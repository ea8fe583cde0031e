import Mathlib.Algebra.Group.Nat.Defs
import MipsMachine.Proofs.Memory.Stores

/-!
Arithmetic and indexing that break off where a machine's would: at a result that does not fit, a shift by the
width or more, an index past the end. The operations of the library are written out with these in the other
modules here, and each of them is shown never to break off and to come to the same.
-/

namespace MipsMachine.Checked

section Words

variable {n : Nat}

def add (a : BitVec n) (k : Nat) : Option (BitVec n) :=
  if a.toNat + k < 2 ^ n then some (a + BitVec.ofNat n k) else none

def sub (a b : Nat) : Option Nat := if b ≤ a then some (a - b) else none

def shl (a : BitVec n) (k : Nat) : Option (BitVec n) := if k < n then some (a <<< k) else none

def shr (a : BitVec n) (k : Nat) : Option (BitVec n) := if k < n then some (a >>> k) else none

def sar (a : BitVec n) (k : Nat) : Option (BitVec n) := if k < n then some (a.sshiftRight k) else none

def remainder (a b : Nat) : Option Nat := if b = 0 then none else some (a % b)

def int64 (v : Int) : Option Int :=
  if -0x8000000000000000 ≤ v ∧ v < 0x8000000000000000 then some v else none

theorem some_bind {α β : Type} (a : α) (f : α → Option β) : (some a >>= f) = f a := rfl

theorem add_eq {a : BitVec n} {k : Nat} (h : a.toNat + k < 2 ^ n) : add a k = some (a + BitVec.ofNat n k) :=
  if_pos h

theorem sub_eq {a b : Nat} (h : b ≤ a) : sub a b = some (a - b) := if_pos h

theorem shl_eq {k : Nat} (a : BitVec n) (h : k < n) : shl a k = some (a <<< k) := if_pos h

theorem shr_eq {k : Nat} (a : BitVec n) (h : k < n) : shr a k = some (a >>> k) := if_pos h

theorem sar_eq {k : Nat} (a : BitVec n) (h : k < n) : sar a k = some (a.sshiftRight k) := if_pos h

theorem remainder_eq {b : Nat} (a : Nat) (h : 0 < b) : remainder a b = some (a % b) := if_neg (by omega)

theorem shl_or {k : Nat} (a : BitVec n) (b : BitVec k) :
    a.setWidth 32 <<< k ||| b.setWidth 32 = (a ++ b).setWidth 32 := by
  apply BitVec.eq_of_getLsbD_eq
  intro i hi
  simp only [BitVec.getLsbD_append, BitVec.getLsbD_or, BitVec.getLsbD_shiftLeft, BitVec.getLsbD_setWidth]
  grind

theorem int64_eq {v : Int} (hl : -0x8000000000000000 ≤ v) (hh : v < 0x8000000000000000) : int64 v = some v :=
  if_pos ⟨hl, hh⟩

end Words

section Lists

variable {α β : Type}

theorem mapM_some {f : α → Option β} {g : α → β} {xs : List α} (h : ∀ x ∈ xs, f x = some (g x)) :
    xs.mapM f = some (xs.map g) := by
  induction xs with
  | nil => rfl
  | cons x xs ih =>
    rw [List.forall_mem_cons] at h
    rw [List.mapM_cons, h.1, some_bind, ih h.2]
    rfl

theorem foldlM_some {f : β → α → Option β} {g : β → α → β} {xs : List α}
    (h : ∀ x ∈ xs, ∀ b, f b x = some (g b x)) (b : β) : xs.foldlM f b = some (xs.foldl g b) := by
  induction xs generalizing b with
  | nil => rfl
  | cons x xs ih =>
    rw [List.forall_mem_cons] at h
    rw [List.foldlM_cons, h.1, some_bind, ih h.2, List.foldl_cons]

theorem anyM_some {p : α → Option Bool} {q : α → Bool} (h : ∀ x, p x = some (q x)) (xs : List α) :
    xs.anyM p = some (xs.any q) := by
  induction xs with
  | nil => rfl
  | cons x xs ih =>
    rw [List.anyM, h, some_bind, ih, List.any_cons]
    cases q x <;> rfl

end Lists

section Attempts

variable {ε α β : Type}

/-- A computation with errors of its own, which may also break off without any result. -/
abbrev Attempt (ε α : Type) := ExceptT ε Option α

def total (r : Except ε α) : Attempt ε α := ExceptT.mk (some r)

theorem lift_eq {x : Option α} {a : α} (h : x = some a) : (liftM x : Attempt ε α) = total (.ok a) := by
  rw [h]
  rfl

theorem ok_bind (a : α) (f : α → Attempt ε β) : (total (.ok a) >>= f) = f a := rfl

theorem total_bind {r : Except ε α} {f : α → Attempt ε β} {g : α → Except ε β}
    (h : ∀ a, r = .ok a → f a = total (g a)) : (total r >>= f) = total (r >>= g) := by
  cases r with
  | ok a => exact h a rfl
  | error e => rfl

theorem total_bind_map {γ : Type} {r : Except ε α} {k : β → γ} {f : α → Attempt ε γ}
    {g : α → Except ε β} (h : ∀ a, r = .ok a → f a = total ((g a).map k)) : (total r >>= f) = total ((r >>= g).map k) := by
  cases r with
  | ok a => exact h a rfl
  | error e => rfl

def relabel {ε' : Type} (f : ε → ε') (x : Attempt ε α) : Attempt ε' α :=
  ExceptT.mk (x.run.map (·.mapError f))

theorem relabel_total {ε' : Type} (f : ε → ε') (r : Except ε α) :
    relabel f (total r) = total (r.mapError f) := rfl

theorem mapM_eq {f : α → Attempt ε β} {g : α → Except ε β} {xs : List α}
    (h : ∀ x ∈ xs, f x = total (g x)) : xs.mapM f = total (xs.mapM g) := by
  induction xs with
  | nil => rfl
  | cons x xs ih =>
    rw [List.forall_mem_cons] at h
    rw [List.mapM_cons, List.mapM_cons, h.1, ih h.2]
    exact total_bind fun y _ => total_bind fun ys _ => rfl

end Attempts

section Addresses

variable {α : Type}

/--
Pairs the members of a list with addresses `step` apart. The address after the last one is taken too, and
moved on by one, before the list is found to have ended.
-/
def addresses (step : Nat) (start : Word) : List α → Option (List (Word × α))
  | [] => (add start 1).map fun _ => []
  | x :: xs => do return (start, x) :: (← addresses step (← add start step) xs)

def located (step : Nat) (start : Word) : List α → List (Word × α)
  | [] => []
  | x :: xs => (start, x) :: located step (start + BitVec.ofNat 32 step) xs

theorem addresses_eq {step : Nat} {start : Word} {xs : List α}
    (h : start.toNat + step * xs.length + 1 < 0x100000000) :
    addresses step start xs = some (located step start xs) := by
  induction xs generalizing start with
  | nil => rw [addresses, add_eq (by simpa using h)]; rfl
  | cons x xs ih =>
    rw [List.length_cons, Nat.mul_add_one] at h
    have hnext := Word.toNat_add_ofNat start step (by omega)
    rw [addresses, add_eq (by omega), some_bind, ih (by omega)]
    rfl

end Addresses

end MipsMachine.Checked
