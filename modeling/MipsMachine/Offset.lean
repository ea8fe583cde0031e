import MipsMachine.Word

namespace MipsMachine

inductive Signedness where
  | signed
  | unsigned
deriving DecidableEq

namespace Signedness

def value (s : Signedness) (w : Word) : Int :=
  match s with
  | signed => w.toInt
  | unsigned => w.toNat

def extend (s : Signedness) (n : Nat) (w : Word) : Word :=
  match s with
  | signed => (w <<< (32 - n)).sshiftRight (32 - n)
  | unsigned => (w <<< (32 - n)) >>> (32 - n)

def Holds (s : Signedness) (v : Int) : Prop :=
  match s with
  | signed => -0x80000000 ≤ v ∧ v < 0x80000000
  | unsigned => 0 ≤ v ∧ v < 0x100000000

instance (s : Signedness) (v : Int) : Decidable (s.Holds v) := by
  cases s <;> exact inferInstanceAs (Decidable (_ ∧ _))

theorem extend_extend (s : Signedness) (n : Nat) (w : Word) :
    s.extend n (s.extend n w) = s.extend n w := by
  cases s with
  | signed =>
    apply BitVec.eq_of_getLsbD_eq
    intro i hi
    simp only [extend, BitVec.getLsbD_sshiftRight, BitVec.getLsbD_shiftLeft, BitVec.msb_eq_getLsbD_last]
    grind
  | unsigned =>
    apply BitVec.eq_of_getLsbD_eq
    intro i hi
    simp only [extend, BitVec.getLsbD_ushiftRight, BitVec.getLsbD_shiftLeft]
    grind

end Signedness

inductive OffsetError where
  | doesNotFit (sign : Signedness) (bits : Nat)
  | tooWide (bits : Nat)
deriving DecidableEq

namespace OffsetError

def message : OffsetError → String
  | doesNotFit .unsigned n => s!"value is too big for unsigned {n}-bit integer"
  | doesNotFit .signed n => s!"value is too big for signed {n}-bit integer"
  | tooWide n => s!"bit size {n} exceeds size of backing (32)"

/-- The bounds are worked out in 64-bit words, whose shifts count modulo 64. -/
def help : OffsetError → Option String
  | doesNotFit .unsigned n =>
    let top := (1 : BitVec 64) <<< (n % 64) - 1
    some s!"the range for an unsigned {n}-bit integer is [0, {top.toNat}]"
  | doesNotFit .signed n =>
    let low := (-1 : BitVec 64) <<< ((n + 63) % 64)
    let top := (1 : BitVec 64) <<< ((n + 63) % 64) - 1
    some s!"the range for a signed {n}-bit integer is [{low.toInt}, {top.toInt}]"
  | tooWide _ => none

end OffsetError

structure Offset (s : Signedness) (n : Nat) where
  word : Word
  extend_word : s.extend n word = word

namespace Offset

variable {s : Signedness} {n : Nat}

def ofWord (s : Signedness) (n : Nat) (w : Word) : Except OffsetError (Offset s n) :=
  if 32 < n then .error (.tooWide n)
  else if h : s.extend n w = w then .ok ⟨w, h⟩
  else .error (.doesNotFit s n)

/-- An integer that no word stands for is refused as too big before the number of bits is looked at. -/
def ofLiteral (s : Signedness) (n : Nat) (v : Int) : Except OffsetError (Offset s n) :=
  if s.Holds v then ofWord s n (BitVec.ofInt 32 v) else .error (.doesNotFit s n)

def truncate (s : Signedness) (n : Nat) (w : Word) : Except OffsetError (Offset s n) :=
  if 32 < n then .error (.tooWide n) else .ok ⟨s.extend n w, s.extend_extend n w⟩

def value (o : Offset s n) : Int := s.value o.word

def field (o : Offset s n) : BitVec n := o.word.setWidth n

def text (o : Offset s n) : String := toString o.value

def hex (o : Offset s n) : String := "0x" ++ hexDigits o.word.toNat

end Offset

end MipsMachine
