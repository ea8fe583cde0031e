import MipsMachine.Word

/-!
The console that programs read from and write to. `readable` is what reads would give now, in
order; a write either appends all of its bytes or is refused. The writer behind a channel is taken
never to stop: how many bytes still go through after it has depends on when its thread ends, so no
write to a channel is refused here.
-/

namespace MipsMachine

inductive Hold where
  | shared
  | exclusive
deriving DecidableEq

/-- What a try at a lock gives. After a holder has died the bytes come with that warning. -/
inductive TryLock (α : Type) where
  | ok (bytes : α)
  | poisoned (bytes : α)
  | wouldBlock

structure Guarded (α : Type) where
  bytes : α
  held : Option Hold
  poisoned : Bool

namespace Guarded

variable {α : Type}

def ofBytes (bytes : α) : Guarded α := ⟨bytes, none, false⟩

def isFree (g : Guarded α) : Bool := g.held.isNone

def tryWrite (g : Guarded α) : TryLock α :=
  match g.held, g.poisoned with
  | some _, _ => .wouldBlock
  | none, true => .poisoned g.bytes
  | none, false => .ok g.bytes

def access (g : Guarded α) : Option α :=
  match g.tryWrite with
  | .ok bytes => some bytes
  | .poisoned bytes => some bytes
  | .wouldBlock => none

def lock (g : Guarded α) (hold : Hold) : Guarded α := { g with held := some hold }

def unlock (g : Guarded α) : Guarded α := { g with held := none }

def poison (g : Guarded α) : Guarded α := { g with poisoned := true }

theorem access_eq (g : Guarded α) : g.access = if g.isFree then some g.bytes else none := by
  obtain ⟨bytes, held, dead⟩ := g
  cases held with
  | some hold => rfl
  | none => cases dead <;> rfl

theorem access_update (g : Guarded α) (bytes : α) :
    { g with bytes := bytes }.access = g.access.map fun _ => bytes := by
  have hfree : { g with bytes := bytes }.isFree = g.isFree := rfl
  rw [access_eq, access_eq, hfree]
  cases g.isFree <;> rfl

theorem access_poisoned (g : Guarded α) (dead : Bool) : { g with poisoned := dead }.access = g.access := by
  rw [access_eq, access_eq]
  rfl

end Guarded

structure Buffered where
  input : Guarded (List Byte)
  output : Guarded (Array Byte)

namespace Buffered

def ofInput (input : List Byte) : Buffered := ⟨.ofBytes input, .ofBytes #[]⟩

def readable (b : Buffered) : List Byte := b.input.access.getD []

def consume (b : Buffered) (n : Nat) : Buffered :=
  match b.input.access with
  | some bytes => { b with input := { b.input with bytes := bytes.drop n } }
  | none => b

def write (b : Buffered) (data : List Byte) : Bool × Buffered :=
  match b.output.access with
  | some bytes => (true, { b with output := { b.output with bytes := bytes ++ data } })
  | none => (false, b)

def unlock (b : Buffered) : Buffered := ⟨b.input.unlock, b.output.unlock⟩

def push (b : Buffered) (data : List Byte) : Buffered :=
  { b with input := { b.input with bytes := b.input.bytes ++ data } }

end Buffered

structure Channel where
  incoming : List Byte
  outgoing : Array Byte

inductive Console where
  | empty
  | buffered (device : Buffered)
  | channel (device : Channel)
  | custom (device : Console)

namespace Console

def readable : Console → List Byte
  | empty => []
  | buffered b => b.readable
  | channel c => c.incoming
  | custom c => c.readable

def consume (n : Nat) : Console → Console
  | empty => empty
  | buffered b => buffered (b.consume n)
  | channel c => channel { c with incoming := c.incoming.drop n }
  | custom c => custom (c.consume n)

def read (c : Console) : Option Byte × Console :=
  match c.readable with
  | [] => (none, c)
  | b :: _ => (some b, c.consume 1)

def write (data : List Byte) : Console → Bool × Console
  | empty => (false, empty)
  | buffered b => (b.write data).map id buffered
  | channel c => (true, channel { c with outgoing := c.outgoing ++ data })
  | custom c => (c.write data).map id custom

def mapBuffered (f : Buffered → Buffered) : Console → Console
  | buffered b => buffered (f b)
  | custom c => custom (c.mapBuffered f)
  | c => c

def buffers : Console → Option Buffered
  | buffered b => some b
  | custom c => c.buffers
  | _ => none

def close : Console → Option (Array Byte)
  | empty => none
  | buffered b => some b.output.bytes
  | channel c => some c.outgoing
  | custom c => c.close

def nextLine (c : Console) : List Byte × Nat :=
  let line := c.readable.takeWhile (· ≠ 0x0A)
  (line, if line.length < c.readable.length then line.length + 1 else line.length)

def nextPiece (n : Nat) : List Byte → List Byte
  | [] => []
  | b :: r =>
    match n with
    | 0 => []
    | n + 1 => if b = 0x0A then [b] else b :: nextPiece n r

theorem readable_consume (n : Nat) (c : Console) : (c.consume n).readable = c.readable.drop n := by
  induction c with
  | empty => simp [consume, readable]
  | buffered b =>
    cases h : b.input.access <;>
      simp [consume, readable, Buffered.consume, Buffered.readable, Guarded.access_update, h]
  | channel c => rfl
  | custom c ih => exact ih

theorem readable_write (data : List Byte) (c : Console) : (c.write data).2.readable = c.readable := by
  induction c with
  | empty => rfl
  | buffered b =>
    unfold write Buffered.write
    cases b.output.access <;> rfl
  | channel c => rfl
  | custom c ih => exact ih

theorem nextPiece_append_drop (n : Nat) (bs : List Byte) :
    nextPiece n bs ++ bs.drop (nextPiece n bs).length = bs := by
  induction bs generalizing n with
  | nil => simp [nextPiece]
  | cons b bs ih =>
    cases n with
    | zero => simp [nextPiece]
    | succ n =>
      rw [nextPiece]
      split
      · rfl
      · simp [ih]

theorem length_nextPiece_le (n : Nat) (bs : List Byte) : (nextPiece n bs).length ≤ n := by
  induction bs generalizing n with
  | nil => simp [nextPiece]
  | cons b bs ih =>
    cases n with
    | zero => simp [nextPiece]
    | succ n =>
      rw [nextPiece]
      split
      · simp
      · simpa using ih n

end Console

end MipsMachine
