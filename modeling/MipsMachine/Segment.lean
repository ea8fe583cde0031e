import MipsMachine.Word

namespace MipsMachine

inductive Segment where
  | text
  | data
  | stack
deriving DecidableEq

namespace Segment

def all : List Segment := [text, data, stack]

def name : Segment → String
  | text => "text"
  | data => "data"
  | stack => "stack"

def start : Segment → Word
  | text => 0x00400000
  | data => 0x10000000
  | stack => 0x10040000

def stop : Segment → Word
  | text => 0x10000000
  | data => 0x10040000
  | stack => 0x80000000

def Contains (s : Segment) (addr : Word) : Prop := s.start ≤ addr ∧ addr < s.stop

instance (s : Segment) (addr : Word) : Decidable (s.Contains addr) :=
  inferInstanceAs (Decidable (_ ∧ _))

def of? (addr : Word) : Option Segment := all.find? fun s => s.Contains addr

end Segment

end MipsMachine
