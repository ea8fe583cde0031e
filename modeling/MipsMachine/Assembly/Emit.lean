import MipsMachine.Assembly.Plan

namespace MipsMachine.Machine

def emitText (m : Machine) (word : Word) : Except AsmError Word × Machine :=
  match Segment.text.advance m.textCursor 4 with
  | .error e => (.error e.spanless, m)
  | .ok next =>
    (.ok m.textCursor, { m with memory := m.memory.setWord m.textCursor word, textCursor := next })

def emitData (m : Machine) (bytes : List Byte) (alignment : Nat) : Except AsmError Word × Machine :=
  if m.dataCursor.toNat % alignment ≠ 0 then (.error (AsmCause.misalignedData m.dataCursor).spanless, m)
  else
    match Segment.data.advance m.dataCursor bytes.length with
    | .error e => (.error e.spanless, m)
    | .ok next =>
      (.ok m.dataCursor, { m with memory := m.memory.setBytes m.dataCursor bytes, dataCursor := next })

def emitByte (m : Machine) (byte : Byte) : Except AsmError Word × Machine := m.emitData [byte] 1

def emitHalf (m : Machine) (half : Half) : Except AsmError Word × Machine := m.emitData half.bytes 2

def emitWord (m : Machine) (word : Word) : Except AsmError Word × Machine := m.emitData word.bytes 4

def emitAsciiz (m : Machine) (text : String) : Except AsmError Word × Machine :=
  m.emitData (utf8 text ++ [0]) 1

end MipsMachine.Machine
