import MipsMachine.Execution.Step

namespace MipsMachine

structure Run (σ : Type) where
  result : Except ExecError Unit
  state : σ
  machine : Machine

/-- Asked before each step whether to go on. It may change the machine. -/
abbrev Tripwire (σ : Type) := σ → Machine → Bool × σ × Machine

namespace Machine

variable {σ : Type}

def steps (n : Nat) (m : Machine) : Except ExecError Unit × List Word × Machine :=
  match n with
  | 0 => (.ok (), [], m)
  | n + 1 =>
    match m.step with
    | (.error e, m) => (.error e, [m.pc], m)
    | (.ok (), m) =>
      let (result, pcs, last) := m.steps n
      (result, m.pc :: pcs, last)

def stops (m : Machine) : Bool := m.halted || m.breakpoints.any (·.check m)

/-- Steps until something stops the run, unless it takes more than `fuel` rounds. -/
def loop (wire : Tripwire σ) (fuel : Nat) (s : σ) (m : Machine) : Option (Run σ) :=
  match fuel with
  | 0 => none
  | fuel + 1 =>
    if m.pc = m.textCursor then some ⟨.ok (), s, m⟩
    else
      match wire s m with
      | (false, s, m) => some ⟨.ok (), s, m⟩
      | (true, s, m) =>
        match m.step with
        | (.error e, m) => some ⟨.error e, s, m⟩
        | (.ok (), m) => if m.stops then some ⟨.ok (), s, m⟩ else m.loop wire fuel s

def runWhile (wire : Tripwire σ) (fuel : Nat) (s : σ) (m : Machine) : Option (Run σ) :=
  match m.symbols.fixups with
  | f :: _ => some ⟨.error (.unresolvedFixup f.label), s, m⟩
  | [] => { m with halted := false }.loop wire fuel s

def run (fuel : Nat) (m : Machine) : Option (Run Unit) :=
  runWhile (fun s m => (true, s, m)) fuel () m

def withinLimit (start limit : BitVec 64) : Tripwire Unit := fun s m => (m.count - start < limit, s, m)

def runWithLimit (limit : BitVec 64) (m : Machine) : Option (Run Unit) :=
  runWhile (withinLimit m.count limit) (limit.toNat + 1) () m

end Machine

end MipsMachine
