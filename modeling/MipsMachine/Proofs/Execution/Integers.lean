import Mathlib.Algebra.Group.Int.Defs
import MipsMachine.Proofs.Execution.Arithmetic
import MipsMachine.Proofs.Execution.Iteration

namespace MipsMachine

namespace Machine

end Machine

section Calculates

variable (m : Machine)

end Calculates

section Words

variable (a b : Word)

end Words

namespace Machine

variable {m : Machine} {i : Instr} {r : Reg} {v : Word}

end Machine

section Kinds

variable {m : Machine}

end Kinds

end MipsMachine
