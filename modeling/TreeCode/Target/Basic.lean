import TreeCode.Code.InstructionSet
import TreeCode.Machine.Convention

/-!
What the machines have in common.
-/

namespace TreeCode

/-- A machine to make code for: how its functions are called, and its instructions. -/
structure Target where
  convention : ConventionTable
  isa : InstructionSet

/-- Any constant as an immediate. -/
def anyImm : Shape := .imm .any

/-- Copy the first bound register to the result. -/
def copyLeft : Template :=
  { asm := "mov `d0, `s0", isMove := true, dst := [.result], src := [.reg 0] }

end TreeCode
