import TreeCode.Target.Basic

/-!
What the two x86 machines have in common. Most instructions work on two operands: the left one is
first copied to the register of the result, which then is both read and written.
-/

namespace TreeCode.X86

/-- The numbers of 32 bits. -/
def range32 : ImmRange := .between (-2147483648) 2147483647

/-- An immediate of 32 bits. -/
def imm32 : Shape := .imm range32

/-- An instruction on the result and the second bound register. -/
def twoAddress (asm : String) : Template :=
  { asm, dst := [.result], src := [.result, .reg 1] }

/-- An instruction on the result and an immediate. -/
def inPlace (asm : String) : Template :=
  { asm, dst := [.result], src := [.result], imms := [0] }

/-- The suffix of a conditional jump. -/
def conditionSuffix : Tree.RelOp → String
  | .eq => "e"
  | .ne => "ne"
  | .lt => "l"
  | .gt => "g"
  | .le => "le"
  | .ge => "ge"
  | .ult => "b"
  | .ule => "be"
  | .ugt => "a"
  | .uge => "ae"

end TreeCode.X86
