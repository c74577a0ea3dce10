import TreeCode.Code.Instr
import TreeCode.Code.Shape
import TreeCode.Error

/-!
Instruction sets as tables. A pattern pairs a shape with the templates of the instructions that
do what trees of that shape say. Of the patterns that match a tree, the one that covers the most
nodes is taken, and of several such the one that stands first in the table.
-/

namespace TreeCode

/-- A register operand of a template. -/
inductive Operand where
  /-- The temporary that receives the value of the covered expression. -/
  | result
  /-- The register that holds the subtree bound at this position. -/
  | reg (index : Nat)
  /-- A machine register, by name. -/
  | machine (name : String)
deriving DecidableEq

/-- An instruction whose operands are still positions. -/
structure Template where
  asm : String
  /-- Whether it copies one register to another. -/
  isMove : Bool := false
  dst : List Operand := []
  src : List Operand := []
  /-- Positions among the bound labels. -/
  labels : List Nat := []
  /-- Positions among the bound immediates. -/
  imms : List Nat := []
  /-- Whether it calls a function: it may then change all registers that calls may change, and
  reads the argument registers. -/
  isCall : Bool := false
deriving DecidableEq

/-- A shape and the instructions for it. -/
structure Pattern where
  name : String
  shape : Shape
  emit : List Template
deriving DecidableEq

/-- How the arguments of calls are placed. In the first three templates the result is the register
that receives the argument. The last one stores register `1` at the distance of immediate `0`
from the stack pointer, which is register `0`. -/
structure ArgTemplates where
  /-- The constants that may be placed as immediates; others are evaluated like any expression. -/
  imm : ImmRange
  immToReg : Template
  labelToReg : Template
  regToReg : Template
  regToStack : Template
deriving DecidableEq

/-- All that selection needs to know of a machine's instructions. -/
structure InstructionSet where
  name : String
  patterns : List Pattern
  args : ArgTemplates
  /-- The assembler directive for string literals. -/
  stringDirective : String
  /-- The suffix of conditional instructions. -/
  condition : Tree.RelOp → String

/-- A pattern that matches a tree, with what it binds. -/
structure Match where
  pattern : Pattern
  bindings : Bindings

/-- Number of nodes that are still to be covered after a match. -/
def Match.load (found : Match) : Nat := found.bindings.load

namespace InstructionSet

/-- The better of the best match so far and a pattern further down the table. -/
def improve (tree : Tree.Node) (best : Option Match) (pattern : Pattern) : Option Match :=
  match pattern.shape.match? tree with
  | none => best
  | some bindings =>
    match best with
    | none => some { pattern, bindings }
    | some current =>
      if current.pattern.shape.size < pattern.shape.size then some { pattern, bindings }
      else some current

/-- The match for the root of a tree, if there is one. -/
def pick (isa : InstructionSet) (tree : Tree.Node) : Option Match :=
  isa.patterns.foldl (improve tree) none

/-- The match for the root of a tree. What it leaves to be covered is smaller than the tree, so
that covering a tree comes to an end. A match that leaves the whole tree is refused, since it would
be picked again and again; the error stands where selection would otherwise go on for ever. Only a
pattern that is a bare register can match so, and no machine has one: see `covering_ends`. -/
def cover (isa : InstructionSet) (tree : Tree.Node) :
    Except Error { found : Match // found.load < tree.size } :=
  match isa.pick tree with
  | none => .error (.uncovered tree)
  | some found =>
    if smaller : found.load < tree.size then .ok ⟨found, smaller⟩
    else .error (.table (.noProgress found.pattern.name))

end InstructionSet

end TreeCode
