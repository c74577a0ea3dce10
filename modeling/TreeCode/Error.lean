import TreeCode.Source.Syntax
import TreeCode.Tree.Printer

/-!
What can go wrong between a source program and its instructions, and how it is worded.
-/

namespace TreeCode

/-- Ways in which a calling convention is not met. -/
inductive ConventionFault where
  /-- A register with a role is not in the machine's register table. -/
  | missingRegister (name : String)
  /-- A function has more formals on the stack than callers reserve slots for. -/
  | tooManyFormals (func : Label) (onStack : Nat) (convention : String) (slots : Nat)
  /-- A call passes more arguments on the stack than there are slots for. -/
  | tooManyArguments (onStack : Nat) (convention : String) (slots : Nat)
deriving DecidableEq

/-- The wording of a convention fault. -/
def ConventionFault.reason : ConventionFault → String
  | missingRegister name => "register `" ++ name ++ "` is not in the register table"
  | tooManyFormals func onStack convention slots =>
    func ++ " has " ++ toString onStack ++ " stack-passed formals but " ++ convention
      ++ " only reserves " ++ toString slots ++ " argument slots"
  | tooManyArguments onStack convention slots =>
    "call passes " ++ toString onStack ++ " arguments on the stack but " ++ convention
      ++ " only reserves " ++ toString slots ++ " slots"

/-- Ways in which the pattern table of an instruction set is malformed. -/
inductive TableFault where
  /-- A statement has no result, but a template for it names one. -/
  | resultOfStatement
  | unboundRegister (index : Nat)
  | unknownRegister (convention name : String)
  | unboundLabel (index : Nat) (asm : String)
  | unboundImmediate (index : Nat) (asm : String)
  | unboundCondition (asm : String)
  /-- A pattern covers no node, so selecting it would never end. No table of a machine has one. -/
  | noProgress (pattern : String)
deriving DecidableEq

/-- The wording of a table fault. -/
def TableFault.reason : TableFault → String
  | resultOfStatement => "result operand used by a statement pattern"
  | unboundRegister index => "register operand " ++ toString index ++ " is not bound"
  | unknownRegister convention name => convention ++ " has no register `" ++ name ++ "`"
  | unboundLabel index asm =>
    "label operand " ++ toString index ++ " is not bound in `" ++ asm ++ "`"
  | unboundImmediate index asm =>
    "immediate " ++ toString index ++ " is not bound in `" ++ asm ++ "`"
  | unboundCondition asm => "`" ++ asm ++ "` needs a condition but none is bound"
  | noProgress pattern => "pattern `" ++ pattern ++ "` covers no node"

/-- Causes of failure. -/
inductive Error where
  | undeclaredVariable (name : String) (pos : Source.Pos)
  | undeclaredFunction (name : String) (pos : Source.Pos)
  /-- The slot of a record field was not resolved. -/
  | unresolvedField (field : String) (pos : Source.Pos)
  | strayBreak (pos : Source.Pos)
  | unknownLevel (level : Nat)
  /-- Code without a value stands where a condition is needed. -/
  | valuelessCondition (stm : Tree.Stm)
  | convention (fault : ConventionFault)
  /-- No pattern of the instruction set covers the root of a tree. -/
  | uncovered (tree : Tree.Node)
  /-- An argument that cannot be evaluated while arguments are placed. -/
  | misplacedArgument (arg : Tree.Exp)
  | unknownArchitecture (name : String)
  | table (fault : TableFault)

namespace Error

/-- Where in the source text the fault lies, for faults that know. -/
def pos? : Error → Option Source.Pos
  | undeclaredVariable _ pos => some pos
  | undeclaredFunction _ pos => some pos
  | unresolvedField _ pos => some pos
  | strayBreak pos => some pos
  | _ => none

/-- What kind of construct an unsupported argument is. -/
def argumentKind : Tree.Exp → String
  | .eseq _ _ => "statement expression"
  | _ => "nested call"

/-- The wording of an error. -/
def message : Error → String
  | undeclaredVariable name _ => "undeclared variable `" ++ name ++ "`"
  | undeclaredFunction name _ => "undeclared function `" ++ name ++ "`"
  | unresolvedField field _ => "field `" ++ field ++ "` has no resolved slot"
  | strayBreak _ => "break outside of a loop"
  | unknownLevel level => "unknown level " ++ toString level
  | valuelessCondition stm => "statement used as a condition: " ++ stm.text
  | convention fault => "calling convention violation: " ++ fault.reason
  | uncovered tree => "no pattern matches " ++ tree.text
  | misplacedArgument arg =>
    "unsupported call argument: " ++ argumentKind arg ++ " " ++ arg.text
  | unknownArchitecture name => "unknown architecture `" ++ name ++ "`"
  | table fault => "malformed pattern table: " ++ fault.reason

/-- The part of the work that an error belongs to. -/
def category : Error → String
  | undeclaredVariable _ _ => "internal error"
  | undeclaredFunction _ _ => "internal error"
  | unresolvedField _ _ => "internal error"
  | strayBreak _ => "internal error"
  | unknownLevel _ => "internal error"
  | valuelessCondition _ => "internal error"
  | convention _ => "calling convention error"
  | uncovered _ => "instruction selection error"
  | misplacedArgument _ => "call lowering error"
  | unknownArchitecture _ => "configuration error"
  | table _ => "pattern table error"

/-- Where an error is reported: its place, or the unknown place. -/
def place (error : Error) : Source.Pos :=
  error.pos?.getD {}

end Error

end TreeCode
