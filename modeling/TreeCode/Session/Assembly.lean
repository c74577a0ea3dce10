import TreeCode.Code.Placeholder
import TreeCode.Lowering.State

/-!
Compiled programs: what selection made of the fragments of one program, with the frames that the
code refers to.
-/

namespace TreeCode

/-- A compiled function. -/
structure Procedure where
  name : Label
  level : Level
  /-- The canonical statements. -/
  ir : List Tree.Stm
  instrs : List Instr

/-- A string literal. -/
structure Literal where
  label : Label
  text : String
  instrs : List Instr

/-- A compiled program. -/
structure Assembly where
  /-- The frames of all levels, by number. -/
  frames : List Frame
  /-- The functions in the order of their fragments, the program itself last. -/
  procs : List Procedure
  strings : List Literal

/-- An instruction as a line of a listing: labels stand at the margin, all else is indented. -/
def Instr.line (names : NameMap) (instr : Instr) : String :=
  match instr.kind with
  | .label => instr.render names ++ "\n"
  | _ => "    " ++ instr.render names ++ "\n"

namespace Assembly

/-- The frame of a function. -/
def frame? (unit : Assembly) (proc : Procedure) : Option Frame :=
  unit.frames[proc.level]?

/-- The first function called `name`. -/
def proc? (unit : Assembly) (name : Label) : Option Procedure :=
  unit.procs.find? fun proc => proc.name == name

/-- The instructions of a unit: string literals, then functions. -/
def instrs (unit : Assembly) : List Instr :=
  unit.strings.flatMap Literal.instrs ++ unit.procs.flatMap Procedure.instrs

/-- The listing of a unit. -/
def listing (unit : Assembly) (names : NameMap) : String :=
  String.join (unit.instrs.map (Instr.line names))

end Assembly

end TreeCode
