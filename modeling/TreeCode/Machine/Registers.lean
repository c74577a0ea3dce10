import TreeCode.Error
import TreeCode.Supply

/-!
Machine registers and their roles. A machine describes its registers by name; issuing the
description turns every register into a named temporary, so that code refers to machine
registers and virtual ones alike.
-/

namespace TreeCode

/-- Computations that draw on the supply and may fail. What was issued before a failure stays
issued. -/
abbrev Issue := EStateM Error Supply

instance : MonadLift Fresh Issue where
  monadLift act := fun supply =>
    let (value, supply) := act supply
    .ok value supply

/-- The registers of a machine, by name. -/
structure RegisterTable where
  /-- Every register, in the order of issue. -/
  names : List String
  framePointer : String
  stackPointer : String
  returnValue : String
  /-- The registers of the leading arguments, in order. -/
  arguments : List String
  /-- Registers that a call may change. -/
  callerSaved : List String
  /-- Registers that a function has to leave as it found them. -/
  calleeSaved : List String
deriving DecidableEq

/-- The registers of a machine as temporaries. -/
structure Registers where
  /-- Every register with its name, in the order of issue. -/
  all : List (String × Temp)
  framePointer : Temp
  stackPointer : Temp
  returnValue : Temp
  arguments : List Temp
  callerSaved : List Temp
  calleeSaved : List Temp
deriving DecidableEq

/-- The first register called `name`. -/
def Registers.find? (registers : Registers) (name : String) : Option Temp :=
  registers.all.lookup name

/-- The first of the issued registers called `name`; a role needs a register of the table. -/
def role (all : List (String × Temp)) (name : String) : Issue Temp :=
  match all.lookup name with
  | some t => pure t
  | none => throw (.convention (.missingRegister name))

/-- The registers for several roles, in order. -/
def roles (all : List (String × Temp)) : List String → Issue (List Temp)
  | [] => pure []
  | name :: names => do
    let t ← role all name
    let rest ← roles all names
    return t :: rest

/-- Issue every register of a table and look up the roles. -/
def RegisterTable.issue (table : RegisterTable) : Issue Registers := do
  let all ← freshNamedAll table.names
  let framePointer ← role all table.framePointer
  let stackPointer ← role all table.stackPointer
  let returnValue ← role all table.returnValue
  let arguments ← roles all table.arguments
  let callerSaved ← roles all table.callerSaved
  let calleeSaved ← roles all table.calleeSaved
  return { all, framePointer, stackPointer, returnValue, arguments, callerSaved, calleeSaved }

end TreeCode
