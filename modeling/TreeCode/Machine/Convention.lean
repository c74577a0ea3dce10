import TreeCode.Machine.Registers

/-!
Calling conventions: how a machine's functions find their arguments. Every call leaves the
stack-passed arguments in a fixed area of the caller's frame, whose size limits their number.
-/

namespace TreeCode

/-- A calling convention of which nothing has been issued yet. -/
structure ConventionTable where
  name : String
  /-- Bytes of a machine word, and of each place in a frame. -/
  wordSize : Int
  registers : RegisterTable
  /-- Words reserved in each frame for stack-passed arguments. -/
  outgoing : Nat
deriving DecidableEq

/-- A calling convention in terms of temporaries. -/
structure Convention where
  name : String
  wordSize : Int
  registers : Registers
  outgoing : Nat
deriving DecidableEq

/-- Issue the registers of a convention. -/
def ConventionTable.issue (table : ConventionTable) : Issue Convention := do
  let registers ← table.registers.issue
  return { name := table.name, wordSize := table.wordSize, registers, outgoing := table.outgoing }

namespace Convention

/-- The frame pointer. -/
def framePointer (conv : Convention) : Temp := conv.registers.framePointer

/-- The stack pointer. -/
def stackPointer (conv : Convention) : Temp := conv.registers.stackPointer

/-- The register of results. -/
def returnValue (conv : Convention) : Temp := conv.registers.returnValue

/-- The registers of the leading arguments. -/
def arguments (conv : Convention) : List Temp := conv.registers.arguments

/-- The registers that a call may change. -/
def callerSaved (conv : Convention) : List Temp := conv.registers.callerSaved

/-- The registers that a function preserves. -/
def calleeSaved (conv : Convention) : List Temp := conv.registers.calleeSaved

/-- `count` words in bytes. -/
def words (conv : Convention) (count : Int) : Int := count * conv.wordSize

/-- Where a function finds its stack-passed formal number `index`, relative to the frame
pointer: above the saved frame pointer and the return address. -/
def formalOffset (conv : Convention) (index : Nat) : Int := conv.words (2 + index)

/-- Where a caller leaves the stack-passed argument number `index`, relative to the stack
pointer. -/
def argumentOffset (conv : Convention) (index : Nat) : Int := conv.words index

/-- The registers whose values are needed when a function returns. -/
def exitRegisters (conv : Convention) : List Temp :=
  conv.returnValue :: conv.stackPointer :: conv.framePointer :: conv.calleeSaved

end Convention

end TreeCode
