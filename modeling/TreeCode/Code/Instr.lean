import TreeCode.NameMap

/-!
Abstract instructions. The text of an instruction has placeholders for its operands, so that
temporaries can still be replaced by registers: `d0` after a mark is the first destination, `s1`
the second source, `j0` the first label and `i0` the first immediate.
-/

namespace TreeCode

/-- Kinds of instruction. A move copies one register to another and may be removed when both
are the same. -/
inductive InstrKind where
  | oper | move | label
deriving DecidableEq

/-- An instruction and its operands. -/
structure Instr where
  kind : InstrKind := .oper
  asm : String
  dst : List Temp := []
  src : List Temp := []
  /-- The labels it may jump to or mentions, or the label that it is. -/
  labels : List Label := []
  imms : List Int := []
  /-- Registers that it changes without naming them. -/
  implicitDefs : List Temp := []
  /-- Registers that it reads without naming them. -/
  implicitUses : List Temp := []
deriving DecidableEq

/-- The mark in front of a placeholder, a grave accent. -/
def placeholderMark : Char := Char.ofNat 96

namespace Instr

/-- The instruction that gives the next one the address `name`. -/
def atLabel (name : Label) : Instr :=
  { kind := .label, asm := String.ofList [placeholderMark, 'j', '0', ':'], labels := [name] }

/-- All registers that an instruction changes. -/
def defs (instr : Instr) : List Temp := instr.dst ++ instr.implicitDefs

/-- All registers that an instruction reads. -/
def uses (instr : Instr) : List Temp := instr.src ++ instr.implicitUses

/-- Whether an instruction copies one register to another. -/
def isMove (instr : Instr) : Bool := instr.kind == .move

end Instr

end TreeCode
