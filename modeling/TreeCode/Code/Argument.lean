import TreeCode.Code.Emission

/-!
Placing the arguments of a call. The leading arguments go to the argument registers, the others to
stack positions above the stack pointer. The link of a nested function is passed on the stack, in
front of the arguments there.
-/

namespace TreeCode

/-- An argument of a call once it is evaluated. -/
inductive Argument where
  | imm (value : Int)
  | label (name : Label)
  | reg (t : Temp)
deriving DecidableEq

namespace Selector

open Selection (emit)

/-- Put an argument into the register `reg`. -/
def moveToRegister (sel : Selector) (reg : Temp) : Argument → Select Unit
  | .imm value => do
    emit (← sel.instrOf { imms := [value], result := some reg } sel.isa.args.immToReg)
  | .label name => do
    emit (← sel.instrOf { labels := [name], result := some reg } sel.isa.args.labelToReg)
  | .reg t => do
    emit (← sel.instrOf { regs := [t], result := some reg } sel.isa.args.regToReg)

/-- An argument in some register. -/
def inRegister (sel : Selector) : Argument → Select Temp
  | .reg t => pure t
  | value => do
    let t ← freshTemp
    sel.moveToRegister t value
    return t

/-- Put an argument at the stack position `index`. -/
def moveToStack (sel : Selector) (index : Nat) (value : Argument) : Select Unit := do
  let t ← sel.inRegister value
  emit (← sel.instrOf
    { regs := [sel.conv.stackPointer, t], imms := [sel.conv.argumentOffset index] }
    sel.isa.args.regToStack)

/-- Put the leading arguments into the argument registers. -/
def fillRegisters (sel : Selector) : List Temp → List Argument → Select Unit
  | reg :: registers, value :: values => do
    sel.moveToRegister reg value
    sel.fillRegisters registers values
  | _, _ => pure ()

/-- Put arguments on the stack, from position `index` on. -/
def fillStack (sel : Selector) (index : Nat) : List Argument → Select Unit
  | [] => pure ()
  | value :: values => do
    sel.moveToStack index value
    sel.fillStack (index + 1) values

/-- How many stack positions a call takes: one for the link, and one for each argument beyond the
argument registers. -/
def stackPositions (sel : Selector) (link : Option Tree.Exp) (args : List Tree.Exp) : Nat :=
  link.toList.length + (args.length - sel.conv.arguments.length)

end Selector

end TreeCode
