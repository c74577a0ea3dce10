import TreeCode.Supply
import TreeCode.Tree.Basic

/-!
Canonical tree code: a flat list of statements without `seq` and `eseq`. An operand that is a call
is computed into a temporary beforehand.

A tree is taken apart from the right. Effects of an operand are pulled in front of the node it
belongs to; a value that those effects might change is first saved in a fresh temporary.
-/

namespace TreeCode.Tree

/-- `first` and then `second`; a statement that does nothing is left out. -/
def Stm.andThen (first second : Stm) : Stm :=
  if first.isNop then second
  else if second.isNop then first
  else .seq first second

/-- Whether `value` is known to be the same before and after `stm`. Only constants and labels
are known not to change. -/
def Stm.keeps (stm : Stm) (value : Exp) : Bool :=
  stm.isNop ||
    match value with
    | .const _ => true
    | .name _ => true
    | _ => false

/-- Put the effects of an operand in front of those of the operands to its right. A value that
the effects on its right may change is saved before they run. -/
def before (operand : Stm × Exp) (later : Stm) : Fresh (Stm × Exp) :=
  if later.keeps operand.2 then
    return (operand.1.andThen later, operand.2)
  else do
    let t ← freshTemp
    return (operand.1.andThen ((Stm.move (.temp t) operand.2).andThen later), .temp t)

/-- An operand that is itself a call is made to leave its result in a fresh temporary, issued
before those that taking the call apart needs. `parts` takes the operand apart. -/
def Exp.hoist (operand : Exp) (parts : Fresh (Stm × Exp)) : Fresh (Stm × Exp) :=
  match operand with
  | .call .. => do
    let t ← freshTemp
    let (effects, value) ← parts
    return (effects.andThen (.move (.temp t) value), .temp t)
  | _ => parts

mutual
/-- The effects of an expression, and what is left to evaluate after them. -/
def Exp.extract : Exp → Fresh (Stm × Exp)
  | .const value => return (.nop, .const value)
  | .name label => return (.nop, .name label)
  | .temp t => return (.nop, .temp t)
  | .binop op left right => do
    let (later, right) ← right.hoist right.extract
    let (effects, left) ← before (← left.hoist left.extract) later
    return (effects, .binop op left right)
  | .mem address => do
    let (effects, address) ← address.hoist address.extract
    return (effects, .mem address)
  | .call func link args => do
    let (later, args) ← Exp.extractArgs args
    let (later, link) ← Exp.extractLink link later
    let (effects, func) ← before (← func.hoist func.extract) later
    return (effects, .call func link args)
  | .eseq stm exp => do
    let first ← stm.extract
    let (second, exp) ← exp.extract
    return (first.andThen second, exp)
/-- The link of a call, in front of the effects of the arguments. -/
def Exp.extractLink : Option Exp → Stm → Fresh (Stm × Option Exp)
  | none, later => return (later, none)
  | some link, later => do
    let (effects, link) ← before (← link.hoist link.extract) later
    return (effects, some link)
/-- The arguments of a call, from the last to the first. -/
def Exp.extractArgs : List Exp → Fresh (Stm × List Exp)
  | [] => return (.nop, [])
  | arg :: args => do
    let (later, args) ← Exp.extractArgs args
    let (effects, arg) ← before (← arg.hoist arg.extract) later
    return (effects, arg :: args)
/-- A move into the given destination of the value of `src`, which `parts` takes apart. -/
def Exp.extractMove (src : Exp) (parts : Fresh (Stm × Exp)) : Exp → Fresh Stm
  | .temp t => do
    let (effects, value) ← parts
    return effects.andThen (.move (.temp t) value)
  | .mem address => do
    let (later, value) ← src.hoist parts
    let (effects, address) ← before (← address.hoist address.extract) later
    return effects.andThen (.move (.mem address) value)
  | .eseq stm dst => do
    let first ← stm.extract
    let second ← Exp.extractMove src parts dst
    return first.andThen second
  | dst => do
    let (effects, value) ← src.hoist parts
    return effects.andThen (.move dst value)
/-- A statement without `eseq` that does the same. -/
def Stm.extract : Stm → Fresh Stm
  | .move dst src => Exp.extractMove src src.extract dst
  | .exp exp => do
    let (effects, value) ← exp.extract
    return effects.andThen (.exp value)
  | .jump target labels => do
    let (effects, target) ← target.hoist target.extract
    return effects.andThen (.jump target labels)
  | .cjump op left right yes no => do
    let (later, right) ← right.hoist right.extract
    let (effects, left) ← before (← left.hoist left.extract) later
    return effects.andThen (.cjump op left right yes no)
  | .seq first second => do
    let first ← first.extract
    let second ← second.extract
    return first.andThen second
  | .label label => return .label label
end

/-- The statements of a sequence in order, without those that do nothing. -/
def Stm.toList : Stm → List Stm
  | .seq first second => first.toList ++ second.toList
  | stm => if stm.isNop then [] else [stm]

/-- The canonical statements of `stm`. -/
def Stm.canonical (stm : Stm) : Fresh (List Stm) := do
  let stm ← stm.extract
  return stm.toList

end TreeCode.Tree
