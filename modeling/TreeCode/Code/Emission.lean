import TreeCode.Code.InstructionSet
import TreeCode.Machine.Convention
import TreeCode.Supply

/-!
Emission of instructions. Templates become instructions once their operands are known.
Instructions collect in a buffer. They stay there when selection fails, and come out with the
next selection that succeeds.
-/

namespace TreeCode

/-- The state of selection. -/
structure Selection where
  supply : Supply
  /-- Instructions that were emitted and not taken yet. -/
  emitted : Array Instr := #[]

/-- Computations on the state of selection. A failure keeps the state that it arose in. -/
abbrev Select := EStateM Error Selection

instance : MonadLift Fresh Select where
  monadLift act := fun state =>
    let (value, supply) := act state.supply
    .ok value { state with supply }

instance : MonadLift (Except Error) Select where
  monadLift act := fun state =>
    match act with
    | .ok value => .ok value state
    | .error error => .error error state

/-- What selection works with. -/
structure Selector where
  conv : Convention
  isa : InstructionSet

/-- Emit an instruction. -/
def Selection.emit (instr : Instr) : Select Unit :=
  modify fun state => { state with emitted := state.emitted.push instr }

/-- Take the emitted instructions. -/
def Selection.take : Select (List Instr) := fun state =>
  .ok state.emitted.toList { state with emitted := #[] }

/-- The operands that a template chooses from. -/
structure Operands where
  regs : List Temp := []
  imms : List Int := []
  labels : List Label := []
  relop : Option Tree.RelOp := none
  result : Option Temp := none

/-- Whether a text has the placeholder of the condition suffix. -/
def needsCondition : List Char → Bool
  | a :: b :: rest => (a = placeholderMark && b = 'c') || needsCondition (b :: rest)
  | _ => false

/-- Put the condition suffix in place of its placeholder. -/
def fillCondition (suffix : List Char) : List Char → List Char
  | a :: b :: rest =>
    if a = placeholderMark && b = 'c' then suffix ++ fillCondition suffix rest
    else a :: fillCondition suffix (b :: rest)
  | rest => rest

namespace Selector

/-- The register for an operand of a template. -/
def register (sel : Selector) (operands : Operands) : Operand → Except Error Temp
  | .result =>
    match operands.result with
    | some t => .ok t
    | none => .error (.table .resultOfStatement)
  | .reg index =>
    match operands.regs[index]? with
    | some t => .ok t
    | none => .error (.table (.unboundRegister index))
  | .machine name =>
    match sel.conv.registers.find? name with
    | some t => .ok t
    | none => .error (.table (.unknownRegister sel.conv.name name))

/-- The label for a position in a template. -/
def labelAt (operands : Operands) (asm : String) (index : Nat) : Except Error Label :=
  match operands.labels[index]? with
  | some label => .ok label
  | none => .error (.table (.unboundLabel index asm))

/-- The immediate for a position in a template. -/
def immediateAt (operands : Operands) (asm : String) (index : Nat) : Except Error Int :=
  match operands.imms[index]? with
  | some value => .ok value
  | none => .error (.table (.unboundImmediate index asm))

/-- The text of a template, with the suffix of the bound comparison filled in. -/
def conditionText (sel : Selector) (operands : Operands) (asm : String) : Except Error String :=
  if needsCondition asm.toList then
    match operands.relop with
    | some op => .ok (String.ofList (fillCondition (sel.isa.condition op).toList asm.toList))
    | none => .error (.table (.unboundCondition asm))
  else .ok asm

/-- The registers that a call changes: those that calls may change, and that of the result. -/
def clobbered (sel : Selector) : List Temp :=
  if sel.conv.callerSaved.contains sel.conv.returnValue then sel.conv.callerSaved
  else sel.conv.callerSaved ++ [sel.conv.returnValue]

/-- The instruction that a template gives with these operands. -/
def instrOf (sel : Selector) (operands : Operands) (template : Template) :
    Except Error Instr := do
  let dst ← template.dst.mapM (sel.register operands)
  let src ← template.src.mapM (sel.register operands)
  let labels ← template.labels.mapM (labelAt operands template.asm)
  let imms ← template.imms.mapM (immediateAt operands template.asm)
  let asm ← sel.conditionText operands template.asm
  return {
    kind := if template.isMove then .move else .oper
    asm, dst, src, labels, imms
    implicitDefs := if template.isCall then sel.clobbered else []
    implicitUses := if template.isCall then sel.conv.arguments else [] }

/-- Emit the instructions of templates, in order. -/
def emitTemplates (sel : Selector) (operands : Operands) : List Template → Select Unit
  | [] => pure ()
  | template :: templates => do
    Selection.emit (← sel.instrOf operands template)
    sel.emitTemplates operands templates

end Selector

end TreeCode
