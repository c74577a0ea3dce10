import TreeCode.Code.Argument
import TreeCode.Text.Quoted

/-!
Selection of instructions: trees are covered from the root by the patterns of an instruction set.
What a pattern binds to registers is covered first, from left to right, then the arguments of a
call are placed, then come the instructions of the pattern itself.
-/

namespace TreeCode

namespace Selector

mutual
/-- Emit the instructions for a statement. -/
def coverStm (sel : Selector) (stm : Tree.Stm) : Select Unit :=
  match stm with
  | .seq first second => do
    sel.coverStm first
    sel.coverStm second
  | .label name => Selection.emit (.atLabel name)
  | stm =>
    match sel.isa.cover (.stm stm) with
    | .error error => throw error
    | .ok ⟨found, _⟩ => sel.coverMatch found none
termination_by 8 * stm.size
decreasing_by all_goals simp_all only [Tree.Stm.size, Tree.Node.size]; omega
/-- Emit the instructions for an expression and give the register of its value. -/
def coverExp (sel : Selector) (exp : Tree.Exp) : Select Temp :=
  match exp with
  | .temp t => pure t
  | .eseq stm value => do
    sel.coverStm stm
    sel.coverExp value
  | exp =>
    match sel.isa.cover (.exp exp) with
    | .error error => throw error
    | .ok ⟨found, _⟩ => do
      let result ← freshTemp
      sel.coverMatch found (some result)
      return result
termination_by 8 * exp.size
decreasing_by all_goals simp_all only [Tree.Exp.size, Tree.Node.size]; omega
/-- Emit the instructions for a match: for what it binds, and then its own. -/
def coverMatch (sel : Selector) (found : Match) (result : Option Temp) : Select Unit := do
  let regs ← sel.coverAll found.bindings.regs
  sel.placeCall found.bindings.call
  sel.emitTemplates
    { regs, imms := found.bindings.imms, labels := found.bindings.labels,
      relop := found.bindings.relop, result }
    found.pattern.emit
termination_by 8 * found.load + 5
decreasing_by all_goals simp only [Match.load, Bindings.load]; omega
/-- Evaluate expressions into registers, from left to right. -/
def coverAll (sel : Selector) (exps : List Tree.Exp) : Select (List Temp) :=
  match exps with
  | [] => pure []
  | exp :: exps => do
    let t ← sel.coverExp exp
    let rest ← sel.coverAll exps
    return t :: rest
termination_by 8 * Tree.Exp.listSize exps + 1
decreasing_by all_goals simp only [Tree.Exp.listSize]; have := Tree.Exp.size_pos exp; omega
/-- Place the operands of a bound call, if there is one. -/
def placeCall (sel : Selector) (call : Option CallOperands) : Select Unit :=
  match call with
  | none => pure ()
  | some call => sel.placeOperands call.link call.args
termination_by 8 * CallOperands.load call + 4
decreasing_by simp only [CallOperands.load]; omega
/-- Place the link and the arguments of a call. All of them are evaluated before any argument
register is written. The link takes the first position on the stack. -/
def placeOperands (sel : Selector) (link : Option Tree.Exp) (args : List Tree.Exp) :
    Select Unit :=
  if sel.conv.outgoing < sel.stackPositions link args then
    throw (.convention
      (.tooManyArguments (sel.stackPositions link args) sel.conv.name sel.conv.outgoing))
  else do
    let link ← sel.evalLink link
    let values ← sel.evalArgs args
    sel.fillRegisters sel.conv.arguments values
    sel.fillStack 0 (link ++ values.drop sel.conv.arguments.length)
termination_by 8 * (Tree.Exp.linkSize link + Tree.Exp.listSize args) + 3
decreasing_by all_goals omega
/-- Evaluate the link of a call, if there is one. -/
def evalLink (sel : Selector) (link : Option Tree.Exp) : Select (List Argument) :=
  match link with
  | none => pure []
  | some link => do
    let value ← sel.evalArg link
    return [value]
termination_by 8 * Tree.Exp.linkSize link + 2
decreasing_by simp only [Tree.Exp.linkSize]; omega
/-- Evaluate the arguments of a call, in order. -/
def evalArgs (sel : Selector) (args : List Tree.Exp) : Select (List Argument) :=
  match args with
  | [] => pure []
  | arg :: args => do
    let value ← sel.evalArg arg
    let rest ← sel.evalArgs args
    return value :: rest
termination_by 8 * Tree.Exp.listSize args + 2
decreasing_by all_goals simp only [Tree.Exp.listSize]; have := Tree.Exp.size_pos arg; omega
/-- Evaluate an argument. Constants that fit, labels and temporaries need no code; calls and
statements have no place inside an argument. -/
def evalArg (sel : Selector) (arg : Tree.Exp) : Select Argument :=
  match arg with
  | .name label => return .label label
  | .temp t => return .reg t
  | .call func link args => throw (.misplacedArgument (.call func link args))
  | .eseq stm exp => throw (.misplacedArgument (.eseq stm exp))
  | .const value =>
    if sel.isa.args.imm.contains value then return .imm value
    else do
      let t ← sel.coverExp (.const value)
      return .reg t
  | arg => do
    let t ← sel.coverExp arg
    return .reg t
termination_by 8 * arg.size + 1
decreasing_by all_goals omega
end

/-- The instructions for a statement. -/
def select (sel : Selector) (stm : Tree.Stm) : Select (List Instr) := do
  sel.coverStm stm
  Selection.take

/-- Emit the instructions for statements, in order. -/
def coverList (sel : Selector) : List Tree.Stm → Select Unit
  | [] => pure ()
  | stm :: stms => do
    sel.coverStm stm
    sel.coverList stms

/-- The instructions for a list of statements. -/
def selectAll (sel : Selector) (stms : List Tree.Stm) : Select (List Instr) := do
  sel.coverList stms
  Selection.take

/-- The instructions that place the link and the arguments of a call. Instructions that are
waiting in the buffer stay there. -/
def selectArgs (sel : Selector) (link : Option Tree.Exp) (args : List Tree.Exp) :
    Select (List Instr) := fun state =>
  match sel.placeOperands link args { state with emitted := #[] } with
  | .ok _ after => .ok after.emitted.toList { after with emitted := state.emitted }
  | .error error after => .error error { after with emitted := state.emitted }

/-- The directive of a string literal. -/
def stringDirective (sel : Selector) (text : String) : Instr :=
  { asm := "\t" ++ sel.isa.stringDirective ++ " \"" ++ Text.quote text ++ "\"" }

/-- The label of a string literal and its directive. -/
def stringLiteral (sel : Selector) (name : Label) (text : String) : List Instr :=
  [.atLabel name, sel.stringDirective text]

/-- The empty instruction at the end of a function, which keeps the registers that are needed
after it alive. -/
def exitSink (sel : Selector) : Instr :=
  { asm := "", src := sel.conv.exitRegisters }

end Selector

end TreeCode
