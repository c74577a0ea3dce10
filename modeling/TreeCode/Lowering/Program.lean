import TreeCode.Lowering.Level
import TreeCode.Lowering.Lowered
import TreeCode.Source.Syntax

/-!
Lowering of source programs to tree code. Every function, and the program itself, becomes one
procedure fragment; every string literal becomes one string fragment.
-/

namespace TreeCode.Lowering

/-- Functions of the runtime system that a program may call without declaring them. They are not
nested and take no static link. -/
def runtimeLibrary : List String :=
  ["print", "flush", "getchar", "ord", "chr", "size", "substring", "concat", "not", "exit"]

/-- What a call goes to. -/
inductive Callee where
  | nested (label : Label) (link : Tree.Exp)
  | runtime (name : String)

/-- The call of a callee. -/
def Callee.call : Callee → List Tree.Exp → Tree.Exp
  | nested label link, args => .linkedCall label link args
  | runtime name, args => .plainCall name args

/-- The callee named `func` for a call in `level`. The static link of a nested function is the
frame of the level that declares it. A variable hides a runtime function of its name. -/
def resolveCallee (conv : Convention) (level : Level) (func : String) (pos : Source.Pos) :
    Lower Callee := do
  match ← meaning? func with
  | some (.function target label) =>
    match ← parentOf target with
    | some home => return .nested label (← framePointerOf conv level home)
    | none => throw (.unknownLevel target)
  | some (.variable _ _) => throw (.undeclaredFunction func pos)
  | none =>
    if runtimeLibrary.contains func then return .runtime func
    else throw (.undeclaredFunction func pos)

/-- The operator of tree code for an arithmetic operator, or the comparison for another. -/
def lowerOper : Source.Oper → Tree.BinOp ⊕ Tree.RelOp
  | .plus => .inl .plus
  | .minus => .inl .minus
  | .times => .inl .mul
  | .divide => .inl .div
  | .eq => .inr .eq
  | .neq => .inr .ne
  | .lt => .inr .lt
  | .le => .inr .le
  | .gt => .inr .gt
  | .ge => .inr .ge

/-- An operation on values. Strings are compared by the runtime system, whose answer compares
with zero as the strings do with each other. -/
def operation (oper : Source.Oper) (strings : Bool) (left right : Tree.Exp) : Lowered :=
  match lowerOper oper with
  | .inl op => .value (.binop op left right)
  | .inr op =>
    if strings then .test op (.plainCall "stringCompare" [left, right]) (.const 0)
    else .test op left right

/-- The code of `if test then yes`. -/
def conditional (test : Tree.Stm) (yes : Tree.Stm) (yesLabel noLabel : Label) : Tree.Stm :=
  .sequence [test, .label yesLabel, yes, .label noLabel]

/-- The code of `if test then yes else no`. -/
def alternative (test yes no : Tree.Stm) (yesLabel noLabel join : Label) : Tree.Stm :=
  .sequence
    [test, .label yesLabel, yes, .goto join, .label noLabel, no, .label join]

/-- The code of a loop that goes on while a test holds. -/
def whileLoop (test body : Tree.Stm) (testLabel bodyLabel done : Label) : Tree.Stm :=
  .sequence
    [.label testLabel, test, .label bodyLabel, body, .goto testLabel, .label done]

/-- The code of a loop in which `i` counts from `lo` to `hi`. The test against the limit comes
before the increment, so that the largest word is a possible limit. -/
def countingLoop (i limit lo hi : Tree.Exp) (body : Tree.Stm) (bodyLabel next done : Label) :
    Tree.Stm :=
  .sequence [
    .move i lo,
    .move limit hi,
    .cjump .le i limit bodyLabel done,
    .label bodyLabel,
    body,
    .cjump .lt i limit next done,
    .label next,
    .move i (.binop .plus i (.const 1)),
    .goto bodyLabel,
    .label done]

/-- The code of an alternative whose parts are lowered already. It has a value unless both branches
have none. -/
def joinBranches (test yes no : Lowered) (yesLabel noLabel join : Label) : Lower Lowered :=
  match yes, no with
  | .effect yes, .effect no => do
    let branch ← test.asBranch yesLabel noLabel
    return .effect (alternative branch yes no yesLabel noLabel join)
  | yes, no => do
    let r ← freshTemp
    let yes ← yes.asValue
    let no ← no.asValue
    let branch ← test.asBranch yesLabel noLabel
    return .value (.eseq
      (alternative branch (.move (.temp r) yes) (.move (.temp r) no) yesLabel noLabel join)
      (.temp r))

/-- The body of a function, which leaves its value in the register of results if it has one. -/
def bodyStm (conv : Convention) (result : Option String) (body : Lowered) : Fresh Tree.Stm :=
  match result with
  | some _ => do
    let value ← body.asValue
    return .move (.temp conv.returnValue) value
  | none => body.asEffect

/-- Bind the parameters of a function of `level` to where its formals live. -/
def bindParams (level : Level) : List Source.Binder → List Access → Lower Unit
  | param :: params, access :: formals => do
    bindName param.name (.variable level access)
    bindParams level params formals
  | _, _ => pure ()

/-- Declare the functions of a group inside `level`: give each a label and a level of its own, and
bring its name into scope. -/
def declareFunctions (conv : Convention) (level : Level) : List Source.FunDec → Lower (List Level)
  | [] => pure []
  | ⟨name, params, _, _⟩ :: group => do
    let label ← freshLabelFor name
    let own ← openLevel conv level label (params.map Source.Binder.escapes)
    bindName name (.function own label)
    let rest ← declareFunctions conv level group
    return own :: rest

mutual
/-- Lower a variable used in `level`. -/
def lowerVar (conv : Convention) (level : Level) : Source.Var → Lower Tree.Exp
  | .simple name pos => do
    match ← meaning? name with
    | some (.variable declared access) => variableAt conv access declared level
    | _ => throw (.undeclaredVariable name pos)
  | .field _ name none pos => throw (.unresolvedField name pos)
  | .field record _ (some slot) _ => do
    let base ← lowerVar conv level record
    return .mem (.binop .plus base (.const (conv.words slot)))
  | .subscript array index => do
    let base ← lowerVar conv level array
    let index ← (← lowerExp conv level index).asValue
    return .mem (.binop .plus base (.binop .mul index (.const (conv.words 1))))
/-- Lower an expression that stands in the function of `level`. -/
def lowerExp (conv : Convention) (level : Level) : Source.Exp → Lower Lowered
  | .nil => return .value (.const 0)
  | .int value => return .value (.const value)
  | .string text => do
    let label ← freshLabel
    addFragment (.string label text)
    return .value (.name label)
  | .var var => return .value (← lowerVar conv level var)
  | .call func args pos => do
    let callee ← resolveCallee conv level func pos
    let args ← lowerArgs conv level args
    return .value (callee.call args)
  | .op oper left right strings => do
    let left ← (← lowerExp conv level left).asValue
    let right ← (← lowerExp conv level right).asValue
    return operation oper strings left right
  | .record _ fields => do
    let r ← freshTemp
    let stores ← lowerFields conv level r 0 fields
    let size := Tree.Exp.const (conv.words fields.length)
    let alloc := Tree.Stm.move (.temp r) (.plainCall "allocRecord" [size])
    return .value (.eseq (.sequence (alloc :: stores)) (.temp r))
  | .seq exps => do
    let (stms, last) ← lowerSeq conv level exps
    last.after stms
  | .assign var value => do
    let dst ← lowerVar conv level var
    let src ← (← lowerExp conv level value).asValue
    return .effect (.move dst src)
  | .ifThen test yes => do
    let test ← lowerExp conv level test
    let yes ← lowerExp conv level yes
    let yesLabel ← freshLabel
    let noLabel ← freshLabel
    let yes ← yes.asEffect
    let branch ← test.asBranch yesLabel noLabel
    return .effect (conditional branch yes yesLabel noLabel)
  | .ifElse test yes no => do
    let test ← lowerExp conv level test
    let yes ← lowerExp conv level yes
    let yesLabel ← freshLabel
    let noLabel ← freshLabel
    let no ← lowerExp conv level no
    let join ← freshLabel
    joinBranches test yes no yesLabel noLabel join
  | .whileDo test body => do
    let testLabel ← freshLabel
    let bodyLabel ← freshLabel
    let done ← freshLabel
    let test ← lowerExp conv level test
    let body ← inLoop done (lowerExp conv level body)
    let body ← body.asEffect
    let branch ← test.asBranch bodyLabel done
    return .effect (whileLoop branch body testLabel bodyLabel done)
  | .forTo var lo hi body => do
    let lo ← (← lowerExp conv level lo).asValue
    let hi ← (← lowerExp conv level hi).asValue
    let access ← allocateVariable level var.escapes
    let limit ← freshTemp
    let bodyLabel ← freshLabel
    let next ← freshLabel
    let done ← freshLabel
    let body ← inScope do
      bindName var.name (.variable level access)
      inLoop done (lowerExp conv level body)
    let body ← body.asEffect
    return .effect (countingLoop (access.value (.temp conv.framePointer)) (.temp limit) lo hi body
      bodyLabel next done)
  | .breakLoop pos => do
    match ← loopExit? with
    | some exit => return .effect (.goto exit)
    | none => throw (.strayBreak pos)
  | .letIn decs body => inScope do
    let stms ← lowerDecs conv level decs
    let body ← lowerExp conv level body
    body.after stms
  | .array _ size init => do
    let size ← (← lowerExp conv level size).asValue
    let init ← (← lowerExp conv level init).asValue
    return .value (.plainCall "initArray" [size, init])
/-- Lower the arguments of a call, in order. -/
def lowerArgs (conv : Convention) (level : Level) : List Source.Exp → Lower (List Tree.Exp)
  | [] => pure []
  | arg :: args => do
    let value ← (← lowerExp conv level arg).asValue
    let rest ← lowerArgs conv level args
    return value :: rest
/-- Stores of the fields of a new record at `r`, from the given slot on. -/
def lowerFields (conv : Convention) (level : Level) (r : Temp) (slot : Nat) :
    List Source.Field → Lower (List Tree.Stm)
  | [] => pure []
  | ⟨_, value⟩ :: fields => do
    let value ← (← lowerExp conv level value).asValue
    let rest ← lowerFields conv level r (slot + 1) fields
    return .move (.mem (.binop .plus (.temp r) (.const (conv.words slot)))) value :: rest
/-- Lower a sequence: the effects of all expressions but the last, and the last one. -/
def lowerSeq (conv : Convention) (level : Level) :
    List Source.Exp → Lower (List Tree.Stm × Lowered)
  | [] => return ([], .effect .nop)
  | [last] => return ([], ← lowerExp conv level last)
  | exp :: exps => do
    let stm ← (← lowerExp conv level exp).asEffect
    let (stms, last) ← lowerSeq conv level exps
    return (stm :: stms, last)
/-- Lower declarations in order, bringing their names into the innermost scope. The result are
the moves that initialise the variables. -/
def lowerDecs (conv : Convention) (level : Level) : List Source.Dec → Lower (List Tree.Stm)
  | [] => pure []
  | .var var init :: decs => do
    let value ← (← lowerExp conv level init).asValue
    let access ← allocateVariable level var.escapes
    bindName var.name (.variable level access)
    let rest ← lowerDecs conv level decs
    return .move (access.value (.temp conv.framePointer)) value :: rest
  | .type _ _ :: decs => lowerDecs conv level decs
  | .functions group :: decs => do
    let levels ← declareFunctions conv level group
    lowerBodies conv levels group
    lowerDecs conv level decs
/-- Lower the bodies of declared functions, each in its own level. -/
def lowerBodies (conv : Convention) (levels : List Level) : List Source.FunDec → Lower Unit
  | [] => pure ()
  | ⟨_, params, result, body⟩ :: group =>
    match levels with
    | [] => pure ()
    | level :: levels => do
      let formals ← formalsOf level
      let body ← inScope do
        bindParams level params formals.tail
        outsideLoops (lowerExp conv level body)
      let stm ← bodyStm conv result body
      finishProc conv level stm
      lowerBodies conv levels group
end

/-- Lower a whole program into the outermost level. -/
def lowerProgram (conv : Convention) (program : Source.Exp) : Lower Unit := do
  let body ← lowerExp conv 0 program
  let body ← body.asEffect
  finishProc conv 0 body

end TreeCode.Lowering
