import TreeCode.Error
import TreeCode.Source.Binders

/-!
Escape analysis: which variables are used by a function nested inside the one that introduces
them. Such a variable has to live in the frame, where nested functions find it; all others may
stay in registers.

The walk resolves each use of a variable to its innermost binding. It stops at the first use
that has none; what it found before that stays found.
-/

namespace TreeCode.Source

/-- A variable in scope. -/
structure Binding where
  name : String
  /-- How many functions enclose the place where it is introduced. -/
  depth : Nat
  /-- Its number among the variables of the program. -/
  number : Nat
deriving DecidableEq

/-- The variables in scope, the innermost first. -/
abbrev Scope := List Binding

/-- The walk collects the numbers of escaping variables, also when it fails. -/
abbrev Walk := EStateM Error (List Nat)

/-- Bring binders into scope, numbered from `n`; a later one hides an earlier one of its name. -/
def Scope.bind (scope : Scope) (depth : Nat) : Nat → List Binder → Scope
  | _, [] => scope
  | n, binder :: binders => Scope.bind (⟨binder.name, depth, n⟩ :: scope) depth (n + 1) binders

/-- A use of `name` inside `depth` functions. The variable escapes if fewer functions enclose
the place where it is introduced. -/
def Scope.use (scope : Scope) (depth : Nat) (name : String) (pos : Pos) : Walk Unit :=
  match scope.find? fun binding => binding.name == name with
  | none => throw (.undeclaredVariable name pos)
  | some binding =>
    if binding.depth < depth then modify fun found => binding.number :: found
    else pure ()

mutual
/-- Walk over a variable; `n` is the number of the first variable introduced inside it. -/
def Var.walk (scope : Scope) (depth n : Nat) : Var → Walk Unit
  | .simple name pos => scope.use depth name pos
  | .field record _ _ _ => record.walk scope depth n
  | .subscript array index => do
    array.walk scope depth n
    index.walk scope depth (n + array.binders.length)
/-- Walk over an expression inside `depth` functions; `n` is the number of the first variable
that it introduces. -/
def Exp.walk (scope : Scope) (depth n : Nat) : Exp → Walk Unit
  | .nil => pure ()
  | .int _ => pure ()
  | .string _ => pure ()
  | .var var => var.walk scope depth n
  | .call _ args _ => Exp.walkList scope depth n args
  | .op _ left right _ => do
    left.walk scope depth n
    right.walk scope depth (n + left.binders.length)
  | .record _ fields => Field.walkList scope depth n fields
  | .seq exps => Exp.walkList scope depth n exps
  | .assign var value => do
    var.walk scope depth n
    value.walk scope depth (n + var.binders.length)
  | .ifThen test yes => do
    test.walk scope depth n
    yes.walk scope depth (n + test.binders.length)
  | .ifElse test yes no => do
    test.walk scope depth n
    yes.walk scope depth (n + test.binders.length)
    no.walk scope depth (n + test.binders.length + yes.binders.length)
  | .whileDo test body => do
    test.walk scope depth n
    body.walk scope depth (n + test.binders.length)
  | .forTo var lo hi body => do
    lo.walk scope depth n
    hi.walk scope depth (n + lo.binders.length)
    let own := n + lo.binders.length + hi.binders.length
    body.walk (⟨var.name, depth, own⟩ :: scope) depth (own + 1)
  | .breakLoop _ => pure ()
  | .letIn decs body => do
    let inner ← Dec.walkList scope depth n decs
    body.walk inner depth (n + (Dec.bindersList decs).length)
  | .array _ size init => do
    size.walk scope depth n
    init.walk scope depth (n + size.binders.length)
/-- Walk over expressions in order. -/
def Exp.walkList (scope : Scope) (depth n : Nat) : List Exp → Walk Unit
  | [] => pure ()
  | exp :: exps => do
    exp.walk scope depth n
    Exp.walkList scope depth (n + exp.binders.length) exps
/-- Walk over the values of record fields in order. -/
def Field.walkList (scope : Scope) (depth n : Nat) : List Field → Walk Unit
  | [] => pure ()
  | ⟨_, value⟩ :: fields => do
    value.walk scope depth n
    Field.walkList scope depth (n + value.binders.length) fields
/-- Walk over a declaration and give the scope after it. An initialiser does not see the
variable that it initialises; functions are not variables. -/
def Dec.walk (scope : Scope) (depth n : Nat) : Dec → Walk Scope
  | .functions group => do
    FunDec.walkList scope depth n group
    return scope
  | .var var init => do
    init.walk scope depth n
    return ⟨var.name, depth, n + init.binders.length⟩ :: scope
  | .type _ _ => pure scope
/-- Walk over declarations in order and give the scope after them. -/
def Dec.walkList (scope : Scope) (depth n : Nat) : List Dec → Walk Scope
  | [] => pure scope
  | dec :: decs => do
    let inner ← dec.walk scope depth n
    Dec.walkList inner depth (n + dec.binders.length) decs
/-- Walk over the bodies of a group of functions, each with its parameters in scope. -/
def FunDec.walkList (scope : Scope) (depth n : Nat) : List FunDec → Walk Unit
  | [] => pure ()
  | ⟨_, params, _, body⟩ :: group => do
    body.walk (scope.bind (depth + 1) n params) (depth + 1) (n + params.length)
    FunDec.walkList scope depth (n + params.length + body.binders.length) group
end

/-- Mark the variables of a program that escape. A mark that is already there stays. When a
variable is used that is not in scope, the variables found until then are marked all the same. -/
def Exp.markEscaping (program : Exp) : Except Error Unit × Exp :=
  match program.walk [] 0 0 [] with
  | .ok _ found => (.ok (), program.mark found 0)
  | .error error found => (.error error, program.mark found 0)

end TreeCode.Source
