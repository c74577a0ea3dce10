import Mathlib.Algebra.Group.Int.Defs
import TreeCode.Source.Syntax

/-!
A direct evaluator for the core of the source language: integers, variables, arithmetic and
comparisons, calls of the runtime system, sequences, assignments, conditionals, loops and local
variables. Values are words of 64 bits, and arithmetic wraps around. Evaluation goes strictly from
left to right. What can be observed of it is the trace of runtime calls.
-/

namespace TreeCode.Source

/-- The values that programs compute with. -/
abbrev Word := BitVec 64

/-- A call of a function of the runtime system. -/
structure RuntimeCall where
  name : String
  args : List Word
deriving DecidableEq

/-- What runtime calls return: a word for the calls made so far, the current one last. -/
abbrev Oracle := List RuntimeCall → Word

/-- The state of evaluation. -/
structure Store where
  /-- The variables in scope with their values, the innermost first. -/
  vars : List (String × Word)
  /-- The runtime calls made so far, the latest last. -/
  trace : List RuntimeCall
deriving DecidableEq

/-- One for true and zero for false. -/
def truth (b : Bool) : Word := if b then 1 else 0

/-- The value of an operation on integers. Division is not part of the core. -/
def Oper.apply : Oper → Word → Word → Option Word
  | .plus, a, b => some (a + b)
  | .minus, a, b => some (a - b)
  | .times, a, b => some (a * b)
  | .divide, _, _ => none
  | .eq, a, b => some (truth (a == b))
  | .neq, a, b => some (truth (a != b))
  | .lt, a, b => some (truth (a.slt b))
  | .le, a, b => some (truth (a.sle b))
  | .gt, a, b => some (truth (b.slt a))
  | .ge, a, b => some (truth (b.sle a))

/-- The variables after an assignment to the innermost one called `name`. -/
def assignVar (name : String) (v : Word) : List (String × Word) → Option (List (String × Word))
  | [] => none
  | (other, w) :: vars =>
    if other = name then some ((other, v) :: vars)
    else (assignVar name v vars).map ((other, w) :: ·)

namespace Store

/-- The value of the innermost variable called `name`. -/
def read (store : Store) (name : String) : Option Word := store.vars.lookup name

/-- The store after an assignment. -/
def assign (store : Store) (name : String) (v : Word) : Option Store := do
  let vars ← assignVar name v store.vars
  return { store with vars }

/-- The store with a new innermost variable. -/
def declare (store : Store) (name : String) (v : Word) : Store :=
  { store with vars := (name, v) :: store.vars }

/-- The store without its innermost variables. -/
def forget (store : Store) (count : Nat) : Store :=
  { store with vars := store.vars.drop count }

/-- The store after a runtime call. -/
def call (store : Store) (name : String) (args : List Word) : Store :=
  { store with trace := store.trace ++ [{ name, args }] }

end Store

mutual
/-- The value of an expression and the store after it, if at most `fuel` nested steps are needed.
An expression without a value counts as zero. -/
def Exp.eval (oracle : Oracle) : Nat → Exp → Store → Option (Word × Store)
  | 0, _, _ => none
  | _ + 1, .nil, store => some (0, store)
  | _ + 1, .int value, store => some (.ofInt 64 value, store)
  | _ + 1, .var (.simple name _), store => do
    let v ← store.read name
    return (v, store)
  | fuel + 1, .call func args _, store => do
    let (vs, store) ← Exp.evalArgs oracle fuel args store
    let store := store.call func vs
    return (oracle store.trace, store)
  | fuel + 1, .op oper left right _, store => do
    let (a, store) ← left.eval oracle fuel store
    let (b, store) ← right.eval oracle fuel store
    let v ← oper.apply a b
    return (v, store)
  | fuel + 1, .seq exps, store => Exp.evalSeq oracle fuel exps store
  | fuel + 1, .assign (.simple name _) value, store => do
    let (v, store) ← value.eval oracle fuel store
    let store ← store.assign name v
    return (0, store)
  | fuel + 1, .ifThen test yes, store => do
    let (v, store) ← test.eval oracle fuel store
    if v = 0 then return (0, store)
    let (_, store) ← yes.eval oracle fuel store
    return (0, store)
  | fuel + 1, .ifElse test yes no, store => do
    let (v, store) ← test.eval oracle fuel store
    if v = 0 then no.eval oracle fuel store else yes.eval oracle fuel store
  | fuel + 1, .whileDo test body, store => do
    let (v, store) ← test.eval oracle fuel store
    if v = 0 then return (0, store)
    let (_, store) ← body.eval oracle fuel store
    Exp.eval oracle fuel (.whileDo test body) store
  | fuel + 1, .letIn decs body, store => do
    let store ← Exp.evalDecs oracle fuel decs store
    let (v, store) ← body.eval oracle fuel store
    return (v, store.forget decs.length)
  | _ + 1, _, _ => none
/-- The values of arguments, from left to right. -/
def Exp.evalArgs (oracle : Oracle) : Nat → List Exp → Store → Option (List Word × Store)
  | _, [], store => some ([], store)
  | 0, _ :: _, _ => none
  | fuel + 1, arg :: args, store => do
    let (v, store) ← arg.eval oracle fuel store
    let (vs, store) ← Exp.evalArgs oracle fuel args store
    return (v :: vs, store)
/-- The value of the last expression of a sequence, after all others. -/
def Exp.evalSeq (oracle : Oracle) : Nat → List Exp → Store → Option (Word × Store)
  | _, [], store => some (0, store)
  | 0, _ :: _, _ => none
  | fuel + 1, [last], store => last.eval oracle fuel store
  | fuel + 1, exp :: exps, store => do
    let (_, store) ← exp.eval oracle fuel store
    Exp.evalSeq oracle fuel exps store
/-- The store after declarations of variables, each in scope from its own declaration on. -/
def Exp.evalDecs (oracle : Oracle) : Nat → List Dec → Store → Option Store
  | _, [], store => some store
  | fuel + 1, .var binder init :: decs, store => do
    let (v, store) ← init.eval oracle fuel store
    Exp.evalDecs oracle fuel decs (store.declare binder.name v)
  | _, _ :: _, _ => none
end

/-- Without fuel no expression is evaluated. -/
theorem Exp.eval_zero (oracle : Oracle) (exp : Exp) (store : Store) :
    exp.eval oracle 0 store = none := by
  unfold Exp.eval
  rfl

mutual
/-- Whether an expression belongs to the core language. Integers are signed words. -/
def Exp.isCore : Exp → Bool
  | .nil => true
  | .int value => -2 ^ 63 ≤ value && value < 2 ^ 63
  | .var (.simple _ _) => true
  | .call _ args _ => Exp.listIsCore args
  | .op oper left right strings =>
    oper ≠ .divide && !(strings && oper.isComparison) && left.isCore && right.isCore
  | .seq exps => Exp.listIsCore exps
  | .assign (.simple _ _) value => value.isCore
  | .ifThen test yes => test.isCore && yes.isCore
  | .ifElse test yes no => test.isCore && yes.isCore && no.isCore
  | .whileDo test body => test.isCore && body.isCore
  | .letIn decs body => Exp.decsAreCore decs && body.isCore
  | _ => false
/-- Whether all expressions belong to the core language. -/
def Exp.listIsCore : List Exp → Bool
  | [] => true
  | exp :: exps => exp.isCore && Exp.listIsCore exps
/-- Whether all declarations are of variables, and their values belong to the core language. -/
def Exp.decsAreCore : List Dec → Bool
  | [] => true
  | .var _ init :: decs => init.isCore && Exp.decsAreCore decs
  | _ :: _ => false
end

theorem Exp.listIsCore_of_call {func : String} {args : List Exp} {pos : Pos}
    (core : (Exp.call func args pos).isCore = true) : Exp.listIsCore args = true := by
  unfold Exp.isCore at core
  exact core

end TreeCode.Source
