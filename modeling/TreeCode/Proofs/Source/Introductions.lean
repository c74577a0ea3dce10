import TreeCode.Proofs.Source.Outline
import TreeCode.Source.Binders

/-!
The variables of a program and the functions that they belong to. They are listed in source order;
functions have the numbers that the outline of the program gives them.
-/

namespace TreeCode.Source

/-- A variable where a program introduces it. -/
structure Introduction where
  /-- The number of the function that it belongs to. -/
  owner : Nat
  /-- Its place among the parameters of the function, if it is one of them. -/
  position : Option Nat := none
  binder : Binder
deriving DecidableEq

/-- Whether a variable is a parameter for which `count` argument registers leave none. -/
def Introduction.onStack (count : Nat) (entry : Introduction) : Bool :=
  match entry.position with
  | none => false
  | some place => count ≤ place

/-- Whether a variable has to get a word of the frame. -/
def Introduction.inSlot (count : Nat) (entry : Introduction) : Bool :=
  entry.binder.escapes && !entry.onStack count

/-- Whether a variable has to get a temporary. -/
def Introduction.inTemp (count : Nat) (entry : Introduction) : Bool :=
  !entry.binder.escapes && !entry.onStack count

namespace Outline

/-- No variables. -/
def noVariables (_ : Nat) : List Introduction := []

/-- A declared variable or the variable of a loop, which belongs to the function `owner`. -/
def single (owner : Nat) (binder : Binder) (_ : Nat) : List Introduction := [{ owner, binder }]

/-- The parameters of the function `owner` from the one at `place` on. -/
def parameters (owner : Nat) : Nat → List Binder → List Introduction
  | _, [] => []
  | place, binder :: params =>
    { owner, position := some place, binder } :: parameters owner (place + 1) params

/-- The variables of one part, whose outline is `first`, and of another part after it. -/
def follow (first : Nat → Outline) (vars vars' : Nat → List Introduction) (n : Nat) :
    List Introduction :=
  vars n ++ vars' (n + (first n).functions.length)

end Outline

open Outline (finish andThen noVariables single parameters follow)

mutual
/-- The variables introduced inside a variable's subscripts. -/
def Var.introductions (owner : Nat) (outer : List Nat) : Var → Nat → List Introduction
  | .simple _ _ => noVariables
  | .field record _ _ _ => record.introductions owner outer
  | .subscript array index =>
    follow (array.outline (owner :: outer)) (array.introductions owner outer)
      (index.introductions owner outer)
/-- The variables that an expression introduces which stands in the function `owner`, inside the
functions `outer`. The first function that it declares has the number given last. -/
def Exp.introductions (owner : Nat) (outer : List Nat) : Exp → Nat → List Introduction
  | .nil => noVariables
  | .int _ => noVariables
  | .string _ => noVariables
  | .var var => var.introductions owner outer
  | .call _ args _ => Exp.introductionsList owner outer args
  | .op _ left right _ =>
    follow (left.outline (owner :: outer)) (left.introductions owner outer)
      (right.introductions owner outer)
  | .record _ fields => Field.introductionsList owner outer fields
  | .seq exps => Exp.introductionsList owner outer exps
  | .assign var value =>
    follow (var.outline (owner :: outer)) (var.introductions owner outer)
      (value.introductions owner outer)
  | .ifThen test yes =>
    follow (test.outline (owner :: outer)) (test.introductions owner outer)
      (yes.introductions owner outer)
  | .ifElse test yes no =>
    follow (test.outline (owner :: outer)) (test.introductions owner outer)
      (follow (yes.outline (owner :: outer)) (yes.introductions owner outer)
        (no.introductions owner outer))
  | .whileDo test body =>
    follow (test.outline (owner :: outer)) (test.introductions owner outer)
      (body.introductions owner outer)
  | .forTo var lo hi body =>
    follow (lo.outline (owner :: outer)) (lo.introductions owner outer)
      (follow (hi.outline (owner :: outer))
        (fun n => hi.introductions owner outer n ++ single owner var n)
        (body.introductions owner outer))
  | .breakLoop _ => noVariables
  | .letIn decs body =>
    follow (Dec.outlineList (owner :: outer) decs) (Dec.introductionsList owner outer decs)
      (body.introductions owner outer)
  | .array _ size init =>
    follow (size.outline (owner :: outer)) (size.introductions owner outer)
      (init.introductions owner outer)
/-- The variables that expressions introduce. -/
def Exp.introductionsList (owner : Nat) (outer : List Nat) : List Exp → Nat → List Introduction
  | [] => noVariables
  | exp :: exps =>
    follow (exp.outline (owner :: outer)) (exp.introductions owner outer)
      (Exp.introductionsList owner outer exps)
/-- The variables that the values of record fields introduce. -/
def Field.introductionsList (owner : Nat) (outer : List Nat) :
    List Field → Nat → List Introduction
  | [] => noVariables
  | ⟨_, value⟩ :: fields =>
    follow (value.outline (owner :: outer)) (value.introductions owner outer)
      (Field.introductionsList owner outer fields)
/-- The variables that a declaration introduces, those of the functions that it declares
included. -/
def Dec.introductions (owner : Nat) (outer : List Nat) : Dec → Nat → List Introduction
  | .functions group => fun n =>
    FunDec.introductionsList (owner :: outer) n group (n + group.length)
  | .var var init => fun n => init.introductions owner outer n ++ single owner var n
  | .type _ _ => noVariables
/-- The variables that declarations introduce. -/
def Dec.introductionsList (owner : Nat) (outer : List Nat) : List Dec → Nat → List Introduction
  | [] => noVariables
  | dec :: decs =>
    follow (dec.outline (owner :: outer)) (dec.introductions owner outer)
      (Dec.introductionsList owner outer decs)
/-- The parameters of functions, the first of which has the given number, and the variables of
their bodies. -/
def FunDec.introductionsList (around : List Nat) (number : Nat) :
    List FunDec → Nat → List Introduction
  | [] => noVariables
  | ⟨_, params, _, body⟩ :: group =>
    follow (andThen (body.outline (number :: around)) (finish number))
      (fun n => parameters number 0 params ++ body.introductions number around n)
      (FunDec.introductionsList around (number + 1) group)
end

section Binders

variable {first : Nat → Outline} {vars vars' : Nat → List Introduction}
  {binders binders' : List Binder}

theorem map_parameters (owner : Nat) : ∀ (place : Nat) (params : List Binder),
    (parameters owner place params).map Introduction.binder = params
  | _, [] => rfl
  | place, param :: params => congrArg (param :: ·) (map_parameters owner (place + 1) params)

theorem map_follow (one : ∀ n, (vars n).map Introduction.binder = binders)
    (two : ∀ n, (vars' n).map Introduction.binder = binders') (n : Nat) :
    (follow first vars vars' n).map Introduction.binder = binders ++ binders' := by
  rw [follow, List.map_append, one, two]

theorem map_single (owner : Nat) (binder : Binder)
    (one : ∀ n, (vars n).map Introduction.binder = binders) (n : Nat) :
    (vars n ++ single owner binder n).map Introduction.binder = binders ++ [binder] := by
  rw [List.map_append, one]
  rfl

mutual
theorem Var.map_introductions (owner : Nat) (outer : List Nat) :
    ∀ (var : Var) (n : Nat), (var.introductions owner outer n).map Introduction.binder = var.binders
  | .simple _ _, _ => rfl
  | .field record _ _ _, n => Var.map_introductions owner outer record n
  | .subscript array index, n =>
    map_follow (Var.map_introductions owner outer array) (Exp.map_introductions owner outer index) n
/-- The variables are those that the program text binds, in its order. -/
theorem Exp.map_introductions (owner : Nat) (outer : List Nat) :
    ∀ (exp : Exp) (n : Nat), (exp.introductions owner outer n).map Introduction.binder = exp.binders
  | .nil, _ => rfl
  | .int _, _ => rfl
  | .string _, _ => rfl
  | .breakLoop _, _ => rfl
  | .var var, n => Var.map_introductions owner outer var n
  | .call _ args _, n => Exp.map_introductionsList owner outer args n
  | .op _ left right _, n =>
    map_follow (Exp.map_introductions owner outer left) (Exp.map_introductions owner outer right) n
  | .record _ fields, n => Field.map_introductionsList owner outer fields n
  | .seq exps, n => Exp.map_introductionsList owner outer exps n
  | .assign var value, n =>
    map_follow (Var.map_introductions owner outer var) (Exp.map_introductions owner outer value) n
  | .ifThen test yes, n =>
    map_follow (Exp.map_introductions owner outer test) (Exp.map_introductions owner outer yes) n
  | .ifElse test yes no, n => by
    rw [Exp.binders, List.append_assoc]
    exact map_follow (Exp.map_introductions owner outer test)
      (map_follow (Exp.map_introductions owner outer yes)
        (Exp.map_introductions owner outer no)) n
  | .whileDo test body, n =>
    map_follow (Exp.map_introductions owner outer test) (Exp.map_introductions owner outer body) n
  | .forTo var lo hi body, n => by
    rw [Exp.binders, List.append_assoc, List.append_cons]
    exact map_follow (Exp.map_introductions owner outer lo)
      (map_follow (map_single owner var (Exp.map_introductions owner outer hi))
        (Exp.map_introductions owner outer body)) n
  | .letIn decs body, n =>
    map_follow (Dec.map_introductionsList owner outer decs)
      (Exp.map_introductions owner outer body) n
  | .array _ size init, n =>
    map_follow (Exp.map_introductions owner outer size) (Exp.map_introductions owner outer init) n
theorem Exp.map_introductionsList (owner : Nat) (outer : List Nat) :
    ∀ (exps : List Exp) (n : Nat),
      (Exp.introductionsList owner outer exps n).map Introduction.binder = Exp.bindersList exps
  | [], _ => rfl
  | exp :: exps, n =>
    map_follow (Exp.map_introductions owner outer exp)
      (Exp.map_introductionsList owner outer exps) n
theorem Field.map_introductionsList (owner : Nat) (outer : List Nat) :
    ∀ (fields : List Field) (n : Nat),
      (Field.introductionsList owner outer fields n).map Introduction.binder =
        Field.bindersList fields
  | [], _ => rfl
  | ⟨_, value⟩ :: fields, n =>
    map_follow (Exp.map_introductions owner outer value)
      (Field.map_introductionsList owner outer fields) n
theorem Dec.map_introductions (owner : Nat) (outer : List Nat) :
    ∀ (dec : Dec) (n : Nat), (dec.introductions owner outer n).map Introduction.binder = dec.binders
  | .functions group, n =>
    FunDec.map_introductionsList (owner :: outer) n group (n + group.length)
  | .var var init, n => map_single owner var (Exp.map_introductions owner outer init) n
  | .type _ _, _ => rfl
theorem Dec.map_introductionsList (owner : Nat) (outer : List Nat) :
    ∀ (decs : List Dec) (n : Nat),
      (Dec.introductionsList owner outer decs n).map Introduction.binder = Dec.bindersList decs
  | [], _ => rfl
  | dec :: decs, n =>
    map_follow (Dec.map_introductions owner outer dec)
      (Dec.map_introductionsList owner outer decs) n
theorem FunDec.map_introductionsList (around : List Nat) (number : Nat) :
    ∀ (group : List FunDec) (n : Nat),
      (FunDec.introductionsList around number group n).map Introduction.binder =
        FunDec.bindersList group
  | [], _ => rfl
  | ⟨_, params, _, body⟩ :: group, n => by
    have own (n : Nat) : (parameters number 0 params ++ body.introductions number around n).map
        Introduction.binder = params ++ body.binders := by
      rw [List.map_append, map_parameters, Exp.map_introductions number around body n]
    exact map_follow own (FunDec.map_introductionsList around (number + 1) group) n
end

end Binders

end TreeCode.Source
