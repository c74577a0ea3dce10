import TreeCode.Source.Syntax

/-!
The variables that a program introduces. They are numbered from zero in source order: a variable
declared by an initialiser or a pair of bounds comes after what stands in them, the parameters of
a function before its body.
-/

namespace TreeCode.Source

mutual
/-- The variables introduced inside a variable's subscripts. -/
def Var.binders : Var → List Binder
  | .simple _ _ => []
  | .field record _ _ _ => record.binders
  | .subscript array index => array.binders ++ index.binders
/-- The variables that an expression introduces, in source order. -/
def Exp.binders : Exp → List Binder
  | .nil => []
  | .int _ => []
  | .string _ => []
  | .var var => var.binders
  | .call _ args _ => Exp.bindersList args
  | .op _ left right _ => left.binders ++ right.binders
  | .record _ fields => Field.bindersList fields
  | .seq exps => Exp.bindersList exps
  | .assign var value => var.binders ++ value.binders
  | .ifThen test yes => test.binders ++ yes.binders
  | .ifElse test yes no => test.binders ++ yes.binders ++ no.binders
  | .whileDo test body => test.binders ++ body.binders
  | .forTo var lo hi body => lo.binders ++ hi.binders ++ var :: body.binders
  | .breakLoop _ => []
  | .letIn decs body => Dec.bindersList decs ++ body.binders
  | .array _ size init => size.binders ++ init.binders
/-- The variables that expressions introduce. -/
def Exp.bindersList : List Exp → List Binder
  | [] => []
  | exp :: exps => exp.binders ++ Exp.bindersList exps
/-- The variables that the values of record fields introduce. -/
def Field.bindersList : List Field → List Binder
  | [] => []
  | ⟨_, value⟩ :: fields => value.binders ++ Field.bindersList fields
/-- The variables that a declaration introduces, those of nested functions included. -/
def Dec.binders : Dec → List Binder
  | .functions group => FunDec.bindersList group
  | .var var init => init.binders ++ [var]
  | .type _ _ => []
/-- The variables that declarations introduce. -/
def Dec.bindersList : List Dec → List Binder
  | [] => []
  | dec :: decs => dec.binders ++ Dec.bindersList decs
/-- The variables that functions introduce: for each its parameters, then those of its body. -/
def FunDec.bindersList : List FunDec → List Binder
  | [] => []
  | ⟨_, params, _, body⟩ :: group => params ++ body.binders ++ FunDec.bindersList group
end

/-- The binder number `n`, marked as escaping when `n` is one of `marks`. -/
def Binder.mark (marks : List Nat) (n : Nat) (binder : Binder) : Binder :=
  { binder with escapes := binder.escapes || marks.contains n }

/-- Binders numbered from `n`, those among `marks` marked as escaping. -/
def Binder.markList (marks : List Nat) : Nat → List Binder → List Binder
  | _, [] => []
  | n, binder :: binders => binder.mark marks n :: Binder.markList marks (n + 1) binders

mutual
/-- Mark binders inside a variable's subscripts. -/
def Var.mark (marks : List Nat) (n : Nat) : Var → Var
  | .simple name pos => .simple name pos
  | .field record name slot pos => .field (record.mark marks n) name slot pos
  | .subscript array index =>
    .subscript (array.mark marks n) (index.mark marks (n + array.binders.length))
/-- Mark as escaping the variables whose numbers are among `marks`, where the first variable that
the expression introduces has number `n`. Nothing else changes. -/
def Exp.mark (marks : List Nat) (n : Nat) : Exp → Exp
  | .nil => .nil
  | .int value => .int value
  | .string text => .string text
  | .var var => .var (var.mark marks n)
  | .call func args pos => .call func (Exp.markList marks n args) pos
  | .op oper left right strings =>
    .op oper (left.mark marks n) (right.mark marks (n + left.binders.length)) strings
  | .record type fields => .record type (Field.markList marks n fields)
  | .seq exps => .seq (Exp.markList marks n exps)
  | .assign var value => .assign (var.mark marks n) (value.mark marks (n + var.binders.length))
  | .ifThen test yes =>
    .ifThen (test.mark marks n) (yes.mark marks (n + test.binders.length))
  | .ifElse test yes no =>
    .ifElse (test.mark marks n) (yes.mark marks (n + test.binders.length))
      (no.mark marks (n + test.binders.length + yes.binders.length))
  | .whileDo test body =>
    .whileDo (test.mark marks n) (body.mark marks (n + test.binders.length))
  | .forTo var lo hi body =>
    let own := n + lo.binders.length + hi.binders.length
    .forTo (var.mark marks own) (lo.mark marks n) (hi.mark marks (n + lo.binders.length))
      (body.mark marks (own + 1))
  | .breakLoop pos => .breakLoop pos
  | .letIn decs body =>
    .letIn (Dec.markList marks n decs) (body.mark marks (n + (Dec.bindersList decs).length))
  | .array type size init =>
    .array type (size.mark marks n) (init.mark marks (n + size.binders.length))
/-- Mark binders in expressions that follow each other. -/
def Exp.markList (marks : List Nat) (n : Nat) : List Exp → List Exp
  | [] => []
  | exp :: exps => exp.mark marks n :: Exp.markList marks (n + exp.binders.length) exps
/-- Mark binders in the values of record fields. -/
def Field.markList (marks : List Nat) (n : Nat) : List Field → List Field
  | [] => []
  | ⟨name, value⟩ :: fields =>
    ⟨name, value.mark marks n⟩ :: Field.markList marks (n + value.binders.length) fields
/-- Mark binders in a declaration. -/
def Dec.mark (marks : List Nat) (n : Nat) : Dec → Dec
  | .functions group => .functions (FunDec.markList marks n group)
  | .var var init => .var (var.mark marks (n + init.binders.length)) (init.mark marks n)
  | .type name definition => .type name definition
/-- Mark binders in declarations that follow each other. -/
def Dec.markList (marks : List Nat) (n : Nat) : List Dec → List Dec
  | [] => []
  | dec :: decs => dec.mark marks n :: Dec.markList marks (n + dec.binders.length) decs
/-- Mark binders in the functions of a group. -/
def FunDec.markList (marks : List Nat) (n : Nat) : List FunDec → List FunDec
  | [] => []
  | ⟨name, params, result, body⟩ :: group =>
    ⟨name, Binder.markList marks n params, result, body.mark marks (n + params.length)⟩ ::
      FunDec.markList marks (n + params.length + body.binders.length) group
end

end TreeCode.Source
