/-!
Source programs of the Tiger language as the front end hands them over: checked, with the slot of
each record field resolved and with comparisons of strings marked. Positions are kept where a
fault can be reported.
-/

namespace TreeCode.Source

/-- A place in the source text, counted from one. Line zero means that the place is not known. -/
structure Pos where
  line : Nat := 0
  column : Nat := 0
deriving DecidableEq

/-- Whether a place is known. -/
def Pos.isKnown (pos : Pos) : Bool :=
  0 < pos.line

/-- The text of a place: line and column. -/
def Pos.text (pos : Pos) : String :=
  toString pos.line ++ "," ++ toString pos.column

/-- Operators of the source language. -/
inductive Oper where
  | plus | minus | times | divide | eq | neq | lt | le | gt | ge
deriving DecidableEq

/-- Whether an operator compares its operands. -/
def Oper.isComparison : Oper → Bool
  | plus => false
  | minus => false
  | times => false
  | divide => false
  | _ => true

/-- A variable where it is introduced: a declared variable, a parameter or the variable of a
loop. -/
structure Binder where
  name : String
  /-- Whether the variable has to live in memory because a nested function uses it. -/
  escapes : Bool := false
deriving DecidableEq

/-- What a type declaration declares. -/
inductive TypeDef where
  | name (target : String)
  | record (fields : List String)
  | array (element : String)
deriving DecidableEq

mutual
/-- Variables, as used and as assigned to. -/
inductive Var where
  | simple (name : String) (pos : Pos)
  /-- A field of a record; `slot` is its place in the record, once resolved. -/
  | field (record : Var) (name : String) (slot : Option Nat) (pos : Pos)
  /-- An element of an array. -/
  | subscript (array : Var) (index : Exp)
/-- Expressions. -/
inductive Exp where
  | nil
  | int (value : Int)
  | string (text : String)
  | var (var : Var)
  | call (func : String) (args : List Exp) (pos : Pos)
  /-- `strings` says that a comparison is one of strings. -/
  | op (oper : Oper) (left right : Exp) (strings : Bool)
  /-- A new record, its fields in the order of the type. -/
  | record (type : String) (fields : List Field)
  | seq (exps : List Exp)
  | assign (var : Var) (value : Exp)
  | ifThen (test yes : Exp)
  | ifElse (test yes no : Exp)
  | whileDo (test body : Exp)
  /-- Counts from `lo` to `hi`, both included. -/
  | forTo (var : Binder) (lo hi body : Exp)
  /-- Leaves the innermost loop. -/
  | breakLoop (pos : Pos)
  | letIn (decs : List Dec) (body : Exp)
  | array (type : String) (size init : Exp)
/-- A field of a new record. -/
structure Field where
  name : String
  value : Exp
/-- Declarations. Functions declared together may call each other. -/
inductive Dec where
  | functions (group : List FunDec)
  | var (var : Binder) (init : Exp)
  | type (name : String) (definition : TypeDef)
/-- A function; one without a result type returns nothing. -/
structure FunDec where
  name : String
  params : List Binder
  result : Option String
  body : Exp
end

end TreeCode.Source
