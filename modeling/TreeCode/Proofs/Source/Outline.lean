import Mathlib.Data.List.Perm.Basic
import TreeCode.Source.Syntax

/-!
The outline of a program: its functions, each with a number and the functions around it, the order
in which they are finished, and the string literals. A group of functions is numbered before
anything that its bodies declare. A function is finished at the end of its body, so the functions
inside it are finished before it.
-/

namespace TreeCode.Source

/-- A function of a program. -/
structure Function where
  name : String
  number : Nat
  /-- The numbers of the functions around it, the innermost first. -/
  around : List Nat

/-- What there is in a part of a program. -/
structure Outline where
  /-- The functions, by number. -/
  functions : List Function := []
  /-- The numbers of the functions whose bodies end here, in order. -/
  finished : List Nat := []
  /-- The texts of the string literals, in source order. -/
  literals : List String := []

namespace Outline

instance : Append Outline where
  append first second :=
    { functions := first.functions ++ second.functions
      finished := first.finished ++ second.finished
      literals := first.literals ++ second.literals }

/-- Nothing of note. -/
def nothing (_ : Nat) : Outline := {}

/-- A string literal. -/
def literal (text : String) (_ : Nat) : Outline := { literals := [text] }

/-- The end of a function's body. -/
def finish (number : Nat) (_ : Nat) : Outline := { finished := [number] }

/-- One part after another, with the functions numbered from `n`. -/
def andThen (first second : Nat → Outline) (n : Nat) : Outline :=
  first n ++ second (n + (first n).functions.length)

/-- The functions of a group, numbered from `n`. -/
def group (around : List Nat) : Nat → List FunDec → List Function
  | _, [] => []
  | n, f :: rest => ⟨f.name, n, around⟩ :: group around (n + 1) rest

end Outline

open Outline (nothing literal finish andThen)

mutual
/-- The outline of a variable inside the functions `around`. -/
def Var.outline (around : List Nat) : Var → Nat → Outline
  | .simple _ _ => nothing
  | .field record _ _ _ => record.outline around
  | .subscript array index => andThen (array.outline around) (index.outline around)
/-- The outline of an expression inside the functions `around`. The first function that it declares
has the number given last. -/
def Exp.outline (around : List Nat) : Exp → Nat → Outline
  | .nil => nothing
  | .int _ => nothing
  | .string text => literal text
  | .var var => var.outline around
  | .call _ args _ => Exp.outlineList around args
  | .op _ left right _ => andThen (left.outline around) (right.outline around)
  | .record _ fields => Field.outlineList around fields
  | .seq exps => Exp.outlineList around exps
  | .assign var value => andThen (var.outline around) (value.outline around)
  | .ifThen test yes => andThen (test.outline around) (yes.outline around)
  | .ifElse test yes no =>
    andThen (test.outline around) (andThen (yes.outline around) (no.outline around))
  | .whileDo test body => andThen (test.outline around) (body.outline around)
  | .forTo _ lo hi body =>
    andThen (lo.outline around) (andThen (hi.outline around) (body.outline around))
  | .breakLoop _ => nothing
  | .letIn decs body => andThen (Dec.outlineList around decs) (body.outline around)
  | .array _ size init => andThen (size.outline around) (init.outline around)
/-- The outline of expressions that follow each other. -/
def Exp.outlineList (around : List Nat) : List Exp → Nat → Outline
  | [] => nothing
  | exp :: exps => andThen (exp.outline around) (Exp.outlineList around exps)
/-- The outline of the values of record fields. -/
def Field.outlineList (around : List Nat) : List Field → Nat → Outline
  | [] => nothing
  | ⟨_, value⟩ :: fields => andThen (value.outline around) (Field.outlineList around fields)
/-- The outline of a declaration. -/
def Dec.outline (around : List Nat) : Dec → Nat → Outline
  | .functions group => fun n =>
    { functions := Outline.group around n group } ++
      FunDec.outlineList around n group (n + group.length)
  | .var _ init => init.outline around
  | .type _ _ => nothing
/-- The outline of declarations that follow each other. -/
def Dec.outlineList (around : List Nat) : List Dec → Nat → Outline
  | [] => nothing
  | dec :: decs => andThen (dec.outline around) (Dec.outlineList around decs)
/-- The outline of the bodies of functions, the first of which has the given number. -/
def FunDec.outlineList (around : List Nat) (number : Nat) : List FunDec → Nat → Outline
  | [] => nothing
  | ⟨_, _, _, body⟩ :: group =>
    andThen (andThen (body.outline (number :: around)) (finish number))
      (FunDec.outlineList around (number + 1) group)
end

/-- The outline of a whole program, whose own body has the number 0. -/
def Exp.programOutline (program : Exp) : Outline :=
  andThen (program.outline [0]) (finish 0) 1

namespace Outline

@[simp] theorem functions_append (first second : Outline) :
    (first ++ second).functions = first.functions ++ second.functions := rfl

@[simp] theorem finished_append (first second : Outline) :
    (first ++ second).finished = first.finished ++ second.finished := rfl

@[simp] theorem literals_append (first second : Outline) :
    (first ++ second).literals = first.literals ++ second.literals := rfl

/-- The functions of a group are numbered in order. -/
theorem group_numbers (around : List Nat) : ∀ (n : Nat) (functions : List FunDec),
    (group around n functions).map Function.number = List.range' n functions.length
  | _, [] => rfl
  | n, _ :: rest => congrArg (n :: ·) (group_numbers around (n + 1) rest)

theorem length_group (around : List Nat) : ∀ (n : Nat) (functions : List FunDec),
    (group around n functions).length = functions.length
  | _, [] => rfl
  | n, _ :: rest => congrArg (· + 1) (length_group around (n + 1) rest)

/-- All functions of a group are declared in the same function. -/
theorem around_of_mem_group {around : List Nat} {f : Function} :
    ∀ (n : Nat) (functions : List FunDec), f ∈ group around n functions → f.around = around
  | _, [], member => nomatch member
  | n, _ :: rest, member => by
    rcases List.mem_cons.mp member with rfl | later
    · rfl
    · exact around_of_mem_group (n + 1) rest later

variable {around ended ended' : List Nat} {n number : Nat} {outline : Outline}
  {first second : Nat → Outline}

/-- An outline inside the functions `around` is in order: functions are numbered without gaps from
`n` on, each of them is finished once, and so are those of `ended`, which were declared before. A
function is finished before those around it, as far as they are finished here. -/
structure Tidy (around ended : List Nat) (n : Nat) (outline : Outline) : Prop where
  numbers : outline.functions.map Function.number = List.range' n outline.functions.length
  finished : outline.finished.Perm (outline.functions.map Function.number ++ ended)
  inner : ∀ f ∈ outline.functions, ∀ outer ∈ f.around,
    outer ∈ around ∨ [f.number, outer].Sublist outline.finished

theorem tidy_nothing (around : List Nat) (n : Nat) : Tidy around [] n (nothing n) :=
  ⟨rfl, .refl _, nofun⟩

theorem tidy_literal (around : List Nat) (text : String) (n : Nat) :
    Tidy around [] n (literal text n) :=
  ⟨rfl, .refl _, nofun⟩

/-- Outlines that are tidy one by one are tidy one after the other. -/
theorem tidy_andThen (one : ∀ n, Tidy around ended n (first n))
    (two : ∀ n, Tidy around ended' n (second n)) (n : Nat) :
    Tidy around (ended ++ ended') n (andThen first second n) := by
  have early := one n
  have late := two (n + (first n).functions.length)
  refine ⟨?_, ?_, ?_⟩
  · rw [andThen, functions_append, List.map_append, early.numbers, late.numbers,
      List.length_append, List.range'_append_1]
  · rw [andThen, functions_append, finished_append, List.map_append]
    refine (early.finished.append late.finished).trans ?_
    rw [List.append_assoc, List.append_assoc]
    refine .append_left _ ?_
    rw [← List.append_assoc, ← List.append_assoc]
    exact .append_right _ List.perm_append_comm
  · intro f member outer further
    rcases List.mem_append.mp member with here | there
    · refine (early.inner f here outer further).imp_right fun before => ?_
      exact before.trans (List.sublist_append_left _ _)
    · refine (late.inner f there outer further).imp_right fun before => ?_
      exact before.trans (List.sublist_append_right _ _)

/-- The end of a function comes after all that its body declares. -/
theorem tidy_body {body : Nat → Outline} (inside : ∀ n, Tidy (number :: around) [] n (body n))
    (n : Nat) : Tidy around [number] n (andThen body (finish number) n) := by
  have tidy := inside n
  have finished := tidy.finished
  rw [List.append_nil] at finished
  refine ⟨?_, ?_, ?_⟩
  · rw [andThen, functions_append, finish, List.append_nil]
    exact tidy.numbers
  · rw [andThen, functions_append, finished_append, finish, List.append_nil]
    exact finished.append_right _
  · intro f member outer further
    rw [andThen, functions_append, finish, List.append_nil] at member
    have ends : f.number ∈ (body n).finished :=
      finished.mem_iff.mpr (List.mem_map.mpr ⟨f, member, rfl⟩)
    rcases tidy.inner f member outer further with here | before
    · rcases List.mem_cons.mp here with rfl | above
      · exact .inr ((List.singleton_sublist.mpr ends).append (List.Sublist.refl [outer]))
      · exact .inl above
    · exact .inr (before.trans (List.sublist_append_left _ _))

/-- The functions of a group come before what their bodies declare, and all end with them. -/
theorem tidy_group {functions : List FunDec} {bodies : Outline}
    (inside : Tidy around (List.range' n functions.length) (n + functions.length) bodies) :
    Tidy around [] n ({ functions := group around n functions } ++ bodies) := by
  refine ⟨?_, ?_, ?_⟩
  · rw [functions_append, List.map_append, group_numbers, inside.numbers, List.length_append,
      length_group, List.range'_append_1]
  · rw [functions_append, finished_append, List.map_append, group_numbers, List.append_nil]
    exact inside.finished.trans List.perm_append_comm
  · intro f member outer further
    rcases List.mem_append.mp member with here | there
    · rw [around_of_mem_group n functions here] at further
      exact .inl further
    · exact inside.inner f there outer further

end Outline

open Outline

mutual
/-- The outline of a variable is tidy: its functions are numbered in the order of their declaration,
and finished innermost first. -/
theorem Var.outline_tidy (around : List Nat) :
    ∀ (var : Var) (n : Nat), Tidy around [] n (var.outline around n)
  | .simple _ _ => tidy_nothing around
  | .field record _ _ _ => Var.outline_tidy around record
  | .subscript array index =>
    tidy_andThen (Var.outline_tidy around array) (Exp.outline_tidy around index)
/-- The outline of an expression is in order. -/
theorem Exp.outline_tidy (around : List Nat) :
    ∀ (exp : Exp) (n : Nat), Tidy around [] n (exp.outline around n)
  | .nil => tidy_nothing around
  | .int _ => tidy_nothing around
  | .string text => tidy_literal around text
  | .breakLoop _ => tidy_nothing around
  | .var var => Var.outline_tidy around var
  | .call _ args _ => Exp.outlineList_tidy around args
  | .op _ left right _ =>
    tidy_andThen (Exp.outline_tidy around left) (Exp.outline_tidy around right)
  | .record _ fields => Field.outlineList_tidy around fields
  | .seq exps => Exp.outlineList_tidy around exps
  | .assign var value =>
    tidy_andThen (Var.outline_tidy around var) (Exp.outline_tidy around value)
  | .ifThen test yes =>
    tidy_andThen (Exp.outline_tidy around test) (Exp.outline_tidy around yes)
  | .ifElse test yes no =>
    tidy_andThen (Exp.outline_tidy around test)
      (tidy_andThen (Exp.outline_tidy around yes) (Exp.outline_tidy around no))
  | .whileDo test body =>
    tidy_andThen (Exp.outline_tidy around test) (Exp.outline_tidy around body)
  | .forTo _ lo hi body =>
    tidy_andThen (Exp.outline_tidy around lo)
      (tidy_andThen (Exp.outline_tidy around hi) (Exp.outline_tidy around body))
  | .letIn decs body =>
    tidy_andThen (Dec.outlineList_tidy around decs) (Exp.outline_tidy around body)
  | .array _ size init =>
    tidy_andThen (Exp.outline_tidy around size) (Exp.outline_tidy around init)
theorem Exp.outlineList_tidy (around : List Nat) :
    ∀ (exps : List Exp) (n : Nat), Tidy around [] n (Exp.outlineList around exps n)
  | [] => tidy_nothing around
  | exp :: exps => tidy_andThen (Exp.outline_tidy around exp) (Exp.outlineList_tidy around exps)
theorem Field.outlineList_tidy (around : List Nat) :
    ∀ (fields : List Field) (n : Nat), Tidy around [] n (Field.outlineList around fields n)
  | [] => tidy_nothing around
  | ⟨_, value⟩ :: fields =>
    tidy_andThen (Exp.outline_tidy around value) (Field.outlineList_tidy around fields)
theorem Dec.outline_tidy (around : List Nat) :
    ∀ (dec : Dec) (n : Nat), Tidy around [] n (dec.outline around n)
  | .functions group, n =>
    tidy_group (FunDec.outlineList_tidy around n group (n + group.length))
  | .var _ init, n => Exp.outline_tidy around init n
  | .type _ _, n => tidy_nothing around n
theorem Dec.outlineList_tidy (around : List Nat) :
    ∀ (decs : List Dec) (n : Nat), Tidy around [] n (Dec.outlineList around decs n)
  | [] => tidy_nothing around
  | dec :: decs => tidy_andThen (Dec.outline_tidy around dec) (Dec.outlineList_tidy around decs)
/-- The functions of a group are finished once, and each after the functions in its body. -/
theorem FunDec.outlineList_tidy (around : List Nat) (number : Nat) :
    ∀ (group : List FunDec) (n : Nat), Tidy around (List.range' number group.length) n
      (FunDec.outlineList around number group n)
  | [] => tidy_nothing around
  | ⟨_, _, _, body⟩ :: group =>
    tidy_andThen (tidy_body (Exp.outline_tidy (number :: around) body))
      (FunDec.outlineList_tidy around (number + 1) group)
end

/-- The outline of a program is tidy, with the program itself as function 0. -/
theorem Exp.programOutline_tidy (program : Exp) : Tidy [] [0] 1 program.programOutline :=
  tidy_body (Exp.outline_tidy [0] program) 1

end TreeCode.Source
