import TreeCode.Lowering.Program
import TreeCode.Source.Binders

/-!
The places of a program at which it can be at fault: uses of variables and functions, loop exits,
record fields, conditions and function headings. Each comes with what the text of the program says
about it, above all the names that are in scope there. Escape marks have no part in this.
-/

namespace TreeCode.Source

/-- What a name is declared as. -/
inductive NameKind where
  | variable
  | function
deriving DecidableEq

/-- The names in scope, the innermost first. Variables and functions share one name space. -/
abbrev Names := List (String × NameKind)

/-- Bring names into scope; a later one hides an earlier one. -/
def Names.bind (names : Names) (kind : NameKind) : List String → Names
  | [] => names
  | name :: rest => Names.bind ((name, kind) :: names) kind rest

/-- The names in scope after a declaration. -/
def Dec.scope (names : Names) : Dec → Names
  | .functions group => names.bind .function (group.map FunDec.name)
  | .var binder _ => names.bind .variable [binder.name]
  | .type _ _ => names

mutual
/-- Whether an expression is a statement: whatever it does, it has no value. -/
def Exp.isStatement : Exp → Bool
  | .seq exps => Exp.endsInStatement exps
  | .assign _ _ => true
  | .ifThen _ _ => true
  | .ifElse _ yes no => yes.isStatement && no.isStatement
  | .whileDo _ _ => true
  | .forTo _ _ _ _ => true
  | .breakLoop _ => true
  | .letIn _ body => body.isStatement
  | _ => false
/-- Whether the last of some expressions is a statement; doing nothing is one. -/
def Exp.endsInStatement : List Exp → Bool
  | [] => true
  | [last] => last.isStatement
  | _ :: next :: exps => Exp.endsInStatement (next :: exps)
end

/-- A place at which a program can be at fault. -/
inductive Site where
  /-- A variable is used. -/
  | use (names : Names) (name : String)
  /-- A function is called. -/
  | call (names : Names) (name : String)
  /-- A loop is left; `looped` says whether one is there, inside the function. -/
  | exit (looped : Bool)
  /-- A field of a record is used, whose slot may not be resolved. -/
  | field (slot : Option Nat)
  /-- A condition, which may be a statement. -/
  | test (statement : Bool)
  /-- A function is declared. -/
  | function (params : Nat)
deriving DecidableEq

/-- Nothing is wrong at a place. -/
def Site.Fine (conv : Convention) : Site → Prop
  | .use names name => names.lookup name = some .variable
  | .call names name => names.lookup name = some .function ∨
    names.lookup name = none ∧ name ∈ Lowering.runtimeLibrary
  | .exit looped => looped = true
  | .field slot => slot.isSome = true
  | .test statement => statement = false
  -- The static link and the parameters that find no register go on the stack.
  | .function params => 1 + (params - conv.arguments.length) ≤ conv.outgoing

instance (conv : Convention) : DecidablePred (Site.Fine conv)
  | .use names name => inferInstanceAs (Decidable (names.lookup name = _))
  | .call names name => inferInstanceAs (Decidable (names.lookup name = _ ∨ _ ∧ _))
  | .exit looped => inferInstanceAs (Decidable (looped = true))
  | .field slot => inferInstanceAs (Decidable (slot.isSome = true))
  | .test statement => inferInstanceAs (Decidable (statement = false))
  | .function params => inferInstanceAs (Decidable (1 + (params - _) ≤ _))

/-- Nothing is wrong at any of these places. -/
def AllFine (conv : Convention) (sites : List Site) : Prop :=
  ∀ site ∈ sites, site.Fine conv

section AllFine

variable {conv : Convention} {first second : List Site} {site : Site}

@[simp] theorem allFine_nil : AllFine conv [] := nofun

@[simp] theorem allFine_cons :
    AllFine conv (site :: second) ↔ site.Fine conv ∧ AllFine conv second :=
  List.forall_mem_cons

@[simp] theorem allFine_append :
    AllFine conv (first ++ second) ↔ AllFine conv first ∧ AllFine conv second :=
  List.forall_mem_append

end AllFine

mutual
/-- The places in a variable, where `names` are in scope. -/
def Var.sites (names : Names) (looped : Bool) : Var → List Site
  | .simple name _ => [.use names name]
  | .field record _ slot _ => .field slot :: record.sites names looped
  | .subscript array index => array.sites names looped ++ index.sites names looped
/-- The places in an expression, where `names` are in scope and `looped` says whether there is a
loop to be left. -/
def Exp.sites (names : Names) (looped : Bool) : Exp → List Site
  | .nil => []
  | .int _ => []
  | .string _ => []
  | .var var => var.sites names looped
  | .call func args _ => .call names func :: Exp.sitesList names looped args
  | .op _ left right _ => left.sites names looped ++ right.sites names looped
  | .record _ fields => Field.sitesList names looped fields
  | .seq exps => Exp.sitesList names looped exps
  | .assign var value => var.sites names looped ++ value.sites names looped
  | .ifThen test yes =>
    test.sites names looped ++ yes.sites names looped ++ [.test test.isStatement]
  | .ifElse test yes no =>
    test.sites names looped ++ yes.sites names looped ++ no.sites names looped ++
      [.test test.isStatement]
  | .whileDo test body =>
    test.sites names looped ++ body.sites names true ++ [.test test.isStatement]
  | .forTo var lo hi body =>
    lo.sites names looped ++ hi.sites names looped ++
      body.sites (names.bind .variable [var.name]) true
  | .breakLoop _ => [.exit looped]
  | .letIn decs body =>
    Dec.sitesList names looped decs ++ body.sites (decs.foldl Dec.scope names) looped
  | .array _ size init => size.sites names looped ++ init.sites names looped
/-- The places in expressions that follow each other. -/
def Exp.sitesList (names : Names) (looped : Bool) : List Exp → List Site
  | [] => []
  | exp :: exps => exp.sites names looped ++ Exp.sitesList names looped exps
/-- The places in the values of record fields. -/
def Field.sitesList (names : Names) (looped : Bool) : List Field → List Site
  | [] => []
  | ⟨_, value⟩ :: fields => value.sites names looped ++ Field.sitesList names looped fields
/-- The places in a declaration. The functions of a group are in scope in all of their bodies. -/
def Dec.sites (names : Names) (looped : Bool) : Dec → List Site
  | .functions group =>
    (group.map fun f => .function f.params.length) ++
      FunDec.sitesList (names.bind .function (group.map FunDec.name)) group
  | .var _ init => init.sites names looped
  | .type _ _ => []
/-- The places in declarations, of which each is in scope in those after it. -/
def Dec.sitesList (names : Names) (looped : Bool) : List Dec → List Site
  | [] => []
  | dec :: decs => dec.sites names looped ++ Dec.sitesList (dec.scope names) looped decs
/-- The places in the bodies of functions. The loops around a function cannot be left from inside
it. -/
def FunDec.sitesList (names : Names) : List FunDec → List Site
  | [] => []
  | ⟨_, params, _, body⟩ :: group =>
    body.sites (names.bind .variable (params.map Binder.name)) false ++
      FunDec.sitesList names group
end

section Marks

variable (marks : List Nat)

theorem markList_names : ∀ (n : Nat) (binders : List Binder),
    (Binder.markList marks n binders).map Binder.name = binders.map Binder.name
  | _, [] => rfl
  | n, binder :: binders => congrArg (binder.name :: ·) (markList_names (n + 1) binders)

theorem length_markList : ∀ (n : Nat) (binders : List Binder),
    (Binder.markList marks n binders).length = binders.length
  | _, [] => rfl
  | n, _ :: binders => congrArg (· + 1) (length_markList (n + 1) binders)

/-- Marking changes neither the names of functions nor how many parameters they have. -/
theorem markList_headings : ∀ (n : Nat) (group : List FunDec),
    (FunDec.markList marks n group).map FunDec.name = group.map FunDec.name ∧
      (FunDec.markList marks n group).map (fun f => Site.function f.params.length) =
        group.map fun f => Site.function f.params.length
  | _, [] => ⟨rfl, rfl⟩
  | n, ⟨name, params, _, body⟩ :: group => by
    obtain ⟨names, headings⟩ :=
      markList_headings (n + params.length + body.binders.length) group
    unfold FunDec.markList
    simp only [List.map_cons, names, headings, length_markList, and_self]

/-- Marked declarations bring the same names into scope. -/
theorem Dec.scope_mark (names : Names) (n : Nat) (dec : Dec) :
    (dec.mark marks n).scope names = dec.scope names := by
  cases dec with
  | functions group =>
    exact congrArg (names.bind .function) (markList_headings marks n group).1
  | var var init => rfl
  | type name definition => rfl

theorem Dec.foldl_scope_mark : ∀ (n : Nat) (names : Names) (decs : List Dec),
    (Dec.markList marks n decs).foldl Dec.scope names = decs.foldl Dec.scope names
  | _, _, [] => rfl
  | n, names, dec :: decs => by
    unfold Dec.markList
    rw [List.foldl_cons, List.foldl_cons, Dec.scope_mark]
    exact Dec.foldl_scope_mark _ _ decs

mutual
/-- Marking does not change what has a value. -/
theorem Exp.isStatement_mark : ∀ (n : Nat) (exp : Exp),
    (exp.mark marks n).isStatement = exp.isStatement
  | n, .seq exps => Exp.endsInStatement_mark n exps
  | n, .ifElse test yes no => by
    unfold Exp.mark Exp.isStatement
    rw [Exp.isStatement_mark _ yes, Exp.isStatement_mark _ no]
  | n, .letIn decs body => Exp.isStatement_mark _ body
  | _, .nil => rfl
  | _, .int _ => rfl
  | _, .string _ => rfl
  | _, .var _ => rfl
  | _, .call _ _ _ => rfl
  | _, .op _ _ _ _ => rfl
  | _, .record _ _ => rfl
  | _, .assign _ _ => rfl
  | _, .ifThen _ _ => rfl
  | _, .whileDo _ _ => rfl
  | _, .forTo _ _ _ _ => rfl
  | _, .breakLoop _ => rfl
  | _, .array _ _ _ => rfl
theorem Exp.endsInStatement_mark : ∀ (n : Nat) (exps : List Exp),
    Exp.endsInStatement (Exp.markList marks n exps) = Exp.endsInStatement exps
  | _, [] => rfl
  | n, [last] => Exp.isStatement_mark n last
  | n, exp :: next :: exps => Exp.endsInStatement_mark (n + exp.binders.length) (next :: exps)
end

mutual
/-- The sites of a marked program are those of the program. -/
theorem Var.sites_mark (names : Names) (looped : Bool) : ∀ (n : Nat) (var : Var),
    (var.mark marks n).sites names looped = var.sites names looped
  | _, .simple _ _ => rfl
  | n, .field record _ slot _ => congrArg (Site.field slot :: ·) (Var.sites_mark _ _ n record)
  | n, .subscript array index => by
    unfold Var.mark Var.sites
    rw [Var.sites_mark _ _ n array, Exp.sites_mark _ _ _ index]
/-- Marks make no difference to the places in an expression. -/
theorem Exp.sites_mark (names : Names) (looped : Bool) : ∀ (n : Nat) (exp : Exp),
    (exp.mark marks n).sites names looped = exp.sites names looped
  | _, .nil => rfl
  | _, .int _ => rfl
  | _, .string _ => rfl
  | _, .breakLoop _ => rfl
  | n, .var var => Var.sites_mark _ _ n var
  | n, .call func args _ => congrArg (Site.call names func :: ·) (Exp.sitesList_mark _ _ n args)
  | n, .op _ left right _ => by
    unfold Exp.mark Exp.sites
    rw [Exp.sites_mark _ _ n left, Exp.sites_mark _ _ _ right]
  | n, .record _ fields => Field.sitesList_mark _ _ n fields
  | n, .seq exps => Exp.sitesList_mark _ _ n exps
  | n, .assign var value => by
    unfold Exp.mark Exp.sites
    rw [Var.sites_mark _ _ n var, Exp.sites_mark _ _ _ value]
  | n, .ifThen test yes => by
    unfold Exp.mark Exp.sites
    rw [Exp.sites_mark _ _ n test, Exp.sites_mark _ _ _ yes, Exp.isStatement_mark]
  | n, .ifElse test yes no => by
    unfold Exp.mark Exp.sites
    rw [Exp.sites_mark _ _ n test, Exp.sites_mark _ _ _ yes, Exp.sites_mark _ _ _ no,
      Exp.isStatement_mark]
  | n, .whileDo test body => by
    unfold Exp.mark Exp.sites
    rw [Exp.sites_mark _ _ n test, Exp.sites_mark _ _ _ body, Exp.isStatement_mark]
  | n, .forTo var lo hi body => by
    unfold Exp.mark Exp.sites
    rw [Exp.sites_mark _ _ n lo, Exp.sites_mark _ _ _ hi, Exp.sites_mark _ _ _ body]
    rfl
  | n, .letIn decs body => by
    unfold Exp.mark Exp.sites
    rw [Dec.sitesList_mark _ _ n decs, Exp.sites_mark _ _ _ body, Dec.foldl_scope_mark]
  | n, .array _ size init => by
    unfold Exp.mark Exp.sites
    rw [Exp.sites_mark _ _ n size, Exp.sites_mark _ _ _ init]
theorem Exp.sitesList_mark (names : Names) (looped : Bool) : ∀ (n : Nat) (exps : List Exp),
    Exp.sitesList names looped (Exp.markList marks n exps) = Exp.sitesList names looped exps
  | _, [] => rfl
  | n, exp :: exps => by
    unfold Exp.markList Exp.sitesList
    rw [Exp.sites_mark _ _ n exp, Exp.sitesList_mark _ _ _ exps]
theorem Field.sitesList_mark (names : Names) (looped : Bool) : ∀ (n : Nat) (fields : List Field),
    Field.sitesList names looped (Field.markList marks n fields) =
      Field.sitesList names looped fields
  | _, [] => rfl
  | n, ⟨_, value⟩ :: fields => by
    unfold Field.markList Field.sitesList
    rw [Exp.sites_mark _ _ n value, Field.sitesList_mark _ _ _ fields]
theorem Dec.sites_mark (names : Names) (looped : Bool) : ∀ (n : Nat) (dec : Dec),
    (dec.mark marks n).sites names looped = dec.sites names looped
  | n, .functions group => by
    obtain ⟨sameNames, headings⟩ := markList_headings marks n group
    unfold Dec.mark Dec.sites
    rw [sameNames, headings, FunDec.sitesList_mark _ n group]
  | n, .var _ init => Exp.sites_mark _ _ n init
  | _, .type _ _ => rfl
theorem Dec.sitesList_mark (names : Names) (looped : Bool) : ∀ (n : Nat) (decs : List Dec),
    Dec.sitesList names looped (Dec.markList marks n decs) = Dec.sitesList names looped decs
  | _, [] => rfl
  | n, dec :: decs => by
    unfold Dec.markList Dec.sitesList
    rw [Dec.sites_mark _ _ n dec, Dec.scope_mark, Dec.sitesList_mark _ _ _ decs]
theorem FunDec.sitesList_mark (names : Names) : ∀ (n : Nat) (group : List FunDec),
    FunDec.sitesList names (FunDec.markList marks n group) = FunDec.sitesList names group
  | _, [] => rfl
  | n, ⟨_, params, _, body⟩ :: group => by
    unfold FunDec.markList FunDec.sitesList
    rw [Exp.sites_mark _ _ _ body, markList_names, FunDec.sitesList_mark _ _ group]
end

end Marks

end TreeCode.Source
