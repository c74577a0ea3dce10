import TreeCode.Proofs.Outcome
import TreeCode.Source.Escape

/-!
What the uses of variables in a program refer to, read off the text from the inside outwards: the
uses in an expression refer to nothing yet, and each construct that introduces a variable takes
those uses in its scope that have the name of the variable and are not taken further inside. On
the way a use may leave functions, and then it lies in a function nested inside the one that
introduces its variable. Neither scopes nor depths are needed for this.

The walk over a program with a scope comes to the same: it acts on the uses one after the other.
-/

namespace TreeCode.Source

/-- A use of a variable, as seen from a place around it. -/
structure Use where
  name : String
  pos : Pos
  /-- The number of the variable that is used, if it is introduced inside the place. -/
  target : Option Nat := none
  /-- Whether a function lies between the use and what introduces the variable, or the place as
  long as nothing inside it does. -/
  nested : Bool := false
deriving DecidableEq

namespace Use

/-- A use in the scope of a variable, seen from where the variable is introduced. -/
def bind (name : String) (number : Nat) (use : Use) : Use :=
  if use.target = none ∧ use.name = name then { use with target := some number } else use

/-- A use inside a function, seen from around the function. -/
def leaveFunction (use : Use) : Use :=
  { use with nested := use.nested || use.target.isNone }

/-- Whether the use is one of the variable `number` in a function nested inside the one that
introduces it. -/
def captures (number : Nat) (use : Use) : Bool :=
  use.target == some number && use.nested

end Use

/-- The uses in the scope of some binders, numbered from `n`, seen from where these are introduced.
A later binder takes the uses of its name before an earlier one. -/
def Binder.takeUses : Nat → List Binder → List Use → List Use
  | _, [], uses => uses
  | n, binder :: binders, uses =>
    (Binder.takeUses (n + 1) binders uses).map (Use.bind binder.name n)

mutual
/-- The uses in a variable, in the order of the text; `n` is the number of the first variable that
is introduced inside it. -/
def Var.uses (n : Nat) : Var → List Use
  | .simple name pos => [{ name, pos }]
  | .field record _ _ _ => record.uses n
  | .subscript array index => array.uses n ++ index.uses (n + array.binders.length)
/-- The uses of variables in an expression, in the order of the text. -/
def Exp.uses (n : Nat) : Exp → List Use
  | .nil => []
  | .int _ => []
  | .string _ => []
  | .var var => var.uses n
  | .call _ args _ => Exp.usesList n args
  | .op _ left right _ => left.uses n ++ right.uses (n + left.binders.length)
  | .record _ fields => Field.usesList n fields
  | .seq exps => Exp.usesList n exps
  | .assign var value => var.uses n ++ value.uses (n + var.binders.length)
  | .ifThen test yes => test.uses n ++ yes.uses (n + test.binders.length)
  | .ifElse test yes no =>
    test.uses n ++ (yes.uses (n + test.binders.length) ++
      no.uses (n + test.binders.length + yes.binders.length))
  | .whileDo test body => test.uses n ++ body.uses (n + test.binders.length)
  | .forTo var lo hi body =>
    let own := n + lo.binders.length + hi.binders.length
    lo.uses n ++ (hi.uses (n + lo.binders.length) ++
      (body.uses (own + 1)).map (Use.bind var.name own))
  | .breakLoop _ => []
  | .letIn decs body => Dec.usesList n decs (body.uses (n + (Dec.bindersList decs).length))
  | .array _ size init => size.uses n ++ init.uses (n + size.binders.length)
/-- The uses in expressions that follow each other. -/
def Exp.usesList (n : Nat) : List Exp → List Use
  | [] => []
  | exp :: exps => exp.uses n ++ Exp.usesList (n + exp.binders.length) exps
/-- The uses in the values of record fields. -/
def Field.usesList (n : Nat) : List Field → List Use
  | [] => []
  | ⟨_, value⟩ :: fields => value.uses n ++ Field.usesList (n + value.binders.length) fields
/-- The uses in a declaration, before the uses `scope` in what follows it. A variable is not in
the scope of its own initialiser. -/
def Dec.uses (n : Nat) : Dec → List Use → List Use
  | .functions group, scope => FunDec.usesList n group ++ scope
  | .var var init, scope =>
    init.uses n ++ scope.map (Use.bind var.name (n + init.binders.length))
  | .type _ _, scope => scope
/-- The uses in declarations, before the uses `scope` in what follows all of them. -/
def Dec.usesList (n : Nat) : List Dec → List Use → List Use
  | [], scope => scope
  | dec :: decs, scope => dec.uses n (Dec.usesList (n + dec.binders.length) decs scope)
/-- The uses in the bodies of functions. -/
def FunDec.usesList (n : Nat) : List FunDec → List Use
  | [] => []
  | ⟨_, params, _, body⟩ :: group =>
    (Binder.takeUses n params (body.uses (n + params.length))).map Use.leaveFunction ++
      FunDec.usesList (n + params.length + body.binders.length) group
end

/-- What the walk does at a use. -/
def Use.perform (scope : Scope) (depth : Nat) (use : Use) : Walk Unit :=
  match use.target with
  | some number => if use.nested then modify fun found => number :: found else pure ()
  | none =>
    match scope.find? fun binding => binding.name == use.name with
    | none => throw (.undeclaredVariable use.name use.pos)
    | some binding =>
      if use.nested || binding.depth < depth then modify fun found => binding.number :: found
      else pure ()

/-- What the walk does at uses, one after the other. -/
def performAll (scope : Scope) (depth : Nat) (uses : List Use) : Walk Unit :=
  forM uses (Use.perform scope depth)

/-- All variables in scope are introduced inside at most `depth` functions. -/
def Scope.Within (depth : Nat) (scope : Scope) : Prop := ∀ binding ∈ scope, binding.depth ≤ depth

section Perform

variable {scope : Scope} {depth : Nat}

theorem perform_simple (name : String) (pos : Pos) :
    Use.perform scope depth { name, pos } = scope.use depth name pos := by
  cases found : scope.find? fun binding => binding.name == name <;>
    simp [Use.perform, Scope.use, found]

/-- A variable in scope takes the uses of its name. -/
theorem perform_bind (name : String) (number : Nat) (use : Use) :
    (use.bind name number).perform scope depth =
      use.perform (⟨name, depth, number⟩ :: scope) depth := by
  obtain ⟨used, pos, target, nested⟩ := use
  cases target with
  | some other => simp [Use.bind, Use.perform]
  | none =>
    by_cases same : used = name
    · simp [Use.bind, Use.perform, same]
    · simp [Use.bind, Use.perform, same, Ne.symm same]

/-- From a function, every variable around it is one further out. -/
theorem perform_leave (within : scope.Within depth) (use : Use) :
    use.leaveFunction.perform scope depth = use.perform scope (depth + 1) := by
  obtain ⟨used, pos, target, nested⟩ := use
  cases target with
  | some other => simp [Use.leaveFunction, Use.perform]
  | none =>
    cases found : scope.find? fun binding => binding.name == used with
    | none => simp [Use.leaveFunction, Use.perform, found]
    | some binding =>
      have outer : binding.depth < depth + 1 :=
        Nat.lt_succ_of_le (within binding (List.mem_of_find?_eq_some found))
      simp [Use.leaveFunction, Use.perform, found, outer]

theorem performAll_append (first second : List Use) :
    performAll scope depth (first ++ second) =
      (do performAll scope depth first; performAll scope depth second) :=
  List.forM_append

/-- Binding a name in uses is performing them with the name in scope. -/
theorem performAll_bind (name : String) (number : Nat) (uses : List Use) :
    performAll scope depth (uses.map (Use.bind name number)) =
      performAll (⟨name, depth, number⟩ :: scope) depth uses := by
  induction uses with
  | nil => rfl
  | cons use uses ih =>
    simp only [performAll, List.map_cons, List.forM_cons, perform_bind] at ih ⊢
    rw [ih]

/-- Leaving a function in uses is performing them one level deeper. -/
theorem performAll_leave (within : scope.Within depth) (uses : List Use) :
    performAll scope depth (uses.map Use.leaveFunction) = performAll scope (depth + 1) uses := by
  induction uses with
  | nil => rfl
  | cons use uses ih =>
    simp only [performAll, List.map_cons, List.forM_cons, perform_leave within] at ih ⊢
    rw [ih]

/-- Resolving uses with binders is performing them with the binders in scope. -/
theorem performAll_take (n : Nat) (binders : List Binder) (uses : List Use) :
    performAll scope depth (Binder.takeUses n binders uses) =
      performAll (scope.bind depth n binders) depth uses := by
  induction binders generalizing n scope with
  | nil => rfl
  | cons binder binders ih =>
    rw [Binder.takeUses, performAll_bind, ih]
    rfl

theorem Scope.Within.cons (within : scope.Within depth) (name : String) (number : Nat) :
    Scope.Within depth (⟨name, depth, number⟩ :: scope) :=
  List.forall_mem_cons.mpr ⟨Nat.le_refl depth, within⟩

theorem Scope.Within.deeper (within : scope.Within depth) : scope.Within (depth + 1) :=
  fun binding member => Nat.le_succ_of_le (within binding member)

theorem Scope.Within.bind (within : scope.Within depth) (n : Nat) (binders : List Binder) :
    (scope.bind depth n binders).Within depth := by
  induction binders generalizing n scope with
  | nil => exact within
  | cons binder binders ih => exact ih (within.cons binder.name n) (n + 1)

end Perform

mutual
/-- The walk of a variable performs its uses. -/
theorem Var.walk_uses {scope : Scope} {depth : Nat} (within : scope.Within depth) :
    ∀ (n : Nat) (var : Var), var.walk scope depth n = performAll scope depth (var.uses n)
  | n, .simple name pos => by
    simp [Var.walk, Var.uses, performAll, perform_simple]
  | n, .field record _ _ _ => by
    unfold Var.walk Var.uses
    exact Var.walk_uses within n record
  | n, .subscript array index => by
    unfold Var.walk Var.uses
    rw [performAll_append, Var.walk_uses within n array, Exp.walk_uses within _ index]
/-- The walk over an expression acts on its uses one after the other. -/
theorem Exp.walk_uses {scope : Scope} {depth : Nat} (within : scope.Within depth) :
    ∀ (n : Nat) (exp : Exp), exp.walk scope depth n = performAll scope depth (exp.uses n)
  | _, .nil => by
    unfold Exp.walk Exp.uses
    rfl
  | _, .int _ => by
    unfold Exp.walk Exp.uses
    rfl
  | _, .string _ => by
    unfold Exp.walk Exp.uses
    rfl
  | n, .var var => by
    unfold Exp.walk Exp.uses
    exact Var.walk_uses within n var
  | n, .call _ args _ => by
    unfold Exp.walk Exp.uses
    exact Exp.walkList_uses within n args
  | n, .op _ left right _ => by
    unfold Exp.walk Exp.uses
    rw [performAll_append, Exp.walk_uses within n left, Exp.walk_uses within _ right]
  | n, .record _ fields => by
    unfold Exp.walk Exp.uses
    exact Field.walkList_uses within n fields
  | n, .seq exps => by
    unfold Exp.walk Exp.uses
    exact Exp.walkList_uses within n exps
  | n, .assign var value => by
    unfold Exp.walk Exp.uses
    rw [performAll_append, Var.walk_uses within n var, Exp.walk_uses within _ value]
  | n, .ifThen test yes => by
    unfold Exp.walk Exp.uses
    rw [performAll_append, Exp.walk_uses within n test, Exp.walk_uses within _ yes]
  | n, .ifElse test yes no => by
    unfold Exp.walk Exp.uses
    rw [performAll_append, performAll_append, Exp.walk_uses within n test,
      Exp.walk_uses within _ yes, Exp.walk_uses within _ no]
  | n, .whileDo test body => by
    unfold Exp.walk Exp.uses
    rw [performAll_append, Exp.walk_uses within n test, Exp.walk_uses within _ body]
  | n, .forTo var lo hi body => by
    unfold Exp.walk Exp.uses
    rw [performAll_append, performAll_append, performAll_bind, Exp.walk_uses within n lo,
      Exp.walk_uses within _ hi]
    simp only [Exp.walk_uses (within.cons var.name _) _ body]
  | _, .breakLoop _ => by
    unfold Exp.walk Exp.uses
    rfl
  | n, .letIn decs body => by
    unfold Exp.walk Exp.uses
    exact Dec.walkList_uses within n decs _ _ fun _ inner => Exp.walk_uses inner _ body
  | n, .array _ size init => by
    unfold Exp.walk Exp.uses
    rw [performAll_append, Exp.walk_uses within n size, Exp.walk_uses within _ init]
theorem Exp.walkList_uses {scope : Scope} {depth : Nat} (within : scope.Within depth) :
    ∀ (n : Nat) (exps : List Exp),
      Exp.walkList scope depth n exps = performAll scope depth (Exp.usesList n exps)
  | _, [] => by
    unfold Exp.walkList Exp.usesList
    rfl
  | n, exp :: exps => by
    unfold Exp.walkList Exp.usesList
    rw [performAll_append, Exp.walk_uses within n exp, Exp.walkList_uses within _ exps]
theorem Field.walkList_uses {scope : Scope} {depth : Nat} (within : scope.Within depth) :
    ∀ (n : Nat) (fields : List Field),
      Field.walkList scope depth n fields = performAll scope depth (Field.usesList n fields)
  | _, [] => by
    unfold Field.walkList Field.usesList
    rfl
  | n, ⟨_, value⟩ :: fields => by
    unfold Field.walkList Field.usesList
    rw [performAll_append, Exp.walk_uses within n value, Field.walkList_uses within _ fields]
/-- What follows a declaration is walked over in the scope after it. -/
theorem Dec.walk_uses {scope : Scope} {depth : Nat} (within : scope.Within depth) :
    ∀ (n : Nat) (dec : Dec) (rest : List Use) (next : Scope → Walk Unit),
      (∀ inner : Scope, inner.Within depth → next inner = performAll inner depth rest) →
      (dec.walk scope depth n >>= next) = performAll scope depth (dec.uses n rest)
  | n, .functions group, rest, next, follows => by
    unfold Dec.walk Dec.uses
    rw [performAll_append, FunDec.walkList_uses within n group, bind_assoc]
    simp only [pure_bind, follows scope within]
  | n, .var var init, rest, next, follows => by
    unfold Dec.walk Dec.uses
    rw [performAll_append, performAll_bind, Exp.walk_uses within n init, bind_assoc]
    simp only [pure_bind, follows _ (within.cons var.name _)]
  | n, .type _ _, rest, next, follows => by
    unfold Dec.walk Dec.uses
    rw [pure_bind]
    exact follows scope within
/-- The walk of declarations goes on in the scope that they make, where the uses of the rest are
resolved. -/
theorem Dec.walkList_uses {scope : Scope} {depth : Nat} (within : scope.Within depth) :
    ∀ (n : Nat) (decs : List Dec) (rest : List Use) (next : Scope → Walk Unit),
      (∀ inner : Scope, inner.Within depth → next inner = performAll inner depth rest) →
      (Dec.walkList scope depth n decs >>= next) =
        performAll scope depth (Dec.usesList n decs rest)
  | _, [], rest, next, follows => by
    unfold Dec.walkList Dec.usesList
    rw [pure_bind]
    exact follows scope within
  | n, dec :: decs, rest, next, follows => by
    unfold Dec.walkList Dec.usesList
    rw [bind_assoc]
    exact Dec.walk_uses within n dec _ _ fun inner within =>
      Dec.walkList_uses within _ decs rest next follows
/-- Bodies of functions are walked one level deeper. -/
theorem FunDec.walkList_uses {scope : Scope} {depth : Nat} (within : scope.Within depth) :
    ∀ (n : Nat) (group : List FunDec),
      FunDec.walkList scope depth n group = performAll scope depth (FunDec.usesList n group)
  | _, [] => by
    unfold FunDec.walkList FunDec.usesList
    rfl
  | n, ⟨_, params, _, body⟩ :: group => by
    unfold FunDec.walkList FunDec.usesList
    rw [performAll_append, performAll_leave within, performAll_take,
      Exp.walk_uses (within.deeper.bind n params) _ body, FunDec.walkList_uses within _ group]
end

-- In `let var x := 1; function f(y) = let var x := x in x + y end in x + y end`, the variables are
-- the outer `x`, then `y`, then the inner `x`; the last use has none.
example :
    (Exp.letIn [.var ⟨"x", false⟩ (.int 1), .functions [⟨"f", [⟨"y", false⟩], some "int",
        .letIn [.var ⟨"x", false⟩ (.var (.simple "x" ⟨1, 1⟩))]
          (.op .plus (.var (.simple "x" ⟨2, 1⟩)) (.var (.simple "y" ⟨2, 2⟩)) false)⟩]]
      (.op .plus (.var (.simple "x" ⟨3, 1⟩)) (.var (.simple "y" ⟨3, 2⟩)) false)).uses 0 =
    [⟨"x", ⟨1, 1⟩, some 0, true⟩, ⟨"x", ⟨2, 1⟩, some 2, false⟩, ⟨"y", ⟨2, 2⟩, some 1, false⟩,
      ⟨"x", ⟨3, 1⟩, some 0, false⟩, ⟨"y", ⟨3, 2⟩, none, false⟩] := by
  decide

end TreeCode.Source
