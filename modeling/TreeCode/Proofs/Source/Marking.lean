import TreeCode.Proofs.Source.Resolution
import TreeCode.Proofs.Source.Sites

/-!
Escape analysis marks exactly the variables that it should: those with a use in a function nested
inside the one that introduces them, as `Exp.uses` reads the uses off the text. Marks that are
already there stay, nothing but marks changes, and a second analysis finds nothing to do.
-/

namespace TreeCode.Source

mutual
/-- A variable without the marks on what its subscripts introduce. -/
def Var.unmarked : Var → Var
  | .simple name pos => .simple name pos
  | .field record name slot pos => .field record.unmarked name slot pos
  | .subscript array index => .subscript array.unmarked index.unmarked
/-- An expression without the marks on the variables that it introduces. -/
def Exp.unmarked : Exp → Exp
  | .nil => .nil
  | .int value => .int value
  | .string text => .string text
  | .var var => .var var.unmarked
  | .call func args pos => .call func (Exp.unmarkedList args) pos
  | .op oper left right strings => .op oper left.unmarked right.unmarked strings
  | .record type fields => .record type (Field.unmarkedList fields)
  | .seq exps => .seq (Exp.unmarkedList exps)
  | .assign var value => .assign var.unmarked value.unmarked
  | .ifThen test yes => .ifThen test.unmarked yes.unmarked
  | .ifElse test yes no => .ifElse test.unmarked yes.unmarked no.unmarked
  | .whileDo test body => .whileDo test.unmarked body.unmarked
  | .forTo var lo hi body =>
    .forTo { var with escapes := false } lo.unmarked hi.unmarked body.unmarked
  | .breakLoop pos => .breakLoop pos
  | .letIn decs body => .letIn (Dec.unmarkedList decs) body.unmarked
  | .array type size init => .array type size.unmarked init.unmarked
/-- Expressions without marks. -/
def Exp.unmarkedList : List Exp → List Exp
  | [] => []
  | exp :: exps => exp.unmarked :: Exp.unmarkedList exps
/-- Record fields without marks in their values. -/
def Field.unmarkedList : List Field → List Field
  | [] => []
  | ⟨name, value⟩ :: fields => ⟨name, value.unmarked⟩ :: Field.unmarkedList fields
/-- A declaration without marks. -/
def Dec.unmarked : Dec → Dec
  | .functions group => .functions (FunDec.unmarkedList group)
  | .var var init => .var { var with escapes := false } init.unmarked
  | .type name definition => .type name definition
/-- Declarations without marks. -/
def Dec.unmarkedList : List Dec → List Dec
  | [] => []
  | dec :: decs => dec.unmarked :: Dec.unmarkedList decs
/-- Functions without marks on their parameters and in their bodies. -/
def FunDec.unmarkedList : List FunDec → List FunDec
  | [] => []
  | ⟨name, params, result, body⟩ :: group =>
    ⟨name, params.map fun param => { param with escapes := false }, result, body.unmarked⟩ ::
      FunDec.unmarkedList group
end

section Mark

variable (marks : List Nat)

theorem markList_append (n : Nat) (first second : List Binder) :
    Binder.markList marks n (first ++ second) =
      Binder.markList marks n first ++ Binder.markList marks (n + first.length) second := by
  induction first generalizing n with
  | nil => rfl
  | cons binder binders ih =>
    simp only [List.cons_append, Binder.markList, ih, List.length_cons]
    rw [Nat.add_right_comm, Nat.add_assoc]

theorem markList_eq_mapIdx (n : Nat) (binders : List Binder) :
    Binder.markList marks n binders =
      binders.mapIdx fun i binder => binder.mark marks (n + i) := by
  induction binders generalizing n with
  | nil => rfl
  | cons binder binders ih =>
    rw [Binder.markList, ih, List.mapIdx_cons]
    simp only [Nat.add_zero, Nat.add_comm 1, Nat.add_assoc]

theorem mark_mark_binder (n : Nat) (binder : Binder) :
    (binder.mark marks n).mark marks n = binder.mark marks n := by
  simp [Binder.mark]

theorem markList_markList (n : Nat) (binders : List Binder) :
    Binder.markList marks n (Binder.markList marks n binders) =
      Binder.markList marks n binders := by
  induction binders generalizing n with
  | nil => rfl
  | cons binder binders ih => simp only [Binder.markList, mark_mark_binder, ih]

theorem unmarked_markList (n : Nat) (binders : List Binder) :
    (Binder.markList marks n binders).map (fun binder => { binder with escapes := false }) =
      binders.map fun binder => { binder with escapes := false } := by
  induction binders generalizing n with
  | nil => rfl
  | cons binder binders ih => simp only [Binder.markList, List.map_cons, ih, Binder.mark]

mutual
theorem Var.binders_mark : ∀ (n : Nat) (var : Var),
    (var.mark marks n).binders = Binder.markList marks n var.binders
  | _, .simple _ _ => rfl
  | n, .field record _ _ _ => Var.binders_mark n record
  | n, .subscript array index => by
    unfold Var.mark Var.binders
    rw [Var.binders_mark n array, Exp.binders_mark _ index, markList_append]
/-- Marking the variables of an expression is marking the list of them. -/
theorem Exp.binders_mark : ∀ (n : Nat) (exp : Exp),
    (exp.mark marks n).binders = Binder.markList marks n exp.binders
  | _, .nil => rfl
  | _, .int _ => rfl
  | _, .string _ => rfl
  | _, .breakLoop _ => rfl
  | n, .var var => Var.binders_mark n var
  | n, .call _ args _ => Exp.bindersList_mark n args
  | n, .op _ left right _ => by
    unfold Exp.mark Exp.binders
    rw [Exp.binders_mark n left, Exp.binders_mark _ right, markList_append]
  | n, .record _ fields => Field.bindersList_mark n fields
  | n, .seq exps => Exp.bindersList_mark n exps
  | n, .assign var value => by
    unfold Exp.mark Exp.binders
    rw [Var.binders_mark n var, Exp.binders_mark _ value, markList_append]
  | n, .ifThen test yes => by
    unfold Exp.mark Exp.binders
    rw [Exp.binders_mark n test, Exp.binders_mark _ yes, markList_append]
  | n, .ifElse test yes no => by
    unfold Exp.mark Exp.binders
    rw [Exp.binders_mark n test, Exp.binders_mark _ yes, Exp.binders_mark _ no, markList_append,
      markList_append, List.length_append, Nat.add_assoc]
  | n, .whileDo test body => by
    unfold Exp.mark Exp.binders
    rw [Exp.binders_mark n test, Exp.binders_mark _ body, markList_append]
  | n, .forTo var lo hi body => by
    unfold Exp.mark Exp.binders
    rw [Exp.binders_mark n lo, Exp.binders_mark _ hi, Exp.binders_mark _ body, markList_append,
      markList_append, List.length_append, ← Nat.add_assoc]
    rfl
  | n, .letIn decs body => by
    unfold Exp.mark Exp.binders
    rw [Dec.bindersList_mark n decs, Exp.binders_mark _ body, markList_append]
  | n, .array _ size init => by
    unfold Exp.mark Exp.binders
    rw [Exp.binders_mark n size, Exp.binders_mark _ init, markList_append]
theorem Exp.bindersList_mark : ∀ (n : Nat) (exps : List Exp),
    Exp.bindersList (Exp.markList marks n exps) = Binder.markList marks n (Exp.bindersList exps)
  | _, [] => rfl
  | n, exp :: exps => by
    unfold Exp.markList Exp.bindersList
    rw [Exp.binders_mark n exp, Exp.bindersList_mark _ exps, markList_append]
theorem Field.bindersList_mark : ∀ (n : Nat) (fields : List Field),
    Field.bindersList (Field.markList marks n fields) =
      Binder.markList marks n (Field.bindersList fields)
  | _, [] => rfl
  | n, ⟨_, value⟩ :: fields => by
    unfold Field.markList Field.bindersList
    rw [Exp.binders_mark n value, Field.bindersList_mark _ fields, markList_append]
theorem Dec.binders_mark : ∀ (n : Nat) (dec : Dec),
    (dec.mark marks n).binders = Binder.markList marks n dec.binders
  | n, .functions group => FunDec.bindersList_mark n group
  | n, .var var init => by
    unfold Dec.mark Dec.binders
    rw [Exp.binders_mark n init, markList_append]
    rfl
  | _, .type _ _ => rfl
theorem Dec.bindersList_mark : ∀ (n : Nat) (decs : List Dec),
    Dec.bindersList (Dec.markList marks n decs) = Binder.markList marks n (Dec.bindersList decs)
  | _, [] => rfl
  | n, dec :: decs => by
    unfold Dec.markList Dec.bindersList
    rw [Dec.binders_mark n dec, Dec.bindersList_mark _ decs, markList_append]
theorem FunDec.bindersList_mark : ∀ (n : Nat) (group : List FunDec),
    FunDec.bindersList (FunDec.markList marks n group) =
      Binder.markList marks n (FunDec.bindersList group)
  | _, [] => rfl
  | n, ⟨_, params, _, body⟩ :: group => by
    unfold FunDec.markList FunDec.bindersList
    rw [Exp.binders_mark _ body, FunDec.bindersList_mark _ group, markList_append,
      markList_append, List.length_append, Nat.add_assoc]
end

@[simp] theorem Var.length_mark (n : Nat) (var : Var) :
    (var.mark marks n).binders.length = var.binders.length := by
  rw [Var.binders_mark, length_markList]

/-- Marking adds and removes no binders. -/
@[simp] theorem Exp.length_mark (n : Nat) (exp : Exp) :
    (exp.mark marks n).binders.length = exp.binders.length := by
  rw [Exp.binders_mark, length_markList]

@[simp] theorem Dec.length_mark (n : Nat) (dec : Dec) :
    (dec.mark marks n).binders.length = dec.binders.length := by
  rw [Dec.binders_mark, length_markList]

@[simp] theorem Dec.length_bindersList_mark (n : Nat) (decs : List Dec) :
    (Dec.bindersList (Dec.markList marks n decs)).length = (Dec.bindersList decs).length := by
  rw [Dec.bindersList_mark, length_markList]

mutual
/-- A marked program is the same one without its marks. -/
theorem Var.unmarked_mark : ∀ (n : Nat) (var : Var), (var.mark marks n).unmarked = var.unmarked
  | _, .simple _ _ => rfl
  | n, .field record _ _ _ => by
    simp only [Var.mark, Var.unmarked, Var.unmarked_mark n record]
  | n, .subscript array index => by
    simp only [Var.mark, Var.unmarked, Var.unmarked_mark n array, Exp.unmarked_mark _ index]
/-- Marking an expression changes nothing but marks. -/
theorem Exp.unmarked_mark : ∀ (n : Nat) (exp : Exp), (exp.mark marks n).unmarked = exp.unmarked
  | _, .nil => rfl
  | _, .int _ => rfl
  | _, .string _ => rfl
  | _, .breakLoop _ => rfl
  | n, .var var => by
    simp only [Exp.mark, Exp.unmarked, Var.unmarked_mark n var]
  | n, .call _ args _ => by
    simp only [Exp.mark, Exp.unmarked, Exp.unmarkedList_mark n args]
  | n, .op _ left right _ => by
    simp only [Exp.mark, Exp.unmarked, Exp.unmarked_mark n left, Exp.unmarked_mark _ right]
  | n, .record _ fields => by
    simp only [Exp.mark, Exp.unmarked, Field.unmarkedList_mark n fields]
  | n, .seq exps => by
    simp only [Exp.mark, Exp.unmarked, Exp.unmarkedList_mark n exps]
  | n, .assign var value => by
    simp only [Exp.mark, Exp.unmarked, Var.unmarked_mark n var, Exp.unmarked_mark _ value]
  | n, .ifThen test yes => by
    simp only [Exp.mark, Exp.unmarked, Exp.unmarked_mark n test, Exp.unmarked_mark _ yes]
  | n, .ifElse test yes no => by
    simp only [Exp.mark, Exp.unmarked, Exp.unmarked_mark n test, Exp.unmarked_mark _ yes,
      Exp.unmarked_mark _ no]
  | n, .whileDo test body => by
    simp only [Exp.mark, Exp.unmarked, Exp.unmarked_mark n test, Exp.unmarked_mark _ body]
  | n, .forTo var lo hi body => by
    simp only [Exp.mark, Exp.unmarked, Binder.mark, Exp.unmarked_mark n lo,
      Exp.unmarked_mark _ hi, Exp.unmarked_mark _ body]
  | n, .letIn decs body => by
    simp only [Exp.mark, Exp.unmarked, Dec.unmarkedList_mark n decs, Exp.unmarked_mark _ body]
  | n, .array _ size init => by
    simp only [Exp.mark, Exp.unmarked, Exp.unmarked_mark n size, Exp.unmarked_mark _ init]
theorem Exp.unmarkedList_mark : ∀ (n : Nat) (exps : List Exp),
    Exp.unmarkedList (Exp.markList marks n exps) = Exp.unmarkedList exps
  | _, [] => rfl
  | n, exp :: exps => by
    simp only [Exp.markList, Exp.unmarkedList, Exp.unmarked_mark n exp,
      Exp.unmarkedList_mark _ exps]
theorem Field.unmarkedList_mark : ∀ (n : Nat) (fields : List Field),
    Field.unmarkedList (Field.markList marks n fields) = Field.unmarkedList fields
  | _, [] => rfl
  | n, ⟨_, value⟩ :: fields => by
    simp only [Field.markList, Field.unmarkedList, Exp.unmarked_mark n value,
      Field.unmarkedList_mark _ fields]
theorem Dec.unmarked_mark : ∀ (n : Nat) (dec : Dec), (dec.mark marks n).unmarked = dec.unmarked
  | n, .functions group => by
    simp only [Dec.mark, Dec.unmarked, FunDec.unmarkedList_mark n group]
  | n, .var var init => by
    simp only [Dec.mark, Dec.unmarked, Binder.mark, Exp.unmarked_mark n init]
  | _, .type _ _ => rfl
theorem Dec.unmarkedList_mark : ∀ (n : Nat) (decs : List Dec),
    Dec.unmarkedList (Dec.markList marks n decs) = Dec.unmarkedList decs
  | _, [] => rfl
  | n, dec :: decs => by
    simp only [Dec.markList, Dec.unmarkedList, Dec.unmarked_mark n dec,
      Dec.unmarkedList_mark _ decs]
theorem FunDec.unmarkedList_mark : ∀ (n : Nat) (group : List FunDec),
    FunDec.unmarkedList (FunDec.markList marks n group) = FunDec.unmarkedList group
  | _, [] => rfl
  | n, ⟨_, params, _, body⟩ :: group => by
    simp only [FunDec.markList, FunDec.unmarkedList, unmarked_markList,
      Exp.unmarked_mark _ body, FunDec.unmarkedList_mark _ group]
end

mutual
/-- Marking twice is marking once. -/
theorem Var.mark_mark : ∀ (n : Nat) (var : Var),
    (var.mark marks n).mark marks n = var.mark marks n
  | _, .simple _ _ => rfl
  | n, .field record _ _ _ => by
    simp only [Var.mark, Var.mark_mark n record]
  | n, .subscript array index => by
    simp only [Var.mark, Var.length_mark, Var.mark_mark n array, Exp.mark_mark _ index]
/-- The same marks a second time change nothing. -/
theorem Exp.mark_mark : ∀ (n : Nat) (exp : Exp),
    (exp.mark marks n).mark marks n = exp.mark marks n
  | _, .nil => rfl
  | _, .int _ => rfl
  | _, .string _ => rfl
  | _, .breakLoop _ => rfl
  | n, .var var => by
    simp only [Exp.mark, Var.mark_mark n var]
  | n, .call _ args _ => by
    simp only [Exp.mark, Exp.markList_mark n args]
  | n, .op _ left right _ => by
    simp only [Exp.mark, Exp.length_mark, Exp.mark_mark n left, Exp.mark_mark _ right]
  | n, .record _ fields => by
    simp only [Exp.mark, Field.markList_mark n fields]
  | n, .seq exps => by
    simp only [Exp.mark, Exp.markList_mark n exps]
  | n, .assign var value => by
    simp only [Exp.mark, Var.length_mark, Var.mark_mark n var, Exp.mark_mark _ value]
  | n, .ifThen test yes => by
    simp only [Exp.mark, Exp.length_mark, Exp.mark_mark n test, Exp.mark_mark _ yes]
  | n, .ifElse test yes no => by
    simp only [Exp.mark, Exp.length_mark, Exp.mark_mark n test, Exp.mark_mark _ yes,
      Exp.mark_mark _ no]
  | n, .whileDo test body => by
    simp only [Exp.mark, Exp.length_mark, Exp.mark_mark n test, Exp.mark_mark _ body]
  | n, .forTo var lo hi body => by
    simp only [Exp.mark, Exp.length_mark, mark_mark_binder, Exp.mark_mark n lo,
      Exp.mark_mark _ hi, Exp.mark_mark _ body]
  | n, .letIn decs body => by
    simp only [Exp.mark, Dec.length_bindersList_mark, Dec.markList_mark n decs,
      Exp.mark_mark _ body]
  | n, .array _ size init => by
    simp only [Exp.mark, Exp.length_mark, Exp.mark_mark n size, Exp.mark_mark _ init]
theorem Exp.markList_mark : ∀ (n : Nat) (exps : List Exp),
    Exp.markList marks n (Exp.markList marks n exps) = Exp.markList marks n exps
  | _, [] => rfl
  | n, exp :: exps => by
    simp only [Exp.markList, Exp.length_mark, Exp.mark_mark n exp, Exp.markList_mark _ exps]
theorem Field.markList_mark : ∀ (n : Nat) (fields : List Field),
    Field.markList marks n (Field.markList marks n fields) = Field.markList marks n fields
  | _, [] => rfl
  | n, ⟨_, value⟩ :: fields => by
    simp only [Field.markList, Exp.length_mark, Exp.mark_mark n value,
      Field.markList_mark _ fields]
theorem Dec.mark_mark : ∀ (n : Nat) (dec : Dec),
    (dec.mark marks n).mark marks n = dec.mark marks n
  | n, .functions group => by
    simp only [Dec.mark, FunDec.markList_mark n group]
  | n, .var var init => by
    simp only [Dec.mark, Exp.length_mark, mark_mark_binder, Exp.mark_mark n init]
  | _, .type _ _ => rfl
theorem Dec.markList_mark : ∀ (n : Nat) (decs : List Dec),
    Dec.markList marks n (Dec.markList marks n decs) = Dec.markList marks n decs
  | _, [] => rfl
  | n, dec :: decs => by
    simp only [Dec.markList, Dec.length_mark, Dec.mark_mark n dec, Dec.markList_mark _ decs]
theorem FunDec.markList_mark : ∀ (n : Nat) (group : List FunDec),
    FunDec.markList marks n (FunDec.markList marks n group) = FunDec.markList marks n group
  | _, [] => rfl
  | n, ⟨_, params, _, body⟩ :: group => by
    simp only [FunDec.markList, length_markList, Exp.length_mark, markList_markList,
      Exp.mark_mark _ body, FunDec.markList_mark _ group]
end

/-- Uses are resolved by names and not by marks. -/
theorem takeUses_markList (n m : Nat) (binders : List Binder) (uses : List Use) :
    Binder.takeUses n (Binder.markList marks m binders) uses = Binder.takeUses n binders uses := by
  induction binders generalizing n m with
  | nil => rfl
  | cons binder binders ih =>
    simp only [Binder.markList, Binder.takeUses, Binder.mark, ih]

mutual
/-- The uses of a marked program are those of the program. -/
theorem Var.uses_mark : ∀ (n m : Nat) (var : Var), (var.mark marks m).uses n = var.uses n
  | _, _, .simple _ _ => rfl
  | n, m, .field record _ _ _ => Var.uses_mark n m record
  | n, m, .subscript array index => by
    simp only [Var.mark, Var.uses, Var.length_mark, Var.uses_mark n m array,
      Exp.uses_mark _ _ index]
/-- Marks make no difference to what is used. -/
theorem Exp.uses_mark : ∀ (n m : Nat) (exp : Exp), (exp.mark marks m).uses n = exp.uses n
  | _, _, .nil => rfl
  | _, _, .int _ => rfl
  | _, _, .string _ => rfl
  | _, _, .breakLoop _ => rfl
  | n, m, .var var => Var.uses_mark n m var
  | n, m, .call _ args _ => Exp.usesList_mark n m args
  | n, m, .op _ left right _ => by
    simp only [Exp.mark, Exp.uses, Exp.length_mark, Exp.uses_mark n m left,
      Exp.uses_mark _ _ right]
  | n, m, .record _ fields => Field.usesList_mark n m fields
  | n, m, .seq exps => Exp.usesList_mark n m exps
  | n, m, .assign var value => by
    simp only [Exp.mark, Exp.uses, Var.length_mark, Var.uses_mark n m var,
      Exp.uses_mark _ _ value]
  | n, m, .ifThen test yes => by
    simp only [Exp.mark, Exp.uses, Exp.length_mark, Exp.uses_mark n m test,
      Exp.uses_mark _ _ yes]
  | n, m, .ifElse test yes no => by
    simp only [Exp.mark, Exp.uses, Exp.length_mark, Exp.uses_mark n m test,
      Exp.uses_mark _ _ yes, Exp.uses_mark _ _ no]
  | n, m, .whileDo test body => by
    simp only [Exp.mark, Exp.uses, Exp.length_mark, Exp.uses_mark n m test,
      Exp.uses_mark _ _ body]
  | n, m, .forTo var lo hi body => by
    simp only [Exp.mark, Exp.uses, Exp.length_mark, Binder.mark, Exp.uses_mark n m lo,
      Exp.uses_mark _ _ hi, Exp.uses_mark _ _ body]
  | n, m, .letIn decs body => by
    simp only [Exp.mark, Exp.uses, Dec.length_bindersList_mark, Exp.uses_mark _ _ body,
      Dec.usesList_mark n m decs]
  | n, m, .array _ size init => by
    simp only [Exp.mark, Exp.uses, Exp.length_mark, Exp.uses_mark n m size,
      Exp.uses_mark _ _ init]
theorem Exp.usesList_mark : ∀ (n m : Nat) (exps : List Exp),
    Exp.usesList n (Exp.markList marks m exps) = Exp.usesList n exps
  | _, _, [] => rfl
  | n, m, exp :: exps => by
    simp only [Exp.markList, Exp.usesList, Exp.length_mark, Exp.uses_mark n m exp,
      Exp.usesList_mark _ _ exps]
theorem Field.usesList_mark : ∀ (n m : Nat) (fields : List Field),
    Field.usesList n (Field.markList marks m fields) = Field.usesList n fields
  | _, _, [] => rfl
  | n, m, ⟨_, value⟩ :: fields => by
    simp only [Field.markList, Field.usesList, Exp.length_mark, Exp.uses_mark n m value,
      Field.usesList_mark _ _ fields]
theorem Dec.uses_mark : ∀ (n m : Nat) (dec : Dec) (scope : List Use),
    (dec.mark marks m).uses n scope = dec.uses n scope
  | n, m, .functions group, scope => by
    simp only [Dec.mark, Dec.uses, FunDec.usesList_mark n m group]
  | n, m, .var var init, scope => by
    simp only [Dec.mark, Dec.uses, Exp.length_mark, Binder.mark, Exp.uses_mark n m init]
  | _, _, .type _ _, _ => rfl
theorem Dec.usesList_mark : ∀ (n m : Nat) (decs : List Dec) (scope : List Use),
    Dec.usesList n (Dec.markList marks m decs) scope = Dec.usesList n decs scope
  | _, _, [], _ => rfl
  | n, m, dec :: decs, scope => by
    simp only [Dec.markList, Dec.usesList, Dec.length_mark, Dec.uses_mark n m dec,
      Dec.usesList_mark _ _ decs]
theorem FunDec.usesList_mark : ∀ (n m : Nat) (group : List FunDec),
    FunDec.usesList n (FunDec.markList marks m group) = FunDec.usesList n group
  | _, _, [] => rfl
  | n, m, ⟨_, params, _, body⟩ :: group => by
    simp only [FunDec.markList, FunDec.usesList, length_markList, Exp.length_mark,
      takeUses_markList, Exp.uses_mark _ _ body, FunDec.usesList_mark _ _ group]
end

end Mark

/-- The variables that some uses make escape, the last found first. -/
def capturedBy (uses : List Use) : List Nat :=
  (uses.filterMap fun use => if use.nested then use.target else none).reverse

/-- Binders numbered from zero, with a mark on each that one of the uses makes escape. -/
def markedBy (uses : List Use) (binders : List Binder) : List Binder :=
  binders.mapIdx fun n binder =>
    { binder with escapes := binder.escapes || uses.any (Use.captures n) }

/-- A binder is captured if some use of it is in an inner function. -/
theorem contains_capturedBy (uses : List Use) (n : Nat) :
    (capturedBy uses).contains n = uses.any (Use.captures n) := by
  rw [Bool.eq_iff_iff]
  simp only [capturedBy, List.contains_iff_mem, List.mem_reverse, List.mem_filterMap,
    Option.ite_none_right_eq_some, List.any_eq_true, Use.captures, Bool.and_eq_true, beq_iff_eq,
    and_comm]

/-- The captured binders are the ones that get marked. -/
theorem binders_mark_capturedBy (program : Exp) (uses : List Use) :
    (program.mark (capturedBy uses) 0).binders = markedBy uses program.binders := by
  simp only [Exp.binders_mark, markList_eq_mapIdx, markedBy, Binder.mark, Nat.zero_add,
    contains_capturedBy]

section Analysis

variable {program : Exp} {before after : List Use} {use : Use}

/-- The use of a name that is not bound stops the walk. -/
theorem perform_free (free : use.target = none) (found : List Nat) :
    use.perform [] 0 found = .error (.undeclaredVariable use.name use.pos) found := by
  simp only [Use.perform, free]
  rfl

/-- Uses that all have their variables are gone through to the end. -/
theorem performAll_resolved {uses : List Use} (resolved : ∀ use ∈ uses, use.target ≠ none)
    (found : List Nat) :
    performAll [] 0 uses found = .ok () (capturedBy uses ++ found) := by
  induction uses generalizing found with
  | nil => rfl
  | cons use uses ih =>
    obtain ⟨here, later⟩ := List.forall_mem_cons.mp resolved
    obtain ⟨name, pos, target, nested⟩ := use
    cases target with
    | none => exact absurd rfl here
    | some number =>
      rw [performAll, List.forM_cons]
      cases nested with
      | false => exact ih later found
      | true =>
        refine (ih later (number :: found)).trans ?_
        simp [capturedBy]

/-- At the first use that has no variable the walk stops. -/
theorem performAll_stops (resolved : ∀ earlier ∈ before, earlier.target ≠ none)
    (free : use.target = none) :
    performAll [] 0 (before ++ use :: after) [] =
      .error (.undeclaredVariable use.name use.pos) (capturedBy before) := by
  rw [performAll_append, run_bind, performAll_resolved resolved [], List.append_nil]
  simp only [performAll, List.forM_cons]
  rw [run_bind, perform_free free]

/-- If all uses are resolved, exactly the captured binders are marked. -/
theorem markEscaping_resolved (resolved : ∀ use ∈ program.uses 0, use.target ≠ none) :
    program.markEscaping = (.ok (), program.mark (capturedBy (program.uses 0)) 0) := by
  simp only [Exp.markEscaping, Exp.walk_uses (List.forall_mem_nil _),
    performAll_resolved resolved, List.append_nil]

/-- The first use that is not resolved is reported, and the program is returned with what has been
found before it. -/
theorem markEscaping_stops (uses : program.uses 0 = before ++ use :: after)
    (resolved : ∀ earlier ∈ before, earlier.target ≠ none) (free : use.target = none) :
    program.markEscaping =
      (.error (.undeclaredVariable use.name use.pos), program.mark (capturedBy before) 0) := by
  simp only [Exp.markEscaping, Exp.walk_uses (List.forall_mem_nil _), uses,
    performAll_stops resolved free]

/-- Either every use has its variable, or there is a first one that has none. -/
theorem resolved_or_first (uses : List Use) :
    (∀ use ∈ uses, use.target ≠ none) ∨
      ∃ before use after, uses = before ++ use :: after ∧
        (∀ earlier ∈ before, earlier.target ≠ none) ∧ use.target = none := by
  cases first : uses.find? fun use => use.target.isNone with
  | none =>
    left
    intro use member free
    have held := List.find?_eq_none.mp first use member
    simp [free] at held
  | some use =>
    right
    obtain ⟨free, before, after, split, resolved⟩ := List.find?_eq_some_iff_append.mp first
    refine ⟨before, use, after, split, ?_, Option.isNone_iff_eq_none.mp free⟩
    intro earlier member unbound
    have held := resolved earlier member
    simp [unbound] at held

/-- Escape analysis marks exactly what it should. It succeeds when every use of a variable has its
variable, and otherwise reports the first that has none. Afterwards a variable has the mark that
it had before, or one because of a use in a function inside the one that introduces it; of a
program at fault, only the uses before the fault count. Nothing but marks changes, and a second
analysis comes to the same result. -/
theorem escape_analysis_exact (program : Exp) :
    (program.markEscaping.1 = .ok () ↔ ∀ use ∈ program.uses 0, use.target ≠ none) ∧
    (program.markEscaping.1 = .ok () →
      program.markEscaping.2.binders = markedBy (program.uses 0) program.binders) ∧
    (∀ before use after, program.uses 0 = before ++ use :: after →
      (∀ earlier ∈ before, earlier.target ≠ none) → use.target = none →
      program.markEscaping.1 = .error (.undeclaredVariable use.name use.pos) ∧
      program.markEscaping.2.binders = markedBy before program.binders) ∧
    program.markEscaping.2.unmarked = program.unmarked ∧
    program.markEscaping.2.markEscaping = program.markEscaping := by
  have stops : ∀ before use after, program.uses 0 = before ++ use :: after →
      (∀ earlier ∈ before, earlier.target ≠ none) → use.target = none →
      program.markEscaping.1 = .error (.undeclaredVariable use.name use.pos) ∧
      program.markEscaping.2.binders = markedBy before program.binders := by
    intro before use after uses resolved free
    rw [markEscaping_stops uses resolved free]
    exact ⟨rfl, binders_mark_capturedBy program before⟩
  rcases resolved_or_first (program.uses 0) with
    resolved | ⟨before, use, after, uses, earlier, free⟩
  · have result := markEscaping_resolved resolved
    refine ⟨⟨fun _ => resolved, fun _ => by rw [result]⟩, ?_, stops, ?_, ?_⟩
    · intro
      rw [result]
      exact binders_mark_capturedBy program _
    · rw [result]
      exact Exp.unmarked_mark _ 0 program
    · rw [result, markEscaping_resolved (by rwa [Exp.uses_mark]), Exp.uses_mark, Exp.mark_mark]
  · have result := markEscaping_stops uses earlier free
    have fails : program.markEscaping.1 ≠ .ok () := by simp [result]
    refine ⟨⟨fun ok => absurd ok fails, ?_⟩, fun ok => absurd ok fails, stops, ?_, ?_⟩
    · intro all
      exact absurd free (all use (by simp [uses]))
    · rw [result]
      exact Exp.unmarked_mark _ 0 program
    · have again : (program.mark (capturedBy before) 0).uses 0 = before ++ use :: after := by
        rw [Exp.uses_mark, uses]
      rw [result, markEscaping_stops again earlier free, Exp.mark_mark]

end Analysis

end TreeCode.Source
