import TreeCode.Proofs.Lowering.Levels
import TreeCode.Proofs.Lowering.Success
import TreeCode.Proofs.Source.Introductions

/-!
Following lowering through a program. A visitor says what is to be made of the variables that
lowering meets, of their uses and of the places where they are introduced. It is shown each of them
in the state in which lowering meets it, in the order of lowering.
-/

namespace TreeCode.Lowering

open Source (Introduction)
open Source.Outline (parameters)

/-- What is made of the variables in a part of a program. -/
structure Visitor (M : Type) where
  /-- For a part without variables. -/
  nothing : M
  /-- For one part after another. -/
  both : M → M → M
  /-- For a use of a name in a level. -/
  use : Level → String → Lowering → M
  /-- For variables that are introduced, in the state in which their names have just been bound. -/
  introduced : List Introduction → Lowering → M

namespace Visitor

variable {M : Type} (v : Visitor M) (conv : Convention)

/-- What comes after a computation. There is nothing after one that fails. -/
def later {α : Type} (act : Lower α) (s : Lowering) (next : α → Lowering → M) : M :=
  match act s with
  | .ok a t => next a t
  | .error _ _ => v.nothing

theorem later_ok {α : Type} {act : Lower α} {s t : Lowering} {a : α} (ran : act s = .ok a t)
    (next : α → Lowering → M) : v.later act s next = next a t := by
  rw [later, ran]

mutual
/-- The variables in `var`, lowered in `level`. -/
def visitVar (level : Level) : Source.Var → Lowering → M
  | .simple name _, s => v.use level name s
  | .field record _ _ _, s => visitVar level record s
  | .subscript array index, s =>
    v.both (visitVar level array s)
      (v.later (lowerVar conv level array) s fun _ s => visit level index s)
/-- The variables in an expression that is lowered in `level`, those in the functions declared
inside it included. -/
def visit (level : Level) : Source.Exp → Lowering → M
  | .nil, _ => v.nothing
  | .int _, _ => v.nothing
  | .string _, _ => v.nothing
  | .var var, s => visitVar level var s
  | .call _ args _, s => visitArgs level args s
  | .op _ left right _, s =>
    v.both (visit level left s)
      (v.later (lowerValue conv level left) s fun _ s => visit level right s)
  | .record _ fields, s => visitFields level fields (s.draw freshTemp)
  | .seq exps, s => visitSeq level exps s
  | .assign var value, s =>
    v.both (visitVar level var s)
      (v.later (lowerVar conv level var) s fun _ s => visit level value s)
  | .ifThen test yes, s =>
    v.both (visit level test s)
      (v.later (lowerExp conv level test) s fun _ s => visit level yes s)
  | .ifElse test yes no, s =>
    v.both (visit level test s) (v.later (lowerExp conv level test) s fun _ s =>
      v.both (visit level yes s) (v.later (lowerExp conv level yes) s fun _ s =>
        visit level no s.label.label))
  | .whileDo test body, s =>
    v.both (visit level test s.label.label.label)
      (v.later (lowerExp conv level test) s.label.label.label fun _ t =>
        visit level body (t.withExits (s.label.label.nextLabel :: t.exits)))
  | .forTo var lo hi body, s =>
    v.both (visit level lo s) (v.later (lowerValue conv level lo) s fun _ s =>
      v.both (visit level hi s) (v.later (lowerValue conv level hi) s fun _ s =>
        v.later (allocateVariable level var.escapes) s fun access s =>
          v.both
            (v.introduced [{ owner := level, binder := var }]
              (s.looped.enter.bound var.name (.variable level access)))
            (visit level body
              ((s.looped.enter.bound var.name (.variable level access)).withExits
                ((s.draw freshTemp).label.label.nextLabel :: s.exits)))))
  | .breakLoop _, _ => v.nothing
  | .letIn decs body, s =>
    v.both (visitDecs level decs s.enter)
      (v.later (lowerDecs conv level decs) s.enter fun _ s => visit level body s)
  | .array _ size init, s =>
    v.both (visit level size s)
      (v.later (lowerValue conv level size) s fun _ s => visit level init s)
/-- The variables in the arguments of a call. -/
def visitArgs (level : Level) : List Source.Exp → Lowering → M
  | [], _ => v.nothing
  | arg :: args, s =>
    v.both (visit level arg s)
      (v.later (lowerValue conv level arg) s fun _ s => visitArgs level args s)
/-- The variables in the values of record fields. -/
def visitFields (level : Level) : List Source.Field → Lowering → M
  | [], _ => v.nothing
  | ⟨_, value⟩ :: fields, s =>
    v.both (visit level value s)
      (v.later (lowerValue conv level value) s fun _ s => visitFields level fields s)
/-- The variables in a sequence. -/
def visitSeq (level : Level) : List Source.Exp → Lowering → M
  | [], _ => v.nothing
  | exp :: exps, s =>
    v.both (visit level exp s)
      (v.later (lowerEffect conv level exp) s fun _ s => visitSeq level exps s)
/-- The variables in declarations, and those that they introduce. -/
def visitDecs (level : Level) : List Source.Dec → Lowering → M
  | [], _ => v.nothing
  | .var var init :: decs, s =>
    v.both (visit level init s) (v.later (lowerValue conv level init) s fun _ s =>
      v.later (allocateVariable level var.escapes) s fun access s =>
        v.both
          (v.introduced [{ owner := level, binder := var }]
            (s.bound var.name (.variable level access)))
          (visitDecs level decs (s.bound var.name (.variable level access))))
  | .type _ _ :: decs, s => visitDecs level decs s
  | .functions group :: decs, s =>
    v.later (declareFunctions conv level group) s fun levels s =>
      v.both (visitBodies levels group s)
        (v.later (lowerBodies conv levels group) s fun _ s => visitDecs level decs s)
/-- The parameters of functions and the variables in their bodies, each lowered in its own
level. -/
def visitBodies (levels : List Level) : List Source.FunDec → Lowering → M
  | [], _ => v.nothing
  | ⟨_, params, result, body⟩ :: group, s =>
    match levels with
    | [] => v.nothing
    | own :: levels =>
      v.later (formalsOf own) s fun formals s =>
        v.later (bindParams own params formals.tail) s.enter fun _ t =>
          v.both (v.introduced (parameters own 0 params) t)
            (v.both (visit own body (t.withExits []))
              (v.later (outsideLoops (lowerExp conv own body)) t fun lowered u =>
                v.later (liftM (bodyStm conv result lowered) : Lower _) u.leave fun stm x =>
                  v.later (finishProc conv own stm) x fun _ w => visitBodies levels group w))
end

end Visitor

end TreeCode.Lowering
