import TreeCode.Error
import TreeCode.Supply

/-!
Lowered expressions. What an expression becomes depends on how it is used: for its value, for
its effect, or to choose between two branches. A lowered expression keeps the form that it
naturally has and is brought into another one on demand.
-/

namespace TreeCode

/-- A lowered expression. -/
inductive Lowered where
  /-- Code with a value. -/
  | value (exp : Tree.Exp)
  /-- Code without a value. -/
  | effect (stm : Tree.Stm)
  /-- A comparison whose branches are not known yet. -/
  | test (op : Tree.RelOp) (left right : Tree.Exp)

namespace Lowered

/-- Whether there is no value. -/
def isEffect : Lowered → Bool
  | effect _ => true
  | _ => false

/-- The value of an expression. A comparison has the value one or zero, and code without a value
counts as zero. -/
def asValue : Lowered → Fresh Tree.Exp
  | value exp => return exp
  | effect stm => return .eseq stm (.const 0)
  | test op left right => do
    let r ← freshTemp
    let yes ← freshLabel
    let no ← freshLabel
    return .eseq
      (.sequence [
        .move (.temp r) (.const 1),
        .cjump op left right yes no,
        .label no,
        .move (.temp r) (.const 0),
        .label yes])
      (.temp r)

/-- The effect of an expression alone. -/
def asEffect : Lowered → Fresh Tree.Stm
  | value exp => return .exp exp
  | effect stm => return stm
  | test op left right => do
    let join ← freshLabel
    return .sequence [.cjump op left right join join, .label join]

/-- A jump to `yes` if the value is not zero, and to `no` otherwise. Code without a value is no
condition. -/
def asBranch (lowered : Lowered) (yes no : Label) : Except Error Tree.Stm :=
  match lowered with
  | test op left right => .ok (.cjump op left right yes no)
  | value (.const 0) => .ok (.goto no)
  | value (.const _) => .ok (.goto yes)
  | value exp => .ok (.cjump .ne exp (.const 0) yes no)
  | effect stm => .error (.valuelessCondition stm)

/-- A lowered expression after `stms` have run. Code without a value stays so. -/
def after (stms : List Tree.Stm) (lowered : Lowered) : Fresh Lowered :=
  match stms, lowered with
  | [], lowered => return lowered
  | stms, effect stm => return effect (.sequence (stms ++ [stm]))
  | stms, lowered => do
    let exp ← lowered.asValue
    return value (.eseq (.sequence stms) exp)

end Lowered

end TreeCode
