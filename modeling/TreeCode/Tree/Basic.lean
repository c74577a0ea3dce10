import TreeCode.Temp

/-!
Tree code: the machine independent form between source programs and instructions. Expressions
compute words, statements act; `eseq` puts a statement inside an expression.
-/

namespace TreeCode.Tree

/-- Arithmetic and bitwise operators on words. -/
inductive BinOp where
  | plus | minus | mul | div | and | or | xor | lshift | rshift | arshift
deriving DecidableEq

/-- Comparisons of words, signed ones first. -/
inductive RelOp where
  | eq | ne | lt | gt | le | ge | ult | ule | ugt | uge
deriving DecidableEq

/-- The comparison that holds exactly where `op` does not. -/
def RelOp.negate : RelOp → RelOp
  | eq => ne
  | ne => eq
  | lt => ge
  | ge => lt
  | gt => le
  | le => gt
  | ult => uge
  | uge => ult
  | ugt => ule
  | ule => ugt

mutual
/-- Expressions of tree code. -/
inductive Exp where
  | const (value : Int)
  | name (label : Label)
  | temp (t : Temp)
  | binop (op : BinOp) (left right : Exp)
  /-- The word in memory at `address`. -/
  | mem (address : Exp)
  /-- A call; `link` is the frame that encloses a nested function. -/
  | call (func : Exp) (link : Option Exp) (args : List Exp)
  /-- The value of `exp` after `stm` has run. -/
  | eseq (stm : Stm) (exp : Exp)
/-- Statements of tree code. -/
inductive Stm where
  /-- Store the value of `src` in `dst`, a temporary or a place in memory. -/
  | move (dst src : Exp)
  /-- Evaluate for effects only. -/
  | exp (exp : Exp)
  /-- Go to the address `target`, which is one of `labels`. -/
  | jump (target : Exp) (labels : List Label)
  /-- Compare and go to `yes` or `no`. -/
  | cjump (op : RelOp) (left right : Exp) (yes no : Label)
  | seq (first second : Stm)
  /-- The next statement has the address `label`. -/
  | label (label : Label)
end

mutual
/-- Number of nodes of an expression, those of statements inside it included. -/
def Exp.size : Exp → Nat
  | .const _ => 1
  | .name _ => 1
  | .temp _ => 1
  | .binop _ left right => 1 + left.size + right.size
  | .mem address => 1 + address.size
  | .call func link args => 1 + func.size + Exp.linkSize link + Exp.listSize args
  | .eseq stm exp => 1 + stm.size + exp.size
/-- Size of an optional link. -/
def Exp.linkSize : Option Exp → Nat
  | none => 0
  | some link => link.size
/-- Sum of the sizes of `exps`. -/
def Exp.listSize : List Exp → Nat
  | [] => 0
  | exp :: exps => exp.size + Exp.listSize exps
/-- Number of nodes of a statement. -/
def Stm.size : Stm → Nat
  | .move dst src => 1 + dst.size + src.size
  | .exp exp => 1 + exp.size
  | .jump target _ => 1 + target.size
  | .cjump _ left right _ _ => 1 + left.size + right.size
  | .seq first second => 1 + first.size + second.size
  | .label _ => 1
end

/-- Every expression has at least one node. -/
theorem Exp.size_pos (e : Exp) : 0 < e.size := by
  cases e <;> simp only [Exp.size] <;> omega

/-- Every statement has at least one node. -/
theorem Stm.size_pos (s : Stm) : 0 < s.size := by
  cases s <;> simp only [Stm.size] <;> omega

/-- A call of a function that needs no enclosing frame. -/
def Exp.plainCall (func : Label) (args : List Exp) : Exp :=
  .call (.name func) none args

/-- A call of a nested function, which finds its enclosing frame through `link`. -/
def Exp.linkedCall (func : Label) (link : Exp) (args : List Exp) : Exp :=
  .call (.name func) (some link) args

namespace Stm

/-- The statement that does nothing. -/
def nop : Stm := .exp (.const 0)

/-- Whether a statement only evaluates a constant. -/
def isNop : Stm → Bool
  | .exp (.const _) => true
  | _ => false

/-- Go to a known label. -/
def goto (label : Label) : Stm := .jump (.name label) [label]

/-- Statements in order, nested to the right; for no statements, the one that does nothing. -/
def sequence : List Stm → Stm
  | [] => nop
  | [stm] => stm
  | stm :: stms => .seq stm (sequence stms)

end Stm

/-- A tree of either kind. -/
inductive Node where
  | exp (exp : Exp)
  | stm (stm : Stm)

/-- Number of nodes of a tree. -/
def Node.size : Node → Nat
  | .exp e => e.size
  | .stm s => s.size

end TreeCode.Tree
