import TreeCode.Tree.Basic

/-!
Shapes of trees. A shape says what the root of a tree looks like, down to leaves at which parts of
the tree are bound: subtrees to be evaluated into registers, immediates and labels. Parts are
bound from left to right.
-/

namespace TreeCode

/-- The immediates that fit a field of an instruction. -/
inductive ImmRange where
  | any
  /-- Both ends included. -/
  | between (least greatest : Int)
deriving DecidableEq

/-- Whether an immediate fits. -/
def ImmRange.contains : ImmRange → Int → Bool
  | any, _ => true
  | between least greatest, value => least ≤ value && value ≤ greatest

/-- The shape of a tree. -/
inductive Shape where
  /-- Any expression, to be evaluated into a register. -/
  | reg
  /-- A temporary, which is in a register already. -/
  | temp
  /-- A constant that fits, bound as an immediate. -/
  | imm (range : ImmRange)
  /-- This constant; binds nothing. -/
  | const (value : Int)
  /-- A label. -/
  | name
  | binop (op : Tree.BinOp) (left right : Shape)
  | mem (address : Shape)
  /-- A call; its link and arguments are bound as a whole. -/
  | call (func : Shape)
  | move (dst src : Shape)
  | exp (exp : Shape)
  /-- A jump; its labels are bound after what its target binds. -/
  | jump (target : Shape)
  /-- A conditional jump, of one comparison or of any. Its labels are bound after what its
  operands bind. -/
  | cjump (op : Option Tree.RelOp) (left right : Shape)
deriving DecidableEq

namespace Shape

/-- How many nodes of a tree a shape covers. A leaf for any expression covers none. -/
def size : Shape → Nat
  | reg => 0
  | temp => 1
  | imm _ => 1
  | const _ => 1
  | name => 1
  | binop _ left right => 1 + left.size + right.size
  | mem address => 1 + address.size
  | call func => 1 + func.size
  | move dst src => 1 + dst.size + src.size
  | exp e => 1 + e.size
  | jump target => 1 + target.size
  | cjump _ left right => 1 + left.size + right.size

/-- Whether a shape is one of statements. -/
def isStatement : Shape → Bool
  | move _ _ => true
  | exp _ => true
  | jump _ => true
  | cjump _ _ _ => true
  | _ => false

end Shape

/-- The link and the arguments of a call. -/
structure CallOperands where
  link : Option Tree.Exp
  args : List Tree.Exp

/-- The parts of a tree that a shape binds. -/
structure Bindings where
  /-- Subtrees to be evaluated into registers. -/
  regs : List Tree.Exp := []
  imms : List Int := []
  labels : List Label := []
  /-- The comparison of a conditional jump. -/
  relop : Option Tree.RelOp := none
  call : Option CallOperands := none

/-- Number of nodes of the operands of a call. -/
def CallOperands.load : Option CallOperands → Nat
  | none => 0
  | some call => Tree.Exp.linkSize call.link + Tree.Exp.listSize call.args

/-- Number of nodes that are still to be covered after a match. -/
def Bindings.load (b : Bindings) : Nat :=
  Tree.Exp.listSize b.regs + CallOperands.load b.call

/-- Match an expression, adding to what is bound already. -/
def Shape.bindExp? : Shape → Tree.Exp → Bindings → Option Bindings
  | .reg, e, b => some { b with regs := b.regs ++ [e] }
  | .temp, .temp t, b => some { b with regs := b.regs ++ [.temp t] }
  | .imm range, .const value, b =>
    if range.contains value then some { b with imms := b.imms ++ [value] } else none
  | .const expected, .const value, b => if expected = value then some b else none
  | .name, .name label, b => some { b with labels := b.labels ++ [label] }
  | .binop op left right, .binop actual l r, b =>
    if op = actual then
      match left.bindExp? l b with
      | some b => right.bindExp? r b
      | none => none
    else none
  | .mem address, .mem e, b => address.bindExp? e b
  | .call func, .call f link args, b =>
    match func.bindExp? f b with
    | some b => some { b with call := some { link, args } }
    | none => none
  | _, _, _ => none

/-- Match a statement, adding to what is bound already. -/
def Shape.bindStm? : Shape → Tree.Stm → Bindings → Option Bindings
  | .move dst src, .move d s, b =>
    match dst.bindExp? d b with
    | some b => src.bindExp? s b
    | none => none
  | .exp shape, .exp e, b => shape.bindExp? e b
  | .jump target, .jump e labels, b =>
    match target.bindExp? e b with
    | some b => some { b with labels := b.labels ++ labels }
    | none => none
  | .cjump op left right, .cjump actual l r yes no, b =>
    if op.all (· == actual) then
      match left.bindExp? l { b with relop := some actual } with
      | some b =>
        match right.bindExp? r b with
        | some b => some { b with labels := b.labels ++ [yes, no] }
        | none => none
      | none => none
    else none
  | _, _, _ => none

/-- Match a tree of the kind that the shape is of, from nothing bound. -/
def Shape.match? (shape : Shape) : Tree.Node → Option Bindings
  | .exp e => if shape.isStatement then none else shape.bindExp? e {}
  | .stm s => if shape.isStatement then shape.bindStm? s {} else none

end TreeCode
