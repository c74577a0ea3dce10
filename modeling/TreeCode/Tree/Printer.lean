import TreeCode.Tree.Basic

/-!
The text form of tree code: an upper-case head, with the operands in brackets.
-/

namespace TreeCode.Tree

/-- The text of an operator. -/
def BinOp.text : BinOp → String
  | plus => "PLUS"
  | minus => "MINUS"
  | mul => "MUL"
  | div => "DIV"
  | and => "AND"
  | or => "OR"
  | xor => "XOR"
  | lshift => "LSHIFT"
  | rshift => "RSHIFT"
  | arshift => "ARSHIFT"

/-- The text of a comparison. -/
def RelOp.text : RelOp → String
  | eq => "EQ"
  | ne => "NE"
  | lt => "LT"
  | gt => "GT"
  | le => "LE"
  | ge => "GE"
  | ult => "ULT"
  | ule => "ULE"
  | ugt => "UGT"
  | uge => "UGE"

mutual
/-- The text of an expression. -/
def Exp.text : Exp → String
  | .const value => "CONST " ++ toString value
  | .name label => "NAME " ++ label
  | .temp t => "TEMP " ++ t.text
  | .binop op left right =>
    "BINOP(" ++ op.text ++ ", " ++ left.text ++ ", " ++ right.text ++ ")"
  | .mem address => "MEM(" ++ address.text ++ ")"
  | .call func link args =>
    "CALL(" ++ func.text ++ Exp.linkText link ++ Exp.argsText args ++ ")"
  | .eseq stm exp => "ESEQ(" ++ stm.text ++ ", " ++ exp.text ++ ")"
/-- The text of a call's link, after the function. -/
def Exp.linkText : Option Exp → String
  | none => ""
  | some link => ", LINK " ++ link.text
/-- The text of a call's arguments, each after a comma. -/
def Exp.argsText : List Exp → String
  | [] => ""
  | arg :: args => ", " ++ arg.text ++ Exp.argsText args
/-- The text of a statement. The labels that a jump may reach are not shown. -/
def Stm.text : Stm → String
  | .move dst src => "MOVE(" ++ dst.text ++ ", " ++ src.text ++ ")"
  | .exp exp => "EXP(" ++ exp.text ++ ")"
  | .jump target _ => "JUMP(" ++ target.text ++ ")"
  | .cjump op left right yes no =>
    "CJUMP(" ++ op.text ++ ", " ++ left.text ++ ", " ++ right.text ++ ", " ++ yes ++ ", " ++ no
      ++ ")"
  | .seq first second => "SEQ(" ++ first.text ++ ", " ++ second.text ++ ")"
  | .label label => "LABEL " ++ label
end

/-- The text of a tree of either kind. -/
def Node.text : Node → String
  | .exp e => e.text
  | .stm s => s.text

end TreeCode.Tree
