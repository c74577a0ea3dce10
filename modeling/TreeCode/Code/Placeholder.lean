import TreeCode.Code.Instr

/-!
Placeholders in the text of an instruction: a mark, a letter that says which kind of operand is
meant, and the decimal number of the operand. A mark that is not followed by a letter and a
number stands for itself, as does the character after it. Numbers of operands have 64 bits.
-/

namespace TreeCode

/-- A part of an instruction's text. -/
inductive Piece where
  | char (c : Char)
  /-- The operand number `index` of the kind that the letter `kind` says. -/
  | slot (kind : Char) (index : Nat)
deriving DecidableEq

/-- How far a placeholder has been read. -/
inductive PieceState where
  /-- Outside of placeholders. -/
  | text
  /-- After a mark. -/
  | marked
  /-- After a mark and a letter. -/
  | lettered (kind : Char)
  /-- Inside the number of an operand. -/
  | numbered (kind : Char) (index : Nat)
deriving DecidableEq

/-- The value of a decimal digit. -/
def digitValue (c : Char) : Nat := c.toNat - '0'.toNat

/-- How many numbers of operands there are. -/
def indexLimit : Nat := UInt64.size

/-- The number `index` after one more digit. A number that does not fit wraps around; where
arithmetic is checked, nothing is printed at all for the text that it stands in. -/
def nextIndex (index : Nat) (digit : Char) : Nat := (index * 10 + digitValue digit) % indexLimit

/-- Take the rest of a text apart, where `state` says what was read before it. -/
def pieces : PieceState → List Char → List Piece
  | .text, [] => []
  | .text, c :: cs =>
    if c = placeholderMark then pieces .marked cs
    else .char c :: pieces .text cs
  | .marked, [] => [.char placeholderMark]
  | .marked, c :: cs => pieces (.lettered c) cs
  | .lettered kind, [] => [.char placeholderMark, .char kind]
  | .lettered kind, c :: cs =>
    if c.isDigit then pieces (.numbered kind (nextIndex 0 c)) cs
    else
      .char placeholderMark :: .char kind ::
        if c = placeholderMark then pieces .marked cs
        else .char c :: pieces .text cs
  | .numbered kind index, [] => [.slot kind index]
  | .numbered kind index, c :: cs =>
    if c.isDigit then pieces (.numbered kind (nextIndex index c)) cs
    else
      .slot kind index ::
        if c = placeholderMark then pieces .marked cs
        else .char c :: pieces .text cs

/-- What is written for an operand that an instruction does not have. -/
def missingOperand : String := "<?>"

/-- Add an immediate to a text that is kept in reverse. A negative one after a plus sign and a
space is subtracted instead. -/
def addImmediate (out : List Char) (value : Int) : List Char :=
  match out with
  | ' ' :: '+' :: rest =>
    if value < 0 then (toString value.natAbs).toList.reverse ++ ' ' :: '-' :: rest
    else (toString value).toList.reverse ++ out
  | _ => (toString value).toList.reverse ++ out

namespace Instr

/-- The text of an operand, other than an immediate. -/
def operandText (instr : Instr) (names : NameMap) (kind : Char) (index : Nat) : String :=
  match kind with
  | 'd' => (instr.dst[index]?.map names.name).getD missingOperand
  | 's' => (instr.src[index]?.map names.name).getD missingOperand
  | 'j' => instr.labels[index]?.getD missingOperand
  | 'i' => missingOperand
  | other => String.ofList [placeholderMark, other] ++ toString index

/-- Fill in the operands of the pieces, in front of the text `out`, which is kept in reverse. -/
def fill (instr : Instr) (names : NameMap) (out : List Char) : List Piece → List Char
  | [] => out
  | .char c :: rest => instr.fill names (c :: out) rest
  | .slot kind index :: rest =>
    match kind, instr.imms[index]? with
    | 'i', some value => instr.fill names (addImmediate out value) rest
    | kind, _ => instr.fill names ((instr.operandText names kind index).toList.reverse ++ out) rest

/-- The text of an instruction, with temporaries called as `names` says. -/
def render (instr : Instr) (names : NameMap) : String :=
  String.ofList (instr.fill names [] (pieces .text instr.asm.toList)).reverse

end Instr

end TreeCode
