import TreeCode.Target.Basic

/-!
The 64-bit Arm machine: the AAPCS64 calling convention and the instructions. Frames are reached
by the unscaled load and store forms, whose signed offset of nine bits covers every place near the
frame pointer. Constants that do not fit a move come from the literal pool.
-/

namespace TreeCode.Arm64

/-- Register roles. The first eight arguments travel in registers. `x18` is the register of the
platform and never used; `x30` holds the return address and is changed by every call. -/
def registers : RegisterTable where
  names :=
    ["x0", "x1", "x2", "x3", "x4", "x5", "x6", "x7", "x8", "x9", "x10", "x11", "x12", "x13",
      "x14", "x15", "x16", "x17", "x18", "x19", "x20", "x21", "x22", "x23", "x24", "x25", "x26",
      "x27", "x28", "x29", "x30", "sp"]
  framePointer := "x29"
  stackPointer := "sp"
  returnValue := "x0"
  arguments := ["x0", "x1", "x2", "x3", "x4", "x5", "x6", "x7"]
  callerSaved :=
    ["x0", "x1", "x2", "x3", "x4", "x5", "x6", "x7", "x8", "x9", "x10", "x11", "x12", "x13",
      "x14", "x15", "x16", "x17", "x30"]
  calleeSaved := ["x19", "x20", "x21", "x22", "x23", "x24", "x25", "x26", "x27", "x28"]

/-- The calling convention. -/
def convention : ConventionTable where
  name := "arm64"
  wordSize := 8
  registers := registers
  outgoing := 32

/-- The register of results. -/
def x0 : Operand := .machine "x0"

/-- The offset of an unscaled load or store. -/
def imm9 : Shape := .imm (.between (-256) 255)

/-- An arithmetic immediate. -/
def imm12 : Shape := .imm (.between 0 4095)

/-- The immediate of a move. -/
def imm16 : Shape := .imm (.between 0 65535)

/-- A shift count. -/
def shiftCount : Shape := .imm (.between 0 63)

/-- An instruction on two registers with a result. -/
def threeRegisters (asm : String) : Template :=
  { asm, dst := [.result], src := [.reg 0, .reg 1] }

/-- An instruction on a register and an immediate with a result. -/
def withImmediate (asm : String) : Template :=
  { asm, dst := [.result], src := [.reg 0], imms := [0] }

/-- The suffix of a conditional branch. -/
def conditionSuffix : Tree.RelOp → String
  | .eq => "eq"
  | .ne => "ne"
  | .lt => "lt"
  | .gt => "gt"
  | .le => "le"
  | .ge => "ge"
  | .ult => "lo"
  | .ule => "ls"
  | .ugt => "hi"
  | .uge => "hs"

/-- The patterns of statements. A larger pattern need not stand before a smaller one. -/
def stmPatterns : List Pattern := [
  { name := "stur"
    shape := .move (.mem (.binop .plus .reg imm9)) .reg
    emit := [{ asm := "stur `s1, [`s0, #`i0]", src := [.reg 0, .reg 1], imms := [0] }] },
  { name := "str"
    shape := .move (.mem .reg) .reg
    emit := [{ asm := "str `s1, [`s0]", src := [.reg 0, .reg 1] }] },
  { name := "ldur-into"
    shape := .move .temp (.mem (.binop .plus .reg imm9))
    emit := [{ asm := "ldur `d0, [`s0, #`i0]", dst := [.reg 0], src := [.reg 1], imms := [0] }] },
  { name := "ldr-into"
    shape := .move .temp (.mem .reg)
    emit := [{ asm := "ldr `d0, [`s0]", dst := [.reg 0], src := [.reg 1] }] },
  { name := "mov-imm-into"
    shape := .move .temp imm16
    emit := [{ asm := "mov `d0, #`i0", dst := [.reg 0], imms := [0] }] },
  { name := "adr-into"
    shape := .move .temp .name
    emit := [{ asm := "adr `d0, `j0", dst := [.reg 0], labels := [0] }] },
  { name := "bl-result"
    shape := .move .temp (.call .name)
    emit := [
      { asm := "bl `j0", labels := [0], isCall := true },
      { asm := "mov `d0, `s0", isMove := true, dst := [.reg 0], src := [x0] }] },
  { name := "mov"
    shape := .move .temp .reg
    emit := [{ asm := "mov `d0, `s0", isMove := true, dst := [.reg 0], src := [.reg 1] }] },
  { name := "bl"
    shape := .exp (.call .name)
    emit := [{ asm := "bl `j0", labels := [0], isCall := true }] },
  { name := "blr"
    shape := .exp (.call .reg)
    emit := [{ asm := "blr `s0", src := [.reg 0], isCall := true }] },
  { name := "discard"
    shape := .exp .reg
    emit := [] },
  { name := "b"
    shape := .jump .name
    emit := [{ asm := "b `j0", labels := [0] }] },
  { name := "cmp-imm"
    shape := .cjump none .reg imm12
    emit := [
      { asm := "cmp `s0, #`i0", src := [.reg 0], imms := [0] },
      { asm := "b.`c `j0", labels := [0] },
      { asm := "b `j0", labels := [1] }] },
  { name := "cmp"
    shape := .cjump none .reg .reg
    emit := [
      { asm := "cmp `s0, `s1", src := [.reg 0, .reg 1] },
      { asm := "b.`c `j0", labels := [0] },
      { asm := "b `j0", labels := [1] }] }]

/-- The patterns of expressions. -/
def expPatterns : List Pattern := [
  { name := "ldur"
    shape := .mem (.binop .plus .reg imm9)
    emit := [withImmediate "ldur `d0, [`s0, #`i0]"] },
  { name := "ldr"
    shape := .mem .reg
    emit := [{ asm := "ldr `d0, [`s0]", dst := [.result], src := [.reg 0] }] },
  { name := "add-imm"
    shape := .binop .plus .reg imm12
    emit := [withImmediate "add `d0, `s0, #`i0"] },
  { name := "add"
    shape := .binop .plus .reg .reg
    emit := [threeRegisters "add `d0, `s0, `s1"] },
  { name := "sub-imm"
    shape := .binop .minus .reg imm12
    emit := [withImmediate "sub `d0, `s0, #`i0"] },
  { name := "sub"
    shape := .binop .minus .reg .reg
    emit := [threeRegisters "sub `d0, `s0, `s1"] },
  { name := "mul"
    shape := .binop .mul .reg .reg
    emit := [threeRegisters "mul `d0, `s0, `s1"] },
  { name := "sdiv"
    shape := .binop .div .reg .reg
    emit := [threeRegisters "sdiv `d0, `s0, `s1"] },
  { name := "and"
    shape := .binop .and .reg .reg
    emit := [threeRegisters "and `d0, `s0, `s1"] },
  { name := "orr"
    shape := .binop .or .reg .reg
    emit := [threeRegisters "orr `d0, `s0, `s1"] },
  { name := "eor"
    shape := .binop .xor .reg .reg
    emit := [threeRegisters "eor `d0, `s0, `s1"] },
  { name := "lsl-imm"
    shape := .binop .lshift .reg shiftCount
    emit := [withImmediate "lsl `d0, `s0, #`i0"] },
  { name := "lsr-imm"
    shape := .binop .rshift .reg shiftCount
    emit := [withImmediate "lsr `d0, `s0, #`i0"] },
  { name := "asr-imm"
    shape := .binop .arshift .reg shiftCount
    emit := [withImmediate "asr `d0, `s0, #`i0"] },
  { name := "lsl"
    shape := .binop .lshift .reg .reg
    emit := [threeRegisters "lsl `d0, `s0, `s1"] },
  { name := "lsr"
    shape := .binop .rshift .reg .reg
    emit := [threeRegisters "lsr `d0, `s0, `s1"] },
  { name := "asr"
    shape := .binop .arshift .reg .reg
    emit := [threeRegisters "asr `d0, `s0, `s1"] },
  { name := "bl-value"
    shape := .call .name
    emit := [
      { asm := "bl `j0", labels := [0], isCall := true },
      { asm := "mov `d0, `s0", isMove := true, dst := [.result], src := [x0] }] },
  { name := "blr-value"
    shape := .call .reg
    emit := [
      { asm := "blr `s0", src := [.reg 0], isCall := true },
      { asm := "mov `d0, `s0", isMove := true, dst := [.result], src := [x0] }] },
  { name := "mov-imm"
    shape := imm16
    emit := [{ asm := "mov `d0, #`i0", dst := [.result], imms := [0] }] },
  { name := "ldr-literal"
    shape := anyImm
    emit := [{ asm := "ldr `d0, =`i0", dst := [.result], imms := [0] }] },
  { name := "adr"
    shape := .name
    emit := [{ asm := "adr `d0, `j0", dst := [.result], labels := [0] }] }]

/-- Arguments may be any constants, taken from the literal pool. -/
def args : ArgTemplates where
  imm := .any
  immToReg := { asm := "ldr `d0, =`i0", dst := [.result], imms := [0] }
  labelToReg := { asm := "adr `d0, `j0", dst := [.result], labels := [0] }
  regToReg := copyLeft
  regToStack := { asm := "str `s1, [`s0, #`i0]", src := [.reg 0, .reg 1], imms := [0] }

/-- The instruction set. -/
def isa : InstructionSet where
  name := "arm64"
  patterns := stmPatterns ++ expPatterns
  args := args
  stringDirective := ".asciz"
  condition := conditionSuffix

end TreeCode.Arm64
