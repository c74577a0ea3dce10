import TreeCode.Target.X86

/-!
The 32-bit x86 machine: the C calling convention, which passes all arguments on the stack, and
the instructions, in Intel syntax. There are no patterns for shifts and for calls through a
register, and constants beyond 32 bits have none either.
-/

namespace TreeCode.I386

open X86

/-- Register roles. No argument travels in a register. -/
def registers : RegisterTable where
  names := ["eax", "ecx", "edx", "ebx", "esp", "ebp", "esi", "edi"]
  framePointer := "ebp"
  stackPointer := "esp"
  returnValue := "eax"
  arguments := []
  callerSaved := ["eax", "ecx", "edx"]
  calleeSaved := ["ebx", "esi", "edi"]

/-- The calling convention. -/
def convention : ConventionTable where
  name := "i386"
  wordSize := 4
  registers := registers
  outgoing := 64

/-- The register of products, quotients and results. -/
def eax : Operand := .machine "eax"

/-- The register of the upper half of a dividend. -/
def edx : Operand := .machine "edx"

/-- The patterns of statements. A larger pattern need not stand before a smaller one. -/
def stmPatterns : List Pattern := [
  { name := "store-base-disp"
    shape := .move (.mem (.binop .plus .reg imm32)) .reg
    emit := [{ asm := "mov dword ptr [`s0 + `i0], `s1", src := [.reg 0, .reg 1], imms := [0] }] },
  { name := "store-base"
    shape := .move (.mem .reg) .reg
    emit := [{ asm := "mov dword ptr [`s0], `s1", src := [.reg 0, .reg 1] }] },
  { name := "load-base-disp"
    shape := .move .temp (.mem (.binop .plus .reg imm32))
    emit := [
      { asm := "mov `d0, dword ptr [`s0 + `i0]", dst := [.reg 0], src := [.reg 1], imms := [0] }] },
  { name := "move-imm"
    shape := .move .temp imm32
    emit := [{ asm := "mov `d0, `i0", dst := [.reg 0], imms := [0] }] },
  { name := "call-result"
    shape := .move .temp (.call .name)
    emit := [
      { asm := "call `j0", labels := [0], isCall := true },
      { asm := "mov `d0, `s0", isMove := true, dst := [.reg 0], src := [eax] }] },
  { name := "move-reg"
    shape := .move .temp .reg
    emit := [{ asm := "mov `d0, `s0", isMove := true, dst := [.reg 0], src := [.reg 1] }] },
  { name := "call"
    shape := .exp (.call .name)
    emit := [{ asm := "call `j0", labels := [0], isCall := true }] },
  { name := "discard"
    shape := .exp .reg
    emit := [] },
  { name := "jump"
    shape := .jump .name
    emit := [{ asm := "jmp `j0", labels := [0] }] },
  { name := "branch-imm"
    shape := .cjump none .reg imm32
    emit := [
      { asm := "cmp `s0, `i0", src := [.reg 0], imms := [0] },
      { asm := "j`c `j0", labels := [0] },
      { asm := "jmp `j0", labels := [1] }] },
  { name := "branch"
    shape := .cjump none .reg .reg
    emit := [
      { asm := "cmp `s0, `s1", src := [.reg 0, .reg 1] },
      { asm := "j`c `j0", labels := [0] },
      { asm := "jmp `j0", labels := [1] }] }]

/-- The patterns of expressions. -/
def expPatterns : List Pattern := [
  { name := "load-base-disp"
    shape := .mem (.binop .plus .reg imm32)
    emit := [
      { asm := "mov `d0, dword ptr [`s0 + `i0]", dst := [.result], src := [.reg 0],
        imms := [0] }] },
  { name := "load-base"
    shape := .mem .reg
    emit := [{ asm := "mov `d0, dword ptr [`s0]", dst := [.result], src := [.reg 0] }] },
  { name := "add-imm"
    shape := .binop .plus .reg imm32
    emit := [copyLeft, inPlace "add `d0, `i0"] },
  { name := "add"
    shape := .binop .plus .reg .reg
    emit := [copyLeft, twoAddress "add `d0, `s1"] },
  { name := "sub"
    shape := .binop .minus .reg .reg
    emit := [copyLeft, twoAddress "sub `d0, `s1"] },
  { name := "imul"
    shape := .binop .mul .reg .reg
    emit := [copyLeft, twoAddress "imul `d0, `s1"] },
  { name := "idiv"
    shape := .binop .div .reg .reg
    emit := [
      { asm := "mov `d0, `s0", isMove := true, dst := [eax], src := [.reg 0] },
      { asm := "cdq", dst := [edx], src := [eax] },
      { asm := "idiv `s0", dst := [eax, edx], src := [.reg 1, eax, edx] },
      { asm := "mov `d0, `s0", isMove := true, dst := [.result], src := [eax] }] },
  { name := "and"
    shape := .binop .and .reg .reg
    emit := [copyLeft, twoAddress "and `d0, `s1"] },
  { name := "or"
    shape := .binop .or .reg .reg
    emit := [copyLeft, twoAddress "or `d0, `s1"] },
  { name := "xor"
    shape := .binop .xor .reg .reg
    emit := [copyLeft, twoAddress "xor `d0, `s1"] },
  { name := "call-value"
    shape := .call .name
    emit := [
      { asm := "call `j0", labels := [0], isCall := true },
      { asm := "mov `d0, `s0", isMove := true, dst := [.result], src := [eax] }] },
  { name := "const"
    shape := imm32
    emit := [{ asm := "mov `d0, `i0", dst := [.result], imms := [0] }] },
  { name := "label-address"
    shape := .name
    emit := [{ asm := "mov `d0, offset `j0", dst := [.result], labels := [0] }] }]

/-- Arguments may be constants of 32 bits. -/
def args : ArgTemplates where
  imm := range32
  immToReg := { asm := "mov `d0, `i0", dst := [.result], imms := [0] }
  labelToReg := { asm := "mov `d0, offset `j0", dst := [.result], labels := [0] }
  regToReg := copyLeft
  regToStack := { asm := "mov dword ptr [`s0 + `i0], `s1", src := [.reg 0, .reg 1], imms := [0] }

/-- The instruction set. -/
def isa : InstructionSet where
  name := "i386"
  patterns := stmPatterns ++ expPatterns
  args := args
  stringDirective := ".string"
  condition := conditionSuffix

end TreeCode.I386
