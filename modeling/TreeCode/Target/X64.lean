import TreeCode.Target.X86

/-!
The 64-bit x86 machine: the System V calling convention and the instructions, in Intel syntax.
Displacements and arithmetic immediates have to be encodable as sign-extended 32-bit numbers;
wider constants are moved into a register as a whole.
-/

namespace TreeCode.X64

open X86

/-- Register roles. The first six arguments travel in registers; the frame pointer and the stack
pointer are never allocated. -/
def registers : RegisterTable where
  names :=
    ["rax", "rcx", "rdx", "rbx", "rsp", "rbp", "rsi", "rdi", "r8", "r9", "r10", "r11", "r12",
      "r13", "r14", "r15"]
  framePointer := "rbp"
  stackPointer := "rsp"
  returnValue := "rax"
  arguments := ["rdi", "rsi", "rdx", "rcx", "r8", "r9"]
  callerSaved := ["rax", "rcx", "rdx", "rsi", "rdi", "r8", "r9", "r10", "r11"]
  calleeSaved := ["rbx", "r12", "r13", "r14", "r15"]

/-- The calling convention. -/
def convention : ConventionTable where
  name := "x64"
  wordSize := 8
  registers := registers
  outgoing := 32

/-- The register of products, quotients and results. -/
def rax : Operand := .machine "rax"

/-- The register of shift counts. -/
def rcx : Operand := .machine "rcx"

/-- The register of the upper half of a dividend. -/
def rdx : Operand := .machine "rdx"

/-- A shift count. -/
def shiftCount : Shape := .imm (.between 0 63)

/-- The patterns of statements. A larger pattern need not stand before a smaller one. -/
def stmPatterns : List Pattern := [
  { name := "store-base-disp"
    shape := .move (.mem (.binop .plus .reg imm32)) .reg
    emit := [{ asm := "mov qword ptr [`s0 + `i0], `s1", src := [.reg 0, .reg 1], imms := [0] }] },
  { name := "store-disp-base"
    shape := .move (.mem (.binop .plus imm32 .reg)) .reg
    emit := [{ asm := "mov qword ptr [`s0 + `i0], `s1", src := [.reg 0, .reg 1], imms := [0] }] },
  { name := "store-imm-base-disp"
    shape := .move (.mem (.binop .plus .reg imm32)) imm32
    emit := [{ asm := "mov qword ptr [`s0 + `i0], `i1", src := [.reg 0], imms := [0, 1] }] },
  { name := "store-base"
    shape := .move (.mem .reg) .reg
    emit := [{ asm := "mov qword ptr [`s0], `s1", src := [.reg 0, .reg 1] }] },
  { name := "load-base-disp"
    shape := .move .temp (.mem (.binop .plus .reg imm32))
    emit := [
      { asm := "mov `d0, qword ptr [`s0 + `i0]", dst := [.reg 0], src := [.reg 1], imms := [0] }] },
  { name := "load-base"
    shape := .move .temp (.mem .reg)
    emit := [{ asm := "mov `d0, qword ptr [`s0]", dst := [.reg 0], src := [.reg 1] }] },
  { name := "move-imm"
    shape := .move .temp anyImm
    emit := [{ asm := "mov `d0, `i0", dst := [.reg 0], imms := [0] }] },
  { name := "move-label"
    shape := .move .temp .name
    emit := [{ asm := "lea `d0, [rip + `j0]", dst := [.reg 0], labels := [0] }] },
  { name := "call-result"
    shape := .move .temp (.call .name)
    emit := [
      { asm := "call `j0", labels := [0], isCall := true },
      { asm := "mov `d0, `s0", isMove := true, dst := [.reg 0], src := [rax] }] },
  { name := "move-reg"
    shape := .move .temp .reg
    emit := [{ asm := "mov `d0, `s0", isMove := true, dst := [.reg 0], src := [.reg 1] }] },
  { name := "call"
    shape := .exp (.call .name)
    emit := [{ asm := "call `j0", labels := [0], isCall := true }] },
  { name := "call-indirect"
    shape := .exp (.call .reg)
    emit := [{ asm := "call `s0", src := [.reg 0], isCall := true }] },
  { name := "discard"
    shape := .exp .reg
    emit := [] },
  { name := "jump"
    shape := .jump .name
    emit := [{ asm := "jmp `j0", labels := [0] }] },
  { name := "branch-imm"
    shape := .cjump none .reg imm32
    emit := [
      { asm := "cmp `s0, `i0", src := [.reg 0], imms := [0] },
      { asm := "j`c `j0", labels := [0] },
      { asm := "jmp `j0", labels := [1] }] },
  { name := "branch"
    shape := .cjump none .reg .reg
    emit := [
      { asm := "cmp `s0, `s1", src := [.reg 0, .reg 1] },
      { asm := "j`c `j0", labels := [0] },
      { asm := "jmp `j0", labels := [1] }] }]

/-- The patterns of expressions. -/
def expPatterns : List Pattern := [
  { name := "load-base-disp"
    shape := .mem (.binop .plus .reg imm32)
    emit := [
      { asm := "mov `d0, qword ptr [`s0 + `i0]", dst := [.result], src := [.reg 0],
        imms := [0] }] },
  { name := "load-disp-base"
    shape := .mem (.binop .plus imm32 .reg)
    emit := [
      { asm := "mov `d0, qword ptr [`s0 + `i0]", dst := [.result], src := [.reg 0],
        imms := [0] }] },
  { name := "load-base"
    shape := .mem .reg
    emit := [{ asm := "mov `d0, qword ptr [`s0]", dst := [.result], src := [.reg 0] }] },
  { name := "add-imm"
    shape := .binop .plus .reg imm32
    emit := [copyLeft, inPlace "add `d0, `i0"] },
  { name := "add"
    shape := .binop .plus .reg .reg
    emit := [copyLeft, twoAddress "add `d0, `s1"] },
  { name := "sub-imm"
    shape := .binop .minus .reg imm32
    emit := [copyLeft, inPlace "sub `d0, `i0"] },
  { name := "sub"
    shape := .binop .minus .reg .reg
    emit := [copyLeft, twoAddress "sub `d0, `s1"] },
  { name := "imul-imm"
    shape := .binop .mul .reg imm32
    emit := [{ asm := "imul `d0, `s0, `i0", dst := [.result], src := [.reg 0], imms := [0] }] },
  { name := "imul"
    shape := .binop .mul .reg .reg
    emit := [copyLeft, twoAddress "imul `d0, `s1"] },
  { name := "idiv"
    shape := .binop .div .reg .reg
    emit := [
      { asm := "mov `d0, `s0", isMove := true, dst := [rax], src := [.reg 0] },
      { asm := "cqo", dst := [rdx], src := [rax] },
      { asm := "idiv `s0", dst := [rax, rdx], src := [.reg 1, rax, rdx] },
      { asm := "mov `d0, `s0", isMove := true, dst := [.result], src := [rax] }] },
  { name := "and-imm"
    shape := .binop .and .reg imm32
    emit := [copyLeft, inPlace "and `d0, `i0"] },
  { name := "and"
    shape := .binop .and .reg .reg
    emit := [copyLeft, twoAddress "and `d0, `s1"] },
  { name := "or"
    shape := .binop .or .reg .reg
    emit := [copyLeft, twoAddress "or `d0, `s1"] },
  { name := "xor"
    shape := .binop .xor .reg .reg
    emit := [copyLeft, twoAddress "xor `d0, `s1"] },
  { name := "shl-imm"
    shape := .binop .lshift .reg shiftCount
    emit := [copyLeft, inPlace "shl `d0, `i0"] },
  { name := "shr-imm"
    shape := .binop .rshift .reg shiftCount
    emit := [copyLeft, inPlace "shr `d0, `i0"] },
  { name := "sar-imm"
    shape := .binop .arshift .reg shiftCount
    emit := [copyLeft, inPlace "sar `d0, `i0"] },
  { name := "shl"
    shape := .binop .lshift .reg .reg
    emit := [
      { asm := "mov `d0, `s0", isMove := true, dst := [rcx], src := [.reg 1] },
      copyLeft,
      { asm := "shl `d0, cl", dst := [.result], src := [.result, rcx] }] },
  { name := "shr"
    shape := .binop .rshift .reg .reg
    emit := [
      { asm := "mov `d0, `s0", isMove := true, dst := [rcx], src := [.reg 1] },
      copyLeft,
      { asm := "shr `d0, cl", dst := [.result], src := [.result, rcx] }] },
  { name := "sar"
    shape := .binop .arshift .reg .reg
    emit := [
      { asm := "mov `d0, `s0", isMove := true, dst := [rcx], src := [.reg 1] },
      copyLeft,
      { asm := "sar `d0, cl", dst := [.result], src := [.result, rcx] }] },
  { name := "call-value"
    shape := .call .name
    emit := [
      { asm := "call `j0", labels := [0], isCall := true },
      { asm := "mov `d0, `s0", isMove := true, dst := [.result], src := [rax] }] },
  { name := "call-value-indirect"
    shape := .call .reg
    emit := [
      { asm := "call `s0", src := [.reg 0], isCall := true },
      { asm := "mov `d0, `s0", isMove := true, dst := [.result], src := [rax] }] },
  { name := "const"
    shape := anyImm
    emit := [{ asm := "mov `d0, `i0", dst := [.result], imms := [0] }] },
  { name := "label-address"
    shape := .name
    emit := [{ asm := "lea `d0, [rip + `j0]", dst := [.result], labels := [0] }] }]

/-- Arguments may be any constants. -/
def args : ArgTemplates where
  imm := .any
  immToReg := { asm := "mov `d0, `i0", dst := [.result], imms := [0] }
  labelToReg := { asm := "lea `d0, [rip + `j0]", dst := [.result], labels := [0] }
  regToReg := copyLeft
  regToStack := { asm := "mov qword ptr [`s0 + `i0], `s1", src := [.reg 0, .reg 1], imms := [0] }

/-- The instruction set. -/
def isa : InstructionSet where
  name := "x64"
  patterns := stmPatterns ++ expPatterns
  args := args
  stringDirective := ".string"
  condition := conditionSuffix

end TreeCode.X64
