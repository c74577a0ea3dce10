import Mathlib.Algebra.Group.Int.Defs
import TreeCode.Code.Instr
import TreeCode.Machine.Convention
import TreeCode.Proofs.Tree.Bytes

/-!
What the instructions of the 64-bit x86 machine do. The text of an instruction says which operation
it is and which of its operands go where; the operands themselves are registers, immediates and
labels. Comparing sets the flags that conditional jumps look at. Other arithmetic leaves them
unknown, and a jump that looks at unknown flags has no meaning.
-/

namespace TreeCode.X64

open Source (Word)
open Tree (State Memory)

/-- What a comparison leaves for conditional jumps. -/
structure Flags where
  zero : Bool
  sign : Bool
  carry : Bool
  overflow : Bool

/-- The flags after `b` is subtracted from `a`. -/
def Flags.compare (a b : Word) : Flags where
  zero := a - b == 0
  sign := (a - b).msb
  carry := a.ult b
  overflow := a.msb != b.msb && a.msb != (a - b).msb

/-- The conditions of jumps, by their suffixes. -/
inductive Condition where
  | e | ne | l | g | le | ge | b | be | a | ae

/-- Whether a condition holds of the flags. -/
def Condition.holds : Condition → Flags → Bool
  | e, flags => flags.zero
  | ne, flags => !flags.zero
  | l, flags => flags.sign != flags.overflow
  | g, flags => !flags.zero && flags.sign == flags.overflow
  | le, flags => flags.zero || flags.sign != flags.overflow
  | ge, flags => flags.sign == flags.overflow
  | b, flags => flags.carry
  | be, flags => flags.carry || flags.zero
  | a, flags => !flags.carry && !flags.zero
  | ae, flags => !flags.carry

/-- A register operand, as a position among the destinations or the sources. -/
inductive Slot where
  | dst (index : Nat)
  | src (index : Nat)

/-- An operand that is read: a register or an immediate. -/
inductive Input where
  | reg (slot : Slot)
  | imm (index : Nat)

/-- A place in memory: a register and perhaps a displacement. -/
structure Place where
  base : Slot
  disp : Option Nat := none

/-- Two-operand arithmetic. -/
inductive Alu where
  | add | sub | imul | and | or | xor

/-- Shifts. -/
inductive Shift where
  | shl | shr | sar

/-- The operations, with their operands as positions. -/
inductive Operation where
  /-- Copy a register, or an immediate of 64 bits. -/
  | mov (dst : Slot) (src : Input)
  /-- The address of a label. -/
  | lea (dst : Slot) (label : Nat)
  | load (dst : Slot) (place : Place)
  | store (place : Place) (src : Input)
  | alu (op : Alu) (dst : Slot) (src : Input)
  /-- The three-operand product. -/
  | imul (dst src : Slot) (imm : Nat)
  | shift (op : Shift) (dst : Slot) (imm : Nat)
  /-- A shift whose distance is in `rcx`. -/
  | shiftCl (op : Shift) (dst : Slot)
  /-- Fill `rdx` with the sign of `rax`. -/
  | cqo
  /-- Divide `rdx` and `rax` together; the quotient goes to `rax`, the remainder to `rdx`. -/
  | idiv (src : Slot)
  | cmp (left : Slot) (right : Input)
  | jcc (condition : Condition) (label : Nat)
  | jmp (label : Nat)

/-- The operation that a text stands for. -/
def Operation.ofText? : String → Option Operation
  | "mov `d0, `s0" => some (.mov (.dst 0) (.reg (.src 0)))
  | "mov `d0, `i0" => some (.mov (.dst 0) (.imm 0))
  | "lea `d0, [rip + `j0]" => some (.lea (.dst 0) 0)
  | "mov `d0, qword ptr [`s0 + `i0]" => some (.load (.dst 0) { base := .src 0, disp := some 0 })
  | "mov `d0, qword ptr [`s0]" => some (.load (.dst 0) { base := .src 0 })
  | "mov qword ptr [`s0 + `i0], `s1" =>
    some (.store { base := .src 0, disp := some 0 } (.reg (.src 1)))
  | "mov qword ptr [`s0], `s1" => some (.store { base := .src 0 } (.reg (.src 1)))
  | "mov qword ptr [`s0 + `i0], `i1" => some (.store { base := .src 0, disp := some 0 } (.imm 1))
  | "add `d0, `s1" => some (.alu .add (.dst 0) (.reg (.src 1)))
  | "sub `d0, `s1" => some (.alu .sub (.dst 0) (.reg (.src 1)))
  | "imul `d0, `s1" => some (.alu .imul (.dst 0) (.reg (.src 1)))
  | "and `d0, `s1" => some (.alu .and (.dst 0) (.reg (.src 1)))
  | "or `d0, `s1" => some (.alu .or (.dst 0) (.reg (.src 1)))
  | "xor `d0, `s1" => some (.alu .xor (.dst 0) (.reg (.src 1)))
  | "add `d0, `i0" => some (.alu .add (.dst 0) (.imm 0))
  | "sub `d0, `i0" => some (.alu .sub (.dst 0) (.imm 0))
  | "and `d0, `i0" => some (.alu .and (.dst 0) (.imm 0))
  | "imul `d0, `s0, `i0" => some (.imul (.dst 0) (.src 0) 0)
  | "shl `d0, `i0" => some (.shift .shl (.dst 0) 0)
  | "shr `d0, `i0" => some (.shift .shr (.dst 0) 0)
  | "sar `d0, `i0" => some (.shift .sar (.dst 0) 0)
  | "shl `d0, cl" => some (.shiftCl .shl (.dst 0))
  | "shr `d0, cl" => some (.shiftCl .shr (.dst 0))
  | "sar `d0, cl" => some (.shiftCl .sar (.dst 0))
  | "cqo" => some .cqo
  | "idiv `s0" => some (.idiv (.src 0))
  | "cmp `s0, `s1" => some (.cmp (.src 0) (.reg (.src 1)))
  | "cmp `s0, `i0" => some (.cmp (.src 0) (.imm 0))
  | "je `j0" => some (.jcc .e 0)
  | "jne `j0" => some (.jcc .ne 0)
  | "jl `j0" => some (.jcc .l 0)
  | "jg `j0" => some (.jcc .g 0)
  | "jle `j0" => some (.jcc .le 0)
  | "jge `j0" => some (.jcc .ge 0)
  | "jb `j0" => some (.jcc .b 0)
  | "jbe `j0" => some (.jcc .be 0)
  | "ja `j0" => some (.jcc .a 0)
  | "jae `j0" => some (.jcc .ae 0)
  | "jmp `j0" => some (.jmp 0)
  | _ => none

/-- What two-operand arithmetic computes. -/
def Alu.apply : Alu → Word → Word → Word
  | add, a, b => a + b
  | sub, a, b => a - b
  | imul, a, b => a * b
  | and, a, b => a &&& b
  | or, a, b => a ||| b
  | xor, a, b => a ^^^ b

/-- What a shift computes. The lowest six bits of the count say how far. -/
def Shift.apply (shift : Shift) (a count : Word) : Word :=
  let distance := count.toNat % 64
  match shift with
  | shl => a <<< distance
  | shr => a >>> distance
  | sar => a.sshiftRight distance

/-- An immediate of 32 bits, extended by its sign. Other numbers cannot be encoded. -/
def imm32? (value : Int) : Option Word :=
  if -2 ^ 31 ≤ value ∧ value < 2 ^ 31 then some ((BitVec.ofInt 32 value).signExtend 64) else none

/-- A state of the machine: registers, memory, and the flags if they are known. -/
structure Processor extends State Word Memory where
  flags : Option Flags

namespace Processor

/-- Put a word into a register. -/
def put (σ : Processor) (t : Temp) (word : Word) : Processor :=
  { σ with toState := σ.toState.set t word }

/-- Forget the flags. -/
def forget (σ : Processor) : Processor := { σ with flags := none }

@[simp] theorem put_world (σ : Processor) (t : Temp) (word : Word) :
    (σ.put t word).world = σ.world := rfl

@[simp] theorem put_temps_same (σ : Processor) (t : Temp) (word : Word) :
    (σ.put t word).temps t = word :=
  σ.toState.set_temps_same t word

theorem put_temps_ne (σ : Processor) {t u : Temp} (word : Word) (different : u ≠ t) :
    (σ.put t word).temps u = σ.temps u :=
  σ.toState.set_temps_ne word different

@[simp] theorem forget_world (σ : Processor) : σ.forget.world = σ.world := rfl

@[simp] theorem forget_temps (σ : Processor) : σ.forget.temps = σ.temps := rfl

/-- The register at a position. -/
def register? (instr : Instr) : Slot → Option Temp
  | .dst index => instr.dst[index]?
  | .src index => instr.src[index]?

/-- The word in the register at a position. -/
def read? (σ : Processor) (instr : Instr) (slot : Slot) : Option Word :=
  (register? instr slot).map σ.temps

/-- The word that an arithmetic operand stands for. -/
def operand? (σ : Processor) (instr : Instr) : Input → Option Word
  | .reg slot => σ.read? instr slot
  | .imm index => instr.imms[index]?.bind imm32?

/-- The address of a place in memory. -/
def address? (σ : Processor) (instr : Instr) (place : Place) : Option Word := do
  let base ← σ.read? instr place.base
  match place.disp with
  | none => return base
  | some index => return base + (← instr.imms[index]?.bind imm32?)

/-- The quotient and the remainder of a dividend of 128 bits. There is none if no word can hold the
quotient. -/
def divide? (high low divisor : Word) : Option (Word × Word) :=
  let dividend := (high ++ low).toInt
  let quotient := dividend.tdiv divisor.toInt
  if divisor = 0 ∨ quotient < -2 ^ 63 ∨ 2 ^ 63 ≤ quotient then none
  else some (.ofInt 64 quotient, .ofInt 64 (dividend.tmod divisor.toInt))

section Execution

variable (conv : Convention) (address : Label → Word)

/-- What an operation does: the state after it, and the label that it jumps to if it does. -/
def perform (instr : Instr) (σ : Processor) : Operation → Option (Processor × Option Label)
  | .mov dst (.reg src) => do
    let t ← register? instr dst
    return (σ.put t (← σ.read? instr src), none)
  | .mov dst (.imm index) => do
    let t ← register? instr dst
    return (σ.put t (.ofInt 64 (← instr.imms[index]?)), none)
  | .lea dst index => do
    let t ← register? instr dst
    return (σ.put t (address (← instr.labels[index]?)), none)
  | .load dst place => do
    let t ← register? instr dst
    return (σ.put t (σ.world.load (← σ.address? instr place)), none)
  | .store place src => do
    let target ← σ.address? instr place
    let word ← σ.operand? instr src
    return ({ σ with world := σ.world.store target word }, none)
  | .alu op dst src => do
    let t ← register? instr dst
    let word ← σ.operand? instr src
    return ((σ.put t (op.apply (σ.temps t) word)).forget, none)
  | .imul dst src index => do
    let t ← register? instr dst
    let left ← σ.read? instr src
    let right ← σ.operand? instr (.imm index)
    return ((σ.put t (left * right)).forget, none)
  | .shift op dst index => do
    let t ← register? instr dst
    let count ← instr.imms[index]?
    return ((σ.put t (op.apply (σ.temps t) (.ofInt 64 count))).forget, none)
  | .shiftCl op dst => do
    let t ← register? instr dst
    let rcx ← conv.registers.find? "rcx"
    return ((σ.put t (op.apply (σ.temps t) (σ.temps rcx))).forget, none)
  | .cqo => do
    let rax ← conv.registers.find? "rax"
    let rdx ← conv.registers.find? "rdx"
    return (σ.put rdx ((σ.temps rax).sshiftRight 63), none)
  | .idiv src => do
    let rax ← conv.registers.find? "rax"
    let rdx ← conv.registers.find? "rdx"
    let (quotient, remainder) ← divide? (σ.temps rdx) (σ.temps rax) (← σ.read? instr src)
    return (((σ.put rax quotient).put rdx remainder).forget, none)
  | .cmp left right => do
    return ({ σ with flags := some (.compare (← σ.read? instr left) (← σ.operand? instr right)) },
      none)
  | .jcc condition index => do
    let label ← instr.labels[index]?
    return (σ, if condition.holds (← σ.flags) then some label else none)
  | .jmp index => do
    return (σ, some (← instr.labels[index]?))

/-- One instruction. -/
def step (instr : Instr) (σ : Processor) : Option (Processor × Option Label) :=
  (Operation.ofText? instr.asm).bind (perform conv address instr σ)

/-- Instructions in order, up to the first jump that is taken. -/
def run : List Instr → Processor → Option (Processor × Option Label)
  | [], σ => some (σ, none)
  | instr :: instrs, σ =>
    match step conv address instr σ with
    | some (σ, none) => run instrs σ
    | done => done

end Execution

end Processor

end TreeCode.X64
