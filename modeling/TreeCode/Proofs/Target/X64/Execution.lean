import TreeCode.Proofs.Code.Templates
import TreeCode.Proofs.Target.X64.Arithmetic
import TreeCode.Target.X64

/-!
What the templates of the 64-bit x86 table do when they are filled in and run. Each short list of
templates leaves one value in the result register and changes no other register, up to those that
shifts and divisions use without naming them.
-/

namespace TreeCode.X64

open Source (Word)
open Tree (BinOp Exp Model State Stm)
open Selector (instrOf_plain)
open X86 Processor

/-- The selector of the machine. -/
abbrev selector (conv : Convention) : Selector := { conv, isa }

/-- The registers that instructions use without naming them. -/
def scratch (conv : Convention) : List Temp :=
  ["rax", "rcx", "rdx"].filterMap conv.registers.find?

/-- A convention that has these registers. -/
structure Fixed (conv : Convention) where
  rax : Temp
  rcx : Temp
  rdx : Temp
  find_rax : conv.registers.find? "rax" = some rax
  find_rcx : conv.registers.find? "rcx" = some rcx
  find_rdx : conv.registers.find? "rdx" = some rdx
  distinct : rax ≠ rdx

variable {conv : Convention} {address : Label → Word}

theorem Fixed.mem_scratch (fixed : Fixed conv) {t : Temp} :
    t ∈ scratch conv ↔ t = fixed.rax ∨ t = fixed.rcx ∨ t = fixed.rdx := by
  simp [scratch, fixed.find_rax, fixed.find_rcx, fixed.find_rdx]

theorem Fixed.register_rax (fixed : Fixed conv) (operands : Operands) :
    (selector conv).register operands X64.rax = .ok fixed.rax := by
  simp only [X64.rax, Selector.register, fixed.find_rax]

theorem Fixed.register_rcx (fixed : Fixed conv) (operands : Operands) :
    (selector conv).register operands X64.rcx = .ok fixed.rcx := by
  simp only [X64.rcx, Selector.register, fixed.find_rcx]

theorem Fixed.register_rdx (fixed : Fixed conv) (operands : Operands) :
    (selector conv).register operands X64.rdx = .ok fixed.rdx := by
  simp only [X64.rdx, Selector.register, fixed.find_rdx]

section Execution

variable {instr : Instr} {code : List Instr} {σ σ' : Processor}

theorem run_cons {operation : Operation}
    (text : Operation.ofText? instr.asm = some operation)
    (done : perform conv address instr σ operation = some (σ', none)) :
    run conv address (instr :: code) σ = run conv address code σ' := by
  rw [run, step, text, Option.bind_some, done]

theorem run_jump {operation : Operation} {label : Label}
    (text : Operation.ofText? instr.asm = some operation)
    (done : perform conv address instr σ operation = some (σ', some label)) :
    run conv address (instr :: code) σ = some (σ', some label) := by
  rw [run, step, text, Option.bind_some, done]

theorem run_append {more : List Instr} (first : run conv address code σ = some (σ', none)) :
    run conv address (code ++ more) σ = run conv address more σ' := by
  induction code generalizing σ with
  | nil =>
    cases first
    rfl
  | cons instr code ih =>
    rw [run] at first
    rw [List.cons_append, run]
    split at first
    next τ stepped => exact ih first
    next other => simp_all

end Execution

/-- With these operands the templates become code that puts a word into the register for the result,
and changes no other register than that and those used without a name. -/
def Yields (conv : Convention) (address : Label → Word) (templates : List Template)
    (operands : Operands) (σ : Processor) (result : Temp) (word : Word) : Prop :=
  ∃ code σ', templates.mapM ((selector conv).instrOf operands) = .ok code ∧
    run conv address code σ = some (σ', none) ∧ σ'.world = σ.world ∧ σ'.temps result = word ∧
    ∀ u, u ∉ scratch conv → u ≠ result → σ'.temps u = σ.temps u

section Yields

/-- The instruction that copies `s` to `d`. -/
def copy (d s : Temp) : Instr :=
  { kind := .move, asm := "mov `d0, `s0", dst := [d], src := [s] }

variable {asm : String} {s t d : Temp} {i : Int} {σ : Processor}

theorem yields_alu {alu : Alu}
    (text : Operation.ofText? asm = some (.alu alu (.dst 0) (.reg (.src 1))))
    (plain : needsCondition asm.toList = false) (apart : t ≠ d) :
    Yields conv address [copyLeft, twoAddress asm] { regs := [s, t], result := some d } σ d
      (alu.apply (σ.temps s) (σ.temps t)) := by
  let τ := σ.put d (σ.temps s)
  refine ⟨[copy d s, { asm, dst := [d], src := [d, t] }],
    (τ.put d (alu.apply (τ.temps d) (τ.temps t))).forget,
    mapM_cons_of_ok (instrOf_plain rfl rfl rfl rfl rfl rfl)
      (mapM_cons_of_ok (instrOf_plain plain rfl rfl rfl rfl rfl) rfl),
    (run_cons rfl rfl).trans (run_cons text rfl), rfl, ?_, ?_⟩
  · simp [τ, put_temps_ne, apart]
  · intro u _ other
    simp [τ, put_temps_ne, other]

theorem yields_aluImm {alu : Alu}
    (text : Operation.ofText? asm = some (.alu alu (.dst 0) (.imm 0)))
    (plain : needsCondition asm.toList = false) (fits : -2 ^ 31 ≤ i ∧ i < 2 ^ 31) :
    Yields conv address [copyLeft, inPlace asm] { regs := [s], imms := [i], result := some d } σ d
      (alu.apply (σ.temps s) (.ofInt 64 i)) := by
  let τ := σ.put d (σ.temps s)
  refine ⟨[copy d s, { asm, dst := [d], src := [d], imms := [i] }],
    (τ.put d (alu.apply (τ.temps d) (.ofInt 64 i))).forget,
    mapM_cons_of_ok (instrOf_plain rfl rfl rfl rfl rfl rfl)
      (mapM_cons_of_ok (instrOf_plain plain rfl rfl rfl rfl rfl) rfl),
    (run_cons rfl rfl).trans (run_cons text ?_), rfl, ?_, ?_⟩
  · simp [perform, register?, operand?, imm32_of_mem fits, τ]
  · simp [τ]
  · intro u _ other
    simp [τ, put_temps_ne, other]

theorem yields_imulImm (fits : -2 ^ 31 ≤ i ∧ i < 2 ^ 31) :
    Yields conv address
      [{ asm := "imul `d0, `s0, `i0", dst := [.result], src := [.reg 0], imms := [0] }]
      { regs := [s], imms := [i], result := some d } σ d (σ.temps s * .ofInt 64 i) := by
  refine ⟨[{ asm := "imul `d0, `s0, `i0", dst := [d], src := [s], imms := [i] }],
    (σ.put d (σ.temps s * .ofInt 64 i)).forget,
    mapM_cons_of_ok (instrOf_plain rfl rfl rfl rfl rfl rfl) rfl, run_cons rfl ?_, rfl, ?_, ?_⟩
  · simp [perform, register?, read?, operand?, imm32_of_mem fits]
  · simp
  · intro u _ other
    simp [put_temps_ne, other]

theorem yields_shiftImm {shift : Shift}
    (text : Operation.ofText? asm = some (.shift shift (.dst 0) 0))
    (plain : needsCondition asm.toList = false) :
    Yields conv address [copyLeft, inPlace asm] { regs := [s], imms := [i], result := some d } σ d
      (shift.apply (σ.temps s) (.ofInt 64 i)) := by
  let τ := σ.put d (σ.temps s)
  refine ⟨[copy d s, { asm, dst := [d], src := [d], imms := [i] }],
    (τ.put d (shift.apply (τ.temps d) (.ofInt 64 i))).forget,
    mapM_cons_of_ok (instrOf_plain rfl rfl rfl rfl rfl rfl)
      (mapM_cons_of_ok (instrOf_plain plain rfl rfl rfl rfl rfl) rfl),
    (run_cons rfl rfl).trans (run_cons text rfl), rfl, ?_, ?_⟩
  · simp [τ]
  · intro u _ other
    simp [τ, put_temps_ne, other]

theorem yields_shift (fixed : Fixed conv) {shift : Shift}
    (text : Operation.ofText? asm = some (.shiftCl shift (.dst 0)))
    (plain : needsCondition asm.toList = false) (clean : s ∉ scratch conv)
    (fresh : d ∉ scratch conv) :
    Yields conv address
      [{ asm := "mov `d0, `s0", isMove := true, dst := [X64.rcx], src := [.reg 1] }, copyLeft,
        { asm, dst := [.result], src := [.result, X64.rcx] }]
      { regs := [s, t], result := some d } σ d (shift.apply (σ.temps s) (σ.temps t)) := by
  rw [fixed.mem_scratch] at clean fresh
  let τ := σ.put fixed.rcx (σ.temps t)
  let υ := τ.put d (τ.temps s)
  refine ⟨[copy fixed.rcx t, copy d s, { asm, dst := [d], src := [d, fixed.rcx] }],
    (υ.put d (shift.apply (υ.temps d) (υ.temps fixed.rcx))).forget,
    mapM_cons_of_ok
      (instrOf_plain rfl rfl (mapM_cons_of_ok (fixed.register_rcx _) rfl) rfl rfl rfl)
      (mapM_cons_of_ok (instrOf_plain rfl rfl rfl rfl rfl rfl)
        (mapM_cons_of_ok (instrOf_plain plain rfl rfl
          (mapM_cons_of_ok rfl (mapM_cons_of_ok (fixed.register_rcx _) rfl)) rfl rfl) rfl)),
    (run_cons rfl rfl).trans ((run_cons rfl rfl).trans (run_cons text ?_)), rfl, ?_, ?_⟩
  · simp [perform, register?, fixed.find_rcx, υ, τ]
  · have apart : fixed.rcx ≠ d := fun same => fresh (.inr (.inl same.symm))
    have kept : s ≠ fixed.rcx := fun same => clean (.inr (.inl same))
    simp [υ, τ, put_temps_ne, apart, kept]
  · intro u untouched other
    rw [fixed.mem_scratch] at untouched
    have apart : u ≠ fixed.rcx := fun same => untouched (.inr (.inl same))
    simp [υ, τ, put_temps_ne, other, apart]

theorem yields_idiv (fixed : Fixed conv) (clean : t ∉ scratch conv)
    (defined : BinOp.div.defined (σ.temps s) (σ.temps t) = true) :
    Yields conv address
      [{ asm := "mov `d0, `s0", isMove := true, dst := [X64.rax], src := [.reg 0] },
        { asm := "cqo", dst := [X64.rdx], src := [X64.rax] },
        { asm := "idiv `s0", dst := [X64.rax, X64.rdx], src := [.reg 1, X64.rax, X64.rdx] },
        { asm := "mov `d0, `s0", isMove := true, dst := [.result], src := [X64.rax] }]
      { regs := [s, t], result := some d } σ d
      (BinOp.div.apply (σ.temps s) (σ.temps t)) := by
  have distinct := fixed.distinct
  obtain ⟨rest, divided⟩ := divide_sign defined
  let cqo : Instr := { asm := "cqo", dst := [fixed.rdx], src := [fixed.rax] }
  let idiv : Instr :=
    { asm := "idiv `s0", dst := [fixed.rax, fixed.rdx], src := [t, fixed.rax, fixed.rdx] }
  let τ := σ.put fixed.rax (σ.temps s)
  let υ := τ.put fixed.rdx ((τ.temps fixed.rax).sshiftRight 63)
  let ω := ((υ.put fixed.rax (BinOp.div.apply (σ.temps s) (σ.temps t))).put fixed.rdx rest).forget
  have extended : perform conv address cqo τ .cqo = some (υ, none) := by
    simp [perform, fixed.find_rax, fixed.find_rdx, υ]
  have quotient : perform conv address idiv υ (.idiv (.src 0)) = some (ω, none) := by
    rw [fixed.mem_scratch, not_or, not_or] at clean
    simp [perform, fixed.find_rax, fixed.find_rdx, register?, read?, idiv, υ, τ, put_temps_ne,
      clean, distinct, divided, ω]
  refine ⟨[copy fixed.rax s, cqo, idiv, copy d fixed.rax], ω.put d (ω.temps fixed.rax), ?_,
    (run_cons rfl rfl).trans ((run_cons rfl extended).trans ((run_cons rfl quotient).trans
      (run_cons rfl rfl))), rfl, ?_, ?_⟩
  · have both : [X64.rax, X64.rdx].mapM
        ((selector conv).register { regs := [s, t], result := some d }) =
          .ok [fixed.rax, fixed.rdx] :=
      mapM_cons_of_ok (fixed.register_rax _) (mapM_cons_of_ok (fixed.register_rdx _) rfl)
    exact mapM_cons_of_ok
      (instrOf_plain rfl rfl (mapM_cons_of_ok (fixed.register_rax _) rfl) rfl rfl rfl)
      (mapM_cons_of_ok
        (instrOf_plain rfl rfl (mapM_cons_of_ok (fixed.register_rdx _) rfl)
          (mapM_cons_of_ok (fixed.register_rax _) rfl) rfl rfl)
        (mapM_cons_of_ok (instrOf_plain rfl rfl both (mapM_cons_of_ok rfl both) rfl rfl)
          (mapM_cons_of_ok
            (instrOf_plain rfl rfl rfl (mapM_cons_of_ok (fixed.register_rax _) rfl) rfl rfl)
            rfl)))
  · simp [ω, put_temps_ne, distinct]
  · intro u untouched other
    rw [fixed.mem_scratch, not_or, not_or] at untouched
    simp [ω, υ, τ, put_temps_ne, other, untouched]

/-- Load from a register and a displacement. -/
def loadDisp : Template :=
  { asm := "mov `d0, qword ptr [`s0 + `i0]", dst := [.result], src := [.reg 0], imms := [0] }

theorem yields_loadDisp (fits : -2 ^ 31 ≤ i ∧ i < 2 ^ 31) :
    Yields conv address [loadDisp]
      { regs := [s], imms := [i], result := some d } σ d
      (σ.world.load (σ.temps s + .ofInt 64 i)) := by
  refine ⟨[{ asm := "mov `d0, qword ptr [`s0 + `i0]", dst := [d], src := [s], imms := [i] }],
    σ.put d (σ.world.load (σ.temps s + .ofInt 64 i)),
    mapM_cons_of_ok (instrOf_plain rfl rfl rfl rfl rfl rfl) rfl, run_cons rfl ?_, rfl, ?_, ?_⟩
  · simp [perform, register?, address?, read?, imm32_of_mem fits]
  · simp
  · intro u _ other
    simp [put_temps_ne, other]

theorem yields_load :
    Yields conv address
      [{ asm := "mov `d0, qword ptr [`s0]", dst := [.result], src := [.reg 0] }]
      { regs := [s], result := some d } σ d (σ.world.load (σ.temps s)) := by
  refine ⟨[{ asm := "mov `d0, qword ptr [`s0]", dst := [d], src := [s] }],
    σ.put d (σ.world.load (σ.temps s)),
    mapM_cons_of_ok (instrOf_plain rfl rfl rfl rfl rfl rfl) rfl, run_cons rfl rfl, rfl, ?_, ?_⟩
  · simp
  · intro u _ other
    simp [put_temps_ne, other]

theorem yields_const :
    Yields conv address [{ asm := "mov `d0, `i0", dst := [.result], imms := [0] }]
      { imms := [i], result := some d } σ d (.ofInt 64 i) := by
  refine ⟨[{ asm := "mov `d0, `i0", dst := [d], imms := [i] }], σ.put d (.ofInt 64 i),
    mapM_cons_of_ok (instrOf_plain rfl rfl rfl rfl rfl rfl) rfl, run_cons rfl rfl, rfl, ?_, ?_⟩
  · simp
  · intro u _ other
    simp [put_temps_ne, other]

theorem yields_label {label : Label} :
    Yields conv address [{ asm := "lea `d0, [rip + `j0]", dst := [.result], labels := [0] }]
      { labels := [label], result := some d } σ d (address label) := by
  refine ⟨[{ asm := "lea `d0, [rip + `j0]", dst := [d], labels := [label] }],
    σ.put d (address label),
    mapM_cons_of_ok (instrOf_plain rfl rfl rfl rfl rfl rfl) rfl, run_cons rfl rfl, rfl, ?_, ?_⟩
  · simp
  · intro u _ other
    simp [put_temps_ne, other]

end Yields

end TreeCode.X64
