import Mathlib.Data.List.Forall2
import TreeCode.Proofs.Target.X64.Execution

/-!
Every pattern of the 64-bit x86 table does what trees of its shape say. The patterns fall into
families, whose members differ in the operator and the text of an instruction only.
-/

namespace TreeCode.X64

open Source (Word)
open Tree (BinOp Exp Model State Stm)
open Selector (instrOf_plain)
open X86 Processor

variable {conv : Convention} {address : Label → Word}

/-- The register `t` stands for the expression `e`, which is evaluated in the state `before`: for a
temporary it is that temporary, and it holds the value unless the expression reads a register that
instructions use without naming it. -/
structure Carries (conv : Convention) (address : Label → Word) (before : State Word Tree.Memory)
    (σ : Processor) (t : Temp) (e : Exp) : Prop where
  temp : ∀ u, e = .temp u → t = u
  clean : (∀ u ∈ e.temps, u ∉ scratch conv) → t ∉ scratch conv
  value : (∀ u ∈ e.temps, u ∉ scratch conv) → σ.temps t = (Model.bytes address).value before e

/-- The pattern computes the value of each expression that it matches. -/
def Computes (conv : Convention) (address : Label → Word) (pattern : Pattern) : Prop :=
  ∀ {e : Exp} {b : Bindings} {regs : List Temp} {result : Temp} {before : State Word Tree.Memory}
    {σ : Processor},
    pattern.shape.bindExp? e {} = some b → e.isFlat = true →
    e.defined (Model.bytes address) before = true → (∀ u ∈ e.temps, u ∉ scratch conv) →
    List.Forall₂ (Carries conv address before σ) regs b.regs →
    result ∉ scratch conv → result ∉ regs → σ.world = before.world →
    Yields conv address pattern.emit (b.operands regs (some result)) σ result
      ((Model.bytes address).value before e)

section Computes

variable {op : BinOp} {name : String} {emit : List Template} {range : ImmRange}

/-- What fits in 32 bits. -/
theorem fits_range32 {i : Int} (fits : range32.contains i = true) : -2 ^ 31 ≤ i ∧ i < 2 ^ 31 := by
  simp only [range32, ImmRange.contains, Bool.and_eq_true, decide_eq_true_eq] at fits
  omega

theorem carried_one {regs : List Temp} {e : Exp} {before : State Word Tree.Memory} {σ : Processor}
    (carried : List.Forall₂ (Carries conv address before σ) regs [e]) :
    ∃ t, regs = [t] ∧ Carries conv address before σ t e := by
  obtain ⟨t, rest, first, others, rfl⟩ := List.forall₂_cons_right_iff.mp carried
  cases others
  exact ⟨t, rfl, first⟩

theorem carried_two {regs : List Temp} {l r : Exp} {before : State Word Tree.Memory}
    {σ : Processor} (carried : List.Forall₂ (Carries conv address before σ) regs [l, r]) :
    ∃ s t, regs = [s, t] ∧ Carries conv address before σ s l ∧
      Carries conv address before σ t r := by
  obtain ⟨s, rest, first, others, rfl⟩ := List.forall₂_cons_right_iff.mp carried
  obtain ⟨t, rfl, second⟩ := carried_one others
  exact ⟨s, t, rfl, first, second⟩

/-- An operation of two registers computes the operation of the tree, if its instructions yield the
value. -/
theorem computes_binop
    (yields : ∀ {s t d : Temp} {σ : Processor}, s ∉ scratch conv → t ∉ scratch conv →
      d ∉ scratch conv → t ≠ d → op.defined (σ.temps s) (σ.temps t) = true →
      Yields conv address emit { regs := [s, t], result := some d } σ d
        (op.apply (σ.temps s) (σ.temps t))) :
    Computes conv address { name, shape := .binop op .reg .reg, emit } := by
  intro e b regs result before σ bound flat defined clean carried fresh apart world
  obtain ⟨l, r, _, rfl, first, second⟩ := Shape.bind_binop bound
  cases Shape.bind_reg first
  cases Shape.bind_reg second
  obtain ⟨s, t, rfl, left, right⟩ := carried_two carried
  simp only [Exp.isFlat, Bool.and_eq_true] at flat
  simp only [Exp.defined, Bool.and_eq_true] at defined
  have cleanLeft : ∀ u ∈ l.temps, u ∉ scratch conv := fun u member =>
    clean u (List.mem_append_left _ member)
  have cleanRight : ∀ u ∈ r.temps, u ∉ scratch conv := fun u member =>
    clean u (List.mem_append_right _ member)
  have apart : t ≠ result := by
    rintro rfl
    simp at apart
  rw [Model.value_binop _ _ flat.1, ← left.value cleanLeft, ← right.value cleanRight]
  refine yields (left.clean cleanLeft) (right.clean cleanRight) fresh apart ?_
  rw [left.value cleanLeft, right.value cleanRight]
  exact defined.2

theorem computes_binopImm
    (yields : ∀ {s d : Temp} {i : Int} {σ : Processor}, range.contains i = true →
      Yields conv address emit { regs := [s], imms := [i], result := some d } σ d
        (op.apply (σ.temps s) (.ofInt 64 i))) :
    Computes conv address { name, shape := .binop op .reg (.imm range), emit } := by
  intro e b regs result before σ bound flat _ clean carried _ _ _
  obtain ⟨l, r, _, rfl, first, second⟩ := Shape.bind_binop bound
  cases Shape.bind_reg first
  obtain ⟨i, rfl, fits, rfl⟩ := Shape.bind_imm second
  obtain ⟨s, rfl, left⟩ := carried_one carried
  simp only [Exp.isFlat, Bool.and_eq_true] at flat
  have cleanLeft : ∀ u ∈ l.temps, u ∉ scratch conv := fun u member =>
    clean u (List.mem_append_left _ member)
  rw [Model.value_binop _ _ flat.1, ← left.value cleanLeft, Model.value_const]
  exact yields fits

/-- The shape is that of an address which is the sum of a register and a displacement. -/
def Locates (conv : Convention) (address : Label → Word) (shape : Shape) : Prop :=
  ∀ {place : Exp} {b b' : Bindings}, shape.bindExp? place b = some b' → place.isFlat = true →
    (∀ u ∈ place.temps, u ∉ scratch conv) →
    ∃ e i, b' = { b with regs := b.regs ++ [e], imms := b.imms ++ [i] } ∧
      (-2 ^ 31 ≤ i ∧ i < 2 ^ 31) ∧
      ∀ {before : State Word Tree.Memory} {σ : Processor} {s : Temp},
        Carries conv address before σ s e →
        (Model.bytes address).value before place = σ.temps s + .ofInt 64 i

theorem locates_right : Locates conv address (.binop .plus .reg imm32) := by
  intro place b b' bound flat clean
  obtain ⟨l, r, _, rfl, first, second⟩ := Shape.bind_binop bound
  cases Shape.bind_reg first
  obtain ⟨i, rfl, fits, rfl⟩ := Shape.bind_imm second
  refine ⟨l, i, rfl, fits_range32 fits, fun carries => ?_⟩
  have flatLeft : l.isFlat = true := by simpa [Exp.isFlat] using flat
  rw [Model.value_binop _ _ flatLeft, Model.value_const,
    carries.value fun u member => clean u (List.mem_append_left _ member)]
  rfl

theorem locates_left : Locates conv address (.binop .plus imm32 .reg) := by
  intro place b b' bound flat clean
  obtain ⟨l, r, _, rfl, first, second⟩ := Shape.bind_binop bound
  obtain ⟨i, rfl, fits, rfl⟩ := Shape.bind_imm first
  cases Shape.bind_reg second
  refine ⟨r, i, rfl, fits_range32 fits, fun carries => ?_⟩
  rw [Model.value_binop _ _ rfl, Model.value_const, carries.value clean]
  exact BitVec.add_comm _ _

theorem computes_loadDisp {shape : Shape} (locates : Locates conv address shape) :
    Computes conv address { name, shape := .mem shape, emit := [loadDisp] } := by
  intro e b regs result before σ bound flat _ clean carried _ _ world
  obtain ⟨place, rfl, bound⟩ := Shape.bind_mem bound
  have flat : place.isFlat = true := flat
  obtain ⟨e, i, rfl, fits, located⟩ := locates bound flat clean
  obtain ⟨s, rfl, base⟩ := carried_one carried
  rw [Model.value_mem _ _ flat, located base, ← world]
  exact yields_loadDisp fits

theorem computes_load :
    Computes conv address
      { name
        shape := .mem .reg
        emit := [{ asm := "mov `d0, qword ptr [`s0]", dst := [.result], src := [.reg 0] }] } := by
  intro e b regs result before σ bound flat _ clean carried _ _ world
  obtain ⟨place, rfl, bound⟩ := Shape.bind_mem bound
  have flat : place.isFlat = true := flat
  cases Shape.bind_reg bound
  obtain ⟨s, rfl, inner⟩ := carried_one carried
  rw [Model.value_mem _ _ flat, ← inner.value clean, ← world]
  exact yields_load

theorem computes_const :
    Computes conv address
      { name
        shape := anyImm
        emit := [{ asm := "mov `d0, `i0", dst := [.result], imms := [0] }] } := by
  intro e b regs result before σ bound flat _ _ carried _ _ _
  obtain ⟨i, rfl, _, rfl⟩ := Shape.bind_imm bound
  cases List.forall₂_nil_right_iff.mp carried
  rw [Model.value_const]
  exact yields_const

theorem computes_label :
    Computes conv address
      { name
        shape := .name
        emit := [{ asm := "lea `d0, [rip + `j0]", dst := [.result], labels := [0] }] } := by
  intro e b regs result before σ bound flat _ _ carried _ _ _
  obtain ⟨label, rfl, rfl⟩ := Shape.bind_name bound
  cases List.forall₂_nil_right_iff.mp carried
  rw [Model.value_name]
  exact yields_label

/-- Addition, subtraction and the bitwise operations are one instruction after a move. -/
theorem computes_alu {alu : Alu} {asm : String}
    (text : Operation.ofText? asm = some (.alu alu (.dst 0) (.reg (.src 1))))
    (plain : needsCondition asm.toList = false)
    (same : ∀ a b, op.apply a b = alu.apply a b) :
    Computes conv address
      { name, shape := .binop op .reg .reg, emit := [copyLeft, twoAddress asm] } :=
  computes_binop fun _ _ _ apart _ => same _ _ ▸ yields_alu text plain apart

theorem computes_aluImm {alu : Alu} {asm : String}
    (text : Operation.ofText? asm = some (.alu alu (.dst 0) (.imm 0)))
    (plain : needsCondition asm.toList = false)
    (same : ∀ a b, op.apply a b = alu.apply a b) :
    Computes conv address
      { name, shape := .binop op .reg imm32, emit := [copyLeft, inPlace asm] } :=
  computes_binopImm fun fits => same _ _ ▸ yields_aluImm text plain (fits_range32 fits)

theorem computes_shiftImm {shift : Shift} {asm : String}
    (text : Operation.ofText? asm = some (.shift shift (.dst 0) 0))
    (plain : needsCondition asm.toList = false)
    (same : ∀ a b, op.apply a b = shift.apply a b) :
    Computes conv address
      { name, shape := .binop op .reg shiftCount, emit := [copyLeft, inPlace asm] } :=
  computes_binopImm fun _ => same _ _ ▸ yields_shiftImm text plain

/-- A shift by a register takes its count from the register for it. -/
theorem computes_shift (fixed : Fixed conv) {shift : Shift} {asm : String}
    (text : Operation.ofText? asm = some (.shiftCl shift (.dst 0)))
    (plain : needsCondition asm.toList = false)
    (same : ∀ a b, op.apply a b = shift.apply a b) :
    Computes conv address
      { name
        shape := .binop op .reg .reg
        emit := [
          { asm := "mov `d0, `s0", isMove := true, dst := [X64.rcx], src := [.reg 1] },
          copyLeft,
          { asm, dst := [.result], src := [.result, X64.rcx] }] } :=
  computes_binop fun clean _ fresh _ _ => same _ _ ▸ yields_shift fixed text plain clean fresh

/-- Whether a shape is one of calls. -/
def calls : Shape → Bool
  | .call _ => true
  | .move _ (.call _) => true
  | .exp (.call _) => true
  | _ => false

/-- Every pattern of expressions but those of calls computes what it matches. -/
theorem expPatterns_compute (fixed : Fixed conv) :
    ∀ pattern ∈ expPatterns, calls pattern.shape = true ∨ Computes conv address pattern := by
  simp only [expPatterns, List.forall_mem_cons]
  refine ⟨.inr (computes_loadDisp locates_right), .inr (computes_loadDisp locates_left),
    .inr computes_load,
    .inr (computes_aluImm rfl rfl fun _ _ => rfl), .inr (computes_alu rfl rfl fun _ _ => rfl),
    .inr (computes_aluImm rfl rfl fun _ _ => rfl), .inr (computes_alu rfl rfl fun _ _ => rfl),
    .inr (computes_binopImm fun fits => yields_imulImm (fits_range32 fits)),
    .inr (computes_alu rfl rfl fun _ _ => rfl),
    .inr (computes_binop fun _ clean _ _ defined => yields_idiv fixed clean defined),
    .inr (computes_aluImm rfl rfl fun _ _ => rfl), .inr (computes_alu rfl rfl fun _ _ => rfl),
    .inr (computes_alu rfl rfl fun _ _ => rfl), .inr (computes_alu rfl rfl fun _ _ => rfl),
    .inr (computes_shiftImm rfl rfl Shift.apply_shl),
    .inr (computes_shiftImm rfl rfl Shift.apply_shr),
    .inr (computes_shiftImm rfl rfl Shift.apply_sar),
    .inr (computes_shift fixed rfl rfl Shift.apply_shl),
    .inr (computes_shift fixed rfl rfl Shift.apply_shr),
    .inr (computes_shift fixed rfl rfl Shift.apply_sar),
    .inl rfl, .inl rfl, .inr computes_const, .inr computes_label, ?_⟩
  exact List.forall_mem_nil _

end Computes

/-- With these operands the templates become code that does what the statement says: it changes
memory in the same way, goes to the same label, gives the temporary that is assigned the same value
and changes no other register. -/
def Does (conv : Convention) (address : Label → Word) (templates : List Template)
    (operands : Operands) (before : State Word Tree.Memory) (σ : Processor) (stm : Stm) : Prop :=
  ∃ code σ', templates.mapM ((selector conv).instrOf operands) = .ok code ∧
    run conv address code σ = some (σ', stm.branch? (Model.bytes address) before) ∧
    σ'.world = ((Model.bytes address).exec stm before).world ∧
    (∀ t, stm.target? = some t →
      σ'.temps t = ((Model.bytes address).exec stm before).temps t) ∧
    ∀ u, stm.target? ≠ some u → σ'.temps u = σ.temps u

/-- The pattern does what each statement that it matches says. -/
def Performs (conv : Convention) (address : Label → Word) (pattern : Pattern) : Prop :=
  ∀ {stm : Stm} {b : Bindings} {regs : List Temp} {before : State Word Tree.Memory}
    {σ : Processor},
    pattern.shape.bindStm? stm {} = some b → stm.isFlat = true →
    (∀ u ∈ stm.reads, u ∉ scratch conv) →
    List.Forall₂ (Carries conv address before σ) regs b.regs → σ.world = before.world →
    Does conv address pattern.emit (b.operands regs none) before σ stm

section Performs

variable {name : String} {templates : List Template} {operands : Operands}
  {before : State Word Tree.Memory} {σ : Processor} {code : List Instr}

/-- Code that puts the value of the source into a temporary does what the move says. -/
theorem does_assign {t : Temp} {src : Exp} (flat : src.isFlat = true)
    (world : σ.world = before.world)
    (made : templates.mapM ((selector conv).instrOf operands) = .ok code)
    (ran : run conv address code σ =
      some (σ.put t ((Model.bytes address).value before src), none)) :
    Does conv address templates operands before σ (.move (.temp t) src) := by
  refine ⟨code, _, made, ran, ?_, ?_, ?_⟩
  · rw [Model.exec_move_temp _ _ flat]
    exact world
  · intro u target
    cases target
    rw [Model.exec_move_temp _ _ flat, put_temps_same, State.set_temps_same]
  · intro u other
    exact put_temps_ne σ _ fun same => other (same ▸ rfl)

/-- Code that stores the value of the source does what the move says. -/
theorem does_store {place src : Exp} (flatPlace : place.isFlat = true) (flat : src.isFlat = true)
    (made : templates.mapM ((selector conv).instrOf operands) = .ok code)
    (ran : run conv address code σ = some ({ σ with
      world := before.world.store ((Model.bytes address).value before place)
        ((Model.bytes address).value before src) }, none)) :
    Does conv address templates operands before σ (.move (.mem place) src) := by
  refine ⟨code, _, made, ran, ?_, ?_, fun _ _ => rfl⟩
  · rw [Model.exec_move_mem _ _ flatPlace flat]
    rfl
  · intro u target
    cases target

theorem performs_moveReg :
    Performs conv address
      { name
        shape := .move .temp .reg
        emit := [{ asm := "mov `d0, `s0", isMove := true, dst := [.reg 0], src := [.reg 1] }] } := by
  intro stm b regs before σ bound flat clean carried world
  obtain ⟨dst, src, _, rfl, first, second⟩ := Shape.bind_move bound
  obtain ⟨t, rfl, rfl⟩ := Shape.bind_temp first
  cases Shape.bind_reg second
  obtain ⟨u, s, rfl, target, source⟩ := carried_two carried
  cases target.temp t rfl
  refine does_assign flat world
    (mapM_cons_of_ok (instrOf_plain rfl rfl rfl rfl rfl rfl) rfl) ?_
  rw [← source.value clean]
  exact run_cons rfl rfl

theorem performs_moveImm :
    Performs conv address
      { name
        shape := .move .temp anyImm
        emit := [{ asm := "mov `d0, `i0", dst := [.reg 0], imms := [0] }] } := by
  intro stm b regs before σ bound flat _ carried world
  obtain ⟨dst, src, _, rfl, first, second⟩ := Shape.bind_move bound
  obtain ⟨t, rfl, rfl⟩ := Shape.bind_temp first
  obtain ⟨i, rfl, _, rfl⟩ := Shape.bind_imm second
  obtain ⟨u, rfl, target⟩ := carried_one carried
  cases target.temp t rfl
  refine does_assign flat world
    (mapM_cons_of_ok (instrOf_plain rfl rfl rfl rfl rfl rfl) rfl) ?_
  rw [Model.value_const]
  exact run_cons rfl rfl

theorem performs_moveLabel :
    Performs conv address
      { name
        shape := .move .temp .name
        emit := [{ asm := "lea `d0, [rip + `j0]", dst := [.reg 0], labels := [0] }] } := by
  intro stm b regs before σ bound flat _ carried world
  obtain ⟨dst, src, _, rfl, first, second⟩ := Shape.bind_move bound
  obtain ⟨t, rfl, rfl⟩ := Shape.bind_temp first
  obtain ⟨label, rfl, rfl⟩ := Shape.bind_name second
  obtain ⟨u, rfl, target⟩ := carried_one carried
  cases target.temp t rfl
  refine does_assign flat world
    (mapM_cons_of_ok (instrOf_plain rfl rfl rfl rfl rfl rfl) rfl) ?_
  rw [Model.value_name]
  exact run_cons rfl rfl

theorem performs_loadDisp :
    Performs conv address
      { name
        shape := .move .temp (.mem (.binop .plus .reg imm32))
        emit := [{ asm := "mov `d0, qword ptr [`s0 + `i0]", dst := [.reg 0], src := [.reg 1],
                   imms := [0] }] } := by
  intro stm b regs before σ bound flat clean carried world
  obtain ⟨dst, src, _, rfl, first, second⟩ := Shape.bind_move bound
  obtain ⟨t, rfl, rfl⟩ := Shape.bind_temp first
  obtain ⟨place, rfl, bound⟩ := Shape.bind_mem second
  have flat : place.isFlat = true := flat
  obtain ⟨e, i, rfl, fits, located⟩ := locates_right bound flat clean
  obtain ⟨u, s, rfl, target, base⟩ := carried_two carried
  cases target.temp t rfl
  refine does_assign flat world
    (mapM_cons_of_ok (instrOf_plain rfl rfl rfl rfl rfl rfl) rfl) (run_cons rfl ?_)
  rw [Model.value_mem _ _ flat, located base, ← world]
  simp [perform, register?, address?, read?, imm32_of_mem fits, Model.bytes]

theorem performs_load :
    Performs conv address
      { name
        shape := .move .temp (.mem .reg)
        emit := [{ asm := "mov `d0, qword ptr [`s0]", dst := [.reg 0], src := [.reg 1] }] } := by
  intro stm b regs before σ bound flat clean carried world
  obtain ⟨dst, src, _, rfl, first, second⟩ := Shape.bind_move bound
  obtain ⟨t, rfl, rfl⟩ := Shape.bind_temp first
  obtain ⟨place, rfl, bound⟩ := Shape.bind_mem second
  cases Shape.bind_reg bound
  obtain ⟨u, s, rfl, target, source⟩ := carried_two carried
  cases target.temp t rfl
  have flat : place.isFlat = true := flat
  refine does_assign flat world
    (mapM_cons_of_ok (instrOf_plain rfl rfl rfl rfl rfl rfl) rfl) ?_
  rw [Model.value_mem _ _ flat, ← source.value clean, ← world]
  exact run_cons rfl rfl

/-- Store at a register and a displacement. -/
def storeDisp : Template :=
  { asm := "mov qword ptr [`s0 + `i0], `s1", src := [.reg 0, .reg 1], imms := [0] }

theorem performs_storeDisp {shape : Shape} (locates : Locates conv address shape) :
    Performs conv address { name, shape := .move (.mem shape) .reg, emit := [storeDisp] } := by
  intro stm b regs before σ bound flat clean carried world
  obtain ⟨dst, src, _, rfl, first, second⟩ := Shape.bind_move bound
  obtain ⟨place, rfl, first⟩ := Shape.bind_mem first
  have flats : place.isFlat = true ∧ src.isFlat = true := by simpa [Stm.isFlat] using flat
  obtain ⟨e, i, rfl, fits, located⟩ := locates first flats.1 fun u member =>
    clean u (List.mem_append_left _ member)
  cases Shape.bind_reg second
  obtain ⟨s, t, rfl, base, source⟩ := carried_two carried
  refine does_store flats.1 flats.2
    (mapM_cons_of_ok (instrOf_plain rfl rfl rfl rfl rfl rfl) rfl) (run_cons rfl ?_)
  rw [located base, ← source.value fun u member => clean u (List.mem_append_right _ member),
    ← world]
  simp [perform, register?, address?, operand?, read?, imm32_of_mem fits]

theorem performs_storeImm :
    Performs conv address
      { name
        shape := .move (.mem (.binop .plus .reg imm32)) imm32
        emit := [
          { asm := "mov qword ptr [`s0 + `i0], `i1", src := [.reg 0], imms := [0, 1] }] } := by
  intro stm b regs before σ bound flat clean carried world
  obtain ⟨dst, src, _, rfl, first, second⟩ := Shape.bind_move bound
  obtain ⟨place, rfl, first⟩ := Shape.bind_mem first
  have flats : place.isFlat = true ∧ src.isFlat = true := by simpa [Stm.isFlat] using flat
  obtain ⟨e, i, rfl, fits, located⟩ := locates_right first flats.1 fun u member =>
    clean u (List.mem_append_left _ member)
  obtain ⟨j, rfl, fitsSource, rfl⟩ := Shape.bind_imm second
  obtain ⟨s, rfl, base⟩ := carried_one carried
  refine does_store flats.1 flats.2
    (mapM_cons_of_ok (instrOf_plain rfl rfl rfl rfl rfl rfl) rfl) (run_cons rfl ?_)
  rw [located base, Model.value_const, ← world]
  simp [perform, register?, address?, operand?, read?, imm32_of_mem fits,
    imm32_of_mem (fits_range32 fitsSource), Model.bytes]

theorem performs_store :
    Performs conv address
      { name
        shape := .move (.mem .reg) .reg
        emit := [{ asm := "mov qword ptr [`s0], `s1", src := [.reg 0, .reg 1] }] } := by
  intro stm b regs before σ bound flat clean carried world
  obtain ⟨dst, src, _, rfl, first, second⟩ := Shape.bind_move bound
  obtain ⟨place, rfl, first⟩ := Shape.bind_mem first
  have flats : place.isFlat = true ∧ src.isFlat = true := by simpa [Stm.isFlat] using flat
  cases Shape.bind_reg first
  cases Shape.bind_reg second
  obtain ⟨s, t, rfl, base, source⟩ := carried_two carried
  refine does_store flats.1 flats.2
    (mapM_cons_of_ok (instrOf_plain rfl rfl rfl rfl rfl rfl) rfl) (run_cons rfl ?_)
  rw [← base.value fun u member => clean u (List.mem_append_left _ member),
    ← source.value fun u member => clean u (List.mem_append_right _ member), ← world]
  rfl

theorem performs_discard :
    Performs conv address { name, shape := .exp .reg, emit := [] } := by
  intro stm b regs before σ bound flat _ _ world
  obtain ⟨e, rfl, first⟩ := Shape.bind_exp bound
  have flat : e.isFlat = true := flat
  refine ⟨[], σ, rfl, rfl, ?_, ?_, fun _ _ => rfl⟩
  · rw [Model.exec, Model.eval_flat _ _ flat]
    exact world
  · intro t target
    cases target

theorem performs_jump :
    Performs conv address
      { name, shape := .jump .name, emit := [{ asm := "jmp `j0", labels := [0] }] } := by
  intro stm b regs before σ bound _ _ _ world
  obtain ⟨e, labels, _, rfl, first, rfl⟩ := Shape.bind_jump bound
  obtain ⟨label, rfl, rfl⟩ := Shape.bind_name first
  refine ⟨[{ asm := "jmp `j0", labels := [label] }], σ,
    mapM_cons_of_ok (instrOf_plain rfl rfl rfl rfl rfl rfl) rfl, run_jump rfl rfl, ?_, ?_,
    fun _ _ => rfl⟩
  · rw [Model.exec]
    exact world
  · intro t target
    cases target

/-- The text of a conditional jump. -/
def jumpText (op : Tree.RelOp) : String :=
  String.ofList (fillCondition (conditionSuffix op).toList "j`c `j0".toList)

theorem ofText_jumpText (op : Tree.RelOp) :
    Operation.ofText? (jumpText op) = some (.jcc (.ofRelOp op) 0) := by
  cases op <;> rfl

/-- A comparison and the two jumps after it do what a conditional jump says. -/
theorem does_branch {op : Tree.RelOp} {l r : Exp} {yes no : Label} {regs : List Temp}
    {imms : List Int} {compare : Template} {instr : Instr} {right : Input}
    (world : σ.world = before.world)
    (made : (selector conv).instrOf
      { regs, imms, labels := [yes, no], relop := some op } compare = .ok instr)
    (text : Operation.ofText? instr.asm = some (.cmp (.src 0) right))
    (read : σ.read? instr (.src 0) = some ((Model.bytes address).value before l))
    (operand : σ.operand? instr right = some ((Model.bytes address).value before r)) :
    Does conv address
      [compare, { asm := "j`c `j0", labels := [0] }, { asm := "jmp `j0", labels := [1] }]
      { regs, imms, labels := [yes, no], relop := some op } before σ (.cjump op l r yes no) := by
  let flags := Flags.compare ((Model.bytes address).value before l)
    ((Model.bytes address).value before r)
  let τ : Processor := { σ with flags := some flags }
  have compared : perform conv address instr σ (.cmp (.src 0) right) = some (τ, none) := by
    simp [perform, read, operand, τ, flags]
  have holds : (Condition.ofRelOp op).holds flags =
      (Model.bytes address).holds op ((Model.bytes address).value before l)
        ((Model.bytes address).value before r) := holds_compare op _ _
  refine ⟨[instr, { asm := jumpText op, labels := [yes] }, { asm := "jmp `j0", labels := [no] }],
    τ, ?_, (run_cons text compared).trans ?_, ?_, ?_, fun _ _ => rfl⟩
  · exact mapM_cons_of_ok made (mapM_cons_of_ok rfl
      (mapM_cons_of_ok (instrOf_plain rfl rfl rfl rfl rfl rfl) rfl))
  · rw [Stm.branch?, ← holds]
    cases taken : (Condition.ofRelOp op).holds flags with
    | true =>
      refine run_jump (ofText_jumpText op) ?_
      simp [perform, τ, taken]
    | false =>
      have passed : perform conv address { asm := jumpText op, labels := [yes] } τ
          (.jcc (.ofRelOp op) 0) = some (τ, none) := by
        simp [perform, τ, taken]
      exact (run_cons (ofText_jumpText op) passed).trans (run_jump rfl rfl)
  · rw [Model.exec]
    exact world
  · intro t target
    cases target

theorem performs_branchImm :
    Performs conv address
      { name
        shape := .cjump none .reg imm32
        emit := [
          { asm := "cmp `s0, `i0", src := [.reg 0], imms := [0] },
          { asm := "j`c `j0", labels := [0] },
          { asm := "jmp `j0", labels := [1] }] } := by
  intro stm b regs before σ bound flat clean carried world
  obtain ⟨op, l, r, yes, no, _, _, rfl, first, second, rfl⟩ := Shape.bind_cjump bound
  cases Shape.bind_reg first
  obtain ⟨i, rfl, fits, rfl⟩ := Shape.bind_imm second
  obtain ⟨s, rfl, left⟩ := carried_one carried
  refine does_branch world (instrOf_plain rfl rfl rfl rfl rfl rfl) rfl ?_ ?_
  · rw [← left.value fun u member => clean u (List.mem_append_left _ member)]
    rfl
  · rw [Model.value_const]
    exact imm32_of_mem (fits_range32 fits)

theorem performs_branch :
    Performs conv address
      { name
        shape := .cjump none .reg .reg
        emit := [
          { asm := "cmp `s0, `s1", src := [.reg 0, .reg 1] },
          { asm := "j`c `j0", labels := [0] },
          { asm := "jmp `j0", labels := [1] }] } := by
  intro stm b regs before σ bound flat clean carried world
  obtain ⟨op, l, r, yes, no, _, _, rfl, first, second, rfl⟩ := Shape.bind_cjump bound
  cases Shape.bind_reg first
  cases Shape.bind_reg second
  obtain ⟨s, t, rfl, left, right⟩ := carried_two carried
  refine does_branch world (instrOf_plain rfl rfl rfl rfl rfl rfl) rfl ?_ ?_
  · rw [← left.value fun u member => clean u (List.mem_append_left _ member)]
    rfl
  · rw [← right.value fun u member => clean u (List.mem_append_right _ member)]
    rfl

/-- Every pattern of statements but those of calls does what it matches says. -/
theorem stmPatterns_perform :
    ∀ pattern ∈ stmPatterns, calls pattern.shape = true ∨ Performs conv address pattern := by
  simp only [stmPatterns, List.forall_mem_cons]
  refine ⟨.inr (performs_storeDisp locates_right), .inr (performs_storeDisp locates_left),
    .inr performs_storeImm, .inr performs_store, .inr performs_loadDisp, .inr performs_load,
    .inr performs_moveImm, .inr performs_moveLabel, .inl rfl, .inr performs_moveReg, .inl rfl,
    .inl rfl, .inr performs_discard, .inr performs_jump, .inr performs_branchImm,
    .inr performs_branch, ?_⟩
  exact List.forall_mem_nil _

end Performs

end TreeCode.X64
