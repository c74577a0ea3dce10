import TreeCode.Code.Emission
import TreeCode.Proofs.Code.Bindings
import TreeCode.Proofs.Machine.Roles

/-!
When templates become instructions. A template fits the operands that a shape binds if none of its
positions is beyond them. This can be read off a table, and then no template of the table fails.
-/

namespace TreeCode

open Tree

section Run

variable {α : Type} {s s' : Selection}

theorem run_emit (instr : Instr) (s : Selection) :
    Selection.emit instr s = .ok () { s with emitted := s.emitted.push instr } := rfl

theorem select_fresh_ok {act : Fresh α} {a : α} :
    (liftM act : Select α) s = .ok a s' ↔
      (act s.supply).1 = a ∧ { s with supply := (act s.supply).2 } = s' := by
  change EStateM.Result.ok _ _ = EStateM.Result.ok a s' ↔ _
  rw [EStateM.Result.ok.injEq]

theorem select_except_ok {made : Except Error α} {a : α} :
    (liftM made : Select α) s = .ok a s' ↔ made = .ok a ∧ s = s' := by
  cases made with
  | ok b =>
    change EStateM.Result.ok b s = _ ↔ _
    simp
  | error error =>
    change EStateM.Result.error error s = _ ↔ _
    simp

end Run

/-- The state of selection after a temporary is drawn. -/
def Selection.drawn (s : Selection) : Selection := { s with supply := (freshTemp s.supply).2 }

/-- The state with more instructions emitted. -/
def Selection.adding (s : Selection) (instrs : List Instr) : Selection :=
  { s with emitted := s.emitted ++ instrs.toArray }

@[simp] theorem Selection.adding_supply (s : Selection) (instrs : List Instr) :
    (s.adding instrs).supply = s.supply := rfl

@[simp] theorem Selection.adding_emitted (s : Selection) (instrs : List Instr) :
    (s.adding instrs).emitted.toList = s.emitted.toList ++ instrs := by
  simp [adding]

@[simp] theorem Selection.adding_nil (s : Selection) : s.adding [] = s := by
  simp [adding]

theorem Selection.adding_adding (s : Selection) (first second : List Instr) :
    (s.adding first).adding second = s.adding (first ++ second) := by
  simp [adding]

/-- How many operands of each kind there are, and whether there are a comparison and a result. -/
structure Capacity where
  regs : Nat := 0
  imms : Nat := 0
  labels : Nat := 0
  relop : Bool := false
  result : Bool := false

namespace Shape

/-- How many operands of each kind a shape binds. The labels of a jump come in addition. -/
def capacity : Shape → Capacity
  | reg => { regs := 1 }
  | temp => { regs := 1 }
  | imm _ => { imms := 1 }
  | const _ => {}
  | name => { labels := 1 }
  | binop _ left right | move left right =>
    { regs := left.capacity.regs + right.capacity.regs
      imms := left.capacity.imms + right.capacity.imms
      labels := left.capacity.labels + right.capacity.labels }
  | mem inner | call inner | exp inner | jump inner => inner.capacity
  | cjump _ left right =>
    { regs := left.capacity.regs + right.capacity.regs
      imms := left.capacity.imms + right.capacity.imms
      labels := left.capacity.labels + right.capacity.labels + 2 }

/-- Whether a shape binds a comparison. -/
def compares : Shape → Bool
  | cjump _ _ _ => true
  | _ => false

end Shape

/-- What the templates of a pattern can draw on. -/
def Pattern.capacity (pattern : Pattern) : Capacity :=
  { pattern.shape.capacity with
    relop := pattern.shape.compares
    result := !pattern.shape.isStatement }

/-- There are at least as many operands as the capacity says. -/
structure Operands.Has (operands : Operands) (capacity : Capacity) : Prop where
  regs : capacity.regs ≤ operands.regs.length
  imms : capacity.imms ≤ operands.imms.length
  labels : capacity.labels ≤ operands.labels.length
  relop : capacity.relop = true → operands.relop.isSome = true
  result : capacity.result = true → operands.result.isSome = true

/-- Whether an operand of a template is there; `names` are the registers of the machine. -/
def Operand.fits (capacity : Capacity) (names : List String) : Operand → Bool
  | .result => capacity.result
  | .reg index => index < capacity.regs
  | .machine name => names.contains name

/-- Whether all that a template refers to is there. -/
def Template.fits (capacity : Capacity) (names : List String) (template : Template) : Bool :=
  template.dst.all (Operand.fits capacity names) && template.src.all (Operand.fits capacity names) &&
    template.labels.all (· < capacity.labels) && template.imms.all (· < capacity.imms) &&
    (capacity.relop || !needsCondition template.asm.toList)

/-- Whether all that the templates of a pattern refer to is there, and the pattern says something
of the tree. -/
def Pattern.fits (names : List String) (pattern : Pattern) : Bool :=
  pattern.shape.inspects && pattern.emit.all (Template.fits pattern.capacity names)

/-- Whether all that placing arguments refers to is there. -/
def ArgTemplates.fits (names : List String) (args : ArgTemplates) : Bool :=
  args.immToReg.fits { imms := 1, result := true } names &&
    args.labelToReg.fits { labels := 1, result := true } names &&
    args.regToReg.fits { regs := 1, result := true } names &&
    args.regToStack.fits { regs := 2, imms := 1 } names

section Bound

/-- A shape binds as many operands as its capacity says. -/
theorem Shape.bindExp_capacity (shape : Shape) (e : Exp) (b : Bindings) {b' : Bindings}
    (bound : shape.bindExp? e b = some b') :
    b'.regs.length = b.regs.length + shape.capacity.regs ∧
      b'.imms.length = b.imms.length + shape.capacity.imms ∧
      b'.labels.length = b.labels.length + shape.capacity.labels ∧ b'.relop = b.relop := by
  fun_induction Shape.bindExp? shape e b generalizing b' with
  | case1 | case2 | case3 | case5 | case7 =>
    cases bound
    simp [capacity]
  | case8 left right op l r b middle first carriedLeft carriedRight =>
    obtain ⟨regs, imms, labels, relop⟩ := carriedLeft first
    obtain ⟨regs', imms', labels', relop'⟩ := carriedRight bound
    simp only [capacity]
    exact ⟨by omega, by omega, by omega, relop'.trans relop⟩
  | case11 address e b carried => exact carried bound
  | case12 func f link args b middle first carried =>
    cases bound
    have inner := carried first
    exact inner
  | case4 | case6 | case9 | case10 | case13 | case14 => cases bound

theorem Shape.bindStm_capacity {shape : Shape} {s : Stm} {b : Bindings}
    (bound : shape.bindStm? s {} = some b) :
    shape.capacity.regs ≤ b.regs.length ∧ shape.capacity.imms ≤ b.imms.length ∧
      shape.capacity.labels ≤ b.labels.length ∧ (shape.compares = true → b.relop.isSome = true) := by
  rcases bindStm_some bound with
    ⟨dst, src, d, e, middle, rfl, rfl, first, second⟩ | ⟨inner, e, rfl, rfl, first⟩ |
    ⟨target, e, labels, middle, rfl, rfl, first, rfl⟩ |
    ⟨op, left, right, actual, l, r, yes, no, middle, last, rfl, rfl, first, second, rfl⟩
  · have early := dst.bindExp_capacity d {} first
    have late := src.bindExp_capacity e middle second
    simp only [capacity, compares]
    grind
  · have inner := inner.bindExp_capacity e {} first
    simp only [capacity, compares]
    grind
  · have inner := target.bindExp_capacity e {} first
    simp only [capacity, compares, List.length_append]
    grind
  · have early := left.bindExp_capacity l _ first
    have late := right.bindExp_capacity r middle second
    simp only [capacity, compares, List.length_append]
    grind

/-- A shape that matches is one of the statements exactly if it matched a statement. -/
theorem Shape.match_bound {shape : Shape} {tree : Node} {b : Bindings}
    (matched : shape.match? tree = some b) :
    (∃ e, tree = .exp e ∧ shape.isStatement = false ∧ shape.bindExp? e {} = some b) ∨
      ∃ s, tree = .stm s ∧ shape.isStatement = true ∧ shape.bindStm? s {} = some b := by
  cases tree with
  | exp e =>
    simp only [match?] at matched
    split at matched
    next => cases matched
    next value => exact .inl ⟨e, rfl, by simpa using value, matched⟩
  | stm s =>
    simp only [match?] at matched
    split at matched
    next statement => exact .inr ⟨s, rfl, statement, matched⟩
    next => cases matched

theorem Shape.isStatement_of_match_exp {shape : Shape} {e : Exp} {b : Bindings}
    (matched : shape.match? (.exp e) = some b) : shape.isStatement = false := by
  rcases match_bound matched with ⟨_, _, value, _⟩ | ⟨_, other, _⟩
  · exact value
  · cases other

theorem Shape.isStatement_of_match_stm {shape : Shape} {s : Stm} {b : Bindings}
    (matched : shape.match? (.stm s) = some b) : shape.isStatement = true := by
  rcases match_bound matched with ⟨_, other, _⟩ | ⟨_, _, statement, _⟩
  · cases other
  · exact statement

/-- What a match gives the templates of its pattern, once its subtrees are in registers. -/
abbrev Bindings.operands (b : Bindings) (regs : List Temp) (result : Option Temp) : Operands :=
  { regs, imms := b.imms, labels := b.labels, relop := b.relop, result }

/-- A match has the operands that its templates may ask for. -/
theorem Pattern.match_has {pattern : Pattern} {tree : Node} {b : Bindings}
    (matched : pattern.shape.match? tree = some b) {regs : List Temp} {result : Option Temp}
    (count : regs.length = b.regs.length)
    (given : result.isSome = !pattern.shape.isStatement) :
    (b.operands regs result).Has pattern.capacity := by
  have result : pattern.capacity.result = true → result.isSome = true := by
    rw [given]
    exact id
  rcases Shape.match_bound matched with ⟨e, rfl, value, bound⟩ | ⟨s, rfl, statement, bound⟩
  · obtain ⟨regs, imms, labels, -⟩ := pattern.shape.bindExp_capacity e {} bound
    have bare : pattern.shape.compares = false := by
      revert value
      cases pattern.shape <;> simp [Shape.isStatement, Shape.compares]
    refine ⟨?_, ?_, ?_, ?_, result⟩
    · simp [capacity, count, regs]
    · simp [capacity, imms]
    · simp [capacity, labels]
    · simp [capacity, bare]
  · obtain ⟨regs, imms, labels, relop⟩ := Shape.bindStm_capacity bound
    exact ⟨count ▸ regs, imms, labels, relop, result⟩

end Bound

namespace Selector

variable {sel : Selector} {operands : Operands} {capacity : Capacity}

/-- An operand that fits is there. -/
theorem register_of_fits (has : operands.Has capacity) {operand : Operand}
    (fits : operand.fits capacity sel.conv.registerNames = true) :
    ∃ t, sel.register operands operand = .ok t := by
  cases operand with
  | result =>
    obtain ⟨t, given⟩ := Option.isSome_iff_exists.mp (has.result fits)
    exact ⟨t, by simp only [register, given]⟩
  | reg index =>
    have inside : index < operands.regs.length :=
      Nat.lt_of_lt_of_le (of_decide_eq_true fits) has.regs
    exact ⟨operands.regs[index], by simp only [register, List.getElem?_eq_getElem inside]⟩
  | machine name =>
    obtain ⟨t, found⟩ := lookup_of_mem (List.contains_iff_mem.mp fits)
    exact ⟨t, by simp only [register, Registers.find?, found]⟩

theorem conditionText_of_fits (sel : Selector) (has : operands.Has capacity) {asm : String}
    (fits : (capacity.relop || !needsCondition asm.toList) = true) :
    ∃ text, sel.conditionText operands asm = .ok text := by
  unfold conditionText
  by_cases needed : needsCondition asm.toList = true
  · rw [needed, Bool.not_true, Bool.or_false] at fits
    obtain ⟨op, given⟩ := Option.isSome_iff_exists.mp (has.relop fits)
    simp [needed, given]
  · simp [needed]

/-- A template that fits its operands becomes an instruction. -/
theorem instrOf_of_fits (has : operands.Has capacity) {template : Template}
    (fits : template.fits capacity sel.conv.registerNames = true) :
    ∃ instr, sel.instrOf operands template = .ok instr := by
  simp only [Template.fits, Bool.and_eq_true, List.all_eq_true] at fits
  obtain ⟨⟨⟨⟨dsts, srcs⟩, labels⟩, imms⟩, condition⟩ := fits
  obtain ⟨dst, dstMade⟩ := mapM_of_forall fun x member => register_of_fits has (dsts x member)
  obtain ⟨src, srcMade⟩ := mapM_of_forall fun x member => register_of_fits has (srcs x member)
  obtain ⟨label, labelMade⟩ : ∃ found, template.labels.mapM (labelAt operands template.asm) =
      .ok found := by
    refine mapM_of_forall fun index member => ?_
    have inside : index < operands.labels.length :=
      Nat.lt_of_lt_of_le (of_decide_eq_true (labels index member)) has.labels
    exact ⟨operands.labels[index], by simp only [labelAt, List.getElem?_eq_getElem inside]⟩
  obtain ⟨imm, immMade⟩ : ∃ found, template.imms.mapM (immediateAt operands template.asm) =
      .ok found := by
    refine mapM_of_forall fun index member => ?_
    have inside : index < operands.imms.length :=
      Nat.lt_of_lt_of_le (of_decide_eq_true (imms index member)) has.imms
    exact ⟨operands.imms[index], by simp only [immediateAt, List.getElem?_eq_getElem inside]⟩
  obtain ⟨text, textMade⟩ := conditionText_of_fits sel has condition
  exact ⟨_, by
    simp only [instrOf, except_bind_ok]
    exact ⟨dst, dstMade, src, srcMade, label, labelMade, imm, immMade, text, textMade, rfl⟩⟩

/-- The instruction of a template without a condition. -/
theorem instrOf_plain {template : Template}
    {dst src : List Temp} {labels : List Label} {imms : List Int}
    (plain : needsCondition template.asm.toList = false) (noCall : template.isCall = false)
    (dsts : template.dst.mapM (sel.register operands) = .ok dst)
    (srcs : template.src.mapM (sel.register operands) = .ok src)
    (targets : template.labels.mapM (labelAt operands template.asm) = .ok labels)
    (values : template.imms.mapM (immediateAt operands template.asm) = .ok imms) :
    sel.instrOf operands template = .ok
      { kind := if template.isMove then .move else .oper, asm := template.asm, dst, src, labels,
        imms } := by
  simp only [instrOf, except_bind_ok]
  refine ⟨dst, dsts, src, srcs, labels, targets, imms, values, template.asm, ?_, ?_⟩
  · simp [conditionText, plain]
  · simp [noCall, pure, Except.pure]

/-- Emitting the instruction of a template. -/
theorem run_made (template : Template) (s : Selection) :
    (do Selection.emit (← sel.instrOf operands template) : Select Unit) s =
      match sel.instrOf operands template with
      | .ok instr => .ok () (s.adding [instr])
      | .error error => .error error s := by
  rw [run_bind]
  cases sel.instrOf operands template with
  | ok instr =>
    change Selection.emit instr s = .ok () (s.adding [instr])
    simp [run_emit, Selection.adding]
  | error error => rfl

/-- What emitting templates does: either all of them become instructions, or none is asked for. -/
theorem emitTemplates_ok {templates : List Template} {s s' : Selection} {done : Unit} :
    sel.emitTemplates operands templates s = .ok done s' ↔
      ∃ instrs, templates.mapM (sel.instrOf operands) = .ok instrs ∧ s' = s.adding instrs := by
  induction templates generalizing s with
  | nil =>
    constructor
    · intro ran
      obtain ⟨-, rfl⟩ := pure_ok.mp ran
      exact ⟨[], rfl, s.adding_nil.symm⟩
    · rintro ⟨instrs, made, rfl⟩
      cases made
      exact pure_ok.mpr ⟨rfl, s.adding_nil.symm⟩
  | cons template templates ih =>
    simp only [emitTemplates, bind_ok, mapM_cons_ok, select_except_ok, ih]
    constructor
    · rintro ⟨instr, _, ⟨made, rfl⟩, _, t, emitted, instrs, others, rfl⟩
      cases emitted
      exact ⟨instr :: instrs, ⟨instr, instrs, made, others, rfl⟩, by simp [Selection.adding]⟩
    · rintro ⟨_, ⟨instr, instrs, made, others, rfl⟩, rfl⟩
      exact ⟨instr, s, ⟨made, rfl⟩, (), _, run_emit instr s, instrs, others,
        by simp [Selection.adding]⟩

/-- Templates that fit are emitted without an error. -/
theorem emitTemplates_of_fits (has : operands.Has capacity) {templates : List Template}
    (fits : templates.all (Template.fits capacity sel.conv.registerNames) = true) (s : Selection) :
    ∃ s', sel.emitTemplates operands templates s = .ok () s' := by
  obtain ⟨instrs, made⟩ := mapM_of_forall fun template member =>
    instrOf_of_fits has (List.all_eq_true.mp fits template member)
  exact ⟨s.adding instrs, emitTemplates_ok.mpr ⟨instrs, made, rfl⟩⟩

end Selector

end TreeCode
