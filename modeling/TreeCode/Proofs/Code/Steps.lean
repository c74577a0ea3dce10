import TreeCode.Code.Selection
import TreeCode.Proofs.Code.Templates
import TreeCode.Proofs.Supply

/-!
Selection is made of few kinds of steps. A property of computations that passes from steps to what
is made of them, and that each step has, holds of selection as a whole.
-/

namespace TreeCode

open Tree

/-- Properties of expressions and statements that pass on to their operands. -/
structure Hereditary (good : Exp → Prop) (goodStm : Stm → Prop) : Prop where
  binop : ∀ {op left right}, good (.binop op left right) → good left ∧ good right
  mem : ∀ {address}, good (.mem address) → good address
  call : ∀ {func link args}, good (.call func link args) →
    good func ∧ (∀ e, link = some e → good e) ∧ ∀ e ∈ args, good e
  eseq : ∀ {stm value}, good (.eseq stm value) → goodStm stm ∧ good value
  move : ∀ {dst src}, goodStm (.move dst src) → good dst ∧ good src
  exp : ∀ {e}, goodStm (.exp e) → good e
  jump : ∀ {target labels}, goodStm (.jump target labels) → good target
  cjump : ∀ {op left right yes no}, goodStm (.cjump op left right yes no) → good left ∧ good right
  seq : ∀ {first second}, goodStm (.seq first second) → goodStm first ∧ goodStm second

theorem hereditary_true : Hereditary (fun _ => True) (fun _ => True) := by
  constructor <;> simp

/-- All expressions that are bound have a property. -/
structure Bindings.All (good : Exp → Prop) (b : Bindings) : Prop where
  regs : ∀ e ∈ b.regs, good e
  link : ∀ {call e}, b.call = some call → call.link = some e → good e
  args : ∀ {call}, b.call = some call → ∀ e ∈ call.args, good e

section Binding

variable {good : Exp → Prop} {goodStm : Stm → Prop} {b b' : Bindings}

theorem Bindings.All.reg {e : Exp} (all : b.All good) (fine : good e) :
    Bindings.All good { b with regs := b.regs ++ [e] } where
  regs x member := by
    rcases List.mem_append.mp member with old | here
    · exact all.regs x old
    · rw [List.mem_singleton.mp here]
      exact fine
  link := all.link
  args := all.args

/-- A property that the parts of a tree inherit holds of all that a shape binds. -/
theorem Shape.bindExp_all (hereditary : Hereditary good goodStm) (shape : Shape) (e : Exp)
    (b : Bindings) (fine : good e) (all : b.All good) (bound : shape.bindExp? e b = some b') :
    b'.All good := by
  fun_induction Shape.bindExp? shape e b generalizing b' with
  | case1 e b =>
    cases bound
    exact all.reg fine
  | case2 t b =>
    cases bound
    exact all.reg fine
  | case3 | case5 | case7 =>
    cases bound
    exact ⟨all.regs, all.link, all.args⟩
  | case8 left right op l r b middle first carriedLeft carriedRight =>
    obtain ⟨fineLeft, fineRight⟩ := hereditary.binop fine
    exact carriedRight fineRight (carriedLeft fineLeft all first) bound
  | case11 address e b carried => exact carried (hereditary.mem fine) all bound
  | case12 func f link args b middle first carried =>
    cases bound
    obtain ⟨fineFunc, fineLink, fineArgs⟩ := hereditary.call fine
    refine ⟨(carried fineFunc all first).regs, ?_, ?_⟩
    · rintro _ e ⟨⟩ given
      exact fineLink e given
    · rintro _ ⟨⟩
      exact fineArgs
  | case4 | case6 | case9 | case10 | case13 | case14 => cases bound

theorem Shape.bindStm_all (hereditary : Hereditary good goodStm) {shape : Shape} {stm : Stm}
    (fine : goodStm stm) (all : b.All good) (bound : shape.bindStm? stm b = some b') :
    b'.All good := by
  rcases bindStm_some bound with
    ⟨dst, src, d, e, middle, rfl, rfl, first, second⟩ | ⟨inner, e, rfl, rfl, first⟩ |
    ⟨target, e, labels, middle, rfl, rfl, first, rfl⟩ |
    ⟨op, left, right, actual, l, r, yes, no, middle, last, rfl, rfl, first, second, rfl⟩
  · obtain ⟨fineDst, fineSrc⟩ := hereditary.move fine
    exact src.bindExp_all hereditary e middle fineSrc
      (dst.bindExp_all hereditary d b fineDst all first) second
  · exact inner.bindExp_all hereditary e b (hereditary.exp fine) all first
  · have bound := target.bindExp_all hereditary e b (hereditary.jump fine) all first
    exact ⟨bound.regs, bound.link, bound.args⟩
  · obtain ⟨fineLeft, fineRight⟩ := hereditary.cjump fine
    have start : Bindings.All good { b with relop := some actual } := ⟨all.regs, all.link, all.args⟩
    have bound := right.bindExp_all hereditary r middle fineRight
      (left.bindExp_all hereditary l _ fineLeft start first) second
    exact ⟨bound.regs, bound.link, bound.args⟩

theorem Bindings.all_nil : Bindings.All good {} where
  regs := nofun
  link := nofun
  args := nofun

/-- What is bound when an instruction set picks a match for an expression. -/
theorem InstructionSet.pick_exp_all (hereditary : Hereditary good goodStm) {isa : InstructionSet}
    {e : Exp} {found : Match} (fine : good e) (picked : isa.pick (.exp e) = some found) :
    found.bindings.All good := by
  have matched := (pick_matches picked).2
  simp only [Shape.match?] at matched
  split at matched
  next => cases matched
  next => exact Shape.bindExp_all hereditary _ e {} fine Bindings.all_nil matched

/-- What is bound when an instruction set picks a match for a statement. -/
theorem InstructionSet.pick_stm_all (hereditary : Hereditary good goodStm) {isa : InstructionSet}
    {stm : Stm} {found : Match} (fine : goodStm stm) (picked : isa.pick (.stm stm) = some found) :
    found.bindings.All good := by
  have matched := (pick_matches picked).2
  simp only [Shape.match?] at matched
  split at matched
  next => exact Shape.bindStm_all hereditary fine Bindings.all_nil matched
  next => cases matched

end Binding

namespace Selector

/-- The steps of selection for statements with the property `goodStm` have the property `P`, which
passes from steps to what is made of them. -/
structure Steps (sel : Selector) (goodStm : Stm → Prop) (P : {α : Type} → Select α → Prop) :
    Prop where
  pure : ∀ {α : Type} (a : α), P (pure a)
  bind : ∀ {α β : Type} {act : Select α} {next : α → Select β}, P act → (∀ a, P (next a)) →
    P (act >>= next)
  fresh : P (liftM freshTemp : Select Temp)
  label : ∀ {name}, goodStm (.label name) → P (Selection.emit (.atLabel name))
  instr : ∀ operands template, P do Selection.emit (← sel.instrOf operands template)
  uncovered : ∀ {α : Type} {tree error}, sel.isa.cover tree = .error error →
    P (throw error : Select α)
  misplaced : ∀ arg, P (throw (.misplacedArgument arg) : Select Argument)
  crowded : ∀ {count}, sel.conv.outgoing < count →
    P (throw (.convention (.tooManyArguments count sel.conv.name sel.conv.outgoing)) : Select Unit)

namespace Steps

variable {sel : Selector} {good : Exp → Prop} {goodStm : Stm → Prop}
  {P : {α : Type} → Select α → Prop}

theorem templates (steps : sel.Steps goodStm P) (operands : Operands) (templates : List Template) :
    P (sel.emitTemplates operands templates) := by
  induction templates with
  | nil => exact steps.pure ()
  | cons template templates ih =>
    have same : sel.emitTemplates operands (template :: templates) =
        (do Selection.emit (← sel.instrOf operands template)) >>= fun _ =>
          sel.emitTemplates operands templates := by
      rw [emitTemplates, bind_assoc]
    rw [same]
    exact steps.bind (steps.instr operands template) fun _ => ih

theorem toRegister (steps : sel.Steps goodStm P) (reg : Temp) (value : Argument) :
    P (sel.moveToRegister reg value) := by
  cases value with
  | imm | label | reg => exact steps.instr _ _

theorem toStack (steps : sel.Steps goodStm P) (index : Nat) (value : Argument) :
    P (sel.moveToStack index value) := by
  have held : P (sel.inRegister value) := by
    cases value with
    | reg t => exact steps.pure t
    | imm | label =>
      exact steps.bind steps.fresh fun t => steps.bind (steps.toRegister t _) fun _ => steps.pure t
  exact steps.bind held fun t => steps.instr _ _

theorem registers (steps : sel.Steps goodStm P) :
    ∀ (registers : List Temp) (values : List Argument), P (sel.fillRegisters registers values)
  | reg :: registers, value :: values => by
    rw [fillRegisters]
    exact steps.bind (steps.toRegister reg value) fun _ => steps.registers registers values
  | [], _ => steps.pure ()
  | _ :: _, [] => steps.pure ()

theorem stack (steps : sel.Steps goodStm P) (index : Nat) (values : List Argument) :
    P (sel.fillStack index values) := by
  induction values generalizing index with
  | nil => exact steps.pure ()
  | cons value values ih =>
    rw [fillStack]
    exact steps.bind (steps.toStack index value) fun _ => ih (index + 1)

mutual
/-- A property of every step is one of covering a statement. The induction follows the covering. -/
theorem coverStm (steps : sel.Steps goodStm P) (hereditary : Hereditary good goodStm)
    (stm : Stm) : goodStm stm → P (sel.coverStm stm) := by
  have covered (fine : goodStm stm) : P (match sel.isa.cover (.stm stm) with
      | .error error => throw error
      | .ok ⟨found, _⟩ => sel.coverMatch found none) := by
    cases picked : sel.isa.cover (.stm stm) with
    | error error => exact steps.uncovered picked
    | ok found =>
      have smaller : found.val.load < stm.size := found.property
      exact steps.coverMatch hereditary found.val none
        (InstructionSet.pick_stm_all hereditary fine (InstructionSet.cover_ok picked))
  cases stm with
  | seq first second =>
    intro fine
    obtain ⟨fineFirst, fineSecond⟩ := hereditary.seq fine
    rw [Selector.coverStm]
    exact steps.bind (steps.coverStm hereditary first fineFirst) fun _ =>
      steps.coverStm hereditary second fineSecond
  | label name =>
    rw [Selector.coverStm]
    exact steps.label
  | move dst src => simp only [Selector.coverStm]; exact covered
  | exp e => simp only [Selector.coverStm]; exact covered
  | jump target labels => simp only [Selector.coverStm]; exact covered
  | cjump op left right yes no => simp only [Selector.coverStm]; exact covered
termination_by 8 * stm.size
decreasing_by
  · omega
  · simp only [Stm.size]; omega
  · simp only [Stm.size]; omega
theorem coverExp (steps : sel.Steps goodStm P) (hereditary : Hereditary good goodStm)
    (exp : Exp) : good exp → P (sel.coverExp exp) := by
  have covered (fine : good exp) : P (match sel.isa.cover (.exp exp) with
      | .error error => throw error
      | .ok ⟨found, _⟩ => do
        let result ← freshTemp
        sel.coverMatch found (some result)
        return result) := by
    cases picked : sel.isa.cover (.exp exp) with
    | error error => exact steps.uncovered picked
    | ok found =>
      have smaller : found.val.load < exp.size := found.property
      have all := InstructionSet.pick_exp_all hereditary fine (InstructionSet.cover_ok picked)
      exact steps.bind steps.fresh fun result =>
        steps.bind (steps.coverMatch hereditary found.val (some result) all) fun _ =>
          steps.pure result
  cases exp with
  | temp t =>
    rw [Selector.coverExp]
    exact fun _ => steps.pure t
  | eseq stm value =>
    intro fine
    obtain ⟨fineStm, fineValue⟩ := hereditary.eseq fine
    rw [Selector.coverExp]
    exact steps.bind (steps.coverStm hereditary stm fineStm) fun _ =>
      steps.coverExp hereditary value fineValue
  | const value => simp only [Selector.coverExp]; exact covered
  | name label => simp only [Selector.coverExp]; exact covered
  | binop op left right => simp only [Selector.coverExp]; exact covered
  | mem address => simp only [Selector.coverExp]; exact covered
  | call func link args => simp only [Selector.coverExp]; exact covered
termination_by 8 * exp.size
decreasing_by
  · omega
  · simp only [Exp.size]; omega
  · simp only [Exp.size]; omega
/-- The parts of a match are covered by the induction; what is done with the results are steps. -/
theorem coverMatch (steps : sel.Steps goodStm P) (hereditary : Hereditary good goodStm)
    (found : Match) (result : Option Temp) (all : found.bindings.All good) :
    P (sel.coverMatch found result) := by
  rw [Selector.coverMatch]
  refine steps.bind (steps.coverAll hereditary found.bindings.regs all.regs) fun regs => ?_
  refine steps.bind ?_ fun _ => steps.templates _ _
  exact steps.placeCall hereditary found.bindings.call all.link all.args
termination_by 8 * found.load + 5
decreasing_by all_goals simp only [Match.load, Bindings.load]; omega
theorem coverAll (steps : sel.Steps goodStm P) (hereditary : Hereditary good goodStm)
    (exps : List Exp) : (∀ e ∈ exps, good e) → P (sel.coverAll exps) := by
  cases exps with
  | nil =>
    rw [Selector.coverAll]
    exact fun _ => steps.pure []
  | cons exp exps =>
    intro fine
    rw [Selector.coverAll]
    refine steps.bind (steps.coverExp hereditary exp (fine exp List.mem_cons_self)) fun t => ?_
    exact steps.bind (steps.coverAll hereditary exps fun e member =>
      fine e (List.mem_cons_of_mem exp member)) fun rest => steps.pure (t :: rest)
termination_by 8 * Exp.listSize exps + 1
decreasing_by all_goals simp only [Exp.listSize]; have := Exp.size_pos exp; omega
theorem placeCall (steps : sel.Steps goodStm P) (hereditary : Hereditary good goodStm)
    (call : Option CallOperands) : (∀ {c e}, call = some c → c.link = some e → good e) →
    (∀ {c}, call = some c → ∀ e ∈ c.args, good e) → P (sel.placeCall call) := by
  cases call with
  | none =>
    rw [Selector.placeCall]
    exact fun _ _ => steps.pure ()
  | some call =>
    intro fineLink fineArgs
    rw [Selector.placeCall]
    exact steps.placeOperands hereditary call.link call.args (fun e given => fineLink rfl given)
      (fineArgs rfl)
termination_by 8 * CallOperands.load call + 4
decreasing_by all_goals simp only [CallOperands.load]; omega
/-- The operands of a call are evaluated by the induction, and placed by steps. -/
theorem placeOperands (steps : sel.Steps goodStm P) (hereditary : Hereditary good goodStm)
    (link : Option Exp) (args : List Exp) (fineLink : ∀ e, link = some e → good e)
    (fineArgs : ∀ e ∈ args, good e) : P (sel.placeOperands link args) := by
  rw [Selector.placeOperands]
  split
  next crowded => exact steps.crowded crowded
  next =>
    refine steps.bind (steps.evalLink hereditary link fineLink) fun linked => ?_
    refine steps.bind (steps.evalArgs hereditary args fineArgs) fun values => ?_
    exact steps.bind (steps.registers _ _) fun _ => steps.stack 0 _
termination_by 8 * (Exp.linkSize link + Exp.listSize args) + 3
decreasing_by all_goals omega
theorem evalLink (steps : sel.Steps goodStm P) (hereditary : Hereditary good goodStm)
    (link : Option Exp) : (∀ e, link = some e → good e) → P (sel.evalLink link) := by
  cases link with
  | none =>
    rw [Selector.evalLink]
    exact fun _ => steps.pure []
  | some link =>
    intro fine
    rw [Selector.evalLink]
    exact steps.bind (steps.evalArg hereditary link (fine link rfl)) fun value => steps.pure [value]
termination_by 8 * Exp.linkSize link + 2
decreasing_by all_goals simp only [Exp.linkSize]; omega
theorem evalArgs (steps : sel.Steps goodStm P) (hereditary : Hereditary good goodStm)
    (args : List Exp) : (∀ e ∈ args, good e) → P (sel.evalArgs args) := by
  cases args with
  | nil =>
    rw [Selector.evalArgs]
    exact fun _ => steps.pure []
  | cons arg args =>
    intro fine
    rw [Selector.evalArgs]
    refine steps.bind (steps.evalArg hereditary arg (fine arg List.mem_cons_self)) fun value => ?_
    exact steps.bind (steps.evalArgs hereditary args fun e member =>
      fine e (List.mem_cons_of_mem arg member)) fun rest => steps.pure (value :: rest)
termination_by 8 * Exp.listSize args + 2
decreasing_by all_goals simp only [Exp.listSize]; have := Exp.size_pos arg; omega
theorem evalArg (steps : sel.Steps goodStm P) (hereditary : Hereditary good goodStm)
    (arg : Exp) : good arg → P (sel.evalArg arg) := by
  have covered (fine : good arg) : P (do
      let t ← sel.coverExp arg
      return Argument.reg t) :=
    steps.bind (steps.coverExp hereditary arg fine) fun t => steps.pure (Argument.reg t)
  cases arg with
  | name label =>
    rw [Selector.evalArg]
    exact fun _ => steps.pure _
  | temp t =>
    rw [Selector.evalArg]
    exact fun _ => steps.pure _
  | call func link args =>
    rw [Selector.evalArg]
    exact fun _ => steps.misplaced _
  | eseq stm exp =>
    rw [Selector.evalArg]
    exact fun _ => steps.misplaced _
  | const value =>
    rw [Selector.evalArg]
    split
    next => exact fun _ => steps.pure _
    next => exact covered
  | binop op left right => simp only [Selector.evalArg]; exact covered
  | mem address => simp only [Selector.evalArg]; exact covered
termination_by 8 * arg.size + 1
decreasing_by all_goals omega
end

theorem coverList (steps : sel.Steps goodStm P) (hereditary : Hereditary good goodStm)
    (stms : List Stm) (fine : ∀ stm ∈ stms, goodStm stm) : P (sel.coverList stms) := by
  induction stms with
  | nil => exact steps.pure ()
  | cons stm stms ih =>
    rw [Selector.coverList]
    refine steps.bind (steps.coverStm hereditary stm (fine stm List.mem_cons_self)) fun _ => ?_
    exact ih fun stm member => fine stm (List.mem_cons_of_mem _ member)

/-- A relation between states that holds across each step holds across all of selection. -/
theorem within {R : Selection → Selection → Prop} (refl : ∀ s, R s s)
    (trans : ∀ {s t u}, R s t → R t u → R s u) (draws : ∀ s, R s s.drawn)
    (emits : ∀ s instr, R s (s.adding [instr])) :
    sel.Steps (fun _ => True) fun act => Within R act where
  pure _ := refl
  bind := within_bind trans
  fresh := draws
  label _ s := emits s _
  instr operands template := by
    intro s
    rw [run_made]
    cases sel.instrOf operands template with
    | ok instr => exact emits s instr
    | error error => exact refl s
  uncovered _ := refl
  misplaced _ := refl
  crowded _ := refl

end Steps

end Selector

end TreeCode
