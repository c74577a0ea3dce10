import TreeCode.Code.Selection
import TreeCode.Proofs.Code.Bindings
import TreeCode.Proofs.Machine.Roles
import TreeCode.Proofs.Supply

/-!
Selection uses temporaries hygienically: the instructions for some statements have only machine
registers, temporaries of the statements and temporaries issued while they were selected.
-/

namespace TreeCode

open Tree

/-- All registers of an instruction. -/
def Instr.temps (instr : Instr) : List Temp := instr.defs ++ instr.uses

/-- The temporaries of an evaluated argument. -/
def Argument.temps : Argument → List Temp
  | .reg t => [t]
  | _ => []

variable {α β : Type} {conv : Convention} {old old' : List Temp}

/-- `act` takes back no temporary. When it succeeds, the instructions that it emits and what it
gives have only registers, temporaries from `old` and temporaries issued by `act`. -/
structure Emits (conv : Convention) (old : List Temp) (act : Select α) (temps : α → List Temp) :
    Prop where
  grows : Within (fun s s' => s.supply.temps ≤ s'.supply.temps) act
  origin : ∀ s, after act s fun a s' => ∃ added, s'.emitted.toList = s.emitted.toList ++ added ∧
    ∀ t ∈ temps a ++ added.flatMap Instr.temps,
      t ∈ conv.machine ∨ t ∈ old ∨ t.Between s.supply.temps s'.supply.temps

section Rules

variable {temps : α → List Temp} {temps' : β → List Temp}

theorem emits_pure {a : α} (known : ∀ t ∈ temps a, t ∈ conv.machine ∨ t ∈ old) :
    Emits conv old (pure a : Select α) temps where
  grows _ := Nat.le_refl _
  origin := by
    intro s _ _ ran
    obtain ⟨rfl, rfl⟩ := pure_ok.mp ran
    refine ⟨[], (List.append_nil _).symm, fun t member => ?_⟩
    rw [List.flatMap_nil, List.append_nil] at member
    exact (known t member).imp id .inl

theorem emits_throw (error : Error) : Emits conv old (throw error : Select α) temps where
  grows _ := Nat.le_refl _
  origin _ _ _ ran := (throw_ok.mp ran).elim

/-- What the first action returns may be used by the second. -/
theorem emits_bind {act : Select α} {next : α → Select β} (first : Emits conv old act temps)
    (rest : ∀ a, Emits conv (old ++ temps a) (next a) temps') :
    Emits conv old (act >>= next) temps' where
  grows := within_bind Nat.le_trans first.grows fun a => (rest a).grows
  origin := by
    intro s b s'' ran
    obtain ⟨a, s', began, ended⟩ := bind_ok.mp ran
    have grown := first.grows.ok began
    have grownLater := (rest a).grows.ok ended
    obtain ⟨added, emitted, origin⟩ := first.origin s a s' began
    obtain ⟨later, emittedLater, originLater⟩ := (rest a).origin s' b s'' ended
    refine ⟨added ++ later, by rw [emittedLater, emitted, List.append_assoc], fun t member => ?_⟩
    have early : t ∈ temps a ++ added.flatMap Instr.temps →
        t ∈ conv.machine ∨ t ∈ old ∨ t.Between s.supply.temps s''.supply.temps := fun made =>
      (origin t made).imp id fun known => known.imp id fun between =>
        between.widen (Nat.le_refl _) grownLater
    have late : t ∈ temps' b ++ later.flatMap Instr.temps →
        t ∈ conv.machine ∨ t ∈ old ∨ t.Between s.supply.temps s''.supply.temps := fun made => by
      rcases originLater t made with register | known | between
      · exact .inl register
      · rcases List.mem_append.mp known with older | here
        · exact .inr (.inl older)
        · exact early (List.mem_append_left _ here)
      · exact .inr (.inr (between.widen grown (Nat.le_refl _)))
    rw [List.flatMap_append] at member
    rcases List.mem_append.mp member with result | instrs
    · exact late (List.mem_append_left _ result)
    · rcases List.mem_append.mp instrs with first | second
      · exact early (List.mem_append_right _ first)
      · exact late (List.mem_append_right _ second)

/-- More temporaries may be in use before. -/
theorem Emits.mono {act : Select α} (emits : Emits conv old act temps)
    (subset : ∀ t ∈ old, t ∈ conv.machine ∨ t ∈ old') : Emits conv old' act temps where
  grows := emits.grows
  origin := by
    intro s a s' ran
    obtain ⟨added, emitted, origin⟩ := emits.origin s a s' ran
    refine ⟨added, emitted, fun t member => ?_⟩
    rcases origin t member with register | older | between
    · exact .inl register
    · exact (subset t older).imp id .inl
    · exact .inr (.inr between)

/-- A temporary that is drawn is new, so that it may be used. -/
theorem emits_freshTemp : Emits conv old (liftM freshTemp : Select Temp) fun t => [t] where
  grows _ := Nat.le_succ _
  origin := by
    intro s t s' ran
    cases ran
    refine ⟨[], (List.append_nil _).symm, fun x member => .inr (.inr ?_)⟩
    rw [List.flatMap_nil, List.append_nil] at member
    rw [List.mem_singleton.mp member]
    exact ⟨Nat.le_refl _, Nat.lt_succ_self _⟩

theorem emits_emit {instr : Instr} (known : instr.temps ⊆ old) :
    Emits conv old (Selection.emit instr) fun _ => [] where
  grows _ := Nat.le_refl _
  origin := by
    intro s _ s' ran
    cases ran
    refine ⟨[instr], Array.toList_push, fun t member => ?_⟩
    rw [List.nil_append, List.flatMap_singleton] at member
    exact .inr (.inl (known member))

theorem emits_except {made : Except Error α}
    (known : ∀ a, made = .ok a → ∀ t ∈ temps a, t ∈ conv.machine ∨ t ∈ old) :
    Emits conv old (liftM made : Select α) temps := by
  cases made with
  | error error => exact emits_throw error
  | ok a => exact emits_pure (known a rfl)

end Rules

namespace Selector

variable {sel : Selector} {operands : Operands}

/-- A register of a template is a machine register, an operand or the result. -/
theorem register_source {operand : Operand} {t : Temp}
    (made : sel.register operands operand = .ok t) :
    t ∈ sel.conv.machine ∨ t ∈ operands.regs ∨ operand = .result ∧ operands.result = some t := by
  cases operand with
  | result =>
    simp only [register] at made
    split at made
    next reg same =>
      cases made
      exact .inr (.inr ⟨rfl, same⟩)
    next => cases made
  | reg index =>
    simp only [register] at made
    split at made
    next reg found =>
      cases made
      exact .inr (.inl (List.mem_of_getElem? found))
    next => cases made
  | machine name =>
    simp only [register] at made
    split at made
    next reg found =>
      cases made
      exact .inl (mem_of_lookup found)
    next => cases made

/-- An operand is a register of the machine, or one of the operands given. -/
theorem register_known {operand : Operand} {t : Temp}
    (made : sel.register operands operand = .ok t) :
    t ∈ sel.conv.machine ∨ t ∈ operands.regs ++ operands.result.toList := by
  rcases register_source made with register | operand | ⟨-, result⟩
  · exact .inl register
  · exact .inr (List.mem_append_left _ operand)
  · exact .inr (List.mem_append_right _ (Option.mem_toList.mpr result))

theorem clobbered_known (closed : sel.conv.Closed) : sel.clobbered ⊆ sel.conv.machine := by
  unfold clobbered
  split
  next => exact closed.callerSaved
  next =>
    intro t member
    rcases List.mem_append.mp member with saved | result
    · exact closed.callerSaved saved
    · rw [List.mem_singleton.mp result]
      exact closed.returnValue

/-- The registers of an instruction are the operands of its template. -/
theorem instrOf_known (closed : sel.conv.Closed) {template : Template} {instr : Instr}
    (made : sel.instrOf operands template = .ok instr) :
    ∀ t ∈ instr.temps, t ∈ sel.conv.machine ∨ t ∈ operands.regs ++ operands.result.toList := by
  obtain ⟨dst, dsts, made⟩ := except_bind_ok.mp made
  obtain ⟨src, srcs, made⟩ := except_bind_ok.mp made
  obtain ⟨labels, _, made⟩ := except_bind_ok.mp made
  obtain ⟨imms, _, made⟩ := except_bind_ok.mp made
  obtain ⟨asm, _, made⟩ := except_bind_ok.mp made
  cases made
  intro t member
  rcases List.mem_append.mp member with defined | used
  · rcases List.mem_append.mp defined with explicit | implicit
    · obtain ⟨_, _, found⟩ := mem_mapM dsts explicit
      exact register_known found
    · left
      dsimp only at implicit
      split at implicit
      next => exact clobbered_known closed implicit
      next => cases implicit
  · rcases List.mem_append.mp used with explicit | implicit
    · obtain ⟨_, _, found⟩ := mem_mapM srcs explicit
      exact register_known found
    · left
      dsimp only at implicit
      split at implicit
      next => exact closed.arguments implicit
      next => cases implicit

theorem emits_made {template : Template} (closed : sel.conv.Closed)
    (known : ∀ t ∈ operands.regs ++ operands.result.toList, t ∈ sel.conv.machine ∨ t ∈ old) :
    Emits sel.conv old (liftM (sel.instrOf operands template) : Select Instr) Instr.temps := by
  refine emits_except fun instr made t member => ?_
  rcases instrOf_known closed made t member with register | operand
  · exact .inl register
  · exact known t operand

/-- The instruction of a template is made and emitted. -/
theorem emits_instr {template : Template} (closed : sel.conv.Closed)
    (known : ∀ t ∈ operands.regs ++ operands.result.toList, t ∈ sel.conv.machine ∨ t ∈ old) :
    Emits sel.conv old (do Selection.emit (← sel.instrOf operands template)) fun _ => [] :=
  emits_bind (emits_made closed known) fun _ => emits_emit (List.subset_append_right _ _)

/-- Templates use the operands given and registers of the machine. -/
theorem emits_templates (closed : sel.conv.Closed) (operands : Operands) :
    ∀ templates : List Template,
      Emits sel.conv (operands.regs ++ operands.result.toList)
        (sel.emitTemplates operands templates) fun _ => []
  | [] => emits_pure (by simp)
  | _ :: templates =>
    emits_bind (emits_made closed fun _ => .inr) fun _ =>
      emits_bind (emits_emit (List.subset_append_right _ _)) fun _ =>
      (emits_templates closed operands templates).mono fun _ member =>
        .inr (List.mem_append_left _ (List.mem_append_left _ member))

section Arguments

theorem emits_moveToRegister (closed : sel.conv.Closed) (reg : Temp) (value : Argument) :
    Emits sel.conv (reg :: value.temps) (sel.moveToRegister reg value) fun _ => [] := by
  cases value with
  | imm value => exact emits_instr closed fun t member => .inr member
  | label name => exact emits_instr closed fun t member => .inr member
  | reg source =>
    refine emits_instr closed fun t member => .inr ?_
    rcases List.mem_append.mp member with operand | result
    · exact List.mem_cons_of_mem reg operand
    · rw [List.mem_singleton.mp result]
      exact List.mem_cons_self

theorem emits_inRegister (closed : sel.conv.Closed) (value : Argument) :
    Emits sel.conv value.temps (sel.inRegister value) fun t => [t] := by
  have moved : Emits sel.conv value.temps (do
      let t ← freshTemp
      sel.moveToRegister t value
      return t) fun t => [t] := by
    refine emits_bind emits_freshTemp fun reg => ?_
    refine emits_bind ((emits_moveToRegister closed reg value).mono ?_) fun _ => emits_pure ?_
    · intro t member
      rcases List.mem_cons.mp member with rfl | among
      · exact .inr (List.mem_append_right _ (List.mem_singleton_self t))
      · exact .inr (List.mem_append_left _ among)
    · intro t member
      exact .inr (List.mem_append_left _ (List.mem_append_right _ member))
  cases value with
  | imm value => exact moved
  | label name => exact moved
  | reg source => exact emits_pure fun t member => .inr member

theorem emits_moveToStack (closed : sel.conv.Closed) (index : Nat) (value : Argument) :
    Emits sel.conv value.temps (sel.moveToStack index value) fun _ => [] := by
  refine emits_bind (emits_inRegister closed value) fun reg => emits_instr closed fun t member => ?_
  simp only [Option.toList_none, List.append_nil, List.mem_cons, List.not_mem_nil,
    or_false] at member
  rcases member with rfl | rfl
  · exact .inl closed.stackPointer
  · exact .inr (List.mem_append_right _ (List.mem_singleton_self t))

theorem emits_fillRegisters (closed : sel.conv.Closed) :
    ∀ (registers : List Temp) (values : List Argument), registers ⊆ sel.conv.machine →
      Emits sel.conv (values.flatMap Argument.temps) (sel.fillRegisters registers values)
        fun _ => []
  | [], _, _ => emits_pure (by simp)
  | _ :: _, [], _ => emits_pure (by simp)
  | reg :: registers, value :: values, known => by
    rw [List.flatMap_cons]
    refine emits_bind ((emits_moveToRegister closed reg value).mono ?_) fun _ =>
      (emits_fillRegisters closed registers values fun _ member =>
        known (List.mem_cons_of_mem reg member)).mono ?_
    · intro t member
      rcases List.mem_cons.mp member with rfl | among
      · exact .inl (known List.mem_cons_self)
      · exact .inr (List.mem_append_left _ among)
    · exact fun t member => .inr (List.mem_append_left _ (List.mem_append_right _ member))

theorem emits_fillStack (closed : sel.conv.Closed) :
    ∀ (index : Nat) (values : List Argument),
      Emits sel.conv (values.flatMap Argument.temps) (sel.fillStack index values) fun _ => []
  | _, [] => emits_pure (by simp)
  | index, value :: values => by
    rw [List.flatMap_cons]
    exact emits_bind ((emits_moveToStack closed index value).mono fun _ member =>
        .inr (List.mem_append_left _ member)) fun _ =>
      (emits_fillStack closed (index + 1) values).mono fun _ member =>
        .inr (List.mem_append_left _ (List.mem_append_right _ member))

end Arguments

section Covering

/-- What is bound in a match was in the tree. -/
theorem cover_temps {isa : InstructionSet} {tree : Node}
    {found : { found : Match // found.load < tree.size }} (covered : isa.cover tree = .ok found) :
    found.val.bindings.temps ⊆ tree.temps :=
  InstructionSet.pick_temps (InstructionSet.cover_ok covered)

mutual
/-- The instructions for a statement use its temporaries, registers of the machine, and new
temporaries. The induction follows the covering, whose parts are smaller than the tree. -/
theorem emits_coverStm (closed : sel.conv.Closed) (stm : Stm) :
    Emits sel.conv stm.temps (sel.coverStm stm) fun _ => [] := by
  have covered : Emits sel.conv stm.temps (match sel.isa.cover (.stm stm) with
      | .error error => throw error
      | .ok ⟨found, _⟩ => sel.coverMatch found none) fun _ => [] := by
    cases picked : sel.isa.cover (.stm stm) with
    | error error => exact emits_throw error
    | ok found =>
      have smaller : found.val.load < stm.size := found.property
      refine (emits_coverMatch closed found.val none).mono fun t member => .inr ?_
      rw [Option.toList_none, List.append_nil] at member
      exact cover_temps picked member
  cases stm with
  | seq first second =>
    rw [coverStm, Stm.temps]
    exact emits_bind ((emits_coverStm closed first).mono fun _ member =>
        .inr (List.mem_append_left _ member)) fun _ =>
      (emits_coverStm closed second).mono fun _ member =>
        .inr (List.mem_append_left _ (List.mem_append_right _ member))
  | label name =>
    rw [coverStm]
    exact emits_emit fun t member => by cases member
  | move dst src => simp only [coverStm]; exact covered
  | exp e => simp only [coverStm]; exact covered
  | jump target labels => simp only [coverStm]; exact covered
  | cjump op left right yes no => simp only [coverStm]; exact covered
termination_by 8 * stm.size
decreasing_by
  · omega
  · simp only [Stm.size]; omega
  · simp only [Stm.size]; omega
theorem emits_coverExp (closed : sel.conv.Closed) (exp : Exp) :
    Emits sel.conv exp.temps (sel.coverExp exp) fun t => [t] := by
  have covered : Emits sel.conv exp.temps (match sel.isa.cover (.exp exp) with
      | .error error => throw error
      | .ok ⟨found, _⟩ => do
        let result ← freshTemp
        sel.coverMatch found (some result)
        return result) fun t => [t] := by
    cases picked : sel.isa.cover (.exp exp) with
    | error error => exact emits_throw error
    | ok found =>
      have smaller : found.val.load < exp.size := found.property
      refine emits_bind emits_freshTemp fun result => ?_
      refine emits_bind
        ((emits_coverMatch closed found.val (some result)).mono fun t member => .inr ?_)
        fun _ => emits_pure fun t member => .inr ?_
      · rcases List.mem_append.mp member with bound | result
        · exact List.mem_append_left _ (cover_temps picked bound)
        · exact List.mem_append_right _ result
      · exact List.mem_append_left _ (List.mem_append_right _ member)
  cases exp with
  | temp t =>
    rw [coverExp]
    exact emits_pure fun x member => .inr member
  | eseq stm value =>
    rw [coverExp, Exp.temps]
    exact emits_bind ((emits_coverStm closed stm).mono fun _ member =>
        .inr (List.mem_append_left _ member)) fun _ =>
      (emits_coverExp closed value).mono fun _ member =>
        .inr (List.mem_append_left _ (List.mem_append_right _ member))
  | const value => simp only [coverExp]; exact covered
  | name label => simp only [coverExp]; exact covered
  | binop op left right => simp only [coverExp]; exact covered
  | mem address => simp only [coverExp]; exact covered
  | call func link args => simp only [coverExp]; exact covered
termination_by 8 * exp.size
decreasing_by
  · omega
  · simp only [Exp.size]; omega
  · simp only [Exp.size]; omega
/-- The registers of a match are evaluated first, and its templates use the results. -/
theorem emits_coverMatch (closed : sel.conv.Closed) (found : Match) (result : Option Temp) :
    Emits sel.conv (found.bindings.temps ++ result.toList) (sel.coverMatch found result)
      fun _ => [] := by
  rw [coverMatch]
  refine emits_bind ((emits_coverAll closed found.bindings.regs).mono ?_) fun regs => ?_
  · exact fun _ member => .inr (List.mem_append_left _ (List.mem_append_left _ member))
  refine emits_bind ((emits_placeCall closed found.bindings.call).mono ?_) fun _ => ?_
  · exact fun _ member => .inr
      (List.mem_append_left _ (List.mem_append_left _ (List.mem_append_right _ member)))
  refine (emits_templates closed _ found.pattern.emit).mono fun t member => .inr ?_
  simp only [List.append_nil, List.mem_append] at member ⊢
  rcases member with operand | given
  · exact .inr operand
  · exact .inl (.inr given)
termination_by 8 * found.load + 5
decreasing_by all_goals simp only [Match.load, Bindings.load]; omega
theorem emits_coverAll (closed : sel.conv.Closed) (exps : List Exp) :
    Emits sel.conv (Exp.listTemps exps) (sel.coverAll exps) id := by
  cases exps with
  | nil =>
    rw [coverAll]
    exact emits_pure (by simp)
  | cons exp exps =>
    rw [coverAll, Exp.listTemps]
    refine emits_bind ((emits_coverExp closed exp).mono fun _ member =>
        .inr (List.mem_append_left _ member)) fun t =>
      emits_bind ((emits_coverAll closed exps).mono fun _ member =>
        .inr (List.mem_append_left _ (List.mem_append_right _ member))) fun rest =>
      emits_pure fun x member => .inr ?_
    rcases List.mem_cons.mp member with rfl | among
    · exact List.mem_append_left _ (List.mem_append_right _ (List.mem_singleton_self x))
    · exact List.mem_append_right _ among
termination_by 8 * Exp.listSize exps + 1
decreasing_by all_goals simp only [Exp.listSize]; have := Exp.size_pos exp; omega
theorem emits_placeCall (closed : sel.conv.Closed) (call : Option CallOperands) :
    Emits sel.conv (CallOperands.temps call) (sel.placeCall call) fun _ => [] := by
  cases call with
  | none =>
    rw [placeCall]
    exact emits_pure (by simp)
  | some call =>
    rw [placeCall]
    exact emits_placeOperands closed call.link call.args
termination_by 8 * CallOperands.load call + 4
decreasing_by all_goals simp only [CallOperands.load]; omega
/-- Link and arguments are evaluated and then placed. -/
theorem emits_placeOperands (closed : sel.conv.Closed) (link : Option Exp) (args : List Exp) :
    Emits sel.conv (Exp.linkTemps link ++ Exp.listTemps args) (sel.placeOperands link args)
      fun _ => [] := by
  rw [placeOperands]
  split
  next => exact emits_throw _
  next =>
    refine emits_bind ((emits_evalLink closed link).mono fun _ member =>
        .inr (List.mem_append_left _ member)) fun linked =>
      emits_bind ((emits_evalArgs closed args).mono fun _ member =>
        .inr (List.mem_append_left _ (List.mem_append_right _ member))) fun values =>
      emits_bind ((emits_fillRegisters closed sel.conv.arguments values
        closed.arguments).mono fun _ member => .inr (List.mem_append_right _ member)) fun _ =>
      (emits_fillStack closed 0 _).mono fun t member => .inr ?_
    obtain ⟨value, among, inside⟩ := List.mem_flatMap.mp member
    simp only [List.append_nil, List.mem_append]
    rcases List.mem_append.mp among with inLink | dropped
    · exact .inl (.inr (List.mem_flatMap.mpr ⟨value, inLink, inside⟩))
    · exact .inr (List.mem_flatMap.mpr ⟨value, List.mem_of_mem_drop dropped, inside⟩)
termination_by 8 * (Exp.linkSize link + Exp.listSize args) + 3
decreasing_by all_goals omega
theorem emits_evalLink (closed : sel.conv.Closed) (link : Option Exp) :
    Emits sel.conv (Exp.linkTemps link) (sel.evalLink link)
      fun values => values.flatMap Argument.temps := by
  cases link with
  | none =>
    rw [evalLink]
    exact emits_pure (by simp)
  | some link =>
    rw [evalLink]
    refine emits_bind (emits_evalArg closed link) fun value => emits_pure fun t member => .inr ?_
    rw [List.flatMap_singleton] at member
    exact List.mem_append_right _ member
termination_by 8 * Exp.linkSize link + 2
decreasing_by all_goals simp only [Exp.linkSize]; omega
theorem emits_evalArgs (closed : sel.conv.Closed) (args : List Exp) :
    Emits sel.conv (Exp.listTemps args) (sel.evalArgs args)
      fun values => values.flatMap Argument.temps := by
  cases args with
  | nil =>
    rw [evalArgs]
    exact emits_pure (by simp)
  | cons arg args =>
    rw [evalArgs, Exp.listTemps]
    refine emits_bind ((emits_evalArg closed arg).mono fun _ member =>
        .inr (List.mem_append_left _ member)) fun value =>
      emits_bind ((emits_evalArgs closed args).mono fun _ member =>
        .inr (List.mem_append_left _ (List.mem_append_right _ member))) fun rest =>
      emits_pure fun t member => .inr ?_
    rw [List.flatMap_cons] at member
    rcases List.mem_append.mp member with first | others
    · exact List.mem_append_left _ (List.mem_append_right _ first)
    · exact List.mem_append_right _ others
termination_by 8 * Exp.listSize args + 2
decreasing_by all_goals simp only [Exp.listSize]; have := Exp.size_pos arg; omega
theorem emits_evalArg (closed : sel.conv.Closed) (arg : Exp) :
    Emits sel.conv arg.temps (sel.evalArg arg) Argument.temps := by
  have covered : Emits sel.conv arg.temps (do
      let t ← sel.coverExp arg
      return Argument.reg t) Argument.temps :=
    emits_bind (emits_coverExp closed arg) fun t => emits_pure fun x member =>
      .inr (List.mem_append_right _ member)
  cases arg with
  | name label =>
    rw [evalArg]
    exact emits_pure fun x member => .inr member
  | temp t =>
    rw [evalArg]
    exact emits_pure fun x member => .inr member
  | call func link args =>
    rw [evalArg]
    exact emits_throw _
  | eseq stm exp =>
    rw [evalArg]
    exact emits_throw _
  | const value =>
    rw [evalArg]
    split
    next => exact emits_pure fun x member => .inr member
    next => exact covered
  | binop op left right => simp only [evalArg]; exact covered
  | mem address => simp only [evalArg]; exact covered
termination_by 8 * arg.size + 1
decreasing_by all_goals omega
end

theorem emits_coverList (closed : sel.conv.Closed) :
    ∀ stms : List Stm, Emits sel.conv (stms.flatMap Stm.temps) (sel.coverList stms) fun _ => []
  | [] => emits_pure (by simp)
  | stm :: stms => by
    rw [List.flatMap_cons]
    exact emits_bind ((emits_coverStm closed stm).mono fun _ member =>
        .inr (List.mem_append_left _ member)) fun _ =>
      (emits_coverList closed stms).mono fun _ member =>
        .inr (List.mem_append_left _ (List.mem_append_right _ member))

/-- The instructions selected for statements, when none were waiting. -/
theorem selectAll_temps (closed : sel.conv.Closed) {stms : List Stm} {supply : Supply}
    {code : List Instr} {s : Selection} (ran : sel.selectAll stms { supply } = .ok code s) :
    ∀ t ∈ code.flatMap Instr.temps,
      t ∈ sel.conv.machine ∨ t ∈ stms.flatMap Stm.temps ∨
        t.Between supply.temps s.supply.temps := by
  obtain ⟨_, u, covered, taken⟩ := bind_ok.mp ran
  obtain ⟨added, emitted, origin⟩ := (emits_coverList closed stms).origin _ _ _ covered
  cases taken
  rw [emitted]
  exact origin

end Covering

end Selector

end TreeCode
