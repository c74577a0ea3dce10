import TreeCode.Code.Selection
import TreeCode.Proofs.Machine.Renaming

/-!
Selection does not depend on names. A shape matches a renamed tree where it matches the tree, the
same pattern is picked, and templates become the same instructions under other names.
-/

namespace TreeCode

open Tree

/-- The operands of a call under other names. -/
def CallOperands.rename (ρ : Renaming) (call : CallOperands) : CallOperands :=
  ⟨Exp.renameLink ρ call.link, Exp.renameList ρ call.args⟩

/-- What a shape binds, under other names. -/
def Bindings.rename (ρ : Renaming) (b : Bindings) : Bindings :=
  { b with
    regs := b.regs.map (Exp.rename ρ)
    labels := b.labels.map ρ.label
    call := b.call.map (CallOperands.rename ρ) }

/-- A match under other names. -/
def Match.rename (ρ : Renaming) (found : Match) : Match :=
  { found with bindings := found.bindings.rename ρ }

/-- The operands of a template under other names. -/
def Operands.rename (ρ : Renaming) (operands : Operands) : Operands :=
  { operands with
    regs := operands.regs.map ρ.temp
    labels := operands.labels.map ρ.label
    result := operands.result.map ρ.temp }

/-- An argument under other names. -/
def Argument.rename (ρ : Renaming) : Argument → Argument
  | imm value => imm value
  | label name => label (ρ.label name)
  | reg t => reg (ρ.temp t)

/-- An instruction under other names. -/
def Instr.rename (ρ : Renaming) (instr : Instr) : Instr :=
  { instr with
    dst := instr.dst.map ρ.temp
    src := instr.src.map ρ.temp
    labels := instr.labels.map ρ.label
    implicitDefs := instr.implicitDefs.map ρ.temp
    implicitUses := instr.implicitUses.map ρ.temp }

section Matching

variable (ρ : Renaming)

/-- A shape matches a renamed expression exactly if it matches the expression, with renamed
bindings. -/
theorem Shape.bindExp_rename (shape : Shape) (e : Exp) (b : Bindings) :
    shape.bindExp? (e.rename ρ) (b.rename ρ) = (shape.bindExp? e b).map (Bindings.rename ρ) := by
  induction shape generalizing e b with
  | reg => simp [Shape.bindExp?, Bindings.rename]
  | temp =>
    cases e with
    | temp t => simp [Shape.bindExp?, Bindings.rename]
    | const | name | binop | mem | call | eseq => rfl
  | imm range =>
    cases e with
    | const value =>
      by_cases fits : range.contains value = true
      · simp [Shape.bindExp?, Bindings.rename, fits]
      · simp [Shape.bindExp?, fits]
    | temp | name | binop | mem | call | eseq => rfl
  | const expected =>
    cases e with
    | const value =>
      by_cases same : expected = value
      · simp [Shape.bindExp?, same]
      · simp [Shape.bindExp?, same]
    | temp | name | binop | mem | call | eseq => rfl
  | name =>
    cases e with
    | name label => simp [Shape.bindExp?, Bindings.rename]
    | const | temp | binop | mem | call | eseq => rfl
  | binop op left right ihLeft ihRight =>
    cases e with
    | binop actual l r =>
      by_cases same : op = actual
      · simp only [Shape.bindExp?, Exp.rename, same, if_true, ihLeft]
        cases left.bindExp? l b with
        | none => rfl
        | some middle => exact ihRight r middle
      · simp [Shape.bindExp?, same]
    | const | temp | name | mem | call | eseq => rfl
  | mem address ih =>
    cases e with
    | mem e => exact ih e b
    | const | temp | name | binop | call | eseq => rfl
  | call func ih =>
    cases e with
    | call f link args =>
      simp only [Shape.bindExp?, Exp.rename, ih]
      cases func.bindExp? f b <;> rfl
    | const | temp | name | binop | mem | eseq => rfl
  | move | exp | jump | cjump => cases e <;> rfl

theorem Shape.bindStm_rename (shape : Shape) (stm : Stm) (b : Bindings) :
    shape.bindStm? (stm.rename ρ) (b.rename ρ) =
      (shape.bindStm? stm b).map (Bindings.rename ρ) := by
  cases shape with
  | move dst src =>
    cases stm with
    | move d s =>
      simp only [Shape.bindStm?, Stm.rename, Shape.bindExp_rename]
      cases dst.bindExp? d b with
      | none => rfl
      | some middle => exact src.bindExp_rename ρ s middle
    | exp | jump | cjump | seq | label => rfl
  | exp shape =>
    cases stm with
    | exp e => exact shape.bindExp_rename ρ e b
    | move | jump | cjump | seq | label => rfl
  | jump target =>
    cases stm with
    | jump e labels =>
      simp only [Shape.bindStm?, Stm.rename, Shape.bindExp_rename]
      cases target.bindExp? e b with
      | none => rfl
      | some middle => simp [Bindings.rename]
    | move | exp | cjump | seq | label => rfl
  | cjump op left right =>
    cases stm with
    | cjump actual l r yes no =>
      by_cases same : (op.all (· == actual)) = true
      · have compared : left.bindExp? (l.rename ρ) { b.rename ρ with relop := some actual } =
            (left.bindExp? l { b with relop := some actual }).map (Bindings.rename ρ) :=
          left.bindExp_rename ρ l { b with relop := some actual }
        simp only [Shape.bindStm?, Stm.rename, same, if_true]
        rw [compared]
        cases left.bindExp? l { b with relop := some actual } with
        | none => rfl
        | some middle =>
          simp only [Option.map_some, Shape.bindExp_rename]
          cases right.bindExp? r middle with
          | none => rfl
          | some after => simp [Bindings.rename]
      · simp [Shape.bindStm?, same]
    | move | exp | jump | seq | label => rfl
  | reg | temp | imm | const | name | binop | mem | call => cases stm <;> rfl

theorem Shape.match_rename (shape : Shape) (tree : Node) :
    shape.match? (tree.rename ρ) = (shape.match? tree).map (Bindings.rename ρ) := by
  cases tree with
  | exp e =>
    by_cases statement : shape.isStatement = true
    · simp [Shape.match?, statement]
    · simp only [Shape.match?, Node.rename, statement]
      exact shape.bindExp_rename ρ e {}
  | stm s =>
    by_cases statement : shape.isStatement = true
    · simp only [Shape.match?, Node.rename, statement, if_true]
      exact shape.bindStm_rename ρ s {}
    · simp [Shape.match?, statement]

/-- Renaming does not change which of two matches is better. -/
theorem InstructionSet.improve_rename (tree : Node) (best : Option Match) (pattern : Pattern) :
    improve (tree.rename ρ) (best.map (Match.rename ρ)) pattern =
      (improve tree best pattern).map (Match.rename ρ) := by
  unfold improve
  rw [Shape.match_rename]
  cases pattern.shape.match? tree with
  | none => rfl
  | some bindings =>
    cases best with
    | none => rfl
    | some current =>
      by_cases better : current.pattern.shape.size < pattern.shape.size
      · simp [Match.rename, better]
      · simp [Match.rename, better]

/-- The same pattern is picked for a renamed tree. -/
theorem InstructionSet.pick_rename (isa : InstructionSet) (tree : Node) :
    isa.pick (tree.rename ρ) = (isa.pick tree).map (Match.rename ρ) := by
  have folded : ∀ (patterns : List Pattern) (best : Option Match),
      patterns.foldl (improve (tree.rename ρ)) (best.map (Match.rename ρ)) =
        (patterns.foldl (improve tree) best).map (Match.rename ρ) := by
    intro patterns
    induction patterns with
    | nil => exact fun _ => rfl
    | cons pattern patterns ih =>
      intro best
      rw [List.foldl_cons, List.foldl_cons, improve_rename, ih]
  exact folded isa.patterns none

/-- Renaming does not change how much of a tree is left to cover. -/
theorem Match.load_rename (found : Match) : (found.rename ρ).load = found.load := by
  have calls : ∀ call : Option CallOperands,
      CallOperands.load (call.map (CallOperands.rename ρ)) = CallOperands.load call := by
    intro call
    cases call with
    | none => rfl
    | some call =>
      change Exp.linkSize (Exp.renameLink ρ call.link) +
        Exp.listSize (Exp.renameList ρ call.args) = _
      rw [Exp.linkSize_rename, Exp.listSize_rename]
      rfl
  change Exp.listSize (found.bindings.regs.map (Exp.rename ρ)) +
    CallOperands.load (found.bindings.call.map (CallOperands.rename ρ)) = _
  rw [← Exp.renameList_eq, Exp.listSize_rename, calls]
  rfl

/-- The match that covers a tree, under other names. -/
def InstructionSet.renameCover {tree : Node} (found : { found : Match // found.load < tree.size }) :
    { found : Match // found.load < (tree.rename ρ).size } :=
  ⟨found.val.rename ρ, by rw [Match.load_rename, Node.size_rename]; exact found.property⟩

/-- The cover of a renamed tree is the renamed cover. -/
theorem InstructionSet.cover_rename (isa : InstructionSet) (tree : Node) :
    isa.cover (tree.rename ρ) = renameOutcome ρ (renameCover ρ) (isa.cover tree) := by
  unfold cover
  rw [pick_rename]
  cases isa.pick tree with
  | none => rfl
  | some found =>
    by_cases smaller : found.load < tree.size
    · have smaller' : (found.rename ρ).load < (tree.rename ρ).size := by
        rw [Match.load_rename, Node.size_rename]
        exact smaller
      simp only [Option.map_some, dif_pos smaller, dif_pos smaller']
      rfl
    · have larger : ¬ (found.rename ρ).load < (tree.rename ρ).size := by
        rw [Match.load_rename, Node.size_rename]
        exact smaller
      simp only [Option.map_some, dif_neg smaller, dif_neg larger]
      rfl

end Matching

/-- The second state of selection is the first one under other names. -/
structure Selection.Like (ρ : Renaming) (last : Supply) (s t : Selection) : Prop where
  supply : Paired ρ last s.supply t.supply
  emitted : t.emitted = s.emitted.map (Instr.rename ρ)

instance : Mirrored Selection where
  supply := Selection.supply
  withSupply s supply := { s with supply }
  supply_withSupply _ _ := rfl
  Like := Selection.Like
  paired like := like.supply
  redrawn like after := { like with supply := after }

variable {α β : Type} {ρ : Renaming} {last : Supply}

namespace Selection

theorem mirrors_freshTemp :
    Mirrors ρ last ρ.temp (liftM freshTemp : Select Temp) (liftM freshTemp) :=
  mirrors_draw freshMirrors_freshTemp (fun _ => rfl) (fun _ => rfl)

theorem mirrors_except {out : α → β} {first : Except Error α} {second : Except Error β}
    (same : second = renameOutcome ρ out first) :
    Mirrors ρ last out (liftM first : Select α) (liftM second) := by
  rw [same]
  cases first with
  | ok a => exact mirrors_pure rfl
  | error error => exact mirrors_throw rfl

theorem mirrors_emit (instr : Instr) :
    Mirrors ρ last id (emit instr) (emit (instr.rename ρ)) := by
  refine mirrors_modify (fun _ => rfl) ?_
  intro s t like
  refine { like with emitted := ?_ }
  rw [like.emitted, Array.map_push]

theorem mirrors_take : Mirrors ρ last (List.map (Instr.rename ρ)) take take := by
  refine mirrors_of_same (fun _ => rfl) ?_
  intro s t like
  have same : t.emitted.toList = s.emitted.toList.map (Instr.rename ρ) := by
    rw [like.emitted, Array.toList_map]
  unfold take
  rw [same]
  exact .ok { like with emitted := by simp }

end Selection

namespace Selector

open Selection

variable {sel : Selector}

section Templates

/-- An operand of renamed operands is the renamed register; registers of the machine are kept. -/
theorem register_rename (keeps : ρ.Keeps sel.conv) (operands : Operands) (operand : Operand) :
    sel.register (operands.rename ρ) operand =
      renameOutcome ρ ρ.temp (sel.register operands operand) := by
  cases operand with
  | result =>
    simp only [register, Operands.rename]
    cases operands.result <;> rfl
  | reg index =>
    simp only [register, Operands.rename, List.getElem?_map]
    cases operands.regs[index]? <;> rfl
  | machine name =>
    cases found : sel.conv.registers.find? name with
    | none =>
      simp only [register, found]
      rfl
    | some t =>
      simp only [register, found, renameOutcome]
      rw [keeps.machine t (mem_of_lookup found)]

theorem labelAt_rename (operands : Operands) (asm : String) (index : Nat) :
    labelAt (operands.rename ρ) asm index =
      renameOutcome ρ ρ.label (labelAt operands asm index) := by
  simp only [labelAt, Operands.rename, List.getElem?_map]
  cases operands.labels[index]? <;> rfl

theorem immediateAt_rename (operands : Operands) (asm : String) (index : Nat) :
    immediateAt (operands.rename ρ) asm index =
      renameOutcome ρ id (immediateAt operands asm index) := by
  simp only [immediateAt, Operands.rename]
  cases operands.imms[index]? <;> rfl

theorem conditionText_rename (operands : Operands) (asm : String) :
    sel.conditionText (operands.rename ρ) asm =
      renameOutcome ρ id (sel.conditionText operands asm) := by
  unfold conditionText
  by_cases needed : needsCondition asm.toList = true
  · simp only [needed, if_true, Operands.rename]
    cases operands.relop <;> rfl
  · simp only [needed]
    rfl

theorem clobbered_rename (keeps : ρ.Keeps sel.conv) :
    sel.clobbered.map ρ.temp = sel.clobbered := by
  have callerSaved := keeps.registers keeps.closed.callerSaved
  unfold clobbered
  split
  next => exact callerSaved
  next =>
    rw [List.map_append, callerSaved, List.map_singleton, keeps.returnValue]

/-- A template filled with renamed operands is the renamed instruction. -/
theorem instrOf_rename (keeps : ρ.Keeps sel.conv) (operands : Operands) (template : Template) :
    sel.instrOf (operands.rename ρ) template =
      renameOutcome ρ (Instr.rename ρ) (sel.instrOf operands template) := by
  unfold instrOf
  refine renameOutcome_bind (renameOutcome_mapM (register_rename keeps operands) _) fun _ => ?_
  refine renameOutcome_bind (renameOutcome_mapM (register_rename keeps operands) _) fun _ => ?_
  refine renameOutcome_bind (renameOutcome_mapM (labelAt_rename operands _) _) fun _ => ?_
  refine renameOutcome_bind (renameOutcome_mapM (immediateAt_rename operands _) _) fun _ => ?_
  refine renameOutcome_bind (conditionText_rename operands _) fun _ => ?_
  refine renameOutcome_pure ?_
  cases called : template.isCall with
  | false => simp [Instr.rename]
  | true => simp [Instr.rename, clobbered_rename keeps, keeps.arguments]

theorem mirrors_instr (keeps : ρ.Keeps sel.conv) (operands : Operands) (template : Template) :
    Mirrors ρ last id (do emit (← sel.instrOf operands template) : Select Unit)
      (do emit (← sel.instrOf (operands.rename ρ) template)) :=
  mirrors_bind (mirrors_except (instrOf_rename keeps operands template)) mirrors_emit

/-- Templates emit renamed instructions. -/
theorem mirrors_emitTemplates (keeps : ρ.Keeps sel.conv) (operands : Operands)
    (templates : List Template) :
    Mirrors ρ last id (sel.emitTemplates operands templates)
      (sel.emitTemplates (operands.rename ρ) templates) := by
  induction templates with
  | nil => exact mirrors_pure rfl
  | cons template templates ih =>
    exact mirrors_bind (mirrors_except (instrOf_rename keeps operands template)) fun instr =>
      mirrors_bind (mirrors_emit instr) fun _ => ih

end Templates

section Arguments

theorem mirrors_moveToRegister (keeps : ρ.Keeps sel.conv) (reg : Temp) (value : Argument) :
    Mirrors ρ last id (sel.moveToRegister reg value)
      (sel.moveToRegister (ρ.temp reg) (value.rename ρ)) := by
  cases value with
  | imm | label | reg => exact mirrors_instr keeps _ _

theorem mirrors_inRegister (keeps : ρ.Keeps sel.conv) (value : Argument) :
    Mirrors ρ last ρ.temp (sel.inRegister value) (sel.inRegister (value.rename ρ)) := by
  cases value with
  | reg t => exact mirrors_pure rfl
  | imm value =>
    exact mirrors_bind mirrors_freshTemp fun t =>
      mirrors_bind (mirrors_moveToRegister keeps t (.imm value)) fun _ => mirrors_pure rfl
  | label name =>
    exact mirrors_bind mirrors_freshTemp fun t =>
      mirrors_bind (mirrors_moveToRegister keeps t (.label name)) fun _ => mirrors_pure rfl

theorem mirrors_moveToStack (keeps : ρ.Keeps sel.conv) (index : Nat) (value : Argument) :
    Mirrors ρ last id (sel.moveToStack index value) (sel.moveToStack index (value.rename ρ)) := by
  refine mirrors_bind (mirrors_inRegister keeps value) fun t => ?_
  have stored := @mirrors_instr ρ last sel keeps
    { regs := [sel.conv.stackPointer, t], imms := [sel.conv.argumentOffset index] }
    sel.isa.args.regToStack
  simp only [Operands.rename, List.map_cons, List.map_nil, keeps.stackPointer] at stored
  exact stored

/-- Arguments are moved to registers on both sides. -/
theorem mirrors_fillRegisters (keeps : ρ.Keeps sel.conv) (registers : List Temp)
    (values : List Argument) :
    Mirrors ρ last id (sel.fillRegisters registers values)
      (sel.fillRegisters (registers.map ρ.temp) (values.map (Argument.rename ρ))) := by
  induction registers generalizing values with
  | nil => exact mirrors_pure rfl
  | cons reg registers ih =>
    cases values with
    | nil => exact mirrors_pure rfl
    | cons value values =>
      exact mirrors_bind (mirrors_moveToRegister keeps reg value) fun _ => ih values

theorem mirrors_fillStack (keeps : ρ.Keeps sel.conv) (index : Nat) (values : List Argument) :
    Mirrors ρ last id (sel.fillStack index values)
      (sel.fillStack index (values.map (Argument.rename ρ))) := by
  induction values generalizing index with
  | nil => exact mirrors_pure rfl
  | cons value values ih =>
    exact mirrors_bind (mirrors_moveToStack keeps index value) fun _ => ih (index + 1)

/-- Renaming does not change how many arguments are on the stack. -/
theorem stackPositions_rename (link : Option Exp) (args : List Exp) :
    sel.stackPositions (Exp.renameLink ρ link) (Exp.renameList ρ args) =
      sel.stackPositions link args := by
  rw [Exp.renameLink_eq, Exp.renameList_eq, stackPositions, stackPositions, List.length_map]
  cases link <;> rfl

end Arguments

/-- A statement that is neither a sequence nor a label is covered by a match. -/
theorem coverStm_match {stm : Stm} (whole : ∀ first second, stm ≠ .seq first second)
    (unmarked : ∀ name, stm ≠ .label name) :
    sel.coverStm stm = (do sel.coverMatch (← sel.isa.cover (.stm stm)).val none) := by
  cases stm with
  | seq first second => exact absurd rfl (whole first second)
  | label name => exact absurd rfl (unmarked name)
  | move | exp | jump | cjump =>
    simp only [coverStm]
    cases sel.isa.cover _ <;> rfl

/-- An expression that is neither a temporary nor begins with a statement is covered by a match,
whose result is a fresh temporary. -/
theorem coverExp_match {exp : Exp} (bare : ∀ stm value, exp ≠ .eseq stm value)
    (computed : ∀ t, exp ≠ .temp t) :
    sel.coverExp exp = (do
      let found ← sel.isa.cover (.exp exp)
      let result ← freshTemp
      sel.coverMatch found.val (some result)
      return result) := by
  cases exp with
  | eseq stm value => exact absurd rfl (bare stm value)
  | temp t => exact absurd rfl (computed t)
  | const | name | binop | mem | call =>
    simp only [coverExp]
    cases sel.isa.cover _ <;> rfl

mutual
/-- Selection commutes with renaming: the instructions for a renamed statement are the renamed ones,
and so are errors. -/
theorem mirrors_coverStm (keeps : ρ.Keeps sel.conv) (stm : Stm) :
    Mirrors ρ last id (sel.coverStm stm) (sel.coverStm (stm.rename ρ)) := by
  have covered : Mirrors ρ last id
      (do sel.coverMatch (← sel.isa.cover (.stm stm)).val none : Select Unit)
      (do sel.coverMatch (← sel.isa.cover (.stm (stm.rename ρ))).val none) := by
    refine mirrors_bind (mirrors_except (sel.isa.cover_rename ρ (.stm stm))) fun found => ?_
    have smaller : found.val.load < stm.size := found.property
    exact mirrors_coverMatch keeps found.val none
  cases stm with
  | seq first second =>
    rw [Stm.rename, coverStm, coverStm]
    exact mirrors_bind (mirrors_coverStm keeps first) fun _ => mirrors_coverStm keeps second
  | label name =>
    rw [Stm.rename, coverStm, coverStm]
    exact mirrors_emit (.atLabel name)
  | move | exp | jump | cjump =>
    rw [coverStm_match (by simp) (by simp), coverStm_match (by simp) (by simp)]
    exact covered
termination_by 8 * stm.size
decreasing_by
  · omega
  · simp only [Stm.size]; omega
  · simp only [Stm.size]; omega
theorem mirrors_coverExp (keeps : ρ.Keeps sel.conv) (exp : Exp) :
    Mirrors ρ last ρ.temp (sel.coverExp exp) (sel.coverExp (exp.rename ρ)) := by
  have covered : Mirrors ρ last ρ.temp
      (do
        let found ← sel.isa.cover (.exp exp)
        let result ← freshTemp
        sel.coverMatch found.val (some result)
        return result : Select Temp)
      (do
        let found ← sel.isa.cover (.exp (exp.rename ρ))
        let result ← freshTemp
        sel.coverMatch found.val (some result)
        return result) := by
    refine mirrors_bind (mirrors_except (sel.isa.cover_rename ρ (.exp exp))) fun found => ?_
    have smaller : found.val.load < exp.size := found.property
    exact mirrors_bind mirrors_freshTemp fun result =>
      mirrors_bind (mirrors_coverMatch keeps found.val (some result)) fun _ => mirrors_pure rfl
  cases exp with
  | temp t =>
    rw [Exp.rename, coverExp, coverExp]
    exact mirrors_pure rfl
  | eseq stm value =>
    rw [Exp.rename, coverExp, coverExp]
    exact mirrors_bind (mirrors_coverStm keeps stm) fun _ => mirrors_coverExp keeps value
  | const | name | binop | mem | call =>
    rw [coverExp_match (by simp) (by simp), coverExp_match (by simp) (by simp)]
    exact covered
termination_by 8 * exp.size
decreasing_by
  · omega
  · simp only [Exp.size]; omega
  · simp only [Exp.size]; omega
theorem mirrors_coverMatch (keeps : ρ.Keeps sel.conv) (found : Match) (result : Option Temp) :
    Mirrors ρ last id (sel.coverMatch found result)
      (sel.coverMatch (found.rename ρ) (result.map ρ.temp)) := by
  rw [coverMatch, coverMatch]
  exact mirrors_bind (mirrors_coverAll keeps found.bindings.regs) fun _ =>
    mirrors_bind (mirrors_placeCall keeps found.bindings.call) fun _ =>
    mirrors_emitTemplates keeps _ found.pattern.emit
termination_by 8 * found.load + 5
decreasing_by all_goals simp only [Match.load, Bindings.load]; omega
theorem mirrors_coverAll (keeps : ρ.Keeps sel.conv) (exps : List Exp) :
    Mirrors ρ last (List.map ρ.temp) (sel.coverAll exps)
      (sel.coverAll (exps.map (Exp.rename ρ))) := by
  cases exps with
  | nil =>
    rw [List.map_nil, coverAll]
    exact mirrors_pure rfl
  | cons exp exps =>
    rw [List.map_cons, coverAll, coverAll]
    exact mirrors_bind (mirrors_coverExp keeps exp) fun _ =>
      mirrors_bind (mirrors_coverAll keeps exps) fun _ => mirrors_pure rfl
termination_by 8 * Exp.listSize exps + 1
decreasing_by all_goals simp only [Exp.listSize]; have := Exp.size_pos exp; omega
theorem mirrors_placeCall (keeps : ρ.Keeps sel.conv) (call : Option CallOperands) :
    Mirrors ρ last id (sel.placeCall call)
      (sel.placeCall (call.map (CallOperands.rename ρ))) := by
  cases call with
  | none =>
    rw [Option.map_none, placeCall]
    exact mirrors_pure rfl
  | some call =>
    rw [Option.map_some, placeCall, placeCall]
    exact mirrors_placeOperands keeps call.link call.args
termination_by 8 * CallOperands.load call + 4
decreasing_by all_goals simp only [CallOperands.load]; omega
theorem mirrors_placeOperands (keeps : ρ.Keeps sel.conv) (link : Option Exp) (args : List Exp) :
    Mirrors ρ last id (sel.placeOperands link args)
      (sel.placeOperands (Exp.renameLink ρ link) (Exp.renameList ρ args)) := by
  rw [placeOperands, placeOperands, stackPositions_rename]
  by_cases crowded : sel.conv.outgoing < sel.stackPositions link args
  · rw [if_pos crowded, if_pos crowded]
    exact mirrors_throw rfl
  · rw [if_neg crowded, if_neg crowded]
    refine mirrors_bind (mirrors_evalLink keeps link) fun linked => ?_
    refine mirrors_bind (mirrors_evalArgs keeps args) fun values => ?_
    have filled := @mirrors_fillRegisters ρ last sel keeps sel.conv.arguments values
    have stacked := @mirrors_fillStack ρ last sel keeps 0
      (linked ++ values.drop sel.conv.arguments.length)
    rw [keeps.arguments] at filled
    rw [List.map_append, List.map_drop] at stacked
    exact mirrors_bind filled fun _ => stacked
termination_by 8 * (Exp.linkSize link + Exp.listSize args) + 3
decreasing_by all_goals omega
theorem mirrors_evalLink (keeps : ρ.Keeps sel.conv) (link : Option Exp) :
    Mirrors ρ last (List.map (Argument.rename ρ)) (sel.evalLink link)
      (sel.evalLink (Exp.renameLink ρ link)) := by
  cases link with
  | none =>
    rw [Exp.renameLink, evalLink]
    exact mirrors_pure rfl
  | some link =>
    rw [Exp.renameLink, evalLink, evalLink]
    exact mirrors_bind (mirrors_evalArg keeps link) fun _ => mirrors_pure rfl
termination_by 8 * Exp.linkSize link + 2
decreasing_by all_goals simp only [Exp.linkSize]; omega
/-- Arguments are evaluated in the same order, to renamed values. -/
theorem mirrors_evalArgs (keeps : ρ.Keeps sel.conv) (args : List Exp) :
    Mirrors ρ last (List.map (Argument.rename ρ)) (sel.evalArgs args)
      (sel.evalArgs (Exp.renameList ρ args)) := by
  cases args with
  | nil =>
    rw [Exp.renameList, evalArgs]
    exact mirrors_pure rfl
  | cons arg args =>
    rw [Exp.renameList, evalArgs, evalArgs]
    exact mirrors_bind (mirrors_evalArg keeps arg) fun _ =>
      mirrors_bind (mirrors_evalArgs keeps args) fun _ => mirrors_pure rfl
termination_by 8 * Exp.listSize args + 2
decreasing_by all_goals simp only [Exp.listSize]; have := Exp.size_pos arg; omega
theorem mirrors_evalArg (keeps : ρ.Keeps sel.conv) (arg : Exp) :
    Mirrors ρ last (Argument.rename ρ) (sel.evalArg arg) (sel.evalArg (arg.rename ρ)) := by
  have covered : Mirrors ρ last (Argument.rename ρ)
      (do
        let t ← sel.coverExp arg
        return Argument.reg t)
      (do
        let t ← sel.coverExp (arg.rename ρ)
        return Argument.reg t) :=
    mirrors_bind (mirrors_coverExp keeps arg) fun _ => mirrors_pure rfl
  cases arg with
  | name label =>
    rw [Exp.rename, evalArg, evalArg]
    exact mirrors_pure rfl
  | temp t =>
    rw [Exp.rename, evalArg, evalArg]
    exact mirrors_pure rfl
  | call func link args =>
    rw [Exp.rename, evalArg, evalArg]
    exact mirrors_throw rfl
  | eseq stm exp =>
    rw [Exp.rename, evalArg, evalArg]
    exact mirrors_throw rfl
  | const value =>
    rw [Exp.rename, evalArg]
    by_cases fits : sel.isa.args.imm.contains value = true
    · rw [if_pos fits]
      exact mirrors_pure rfl
    · rw [if_neg fits]
      exact covered
  | binop op left right => simp only [Exp.rename, evalArg] at covered ⊢; exact covered
  | mem address => simp only [Exp.rename, evalArg] at covered ⊢; exact covered
termination_by 8 * arg.size + 1
decreasing_by all_goals omega
end

/-- A list of renamed statements. -/
theorem mirrors_coverList (keeps : ρ.Keeps sel.conv) (stms : List Stm) :
    Mirrors ρ last id (sel.coverList stms) (sel.coverList (stms.map (Stm.rename ρ))) := by
  induction stms with
  | nil => exact mirrors_pure rfl
  | cons stm stms ih => exact mirrors_bind (mirrors_coverStm keeps stm) fun _ => ih

/-- The instructions for renamed statements are those for the statements, renamed. -/
theorem mirrors_selectAll (keeps : ρ.Keeps sel.conv) (stms : List Stm) :
    Mirrors ρ last (List.map (Instr.rename ρ)) (sel.selectAll stms)
      (sel.selectAll (stms.map (Stm.rename ρ))) :=
  mirrors_bind (mirrors_coverList keeps stms) fun _ => mirrors_take

end Selector

end TreeCode
