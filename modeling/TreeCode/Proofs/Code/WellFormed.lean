import TreeCode.Code.Placeholder
import TreeCode.Proofs.Code.Coverage
import TreeCode.Proofs.Code.Temps

/-!
Selected code is well formed. The text of every instruction asks only for operands that the
instruction has, and every register that an instruction reads was known before or is written by an
instruction in front of it. Both follow from what a table says: its templates ask for no operand
that they do not list, and the templates of a pattern write the result before they read it.
-/

namespace TreeCode

open Tree

section Texts

/-- The placeholder of the condition suffix. -/
def conditionMark : List Char := [placeholderMark, 'c']

/-- A text asks for a condition if the mark stands in it. -/
theorem needsCondition_iff {text : List Char} :
    needsCondition text = true ↔ conditionMark <:+: text := by
  fun_induction needsCondition text with
  | case1 a b rest ih =>
    have here : conditionMark <+: a :: b :: rest ↔ a = placeholderMark ∧ b = 'c' := by
      simp [conditionMark, eq_comm]
    rw [List.infix_cons_iff, here, Bool.or_eq_true, ih, Bool.and_eq_true, decide_eq_true_eq,
      decide_eq_true_eq]
  | case2 text short =>
    refine iff_of_false Bool.false_ne_true fun inside => ?_
    have room := inside.length_le
    cases text with
    | nil => exact absurd room (by decide)
    | cons a rest =>
      cases rest with
      | nil => exact absurd room (by simp [conditionMark])
      | cons b rest => exact short a b rest rfl

/-- How many operands of each kind an instruction lists. -/
structure Arity where
  dst : Nat
  src : Nat
  labels : Nat
  imms : Nat

/-- Whether a piece asks for no operand that is not listed. -/
def Piece.listed (arity : Arity) : Piece → Bool
  | slot 'd' index => index < arity.dst
  | slot 's' index => index < arity.src
  | slot 'j' index => index < arity.labels
  | slot 'i' index => index < arity.imms
  | _ => true

/-- Whether a text asks for no operand that is not listed, and for no condition. -/
def Arity.suffices (arity : Arity) (text : List Char) : Bool :=
  (pieces .text text).all (Piece.listed arity) && !needsCondition text

/-- The operands that an instruction lists. -/
def Instr.arity (instr : Instr) : Arity :=
  { dst := instr.dst.length
    src := instr.src.length
    labels := instr.labels.length
    imms := instr.imms.length }

/-- The operands that a template lists. -/
def Template.arity (template : Template) : Arity :=
  { dst := template.dst.length
    src := template.src.length
    labels := template.labels.length
    imms := template.imms.length }

/-- An instruction has all operands that its text asks for, and no condition is left open in it. -/
structure Instr.Complete (instr : Instr) : Prop where
  dst : ∀ n, .slot 'd' n ∈ pieces .text instr.asm.toList → n < instr.dst.length
  src : ∀ n, .slot 's' n ∈ pieces .text instr.asm.toList → n < instr.src.length
  labels : ∀ n, .slot 'j' n ∈ pieces .text instr.asm.toList → n < instr.labels.length
  imms : ∀ n, .slot 'i' n ∈ pieces .text instr.asm.toList → n < instr.imms.length
  condition : ¬ conditionMark <:+: instr.asm.toList

/-- An instruction whose operands suffice for its text is complete. -/
theorem Instr.complete_of_suffices {instr : Instr}
    (enough : instr.arity.suffices instr.asm.toList = true) : instr.Complete := by
  simp only [Arity.suffices, Bool.and_eq_true, List.all_eq_true, Bool.not_eq_true'] at enough
  obtain ⟨listed, closed⟩ := enough
  exact
    { dst := fun n asked => of_decide_eq_true (listed _ asked)
      src := fun n asked => of_decide_eq_true (listed _ asked)
      labels := fun n asked => of_decide_eq_true (listed _ asked)
      imms := fun n asked => of_decide_eq_true (listed _ asked)
      condition := fun unfilled => by
        rw [needsCondition_iff.mpr unfilled] at closed
        cases closed }

theorem Instr.complete_atLabel (name : Label) : (Instr.atLabel name).Complete := by
  apply complete_of_suffices
  rw [atLabel, String.toList_ofList]
  rfl

/-- All comparisons. -/
def Tree.RelOp.all : List RelOp := [eq, ne, lt, gt, le, ge, ult, ule, ugt, uge]

theorem Tree.RelOp.mem_all (op : RelOp) : op ∈ RelOp.all := by
  cases op <;> decide

/-- Whether a template lists all operands that its text asks for, whichever condition is filled
in. -/
def Template.complete (condition : RelOp → String) (template : Template) : Bool :=
  if needsCondition template.asm.toList then
    RelOp.all.all fun op =>
      template.arity.suffices (fillCondition (condition op).toList template.asm.toList)
  else template.arity.suffices template.asm.toList

end Texts

section Order

/-- Whether templates read the result only after they have written it, and have written it in the
end; `written` says whether it is written before. -/
def inOrder (written : Bool) : List Template → Bool
  | [] => written
  | template :: templates =>
    (written || !template.src.contains .result) &&
      inOrder (written || template.dst.contains .result) templates

/-- Every register that the code reads is known or was written by the code before. -/
def ReadsWritten (known : Temp → Prop) : List Instr → Prop
  | [] => True
  | instr :: code =>
    (∀ t ∈ instr.src, known t) ∧ ReadsWritten (fun t => known t ∨ t ∈ instr.dst) code

/-- The registers that the code writes. -/
def written (code : List Instr) : List Temp := code.flatMap Instr.dst

variable {known known' : Temp → Prop} {code : List Instr}

/-- More may be known than is read. -/
theorem ReadsWritten.mono (reads : ReadsWritten known code) (more : ∀ t, known t → known' t) :
    ReadsWritten known' code := by
  induction code generalizing known known' with
  | nil => trivial
  | cons instr code ih =>
    exact ⟨fun t member => more t (reads.1 t member), ih reads.2 fun t => Or.imp_left (more t)⟩

/-- What the first part writes is known in the second. -/
theorem readsWritten_append {first second : List Instr} :
    ReadsWritten known (first ++ second) ↔
      ReadsWritten known first ∧ ReadsWritten (fun t => known t ∨ t ∈ written first) second := by
  induction first generalizing known with
  | nil => simp [ReadsWritten, written]
  | cons instr first ih =>
    simp only [List.cons_append, ReadsWritten, ih, written, List.flatMap_cons, List.mem_append,
      or_assoc, and_assoc]

/-- What an instruction reads was known or written in front of it. -/
theorem ReadsWritten.source {before behind : List Instr} {instr : Instr}
    (reads : ReadsWritten known (before ++ instr :: behind)) {t : Temp} (read : t ∈ instr.src) :
    known t ∨ ∃ earlier ∈ before, t ∈ earlier.dst :=
  ((readsWritten_append.mp reads).2.1 t read).imp_right List.mem_flatMap.mp

end Order

/-- Whether the templates of a pattern are complete and in order. The result of a statement needs
not be written. -/
def Pattern.orderly (condition : RelOp → String) (pattern : Pattern) : Bool :=
  pattern.emit.all (Template.complete condition) &&
    inOrder pattern.shape.isStatement pattern.emit

/-- Whether the templates that place arguments are complete and write their result. -/
def ArgTemplates.orderly (condition : RelOp → String) (args : ArgTemplates) : Bool :=
  [args.immToReg, args.labelToReg, args.regToReg].all (fun template =>
      template.complete condition && inOrder false [template]) &&
    (args.regToStack.complete condition && inOrder true [args.regToStack])

/-- Whether all templates of a table are complete and in order. -/
def InstructionSet.orderly (isa : InstructionSet) : Bool :=
  isa.patterns.all (Pattern.orderly isa.condition) && isa.args.orderly isa.condition

section Rules

variable {α β : Type} {known : Temp → Prop} {temps : α → List Temp} {temps' : β → List Temp}

/-- `act` only adds to the code, and what it adds is well formed where some registers are `known`,
whether it succeeds or not. When it succeeds, what it gives is known or written. It does not fail
because of the table. -/
structure Sound (known : Temp → Prop) (act : Select α) (temps : α → List Temp) : Prop where
  emits : ∀ s, ∃ added, (left (act s)).emitted.toList = s.emitted.toList ++ added ∧
    (∀ instr ∈ added, instr.Complete) ∧ ReadsWritten known added ∧
    after act s fun a _ => ∀ t ∈ temps a, known t ∨ t ∈ written added
  faultless : ∀ {s fault s'}, act s ≠ .error (.table fault) s'

theorem sound_pure {a : α} (given : ∀ t ∈ temps a, known t) :
    Sound known (pure a : Select α) temps where
  emits s := by
    refine ⟨[], (List.append_nil _).symm, by simp, trivial, ?_⟩
    intro b t ran
    obtain ⟨rfl, -⟩ := pure_ok.mp ran
    exact fun t member => .inl (given t member)
  faultless failed := by cases failed

theorem sound_throw {error : Error} (other : ∀ fault, error ≠ .table fault) :
    Sound known (throw error : Select α) temps where
  emits s := ⟨[], (List.append_nil _).symm, by simp, trivial,
    fun _ _ ran => (throw_ok.mp ran).elim⟩
  faultless failed := by
    cases failed
    exact other _ rfl

/-- Drawing a temporary emits nothing. -/
theorem sound_freshTemp : Sound known (liftM freshTemp : Select Temp) fun _ => [] where
  emits s := ⟨[], (List.append_nil _).symm, by simp, trivial, fun _ _ _ => by simp⟩
  faultless failed := by cases failed

theorem sound_atLabel (name : Label) :
    Sound known (Selection.emit (.atLabel name)) fun _ => [] where
  emits s := by
    refine ⟨[.atLabel name], Array.toList_push, ?_, ⟨by simp [Instr.atLabel], trivial⟩, ?_⟩
    · intro instr member
      rw [List.mem_singleton.mp member]
      exact Instr.complete_atLabel name
    · intro _ _ _
      simp
  faultless failed := by cases failed

/-- What comes second may also read what comes first has given. -/
theorem sound_bind {act : Select α} {next : α → Select β} (first : Sound known act temps)
    (rest : ∀ {s a t}, act s = .ok a t → Sound (fun r => known r ∨ r ∈ temps a) (next a) temps') :
    Sound known (act >>= next) temps' where
  emits s := by
    obtain ⟨added, emitted, complete, reads, given⟩ := first.emits s
    cases ran : act s with
    | error error t =>
      have failed : (act >>= next) s = .error error t := by rw [run_bind, ran]
      rw [ran, left_error] at emitted
      refine ⟨added, by rw [failed, left_error, emitted], complete, reads, ?_⟩
      intro b u again
      rw [failed] at again
      cases again
    | ok a t =>
      rw [ran, left_ok] at emitted
      obtain ⟨later, emitted', complete', reads', given'⟩ := (rest ran).emits t
      have same : (act >>= next) s = next a t := by rw [run_bind, ran]
      have available : ∀ r, known r ∨ r ∈ temps a → known r ∨ r ∈ written added :=
        fun r available => available.elim .inl (given a t ran r)
      refine ⟨added ++ later, ?_, ?_, ?_, ?_⟩
      · rw [same, emitted', emitted, List.append_assoc]
      · intro instr member
        exact (List.mem_append.mp member).elim (complete instr) (complete' instr)
      · exact readsWritten_append.mpr ⟨reads, reads'.mono available⟩
      · intro b u ended r member
        rw [same] at ended
        rw [written, List.flatMap_append, List.mem_append, ← or_assoc]
        exact (given' b u ended r member).imp_left (available r)
  faultless failed := by
    rcases bind_error failed with failed | ⟨a, t, ran, failed⟩
    · exact first.faultless failed
    · exact (rest ran).faultless failed

end Rules

namespace Selector

variable {sel : Selector} {rep : Repertoire} {operands : Operands} {capacity : Capacity}
  {known : Temp → Prop}

/-- All registers of the machine are known. -/
def Knows (sel : Selector) (known : Temp → Prop) : Prop := ∀ t ∈ sel.conv.machine, known t

theorem Knows.or (knows : sel.Knows known) (temps : List Temp) :
    sel.Knows fun t => known t ∨ t ∈ temps := fun t member => .inl (knows t member)

section Templates

variable {template : Template} {instr : Instr}

/-- What an instruction has of its template. -/
theorem instrOf_ok (made : sel.instrOf operands template = .ok instr) :
    template.dst.mapM (sel.register operands) = .ok instr.dst ∧
      template.src.mapM (sel.register operands) = .ok instr.src ∧
      instr.arity = template.arity ∧ sel.conditionText operands template.asm = .ok instr.asm := by
  obtain ⟨dst, dsts, made⟩ := except_bind_ok.mp made
  obtain ⟨src, srcs, made⟩ := except_bind_ok.mp made
  obtain ⟨labels, targets, made⟩ := except_bind_ok.mp made
  obtain ⟨imms, values, made⟩ := except_bind_ok.mp made
  obtain ⟨asm, text, made⟩ := except_bind_ok.mp made
  cases made
  refine ⟨dsts, srcs, ?_, text⟩
  simp [Instr.arity, Template.arity, mapM_length dsts, mapM_length srcs, mapM_length targets,
    mapM_length values]

/-- A complete template gives complete instructions. -/
theorem instrOf_complete (complete : template.complete sel.isa.condition = true)
    (made : sel.instrOf operands template = .ok instr) : instr.Complete := by
  obtain ⟨-, -, arity, text⟩ := instrOf_ok made
  apply Instr.complete_of_suffices
  rw [arity]
  unfold conditionText at text
  unfold Template.complete at complete
  split at complete
  next unfilled =>
    rw [if_pos unfilled] at text
    cases bound : operands.relop with
    | none => simp [bound] at text
    | some op =>
      simp only [bound, Except.ok.injEq] at text
      rw [← text, String.toList_ofList]
      exact List.all_eq_true.mp complete op op.mem_all
  next closed =>
    rw [if_neg closed, Except.ok.injEq] at text
    rw [← text]
    exact complete

/-- An instruction reads registers of the machine, operands and, if its template says so, the
result. -/
theorem instrOf_reads (made : sel.instrOf operands template = .ok instr) (knows : sel.Knows known)
    (regs : ∀ t ∈ operands.regs, known t)
    (result : .result ∈ template.src → ∀ t, operands.result = some t → known t) :
    ∀ t ∈ instr.src, known t := by
  intro t member
  obtain ⟨operand, listed, found⟩ := mem_mapM (instrOf_ok made).2.1 member
  rcases register_source found with register | operand | ⟨rfl, given⟩
  · exact knows t register
  · exact regs t operand
  · exact result listed t given

/-- A template that lists the result writes it. -/
theorem instrOf_writes (made : sel.instrOf operands template = .ok instr)
    (listed : .result ∈ template.dst) {t : Temp} (given : operands.result = some t) :
    t ∈ instr.dst := by
  obtain ⟨u, inside, found⟩ := mem_mapM_of_mem (instrOf_ok made).1 listed
  simp only [register, given, Except.ok.injEq] at found
  rw [found]
  exact inside

/-- The instructions of templates that are in order. -/
theorem readsWritten_templates {templates : List Template} {code : List Instr}
    (made : templates.mapM (sel.instrOf operands) = .ok code) {early : Bool}
    (order : inOrder early templates = true) (knows : sel.Knows known)
    (regs : ∀ t ∈ operands.regs, known t)
    (result : early = true → ∀ t, operands.result = some t → known t) :
    ReadsWritten known code ∧ ∀ t, operands.result = some t → known t ∨ t ∈ written code := by
  -- What the first instruction writes is known to the others.
  induction templates generalizing code early known with
  | nil =>
    cases made
    exact ⟨trivial, fun t given => .inl (result order t given)⟩
  | cons template templates ih =>
    obtain ⟨instr, code, first, others, rfl⟩ := mapM_cons_ok.mp made
    simp only [inOrder, Bool.and_eq_true, Bool.or_eq_true, Bool.not_eq_true',
      List.contains_eq_mem, decide_eq_false_iff_not] at order
    obtain ⟨reads, order⟩ := order
    have fine := instrOf_reads first knows regs fun listed =>
      result (reads.resolve_right (· listed))
    have writes : (early || decide (Operand.result ∈ template.dst)) = true →
        ∀ t, operands.result = some t → known t ∨ t ∈ instr.dst := by
      intro done t given
      rcases Bool.or_eq_true_iff.mp done with before | here
      · exact .inl (result before t given)
      · exact .inr (instrOf_writes first (of_decide_eq_true here) given)
    obtain ⟨rest, given⟩ := ih others order (knows.or _) (fun t member => .inl (regs t member))
      writes
    refine ⟨⟨fine, rest⟩, fun t result => ?_⟩
    rw [written, List.flatMap_cons, List.mem_append, ← or_assoc]
    exact given t result

/-- Templates that fit and are in order emit complete instructions, which read only what is known or
written before. The induction is on the templates, with the result known once one of them has
written it. -/
theorem sound_templates (has : operands.Has capacity) {templates : List Template}
    (fits : templates.all (Template.fits capacity sel.conv.registerNames) = true)
    (complete : templates.all (Template.complete sel.isa.condition) = true)
    (order : inOrder operands.result.isNone templates = true)
    (knows : sel.Knows known) (regs : ∀ t ∈ operands.regs, known t) :
    Sound known (sel.emitTemplates operands templates) fun _ => operands.result.toList := by
  obtain ⟨code, made⟩ := mapM_of_forall fun template member =>
    instrOf_of_fits has (List.all_eq_true.mp fits template member)
  have ran (s : Selection) : sel.emitTemplates operands templates s = .ok () (s.adding code) :=
    emitTemplates_ok.mpr ⟨code, made, rfl⟩
  obtain ⟨reads, given⟩ := readsWritten_templates made order knows regs
    (fun none t given => by rw [given] at none; cases none)
  exact
    { emits := fun s => by
        refine ⟨code, by rw [ran, left_ok, Selection.adding_emitted], ?_, reads, ?_⟩
        · intro instr member
          obtain ⟨template, listed, made⟩ := mem_mapM made member
          exact instrOf_complete (List.all_eq_true.mp complete template listed) made
        · exact fun _ _ _ t member => given t (Option.mem_toList.mp member)
      faultless := fun failed => by rw [ran] at failed; cases failed }

theorem emitTemplates_singleton (operands : Operands) (template : Template) :
    sel.emitTemplates operands [template] =
      (do Selection.emit (← sel.instrOf operands template)) := by
  simp [emitTemplates]

theorem sound_instr (has : operands.Has capacity)
    (fits : template.fits capacity sel.conv.registerNames = true)
    (complete : template.complete sel.isa.condition = true)
    (order : inOrder operands.result.isNone [template] = true)
    (knows : sel.Knows known) (regs : ∀ t ∈ operands.regs, known t) :
    Sound known (do Selection.emit (← sel.instrOf operands template))
      fun _ => operands.result.toList := by
  rw [← emitTemplates_singleton]
  exact sound_templates has (by simpa using fits) (by simpa using complete) order knows regs

end Templates

/-- The table serves a repertoire with templates that are complete and in order. -/
structure Orderly (sel : Selector) (rep : Repertoire) : Prop extends sel.Serves rep where
  closed : sel.conv.Closed
  orderly : sel.isa.orderly = true

section Arguments

/-- Moving an argument reads it and writes the register. -/
theorem sound_moveToRegister (orderly : sel.Orderly rep) (knows : sel.Knows known) (reg : Temp)
    {value : Argument} (given : ∀ t ∈ value.temps, known t) :
    Sound known (sel.moveToRegister reg value) fun _ => [reg] := by
  have fits := orderly.args
  have orders := orderly.orderly
  simp only [ArgTemplates.fits, InstructionSet.orderly, ArgTemplates.orderly, List.all_cons,
    List.all_nil, Bool.and_true, Bool.and_eq_true] at fits orders
  obtain ⟨⟨⟨imm, label⟩, copy⟩, -⟩ := fits
  obtain ⟨-, ⟨immOrder, labelOrder, copyOrder⟩, -⟩ := orders
  cases value with
  | imm value =>
    exact sound_instr ⟨by simp, by simp, by simp, by simp, by simp⟩ imm immOrder.1 immOrder.2 knows
      (by simp)
  | label name =>
    exact sound_instr ⟨by simp, by simp, by simp, by simp, by simp⟩ label labelOrder.1
      labelOrder.2 knows (by simp)
  | reg source =>
    exact sound_instr ⟨by simp, by simp, by simp, by simp, by simp⟩ copy copyOrder.1 copyOrder.2
      knows given

/-- An argument that is brought into a register is known from then on. -/
theorem sound_inRegister (orderly : sel.Orderly rep) (knows : sel.Knows known) {value : Argument}
    (given : ∀ t ∈ value.temps, known t) :
    Sound known (sel.inRegister value) fun t => [t] := by
  have moved : Sound known (do
      let t ← freshTemp
      sel.moveToRegister t value
      return t) fun t => [t] := by
    refine sound_bind sound_freshTemp fun {_ reg _} _ => ?_
    exact sound_bind (sound_moveToRegister orderly (knows.or _) reg fun t member =>
      .inl (given t member)) fun _ => sound_pure fun t member => .inr member
  cases value with
  | imm value => exact moved
  | label name => exact moved
  | reg source => exact sound_pure given

theorem sound_moveToStack (orderly : sel.Orderly rep) (knows : sel.Knows known) (index : Nat)
    {value : Argument} (given : ∀ t ∈ value.temps, known t) :
    Sound known (sel.moveToStack index value) fun _ => [] := by
  have fits := orderly.args
  have orders := orderly.orderly
  simp only [ArgTemplates.fits, InstructionSet.orderly, ArgTemplates.orderly,
    Bool.and_eq_true] at fits orders
  refine sound_bind (sound_inRegister orderly knows given) fun {_ reg _} _ => ?_
  refine sound_instr ⟨by simp, by simp, by simp, by simp, by simp⟩ fits.2 orders.2.2.1 orders.2.2.2
    (knows.or _) fun t member => ?_
  simp only [List.mem_cons, List.not_mem_nil, or_false] at member
  rcases member with rfl | rfl
  · exact .inl (knows _ orderly.closed.stackPointer)
  · exact .inr (List.mem_singleton_self t)

theorem sound_fillRegisters (orderly : sel.Orderly rep) (registers : List Temp)
    (values : List Argument) {known : Temp → Prop} (knows : sel.Knows known)
    (given : ∀ t ∈ values.flatMap Argument.temps, known t) :
    Sound known (sel.fillRegisters registers values) fun _ => [] := by
  induction registers generalizing values known with
  | nil => exact sound_pure (by simp)
  | cons reg registers ih =>
    cases values with
    | nil => exact sound_pure (by simp)
    | cons value values =>
      rw [List.flatMap_cons, List.forall_mem_append] at given
      exact sound_bind (sound_moveToRegister orderly knows reg given.1) fun _ =>
        ih values (knows.or _) fun t member => .inl (given.2 t member)

theorem sound_fillStack (orderly : sel.Orderly rep) (index : Nat) (values : List Argument)
    {known : Temp → Prop} (knows : sel.Knows known)
    (given : ∀ t ∈ values.flatMap Argument.temps, known t) :
    Sound known (sel.fillStack index values) fun _ => [] := by
  induction values generalizing index known with
  | nil => exact sound_pure (by simp)
  | cons value values ih =>
    rw [List.flatMap_cons, List.forall_mem_append] at given
    exact sound_bind (sound_moveToStack orderly knows index given.1) fun _ =>
      ih (index + 1) (knows.or _) fun t member => .inl (given.2 t member)

end Arguments

section Covering

/-- A computation is sound wherever the registers of the machine and `needs` are known. -/
def SoundGiven {α : Type} (sel : Selector) (needs : List Temp) (act : Select α)
    (temps : α → List Temp) : Prop :=
  ∀ ⦃known⦄, sel.Knows known → (∀ t ∈ needs, known t) → Sound known act temps

/-- Covering the root of a tree fails only if no pattern matches, and the cause says so. -/
theorem Orderly.cover (orderly : sel.Orderly rep) (tree : Node) :
    (sel.isa.cover tree = .error (.uncovered tree)) ∨
      ∃ found, sel.isa.cover tree = .ok found ∧ found.val.pattern ∈ sel.isa.patterns ∧
        found.val.pattern.shape.match? tree = some found.val.bindings := by
  rcases orderly.toServes.cover tree with ⟨error, -, none⟩ | found
  · exact .inl (by simp [InstructionSet.cover, none])
  · exact .inr found

mutual
/-- The instructions for a statement are complete and read what the statement reads, or what they
have written. -/
theorem sound_coverStm (orderly : sel.Orderly rep) (stm : Stm) :
    sel.SoundGiven stm.temps (sel.coverStm stm) fun _ => [] := by
  have covered : sel.SoundGiven stm.temps (match sel.isa.cover (.stm stm) with
      | .error error => throw error
      | .ok ⟨found, _⟩ => sel.coverMatch found none) fun _ => [] := by
    intro known knows given
    rcases orderly.cover (.stm stm) with failed | ⟨found, ok, member, matched⟩
    · rw [failed]
      exact sound_throw (by simp)
    · have smaller : found.val.load < stm.size := found.property
      rw [ok]
      exact sound_coverMatch orderly found.val member matched none
        (by rw [Shape.isStatement_of_match_stm matched]; rfl) knows
        fun t member => given t (Shape.match_temps matched member)
  cases stm with
  | seq first second =>
    intro known knows given
    rw [Stm.temps, List.forall_mem_append] at given
    rw [coverStm]
    exact sound_bind (sound_coverStm orderly first knows given.1) fun _ =>
      sound_coverStm orderly second (knows.or _) fun t member => .inl (given.2 t member)
  | label name =>
    intro known knows given
    rw [coverStm]
    exact sound_atLabel name
  | move dst src => simp only [coverStm]; exact covered
  | exp e => simp only [coverStm]; exact covered
  | jump target labels => simp only [coverStm]; exact covered
  | cjump op left right yes no => simp only [coverStm]; exact covered
termination_by 8 * stm.size
decreasing_by
  · omega
  · simp only [Stm.size]; omega
  · simp only [Stm.size]; omega
theorem sound_coverExp (orderly : sel.Orderly rep) (exp : Exp) :
    sel.SoundGiven exp.temps (sel.coverExp exp) fun t => [t] := by
  have covered : sel.SoundGiven exp.temps (match sel.isa.cover (.exp exp) with
      | .error error => throw error
      | .ok ⟨found, _⟩ => do
        let result ← freshTemp
        sel.coverMatch found (some result)
        return result) fun t => [t] := by
    intro known knows given
    rcases orderly.cover (.exp exp) with failed | ⟨found, ok, member, matched⟩
    · rw [failed]
      exact sound_throw (by simp)
    · have smaller : found.val.load < exp.size := found.property
      rw [ok]
      refine sound_bind sound_freshTemp fun {_ result _} _ => ?_
      refine sound_bind (sound_coverMatch orderly found.val member matched (some result)
        (by rw [Shape.isStatement_of_match_exp matched]; rfl) (knows.or _) fun t member => ?_)
        fun _ => sound_pure fun t member => .inr member
      exact .inl (given t (Shape.match_temps matched member))
  cases exp with
  | temp t =>
    intro known knows given
    rw [coverExp]
    exact sound_pure given
  | eseq stm value =>
    intro known knows given
    rw [Exp.temps, List.forall_mem_append] at given
    rw [coverExp]
    exact sound_bind (sound_coverStm orderly stm knows given.1) fun _ =>
      sound_coverExp orderly value (knows.or _) fun t member => .inl (given.2 t member)
  | const value => simp only [coverExp]; exact covered
  | name label => simp only [coverExp]; exact covered
  | binop op left right => simp only [coverExp]; exact covered
  | mem address => simp only [coverExp]; exact covered
  | call func link args => simp only [coverExp]; exact covered
termination_by 8 * exp.size
decreasing_by
  · omega
  · simp only [Exp.size]; omega
  · simp only [Exp.size]; omega
/-- The registers of a match are evaluated before its instructions read them. -/
theorem sound_coverMatch (orderly : sel.Orderly rep) (found : Match)
    (member : found.pattern ∈ sel.isa.patterns) {tree : Node}
    (matched : found.pattern.shape.match? tree = some found.bindings) (result : Option Temp)
    (needed : result.isSome = !found.pattern.shape.isStatement) :
    sel.SoundGiven found.bindings.temps (sel.coverMatch found result) fun _ => result.toList := by
  intro known knows given
  have fits := orderly.fits found.pattern member
  have orders := orderly.orderly
  simp only [Pattern.fits, InstructionSet.orderly, Bool.and_eq_true] at fits orders
  have order := List.all_eq_true.mp orders.1 found.pattern member
  simp only [Pattern.orderly, Bool.and_eq_true] at order
  rw [Bindings.temps, List.forall_mem_append] at given
  rw [coverMatch]
  refine sound_bind (sound_coverAll orderly found.bindings.regs knows given.1)
    fun {_ regs _} ran => ?_
  refine sound_bind (sound_placeCall orderly found.bindings.call (knows.or _) fun t member =>
    .inl (given.2 t member)) fun _ => ?_
  have has := Pattern.match_has matched (coverAll_length ran) needed
  have stated : result.isNone = found.pattern.shape.isStatement := by
    rw [← Option.not_isSome, needed, Bool.not_not]
  exact sound_templates has fits.2 order.1 (stated ▸ order.2) ((knows.or _).or _)
    fun t member => .inl (.inr member)
termination_by 8 * found.load + 5
decreasing_by all_goals simp only [Match.load, Bindings.load]; omega
theorem sound_coverAll (orderly : sel.Orderly rep) (exps : List Exp) :
    sel.SoundGiven (Exp.listTemps exps) (sel.coverAll exps) id := by
  cases exps with
  | nil =>
    intro known knows given
    rw [coverAll]
    exact sound_pure (by simp)
  | cons exp exps =>
    intro known knows given
    rw [Exp.listTemps, List.forall_mem_append] at given
    rw [coverAll]
    refine sound_bind (sound_coverExp orderly exp knows given.1) fun {_ reg _} _ => ?_
    refine sound_bind (sound_coverAll orderly exps (knows.or _) fun t member =>
      .inl (given.2 t member)) fun _ => sound_pure fun t member => ?_
    rcases List.mem_cons.mp member with rfl | among
    · exact .inl (.inr (List.mem_singleton_self t))
    · exact .inr among
termination_by 8 * Exp.listSize exps + 1
decreasing_by all_goals simp only [Exp.listSize]; have := Exp.size_pos exp; omega
theorem sound_placeCall (orderly : sel.Orderly rep) (call : Option CallOperands) :
    sel.SoundGiven (CallOperands.temps call) (sel.placeCall call) fun _ => [] := by
  cases call with
  | none =>
    intro known knows given
    rw [placeCall]
    exact sound_pure (by simp)
  | some call =>
    rw [placeCall]
    exact sound_placeOperands orderly call.link call.args
termination_by 8 * CallOperands.load call + 4
decreasing_by all_goals simp only [CallOperands.load]; omega
/-- The link and the arguments of a call are known when they are placed. -/
theorem sound_placeOperands (orderly : sel.Orderly rep) (link : Option Exp) (args : List Exp) :
    sel.SoundGiven (Exp.linkTemps link ++ Exp.listTemps args) (sel.placeOperands link args)
      fun _ => [] := by
  intro known knows given
  rw [List.forall_mem_append] at given
  rw [placeOperands]
  split
  next => exact sound_throw (by simp)
  next =>
    refine sound_bind (sound_evalLink orderly link knows given.1) fun {_ linked _} _ => ?_
    refine sound_bind (sound_evalArgs orderly args (knows.or _) fun t member =>
      .inl (given.2 t member)) fun {_ values _} _ => ?_
    refine sound_bind (sound_fillRegisters orderly _ values ((knows.or _).or _) fun t member =>
      .inr member) fun _ => ?_
    refine sound_fillStack orderly 0 _ (((knows.or _).or _).or _) fun t member => ?_
    obtain ⟨value, among, inside⟩ := List.mem_flatMap.mp member
    rcases List.mem_append.mp among with inLink | dropped
    · exact .inl (.inl (.inr (List.mem_flatMap.mpr ⟨value, inLink, inside⟩)))
    · exact .inl (.inr (List.mem_flatMap.mpr ⟨value, List.mem_of_mem_drop dropped, inside⟩))
termination_by 8 * (Exp.linkSize link + Exp.listSize args) + 3
decreasing_by all_goals omega
theorem sound_evalLink (orderly : sel.Orderly rep) (link : Option Exp) :
    sel.SoundGiven (Exp.linkTemps link) (sel.evalLink link)
      fun values => values.flatMap Argument.temps := by
  cases link with
  | none =>
    intro known knows given
    rw [evalLink]
    exact sound_pure (by simp)
  | some link =>
    intro known knows given
    rw [evalLink]
    refine sound_bind (sound_evalArg orderly link knows given) fun _ =>
      sound_pure fun t member => ?_
    rw [List.flatMap_singleton] at member
    exact .inr member
termination_by 8 * Exp.linkSize link + 2
decreasing_by all_goals simp only [Exp.linkSize]; omega
/-- The values of arguments are known once all of them are evaluated. -/
theorem sound_evalArgs (orderly : sel.Orderly rep) (args : List Exp) :
    sel.SoundGiven (Exp.listTemps args) (sel.evalArgs args)
      fun values => values.flatMap Argument.temps := by
  cases args with
  | nil =>
    intro known knows given
    rw [evalArgs]
    exact sound_pure (by simp)
  | cons arg args =>
    intro known knows given
    rw [Exp.listTemps, List.forall_mem_append] at given
    rw [evalArgs]
    refine sound_bind (sound_evalArg orderly arg knows given.1) fun _ => ?_
    refine sound_bind (sound_evalArgs orderly args (knows.or _) fun t member =>
      .inl (given.2 t member)) fun _ => sound_pure fun t member => ?_
    rw [List.flatMap_cons] at member
    rcases List.mem_append.mp member with first | others
    · exact .inl (.inr first)
    · exact .inr others
termination_by 8 * Exp.listSize args + 2
decreasing_by all_goals simp only [Exp.listSize]; have := Exp.size_pos arg; omega
theorem sound_evalArg (orderly : sel.Orderly rep) (arg : Exp) :
    sel.SoundGiven arg.temps (sel.evalArg arg) Argument.temps := by
  have covered : sel.SoundGiven arg.temps (do
      let t ← sel.coverExp arg
      return Argument.reg t) Argument.temps := fun known knows given =>
    sound_bind (sound_coverExp orderly arg knows given) fun _ =>
      sound_pure fun t member => .inr member
  cases arg with
  | name label =>
    intro known knows given
    rw [evalArg]
    exact sound_pure (by simp [Argument.temps])
  | temp t =>
    intro known knows given
    rw [evalArg]
    exact sound_pure given
  | call func link args =>
    intro known knows given
    rw [evalArg]
    exact sound_throw (by simp)
  | eseq stm exp =>
    intro known knows given
    rw [evalArg]
    exact sound_throw (by simp)
  | const value =>
    rw [evalArg]
    split
    next => exact fun known knows given => sound_pure (by simp [Argument.temps])
    next => exact covered
  | binop op left right => simp only [evalArg]; exact covered
  | mem address => simp only [evalArg]; exact covered
termination_by 8 * arg.size + 1
decreasing_by all_goals omega
end

end Covering

end Selector

/-- The instructions that are waiting are well formed: what they read was issued before or is
written by one in front. -/
structure Selection.WellFormed (s : Selection) : Prop where
  complete : ∀ instr ∈ s.emitted.toList, instr.Complete
  reads : ReadsWritten (·.index < s.supply.temps) s.emitted.toList

theorem Selection.wellFormed_nil (supply : Supply) : Selection.WellFormed { supply } where
  complete instr member := absurd member (by simp)
  reads := trivial

/-- What is waiting after a statement has been covered, where the registers that were issued before
are known. -/
theorem Selector.coverStm_wellFormed {sel : Selector} {rep : Repertoire} (orderly : sel.Orderly rep)
    {s : Selection} (registers : Tree.Below s.supply.temps sel.conv.machine)
    (waiting : s.WellFormed) {stm : Stm} (issued : Tree.Below s.supply.temps stm.temps) :
    (∀ instr ∈ (left (sel.coverStm stm s)).emitted.toList, instr.Complete) ∧
      ReadsWritten (·.index < s.supply.temps) (left (sel.coverStm stm s)).emitted.toList := by
  obtain ⟨added, emitted, complete, reads, -⟩ :=
    (sound_coverStm orderly stm registers issued).emits s
  rw [emitted]
  constructor
  · exact List.forall_mem_append.mpr ⟨waiting.complete, complete⟩
  · exact readsWritten_append.mpr ⟨waiting.reads, reads.mono fun t => .inl⟩

end TreeCode
