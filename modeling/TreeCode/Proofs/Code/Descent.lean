import TreeCode.Proofs.Code.Sizes
import TreeCode.Proofs.Code.Steps
import TreeCode.Target.Arch

/-!
Covering comes to an end. The recursion that takes a tree apart with the patterns of a table goes on
to parts of the tree that the picked pattern binds. No pattern that says something of a tree binds
all of it, so these parts are smaller than the tree, and the recursion is no deeper than the tree is
large, whatever is done below that depth.
-/

namespace TreeCode

open Tree

/-- The operands of a call that are still to be covered. -/
def CallOperands.exps : Option CallOperands → List Exp
  | none => []
  | some call => call.link.toList ++ call.args

/-- All that is bound and still to be covered. -/
def Bindings.exps (b : Bindings) : List Exp := b.regs ++ CallOperands.exps b.call

/-- What the pattern that is picked for a tree binds. -/
def InstructionSet.boundParts (isa : InstructionSet) (tree : Node) : List Node :=
  match isa.pick tree with
  | none => []
  | some found => found.bindings.exps.map .exp

/-- The trees that covering a tree goes on with. -/
def InstructionSet.parts (isa : InstructionSet) : Node → List Node
  | .exp (.temp _) => []
  | .exp (.eseq stm value) => [.stm stm, .exp value]
  | .stm (.seq first second) => [.stm first, .stm second]
  | .stm (.label _) => []
  | tree => isa.boundParts tree

section Sizes

theorem Tree.Node.size_pos (tree : Node) : 0 < tree.size := by
  cases tree with
  | exp e => exact e.size_pos
  | stm s => exact s.size_pos

theorem size_le_listSize {e : Exp} {exps : List Exp} (member : e ∈ exps) :
    e.size ≤ Exp.listSize exps := by
  induction exps with
  | nil => cases member
  | cons first exps ih =>
    rw [Exp.listSize]
    rcases List.mem_cons.mp member with rfl | among
    · exact Nat.le_add_right _ _
    · exact Nat.le_trans (ih among) (Nat.le_add_left _ _)

/-- Each part that is bound counts toward what is left to cover. -/
theorem Bindings.size_le_load {b : Bindings} {e : Exp} (member : e ∈ b.exps) :
    e.size ≤ b.load := by
  rw [Bindings.load]
  rcases List.mem_append.mp member with reg | operand
  · have := size_le_listSize reg
    omega
  · cases called : b.call with
    | none =>
      rw [called] at operand
      cases operand
    | some call =>
      rw [called] at operand
      rw [CallOperands.load]
      rcases List.mem_append.mp operand with link | arg
      · rw [Option.mem_toList.mp link, Exp.linkSize]
        omega
      · have := size_le_listSize arg
        omega

end Sizes

section Progress

variable {isa : InstructionSet} {tree : Node} {found : Match}

/-- A match of a pattern that is not a bare register leaves less than the tree, unless the tree is a
temporary, which is never matched. -/
theorem InstructionSet.pick_load (inspected : ∀ pattern ∈ isa.patterns, pattern.shape ≠ .reg)
    (other : ∀ t, tree ≠ .exp (.temp t)) (picked : isa.pick tree = some found) :
    found.load < tree.size := by
  obtain ⟨member, matched⟩ := pick_matches picked
  by_cases inspects : found.pattern.shape.inspects = true
  · exact Shape.match_load inspects matched
  · have bare := inspected found.pattern member
    cases shape : found.pattern.shape with
    | reg => exact absurd shape bare
    | temp =>
      rw [shape] at matched
      rcases Shape.match_bound matched with ⟨e, rfl, -, bound⟩ | ⟨_, _, statement, _⟩
      · obtain ⟨t, rfl, -⟩ := Shape.bind_temp bound
        exact absurd rfl (other t)
      · cases statement
    | _ => simp [shape, Shape.inspects] at inspects

theorem InstructionSet.cover_of_pick (picked : isa.pick tree = some found)
    (smaller : found.load < tree.size) : isa.cover tree = .ok ⟨found, smaller⟩ := by
  unfold cover
  split
  next none => rw [none] at picked; cases picked
  next again =>
    rw [picked] at again
    cases again
    simp [smaller]

theorem InstructionSet.cover_of_none (nothing : isa.pick tree = none) :
    isa.cover tree = .error (.uncovered tree) := by
  unfold cover
  split
  next => rfl
  next found => rw [nothing] at found; cases found

/-- The trees that covering goes on with are smaller. -/
theorem InstructionSet.parts_smaller
    (inspected : ∀ pattern ∈ isa.patterns, pattern.shape ≠ .reg) :
    ∀ part ∈ isa.parts tree, part.size < tree.size := by
  have bound (other : ∀ t, tree ≠ .exp (.temp t)) :
      ∀ part ∈ isa.boundParts tree, part.size < tree.size := by
    unfold boundParts
    cases picked : isa.pick tree with
    | none => simp
    | some found =>
      intro part member
      obtain ⟨e, among, rfl⟩ := List.mem_map.mp member
      exact Nat.lt_of_le_of_lt (Bindings.size_le_load among) (pick_load inspected other picked)
  cases tree with
  | exp e =>
    cases e with
    | temp t => exact List.forall_mem_nil _
    | eseq stm value =>
      simp only [parts, List.forall_mem_cons, Node.size, Exp.size]
      exact ⟨by omega, by omega, List.forall_mem_nil _⟩
    | _ => exact bound (by simp)
  | stm s =>
    cases s with
    | seq first second =>
      simp only [parts, List.forall_mem_cons, Node.size, Stm.size]
      exact ⟨by omega, by omega, List.forall_mem_nil _⟩
    | label name => exact List.forall_mem_nil _
    | _ => exact bound (by simp)

end Progress

/-- A way to cover statements and expressions. -/
structure Covering where
  stm : Stm → Select Unit
  exp : Exp → Select Temp

/-- Two ways do the same to a tree. -/
def Covering.Agree (first second : Covering) : Node → Prop
  | .exp e => first.exp e = second.exp e
  | .stm s => first.stm s = second.stm s

theorem Covering.Agree.trans {first second third : Covering} {tree : Node}
    (same : first.Agree second tree) (next : second.Agree third tree) :
    first.Agree third tree := by
  cases tree with
  | exp e => exact Eq.trans same next
  | stm s => exact Eq.trans same next

namespace Selector

/-- Evaluate an argument of a call, where what needs code is covered in a given way. -/
def argVia (sel : Selector) (via : Covering) : Exp → Select Argument
  | .name label => return .label label
  | .temp t => return .reg t
  | .call func link args => throw (.misplacedArgument (.call func link args))
  | .eseq stm exp => throw (.misplacedArgument (.eseq stm exp))
  | .const value =>
    if sel.isa.args.imm.contains value then return .imm value
    else do
      let t ← via.exp (.const value)
      return .reg t
  | arg => do
    let t ← via.exp arg
    return .reg t

/-- Place the operands of a call, where what needs code is covered in a given way. -/
def placeVia (sel : Selector) (via : Covering) : Option CallOperands → Select Unit
  | none => pure ()
  | some { link, args } =>
    if sel.conv.outgoing < sel.stackPositions link args then
      throw (.convention
        (.tooManyArguments (sel.stackPositions link args) sel.conv.name sel.conv.outgoing))
    else do
      let link ← link.toList.mapM (sel.argVia via)
      let values ← args.mapM (sel.argVia via)
      sel.fillRegisters sel.conv.arguments values
      sel.fillStack 0 (link ++ values.drop sel.conv.arguments.length)

/-- Emit the instructions for a match, where what it binds is covered in a given way. -/
def matchVia (sel : Selector) (via : Covering) (found : Match) (result : Option Temp) :
    Select Unit := do
  let regs ← found.bindings.regs.mapM via.exp
  sel.placeVia via found.bindings.call
  sel.emitTemplates (found.bindings.operands regs result) found.pattern.emit

/-- Cover a statement with the pattern that is picked for it. -/
def pickedStm (sel : Selector) (via : Covering) (stm : Stm) : Select Unit :=
  match sel.isa.pick (.stm stm) with
  | none => throw (.uncovered (.stm stm))
  | some found => sel.matchVia via found none

/-- Cover an expression with the pattern that is picked for it. -/
def pickedExp (sel : Selector) (via : Covering) (exp : Exp) : Select Temp :=
  match sel.isa.pick (.exp exp) with
  | none => throw (.uncovered (.exp exp))
  | some found => do
    let result ← freshTemp
    sel.matchVia via found (some result)
    return result

/-- One step of the recursion: a tree is taken apart, and its parts are covered in a given way.
Nothing is asked of their sizes. -/
def coverVia (sel : Selector) (via : Covering) : Covering where
  stm
    | .seq first second => do
      via.stm first
      via.stm second
    | .label name => Selection.emit (.atLabel name)
    | stm => sel.pickedStm via stm
  exp
    | .temp t => pure t
    | .eseq stm value => do
      via.stm stm
      via.exp value
    | exp => sel.pickedExp via exp

/-- The recursion down to a depth. What lies deeper is covered in the way `below`. -/
def coverTo (sel : Selector) (below : Covering) : Nat → Covering
  | 0 => below
  | depth + 1 => sel.coverVia (sel.coverTo below depth)

/-- The way in which the selector covers trees. -/
def covering (sel : Selector) : Covering where
  stm := sel.coverStm
  exp := sel.coverExp

section Locality

variable {sel : Selector} {via via' : Covering}

theorem argVia_congr {arg : Exp} (same : via.exp arg = via'.exp arg) :
    sel.argVia via arg = sel.argVia via' arg := by
  cases arg <;> simp only [argVia, same]

theorem placeVia_congr {call : Option CallOperands}
    (same : ∀ e ∈ CallOperands.exps call, via.exp e = via'.exp e) :
    sel.placeVia via call = sel.placeVia via' call := by
  cases call with
  | none => rfl
  | some call =>
    obtain ⟨inLink, inArgs⟩ := List.forall_mem_append.mp same
    have links : call.link.toList.mapM (sel.argVia via) = call.link.toList.mapM (sel.argVia via') :=
      mapM_congr fun e member => argVia_congr (inLink e member)
    have values : call.args.mapM (sel.argVia via) = call.args.mapM (sel.argVia via') :=
      mapM_congr fun e member => argVia_congr (inArgs e member)
    simp only [placeVia, links, values]

theorem matchVia_congr {found : Match} {result : Option Temp}
    (same : ∀ e ∈ found.bindings.exps, via.exp e = via'.exp e) :
    sel.matchVia via found result = sel.matchVia via' found result := by
  obtain ⟨inRegs, inCall⟩ := List.forall_mem_append.mp same
  rw [matchVia, matchVia, mapM_congr inRegs, placeVia_congr inCall]

/-- Two ways of covering that agree on the parts of a tree agree on its match. -/
theorem matchVia_of_pick {tree : Node} {found : Match} {result : Option Temp}
    (same : ∀ part ∈ sel.isa.boundParts tree, via.Agree via' part)
    (picked : sel.isa.pick tree = some found) :
    sel.matchVia via found result = sel.matchVia via' found result := by
  rw [InstructionSet.boundParts, picked] at same
  exact matchVia_congr fun e member => same (.exp e) (List.mem_map_of_mem member)

/-- A step of the recursion asks for the parts of the tree only. -/
theorem coverVia_local {tree : Node} (same : ∀ part ∈ sel.isa.parts tree, via.Agree via' part) :
    (sel.coverVia via).Agree (sel.coverVia via') tree := by
  cases tree with
  | exp e =>
    have picked (bound : ∀ part ∈ sel.isa.boundParts (.exp e), via.Agree via' part) :
        sel.pickedExp via e = sel.pickedExp via' e := by
      unfold pickedExp
      cases found : sel.isa.pick (.exp e) with
      | none => rfl
      | some found' => simp only [matchVia_of_pick bound found]
    cases e with
    | temp t => rfl
    | eseq stm value =>
      have first : via.stm stm = via'.stm stm := same (.stm stm) List.mem_cons_self
      have second : via.exp value = via'.exp value :=
        same (.exp value) (List.mem_cons_of_mem _ List.mem_cons_self)
      simp only [Covering.Agree, coverVia, first, second]
    | _ => exact picked same
  | stm s =>
    have picked (bound : ∀ part ∈ sel.isa.boundParts (.stm s), via.Agree via' part) :
        sel.pickedStm via s = sel.pickedStm via' s := by
      unfold pickedStm
      cases found : sel.isa.pick (.stm s) with
      | none => rfl
      | some found' => exact matchVia_of_pick bound found
    cases s with
    | seq one two =>
      have first : via.stm one = via'.stm one := same (.stm one) List.mem_cons_self
      have second : via.stm two = via'.stm two :=
        same (.stm two) (List.mem_cons_of_mem _ List.mem_cons_self)
      simp only [Covering.Agree, coverVia, first, second]
    | label name => rfl
    | _ => exact picked same

end Locality

section Equations

variable (sel : Selector)

theorem coverAll_eq (exps : List Exp) : sel.coverAll exps = exps.mapM sel.coverExp := by
  induction exps with
  | nil => rw [coverAll, List.mapM_nil]
  | cons exp exps ih => rw [coverAll, List.mapM_cons, ih]

theorem evalArg_eq (arg : Exp) : sel.evalArg arg = sel.argVia sel.covering arg := by
  cases arg <;> simp only [evalArg, argVia, covering]

theorem evalArgs_eq (args : List Exp) :
    sel.evalArgs args = args.mapM (sel.argVia sel.covering) := by
  induction args with
  | nil => rw [evalArgs, List.mapM_nil]
  | cons arg args ih => rw [evalArgs, List.mapM_cons, evalArg_eq, ih]

theorem evalLink_eq (link : Option Exp) :
    sel.evalLink link = link.toList.mapM (sel.argVia sel.covering) := by
  cases link with
  | none => rw [evalLink, Option.toList_none, List.mapM_nil]
  | some link => simp [evalLink, evalArg_eq]

theorem placeCall_eq (call : Option CallOperands) :
    sel.placeCall call = sel.placeVia sel.covering call := by
  cases call with
  | none => rw [placeCall, placeVia]
  | some call => rw [placeCall, placeOperands, placeVia, evalLink_eq, evalArgs_eq]

theorem coverMatch_eq (found : Match) (result : Option Temp) :
    sel.coverMatch found result = sel.matchVia sel.covering found result := by
  rw [coverMatch, matchVia, coverAll_eq, placeCall_eq]
  rfl

end Equations

section Depth

variable {sel : Selector} (inspected : ∀ pattern ∈ sel.isa.patterns, pattern.shape ≠ .reg)
include inspected

theorem pickedStm_covering (stm : Stm) : sel.pickedStm sel.covering stm =
    match sel.isa.cover (.stm stm) with
    | .error error => throw error
    | .ok ⟨found, _⟩ => sel.coverMatch found none := by
  unfold pickedStm
  cases picked : sel.isa.pick (.stm stm) with
  | none => rw [InstructionSet.cover_of_none picked]
  | some found =>
    rw [InstructionSet.cover_of_pick picked
      (InstructionSet.pick_load inspected (by simp) picked)]
    exact (sel.coverMatch_eq found none).symm

theorem pickedExp_covering {exp : Exp} (other : ∀ t, exp ≠ .temp t) :
    sel.pickedExp sel.covering exp =
      match sel.isa.cover (.exp exp) with
      | .error error => throw error
      | .ok ⟨found, _⟩ => do
        let result ← freshTemp
        sel.coverMatch found (some result)
        return result := by
  unfold pickedExp
  cases picked : sel.isa.pick (.exp exp) with
  | none => rw [InstructionSet.cover_of_none picked]
  | some found =>
    rw [InstructionSet.cover_of_pick picked
      (InstructionSet.pick_load inspected (by simpa using other) picked)]
    simp only [coverMatch_eq]

/-- The selector goes on with the parts of a tree in the way in which it covers the tree. -/
theorem coverVia_covering (tree : Node) : (sel.coverVia sel.covering).Agree sel.covering tree := by
  cases tree with
  | exp e =>
    change (sel.coverVia sel.covering).exp e = sel.coverExp e
    cases e with
    | temp t => rw [coverExp]; rfl
    | eseq stm value => rw [coverExp]; rfl
    | _ =>
      simp only [coverExp]
      exact pickedExp_covering inspected (by simp)
  | stm s =>
    change (sel.coverVia sel.covering).stm s = sel.coverStm s
    cases s with
    | seq first second => rw [coverStm]; rfl
    | label name => rw [coverStm]; rfl
    | _ =>
      simp only [coverStm]
      exact pickedStm_covering inspected _

/-- The recursion is no deeper than the tree is large: each part is smaller than its tree, and below
the smallest trees nothing is asked for any more. -/
theorem coverTo_agrees (below : Covering) {depth : Nat} {tree : Node} (deep : tree.size ≤ depth) :
    (sel.coverTo below depth).Agree sel.covering tree := by
  induction depth generalizing tree with
  | zero => exact absurd tree.size_pos (Nat.not_lt.mpr deep)
  | succ depth ih =>
    have parts : ∀ part ∈ sel.isa.parts tree, (sel.coverTo below depth).Agree sel.covering part := by
      intro part member
      have smaller := InstructionSet.parts_smaller inspected part member
      exact ih (by omega)
    exact (coverVia_local parts).trans (coverVia_covering inspected tree)

end Depth

end Selector

/-- In the tables of the machines no pattern is a bare register, and none has more than one call. -/
theorem Arch.shapes_checked (arch : Arch) :
    ∀ pattern ∈ arch.target.isa.patterns, pattern.shape.calls ≤ 1 ∧ pattern.shape ≠ .reg := by
  have checked : (arch.target.isa.patterns.all fun pattern =>
      decide (pattern.shape.calls ≤ 1 ∧ pattern.shape ≠ .reg)) = true := by
    cases arch with
    | x64 => rfl
    | arm64 => rfl
    | i386 => rfl
  intro pattern member
  exact of_decide_eq_true (List.all_eq_true.mp checked pattern member)

/-- Matching accounts for all nodes, and covering ends. A shape with at most one call that matches a
tree covers its nodes but for those of what it binds, at open leaves and with a call, and how many
operands it binds is known from the shape, but for the labels that a jump lists. In a table without
bare registers, such as those of the machines, covering a tree goes on with smaller trees only: what
it does depends on what is done to these, and once the recursion is as deep as the tree is large, it
does what the selector does, whatever would be done further down. -/
theorem covering_ends :
    (∀ shape tree b, Shape.calls shape ≤ 1 → shape.match? tree = some b →
      tree.size = shape.size + Exp.listSize (opened shape.leaves b.regs) +
        CallOperands.load b.call) ∧
    (∀ shape tree b, Shape.match? shape tree = some b →
      b.regs.length = shape.capacity.regs ∧ b.imms.length = shape.capacity.imms ∧
        b.labels.length = shape.capacity.labels + tree.targets.length) ∧
    (∀ arch, ∀ pattern ∈ (Arch.target arch).isa.patterns,
      pattern.shape.calls ≤ 1 ∧ pattern.shape ≠ .reg) ∧
    ∀ sel : Selector, (∀ pattern ∈ sel.isa.patterns, pattern.shape ≠ .reg) →
      (∀ tree, ∀ part ∈ sel.isa.parts tree, part.size < tree.size) ∧
      (∀ via via' tree, (∀ part ∈ sel.isa.parts tree, via.Agree via' part) →
        (sel.coverVia via).Agree (sel.coverVia via') tree) ∧
      ∀ below depth tree, tree.size ≤ depth →
        (sel.coverTo below depth).Agree sel.covering tree :=
  ⟨fun _ _ _ => Shape.match_size, fun _ _ _ => Shape.match_counts, Arch.shapes_checked,
    fun _ inspected => ⟨fun _ => InstructionSet.parts_smaller inspected,
      fun _ _ _ => Selector.coverVia_local,
      fun below _ _ => Selector.coverTo_agrees inspected below⟩⟩

/-- A call with a link, and with a statement inside its argument. -/
def wrappedCall : Stm :=
  .exp (.call (.name "f") (some (.temp ⟨20⟩))
    [.binop .plus (.eseq (.move (.temp ⟨21⟩) (.const 1)) (.temp ⟨21⟩)) (.const 2)])

theorem wrappedCall_covering_ends :
    ∃ found, Arch.x64.target.isa.pick (.stm wrappedCall) = some found ∧
      found.pattern.shape.calls ≤ 1 ∧
      11 = found.pattern.shape.size +
        Exp.listSize (opened found.pattern.shape.leaves found.bindings.regs) +
        CallOperands.load found.bindings.call ∧
      ∀ conv below, (Selector.coverTo { conv, isa := Arch.x64.target.isa } below 11).stm wrappedCall =
        Selector.coverStm { conv, isa := Arch.x64.target.isa } wrappedCall := by
  obtain ⟨accounts, -, tables, ends⟩ := covering_ends
  have some : (Arch.x64.target.isa.pick (.stm wrappedCall)).isSome = true := by rfl
  obtain ⟨found, picked⟩ := Option.isSome_iff_exists.mp some
  obtain ⟨member, matched⟩ := InstructionSet.pick_matches picked
  have few := (tables .x64 found.pattern member).1
  refine ⟨found, picked, few, accounts _ _ _ few matched, ?_⟩
  intro conv below
  exact (ends { conv, isa := Arch.x64.target.isa } fun pattern listed =>
    (tables .x64 pattern listed).2).2.2 below 11 (.stm wrappedCall) (by decide)

end TreeCode
