import TreeCode.Code.Selection
import TreeCode.Proofs.Code.Templates

/-!
When selection succeeds. A repertoire says which constants, operators and functions to call a
machine has instructions for. A table that serves a repertoire covers exactly the trees within it:
whichever pattern is picked, what it leaves is within the repertoire if and only if the tree is.
-/

namespace TreeCode

open Tree

/-- Whether all that fits one range fits another. -/
def ImmRange.within : ImmRange → ImmRange → Bool
  | _, any => true
  | any, between _ _ => false
  | between least greatest, between least' greatest' => least' ≤ least && greatest ≤ greatest'

/-- An immediate that fits a range fits a larger one. -/
theorem ImmRange.contains_of_within {small large : ImmRange} {value : Int}
    (within : small.within large = true) (fits : small.contains value = true) :
    large.contains value = true := by
  cases large with
  | any => rfl
  | between least greatest =>
    cases small with
    | any => cases within
    | between least' greatest' =>
      simp only [ImmRange.within, contains, Bool.and_eq_true, decide_eq_true_eq] at within fits ⊢
      omega

/-- What a machine has instructions for. -/
structure Repertoire where
  consts : ImmRange
  ops : List BinOp
  /-- Whether a function may be called through a register. -/
  indirect : Bool

/-- Whether an expression is a temporary or a word in memory. -/
def Tree.Exp.isCell : Exp → Bool
  | .temp _ => true
  | .mem _ => true
  | _ => false

/-- Whether an expression may be an argument: calls and statements may not. -/
def Tree.Exp.isOperand : Exp → Bool
  | .call _ _ _ => false
  | .eseq _ _ => false
  | _ => true

namespace Selector

mutual
/-- Whether an expression is within the repertoire, and its calls leave room on the stack. -/
def covers (sel : Selector) (rep : Repertoire) : Exp → Bool
  | .const value => rep.consts.contains value
  | .name _ => true
  | .temp _ => true
  | .binop op left right => rep.ops.contains op && (sel.covers rep left && sel.covers rep right)
  | .mem address => sel.covers rep address
  | .call func link args =>
    (func.isName || rep.indirect && sel.covers rep func) &&
      (decide (sel.stackPositions link args ≤ sel.conv.outgoing) &&
        (sel.coversLink rep link && sel.coversArgs rep args))
  | .eseq stm value => sel.coversStm rep stm && sel.covers rep value
/-- Whether a link can be passed. -/
def coversLink (sel : Selector) (rep : Repertoire) : Option Exp → Bool
  | none => true
  | some link => link.isOperand && sel.covers rep link
/-- Whether arguments can be passed. -/
def coversArgs (sel : Selector) (rep : Repertoire) : List Exp → Bool
  | [] => true
  | arg :: args => (arg.isOperand && sel.covers rep arg) && sel.coversArgs rep args
/-- Whether a statement is within the repertoire, and its calls leave room on the stack. -/
def coversStm (sel : Selector) (rep : Repertoire) : Stm → Bool
  | .move dst src => dst.isCell && (sel.covers rep dst && sel.covers rep src)
  | .exp e => sel.covers rep e
  | .jump target _ => target.isName
  | .cjump _ left right _ _ => sel.covers rep left && sel.covers rep right
  | .seq first second => sel.coversStm rep first && sel.coversStm rep second
  | .label _ => true
end

/-- Whether the operands of a bound call can be placed. -/
def coversCall (sel : Selector) (rep : Repertoire) : Option CallOperands → Bool
  | none => true
  | some call =>
    decide (sel.stackPositions call.link call.args ≤ sel.conv.outgoing) &&
      (sel.coversLink rep call.link && sel.coversArgs rep call.args)

/-- Whether all that a match leaves is within the repertoire. -/
def coversBound (sel : Selector) (rep : Repertoire) (b : Bindings) : Bool :=
  b.regs.all (sel.covers rep) && sel.coversCall rep b.call

/-- Whether a tree is within the repertoire. -/
def coversNode (sel : Selector) (rep : Repertoire) : Node → Bool
  | .exp e => sel.covers rep e
  | .stm s => sel.coversStm rep s

end Selector

namespace Shape

/-- Whether a shape without calls is one of trees within the repertoire. -/
def simple (rep : Repertoire) : Shape → Bool
  | reg => true
  | temp => true
  | name => true
  | imm range => range.within rep.consts
  | const value => rep.consts.contains value
  | binop op left right => rep.ops.contains op && (left.simple rep && right.simple rep)
  | mem address => address.simple rep
  | _ => false

/-- Whether a shape of expressions is one of trees within the repertoire. It may be a call. -/
def valued (rep : Repertoire) : Shape → Bool
  | call func => func == .name || rep.indirect && func.simple rep
  | shape => shape.simple rep

/-- Whether a shape is one of trees within the repertoire. -/
def within (rep : Repertoire) : Shape → Bool
  | move .temp src => src.valued rep
  | move (.mem address) src => address.simple rep && src.valued rep
  | move _ _ => false
  | exp inner => inner.valued rep
  | jump target => target == .name
  | cjump _ left right => left.simple rep && right.simple rep
  | shape => shape.valued rep

end Shape

/-- Shapes that together match every tree within a repertoire. -/
def Repertoire.shapes (rep : Repertoire) : List Shape :=
  [.imm rep.consts, .name, .mem .reg, .call .name, .move .temp .reg, .move (.mem .reg) .reg,
      .exp .reg, .jump .name, .cjump none .reg .reg] ++
    (if rep.indirect then [.call .reg] else []) ++ rep.ops.map fun op => .binop op .reg .reg

/-- Whether a table has patterns for a repertoire and for nothing else, and all of its templates
can be filled on a machine with these registers. -/
def InstructionSet.serves (isa : InstructionSet) (rep : Repertoire) (names : List String) : Bool :=
  isa.patterns.all (fun pattern => pattern.fits names && pattern.shape.within rep) &&
    rep.shapes.all (fun shape => (isa.patterns.map Pattern.shape).contains shape) &&
    isa.args.fits names && isa.args.imm.within rep.consts

section Bound

variable {sel : Selector} {rep : Repertoire}

/-- A name can be covered wherever it stands. -/
theorem Selector.covers_of_isName {e : Exp} (name : e.isName = true) : sel.covers rep e = true := by
  cases e with
  | name label => simp only [covers]
  | _ => cases name

/-- A simple shape binds no call, and the registers that it binds can be covered exactly if the
expression can. -/
theorem Shape.simple_covers (sel : Selector) (shape : Shape) (e : Exp) (b : Bindings)
    {b' : Bindings} (simple : shape.simple rep = true) (bound : shape.bindExp? e b = some b') :
    b'.call = b.call ∧
      b'.regs.all (sel.covers rep) = (b.regs.all (sel.covers rep) && sel.covers rep e) := by
  fun_induction Shape.bindExp? shape e b generalizing b' with
  | case1 e b =>
    cases bound
    simp
  | case2 t b =>
    cases bound
    simp [Selector.covers]
  | case3 range value b fits =>
    cases bound
    simp [Selector.covers, ImmRange.contains_of_within simple fits]
  | case5 value b =>
    cases bound
    simp only [Shape.simple] at simple
    simp [Selector.covers, simple]
  | case7 label b =>
    cases bound
    simp [Selector.covers]
  | case8 left right op l r b middle first carriedLeft carriedRight =>
    simp only [Shape.simple, Bool.and_eq_true] at simple
    obtain ⟨early, before⟩ := carriedLeft simple.2.1 first
    obtain ⟨late, behind⟩ := carriedRight simple.2.2 bound
    refine ⟨late.trans early, ?_⟩
    rw [behind, before, Selector.covers, simple.1, Bool.true_and, Bool.and_assoc]
  | case11 address e b carried =>
    simp only [Selector.covers]
    exact carried simple bound
  | case12 => cases simple
  | case4 | case6 | case9 | case10 | case13 | case14 => cases bound

/-- A match of an expression at the root leaves what is within the repertoire if and only if the
expression is. -/
theorem Shape.valued_covers (sel : Selector) {shape : Shape} {e : Exp} {b b' : Bindings}
    (valued : shape.valued rep = true) (plain : b.call = none)
    (bound : shape.bindExp? e b = some b') :
    sel.coversBound rep b' = (b.regs.all (sel.covers rep) && sel.covers rep e) := by
  have leaf (simple : shape.simple rep = true) :
      sel.coversBound rep b' = (b.regs.all (sel.covers rep) && sel.covers rep e) := by
    obtain ⟨same, covered⟩ := shape.simple_covers sel e b simple bound
    rw [Selector.coversBound, same, plain, Selector.coversCall, Bool.and_true, covered]
  cases shape with
  | call func =>
    cases e with
    | call f link args =>
      simp only [Shape.bindExp?] at bound
      cases first : func.bindExp? f b with
      | none => simp [first] at bound
      | some middle =>
        simp only [first, Option.some.injEq] at bound
        subst bound
        simp only [Shape.valued, Bool.or_eq_true, beq_iff_eq, Bool.and_eq_true] at valued
        have function : middle.regs.all (sel.covers rep) =
            (b.regs.all (sel.covers rep) &&
              (f.isName || rep.indirect && sel.covers rep f)) := by
          rcases valued with rfl | ⟨indirect, simple⟩
          · cases f with
            | name label =>
              cases first
              simp [Exp.isName]
            | _ => cases first
          · rw [(func.simple_covers sel f b simple first).2, indirect, Bool.true_and]
            cases name : f.isName with
            | false => rfl
            | true => rw [Selector.covers_of_isName name, Bool.true_or]
        simp only [Selector.coversBound, Selector.coversCall, function, Selector.covers,
          Bool.and_assoc]
    | _ => cases bound
  | _ => exact leaf valued

/-- A match leaves what is within the repertoire if and only if the tree is. -/
theorem Shape.match_covers {shape : Shape} {tree : Node} {b : Bindings}
    (within : shape.within rep = true) (matched : shape.match? tree = some b) :
    sel.coversBound rep b = sel.coversNode rep tree := by
  rcases match_bound matched with ⟨e, rfl, value, bound⟩ | ⟨s, rfl, statement, bound⟩
  · have valued : shape.valued rep = true := by
      cases shape with
      | move | exp | jump | cjump => cases value
      | _ => exact within
    simpa [Selector.coversNode] using valued_covers sel valued rfl bound
  · rcases bindStm_some bound with
      ⟨dst, src, d, e, middle, rfl, rfl, first, second⟩ | ⟨inner, e, rfl, rfl, first⟩ |
      ⟨target, e, labels, middle, rfl, rfl, first, rfl⟩ |
      ⟨op, left, right, actual, l, r, yes, no, middle, last, rfl, rfl, first, second, rfl⟩
    · have split : d.isCell = true ∧ dst.simple rep = true ∧ src.valued rep = true := by
        cases dst with
        | temp =>
          cases d with
          | temp t => exact ⟨rfl, rfl, within⟩
          | _ => cases first
        | mem address =>
          cases d with
          | mem e => exact ⟨rfl, by simpa [Shape.within, Shape.simple] using within⟩
          | _ => cases first
        | _ => cases within
      obtain ⟨cell, simple, valued⟩ := split
      obtain ⟨plain, covered⟩ := dst.simple_covers sel d {} simple first
      rw [valued_covers sel valued plain second, covered]
      simp [Selector.coversNode, Selector.coversStm, cell]
    · simpa [Selector.coversNode, Selector.coversStm] using
        valued_covers sel within rfl first
    · have name : target = .name := by simpa [Shape.within] using within
      subst name
      cases e with
      | name label =>
        cases first
        rfl
      | _ => cases first
    · simp only [Shape.within, Bool.and_eq_true] at within
      obtain ⟨early, before⟩ := left.simple_covers sel l _ within.1 first
      obtain ⟨late, behind⟩ := right.simple_covers sel r middle within.2 second
      simp [Selector.coversNode, Selector.coversStm, Selector.coversBound, late, early, behind,
        before, Selector.coversCall]

/-- One of the shapes for a repertoire matches each tree within it. Temporaries, statements inside
expressions, sequences and labels need none. -/
theorem Repertoire.match_exp {e : Exp} (covered : sel.covers rep e = true)
    (cell : ∀ t, e ≠ .temp t) (flat : ∀ s v, e ≠ .eseq s v) :
    ∃ shape ∈ rep.shapes, ∃ b, shape.match? (.exp e) = some b := by
  cases e with
  | const value =>
    refine ⟨.imm rep.consts, by simp [shapes], { imms := [value] }, ?_⟩
    simp only [Selector.covers] at covered
    simp [Shape.match?, Shape.isStatement, Shape.bindExp?, covered]
  | name label => exact ⟨.name, by simp [shapes], { labels := [label] }, rfl⟩
  | temp t => exact absurd rfl (cell t)
  | binop op left right =>
    simp only [Selector.covers, Bool.and_eq_true, List.contains_iff_mem] at covered
    refine ⟨.binop op .reg .reg, ?_, { regs := [left, right] }, ?_⟩
    · exact List.mem_append_right _ (List.mem_map_of_mem covered.1)
    · simp [Shape.match?, Shape.isStatement, Shape.bindExp?]
  | mem address => exact ⟨.mem .reg, by simp [shapes], { regs := [address] }, rfl⟩
  | call func link args =>
    simp only [Selector.covers, Bool.and_eq_true, Bool.or_eq_true] at covered
    cases func with
    | name label =>
      exact ⟨.call .name, by simp [shapes], { labels := [label], call := some { link, args } }, rfl⟩
    | _ =>
      have indirect : rep.indirect = true := by simpa [Exp.isName] using covered.1.imp id And.left
      exact ⟨.call .reg, by simp [shapes, indirect], _, rfl⟩
  | eseq s v => exact absurd rfl (flat s v)

/-- A statement that is covered is matched by a shape of the repertoire. -/
theorem Repertoire.match_stm {s : Stm} (covered : sel.coversStm rep s = true)
    (flat : ∀ first second, s ≠ .seq first second) (bare : ∀ name, s ≠ .label name) :
    ∃ shape ∈ rep.shapes, ∃ b, shape.match? (.stm s) = some b := by
  cases s with
  | move dst src =>
    simp only [Selector.coversStm, Bool.and_eq_true] at covered
    cases dst with
    | temp t => exact ⟨.move .temp .reg, by simp [shapes], _, rfl⟩
    | mem address => exact ⟨.move (.mem .reg) .reg, by simp [shapes], _, rfl⟩
    | _ => exact absurd covered.1 (by simp [Exp.isCell])
  | exp e => exact ⟨.exp .reg, by simp [shapes], _, rfl⟩
  | jump target labels =>
    cases target with
    | name label => exact ⟨.jump .name, by simp [shapes], _, rfl⟩
    | _ => simp [Selector.coversStm, Exp.isName] at covered
  | cjump op left right yes no => exact ⟨.cjump none .reg .reg, by simp [shapes], _, rfl⟩
  | seq first second => exact absurd rfl (flat first second)
  | label name => exact absurd rfl (bare name)

end Bound

/-- A computation succeeds from every state or from none, as the condition says. -/
def Decides {α : Type} (act : Select α) (condition : Prop) : Prop :=
  ∀ s, (∃ a s', act s = .ok a s') ↔ condition

section Decides

variable {α β : Type} {act : Select α} {p q : Prop}

theorem decides_pure (a : α) : Decides (pure a : Select α) True := by
  intro s
  simp [pure_ok]

theorem decides_throw (error : Error) : Decides (throw error : Select α) False := by
  intro s
  simp [throw_ok]

/-- One action after the other succeeds exactly if both do. -/
theorem decides_bind {next : α → Select β} (first : Decides act p)
    (rest : ∀ s a s', act s = .ok a s' → Decides (next a) q) : Decides (act >>= next) (p ∧ q) := by
  intro s
  constructor
  · rintro ⟨b, s'', ran⟩
    obtain ⟨a, s', began, ended⟩ := bind_ok.mp ran
    exact ⟨(first s).mp ⟨a, s', began⟩, (rest s a s' began s').mp ⟨b, s'', ended⟩⟩
  · rintro ⟨begins, ends⟩
    obtain ⟨a, s', began⟩ := (first s).mpr begins
    obtain ⟨b, s'', ended⟩ := (rest s a s' began s').mpr ends
    exact ⟨b, s'', bind_ok.mpr ⟨a, s', began, ended⟩⟩

theorem Decides.iff (decides : Decides act p) (same : p ↔ q) : Decides act q := by
  intro s
  exact (decides s).trans same

/-- What comes first always succeeds. -/
theorem decides_after {next : α → Select β} (first : Decides act True)
    (rest : ∀ s a s', act s = .ok a s' → Decides (next a) q) : Decides (act >>= next) q :=
  (decides_bind first rest).iff (iff_of_eq (true_and q))

/-- What comes second always succeeds. -/
theorem decides_before {next : α → Select β} (first : Decides act p)
    (rest : ∀ a, Decides (next a) True) : Decides (act >>= next) p :=
  (decides_bind first fun _ a _ _ => rest a).iff (iff_of_eq (and_true p))

theorem decides_freshTemp : Decides (liftM freshTemp : Select Temp) True := by
  intro s
  simp [select_fresh_ok]

theorem decides_emit (instr : Instr) : Decides (Selection.emit instr) True := by
  intro s
  simp [run_emit]

theorem decides_except {made : Except Error α} {a : α} (ok : made = .ok a) :
    Decides (liftM made : Select α) True := by
  intro s
  simp [select_except_ok, ok]

end Decides

namespace Selector

variable {sel : Selector} {rep : Repertoire}

section Arguments

variable {operands : Operands} {capacity : Capacity}

/-- A template that fits its operands always makes an instruction. -/
theorem decides_instr {template : Template} (has : operands.Has capacity)
    (fits : template.fits capacity sel.conv.registerNames = true) :
    Decides (do Selection.emit (← sel.instrOf operands template)) True := by
  obtain ⟨instr, made⟩ := instrOf_of_fits has fits
  exact decides_after (decides_except made) fun _ instr _ _ => decides_emit instr

theorem decides_moveToRegister (fits : sel.isa.args.fits sel.conv.registerNames = true)
    (reg : Temp) (value : Argument) : Decides (sel.moveToRegister reg value) True := by
  simp only [ArgTemplates.fits, Bool.and_eq_true] at fits
  cases value with
  | imm value => exact decides_instr ⟨by simp, by simp, by simp, by simp, by simp⟩ fits.1.1.1
  | label name => exact decides_instr ⟨by simp, by simp, by simp, by simp, by simp⟩ fits.1.1.2
  | reg source => exact decides_instr ⟨by simp, by simp, by simp, by simp, by simp⟩ fits.1.2

theorem decides_inRegister (fits : sel.isa.args.fits sel.conv.registerNames = true)
    (value : Argument) : Decides (sel.inRegister value) True := by
  have moved : Decides (do
      let t ← freshTemp
      sel.moveToRegister t value
      return t) True :=
    decides_after decides_freshTemp fun _ t _ _ =>
      decides_after (decides_moveToRegister fits t value) fun _ _ _ _ => decides_pure t
  cases value with
  | imm value => exact moved
  | label name => exact moved
  | reg source => exact decides_pure source

theorem decides_moveToStack (fits : sel.isa.args.fits sel.conv.registerNames = true)
    (index : Nat) (value : Argument) : Decides (sel.moveToStack index value) True := by
  refine decides_after (decides_inRegister fits value) fun _ t _ _ => ?_
  simp only [ArgTemplates.fits, Bool.and_eq_true] at fits
  exact decides_instr ⟨by simp, by simp, by simp, by simp, by simp⟩ fits.2

theorem decides_fillRegisters (fits : sel.isa.args.fits sel.conv.registerNames = true)
    (registers : List Temp) (values : List Argument) :
    Decides (sel.fillRegisters registers values) True := by
  induction registers generalizing values with
  | nil => exact decides_pure ()
  | cons reg registers ih =>
    cases values with
    | nil => exact decides_pure ()
    | cons value values =>
      exact decides_after (decides_moveToRegister fits reg value) fun _ _ _ _ => ih values

theorem decides_fillStack (fits : sel.isa.args.fits sel.conv.registerNames = true)
    (index : Nat) (values : List Argument) : Decides (sel.fillStack index values) True := by
  induction values generalizing index with
  | nil => exact decides_pure ()
  | cons value values ih =>
    exact decides_after (decides_moveToStack fits index value) fun _ _ _ _ => ih (index + 1)

end Arguments

section Covering

/-- What it means for the table to serve a repertoire. -/
structure Serves (sel : Selector) (rep : Repertoire) : Prop where
  fits : ∀ pattern ∈ sel.isa.patterns, pattern.fits sel.conv.registerNames = true
  within : ∀ pattern ∈ sel.isa.patterns, pattern.shape.within rep = true
  shapes : ∀ shape ∈ rep.shapes, ∃ pattern ∈ sel.isa.patterns, pattern.shape = shape
  args : sel.isa.args.fits sel.conv.registerNames = true
  imm : sel.isa.args.imm.within rep.consts = true

theorem serves_of_table (checked : sel.isa.serves rep sel.conv.registerNames = true) :
    sel.Serves rep := by
  simp only [InstructionSet.serves, Bool.and_eq_true, List.all_eq_true, List.contains_iff_mem,
    List.mem_map] at checked
  obtain ⟨⟨⟨patterns, shapes⟩, args⟩, imm⟩ := checked
  exact ⟨fun pattern member => (patterns pattern member).1,
    fun pattern member => (patterns pattern member).2, shapes, args, imm⟩

/-- Covering the root of a tree fails only if no pattern matches. -/
theorem Serves.cover (serves : sel.Serves rep) (tree : Node) :
    (∃ error, sel.isa.cover tree = .error error ∧ sel.isa.pick tree = none) ∨
      ∃ found, sel.isa.cover tree = .ok found ∧ found.val.pattern ∈ sel.isa.patterns ∧
        found.val.pattern.shape.match? tree = some found.val.bindings := by
  unfold InstructionSet.cover
  cases picked : sel.isa.pick tree with
  | none => exact .inl ⟨_, rfl, rfl⟩
  | some found =>
    obtain ⟨member, matched⟩ := InstructionSet.pick_matches picked
    have fits := serves.fits found.pattern member
    simp only [Pattern.fits, Bool.and_eq_true] at fits
    have smaller : found.load < tree.size := Shape.match_load fits.1 matched
    exact .inr ⟨⟨found, smaller⟩, by simp [smaller], member, matched⟩

/-- Where the shapes of the repertoire match, covering does not fail. -/
theorem Serves.picked (serves : sel.Serves rep) {tree : Node}
    (matching : ∃ shape ∈ rep.shapes, ∃ b, shape.match? tree = some b) :
    sel.isa.pick tree ≠ none := by
  obtain ⟨shape, needed, b, matched⟩ := matching
  obtain ⟨pattern, member, rfl⟩ := serves.shapes shape needed
  obtain ⟨found, picked⟩ := InstructionSet.pick_of_match member matched
  rw [picked]
  exact Option.some_ne_none found

theorem coverAll_length {exps : List Exp} {regs : List Temp} {s s' : Selection}
    (ran : sel.coverAll exps s = .ok regs s') : regs.length = exps.length := by
  induction exps generalizing regs s s' with
  | nil =>
    rw [coverAll] at ran
    obtain ⟨rfl, -⟩ := pure_ok.mp ran
    rfl
  | cons exp exps ih =>
    rw [coverAll] at ran
    obtain ⟨t, _, _, ran⟩ := bind_ok.mp ran
    obtain ⟨rest, _, others, ran⟩ := bind_ok.mp ran
    obtain ⟨rfl, -⟩ := pure_ok.mp ran
    simp [ih others]

mutual
theorem decides_coverStm (serves : sel.Serves rep) (stm : Stm) :
    Decides (sel.coverStm stm) (sel.coversStm rep stm = true) := by
  have covered (flat : ∀ first second, stm ≠ .seq first second) (bare : ∀ name, stm ≠ .label name) :
      Decides (match sel.isa.cover (.stm stm) with
        | .error error => throw error
        | .ok ⟨found, _⟩ => sel.coverMatch found none) (sel.coversStm rep stm = true) := by
    rcases serves.cover (.stm stm) with ⟨error, failed, none⟩ | ⟨found, ok, member, matched⟩
    · rw [failed]
      refine (decides_throw error).iff (iff_of_false not_false fun covered => ?_)
      exact serves.picked (Repertoire.match_stm covered flat bare) none
    · have smaller : found.val.load < stm.size := found.property
      rw [ok]
      exact decides_coverMatch serves found.val member matched none
        (by rw [Shape.isStatement_of_match_stm matched]; rfl)
  cases stm with
  | seq first second =>
    rw [coverStm, coversStm]
    exact (decides_bind (decides_coverStm serves first) fun _ _ _ _ =>
      decides_coverStm serves second).iff (Bool.and_eq_true _ _ ▸ Iff.rfl)
  | label name =>
    rw [coverStm, coversStm]
    exact (decides_emit (.atLabel name)).iff (iff_of_true trivial rfl)
  | move dst src => simp only [coverStm]; exact covered (by simp) (by simp)
  | exp e => simp only [coverStm]; exact covered (by simp) (by simp)
  | jump target labels => simp only [coverStm]; exact covered (by simp) (by simp)
  | cjump op left right yes no => simp only [coverStm]; exact covered (by simp) (by simp)
termination_by 8 * stm.size
decreasing_by
  · omega
  · simp only [Stm.size]; omega
  · simp only [Stm.size]; omega
theorem decides_coverExp (serves : sel.Serves rep) (exp : Exp) :
    Decides (sel.coverExp exp) (sel.covers rep exp = true) := by
  have covered (cell : ∀ t, exp ≠ .temp t) (flat : ∀ s v, exp ≠ .eseq s v) :
      Decides (match sel.isa.cover (.exp exp) with
        | .error error => throw error
        | .ok ⟨found, _⟩ => do
          let result ← freshTemp
          sel.coverMatch found (some result)
          return result) (sel.covers rep exp = true) := by
    rcases serves.cover (.exp exp) with ⟨error, failed, none⟩ | ⟨found, ok, member, matched⟩
    · rw [failed]
      refine (decides_throw error).iff (iff_of_false not_false fun covered => ?_)
      exact serves.picked (Repertoire.match_exp covered cell flat) none
    · have smaller : found.val.load < exp.size := found.property
      rw [ok]
      refine decides_after decides_freshTemp fun _ result _ _ => ?_
      exact decides_before (decides_coverMatch serves found.val member matched (some result)
        (by rw [Shape.isStatement_of_match_exp matched]; rfl)) fun _ => decides_pure result
  cases exp with
  | temp t =>
    rw [coverExp, covers]
    exact (decides_pure t).iff (iff_of_true trivial rfl)
  | eseq stm value =>
    rw [coverExp, covers]
    exact (decides_bind (decides_coverStm serves stm) fun _ _ _ _ =>
      decides_coverExp serves value).iff (Bool.and_eq_true _ _ ▸ Iff.rfl)
  | const value => simp only [coverExp]; exact covered (by simp) (by simp)
  | name label => simp only [coverExp]; exact covered (by simp) (by simp)
  | binop op left right => simp only [coverExp]; exact covered (by simp) (by simp)
  | mem address => simp only [coverExp]; exact covered (by simp) (by simp)
  | call func link args => simp only [coverExp]; exact covered (by simp) (by simp)
termination_by 8 * exp.size
decreasing_by
  · omega
  · simp only [Exp.size]; omega
  · simp only [Exp.size]; omega
/-- A match is covered if and only if the tree is within the repertoire. -/
theorem decides_coverMatch (serves : sel.Serves rep) (found : Match)
    (member : found.pattern ∈ sel.isa.patterns) {tree : Node}
    (matched : found.pattern.shape.match? tree = some found.bindings) (result : Option Temp)
    (given : result.isSome = !found.pattern.shape.isStatement) :
    Decides (sel.coverMatch found result) (sel.coversNode rep tree = true) := by
  have fits := serves.fits found.pattern member
  simp only [Pattern.fits, Bool.and_eq_true] at fits
  rw [coverMatch]
  rw [← Shape.match_covers (serves.within found.pattern member) matched, coversBound,
    Bool.and_eq_true]
  refine decides_bind (decides_coverAll serves found.bindings.regs) fun _ regs _ ran => ?_
  refine decides_before (decides_placeCall serves found.bindings.call) fun _ s => ?_
  have has := Pattern.match_has matched (coverAll_length ran) given
  obtain ⟨s', emitted⟩ := emitTemplates_of_fits has fits.2 s
  exact iff_of_true ⟨(), s', emitted⟩ trivial
termination_by 8 * found.load + 5
decreasing_by all_goals simp only [Match.load, Bindings.load]; omega
theorem decides_coverAll (serves : sel.Serves rep) (exps : List Exp) :
    Decides (sel.coverAll exps) (exps.all (sel.covers rep) = true) := by
  cases exps with
  | nil =>
    rw [coverAll]
    exact (decides_pure []).iff (iff_of_true trivial rfl)
  | cons exp exps =>
    rw [coverAll, List.all_cons, Bool.and_eq_true]
    refine decides_bind (decides_coverExp serves exp) fun _ t _ _ => ?_
    exact decides_before (decides_coverAll serves exps) fun rest => decides_pure (t :: rest)
termination_by 8 * Exp.listSize exps + 1
decreasing_by all_goals simp only [Exp.listSize]; have := Exp.size_pos exp; omega
theorem decides_placeCall (serves : sel.Serves rep) (call : Option CallOperands) :
    Decides (sel.placeCall call) (sel.coversCall rep call = true) := by
  cases call with
  | none =>
    rw [placeCall]
    exact (decides_pure ()).iff (iff_of_true trivial rfl)
  | some call =>
    rw [placeCall, coversCall]
    exact decides_placeOperands serves call.link call.args
termination_by 8 * CallOperands.load call + 4
decreasing_by all_goals simp only [CallOperands.load]; omega
theorem decides_placeOperands (serves : sel.Serves rep) (link : Option Exp) (args : List Exp) :
    Decides (sel.placeOperands link args)
      ((decide (sel.stackPositions link args ≤ sel.conv.outgoing) &&
        (sel.coversLink rep link && sel.coversArgs rep args)) = true) := by
  rw [placeOperands]
  split
  next many =>
    refine (decides_throw _).iff (iff_of_false not_false ?_)
    simp [Nat.not_le.mpr many]
  next few =>
    rw [decide_eq_true (Nat.le_of_not_lt few), Bool.true_and, Bool.and_eq_true]
    refine decides_bind (decides_evalLink serves link) fun _ linked _ _ => ?_
    exact decides_before (decides_evalArgs serves args) fun values =>
      decides_before (decides_fillRegisters serves.args _ values) fun _ =>
      decides_fillStack serves.args 0 _
termination_by 8 * (Exp.linkSize link + Exp.listSize args) + 3
decreasing_by all_goals omega
theorem decides_evalLink (serves : sel.Serves rep) (link : Option Exp) :
    Decides (sel.evalLink link) (sel.coversLink rep link = true) := by
  cases link with
  | none =>
    rw [evalLink]
    exact (decides_pure []).iff (by simp [coversLink])
  | some link =>
    rw [evalLink, coversLink]
    exact decides_before (decides_evalArg serves link) fun value => decides_pure [value]
termination_by 8 * Exp.linkSize link + 2
decreasing_by all_goals simp only [Exp.linkSize]; omega
theorem decides_evalArgs (serves : sel.Serves rep) (args : List Exp) :
    Decides (sel.evalArgs args) (sel.coversArgs rep args = true) := by
  cases args with
  | nil =>
    rw [evalArgs]
    exact (decides_pure []).iff (by simp [coversArgs])
  | cons arg args =>
    rw [evalArgs, coversArgs, Bool.and_eq_true]
    refine decides_bind (decides_evalArg serves arg) fun _ value _ _ => ?_
    exact decides_before (decides_evalArgs serves args) fun rest => decides_pure (value :: rest)
termination_by 8 * Exp.listSize args + 2
decreasing_by all_goals simp only [Exp.listSize]; have := Exp.size_pos arg; omega
theorem decides_evalArg (serves : sel.Serves rep) (arg : Exp) :
    Decides (sel.evalArg arg) ((arg.isOperand && sel.covers rep arg) = true) := by
  have covered : Decides (do
      let t ← sel.coverExp arg
      return Argument.reg t) (sel.covers rep arg = true) :=
    decides_before (decides_coverExp serves arg) fun t => decides_pure (Argument.reg t)
  cases arg with
  | name label =>
    rw [evalArg]
    exact (decides_pure _).iff (by simp [Exp.isOperand, covers])
  | temp t =>
    rw [evalArg]
    exact (decides_pure _).iff (by simp [Exp.isOperand, covers])
  | call func link args =>
    rw [evalArg]
    exact (decides_throw _).iff (by simp [Exp.isOperand])
  | eseq stm exp =>
    rw [evalArg]
    exact (decides_throw _).iff (by simp [Exp.isOperand])
  | const value =>
    rw [evalArg]
    split
    next fits =>
      refine (decides_pure _).iff (iff_of_true trivial ?_)
      simp [Exp.isOperand, covers, ImmRange.contains_of_within serves.imm fits]
    next => exact covered
  | binop op left right => simp only [evalArg]; exact covered
  | mem address => simp only [evalArg]; exact covered
termination_by 8 * arg.size + 1
decreasing_by all_goals omega
end

theorem decides_select (serves : sel.Serves rep) (stm : Stm) :
    Decides (sel.select stm) (sel.coversStm rep stm = true) :=
  decides_before (decides_coverStm serves stm) fun _ s => by simp [Selection.take]

end Covering

end Selector

end TreeCode
