import Mathlib.Algebra.Group.Int.Defs
import TreeCode.Proofs.Code.Coverage
import TreeCode.Proofs.Machine.Roles
import TreeCode.Target.Arch

/-!
Which canonical statements have instructions, on each machine. The only limit that all machines
share is the room for the operands of a call. The 32-bit machine has no wide constants, no shifts
and no calls through a register.
-/

namespace TreeCode

open Tree

namespace Tree

/-- The call that a canonical statement makes, if it makes one: the function and its operands. -/
def Stm.call? : Stm → Option (Exp × CallOperands)
  | .move (.temp _) (.call func link args) => some (func, { link, args })
  | .exp (.call func link args) => some (func, { link, args })
  | _ => none

/-- Whether an operator shifts. -/
def BinOp.isShift : BinOp → Bool
  | lshift => true
  | rshift => true
  | arshift => true
  | _ => false

end Tree

/-- Whether the constant or operator at the root of an expression is in the repertoire. -/
def Repertoire.admits (rep : Repertoire) : Exp → Bool
  | .const value => rep.consts.contains value
  | .binop op _ _ => rep.ops.contains op
  | _ => true

section Canonical

variable {sel : Selector} {rep : Repertoire}

theorem isOperand_of_isFlat {e : Exp} (flat : e.isFlat = true) : e.isOperand = true := by
  cases e with
  | call | eseq => cases flat
  | _ => rfl

/-- A flat expression can be covered if the target has an instruction for each part of it. -/
theorem covers_flat {e : Exp} (flat : e.isFlat = true) :
    sel.covers rep e = e.parts.all rep.admits := by
  fun_induction Exp.isFlat e with
  | case1 | case2 | case3 => simp [Selector.covers, Exp.parts, Repertoire.admits]
  | case4 op left right ihLeft ihRight =>
    simp only [Bool.and_eq_true] at flat
    simp [Selector.covers, Exp.parts, Repertoire.admits, ihLeft flat.1, ihRight flat.2]
  | case5 address ih => simp [Selector.covers, Exp.parts, Repertoire.admits, ih flat]
  | case6 | case7 => cases flat

theorem coversArgs_flat {args : List Exp} (flat : args.all Exp.isFlat = true) :
    sel.coversArgs rep args = (Exp.listParts args).all rep.admits := by
  induction args with
  | nil => simp [Selector.coversArgs, Exp.listParts]
  | cons arg args ih =>
    simp only [List.all_cons, Bool.and_eq_true] at flat
    simp [Selector.coversArgs, Exp.listParts, isOperand_of_isFlat flat.1, covers_flat flat.1,
      ih flat.2]

theorem coversLink_flat {link : Option Exp} (flat : link.all Exp.isFlat = true) :
    sel.coversLink rep link = (Exp.linkParts link).all rep.admits := by
  cases link with
  | none => simp [Selector.coversLink, Exp.linkParts]
  | some link =>
    have flat : link.isFlat = true := flat
    simp [Selector.coversLink, Exp.linkParts, isOperand_of_isFlat flat, covers_flat flat]

/-- What a call needs apart from the repertoire: room for its operands, and a function that can be
called. -/
def Selector.allows (sel : Selector) (rep : Repertoire) (call : Exp × CallOperands) : Bool :=
  decide (sel.stackPositions call.2.link call.2.args ≤ sel.conv.outgoing) &&
    (call.1.isName || rep.indirect)

theorem allows_iff {func : Exp} {call : CallOperands} :
    sel.allows rep (func, call) = true ↔
      call.link.toList.length + (call.args.length - sel.conv.arguments.length) ≤
        sel.conv.outgoing ∧ (func.isName = true ∨ rep.indirect = true) := by
  rw [Selector.allows, Bool.and_eq_true, Bool.or_eq_true, decide_eq_true_eq]
  rfl

/-- A call with flat operands can be covered if its operands can, they fit on the stack, and the
function can be called that way. -/
theorem covers_flatCall {e : Exp} (flat : e.isFlatCall = true) :
    sel.covers rep e = (e.parts.all rep.admits && (Stm.exp e).call?.all (sel.allows rep)) := by
  cases e with
  | call func link args =>
    simp only [Exp.isFlatCall, Bool.and_eq_true] at flat
    obtain ⟨function, linked, passed⟩ := flat
    have named : (func.isName || rep.indirect && sel.covers rep func) =
        ((func.isName || rep.indirect) && sel.covers rep func) := by
      cases name : func.isName with
      | false => rfl
      | true => rw [Selector.covers_of_isName name, Bool.true_or, Bool.true_or, Bool.true_and]
    rw [Selector.covers, named, covers_flat function, coversLink_flat linked,
      coversArgs_flat passed]
    simp only [Exp.parts, List.all_cons, List.all_append, Repertoire.admits, Stm.call?,
      Option.all_some, Selector.allows, Bool.true_and]
    ac_rfl
  | _ =>
    rw [covers_flat flat]
    simp [Stm.call?]

/-- A canonical statement is within the repertoire if all of its parts are, and its call, if it
makes one, is allowed. -/
theorem coversStm_canonical {stm : Stm} (canonical : stm.isCanonical = true) :
    sel.coversStm rep stm =
      (stm.parts.all rep.admits && stm.call?.all (sel.allows rep)) := by
  cases stm with
  | move dst src =>
    cases dst with
    | temp t =>
      have same : (Stm.move (.temp t) src).call? = (Stm.exp src).call? := by
        cases src <;> rfl
      rw [same, Selector.coversStm, covers_flatCall canonical]
      simp [Exp.isCell, Selector.covers, Stm.parts, Exp.parts, Repertoire.admits]
    | mem address =>
      simp only [Stm.isCanonical, Bool.and_eq_true] at canonical
      rw [Selector.coversStm, Selector.covers, covers_flat canonical.1, covers_flat canonical.2]
      simp [Exp.isCell, Stm.call?, Stm.parts, Exp.parts, Repertoire.admits]
    | _ => cases canonical
  | exp e => exact covers_flatCall canonical
  | jump target labels =>
    cases target with
    | name label => rfl
    | _ => cases canonical
  | cjump op left right yes no =>
    simp only [Stm.isCanonical, Bool.and_eq_true] at canonical
    rw [Selector.coversStm, covers_flat canonical.1, covers_flat canonical.2]
    simp [Stm.call?, Stm.parts]
  | seq first second => cases canonical
  | label name => rfl

end Canonical

namespace Arch

/-- What a machine has instructions for. -/
def repertoire : Arch → Repertoire
  | i386 =>
    { consts := X86.range32
      ops := [.plus, .minus, .mul, .div, .and, .or, .xor]
      indirect := false }
  | _ =>
    { consts := .any
      ops := [.plus, .minus, .mul, .div, .and, .or, .xor, .lshift, .rshift, .arshift]
      indirect := true }

/-- The table of each target has what its repertoire says. -/
theorem target_serves (arch : Arch) :
    arch.target.isa.serves arch.repertoire arch.target.convention.registers.names = true := by
  cases arch with
  | x64 => decide +kernel
  | arm64 => decide +kernel
  | i386 => decide +kernel

theorem issued_serves {arch : Arch} {supply supply' : Supply} {conv : Convention}
    (issued : arch.target.convention.issue supply = .ok conv supply') :
    Selector.Serves { conv, isa := arch.target.isa } arch.repertoire := by
  apply Selector.serves_of_table
  rw [issue_registerNames issued]
  exact arch.target_serves

/-- What the repertoire of a machine says of a part of a tree. -/
theorem admits_iff (arch : Arch) (part : Exp) :
    arch.repertoire.admits part = true ↔
      (arch = .i386 →
        (∀ value, part = .const value → -2 ^ 31 ≤ value ∧ value < 2 ^ 31) ∧
        ∀ op left right, part = .binop op left right → op.isShift = false) := by
  cases part with
  | const value =>
    cases arch with
    | i386 =>
      simp [repertoire, Repertoire.admits, X86.range32, ImmRange.contains]
      omega
    | _ => simp [repertoire, Repertoire.admits, ImmRange.contains]
  | binop op left right =>
    cases arch with
    | i386 => cases op <;> simp [repertoire, Repertoire.admits, BinOp.isShift]
    | _ => cases op <;> simp [repertoire, Repertoire.admits]
  | _ => simp [Repertoire.admits]

/-- Only the 32-bit target has limits: its constants have 32 bits, and it has no shifts. -/
theorem admits_parts (arch : Arch) (parts : List Exp) :
    parts.all arch.repertoire.admits = true ↔
      (arch = .i386 →
        (∀ value, .const value ∈ parts → -2 ^ 31 ≤ value ∧ value < 2 ^ 31) ∧
        ∀ op left right, .binop op left right ∈ parts → op.isShift = false) := by
  simp only [List.all_eq_true, admits_iff]
  constructor
  · intro all narrow
    exact ⟨fun value member => (all _ member narrow).1 value rfl,
      fun op left right member => (all _ member narrow).2 op left right rfl⟩
  · intro all part member narrow
    constructor
    · rintro value rfl
      exact (all narrow).1 value member
    · rintro op left right rfl
      exact (all narrow).2 op left right member

theorem indirect_iff (arch : Arch) : arch.repertoire.indirect = true ↔ arch ≠ .i386 := by
  cases arch <;> simp [repertoire]

end Arch

/-- Selection of a canonical statement succeeds if and only if there is room for the operands of
its call and, on the 32-bit machine, its constants have 32 bits, it does not shift and the function
that it calls is known by name. -/
theorem canonical_selected_iff {arch : Arch} {supply supply' : Supply} {conv : Convention}
    (issued : arch.target.convention.issue supply = .ok conv supply') {stm : Stm}
    (canonical : stm.isCanonical = true) (state : Selection) :
    (∃ code state', Selector.select { conv, isa := arch.target.isa } stm state = .ok code state') ↔
      (∀ func call, stm.call? = some (func, call) →
        call.link.toList.length + (call.args.length - conv.arguments.length) ≤ conv.outgoing) ∧
      (arch = .i386 →
        (∀ value, .const value ∈ stm.parts → -2 ^ 31 ≤ value ∧ value < 2 ^ 31) ∧
        (∀ op left right, .binop op left right ∈ stm.parts → op.isShift = false) ∧
        ∀ func call, stm.call? = some (func, call) → func.isName = true) := by
  have decided := Selector.decides_select (Arch.issued_serves issued) stm state
  rw [decided, coversStm_canonical canonical, Bool.and_eq_true, Arch.admits_parts]
  simp only [Option.all_eq_true, Prod.forall, allows_iff, Arch.indirect_iff]
  constructor
  · rintro ⟨parts, calls⟩
    refine ⟨fun func call made => (calls func call made).1, fun narrow => ?_⟩
    obtain ⟨consts, ops⟩ := parts narrow
    exact ⟨consts, ops, fun func call made => (calls func call made).2.resolve_right (· narrow)⟩
  · rintro ⟨room, limits⟩
    refine ⟨fun narrow => ⟨(limits narrow).1, (limits narrow).2.1⟩, fun func call made => ?_⟩
    by_cases narrow : arch = .i386
    · exact ⟨room func call made, .inl ((limits narrow).2.2 func call made)⟩
    · exact ⟨room func call made, .inr narrow⟩

/-- A call with a link and two arguments, one of them the greatest constant of 32 bits. -/
def linkedCall : Stm :=
  .move (.temp ⟨40⟩)
    (.call (.name "f") (some (.temp ⟨5⟩))
      [.const 2147483647, .binop .mul (.mem (.temp ⟨41⟩)) (.const (-8))])

theorem linkedCall_selected : ∃ conv supply',
    Arch.i386.target.convention.issue {} = .ok conv supply' ∧ linkedCall.isCanonical = true ∧
      ∃ code state', Selector.select { conv, isa := Arch.i386.target.isa } linkedCall
        { supply := supply' } = .ok code state' := by
  refine ⟨_, _, rfl, by decide, (@canonical_selected_iff .i386 _ _ _ rfl _ (by decide) _).mpr ?_⟩
  refine ⟨?_, fun _ => ⟨?_, ?_, ?_⟩⟩
  · rintro func call made
    cases made
    decide
  · intro value member
    simp [linkedCall, Stm.parts, Exp.parts, Exp.linkParts, Exp.listParts] at member
    omega
  · intro op left right member
    simp [linkedCall, Stm.parts, Exp.parts, Exp.linkParts, Exp.listParts] at member
    rw [member.1]
    rfl
  · rintro func call made
    cases made
    rfl

end TreeCode
