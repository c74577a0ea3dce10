import TreeCode.Proofs.Canonical.Assignments

/-!
Canonical code is left as it is. A statement that is no sequence and does something, without
statements inside its expressions and with its call, if it has one, in its place, is its own
canonical form, and no temporary is issued for it.
-/

namespace TreeCode.Tree

section Flat

variable {e : Exp} {link : Option Exp} {args : List Exp}

/-- Without calls and without statements inside, an expression is flat. -/
theorem isFlat_of_plain (plain : e.Plain) (free : e.callFree = true) : e.isFlat = true := by
  fun_induction Exp.isFlat e with
  | case1 | case2 | case3 => rfl
  | case4 op left right ihLeft ihRight =>
    rw [plain_binop] at plain
    simp only [Exp.callFree, Bool.and_eq_true] at free
    rw [ihLeft plain.1 free.1, ihRight plain.2 free.2, Bool.and_self]
  | case5 address ih => exact ih (plain_mem.mp plain) free
  | case6 => cases free
  | case7 stm e => cases plain _ (mem_parts_self _)

theorem isFlat_link_of_plain (plain : ∀ x ∈ Exp.linkParts link, x.isEseq = false)
    (free : link.all Exp.callFree = true) : link.all Exp.isFlat = true := by
  cases link with
  | none => rfl
  | some link => exact isFlat_of_plain plain free

theorem isFlat_args_of_plain (plain : ∀ x ∈ Exp.listParts args, x.isEseq = false)
    (free : args.all Exp.callFree = true) : args.all Exp.isFlat = true := by
  induction args with
  | nil => rfl
  | cons arg args ih =>
    rw [Exp.listParts, List.forall_mem_append] at plain
    simp only [List.all_cons, Bool.and_eq_true] at free ⊢
    exact ⟨isFlat_of_plain plain.1 free.1, ih plain.2 free.2⟩

/-- The same for an expression that may be a call itself. -/
theorem isFlatCall_of_plain (plain : e.Plain) (placed : e.callsAtRoot = true) :
    e.isFlatCall = true := by
  cases e with
  | call func link args =>
    obtain ⟨plainFunc, plainLink, plainArgs⟩ := plain_call.mp plain
    simp only [Exp.callsAtRoot, Bool.and_eq_true] at placed
    simp only [Exp.isFlatCall, isFlat_of_plain plainFunc placed.1,
      isFlat_link_of_plain plainLink placed.2.1, isFlat_args_of_plain plainArgs placed.2.2,
      Bool.and_self]
  | _ => exact isFlat_of_plain plain placed

end Flat

section Extract

variable {e left right : Exp} {link : Option Exp} {args : List Exp}

/-- There is nothing to hoist from a flat operand. -/
theorem hoist_flat (flat : e.isFlat = true) (parts : Fresh (Stm × Exp)) :
    e.hoist parts = parts := by
  cases e with
  | call func link args => cases flat
  | _ => rfl

theorem before_nothing (e : Exp) (supply : Supply) :
    before (.nop, e) .nop supply = ((.nop, e), supply) :=
  before_kept supply rfl

/-- Nothing has to run before a flat expression, which is kept. -/
theorem extract_flat (flat : e.isFlat = true) (supply : Supply) :
    e.extract supply = ((.nop, e), supply) := by
  fun_induction Exp.isFlat e with
  | case1 | case2 | case3 => rfl
  | case4 op left right ihLeft ihRight =>
    simp only [Bool.and_eq_true] at flat
    rw [extract_binop, hoist_flat flat.2, ihRight flat.2, hoist_flat flat.1]
    simp only [ihLeft flat.1, before_nothing]
  | case5 address ih => rw [extract_mem, hoist_flat flat, ih flat]
  | case6 | case7 => cases flat

/-- An operand that nothing has to run before is kept where nothing has to run after it. -/
theorem operand_flat (flat : e.isFlat = true) (supply : Supply) :
    before (e.hoist e.extract supply).1 .nop (e.hoist e.extract supply).2 =
      ((.nop, e), supply) := by
  rw [hoist_flat flat, extract_flat flat, before_nothing]

theorem extractLink_flat (flat : link.all Exp.isFlat = true) (supply : Supply) :
    Exp.extractLink link .nop supply = ((.nop, link), supply) := by
  cases link with
  | none => rfl
  | some link => simp only [extractLink_some, operand_flat flat]

theorem extractArgs_flat (flat : args.all Exp.isFlat = true) (supply : Supply) :
    Exp.extractArgs args supply = ((.nop, args), supply) := by
  induction args with
  | nil => rfl
  | cons arg args ih =>
    simp only [List.all_cons, Bool.and_eq_true] at flat
    simp only [extractArgs_cons, ih flat.2, operand_flat flat.1]

/-- A call with flat operands is left as it is. -/
theorem extract_flatCall (flat : e.isFlatCall = true) (supply : Supply) :
    e.extract supply = ((.nop, e), supply) := by
  cases e with
  | call func link args =>
    simp only [Exp.isFlatCall, Bool.and_eq_true] at flat
    simp only [extract_call, extractArgs_flat flat.2.2, extractLink_flat flat.2.1,
      operand_flat flat.1]
  | _ => exact extract_flat flat supply

/-- The operands of a move or of a comparison, both flat. -/
theorem pair_flat (flatLeft : left.isFlat = true) (flatRight : right.isFlat = true)
    (supply : Supply) :
    right.hoist right.extract supply = ((.nop, right), supply) ∧
      before (left.hoist left.extract supply).1 .nop (left.hoist left.extract supply).2 =
        ((.nop, left), supply) := by
  rw [hoist_flat flatRight, extract_flat flatRight]
  exact ⟨rfl, operand_flat flatLeft supply⟩

/-- A move of a flat expression, wherever it goes to. -/
theorem extractMove_flat (plain : left.Plain) (free : left.callFree = true)
    (flat : right.isFlat = true) (supply : Supply) :
    Exp.extractMove right right.extract left supply = (.move left right, supply) := by
  cases left with
  | temp t => rw [extractMove_temp, extract_flat flat]; rfl
  | mem address =>
    have flatAddress : address.isFlat = true := isFlat_of_plain (plain_mem.mp plain) free
    obtain ⟨source, target⟩ := pair_flat flatAddress flat supply
    simp only [extractMove_mem, source, target]
    rfl
  | eseq stm dst => cases plain _ (mem_parts_self _)
  | _ =>
    change ((right.hoist right.extract supply).1.1.andThen
      (.move _ (right.hoist right.extract supply).1.2), (right.hoist right.extract supply).2) = _
    rw [hoist_flat flat, extract_flat flat]
    rfl

/-- A statement with nothing to take apart. -/
theorem extract_unchanged {stm : Stm} (whole : stm.isSeq = false) (plain : stm.Plain)
    (placed : stm.callsPlaced = true) (supply : Supply) : stm.extract supply = (stm, supply) := by
  cases stm with
  | move dst src =>
    obtain ⟨plainDst, plainSrc⟩ := plain_move.mp plain
    cases dst with
    | temp t =>
      change Exp.extractMove src src.extract (.temp t) supply = _
      rw [extractMove_temp, extract_flatCall (isFlatCall_of_plain plainSrc placed)]
      rfl
    | _ =>
      simp only [Stm.callsPlaced, Stm.callFree, Bool.and_eq_true] at placed
      exact extractMove_flat plainDst placed.1 (isFlat_of_plain plainSrc placed.2) supply
  | exp e =>
    rw [extract_exp, extract_flatCall (isFlatCall_of_plain plain placed)]
    rfl
  | jump target labels =>
    have flat : target.isFlat = true := isFlat_of_plain plain placed
    rw [extract_jump, hoist_flat flat, extract_flat flat]
    rfl
  | cjump op left right yes no =>
    obtain ⟨plainLeft, plainRight⟩ := (plain_cjump op yes no).mp plain
    simp only [Stm.callsPlaced, Stm.callFree, Bool.and_eq_true] at placed
    obtain ⟨second, first⟩ := pair_flat (isFlat_of_plain plainLeft placed.1)
      (isFlat_of_plain plainRight placed.2) supply
    simp only [extract_cjump, second, first]
    rfl
  | seq first second => cases whole
  | label name => rfl

end Extract

/-- A statement is its own canonical form, for which nothing is issued, if it is no sequence, does
something, has no statements inside its expressions and has its call, if any, in its place. -/
theorem canonical_unchanged (stm : Stm) (supply : Supply) (whole : stm.isSeq = false)
    (something : stm.isNop = false) (plain : ∀ e ∈ stm.parts, e.isEseq = false)
    (placed : stm.callsPlaced = true) : stm.canonical supply = ([stm], supply) := by
  have single : stm.toList = [stm] := by
    refine toList_single something ?_
    rintro first second rfl
    cases whole
  change ((stm.extract supply).1.toList, (stm.extract supply).2) = _
  rw [extract_unchanged whole plain placed, single]

/-- A call with a link and arguments of every kind that a call may have in canonical code. -/
def Stm.sampleFlatCall : Stm :=
  .move (.temp ⟨3⟩) (.linkedCall "f" (.mem (.binop .plus (.temp ⟨0⟩) (.const 16)))
    [.const (-1), .name "text", .temp ⟨1⟩, .binop .mul (.mem (.temp ⟨2⟩)) (.temp ⟨3⟩)])

theorem sampleFlatCall_unchanged :
    (Stm.sampleFlatCall.isSeq = false ∧ Stm.sampleFlatCall.isNop = false ∧
      (∀ e ∈ Stm.sampleFlatCall.parts, e.isEseq = false) ∧
      Stm.sampleFlatCall.callsPlaced = true) ∧
    Stm.sampleFlatCall.canonical { temps := 4, labels := 7 } =
      ([Stm.sampleFlatCall], { temps := 4, labels := 7 }) := by
  have plain : ∀ e ∈ Stm.sampleFlatCall.parts, e.isEseq = false := by
    simp [Stm.sampleFlatCall, Stm.parts, Exp.parts, Exp.linkedCall, Exp.linkParts, Exp.listParts,
      Exp.isEseq]
  exact ⟨⟨rfl, rfl, plain, rfl⟩,
    canonical_unchanged Stm.sampleFlatCall { temps := 4, labels := 7 } rfl rfl plain rfl⟩

end TreeCode.Tree
