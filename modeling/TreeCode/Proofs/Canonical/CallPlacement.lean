import TreeCode.Proofs.Canonical.Equations
import TreeCode.Proofs.Tree.Occurrences

/-!
Where calls stand in canonical code. A call should be all that a statement evaluates: the source
of a move to a temporary, or an expression statement. Only an operand that is itself a call is
moved to a temporary, though. An operand that is a call after some statements keeps it, unless
effects on its right make it be saved. The main result says exactly for which statements all calls
end up in their places.
-/

namespace TreeCode.Tree

/-- What an expression evaluates in the end, after the statements in front of it. -/
def Exp.result : Exp → Exp
  | .eseq _ e => e.result
  | e => e

/-- Whether an operand is a call after some statements. -/
def Exp.strays : Exp → Bool
  | .eseq _ e => e.result.isCall
  | _ => false

mutual
/-- Whether nothing has to run before the value of an expression. -/
def Exp.silent : Exp → Bool
  | .const _ => true
  | .name _ => true
  | .temp _ => true
  | .binop _ left right => !left.isCall && left.silent && (!right.isCall && right.silent)
  | .mem address => !address.isCall && address.silent
  | .call func link args =>
    !func.isCall && func.silent && (Exp.silentLink link && Exp.silentArgs args)
  | .eseq stm e => stm.silent && e.silent
/-- Whether nothing has to run before the value of a call's link. -/
def Exp.silentLink : Option Exp → Bool
  | none => true
  | some link => !link.isCall && link.silent
/-- Whether nothing has to run before the values of arguments. -/
def Exp.silentArgs : List Exp → Bool
  | [] => true
  | arg :: args => !arg.isCall && arg.silent && Exp.silentArgs args
/-- Whether nothing is left of a statement. -/
def Stm.silent : Stm → Bool
  | .exp e => e.silent && e.result.isConst
  | .seq first second => first.silent && second.silent
  | _ => false
end

mutual
/-- Whether all calls inside an expression end up in their places. The call of an operand does not
if it strays and nothing to the right of it has to run. -/
def Exp.settled : Exp → Bool
  | .const _ => true
  | .name _ => true
  | .temp _ => true
  | .binop _ left right =>
    left.settled && right.settled && !right.strays &&
      !(left.strays && (!right.isCall && right.silent))
  | .mem address => address.settled && !address.strays
  | .call func link args =>
    func.settled && (Exp.settledLink link (Exp.silentArgs args) && Exp.settledArgs args) &&
      !(func.strays && (Exp.silentLink link && Exp.silentArgs args))
  | .eseq stm e => stm.settled && e.settled
/-- The same for a call's link, where `quiet` says that nothing has to run for the arguments. -/
def Exp.settledLink : Option Exp → Bool → Bool
  | none, _ => true
  | some link, quiet => link.settled && !(link.strays && quiet)
/-- The same for arguments. -/
def Exp.settledArgs : List Exp → Bool
  | [] => true
  | arg :: args => arg.settled && Exp.settledArgs args && !(arg.strays && Exp.silentArgs args)
/-- The same for a move, where `src` is moved to the given place. -/
def Exp.settledMove (src : Exp) (settled : Bool) : Exp → Bool
  | .mem address =>
    address.settled && settled && !src.strays && !(address.strays && (!src.isCall && src.silent))
  | .eseq stm dst => stm.settled && Exp.settledMove src settled dst
  | _ => settled
/-- Whether all calls inside a statement end up in their places. -/
def Stm.settled : Stm → Bool
  | .move dst src => Exp.settledMove src src.settled dst
  | .exp e => e.settled
  | .jump target _ => target.settled && !target.strays
  | .cjump _ left right _ _ =>
    left.settled && right.settled && !right.strays &&
      !(left.strays && (!right.isCall && right.silent))
  | .seq first second => first.settled && second.settled
  | .label _ => true
end

/-! What is left of an expression to evaluate is of the kind of its result. -/

/-- What is left of an expression is a call if its result is one. -/
theorem isCall_extract : ∀ (e : Exp) (supply : Supply),
    (e.extract supply).1.2.isCall = e.result.isCall
  | .eseq stm e, supply => isCall_extract e (stm.extract supply).2
  | .const _, _ | .name _, _ | .temp _, _ | .binop _ _ _, _ | .mem _, _ | .call _ _ _, _ => rfl

theorem isConst_extract : ∀ (e : Exp) (supply : Supply),
    (e.extract supply).1.2.isConst = e.result.isConst
  | .eseq stm e, supply => isConst_extract e (stm.extract supply).2
  | .const _, _ | .name _, _ | .temp _, _ | .binop _ _ _, _ | .mem _, _ | .call _ _ _, _ => rfl

/-- An operand that is still a call after hoisting is one that strays. -/
theorem isCall_hoist (e : Exp) (supply : Supply) :
    (e.hoist e.extract supply).1.2.isCall = e.strays := by
  cases e with
  | eseq stm e => exact isCall_extract e _
  | _ => rfl

/-! Effects vanish exactly for silent expressions. -/

theorem isNop_exp (e : Exp) : (Stm.exp e).isNop = e.isConst := by
  cases e <;> rfl

theorem isNop_andThen_move (first : Stm) (dst src : Exp) :
    (first.andThen (.move dst src)).isNop = false := by
  rw [isNop_andThen]
  exact Bool.and_false _

/-- Only a statement with an effect can change the value of an operand. -/
theorem effect_of_not_kept {later : Stm} {value : Exp} (changed : later.keeps value = false) :
    later.isNop = false := by
  unfold Stm.keeps at changed
  exact (Bool.or_eq_false_iff.mp changed).1

/-- An operand goes before later statements without a trace only if there is nothing in either. -/
theorem isNop_before (operand : Stm × Exp) (later : Stm) (supply : Supply) :
    (before operand later supply).1.1.isNop = (operand.1.isNop && later.isNop) := by
  by_cases kept : later.keeps operand.2 = true
  · rw [before_kept supply kept, isNop_andThen]
  · have changed := Bool.eq_false_iff.mpr kept
    have effect := effect_of_not_kept changed
    simp only [before_saved supply changed, isNop_andThen, effect, Bool.and_false]

theorem isNop_hoist {e : Exp} (supply : Supply)
    (silent : ∀ supply, (e.extract supply).1.1.isNop = e.silent) :
    (e.hoist e.extract supply).1.1.isNop = (!e.isCall && e.silent) := by
  cases e with
  | call func link args =>
    simp only [hoist_call, isNop_andThen_move, Exp.isCall, Bool.not_true, Bool.false_and]
  | _ => exact silent supply

mutual
/-- There is nothing to do for an expression that is silent. The induction is on the expression,
together with links, arguments and statements. -/
theorem isNop_extract : ∀ (e : Exp) (supply : Supply),
    (e.extract supply).1.1.isNop = e.silent
  | .const _, _ | .name _, _ | .temp _, _ => rfl
  | .binop op left right, supply => by
    simp only [extract_binop, isNop_before, isNop_hoist _ (isNop_extract left),
      isNop_hoist _ (isNop_extract right), Exp.silent]
  | .mem address, supply => by
    simp only [extract_mem, isNop_hoist _ (isNop_extract address), Exp.silent]
  | .call func link args, supply => by
    simp only [extract_call, isNop_before, isNop_hoist _ (isNop_extract func),
      isNop_extractLink link, isNop_extractArgs args, Exp.silent]
  | .eseq stm e, supply => by
    simp only [extract_eseq, isNop_andThen, isNop_stm stm, isNop_extract e, Exp.silent]
theorem isNop_extractLink : ∀ (link : Option Exp) (later : Stm) (supply : Supply),
    (Exp.extractLink link later supply).1.1.isNop = (Exp.silentLink link && later.isNop)
  | none, later, supply => by
    simp only [extractLink_none, Exp.silentLink, Bool.true_and]
  | some link, later, supply => by
    simp only [extractLink_some, isNop_before, isNop_hoist _ (isNop_extract link), Exp.silentLink]
theorem isNop_extractArgs : ∀ (args : List Exp) (supply : Supply),
    (Exp.extractArgs args supply).1.1.isNop = Exp.silentArgs args
  | [], _ => rfl
  | arg :: args, supply => by
    simp only [extractArgs_cons, isNop_before, isNop_hoist _ (isNop_extract arg),
      isNop_extractArgs args, Exp.silentArgs]
theorem isNop_extractMove (src : Exp) (parts : Fresh (Stm × Exp)) : ∀ (dst : Exp) (supply : Supply),
    (Exp.extractMove src parts dst supply).1.isNop = false
  | .eseq stm dst, supply => by
    simp only [extractMove_eseq, isNop_andThen, isNop_extractMove src parts dst, Bool.and_false]
  | .const _, _ | .name _, _ | .temp _, _ | .binop _ _ _, _ | .mem _, _ | .call _ _ _, _ =>
    isNop_andThen_move _ _ _
/-- There is nothing to do for a statement that is silent. -/
theorem isNop_stm : ∀ (stm : Stm) (supply : Supply), (stm.extract supply).1.isNop = stm.silent
  | .move dst src, supply => isNop_extractMove src src.extract dst supply
  | .exp e, supply => by
    simp only [extract_exp, isNop_andThen, isNop_exp, isNop_extract e, isConst_extract, Stm.silent]
  | .jump target labels, supply => by
    rw [extract_jump, isNop_andThen]
    exact Bool.and_false _
  | .cjump op left right yes no, supply => by
    rw [extract_cjump, isNop_andThen]
    exact Bool.and_false _
  | .seq first second, supply => by
    simp only [extract_seq, isNop_andThen, isNop_stm first, isNop_stm second, Stm.silent]
  | .label _, _ => rfl
end

/-! Calls are in their places exactly for settled expressions. -/

/-- Whether the calls in all statements of a sequence are in their places. -/
def Stm.allPlaced (stm : Stm) : Bool := stm.toList.all Stm.callsPlaced

/-- Calls are placed in two statements together if they are in both. -/
theorem allPlaced_andThen (first second : Stm) :
    (first.andThen second).allPlaced = (first.allPlaced && second.allPlaced) := by
  rw [Stm.allPlaced, toList_andThen, List.all_append]
  rfl

theorem allPlaced_single {stm : Stm} (something : stm.isNop = false)
    (whole : ∀ first second, stm ≠ .seq first second) : stm.allPlaced = stm.callsPlaced := by
  rw [Stm.allPlaced, toList_single something whole, List.all_cons, List.all_nil, Bool.and_true]

theorem allPlaced_exp (e : Exp) : (Stm.exp e).allPlaced = e.callsAtRoot := by
  cases e with
  | const value => rfl
  | _ => exact allPlaced_single rfl nofun

theorem allPlaced_move_temp (t : Temp) (e : Exp) :
    (Stm.move (.temp t) e).allPlaced = e.callsAtRoot :=
  allPlaced_single rfl nofun

theorem allPlaced_move_mem (address e : Exp) :
    (Stm.move (.mem address) e).allPlaced = (address.callFree && e.callFree) :=
  allPlaced_single rfl nofun

theorem allPlaced_jump (target : Exp) (labels : List Label) :
    (Stm.jump target labels).allPlaced = target.callFree :=
  allPlaced_single rfl nofun

theorem allPlaced_cjump (op : RelOp) (left right : Exp) (yes no : Label) :
    (Stm.cjump op left right yes no).allPlaced = (left.callFree && right.callFree) :=
  allPlaced_single rfl nofun

/-- An expression that is free of calls is one that is no call and has none inside. -/
theorem callFree_eq (e : Exp) : e.callFree = (e.callsAtRoot && !e.isCall) := by
  cases e <;> simp [Exp.callFree, Exp.callsAtRoot, Exp.isCall]

/-- Whether the calls of an expression that was taken apart are in their places. -/
def fine (parts : Stm × Exp) : Bool := parts.1.allPlaced && parts.2.callsAtRoot

theorem fine_hoist {e : Exp} (supply : Supply)
    (settled : ∀ supply, fine (e.extract supply).1 = e.settled) :
    fine (e.hoist e.extract supply).1 = e.settled := by
  cases e with
  | call func link args =>
    rw [hoist_call]
    simp only [fine, allPlaced_andThen, allPlaced_move_temp, Exp.callsAtRoot, Exp.callFree,
      Bool.and_true]
    exact settled _
  | _ => exact settled supply

/-- A single operand: its value must not be a call. -/
theorem placed_single {e : Exp} (supply : Supply)
    (settled : ∀ supply, fine (e.extract supply).1 = e.settled) :
    ((e.hoist e.extract supply).1.1.allPlaced && (e.hoist e.extract supply).1.2.callFree) =
      (e.settled && !e.strays) := by
  have hoisted := fine_hoist supply settled
  rw [callFree_eq, isCall_hoist, ← Bool.and_assoc]
  rw [fine] at hoisted
  rw [hoisted]

/-- A call that is kept in its operand has nothing to run after it. -/
theorem isCall_of_kept {later : Stm} {value : Exp} (kept : later.keeps value = true) :
    value.isCall = (value.isCall && later.isNop) := by
  cases value with
  | call func link args =>
    have quiet : later.isNop = true := by simpa [Stm.keeps] using kept
    rw [quiet, Bool.and_true]
  | _ => rfl

/-- An operand that is saved is in place if its calls were. -/
theorem placed_before (operand : Stm × Exp) (later : Stm) (supply : Supply) :
    ((before operand later supply).1.1.allPlaced &&
        (before operand later supply).1.2.callFree) =
      (fine operand && later.allPlaced && !(operand.2.isCall && later.isNop)) := by
  by_cases kept : later.keeps operand.2 = true
  · rw [before_kept supply kept, allPlaced_andThen, callFree_eq]
    rw [← isCall_of_kept kept, fine]
    ac_rfl
  · have changed := Bool.eq_false_iff.mpr kept
    have effect := effect_of_not_kept changed
    rw [before_saved supply changed]
    simp only [allPlaced_andThen, allPlaced_move_temp, effect, Exp.callFree, Bool.and_false,
      Bool.not_false, Bool.and_true, fine]
    ac_rfl

/-- An operand in front of others. The flag `others` says that the values of these are free of
calls. -/
theorem placed_operand {e : Exp} (later : Stm) (others : Bool) (supply : Supply)
    (settled : ∀ supply, fine (e.extract supply).1 = e.settled) :
    let operand := e.hoist e.extract supply
    let all := before operand.1 later operand.2
    (all.1.1.allPlaced && (all.1.2.callFree && others)) =
      (e.settled && (later.allPlaced && others) && !(e.strays && later.isNop)) := by
  intro operand all
  have placed := placed_before operand.1 later operand.2
  rw [isCall_hoist, fine_hoist supply settled] at placed
  rw [← Bool.and_assoc, placed]
  ac_rfl

/-- Two operands, the left one first. -/
theorem placed_pair {left right : Exp} (supply : Supply)
    (leftSettled : ∀ supply, fine (left.extract supply).1 = left.settled)
    (rightSettled : ∀ supply, fine (right.extract supply).1 = right.settled) :
    let later := right.hoist right.extract supply
    let operand := left.hoist left.extract later.2
    let both := before operand.1 later.1.1 operand.2
    (both.1.1.allPlaced && (both.1.2.callFree && later.1.2.callFree)) =
      (left.settled && right.settled && !right.strays &&
        !(left.strays && (!right.isCall && right.silent))) := by
  intro later operand both
  rw [placed_operand _ _ _ leftSettled, placed_single supply rightSettled,
    isNop_hoist supply (isNop_extract right), ← Bool.and_assoc]

mutual
/-- The calls of an expression end up in place exactly if the expression is settled. The induction
is on the expression; what a move writes to is a place throughout. -/
theorem fine_extract : ∀ (e : Exp) (supply : Supply), e.allStms Stm.movesToPlace = true →
    fine (e.extract supply).1 = e.settled
  | .const _, _, _ | .name _, _, _ | .temp _, _, _ => rfl
  | .binop op left right, supply, placed => by
    simp only [Exp.allStms, Bool.and_eq_true] at placed
    have both := placed_pair supply (fun supply => fine_extract left supply placed.1)
      (fun supply => fine_extract right supply placed.2)
    simpa only [extract_binop, fine, Exp.callsAtRoot, Exp.callFree, Exp.settled] using both
  | .mem address, supply, placed =>
    placed_single supply (fun supply => fine_extract address supply placed)
  | .call func link args, supply, placed => by
    simp only [Exp.allStms, Bool.and_eq_true] at placed
    simp only [extract_call, fine, Exp.callsAtRoot, Exp.settled]
    rw [placed_operand _ _ _ (fun supply => fine_extract func supply placed.1.1),
      placed_extractLink link _ _ _ placed.1.2, placed_extractArgs args supply placed.2,
      isNop_extractLink, isNop_extractArgs]
  | .eseq stm e, supply, placed => by
    simp only [Exp.allStms, Bool.and_eq_true] at placed
    simp only [extract_eseq, fine, allPlaced_andThen, Exp.settled]
    rw [allPlaced_extract stm supply placed.1, Bool.and_assoc]
    exact congrArg _ (fine_extract e _ placed.2)
theorem placed_extractLink : ∀ (link : Option Exp) (later : Stm) (others : Bool)
    (supply : Supply), Exp.linkAllStms Stm.movesToPlace link = true →
    ((Exp.extractLink link later supply).1.1.allPlaced &&
        ((Exp.extractLink link later supply).1.2.all Exp.callFree && others)) =
      (Exp.settledLink link later.isNop && (later.allPlaced && others))
  | none, later, others, supply, _ => by
    simp only [extractLink_none, Exp.settledLink, Option.all_none, Bool.true_and]
  | some link, later, others, supply, placed => by
    simp only [extractLink_some, Exp.settledLink, Option.all_some]
    rw [placed_operand _ _ _ (fun supply => fine_extract link supply placed)]
    ac_rfl
theorem placed_extractArgs : ∀ (args : List Exp) (supply : Supply),
    Exp.listAllStms Stm.movesToPlace args = true →
    ((Exp.extractArgs args supply).1.1.allPlaced &&
        (Exp.extractArgs args supply).1.2.all Exp.callFree) = Exp.settledArgs args
  | [], _, _ => rfl
  | arg :: args, supply, placed => by
    simp only [Exp.listAllStms, Bool.and_eq_true] at placed
    simp only [extractArgs_cons, List.all_cons, Exp.settledArgs]
    rw [placed_operand _ _ _ (fun supply => fine_extract arg supply placed.1),
      placed_extractArgs args supply placed.2, isNop_extractArgs]
theorem allPlaced_extractMove {src : Exp}
    (settled : ∀ supply, fine (src.extract supply).1 = src.settled) :
    ∀ (dst : Exp) (supply : Supply), dst.isPlace = true → dst.allStms Stm.movesToPlace = true →
      (Exp.extractMove src src.extract dst supply).1.allPlaced =
        Exp.settledMove src src.settled dst
  | .temp t, supply, _, _ => by
    simp only [extractMove_temp, allPlaced_andThen, allPlaced_move_temp, Exp.settledMove]
    exact settled supply
  | .mem address, supply, _, placed => by
    have both := placed_pair supply (fun supply => fine_extract address supply placed) settled
    simpa only [extractMove_mem, allPlaced_andThen, allPlaced_move_mem, Exp.settledMove] using both
  | .eseq stm dst, supply, place, placed => by
    simp only [Exp.allStms, Bool.and_eq_true] at placed
    simp only [extractMove_eseq, allPlaced_andThen, Exp.settledMove]
    rw [allPlaced_extract stm supply placed.1, allPlaced_extractMove settled dst _ place placed.2]
/-- The calls of a statement end up in place exactly if the statement is settled. -/
theorem allPlaced_extract : ∀ (stm : Stm) (supply : Supply),
    stm.allStms Stm.movesToPlace = true → (stm.extract supply).1.allPlaced = stm.settled
  | .move dst src, supply, placed => by
    simp only [Stm.allStms, Stm.movesToPlace, Bool.and_eq_true] at placed
    exact allPlaced_extractMove (fun supply => fine_extract src supply placed.2) dst supply
      placed.1.1 placed.1.2
  | .exp e, supply, placed => by
    simp only [Stm.allStms, Bool.and_eq_true] at placed
    simp only [extract_exp, allPlaced_andThen, allPlaced_exp, Stm.settled]
    exact fine_extract e supply placed.2
  | .jump target labels, supply, placed => by
    simp only [Stm.allStms, Bool.and_eq_true] at placed
    simp only [extract_jump, allPlaced_andThen, allPlaced_jump, Stm.settled]
    exact placed_single supply (fun supply => fine_extract target supply placed.2)
  | .cjump op left right yes no, supply, placed => by
    simp only [Stm.allStms, Bool.and_eq_true] at placed
    have both := placed_pair supply (fun supply => fine_extract left supply placed.1.2)
      (fun supply => fine_extract right supply placed.2)
    simpa only [extract_cjump, allPlaced_andThen, allPlaced_cjump, Stm.settled] using both
  | .seq first second, supply, placed => by
    simp only [Stm.allStms, Bool.and_eq_true] at placed
    simp only [extract_seq, allPlaced_andThen, Stm.settled]
    rw [allPlaced_extract first supply placed.1.2, allPlaced_extract second _ placed.2]
  | .label _, _, _ => rfl
end

/-- In the canonical form of a statement whose moves go to places, every call is in its place
exactly if the statement is settled: no operand that is a call after some statements is left
where nothing has to run to the right of it. -/
theorem canonical_calls_placed_iff (stm : Stm) (supply : Supply) (placed : stm.placed = true) :
    (∀ s ∈ (stm.canonical supply).1, s.callsPlaced = true) ↔ stm.settled = true := by
  rw [← allPlaced_extract stm supply placed, Stm.allPlaced, List.all_eq_true]
  rfl

/-- The sum of one and a call of `g`, after a call of `f`. -/
def Stm.sampleSum : Stm :=
  .exp (.binop .plus (.eseq (.exp (.plainCall "f" [])) (.plainCall "g" [])) (.const 1))

/-- A call may stay inside an operand. -/
theorem sampleSum_call_misplaced : Stm.sampleSum.placed = true ∧
    ¬ ∀ s ∈ (Stm.sampleSum.canonical {}).1, s.callsPlaced = true := by
  decide

/-- In `f(x, (y := 2; g()), id((x := 1; y)))`, the effects on the right of `g()` make it be
saved. -/
def Stm.sampleCall : Stm :=
  .move (.temp ⟨2⟩) (.plainCall "f" [.temp ⟨0⟩,
    .eseq (.move (.temp ⟨1⟩) (.const 2)) (.plainCall "g" []),
    .plainCall "id" [.eseq (.move (.temp ⟨0⟩) (.const 1)) (.temp ⟨1⟩)]])

theorem sampleCall_calls_placed : (Stm.sampleCall.placed = true ∧ Stm.sampleCall.settled = true) ∧
    ∀ s ∈ (Stm.sampleCall.canonical { temps := 3 }).1, s.callsPlaced = true :=
  ⟨by decide,
    (canonical_calls_placed_iff Stm.sampleCall { temps := 3 } (by decide)).mpr (by decide)⟩

end TreeCode.Tree
