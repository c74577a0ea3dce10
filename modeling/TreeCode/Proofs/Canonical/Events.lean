import TreeCode.Proofs.Canonical.Equations
import TreeCode.Proofs.Tree.Occurrences

/-!
Canonical form keeps everything that happens in a tree, in the order in which it happens: labels
are passed, jumps are taken, memory is written to and functions are called just as often and in the
same order as before. Only where the values of operands are kept meanwhile may differ.
-/

namespace TreeCode.Tree

/-- Something that happens when a tree is evaluated. -/
inductive Event where
  | label (name : Label)
  /-- A jump to one of `labels`. -/
  | jump (labels : List Label)
  | cjump (op : RelOp) (yes no : Label)
  /-- A word is written to memory. -/
  | store
  /-- A call, with or without a link, of so many arguments. -/
  | call (linked : Bool) (count : Nat)
deriving DecidableEq

/-- What happens when a word is moved to the given place. -/
def Exp.writeEvents : Exp → List Event
  | .mem _ => [.store]
  | .eseq _ dst => dst.writeEvents
  | _ => []

mutual
/-- What happens when an expression is evaluated, operands from left to right and before their
node. -/
def Exp.events : Exp → List Event
  | .const _ => []
  | .name _ => []
  | .temp _ => []
  | .binop _ left right => left.events ++ right.events
  | .mem address => address.events
  | .call func link args =>
    func.events ++ (Exp.linkEvents link ++ Exp.listEvents args) ++ [.call link.isSome args.length]
  | .eseq stm exp => stm.events ++ exp.events
/-- What happens when a call's link is evaluated. -/
def Exp.linkEvents : Option Exp → List Event
  | none => []
  | some link => link.events
/-- What happens when expressions are evaluated in order. -/
def Exp.listEvents : List Exp → List Event
  | [] => []
  | exp :: exps => exp.events ++ Exp.listEvents exps
/-- What happens when a statement is run. The destination of a move comes before its source. -/
def Stm.events : Stm → List Event
  | .move dst src => dst.events ++ src.events ++ dst.writeEvents
  | .exp exp => exp.events
  | .jump target labels => target.events ++ [.jump labels]
  | .cjump op left right yes no => left.events ++ right.events ++ [.cjump op yes no]
  | .seq first second => first.events ++ second.events
  | .label name => [.label name]
end

section Statements

variable {stm : Stm}

theorem events_of_isNop (nothing : stm.isNop = true) : stm.events = [] := by
  cases stm with
  | exp e =>
    cases e with
    | const value => rfl
    | _ => cases nothing
  | _ => cases nothing

/-- Joined statements have the events of both, in order. -/
theorem events_andThen (first second : Stm) :
    (first.andThen second).events = first.events ++ second.events := by
  unfold Stm.andThen
  by_cases nothing : first.isNop = true
  · rw [if_pos nothing, events_of_isNop nothing, List.nil_append]
  · rw [if_neg nothing]
    by_cases empty : second.isNop = true
    · rw [if_pos empty, events_of_isNop empty, List.append_nil]
    · rw [if_neg empty, Stm.events]

/-- What happens in the statements of a sequence is what happens in the sequence. -/
theorem flatMap_events_toList : ∀ stm : Stm, stm.toList.flatMap Stm.events = stm.events
  | .seq first second => by
    rw [Stm.toList, List.flatMap_append, flatMap_events_toList first,
      flatMap_events_toList second, Stm.events]
  | .exp e => by
    by_cases nothing : (Stm.exp e).isNop = true
    · rw [toList_of_isNop nothing, events_of_isNop nothing, List.flatMap_nil]
    · rw [toList_single (Bool.eq_false_iff.mpr nothing) (by simp), List.flatMap_singleton]
  | .move _ _ | .jump _ _ | .cjump _ _ _ _ _ | .label _ => List.append_nil _

theorem events_move_temp (t : Temp) (src : Exp) :
    (Stm.move (.temp t) src).events = src.events :=
  List.append_nil _

end Statements

/-- Whatever is issued, the effects and then the value that `parts` leaves make `events` happen. -/
def Shows (parts : Fresh (Stm × Exp)) (events : List Event) : Prop :=
  ∀ supply : Supply, (parts supply).1.1.events ++ (parts supply).1.2.events = events

section Operands

variable {e : Exp} {parts leftParts rightParts : Fresh (Stm × Exp)}
  {events later : List Event}

/-- Saving a value where it stands changes nothing, and a value that is not saved has either
nothing to its right or nothing in it that happens. -/
theorem events_before (operand : Stm × Exp) (later : Stm) (supply : Supply) :
    (before operand later supply).1.1.events ++ (before operand later supply).1.2.events =
      operand.1.events ++ operand.2.events ++ later.events := by
  by_cases kept : later.keeps operand.2 = true
  · rw [before_kept supply kept, events_andThen]
    rcases Bool.or_eq_true_iff.mp kept with nothing | still
    · rw [events_of_isNop nothing, List.append_nil, List.append_nil]
    · have silent : operand.2.events = [] := by
        cases value : operand.2 with
        | const _ | name _ => rfl
        | _ => rw [value] at still; cases still
      rw [silent, List.append_nil, List.append_nil]
  · rw [before_saved supply (Bool.eq_false_iff.mpr kept)]
    simp only [events_andThen, events_move_temp, Exp.events, List.append_nil, List.append_assoc]

/-- Hoisting a call shows the same events. -/
theorem Shows.hoist (shows : Shows parts events) : Shows (e.hoist parts) events := by
  intro supply
  cases e with
  | call func link args =>
    rw [hoist_call]
    simp only [events_andThen, events_move_temp, Exp.events, List.append_nil]
    exact shows _
  | _ => exact shows supply

/-- An operand in front of others, of which the effects are `rest` and the values make `values`
happen. -/
theorem Shows.operand (shows : Shows parts events) {rest : Stm} {values : List Event}
    (follows : rest.events ++ values = later) (supply : Supply) :
    let operand := e.hoist parts supply
    let all := before operand.1 rest operand.2
    all.1.1.events ++ (all.1.2.events ++ values) = events ++ later := by
  intro operand all
  have first : operand.1.1.events ++ operand.1.2.events = events := shows.hoist supply
  rw [← List.append_assoc, events_before, first, List.append_assoc, follows]

/-- Two operands, the left one first. -/
theorem Shows.pair (left right : Exp) (first : Shows leftParts events)
    (second : Shows rightParts later) (supply : Supply) :
    let right := right.hoist rightParts supply
    let left := left.hoist leftParts right.2
    let both := before left.1 right.1.1 left.2
    both.1.1.events ++ (both.1.2.events ++ right.1.2.events) = events ++ later :=
  first.operand (second.hoist supply) _

end Operands

theorem isSome_extractLink (link : Option Exp) (later : Stm) (supply : Supply) :
    (Exp.extractLink link later supply).1.2.isSome = link.isSome := by
  cases link with
  | none => rfl
  | some link => rfl

theorem length_extractArgs (args : List Exp) (supply : Supply) :
    (Exp.extractArgs args supply).1.2.length = args.length := by
  induction args with
  | nil => rfl
  | cons arg args ih => rw [extractArgs_cons, List.length_cons, ih, List.length_cons]

mutual
/-- Extraction keeps the events of an expression, in order. The induction is on the expression. -/
theorem shows_extract : ∀ e : Exp, e.allStms Stm.movesToPlace = true → Shows e.extract e.events
  | .const _, _ => fun _ => rfl
  | .name _, _ => fun _ => rfl
  | .temp _, _ => fun _ => rfl
  | .binop op left right, placed => by
    simp only [Exp.allStms, Bool.and_eq_true] at placed
    intro supply
    exact (shows_extract left placed.1).pair left right (shows_extract right placed.2) supply
  | .mem address, placed => by
    intro supply
    exact (shows_extract address placed).hoist supply
  | .call func link args, placed => by
    simp only [Exp.allStms, Bool.and_eq_true] at placed
    intro supply
    have linked := events_extractLink link placed.1.2 (events_extractArgs args placed.2 supply)
      (Exp.extractArgs args supply).2
    have all := (shows_extract func placed.1.1).operand (e := func) linked
      (Exp.extractLink link (Exp.extractArgs args supply).1.1 (Exp.extractArgs args supply).2).2
    simp only [extract_call, Exp.events, isSome_extractLink, length_extractArgs]
    rw [← List.append_assoc, all]
  | .eseq stm e, placed => by
    simp only [Exp.allStms, Bool.and_eq_true] at placed
    intro supply
    simp only [extract_eseq, events_andThen, Exp.events, List.append_assoc]
    rw [events_extract stm placed.1 supply, shows_extract e placed.2 _]
theorem events_extractLink : ∀ link : Option Exp, Exp.linkAllStms Stm.movesToPlace link = true →
    ∀ {rest : Stm} {values later : List Event}, rest.events ++ values = later →
    ∀ supply : Supply,
      (Exp.extractLink link rest supply).1.1.events ++
          (Exp.linkEvents (Exp.extractLink link rest supply).1.2 ++ values) =
        Exp.linkEvents link ++ later
  | none, _, _, _, _, follows, _ => follows
  | some link, placed, _, _, _, follows, supply =>
    (shows_extract link placed).operand follows supply
theorem events_extractArgs : ∀ args : List Exp, Exp.listAllStms Stm.movesToPlace args = true →
    ∀ supply : Supply, (Exp.extractArgs args supply).1.1.events ++
      Exp.listEvents (Exp.extractArgs args supply).1.2 = Exp.listEvents args
  | [], _, _ => rfl
  | arg :: args, placed, supply => by
    simp only [Exp.listAllStms, Bool.and_eq_true] at placed
    exact (shows_extract arg placed.1).operand (events_extractArgs args placed.2 supply) _
theorem events_extractMove {src : Exp} (shows : Shows src.extract src.events) :
    ∀ dst : Exp, dst.isPlace = true → dst.allStms Stm.movesToPlace = true → ∀ supply : Supply,
      (Exp.extractMove src src.extract dst supply).1.events = (Stm.move dst src).events
  | .temp t, _, _, supply => by
    rw [extractMove_temp, events_move_temp]
    simp only [events_andThen, events_move_temp]
    exact shows supply
  | .mem address, _, placed, supply => by
    have both := (shows_extract address placed).pair address src shows supply
    simp only [extractMove_mem, events_andThen, Stm.events, Exp.events, Exp.writeEvents]
    rw [← List.append_assoc, both]
  | .eseq stm dst, place, placed, supply => by
    simp only [Exp.allStms, Bool.and_eq_true] at placed
    rw [extractMove_eseq]
    simp only [events_andThen]
    rw [events_extract stm placed.1 supply, events_extractMove shows dst place placed.2]
    simp only [Stm.events, Exp.events, Exp.writeEvents, List.append_assoc]
/-- Extraction keeps the events of a statement, in order. -/
theorem events_extract : ∀ stm : Stm, stm.allStms Stm.movesToPlace = true → ∀ supply : Supply,
    (stm.extract supply).1.events = stm.events
  | .move dst src, placed, supply => by
    simp only [Stm.allStms, Stm.movesToPlace, Bool.and_eq_true] at placed
    exact events_extractMove (shows_extract src placed.2) dst placed.1.1 placed.1.2 supply
  | .exp e, placed, supply => by
    simp only [Stm.allStms, Bool.and_eq_true] at placed
    rw [extract_exp]
    simp only [events_andThen]
    exact shows_extract e placed.2 supply
  | .jump target labels, placed, supply => by
    simp only [Stm.allStms, Bool.and_eq_true] at placed
    have inner := (shows_extract target placed.2).hoist (e := target) supply
    simp only [extract_jump, events_andThen, Stm.events]
    rw [← List.append_assoc, inner]
  | .cjump op left right yes no, placed, supply => by
    simp only [Stm.allStms, Bool.and_eq_true] at placed
    have both := (shows_extract left placed.1.2).pair left right
      (shows_extract right placed.2) supply
    simp only [extract_cjump, events_andThen, Stm.events]
    rw [← List.append_assoc, both]
  | .seq first second, placed, supply => by
    simp only [Stm.allStms, Bool.and_eq_true] at placed
    simp only [extract_seq, events_andThen, Stm.events]
    rw [events_extract first placed.1.2 supply, events_extract second placed.2 _]
  | .label _, _, _ => rfl
end

/-- In the canonical form of a statement whose moves go to places, the same happens as in the
statement, in the same order: nothing is lost, nothing is done twice. -/
theorem canonical_preserves_events (stm : Stm) (supply : Supply) (placed : stm.placed = true) :
    (stm.canonical supply).1.flatMap Stm.events = stm.events := by
  rw [← events_extract stm placed supply]
  exact flatMap_events_toList _

/-- Stores `x < 0 ? f(g()) : 1` plus a linked call at an address that is computed by a call. -/
def Stm.sampleChoice : Stm :=
  .move (.mem (.plainCall "home" []))
    (.binop .plus
      (.eseq
        (.sequence [.cjump .lt (.temp ⟨0⟩) (.const 0) "yes" "no", .label "yes",
          .move (.temp ⟨1⟩) (.plainCall "f" [.plainCall "g" []]), .goto "join", .label "no",
          .move (.temp ⟨1⟩) (.const 1), .label "join"])
        (.temp ⟨1⟩))
      (.linkedCall "h" (.mem (.temp ⟨2⟩)) [.temp ⟨1⟩, .const 3]))

theorem sampleChoice_events : Stm.sampleChoice.placed = true ∧
    (Stm.sampleChoice.canonical { temps := 3 }).1.flatMap Stm.events =
      [.call false 0, .cjump .lt "yes" "no", .label "yes", .call false 0, .call false 1,
        .jump ["join"], .label "no", .label "join", .call true 2, .store] :=
  ⟨by decide, canonical_preserves_events Stm.sampleChoice { temps := 3 } (by decide)⟩

end TreeCode.Tree
