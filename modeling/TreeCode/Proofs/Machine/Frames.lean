import Mathlib.Data.List.Forall2
import TreeCode.Machine.Frame
import TreeCode.Proofs.Supply

/-!
Where frames keep variables. A variable that escapes is kept in memory, the static link is the
first formal and always kept in memory, and the temporaries that hold formals are fresh.
-/

namespace TreeCode

/-- Whether a variable lives in memory. -/
def Access.isInFrame : Access → Bool
  | .inFrame _ => true
  | .inReg _ => false

namespace Frame

theorem grows_allocate (frame : Frame) (escapes : Bool) : Grows (frame.allocate escapes) := by
  cases escapes with
  | true => exact grows_pure _
  | false => exact grows_bind grows_freshTemp fun _ => grows_pure _

@[simp] theorem allocate_name (frame : Frame) (escapes : Bool) (supply : Supply) :
    (frame.allocate escapes supply).1.2.name = frame.name := by
  cases escapes <;> rfl

@[simp] theorem allocate_formals (frame : Frame) (escapes : Bool) (supply : Supply) :
    (frame.allocate escapes supply).1.2.formals = frame.formals := by
  cases escapes <;> rfl

@[simp] theorem allocate_incoming (frame : Frame) (escapes : Bool) (supply : Supply) :
    (frame.allocate escapes supply).1.2.incoming = frame.incoming := by
  cases escapes <;> rfl

@[simp] theorem allocate_wordSize (frame : Frame) (escapes : Bool) (supply : Supply) :
    (frame.allocate escapes supply).1.2.wordSize = frame.wordSize := by
  cases escapes <;> rfl

@[simp] theorem allocate_labels (frame : Frame) (escapes : Bool) (supply : Supply) :
    (frame.allocate escapes supply).2.labels = supply.labels := by
  cases escapes <;> rfl

/-- An allocation gives no slots back. -/
theorem slots_le_allocate (frame : Frame) (escapes : Bool) (supply : Supply) :
    frame.slots ≤ (frame.allocate escapes supply).1.2.slots := by
  cases escapes with
  | true => exact Nat.le_succ _
  | false => exact Nat.le_refl _

/-- A variable that escapes is kept in memory. -/
theorem isInFrame_allocate (frame : Frame) {escapes : Bool} (supply : Supply)
    (escaping : escapes = true) :
    (frame.allocate escapes supply).1.1.isInFrame = true := by
  subst escaping
  rfl

/-- A temporary that holds a new variable is fresh. -/
theorem fresh_allocate {frame : Frame} {escapes : Bool} {supply : Supply} {t : Temp}
    (kept : (frame.allocate escapes supply).1.1 = .inReg t) :
    supply.temps ≤ t.index ∧ t.index < (frame.allocate escapes supply).2.temps := by
  cases escapes with
  | true => cases kept
  | false =>
    cases kept
    exact ⟨Nat.le_refl _, Nat.lt_succ_self _⟩

theorem addRegisterFormal_formals (frame : Frame) (reg : Temp) (escapes : Bool)
    (supply : Supply) :
    (frame.addRegisterFormal reg escapes supply).1.formals =
      frame.formals ++ [(frame.allocate escapes supply).1.1] := by
  cases escapes <;> rfl

theorem addRegisterFormal_incoming (frame : Frame) (reg : Temp) (escapes : Bool)
    (supply : Supply) :
    (frame.addRegisterFormal reg escapes supply).1.incoming = frame.incoming ++ [some reg] := by
  cases escapes <;> rfl

/-- What adding formals gives a frame: where they are kept and how they arrive. The temporaries
that hold them have indices from `low` up to `high`. -/
structure Receives (registers : List Temp) (low high : Nat) (escapes : List Bool)
    (kept : List Access) (incoming : List (Option Temp)) : Prop where
  stored : List.Forall₂ (fun flag access => flag = true → access.isInFrame = true) escapes kept
  fresh : ∀ t, .inReg t ∈ kept → low ≤ t.index ∧ t.index < high
  arrive : ∀ reg, some reg ∈ incoming → reg ∈ registers

theorem receives_nil (registers : List Temp) (n : Nat) : Receives registers n n [] [] [] where
  stored := .nil
  fresh := by simp
  arrive := by simp

/-- One more formal in front of others. -/
theorem Receives.cons {registers : List Temp} {low middle high : Nat} {escapes : List Bool}
    {kept : List Access} {incoming : List (Option Temp)} {flag : Bool} {access : Access}
    {arrival : Option Temp} (receives : Receives registers middle high escapes kept incoming)
    (stored : flag = true → access.isInFrame = true)
    (fresh : ∀ t, access = .inReg t → low ≤ t.index ∧ t.index < middle)
    (arrive : ∀ reg, arrival = some reg → reg ∈ registers)
    (from_le : low ≤ middle) (to_le : middle ≤ high) :
    Receives registers low high (flag :: escapes) (access :: kept) (arrival :: incoming) where
  stored := .cons stored receives.stored
  fresh := by
    intro t member
    rcases List.mem_cons.mp member with here | there
    · obtain ⟨atLeast, below⟩ := fresh t here.symm
      exact ⟨atLeast, Nat.lt_of_lt_of_le below to_le⟩
    · obtain ⟨atLeast, below⟩ := receives.fresh t there
      exact ⟨Nat.le_trans from_le atLeast, below⟩
  arrive := by
    intro reg member
    rcases List.mem_cons.mp member with here | there
    · exact arrive reg here.symm
    · exact receives.arrive reg there

/-- There may be more registers than are used. -/
theorem Receives.more {registers more : List Temp} {low high : Nat} {escapes : List Bool}
    {kept : List Access} {incoming : List (Option Temp)}
    (receives : Receives registers low high escapes kept incoming)
    (subset : ∀ reg ∈ registers, reg ∈ more) :
    Receives more low high escapes kept incoming :=
  ⟨receives.stored, receives.fresh, fun reg member => subset reg (receives.arrive reg member)⟩

theorem grows_addFormals (conv : Convention) :
    ∀ (escapes : List Bool) (registers : List Temp) (index : Nat) (frame : Frame),
      Grows (addFormals conv escapes registers index frame)
  | [], _, _, _ => grows_pure _
  | flag :: escapes, _ :: registers, index, frame =>
    grows_bind (grows_bind (grows_allocate frame flag) fun _ => grows_pure _) fun frame =>
      grows_addFormals conv escapes registers index frame
  | _ :: escapes, [], index, frame =>
    grows_addFormals conv escapes [] (index + 1) (frame.addStackFormal (conv.formalOffset index))

/-- Formals need no labels, and do not change what the function is called. -/
theorem addFormals_labels (conv : Convention) :
    ∀ (escapes : List Bool) (registers : List Temp) (index : Nat) (frame : Frame)
      (supply : Supply),
      (addFormals conv escapes registers index frame supply).1.name = frame.name ∧
        (addFormals conv escapes registers index frame supply).2.labels = supply.labels
  | [], _, _, _, _ => ⟨rfl, rfl⟩
  | flag :: escapes, reg :: registers, index, frame, supply => by
    obtain ⟨name, labels⟩ := addFormals_labels conv escapes registers index
      (frame.addRegisterFormal reg flag supply).1 (frame.addRegisterFormal reg flag supply).2
    exact ⟨name.trans (allocate_name frame flag supply),
      labels.trans (allocate_labels frame flag supply)⟩
  | _ :: escapes, [], index, frame, supply =>
    addFormals_labels conv escapes [] (index + 1) (frame.addStackFormal (conv.formalOffset index))
      supply

/-- Each formal gets the storage that its flag asks for, in order; those after the last register
stay on the stack. -/
theorem addFormals_receives (conv : Convention) :
    ∀ (escapes : List Bool) (registers : List Temp) (index : Nat) (frame : Frame)
      (supply : Supply), ∃ kept incoming,
      (addFormals conv escapes registers index frame supply).1.formals = frame.formals ++ kept ∧
      (addFormals conv escapes registers index frame supply).1.incoming =
        frame.incoming ++ incoming ∧
      Receives registers supply.temps (addFormals conv escapes registers index frame supply).2.temps
        escapes kept incoming
  | [], registers, _, _, supply =>
    ⟨[], [], (List.append_nil _).symm, (List.append_nil _).symm, receives_nil registers _⟩
  | flag :: escapes, reg :: registers, index, frame, supply => by
    let next := frame.addRegisterFormal reg flag supply
    obtain ⟨kept, incoming, formals, arrivals, receives⟩ :=
      addFormals_receives conv escapes registers index next.1 next.2
    refine ⟨(frame.allocate flag supply).1.1 :: kept, some reg :: incoming, ?_, ?_, ?_⟩
    · refine formals.trans ?_
      rw [addRegisterFormal_formals, List.append_assoc, List.singleton_append]
    · refine arrivals.trans ?_
      rw [addRegisterFormal_incoming, List.append_assoc, List.singleton_append]
    · refine (receives.more fun _ => List.mem_cons_of_mem reg).cons ?_ ?_ ?_ ?_ ?_
      · exact isInFrame_allocate frame supply
      · exact fun t kept => fresh_allocate kept
      · rintro _ ⟨⟩
        exact List.mem_cons_self
      · exact (grows_allocate frame flag supply).1
      · exact (grows_addFormals conv escapes registers index next.1 next.2).1
  | flag :: escapes, [], index, frame, supply => by
    let next := frame.addStackFormal (conv.formalOffset index)
    obtain ⟨kept, incoming, formals, arrivals, receives⟩ :=
      addFormals_receives conv escapes [] (index + 1) next supply
    refine ⟨.inFrame (conv.formalOffset index) :: kept, none :: incoming, ?_, ?_, ?_⟩
    · refine formals.trans ?_
      exact List.append_assoc _ [_] _
    · refine arrivals.trans ?_
      exact List.append_assoc _ [_] _
    · refine receives.cons (fun _ => rfl) ?_ ?_ (Nat.le_refl _) ?_
      · rintro _ ⟨⟩
      · rintro _ ⟨⟩
      · exact (grows_addFormals conv escapes [] (index + 1) next supply).1

/-- How formals arrive that are added to a frame when these registers are left and the next
stack position is `index`. -/
structure Arrives (conv : Convention) (registers : List Temp) (index count : Nat)
    (kept : List Access) (incoming : List (Option Temp)) : Prop where
  incoming : ∀ i < count, incoming[i]? = some registers[i]?
  kept : ∀ i < count, registers.length ≤ i →
    kept[i]? = some (.inFrame (conv.formalOffset (index + (i - registers.length))))

/-- Each formal arrives in its register, or on the stack if none is left. -/
theorem addFormals_arrives (conv : Convention) :
    ∀ (escapes : List Bool) (registers : List Temp) (index : Nat) (frame : Frame)
      (supply : Supply), ∃ kept incoming,
      (addFormals conv escapes registers index frame supply).1.formals = frame.formals ++ kept ∧
      (addFormals conv escapes registers index frame supply).1.incoming =
        frame.incoming ++ incoming ∧
      Arrives conv registers index escapes.length kept incoming
  | [], _, _, _, _ =>
    ⟨[], [], (List.append_nil _).symm, (List.append_nil _).symm, ⟨nofun, nofun⟩⟩
  | flag :: escapes, reg :: registers, index, frame, supply => by
    let next := frame.addRegisterFormal reg flag supply
    obtain ⟨kept, incoming, formals, arrivals, arrives⟩ :=
      addFormals_arrives conv escapes registers index next.1 next.2
    refine ⟨(frame.allocate flag supply).1.1 :: kept, some reg :: incoming, ?_, ?_, ?_, ?_⟩
    · refine formals.trans ?_
      rw [addRegisterFormal_formals, List.append_assoc, List.singleton_append]
    · refine arrivals.trans ?_
      rw [addRegisterFormal_incoming, List.append_assoc, List.singleton_append]
    · intro i inside
      cases i with
      | zero => rfl
      | succ i => exact arrives.incoming i (Nat.lt_of_succ_lt_succ inside)
    · intro i inside beyond
      cases i with
      | zero => exact absurd beyond (Nat.not_succ_le_zero _)
      | succ i =>
        rw [List.length_cons, Nat.add_sub_add_right]
        exact arrives.kept i (Nat.lt_of_succ_lt_succ inside) (Nat.le_of_succ_le_succ beyond)
  | flag :: escapes, [], index, frame, supply => by
    let next := frame.addStackFormal (conv.formalOffset index)
    obtain ⟨kept, incoming, formals, arrivals, arrives⟩ :=
      addFormals_arrives conv escapes [] (index + 1) next supply
    refine ⟨.inFrame (conv.formalOffset index) :: kept, none :: incoming, ?_, ?_, ?_, ?_⟩
    · refine formals.trans ?_
      exact List.append_assoc _ [_] _
    · refine arrivals.trans ?_
      exact List.append_assoc _ [_] _
    · intro i inside
      cases i with
      | zero => rfl
      | succ i => exact arrives.incoming i (Nat.lt_of_succ_lt_succ inside)
    · intro i inside beyond
      cases i with
      | zero => rfl
      | succ i =>
        have there := arrives.kept i (Nat.lt_of_succ_lt_succ inside) (Nat.zero_le i)
        rw [Nat.add_right_comm] at there
        exact there

end Frame

namespace Convention

/-- The frame of a nested function has the static link as its first formal, and then the others. -/
theorem frameFor_ok {conv : Convention} {name : Label} {flag : Bool} {escapes : List Bool}
    {supply supply' : Supply} {frame : Frame}
    (made : conv.frameFor name (flag :: escapes) supply = .ok frame supply') :
    Frame.addFormals conv escapes conv.arguments 1
      (Frame.addStackFormal { name, wordSize := conv.wordSize } (conv.formalOffset 0)) supply =
        (frame, supply') := by
  unfold frameFor at made
  simp only at made
  split at made
  next => cases made
  next =>
    cases made
    rfl

/-- The frame of a nested function: the static link stays where it arrives, and the other formals
are kept as their flags say. -/
theorem frameFor_receives {conv : Convention} {name : Label} {flag : Bool} {escapes : List Bool}
    {supply supply' : Supply} {frame : Frame}
    (made : conv.frameFor name (flag :: escapes) supply = .ok frame supply') :
    supply.Le supply' ∧ ∃ kept incoming,
      frame.formals = .inFrame (conv.formalOffset 0) :: kept ∧
      frame.incoming = none :: incoming ∧
      Frame.Receives conv.arguments supply.temps supply'.temps escapes kept incoming := by
  let first : Frame := { name, wordSize := conv.wordSize }
  let base := first.addStackFormal (conv.formalOffset 0)
  have grown := Frame.grows_addFormals conv escapes conv.arguments 1 base supply
  obtain ⟨kept, incoming, formals, arrivals, receives⟩ :=
    Frame.addFormals_receives conv escapes conv.arguments 1 base supply
  rw [frameFor_ok made] at grown formals arrivals receives
  exact ⟨grown, kept, incoming, formals, arrivals, receives⟩

theorem frameFor_labels {conv : Convention} {name : Label} {flag : Bool} {escapes : List Bool}
    {supply supply' : Supply} {frame : Frame}
    (made : conv.frameFor name (flag :: escapes) supply = .ok frame supply') :
    frame.name = name ∧ supply'.labels = supply.labels := by
  have same := Frame.addFormals_labels conv escapes conv.arguments 1
    (Frame.addStackFormal { name, wordSize := conv.wordSize } (conv.formalOffset 0)) supply
  rw [frameFor_ok made] at same
  exact same

/-- The frame of a nested function tells how its formals arrive: the static link at stack position
zero, then one formal in each argument register, and the others at the stack positions after the
link. -/
theorem frameFor_arrives {conv : Convention} {name : Label} {flag : Bool} {escapes : List Bool}
    {supply supply' : Supply} {frame : Frame}
    (made : conv.frameFor name (flag :: escapes) supply = .ok frame supply') :
    ∃ kept incoming, frame.formals = .inFrame (conv.formalOffset 0) :: kept ∧
      frame.incoming = none :: incoming ∧
      Frame.Arrives conv conv.arguments 1 escapes.length kept incoming := by
  let first : Frame := { name, wordSize := conv.wordSize }
  obtain ⟨kept, incoming, formals, arrivals, arrives⟩ :=
    Frame.addFormals_arrives conv escapes conv.arguments 1
      (first.addStackFormal (conv.formalOffset 0)) supply
  rw [frameFor_ok made] at formals arrivals
  exact ⟨kept, incoming, formals, arrivals, arrives⟩

/-- A frame is refused exactly for want of stack positions. -/
theorem frameFor_error_iff {conv : Convention} {name : Label} {flag : Bool} {escapes : List Bool}
    {supply : Supply} :
    (∃ fault supply', conv.frameFor name (flag :: escapes) supply =
        .error (.convention fault) supply') ↔
      conv.outgoing < 1 + (escapes.length - conv.arguments.length) := by
  unfold frameFor
  simp only
  split
  next crowded => exact iff_of_true ⟨_, _, rfl⟩ crowded
  next fits => exact iff_of_false (by rintro ⟨_, _, ⟨⟩⟩) fits

/-- A frame that is refused has not taken anything from the supply. -/
theorem frameFor_error {conv : Convention} {name : Label} {escapes : List Bool}
    {supply supply' : Supply} {error : Error}
    (failed : conv.frameFor name escapes supply = .error error supply') :
    supply' = supply := by
  cases escapes with
  | nil => cases failed
  | cons first user =>
    unfold frameFor at failed
    simp only at failed
    split at failed
    next => cases failed; rfl
    next => cases failed

/-- A convention for small examples: one argument is passed in a register and one on the stack. -/
def small : Convention where
  name := "small"
  wordSize := 8
  outgoing := 1
  registers :=
    { all := [("fp", ⟨0⟩), ("sp", ⟨1⟩), ("rv", ⟨2⟩), ("a0", ⟨3⟩)]
      framePointer := ⟨0⟩
      stackPointer := ⟨1⟩
      returnValue := ⟨2⟩
      arguments := [⟨3⟩]
      callerSaved := [⟨2⟩, ⟨3⟩]
      calleeSaved := [] }

end Convention

end TreeCode
