import TreeCode.Machine.Frame
import TreeCode.Proofs.Machine.Roles
import TreeCode.Proofs.Mirror

/-!
Frames under other names. Machine registers keep theirs, so the layout of a frame and the entry and
exit sequences of functions come out the same.
-/

namespace TreeCode

variable {ρ : Renaming} {last : Supply} {conv : Convention}

/-- A renaming that touches neither the machine registers of a convention nor labels without a
dot, which are those that were not issued. -/
structure Renaming.Keeps (ρ : Renaming) (conv : Convention) : Prop where
  closed : conv.Closed
  machine : ∀ t ∈ conv.machine, ρ.temp t = t
  plain : ∀ label : Label, '.' ∉ label.toList → ρ.label label = label

namespace Renaming.Keeps

theorem registers (keeps : ρ.Keeps conv) {registers : List Temp}
    (machine : registers ⊆ conv.machine) : registers.map ρ.temp = registers := by
  induction registers with
  | nil => rfl
  | cons reg registers ih =>
    obtain ⟨here, others⟩ := List.cons_subset.mp machine
    rw [List.map_cons, keeps.machine reg here, ih others]

theorem framePointer (keeps : ρ.Keeps conv) : ρ.temp conv.framePointer = conv.framePointer :=
  keeps.machine _ keeps.closed.framePointer

theorem stackPointer (keeps : ρ.Keeps conv) : ρ.temp conv.stackPointer = conv.stackPointer :=
  keeps.machine _ keeps.closed.stackPointer

theorem returnValue (keeps : ρ.Keeps conv) : ρ.temp conv.returnValue = conv.returnValue :=
  keeps.machine _ keeps.closed.returnValue

theorem arguments (keeps : ρ.Keeps conv) : conv.arguments.map ρ.temp = conv.arguments :=
  keeps.registers keeps.closed.arguments

theorem calleeSaved (keeps : ρ.Keeps conv) : conv.calleeSaved.map ρ.temp = conv.calleeSaved :=
  keeps.registers keeps.closed.calleeSaved

end Renaming.Keeps

/-- A place under other names. -/
@[simp] def Access.rename (ρ : Renaming) : Access → Access
  | inFrame offset => inFrame offset
  | inReg t => inReg (ρ.temp t)

/-- A frame under other names. -/
def Frame.rename (ρ : Renaming) (frame : Frame) : Frame :=
  { frame with
    name := ρ.label frame.name
    formals := frame.formals.map (Access.rename ρ)
    incoming := frame.incoming.map (Option.map ρ.temp) }

@[simp] theorem Access.rename_value (access : Access) (fp : Tree.Exp) :
    (access.value fp).rename ρ = (access.rename ρ).value (fp.rename ρ) := by
  cases access <;> simp [Access.value]

theorem mirrors_allocate (frame : Frame) (escapes : Bool) :
    FreshMirrors ρ last (fun made => (made.1.rename ρ, made.2.rename ρ)) (frame.allocate escapes)
      ((frame.rename ρ).allocate escapes) := by
  cases escapes with
  | true => exact freshMirrors_pure rfl
  | false => exact freshMirrors_bind freshMirrors_freshTemp fun _ => freshMirrors_pure rfl

theorem rename_addStackFormal (frame : Frame) (offset : Int) :
    (frame.addStackFormal offset).rename ρ = (frame.rename ρ).addStackFormal offset := by
  simp [Frame.rename, Frame.addStackFormal]

theorem mirrors_addRegisterFormal (frame : Frame) (reg : Temp) (escapes : Bool) :
    FreshMirrors ρ last (Frame.rename ρ) (frame.addRegisterFormal reg escapes)
      ((frame.rename ρ).addRegisterFormal (ρ.temp reg) escapes) :=
  freshMirrors_bind (mirrors_allocate frame escapes) fun made =>
    freshMirrors_pure (by simp [Frame.rename])

theorem mirrors_addFormals (escapes : List Bool) (registers : List Temp) (index : Nat)
    (frame : Frame) :
    FreshMirrors ρ last (Frame.rename ρ) (Frame.addFormals conv escapes registers index frame)
      (Frame.addFormals conv escapes (registers.map ρ.temp) index (frame.rename ρ)) := by
  induction escapes generalizing registers index frame with
  | nil => exact freshMirrors_pure rfl
  | cons first rest ih =>
    cases registers with
    | nil =>
      rw [List.map_nil, Frame.addFormals, Frame.addFormals, ← rename_addStackFormal]
      exact ih [] (index + 1) _
    | cons reg registers =>
      rw [List.map_cons, Frame.addFormals, Frame.addFormals]
      exact freshMirrors_bind (mirrors_addRegisterFormal frame reg first) fun frame =>
        ih registers index frame

theorem mirrors_frameFor (keeps : ρ.Keeps conv) (name : Label) (escapes : List Bool) :
    Mirrors ρ last (Frame.rename ρ) (conv.frameFor name escapes)
      (conv.frameFor (ρ.label name) escapes) := by
  cases escapes with
  | nil => exact mirrors_pure rfl
  | cons first user =>
    unfold Convention.frameFor
    by_cases crowded : conv.outgoing < 1 + (user.length - conv.arguments.length)
    · simp only [crowded, if_true]
      exact mirrors_throw rfl
    · simp only [crowded, if_false]
      have formals := @mirrors_addFormals ρ last conv user conv.arguments 1
        (Frame.addStackFormal { name, wordSize := conv.wordSize } (conv.formalOffset 0))
      rw [keeps.arguments] at formals
      exact mirrors_draw formals (fun _ => rfl) (fun _ => rfl)

theorem rename_viewShift (keeps : ρ.Keeps conv) (frame : Frame) :
    (conv.viewShift frame).map (Tree.Stm.rename ρ) = conv.viewShift (frame.rename ρ) := by
  unfold Convention.viewShift
  rw [Frame.rename, List.zip_map, List.filterMap_map, List.map_filterMap]
  congr 1
  funext ⟨access, incoming⟩
  cases incoming with
  | none => rfl
  | some reg => simp [keeps.framePointer]

theorem mirrors_wrapBody (keeps : ρ.Keeps conv) (frame : Frame) (body : Tree.Stm) :
    FreshMirrors ρ last (Tree.Stm.rename ρ) (conv.wrapBody frame body)
      (conv.wrapBody (frame.rename ρ) (body.rename ρ)) := by
  refine freshMirrors_bind (freshMirrors_freshTemps _) fun copies => freshMirrors_pure ?_
  have saved : (copies.map ρ.temp).zip conv.calleeSaved =
      (copies.zip conv.calleeSaved).map (Prod.map ρ.temp ρ.temp) := by
    rw [← List.zip_map, keeps.calleeSaved]
  simp [saved, ← rename_viewShift keeps, Function.comp_def]

end TreeCode
