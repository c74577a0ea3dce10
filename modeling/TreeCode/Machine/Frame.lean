import TreeCode.Machine.Convention

/-!
Activation records. A frame says where each formal and each local of a function lives: in a
temporary, or at a fixed distance from the frame pointer.

```
fp + 2w + kw    the k-th stack-passed formal
fp + 2w         the static link of a nested function
fp + w          the return address
fp              the frame pointer of the caller
fp - w, ...     escaping formals and locals, one word each
```
-/

namespace TreeCode

/-- Where a variable lives. -/
inductive Access where
  /-- In memory, at this distance from the frame pointer. -/
  | inFrame (offset : Int)
  | inReg (t : Temp)
deriving DecidableEq

/-- The value at `access` in the frame with the given frame pointer. -/
def Access.value (access : Access) (framePointer : Tree.Exp) : Tree.Exp :=
  match access with
  | .inFrame offset => .mem (.binop .plus framePointer (.const offset))
  | .inReg t => .temp t

/-- The layout of one function's activation record. -/
structure Frame where
  name : Label
  wordSize : Int
  /-- Where the function keeps its formals. -/
  formals : List Access := []
  /-- The register in which each formal arrives; stack-passed formals have none. -/
  incoming : List (Option Temp) := []
  /-- Words handed out below the frame pointer. -/
  slots : Nat := 0
  /-- Argument registers taken by formals. -/
  registersUsed : Nat := 0
deriving DecidableEq

namespace Frame

/-- Bytes below the frame pointer in use. -/
def localBytes (frame : Frame) : Int := frame.slots * frame.wordSize

/-- The frame with one more word below the frame pointer in use. -/
def grow (frame : Frame) : Frame := { frame with slots := frame.slots + 1 }

/-- The last word handed out. -/
def lastSlot (frame : Frame) : Access := .inFrame (-(frame.slots : Int) * frame.wordSize)

/-- Storage for one more variable: the next word of the frame if it escapes, a fresh temporary
otherwise. How many temporaries a machine can hold is not of concern here. -/
def allocate (frame : Frame) (escapes : Bool) : Fresh (Access × Frame) :=
  if escapes then
    return (frame.grow.lastSlot, frame.grow)
  else do
    let t ← freshTemp
    return (.inReg t, frame)

/-- Add a formal that arrives on the stack and stays there. -/
def addStackFormal (frame : Frame) (offset : Int) : Frame :=
  { frame with
    formals := frame.formals ++ [.inFrame offset]
    incoming := frame.incoming ++ [none] }

/-- Add a formal that arrives in `reg`. -/
def addRegisterFormal (frame : Frame) (reg : Temp) (escapes : Bool) : Fresh Frame := do
  let (access, frame) ← frame.allocate escapes
  return { frame with
    formals := frame.formals ++ [access]
    incoming := frame.incoming ++ [some reg]
    registersUsed := frame.registersUsed + 1 }

/-- Add formals in order. The leading ones arrive in `registers`, the others on the stack, the
first of them at stack position `index`. -/
def addFormals (conv : Convention) :
    List Bool → List Temp → Nat → Frame → Fresh Frame
  | [], _, _, frame => return frame
  | escapes :: rest, reg :: registers, index, frame => do
    let frame ← frame.addRegisterFormal reg escapes
    addFormals conv rest registers index frame
  | _ :: rest, [], index, frame =>
    addFormals conv rest [] (index + 1) (frame.addStackFormal (conv.formalOffset index))

end Frame

namespace Convention

/-- The frame of a function whose formals escape as `escapes` says. The first formal is the
static link, which arrives at stack position zero and stays there; no formals at all are those of
the program itself. -/
def frameFor (conv : Convention) (name : Label) : List Bool → Issue Frame
  | [] => return { name, wordSize := conv.wordSize }
  | _ :: user =>
    let onStack := 1 + (user.length - conv.arguments.length)
    if conv.outgoing < onStack then
      throw (.convention (.tooManyFormals name onStack conv.name conv.outgoing))
    else
      let frame : Frame := { name, wordSize := conv.wordSize }
      Frame.addFormals conv user conv.arguments 1
        (frame.addStackFormal (conv.formalOffset 0))

/-- Moves of the formals that arrive in registers to where the function keeps them. -/
def viewShift (conv : Convention) (frame : Frame) : List Tree.Stm :=
  (frame.formals.zip frame.incoming).filterMap fun
    | (access, some reg) =>
      some (.move (access.value (.temp conv.framePointer)) (.temp reg))
    | (_, none) => none

/-- The body of a function with its entry and exit sequences: formals are moved to where the
function keeps them, and the registers that it has to preserve are copied to fresh temporaries
and back. -/
def wrapBody (conv : Convention) (frame : Frame) (body : Tree.Stm) : Fresh Tree.Stm := do
  let copies ← freshTemps conv.calleeSaved.length
  let saved := copies.zip conv.calleeSaved
  let saves := saved.map fun (copy, reg) => Tree.Stm.move (.temp copy) (.temp reg)
  let restores := saved.map fun (copy, reg) => Tree.Stm.move (.temp reg) (.temp copy)
  return .sequence (conv.viewShift frame ++ saves ++ body :: restores)

end Convention

end TreeCode
