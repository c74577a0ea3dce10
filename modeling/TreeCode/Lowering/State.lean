import TreeCode.Machine.Frame

/-!
The state of lowering: the nest of functions, the fragments finished so far, the names in scope
and the exits of the enclosing loops. Scopes and loops are entered through `inScope`, `inLoop` and
`outsideLoops`, which leave them again whether what runs inside succeeds or fails.
-/

namespace TreeCode

/-- A function's place in the nest of functions, by number; the program itself is level zero. -/
abbrev Level := Nat

/-- What is known of a level. -/
structure LevelInfo where
  frame : Frame
  /-- The level around it; the outermost has none. -/
  parent : Option Level
deriving DecidableEq

/-- A piece of output: the body of a function, or a string literal. -/
inductive Fragment where
  | proc (level : Level) (body : Tree.Stm)
  | string (label : Label) (text : String)

/-- What a name stands for. Variables and functions share one name space. -/
inductive Meaning where
  | variable (level : Level) (access : Access)
  | function (level : Level) (label : Label)
deriving DecidableEq

/-- The state of lowering. -/
structure Lowering where
  supply : Supply
  /-- Every level so far, by number. -/
  levels : List LevelInfo
  /-- The fragments in the order in which they were finished. -/
  fragments : List Fragment := []
  /-- The names in scope, the innermost scope first. -/
  scopes : List (List (String × Meaning)) := [[]]
  /-- The exits of the loops around the current place, the innermost first. -/
  exits : List Label := []

/-- Computations on the state of lowering. A failure keeps the state that it arose in. -/
abbrev Lower := EStateM Error Lowering

instance : MonadLift Fresh Lower where
  monadLift act := fun state =>
    let (value, supply) := act state.supply
    .ok value { state with supply }

instance : MonadLift Issue Lower where
  monadLift act := fun state =>
    match act state.supply with
    | .ok value supply => .ok value { state with supply }
    | .error error supply => .error error { state with supply }

instance : MonadLift (Except Error) Lower where
  monadLift act := fun state =>
    match act with
    | .ok value => .ok value state
    | .error error => .error error state

namespace Lowering

/-- A state with only the outermost level, whose function is called `entry`. -/
def start (conv : Convention) (entry : Label) (supply : Supply) : Lowering :=
  { supply, levels := [{ frame := { name := entry, wordSize := conv.wordSize }, parent := none }] }

/-- The frames of all levels, by number. -/
def frames (state : Lowering) : List Frame :=
  state.levels.map LevelInfo.frame

/-- Record a finished fragment. -/
def addFragment (fragment : Fragment) : Lower Unit :=
  modify fun state => { state with fragments := state.fragments ++ [fragment] }

/-- What `name` stands for in the innermost scope that has it. -/
def meaning? (name : String) : Lower (Option Meaning) := do
  let state ← get
  return state.scopes.findSome? fun scope => scope.lookup name

/-- Give `name` a meaning in the innermost scope, hiding any that it had there. -/
def bindName (name : String) (meaning : Meaning) : Lower Unit :=
  modify fun state =>
    match state.scopes with
    | [] => state
    | scope :: outer => { state with scopes := ((name, meaning) :: scope) :: outer }

/-- The exit of the innermost loop. -/
def loopExit? : Lower (Option Label) := do
  let state ← get
  return state.exits.head?

/-- Run `act` in a new scope. -/
def inScope {α : Type} (act : Lower α) : Lower α := fun state =>
  match act { state with scopes := [] :: state.scopes } with
  | .ok value state => .ok value { state with scopes := state.scopes.tail }
  | .error error state => .error error { state with scopes := state.scopes.tail }

/-- Run `act` inside a loop that is left at `exit`. -/
def inLoop {α : Type} (exit : Label) (act : Lower α) : Lower α := fun state =>
  match act { state with exits := exit :: state.exits } with
  | .ok value state => .ok value { state with exits := state.exits.tail }
  | .error error state => .error error { state with exits := state.exits.tail }

/-- Run `act` outside of all loops: the loops around a function cannot be left from inside it. -/
def outsideLoops {α : Type} (act : Lower α) : Lower α := fun outer =>
  match act { outer with exits := [] } with
  | .ok value state => .ok value { state with exits := outer.exits }
  | .error error state => .error error { state with exits := outer.exits }

end Lowering

end TreeCode
