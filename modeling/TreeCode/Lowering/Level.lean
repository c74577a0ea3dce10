import TreeCode.Lowering.State

/-!
Levels and static links. Functions are nested; each has a level, which holds its frame and the
level of the function around it. The first formal of every level but the outermost is its static
link, the frame pointer of the level around it. So following links from a frame reaches the frames
of all enclosing functions, and no others.
-/

namespace TreeCode.Lowering

/-- What is known of a level. -/
def levelInfo (level : Level) : Lower LevelInfo := fun state =>
  match state.levels[level]? with
  | some info => .ok info state
  | none => .error (.unknownLevel level) state

/-- The formals of a level, the static link first. -/
def formalsOf (level : Level) : Lower (List Access) := do
  let info ← levelInfo level
  return info.frame.formals

/-- The frame of a level. -/
def frameOf (level : Level) : Lower Frame := do
  let info ← levelInfo level
  return info.frame

/-- The level around a level. -/
def parentOf (level : Level) : Lower (Option Level) := do
  let info ← levelInfo level
  return info.parent

/-- Add a level after all others and give its number. -/
def addLevel (info : LevelInfo) : Lower Level := fun state =>
  .ok state.levels.length { state with levels := state.levels ++ [info] }

/-- A new level inside `parent` for a function whose formals escape as `escapes` says. The static
link is put in front of them. -/
def openLevel (conv : Convention) (parent : Level) (name : Label) (escapes : List Bool) :
    Lower Level := do
  let _ ← levelInfo parent
  let frame ← conv.frameFor name (true :: escapes)
  addLevel { frame, parent := some parent }

/-- Storage for a new variable of `level`. -/
def allocateVariable (level : Level) (escapes : Bool) : Lower Access := do
  let info ← levelInfo level
  let (access, frame) ← info.frame.allocate escapes
  modify fun state => { state with levels := state.levels.set level { info with frame } }
  return access

/-- The frame pointer of `target`, computed from the frame pointer `fp` of `current` by following
static links. Only levels around `current` can be reached. -/
def climb (levels : List LevelInfo) (target : Level) (fp : Tree.Exp) (current : Level) :
    Except Error Tree.Exp :=
  if current = target then .ok fp
  else
    match levels[current]? with
    | none => .error (.unknownLevel current)
    | some info =>
      match info.frame.formals, info.parent with
      | link :: _, some parent =>
        -- A level is always opened after the level around it.
        if parent < current then climb levels target (link.value fp) parent
        else .error (.unknownLevel target)
      | _, _ => .error (.unknownLevel target)
termination_by current

/-- The frame pointer of `target` for code that runs in `source`. -/
def framePointerOf (conv : Convention) (source target : Level) : Lower Tree.Exp := do
  let state ← get
  climb state.levels target (.temp conv.framePointer) source

/-- A variable that lives at `access` of the level `declared`, for code that runs in `used`. -/
def variableAt (conv : Convention) (access : Access) (declared used : Level) : Lower Tree.Exp := do
  let fp ← framePointerOf conv used declared
  return access.value fp

/-- Finish the function of `level`, whose body is `body`. -/
def finishProc (conv : Convention) (level : Level) (body : Tree.Stm) : Lower Unit := do
  let frame ← frameOf level
  let body ← conv.wrapBody frame body
  addFragment (.proc level body)

end TreeCode.Lowering
