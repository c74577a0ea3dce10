import TreeCode.Code.Selection
import TreeCode.Lowering.Program
import TreeCode.Session.Assembly
import TreeCode.Session.Stats
import TreeCode.Source.Escape
import TreeCode.Target.Arch
import TreeCode.Tree.Canonical

/-!
Sessions. A session compiles programs for one machine, one after the other. All of them draw on
one supply, and the statistics add up; both keep what a failed compilation left.
-/

namespace TreeCode

/-- Settings of a session. -/
structure Config where
  arch : Arch := .x64
  /-- The label of the program itself. -/
  entry : Label := "tigermain"
deriving DecidableEq

/-- A session. -/
structure Session where
  config : Config
  conv : Convention
  supply : Supply
  stats : Stats := {}

/-- Computations on a session. A failure keeps the session that it arose in. -/
abbrev InSession := EStateM Error Session

instance : MonadLift Fresh InSession where
  monadLift act := fun session =>
    let (value, supply) := act session.supply
    .ok value { session with supply }

instance : MonadLift Select InSession where
  monadLift act := fun session =>
    match act { supply := session.supply } with
    | .ok value state => .ok value { session with supply := state.supply }
    | .error error state => .error error { session with supply := state.supply }

namespace Session

/-- A new session, in which the machine registers are all that was issued. -/
def start (config : Config) : Except Error Session :=
  match config.arch.target.convention.issue {} with
  | .ok conv supply => .ok { config, conv, supply }
  | .error error _ => .error error

/-- What selection works with in a session. -/
def selector (session : Session) : Selector :=
  { conv := session.conv, isa := session.config.arch.target.isa }

/-- The names of the temporaries. -/
def names (session : Session) : NameMap := session.supply.names

end Session

/-- Change the statistics. -/
def record (change : Stats → Stats) : InSession Unit :=
  modify fun session => { session with stats := change session.stats }

/-- Lower a program whose escaping variables are marked. -/
def lowerInSession (program : Source.Exp) : InSession (List Frame × List Fragment) := fun session =>
  let first := Lowering.start session.conv session.config.entry session.supply
  match Lowering.lowerProgram session.conv program first with
  | .ok _ state => .ok (state.frames, state.fragments) { session with supply := state.supply }
  | .error error state => .error error { session with supply := state.supply }

/-- Compile the function of a level. -/
def compileProc (frames : List Frame) (level : Level) (body : Tree.Stm) :
    InSession Procedure := do
  let sel := (← get).selector
  match frames[level]? with
  | none => throw (.unknownLevel level)
  | some frame =>
    let ir ← body.canonical
    let code ← sel.selectAll ir
    let instrs := Instr.atLabel frame.name :: code ++ [sel.exitSink]
    record fun stats => stats.addFunction frame.name ir.length instrs
    return { name := frame.name, level, ir, instrs }

/-- Compile a string literal. -/
def compileString (label : Label) (text : String) : InSession Literal := do
  let sel := (← get).selector
  record Stats.addString
  return { label, text, instrs := sel.stringLiteral label text }

/-- Compile fragments in order. -/
def compileFragments (frames : List Frame) :
    List Fragment → InSession (List Procedure × List Literal)
  | [] => return ([], [])
  | .proc level body :: rest => do
    record Stats.addFragment
    let proc ← compileProc frames level body
    let (procs, strings) ← compileFragments frames rest
    return (proc :: procs, strings)
  | .string label text :: rest => do
    record Stats.addFragment
    let string ← compileString label text
    let (procs, strings) ← compileFragments frames rest
    return (procs, string :: strings)

/-- Compile a program whose escaping variables are marked. -/
def compileMarked (program : Source.Exp) : InSession Assembly := do
  record fun stats => stats.addEscaping (program.binders.countP Source.Binder.escapes)
  let (frames, fragments) ← lowerInSession program
  let (procs, strings) ← compileFragments frames fragments
  return { frames, procs, strings }

/-- What a compilation leaves: the outcome, the program with its escaping variables marked, and
the session. -/
structure Compilation where
  outcome : Except Error Assembly
  program : Source.Exp
  session : Session

/-- Compile a program. -/
def Session.compile (session : Session) (program : Source.Exp) : Compilation :=
  match program.markEscaping with
  | (.error error, program) => { outcome := .error error, program, session }
  | (.ok _, program) =>
    match compileMarked program session with
    | .ok unit session => { outcome := .ok unit, program, session }
    | .error error session => { outcome := .error error, program, session }

end TreeCode
