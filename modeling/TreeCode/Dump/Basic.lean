import TreeCode.Dump.Sample
import TreeCode.Session.Basic

/-!
The dump of a sample program: its canonical tree code, if asked for, and its instructions. Faults
are shown with their place in the source text.
-/

namespace TreeCode.Dump

/-- What to dump. -/
structure Options where
  arch : String := "x64"
  sample : String := "factorial"
  /-- Whether to show the canonical tree code. -/
  ir : Bool := false
  /-- Whether to show the statistics of the session. -/
  stats : Bool := false

/-- What a program leaves when it ends. -/
structure Output where
  code : Nat
  stdout : String := ""
  stderr : String := ""

/-- The rest of `text` after `start`, if it begins so. -/
def textAfter? : List Char → List Char → Option (List Char)
  | [], text => some text
  | c :: start, d :: text => if c = d then textAfter? start text else none
  | _ :: _, [] => none

/-- Whether a command line argument names an option. -/
def isOption (arg : String) : Bool :=
  arg.toList.head? == some '-' && arg != "-"

/-- Read an argument that gives the value of an option after an equals sign, or is no option. -/
def Options.readOne (options : Options) (arg : String) : Option Options :=
  if arg = "--ir" then some { options with ir := true }
  else if arg = "--stats" then some { options with stats := true }
  else
    match textAfter? "--arch=".toList arg.toList with
    | some value => some { options with arch := String.ofList value }
    | none =>
      match textAfter? "--sample=".toList arg.toList with
      | some value => some { options with sample := String.ofList value }
      | none => none

/-- Read command line arguments; the first that is not understood is given back. -/
def Options.read (options : Options) : List String → Except String Options
  | [] => .ok options
  | [arg] =>
    match options.readOne arg with
    | some options => .ok options
    | none => .error arg
  | arg :: value :: rest =>
    if arg = "--arch" && !isOption value then Options.read { options with arch := value } rest
    else if arg = "--sample" && !isOption value then
      Options.read { options with sample := value } rest
    else
      match options.readOne arg with
      | some options => Options.read options (value :: rest)
      | none => .error arg

/-- A fault with its place, and the source line with a caret under the place if it is known. -/
def report (file source : String) (error : Error) : String :=
  let pos := error.place
  let head := file ++ "(" ++ pos.text ++ "): " ++ error.category ++ ": " ++ error.message ++ "\n"
  if pos.isKnown then
    match (source.splitOn "\n")[pos.line - 1]? with
    | some line =>
      head ++ line ++ "\n" ++ String.ofList (List.replicate (pos.column - 1) ' ') ++ "^\n"
    | none => head
  else head

/-- The dump of a function. -/
def procText (options : Options) (unit : Assembly) (names : NameMap) (proc : Procedure) :
    String :=
  "\n"
  ++ (match unit.frame? proc with
    | some frame =>
      "# " ++ proc.name ++ ": " ++ toString frame.formals.length ++ " formals, "
        ++ toString frame.localBytes ++ " bytes of locals\n"
    | none => "")
  ++ (if options.ir then String.join (proc.ir.map fun stm => "#   " ++ stm.text ++ "\n") else "")
  ++ String.join (proc.instrs.map (Instr.line names))

/-- The dump of a compiled program. -/
def unitText (options : Options) (unit : Assembly) (names : NameMap) : String :=
  String.join ((unit.strings.flatMap Literal.instrs).map fun instr =>
    instr.render names ++ "\n")
  ++ String.join (unit.procs.map (procText options unit names))

/-- Compile a sample and dump the result. -/
def dumpSample (options : Options) (sample : Sample) : Output :=
  let failed (error : Error) : Output :=
    { code := 1, stderr := report (sample.name ++ ".tig") sample.source error }
  match Arch.ofName options.arch with
  | .error error => failed error
  | .ok arch =>
    match Session.start { arch } with
    | .error error => failed error
    | .ok session =>
      let compiled := session.compile sample.program
      match compiled.outcome with
      | .error error => failed error
      | .ok unit =>
        { code := 0
          stdout := unitText options unit compiled.session.names
            ++ (if options.stats then "\n" ++ compiled.session.stats.report else "") }

/-- Dump the sample that the options name. -/
def dump (options : Options) : Output :=
  match samples.find? fun sample => sample.name == options.sample with
  | some sample => dumpSample options sample
  | none =>
    { code := 2
      stderr := "unknown sample '" ++ options.sample ++ "'; available: "
        ++ String.intercalate ", " (samples.map Sample.name) ++ "\n" }

/-- Run with the given command line arguments. -/
def run (args : List String) : Output :=
  match ({} : Options).read args with
  | .ok options => dump options
  | .error arg => { code := 2, stderr := "error: unexpected argument '" ++ arg ++ "' found\n" }

end TreeCode.Dump
