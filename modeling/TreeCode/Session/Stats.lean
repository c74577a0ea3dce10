import TreeCode.Code.Instr
import TreeCode.Text.Blank

/-!
Statistics of a session: how much was compiled, and how often each instruction was used. An
instruction counts by its mnemonic, the first word of its text; labels and blank texts do not
count.
-/

namespace TreeCode

/-- How often each word occurred, in the order of the words. -/
abbrev WordCounts := List (String × Nat)

/-- Count one more occurrence of a word. -/
def WordCounts.add (word : String) : WordCounts → WordCounts
  | [] => [(word, 1)]
  | (known, count) :: rest =>
    if word = known then (known, count + 1) :: rest
    else if word < known then (word, 1) :: (known, count) :: rest
    else (known, count) :: WordCounts.add word rest

/-- The words by falling number of occurrences; words that are equally frequent stay in order. -/
def WordCounts.byFrequency (counts : WordCounts) : WordCounts :=
  counts.mergeSort fun a b => b.2 ≤ a.2

/-- Statistics of a session. -/
structure Stats where
  functions : Nat := 0
  fragments : Nat := 0
  strings : Nat := 0
  escapingVariables : Nat := 0
  /-- Canonical statements that instructions were selected for. -/
  statements : Nat := 0
  /-- Instructions with a mnemonic. -/
  instructions : Nat := 0
  counts : WordCounts := []
  /-- Instructions of the largest function. -/
  largestSize : Nat := 0
  /-- The first function of that size; none as long as all are empty. -/
  largestName : String := ""
deriving DecidableEq

/-- The mnemonic of an instruction, if it has one. -/
def Instr.mnemonic? (instr : Instr) : Option String :=
  match instr.kind with
  | .label => none
  | _ => Text.firstWord? instr.asm

namespace Stats

/-- Record a compiled function. -/
def addFunction (stats : Stats) (name : Label) (statements : Nat) (instrs : List Instr) :
    Stats :=
  let mnemonics := instrs.filterMap Instr.mnemonic?
  let size := mnemonics.length
  { stats with
    functions := stats.functions + 1
    statements := stats.statements + statements
    instructions := stats.instructions + size
    counts := mnemonics.foldl (fun counts word => counts.add word) stats.counts
    largestSize := if stats.largestSize < size then size else stats.largestSize
    largestName := if stats.largestSize < size then name else stats.largestName }

/-- Record a fragment. -/
def addFragment (stats : Stats) : Stats :=
  { stats with fragments := stats.fragments + 1 }

/-- Record a string literal. -/
def addString (stats : Stats) : Stats :=
  { stats with strings := stats.strings + 1 }

/-- Record escaping variables. -/
def addEscaping (stats : Stats) (count : Nat) : Stats :=
  { stats with escapingVariables := stats.escapingVariables + count }

/-- How many mnemonics a report shows. -/
def shownMnemonics : Nat := 10

/-- The lines of the report on a session. -/
def lines (stats : Stats) : List String :=
  ["Compilation Session Statistics:",
    "  Functions compiled: " ++ toString stats.functions,
    "  Fragments: " ++ toString stats.fragments,
    "  String literals: " ++ toString stats.strings,
    "  Escaping variables: " ++ toString stats.escapingVariables,
    "  IR statements: " ++ toString stats.statements,
    "  Instructions emitted: " ++ toString stats.instructions]
  ++ (if stats.largestName.isEmpty then []
    else ["  Largest function: " ++ stats.largestName ++ " (" ++ toString stats.largestSize
      ++ " instructions)"])
  ++ (if stats.counts.isEmpty then []
    else "  Instruction breakdown:" ::
      (stats.counts.byFrequency.take shownMnemonics).map fun (word, count) =>
        "    " ++ word ++ ": " ++ toString count)

/-- The report on a session. -/
def report (stats : Stats) : String :=
  String.join (stats.lines.map (· ++ "\n"))

end Stats

end TreeCode
