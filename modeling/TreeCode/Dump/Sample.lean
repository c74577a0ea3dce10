import TreeCode.Source.Syntax

/-!
Sample programs. Each is given as a tree and as the source text that the tree stands for, in
which faults are shown.
-/

namespace TreeCode.Dump

open Source

/-- A sample program. -/
structure Sample where
  name : String
  source : String
  program : Exp

/-- The value of the variable `name`. -/
def ref (name : String) : Exp := .var (.simple name {})

/-- A call. -/
def call (func : String) (args : List Exp) : Exp := .call func args {}

/-- An operation on numbers. -/
def binary (oper : Oper) (left right : Exp) : Exp := .op oper left right false

/-- The declaration of a single function. -/
def function (name : String) (params : List String) (result : Option String) (body : Exp) : Dec :=
  .functions [⟨name, params.map fun param => { name := param }, result, body⟩]

/-- A field of the variable `record`. -/
def fieldOf (record name : String) (slot : Nat) : Var :=
  .field (.simple record {}) name (some slot) {}

/-- Prints a line. -/
def hello : Sample where
  name := "hello"
  source := "print(\"hello\\n\")"
  program := call "print" [.string "hello\n"]

/-- A recursive function. -/
def factorial : Sample where
  name := "factorial"
  source :=
    "let function fact(n: int): int = if n = 0 then 1 else n * fact(n - 1) in fact(10) end"
  program :=
    .letIn
      [function "fact" ["n"] (some "int")
        (.ifElse (binary .eq (ref "n") (.int 0)) (.int 1)
          (binary .times (ref "n") (call "fact" [binary .minus (ref "n") (.int 1)])))]
      (call "fact" [.int 10])

/-- A nested function that changes a variable of the program. -/
def nested : Sample where
  name := "nested"
  source :=
    "let var total := 0 function add(k: int) = total := total + k in for i := 1 to 10 do add(i) end"
  program :=
    .letIn
      [.var { name := "total" } (.int 0),
        function "add" ["k"] none
          (.assign (.simple "total" {}) (binary .plus (ref "total") (ref "k")))]
      (.forTo { name := "i" } (.int 1) (.int 10) (call "add" [ref "i"]))

/-- Reads and writes fields of a record. -/
def records : Sample where
  name := "records"
  source :=
    "let type point = \x7bx: int, y: int\x7d var p := point\x7bx = 1, y = 2\x7d in p.y := p.x + 40 end"
  program :=
    .letIn
      [.type "point" (.record ["x", "y"]),
        .var { name := "p" } (.record "point" [⟨"x", .int 1⟩, ⟨"y", .int 2⟩])]
      (.assign (fieldOf "p" "y" 1) (binary .plus (.var (fieldOf "p" "x" 0)) (.int 40)))

/-- Passes more arguments than most machines have argument registers. -/
def manyArgs : Sample where
  name := "many-args"
  source :=
    "let function sum8(a, b, c, d, e, f, g, h: int): int = a + h in sum8(1, 2, 3, 4, 5, 6, 7, 8) end"
  program :=
    .letIn
      [function "sum8" ["a", "b", "c", "d", "e", "f", "g", "h"] (some "int")
        (binary .plus (ref "a") (ref "h"))]
      (call "sum8" [.int 1, .int 2, .int 3, .int 4, .int 5, .int 6, .int 7, .int 8])

/-- Leaves a loop where there is none. -/
def broken : Sample where
  name := "broken"
  source := "(print(\"x\"); break)"
  program :=
    .seq [call "print" [.string "x"], .breakLoop { line := 1, column := 14 }]

/-- All samples. -/
def samples : List Sample := [hello, factorial, nested, records, manyArgs, broken]

end TreeCode.Dump
