/-!
Temporaries and labels, the two kinds of name that generated code is written with.
-/

namespace TreeCode

/-- A virtual register. Machine registers are temporaries as well: they are issued before any
other, so register number `k` of a machine is temporary `k`. -/
structure Temp where
  index : Nat
deriving DecidableEq

/-- The text of a temporary that has no name of its own. -/
def Temp.text (t : Temp) : String :=
  "t" ++ toString t.index

/-- A code or data address, known by its assembler name. -/
abbrev Label := String

end TreeCode
