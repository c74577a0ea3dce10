import TreeCode.NameMap

/-!
The supply of fresh temporaries and labels. One supply serves a whole session, so nothing it
hands out is ever handed out again. A code label is `.L` and a number, the label of a function
is its name, a dot and a number; both take their numbers from one counter. The counters are natural
numbers here, which never run out. A `WordSupply` has counters of 32 bits and issues the same until
there are no more words for its numbers.
-/

namespace TreeCode

/-- What has been issued so far. -/
structure Supply where
  /-- How many temporaries were issued; the next one has this index. -/
  temps : Nat := 0
  /-- How many labels were issued. -/
  labels : Nat := 0
  /-- Names of the temporaries that stand for machine registers. -/
  names : NameMap := .empty
deriving DecidableEq

/-- Computations that draw on the supply and cannot fail. -/
abbrev Fresh := StateM Supply

/-- A temporary that was not issued before. -/
def freshTemp : Fresh Temp := fun supply =>
  (⟨supply.temps⟩, { supply with temps := supply.temps + 1 })

/-- A new temporary known by `name` in the register names. -/
def freshNamed (name : String) : Fresh Temp := fun supply =>
  let t : Temp := ⟨supply.temps⟩
  (t, { supply with temps := supply.temps + 1, names := supply.names.insert t name })

/-- A new temporary for each of `names`, in order. -/
def freshNamedAll : List String → Fresh (List (String × Temp))
  | [] => pure []
  | name :: names => do
    let t ← freshNamed name
    let rest ← freshNamedAll names
    return (name, t) :: rest

/-- `count` new temporaries, in order of issue. -/
def freshTemps : Nat → Fresh (List Temp)
  | 0 => pure []
  | count + 1 => do
    let t ← freshTemp
    let rest ← freshTemps count
    return t :: rest

/-- A code label that was not issued before. -/
def freshLabel : Fresh Label := fun supply =>
  (".L" ++ toString supply.labels, { supply with labels := supply.labels + 1 })

/-- A label for the function `name` that was not issued before. -/
def freshLabelFor (name : String) : Fresh Label := fun supply =>
  (name ++ "." ++ toString supply.labels, { supply with labels := supply.labels + 1 })

end TreeCode
