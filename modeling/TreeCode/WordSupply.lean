import TreeCode.Supply

/-!
A supply with counters of 32 bits. It issues the same temporaries and labels as a supply that
counts with natural numbers, for as long as these numbers fit into a word. What happens after that
depends on the arithmetic: either the draw for which there is no next number fails, or the counter
begins again.
-/

namespace TreeCode

/-- What becomes of a counter that has no next number. -/
inductive Overflow where
  /-- The draw fails. -/
  | stops
  /-- The counter begins again. -/
  | wraps
deriving DecidableEq

/-- The number after `counter`. -/
def Overflow.next : Overflow → UInt32 → Option UInt32
  | stops, counter => if counter + 1 = 0 then none else some (counter + 1)
  | wraps, counter => some (counter + 1)

/-- What has been issued so far, counted in words. -/
structure WordSupply where
  /-- The index of the next temporary. -/
  nextTemp : UInt32 := 0
  /-- The number of the next label. -/
  nextLabel : UInt32 := 0
  /-- Names of the temporaries that stand for machine registers. -/
  names : NameMap := .empty
deriving DecidableEq

namespace WordSupply

/-- Computations that draw on the supply and fail where a counter stops. -/
abbrev Counted := StateT WordSupply Option

variable (overflow : Overflow)

/-- The next temporary. -/
def freshTemp : Counted Temp := fun supply =>
  (overflow.next supply.nextTemp).map fun next =>
    (⟨supply.nextTemp.toNat⟩, { supply with nextTemp := next })

/-- The next temporary, known by `name` in the register names. -/
def freshNamed (name : String) : Counted Temp := fun supply =>
  (overflow.next supply.nextTemp).map fun next =>
    let t : Temp := ⟨supply.nextTemp.toNat⟩
    (t, { supply with nextTemp := next, names := supply.names.insert t name })

/-- A code label with the next number. -/
def freshLabel : Counted Label := fun supply =>
  (overflow.next supply.nextLabel).map fun next =>
    (".L" ++ toString supply.nextLabel.toNat, { supply with nextLabel := next })

/-- A label for the function `name` with the next number. -/
def freshLabelFor (name : String) : Counted Label := fun supply =>
  (overflow.next supply.nextLabel).map fun next =>
    (name ++ "." ++ toString supply.nextLabel.toNat, { supply with nextLabel := next })

end WordSupply

end TreeCode
