import TreeCode.Temp

/-!
Names of temporaries. A map is a stack of layers: a function's own names may shadow the machine
registers without copying them. A look-up goes through the layers from the innermost outwards.
-/

namespace TreeCode

/-- One layer of names; at most one entry for each temporary. -/
abbrev NameLayer := List (Temp × String)

/-- Give `t` the name `name`, in place of any name that the layer had for it. -/
def NameLayer.insert (layer : NameLayer) (t : Temp) (name : String) : NameLayer :=
  (t, name) :: layer.filter fun entry => entry.1 != t

/-- Layers of names: the innermost one, and those that it lies over, nearest first. -/
structure NameMap where
  own : NameLayer := []
  outer : List NameLayer := []
deriving DecidableEq

namespace NameMap

/-- The map that names nothing. -/
def empty : NameMap := {}

/-- A new empty layer over `map`. -/
def newLayer (map : NameMap) : NameMap :=
  { own := [], outer := map.own :: map.outer }

/-- Name a temporary in the innermost layer. -/
def insert (map : NameMap) (t : Temp) (name : String) : NameMap :=
  { map with own := NameLayer.insert map.own t name }

/-- Name several temporaries in the innermost layer, the last entry for each winning. -/
def insertAll (map : NameMap) (entries : List (Temp × String)) : NameMap :=
  entries.foldl (fun map entry => map.insert entry.1 entry.2) map

/-- The name of `t` in the innermost layer that has one. -/
def lookup? (map : NameMap) (t : Temp) : Option String :=
  (map.own :: map.outer).findSome? fun layer => List.lookup t layer

/-- The name of `t`, or its plain text when no layer names it. -/
def name (map : NameMap) (t : Temp) : String :=
  (map.lookup? t).getD t.text

/-- How many temporaries the innermost layer names. -/
def ownSize (map : NameMap) : Nat :=
  map.own.length

end NameMap

end TreeCode
