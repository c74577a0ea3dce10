import TreeCode.Proofs.Lowering.Visitor

/-!
Where lowering puts the variables of a program. `residences` follows lowering through a program and
collects each variable that is introduced, together with the storage that its name is bound to by
then.
-/

namespace TreeCode.Lowering

open Source (Introduction)
open Source.Outline (parameters)

/-- A variable and where it lives. -/
structure Residence where
  entry : Introduction
  access : Access
deriving DecidableEq

/-- Where a variable lives according to an entry of a scope, if it is the entry of this variable. -/
def Residence.read? (entry : Introduction) : String × Meaning → Option Residence
  | (name, .variable owner access) =>
    if name = entry.binder.name ∧ owner = entry.owner then some ⟨entry, access⟩ else none
  | (_, .function _ _) => none

/-- Where variables live according to the entries of a scope, one for each of them. -/
def Residence.readAll : List Introduction → List (String × Meaning) → List Residence
  | entry :: entries, binding :: bindings =>
    (Residence.read? entry binding).toList ++ Residence.readAll entries bindings
  | _, _ => []

/-- The names that have been bound last in the innermost scope, in order. -/
def lastBound (count : Nat) (s : Lowering) : List (String × Meaning) :=
  ((s.scopes.headD []).take count).reverse

/-- Where variables live whose names have just been bound, in order. -/
def boundHomes (entries : List Introduction) (s : Lowering) : List Residence :=
  Residence.readAll entries (lastBound entries.length s)

/-- The visitor that collects the variables that are introduced. -/
abbrev collecting : Visitor (List Residence) where
  nothing := []
  both := (· ++ ·)
  use _ _ _ := []
  introduced := boundHomes

section Bindings

variable {own : Level} {s t : Lowering}

theorem Residence.read?_self (entry : Introduction) (access : Access) :
    Residence.read? entry (entry.binder.name, .variable entry.owner access) =
      some ⟨entry, access⟩ :=
  if_pos ⟨rfl, rfl⟩

/-- A variable lives where its name has been bound to. -/
theorem boundHomes_bound (someScope : s.scopes ≠ []) (entry : Introduction) (access : Access) :
    boundHomes [entry] (s.bound entry.binder.name (.variable entry.owner access)) =
      [⟨entry, access⟩] := by
  obtain ⟨supply, levels, fragments, scopes, exits⟩ := s
  cases scopes with
  | nil => exact absurd rfl someScope
  | cons scope outer =>
    change (Residence.read? entry (entry.binder.name,
      .variable entry.owner access)).toList ++ [] = _
    rw [Residence.read?_self]
    rfl

/-- What the names of parameters are bound to, the formals of the function in order. -/
def paramMeanings (owner : Level) (params : List Source.Binder) (formals : List Access) :
    List (String × Meaning) :=
  List.zipWith (fun param access => (param.name, .variable owner access)) params formals

/-- The names of the parameters are brought into the innermost scope, the last one in front. -/
theorem bindParams_scopes :
    ∀ (params : List Source.Binder) (formals : List Access) {s t : Lowering},
      bindParams own params formals s = .ok () t →
      t.scopes = addNames (paramMeanings own params formals).reverse s.scopes
  | [], _, s, _, ran => by
    obtain ⟨-, rfl⟩ := pure_ok.mp ran
    cases scopes : s.scopes <;> rfl
  | _ :: _, [], s, _, ran => by
    obtain ⟨-, rfl⟩ := pure_ok.mp ran
    cases scopes : s.scopes <;> rfl
  | param :: params, access :: formals, s, _, ran => by
    obtain ⟨_, _, named, ran⟩ := bind_ok.mp ran
    obtain rfl := bindName_ok.mp named
    rw [bindParams_scopes params formals ran]
    change addNames _ (addNames [_] s.scopes) =
      addNames (_ :: paramMeanings own params formals).reverse s.scopes
    rw [addNames_addNames, List.reverse_cons]

/-- Parameters of `owner` from the one at `place` on, each in the storage of its formal. -/
def paramResidences (owner : Level) : Nat → List Source.Binder → List Access → List Residence
  | place, binder :: params, access :: formals =>
    ⟨{ owner, position := some place, binder }, access⟩ ::
      paramResidences owner (place + 1) params formals
  | _, _, _ => []

/-- What is read back for parameters is the storage of their formals. -/
theorem readAll_paramMeanings (owner : Level) :
    ∀ (place : Nat) (params : List Source.Binder) (formals : List Access),
      Residence.readAll (parameters owner place params) (paramMeanings owner params formals) =
        paramResidences owner place params formals
  | _, [], _ => rfl
  | _, _ :: _, [] => rfl
  | place, param :: params, access :: formals => by
    have first := Residence.read?_self { owner, position := some place, binder := param } access
    change (Residence.read? _ _).toList ++
      Residence.readAll _ (paramMeanings owner params formals) = _
    rw [first, readAll_paramMeanings owner (place + 1) params formals]
    rfl

theorem length_parameters (owner : Level) : ∀ (place : Nat) (params : List Source.Binder),
    (parameters owner place params).length = params.length
  | _, [] => rfl
  | place, _ :: params => congrArg (· + 1) (length_parameters owner (place + 1) params)

/-- Each parameter is bound to the formal at its place. -/
theorem boundHomes_bindParams {params : List Source.Binder} {formals : List Access}
    (ran : bindParams own params formals s.enter = .ok () t)
    (length : formals.length = params.length) :
    boundHomes (parameters own 0 params) t = paramResidences own 0 params formals := by
  have count : (paramMeanings own params formals).length = params.length := by
    rw [paramMeanings, List.length_zipWith, length, Nat.min_self]
  have last : lastBound (parameters own 0 params).length t = paramMeanings own params formals := by
    rw [lastBound, bindParams_scopes params formals ran, length_parameters, ← count]
    change (((paramMeanings own params formals).reverse ++ []).take _).reverse = _
    rw [List.append_nil, ← List.length_reverse, List.take_length, List.reverse_reverse]
  rw [boundHomes, last, readAll_paramMeanings]

end Bindings

end TreeCode.Lowering
