import TreeCode.Machine.Registers
import TreeCode.Proofs.Outcome
import TreeCode.Proofs.Supply
import TreeCode.Proofs.Tree.Renaming

/-!
Two runs side by side. The second starts from another supply than the first, and a renaming takes
whatever the first run draws from its supply to what the second draws from its own. Then the second
run mirrors the first: it succeeds or fails where the first does, and all it comes to is the same
under other names.

The renaming has to be known only up to the end of the first run, so a supply `last` that the first
run may not go beyond is part of everything here.
-/

namespace TreeCode

/-- A fault under other names. -/
@[simp] def ConventionFault.rename (ρ : Renaming) : ConventionFault → ConventionFault
  | missingRegister name => missingRegister name
  | tooManyFormals func onStack convention slots =>
    tooManyFormals (ρ.label func) onStack convention slots
  | tooManyArguments onStack convention slots => tooManyArguments onStack convention slots

/-- An error under other names. -/
@[simp] def Error.rename (ρ : Renaming) : Error → Error
  | undeclaredVariable name pos => undeclaredVariable name pos
  | undeclaredFunction name pos => undeclaredFunction name pos
  | unresolvedField field pos => unresolvedField field pos
  | strayBreak pos => strayBreak pos
  | unknownLevel level => unknownLevel level
  | valuelessCondition stm => valuelessCondition (stm.rename ρ)
  | convention fault => convention (fault.rename ρ)
  | uncovered tree => uncovered (tree.rename ρ)
  | misplacedArgument arg => misplacedArgument (arg.rename ρ)
  | unknownArchitecture name => unknownArchitecture name
  | table fault => table fault

/-- An outcome under other names; a result is as `out` has it. -/
def renameOutcome {α β : Type} (ρ : Renaming) (out : α → β) : Except Error α → Except Error β
  | .ok a => .ok (out a)
  | .error error => .error (error.rename ρ)

/-- From here on the renaming takes what the first supply hands out to what the second does, as
long as the first does not go beyond `last`. -/
structure Paired (ρ : Renaming) (last first second : Supply) : Prop where
  temps : ∀ i, first.temps + i < last.temps → ρ.temp ⟨first.temps + i⟩ = ⟨second.temps + i⟩
  labels : ∀ i, first.labels + i < last.labels →
    ρ.label (".L" ++ toString (first.labels + i)) = ".L" ++ toString (second.labels + i)
  functions : ∀ i name, first.labels + i < last.labels →
    ρ.label (name ++ "." ++ toString (first.labels + i)) =
      name ++ "." ++ toString (second.labels + i)

variable {α β α' β' : Type} {ρ : Renaming} {last : Supply}

section Fresh

variable {s t : Supply}

theorem Paired.nextTemp (paired : Paired ρ last s t) :
    Paired ρ last (freshTemp s).2 (freshTemp t).2 where
  temps i within := by
    have later := paired.temps (1 + i) (by rw [← Nat.add_assoc]; exact within)
    rw [← Nat.add_assoc, ← Nat.add_assoc] at later
    exact later
  labels := paired.labels
  functions := paired.functions

theorem Paired.nextLabel (paired : Paired ρ last s t) :
    Paired ρ last (freshLabel s).2 (freshLabel t).2 where
  temps := paired.temps
  labels i within := by
    have later := paired.labels (1 + i) (by rw [← Nat.add_assoc]; exact within)
    rw [← Nat.add_assoc, ← Nat.add_assoc] at later
    exact later
  functions i name within := by
    have later := paired.functions (1 + i) name (by rw [← Nat.add_assoc]; exact within)
    rw [← Nat.add_assoc, ← Nat.add_assoc] at later
    exact later

/-- The second of two computations that draw on a supply mirrors the first: what the first gives,
it gives as `out` has it. -/
structure FreshMirrors (ρ : Renaming) (last : Supply) (out : α → β) (first : Fresh α)
    (second : Fresh β) : Prop where
  grows : Grows first
  mirrored : ∀ s t, Paired ρ last s t → (first s).2.Le last →
    (second t).1 = out (first s).1 ∧ Paired ρ last (first s).2 (second t).2

theorem freshMirrors_pure {out : α → β} {a : α} {b : β} (same : b = out a) :
    FreshMirrors ρ last out (pure a) (pure b) :=
  ⟨grows_pure a, fun _ _ paired _ => ⟨same, paired⟩⟩

/-- Draws that mirror each other one by one do so one after the other. -/
theorem freshMirrors_bind {out : α → β} {out' : α' → β'} {first : Fresh α} {second : Fresh β}
    {next : α → Fresh α'} {next' : β → Fresh β'} (begun : FreshMirrors ρ last out first second)
    (rest : ∀ a, FreshMirrors ρ last out' (next a) (next' (out a))) :
    FreshMirrors ρ last out' (first >>= next) (second >>= next') := by
  refine ⟨grows_bind begun.grows fun a => (rest a).grows, ?_⟩
  intro s t paired within
  have later := (rest (first s).1).grows (first s).2
  obtain ⟨same, middle⟩ := begun.mirrored s t paired (later.trans within)
  have finished := (rest (first s).1).mirrored _ _ middle within
  rw [← same] at finished
  exact finished

theorem freshMirrors_freshTemp : FreshMirrors ρ last ρ.temp freshTemp freshTemp := by
  refine ⟨grows_freshTemp, ?_⟩
  intro s t paired within
  exact ⟨(paired.temps 0 within.1).symm, paired.nextTemp⟩

theorem freshMirrors_freshLabel : FreshMirrors ρ last ρ.label freshLabel freshLabel := by
  refine ⟨grows_freshLabel, ?_⟩
  intro s t paired within
  exact ⟨(paired.labels 0 within.2).symm, paired.nextLabel⟩

theorem freshMirrors_freshLabelFor (name : String) :
    FreshMirrors ρ last ρ.label (freshLabelFor name) (freshLabelFor name) := by
  refine ⟨grows_freshLabelFor name, ?_⟩
  intro s t paired within
  exact ⟨(paired.functions 0 name within.2).symm, paired.nextLabel⟩

theorem freshMirrors_freshTemps (count : Nat) :
    FreshMirrors ρ last (List.map ρ.temp) (freshTemps count) (freshTemps count) := by
  induction count with
  | zero => exact freshMirrors_pure rfl
  | succ count ih =>
    exact freshMirrors_bind freshMirrors_freshTemp fun _ =>
      freshMirrors_bind ih fun _ => freshMirrors_pure rfl

end Fresh

/-- States of computations that are run side by side. -/
class Mirrored (σ : Type) where
  supply : σ → Supply
  withSupply : σ → Supply → σ
  supply_withSupply : ∀ s u, supply (withSupply s u) = u
  /-- The second state is the first one under other names. -/
  Like : Renaming → Supply → σ → σ → Prop
  paired : ∀ {ρ last s t}, Like ρ last s t → Paired ρ last (supply s) (supply t)
  redrawn : ∀ {ρ last s t u v}, Like ρ last s t → Paired ρ last u v →
    Like ρ last (withSupply s u) (withSupply t v)

instance : Mirrored Supply where
  supply s := s
  withSupply _ u := u
  supply_withSupply _ _ := rfl
  Like := Paired
  paired like := like
  redrawn _ after := after

section Runs

variable {σ τ : Type}

/-- A computation on a state that is made from another one and put back into it at the end, whether
the computation succeeds or fails. -/
def inside (enter : τ → σ) (restore : τ → σ → τ) (act : EStateM Error σ α) : EStateM Error τ α :=
  fun s =>
    match act (enter s) with
    | .ok value u => .ok value (restore s u)
    | .error error u => .error error (restore s u)

theorem left_inside {enter : τ → σ} {restore : τ → σ → τ} (act : EStateM Error σ α) (s : τ) :
    left (inside enter restore act s) = restore s (left (act (enter s))) := by
  unfold inside
  cases act (enter s) <;> rfl

variable [Mirrored σ]

/-- The second of two outcomes is the first one under other names; a result is as `out` has it. -/
inductive Reflects (ρ : Renaming) (last : Supply) (out : α → β) :
    EStateM.Result Error σ α → EStateM.Result Error σ β → Prop where
  | ok {a : α} {s t : σ} (like : Mirrored.Like ρ last s t) :
    Reflects ρ last out (.ok a s) (.ok (out a) t)
  | error {error : Error} {s t : σ} (like : Mirrored.Like ρ last s t) :
    Reflects ρ last out (.error error s) (.error (error.rename ρ) t)

/-- Whether it succeeds or fails, a computation only draws on the supply. -/
def Drawing (first : EStateM Error σ α) : Prop :=
  Within (fun s s' => (Mirrored.supply s).Le (Mirrored.supply s')) first

/-- The second of two computations mirrors the first: from a state that is the same under other
names it comes to the same outcome under other names, as long as the first does not go beyond
`last`. -/
structure Mirrors (ρ : Renaming) (last : Supply) (out : α → β) (first : EStateM Error σ α)
    (second : EStateM Error σ β) : Prop where
  grows : Drawing first
  mirrored : ∀ s t, Mirrored.Like ρ last s t → (Mirrored.supply (left (first s))).Le last →
    Reflects ρ last out (first s) (second t)

/-- Computations that leave the supply alone. -/
theorem mirrors_of_same {out : α → β} {first : EStateM Error σ α} {second : EStateM Error σ β}
    (still : ∀ s, Mirrored.supply (left (first s)) = Mirrored.supply s)
    (reflects : ∀ s t, Mirrored.Like ρ last s t → Reflects ρ last out (first s) (second t)) :
    Mirrors ρ last out first second := by
  refine ⟨?_, fun s t like _ => reflects s t like⟩
  intro s
  rw [still s]
  exact Supply.Le.refl _

theorem mirrors_pure {out : α → β} {a : α} {b : β} (same : b = out a) :
    Mirrors ρ last out (pure a : EStateM Error σ α) (pure b) := by
  refine mirrors_of_same (fun _ => rfl) ?_
  intro s t like
  rw [same]
  exact .ok like

theorem mirrors_throw {out : α → β} {error error' : Error} (same : error' = error.rename ρ) :
    Mirrors ρ last out (throw error : EStateM Error σ α) (throw error') := by
  refine mirrors_of_same (fun _ => rfl) ?_
  intro s t like
  rw [same]
  exact .error like

theorem mirrors_modify {change change' : σ → σ}
    (still : ∀ s, Mirrored.supply (change s) = Mirrored.supply s)
    (like : ∀ s t : σ, Mirrored.Like ρ last s t → Mirrored.Like ρ last (change s) (change' t)) :
    Mirrors ρ last id (modify change : EStateM Error σ Unit) (modify change') :=
  mirrors_of_same still fun s t before => .ok (like s t before)

/-- Actions that mirror each other one by one do so one after the other; an error ends both. -/
theorem mirrors_bind {out : α → β} {out' : α' → β'} {first : EStateM Error σ α}
    {second : EStateM Error σ β} {next : α → EStateM Error σ α'} {next' : β → EStateM Error σ β'}
    (begun : Mirrors ρ last out first second)
    (rest : ∀ a, Mirrors ρ last out' (next a) (next' (out a))) :
    Mirrors ρ last out' (first >>= next) (second >>= next') := by
  refine ⟨within_bind Supply.Le.trans begun.grows fun a => (rest a).grows, ?_⟩
  intro s t like within
  have reflected := begun.mirrored s t like
  rw [run_bind] at within ⊢
  rw [run_bind]
  cases ran : first s with
  | ok a middle =>
    rw [ran] at within reflected
    have later := (rest a).grows middle
    generalize ran' : second t = result at reflected
    cases reflected (later.trans within) with
    | ok like => exact (rest a).mirrored middle _ like within
  | error error middle =>
    rw [ran] at within reflected
    generalize ran' : second t = result at reflected
    cases reflected within with
    | error like => exact .error like

/-- Computations that do nothing but draw on the supply. -/
theorem mirrors_draw {out : α → β} {first : Fresh α} {second : Fresh β} {act : EStateM Error σ α}
    {act' : EStateM Error σ β} (mirrors : FreshMirrors ρ last out first second)
    (runs : ∀ s, act s = .ok (first (Mirrored.supply s)).1
      (Mirrored.withSupply s (first (Mirrored.supply s)).2))
    (runs' : ∀ t, act' t = .ok (second (Mirrored.supply t)).1
      (Mirrored.withSupply t (second (Mirrored.supply t)).2)) :
    Mirrors ρ last out act act' := by
  constructor
  · intro s
    rw [runs, left_ok, Mirrored.supply_withSupply]
    exact mirrors.grows _
  · intro s t like within
    rw [runs, left_ok, Mirrored.supply_withSupply] at within
    obtain ⟨same, after⟩ := mirrors.mirrored _ _ (Mirrored.paired like) within
    rw [runs, runs', same]
    exact .ok (Mirrored.redrawn like after)

section Inside

variable [Mirrored τ] {enter enter' : τ → σ} {restore restore' : τ → σ → τ}

theorem drawing_inside {act : EStateM Error σ α} (inner : Drawing act)
    (still : ∀ s, Mirrored.supply (enter s) = Mirrored.supply s)
    (untouched : ∀ s u, Mirrored.supply (restore s u) = Mirrored.supply u) :
    Drawing (inside enter restore act) := by
  intro s
  rw [left_inside, untouched, ← still]
  exact inner (enter s)

/-- Actions in a part of the state that mirror each other do so in the whole. -/
theorem mirrors_inside {out : α → β} {act : EStateM Error σ α} {act' : EStateM Error σ β}
    (inner : Mirrors ρ last out act act')
    (entered : ∀ s t, Mirrored.Like ρ last s t → Mirrored.Like ρ last (enter s) (enter' t))
    (restored : ∀ s t u v, Mirrored.Like ρ last s t → Mirrored.Like ρ last u v →
      Mirrored.Like ρ last (restore s u) (restore' t v))
    (still : ∀ s, Mirrored.supply (enter s) = Mirrored.supply s)
    (untouched : ∀ s u, Mirrored.supply (restore s u) = Mirrored.supply u) :
    Mirrors ρ last out (inside enter restore act) (inside enter' restore' act') := by
  refine ⟨drawing_inside inner.grows still untouched, ?_⟩
  intro s t like within
  rw [left_inside, untouched] at within
  have reflected := inner.mirrored (enter s) (enter' t) (entered s t like) within
  unfold inside
  generalize act (enter s) = result, act' (enter' t) = result' at reflected ⊢
  cases reflected with
  | ok after => exact .ok (restored s t _ _ like after)
  | error after => exact .error (restored s t _ _ like after)

end Inside

end Runs

section Outcomes

theorem renameOutcome_pure {out : α → β} {a : α} {b : β} (same : b = out a) :
    (pure b : Except Error β) = renameOutcome ρ out (pure a) :=
  congrArg Except.ok same

theorem renameOutcome_bind {out : α → β} {out' : α' → β'} {first : Except Error α}
    {second : Except Error β} {next : α → Except Error α'} {next' : β → Except Error β'}
    (begun : second = renameOutcome ρ out first)
    (rest : ∀ a, next' (out a) = renameOutcome ρ out' (next a)) :
    (second >>= next') = renameOutcome ρ out' (first >>= next) := by
  rw [begun]
  cases first with
  | ok a => exact rest a
  | error error => rfl

theorem renameOutcome_mapM {ι : Type} {out : α → β} {f : ι → Except Error α}
    {f' : ι → Except Error β} (each : ∀ i, f' i = renameOutcome ρ out (f i)) (items : List ι) :
    items.mapM f' = renameOutcome ρ (List.map out) (items.mapM f) := by
  induction items with
  | nil => rfl
  | cons item items ih =>
    rw [List.mapM_cons, List.mapM_cons]
    exact renameOutcome_bind (each item) fun _ => renameOutcome_bind ih fun _ =>
      renameOutcome_pure rfl

end Outcomes

end TreeCode
