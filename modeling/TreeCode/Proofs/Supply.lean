import TreeCode.Supply

/-!
The supply only grows: computations that draw on it never take back what was issued.
-/

namespace TreeCode

variable {α β : Type}

/-- Neither counter of the supply decreases. -/
def Supply.Le (first second : Supply) : Prop :=
  first.temps ≤ second.temps ∧ first.labels ≤ second.labels

theorem Supply.Le.refl (supply : Supply) : supply.Le supply :=
  ⟨Nat.le_refl _, Nat.le_refl _⟩

theorem Supply.Le.trans {first second third : Supply} (le : first.Le second)
    (next : second.Le third) : first.Le third :=
  ⟨Nat.le_trans le.1 next.1, Nat.le_trans le.2 next.2⟩

/-- A computation does not decrease the counters. -/
def Grows (act : Fresh α) : Prop := ∀ supply : Supply, supply.Le (act supply).2

theorem grows_pure (a : α) : Grows (pure a : Fresh α) := Supply.Le.refl

theorem grows_bind {act : Fresh α} {next : α → Fresh β} (first : Grows act)
    (rest : ∀ a, Grows (next a)) : Grows (act >>= next) :=
  fun supply => (first supply).trans (rest (act supply).1 (act supply).2)

theorem grows_freshTemp : Grows freshTemp :=
  fun _ => ⟨Nat.le_succ _, Nat.le_refl _⟩

theorem grows_freshLabel : Grows freshLabel :=
  fun _ => ⟨Nat.le_refl _, Nat.le_succ _⟩

theorem grows_freshLabelFor (name : String) : Grows (freshLabelFor name) :=
  fun _ => ⟨Nat.le_refl _, Nat.le_succ _⟩

theorem grows_freshTemps : ∀ count : Nat, Grows (freshTemps count)
  | 0 => grows_pure []
  | count + 1 => grows_bind grows_freshTemp fun _ =>
    grows_bind (grows_freshTemps count) fun _ => grows_pure _

end TreeCode
