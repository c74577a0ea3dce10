import TreeCode.Machine.Convention
import TreeCode.Proofs.Outcome
import TreeCode.Proofs.Tree.Apart

/-!
The registers that an issued convention names are registers of its machine, and all of them were
issued before anything else.
-/

namespace TreeCode

variable {supply supply' : Supply}

/-- The machine registers. -/
def Convention.machine (conv : Convention) : List Temp := conv.registers.all.map Prod.snd

/-- The names of the machine registers. -/
def Convention.registerNames (conv : Convention) : List String := conv.registers.all.map Prod.fst

/-- Every register with a role is a register of the machine. -/
structure Convention.Closed (conv : Convention) : Prop where
  framePointer : conv.framePointer ∈ conv.machine
  stackPointer : conv.stackPointer ∈ conv.machine
  returnValue : conv.returnValue ∈ conv.machine
  arguments : conv.arguments ⊆ conv.machine
  callerSaved : conv.callerSaved ⊆ conv.machine
  calleeSaved : conv.calleeSaved ⊆ conv.machine

theorem mem_of_lookup {name : String} {t : Temp} :
    ∀ {all : List (String × Temp)}, all.lookup name = some t → t ∈ all.map Prod.snd
  | [], found => by cases found
  | (other, reg) :: all, found => by
    rw [List.lookup_cons] at found
    by_cases same : (name == other) = true
    · simp only [same] at found
      cases found
      exact List.mem_cons_self
    · simp only [same] at found
      exact List.mem_cons_of_mem _ (mem_of_lookup found)

theorem lookup_of_mem {name : String} {all : List (String × Temp)}
    (member : name ∈ all.map Prod.fst) : ∃ t, all.lookup name = some t := by
  induction all with
  | nil => cases member
  | cons entry entries ih =>
    rw [List.lookup_cons]
    by_cases here : name = entry.1
    · exact ⟨entry.2, by simp [here]⟩
    · simp only [List.map_cons, List.mem_cons, here, false_or] at member
      rw [beq_eq_false_iff_ne.mpr here]
      exact ih member

/-- A role that is filled is filled by a register of the table. -/
theorem role_ok {all : List (String × Temp)} {name : String} {t : Temp}
    (ran : role all name supply = .ok t supply') :
    t ∈ all.map Prod.snd ∧ supply = supply' := by
  unfold role at ran
  cases found : all.lookup name with
  | none =>
    rw [found] at ran
    exact absurd ran (by simp [throw_ok])
  | some reg =>
    rw [found] at ran
    obtain ⟨rfl, rfl⟩ := pure_ok.mp ran
    exact ⟨mem_of_lookup found, rfl⟩

/-- Roles that are filled are filled by registers of the table. -/
theorem roles_ok {all : List (String × Temp)} :
    ∀ {names : List String} {ts : List Temp} {supply supply' : Supply},
      roles all names supply = .ok ts supply' → ts ⊆ all.map Prod.snd ∧ supply = supply'
  | [], _, _, _, ran => by
    obtain ⟨rfl, rfl⟩ := pure_ok.mp ran
    exact ⟨by simp, rfl⟩
  | name :: names, _, _, _, ran => by
    obtain ⟨t, _, first, ran⟩ := bind_ok.mp ran
    obtain ⟨ts, _, others, ran⟩ := bind_ok.mp ran
    obtain ⟨rfl, rfl⟩ := pure_ok.mp ran
    obtain ⟨member, rfl⟩ := role_ok first
    obtain ⟨members, rfl⟩ := roles_ok others
    exact ⟨List.cons_subset.mpr ⟨member, members⟩, rfl⟩

theorem freshNamedAll_names (names : List String) (supply : Supply) :
    (freshNamedAll names supply).1.map Prod.fst = names := by
  induction names generalizing supply with
  | nil => rfl
  | cons name names ih => exact congrArg (name :: ·) (ih (freshNamed name supply).2)

/-- Registers are numbered in the order of their names. -/
theorem freshNamedAll_lookup {names : List String} {name : String} {i : Nat}
    (first : names.findIdx? (name == ·) = some i) (supply : Supply) :
    (freshNamedAll names supply).1.lookup name = some ⟨supply.temps + i⟩ := by
  induction names generalizing supply i with
  | nil => cases first
  | cons other names ih =>
    change List.lookup name
      ((other, ⟨supply.temps⟩) :: (freshNamedAll names (freshNamed other supply).2).1) = _
    rw [List.lookup_cons]
    rw [List.findIdx?_cons] at first
    by_cases same : (name == other) = true
    · simp only [same, if_true, Option.some.injEq] at first
      simp [same, ← first]
    · simp only [same, Bool.false_eq_true, if_false, Option.map_eq_some_iff] at first
      obtain ⟨j, found, rfl⟩ := first
      simp only [same]
      rw [ih found (freshNamed other supply).2]
      simp [freshNamed]
      omega

theorem freshNamedAll_between :
    ∀ (names : List String) (supply : Supply),
      supply.temps ≤ (freshNamedAll names supply).2.temps ∧
      ∀ t ∈ (freshNamedAll names supply).1.map Prod.snd,
        t.Between supply.temps (freshNamedAll names supply).2.temps
  | [], _ => ⟨Nat.le_refl _, by intro t member; cases member⟩
  | name :: names, supply => by
    obtain ⟨grown, between⟩ := freshNamedAll_between names (freshNamed name supply).2
    have first : supply.temps + 1 ≤ (freshNamedAll names (freshNamed name supply).2).2.temps :=
      grown
    refine ⟨Nat.le_trans (Nat.le_succ _) first, ?_⟩
    intro t member
    rcases List.mem_cons.mp member with here | there
    · subst here
      exact ⟨Nat.le_refl _, first⟩
    · exact (between t there).widen (Nat.le_succ _) (Nat.le_refl _)

/-- All roles are played by registers of the machine. -/
theorem registers_closed {table : RegisterTable} {registers : Registers}
    (ran : table.issue supply = .ok registers supply') :
    (registers.framePointer ∈ registers.all.map Prod.snd ∧
      registers.stackPointer ∈ registers.all.map Prod.snd ∧
      registers.returnValue ∈ registers.all.map Prod.snd ∧
      registers.arguments ⊆ registers.all.map Prod.snd ∧
      registers.callerSaved ⊆ registers.all.map Prod.snd ∧
      registers.calleeSaved ⊆ registers.all.map Prod.snd) ∧
    Tree.Below supply'.temps (registers.all.map Prod.snd) := by
  obtain ⟨all, _, issued, ran⟩ := bind_ok.mp ran
  obtain ⟨framePointer, _, first, ran⟩ := bind_ok.mp ran
  obtain ⟨stackPointer, _, second, ran⟩ := bind_ok.mp ran
  obtain ⟨returnValue, _, third, ran⟩ := bind_ok.mp ran
  obtain ⟨arguments, _, fourth, ran⟩ := bind_ok.mp ran
  obtain ⟨callerSaved, _, fifth, ran⟩ := bind_ok.mp ran
  obtain ⟨calleeSaved, _, sixth, ran⟩ := bind_ok.mp ran
  obtain ⟨rfl, rfl⟩ := pure_ok.mp ran
  obtain ⟨inFirst, rfl⟩ := role_ok first
  obtain ⟨inSecond, rfl⟩ := role_ok second
  obtain ⟨inThird, rfl⟩ := role_ok third
  obtain ⟨inFourth, rfl⟩ := roles_ok fourth
  obtain ⟨inFifth, rfl⟩ := roles_ok fifth
  obtain ⟨inSixth, rfl⟩ := roles_ok sixth
  cases issued
  refine ⟨⟨inFirst, inSecond, inThird, inFourth, inFifth, inSixth⟩, ?_⟩
  exact fun t member => ((freshNamedAll_between table.names supply).2 t member).2

/-- An issued convention is closed, and its registers were issued before what comes next. -/
theorem issue_closed {table : ConventionTable} {conv : Convention}
    (ran : table.issue supply = .ok conv supply') :
    conv.Closed ∧ Tree.Below supply'.temps conv.machine := by
  obtain ⟨registers, _, issued, ran⟩ := bind_ok.mp ran
  obtain ⟨rfl, rfl⟩ := pure_ok.mp ran
  obtain ⟨⟨first, second, third, fourth, fifth, sixth⟩, below⟩ := registers_closed issued
  exact ⟨⟨first, second, third, fourth, fifth, sixth⟩, below⟩

/-- The machine registers are issued in the order of the table. -/
theorem issue_all {table : ConventionTable} {conv : Convention}
    (ran : table.issue supply = .ok conv supply') :
    conv.registers.all = (freshNamedAll table.registers.names supply).1 := by
  obtain ⟨registers, _, issued, ran⟩ := bind_ok.mp ran
  obtain ⟨rfl, rfl⟩ := pure_ok.mp ran
  obtain ⟨all, _, named, ran⟩ := bind_ok.mp issued
  obtain ⟨framePointer, _, _, ran⟩ := bind_ok.mp ran
  obtain ⟨stackPointer, _, _, ran⟩ := bind_ok.mp ran
  obtain ⟨returnValue, _, _, ran⟩ := bind_ok.mp ran
  obtain ⟨arguments, _, _, ran⟩ := bind_ok.mp ran
  obtain ⟨callerSaved, _, _, ran⟩ := bind_ok.mp ran
  obtain ⟨calleeSaved, _, _, ran⟩ := bind_ok.mp ran
  obtain ⟨rfl, rfl⟩ := pure_ok.mp ran
  cases named
  rfl

theorem issue_registerNames {table : ConventionTable} {conv : Convention}
    (ran : table.issue supply = .ok conv supply') :
    conv.registerNames = table.registers.names := by
  rw [Convention.registerNames, issue_all ran]
  exact freshNamedAll_names table.registers.names supply

end TreeCode
