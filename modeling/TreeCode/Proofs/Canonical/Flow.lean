import TreeCode.Lowering.Program
import TreeCode.Proofs.Canonical.Rules
import TreeCode.Proofs.Canonical.Temps
import TreeCode.Proofs.Tree.Machine

/-!
Rules for control flow. Taken apart and run on the machine, a statement is entered at its start
or at one of its labels, and left at its end or through a jump. From the rules for single
statements follow those for the forms that lowering makes: alternatives, loops and tests.
-/

namespace TreeCode.Tree

variable {V W : Type} [DecidableEq V] {M : Model V W} {n : Nat} {σ σ' σ₁ σ₂ : State V W}
  {first second stm : Stm} {entry exit : Option Label} {name : Label}

/-- Taken apart, the statement leads the machine from one point to another one, and from the state
`σ` to `σ'`. -/
def Flows (M : Model V W) (n : Nat) (stm : Stm) (entry exit : Option Label)
    (σ σ' : State V W) : Prop :=
  ∀ supply : Supply, n ≤ supply.temps → supply.temps ≤ (stm.extract supply).2.temps ∧
    ∀ τ, σ.Agree n τ → ∃ υ, M.Passes (stm.extract supply).1.toList entry exit τ υ ∧
      σ'.Agree n υ ∧ τ.Spared n supply.temps (stm.extract supply).2.temps υ

/-- The statement leads from its start to its end. -/
abbrev Runs (M : Model V W) (n : Nat) (stm : Stm) (σ σ' : State V W) : Prop :=
  (Running.onMachine M).Performs n stm σ σ'

/-- The labels that the statements of a sequence carry. -/
def Stm.marked : Stm → List Label
  | .seq first second => first.marked ++ second.marked
  | .label name => [name]
  | _ => []

/-- A label of a statement outside of its expressions is still there. -/
theorem mem_marks_extract : ∀ {stm : Stm} (supply : Supply), name ∈ stm.marked →
    name ∈ marks (stm.extract supply).1.toList
  | .seq first second, supply, member => by
    rw [extract_seq]
    simp only [toList_andThen, marks_append]
    rcases List.mem_append.mp member with inFirst | inSecond
    · exact List.mem_append_left _ (mem_marks_extract supply inFirst)
    · exact List.mem_append_right _ (mem_marks_extract _ inSecond)
  | .label _, _, member => member

theorem extract_temps_le (stm : Stm) (supply : Supply) :
    supply.temps ≤ (stm.extract supply).2.temps :=
  (draws_extractStm stm supply).1

section Statements

/-- Code that is entered at a label in the first part runs on through the second one. -/
theorem flows_seq (begun : Flows M n first entry none σ σ₁)
    (ended : Flows M n second none exit σ₁ σ₂) : Flows M n (.seq first second) entry exit σ σ₂ := by
  intro supply low
  rw [extract_seq]
  obtain ⟨upper, ran⟩ := begun supply low
  obtain ⟨upperNext, ranNext⟩ := ended (first.extract supply).2 (Nat.le_trans low upper)
  refine ⟨Nat.le_trans upper upperNext, ?_⟩
  intro τ agree
  obtain ⟨υ, passed, agreed, spared⟩ := ran τ agree
  obtain ⟨φ, passedNext, agreedNext, sparedNext⟩ := ranNext υ agreed
  simp only [toList_andThen]
  exact ⟨φ, passes_append passed passedNext, agreedNext,
    (spared.widen (Nat.le_refl _) upperNext).trans (sparedNext.widen upper (Nat.le_refl _))⟩

/-- A jump out of the first of two statements. -/
theorem flows_left (begun : Flows M n first entry (some name) σ σ') :
    Flows M n (.seq first second) entry (some name) σ σ' := by
  intro supply low
  rw [extract_seq]
  obtain ⟨upper, ran⟩ := begun supply low
  have upperNext := extract_temps_le second (first.extract supply).2
  refine ⟨Nat.le_trans upper upperNext, ?_⟩
  intro τ agree
  obtain ⟨υ, passed, agreed, spared⟩ := ran τ agree
  simp only [toList_andThen]
  exact ⟨υ, passes_append_left passed, agreed, spared.widen (Nat.le_refl _) upperNext⟩

/-- An entry at a label of the second of two statements. -/
theorem flows_right (ended : Flows M n second (some name) exit σ σ') :
    Flows M n (.seq first second) (some name) exit σ σ' := by
  intro supply low
  rw [extract_seq]
  have upper := extract_temps_le first supply
  obtain ⟨upperNext, ran⟩ := ended (first.extract supply).2 (Nat.le_trans low upper)
  refine ⟨Nat.le_trans upper upperNext, ?_⟩
  intro τ agree
  obtain ⟨υ, passed, agreed, spared⟩ := ran τ agree
  simp only [toList_andThen]
  exact ⟨υ, passes_append_right passed, agreed, spared.widen upper (Nat.le_refl _)⟩

/-- A jump to a label of the statement itself, and on from there. -/
theorem flows_through (name : Label) (inside : name ∈ stm.marked)
    (begun : Flows M n stm entry (some name) σ σ₁)
    (ended : Flows M n stm (some name) exit σ₁ σ₂) : Flows M n stm entry exit σ σ₂ := by
  intro supply low
  obtain ⟨upper, ran⟩ := begun supply low
  obtain ⟨_, ranNext⟩ := ended supply low
  refine ⟨upper, ?_⟩
  intro τ agree
  obtain ⟨υ, passed, agreed, spared⟩ := ran τ agree
  obtain ⟨φ, passedNext, agreedNext, sparedNext⟩ := ranNext υ agreed
  exact ⟨φ, passes_through (mem_marks_extract supply inside) passed passedNext, agreedNext,
    spared.trans sparedNext⟩

/-- A statement that is left as it is, and leads from every state to itself. -/
theorem flows_still (same : ∀ supply, stm.extract supply = (stm, supply))
    (passed : ∀ τ, M.Passes stm.toList entry exit τ τ) : Flows M n stm entry exit σ σ := by
  intro supply low
  rw [same supply]
  exact ⟨Nat.le_refl _, fun τ agree => ⟨τ, passed τ, agree, State.Spared.refl _ _ _ _⟩⟩

theorem flows_label (name : Label) : Flows M n (.label name) none none σ σ :=
  flows_still (fun _ => rfl) fun _ => passes_label name

theorem flows_at_label (name : Label) : Flows M n (.label name) (some name) none σ σ :=
  flows_still (fun _ => rfl) fun _ => passes_from_label (passes_label name)

theorem flows_goto (name : Label) : Flows M n (.goto name) none (some name) σ σ :=
  flows_still (fun _ => rfl) fun _ => passes_goto name

/-- The label at the start of a statement is where it starts. -/
theorem flows_from_label (flows : Flows M n (.seq (.label name) second) none exit σ σ') :
    Flows M n (.seq (.label name) second) (some name) exit σ σ' := by
  intro supply low
  obtain ⟨upper, ran⟩ := flows supply low
  refine ⟨upper, ?_⟩
  intro τ agree
  obtain ⟨υ, passed, agreed, spared⟩ := ran τ agree
  refine ⟨υ, ?_, agreed, spared⟩
  rw [extract_seq] at passed ⊢
  simp only [toList_andThen] at passed ⊢
  exact passes_from_label passed

/-- A conditional jump computes its operands from left to right and then compares. -/
theorem flows_cjump {op : RelOp} {left right : Exp} {yes no : Label} {a b : V}
    (begun : (Running.onMachine M).Computes n left σ a σ₁)
    (ended : (Running.onMachine M).Computes n right σ₁ b σ₂) :
    Flows M n (.cjump op left right yes no) none (some (if M.holds op a b then yes else no))
      σ σ₂ := by
  intro supply low
  rw [extract_cjump]
  obtain ⟨upper, realised⟩ := Running.realises_pair left right begun ended low
  refine ⟨upper, ?_⟩
  intro τ agree
  obtain ⟨υ, passed, evaluated, same, spared⟩ := realised τ agree
  simp only [toList_andThen]
  exact ⟨_, passes_append passed (passes_cjump evaluated), ⟨rfl, same⟩, spared⟩

end Statements

section Forms

open Lowering

variable {test yes no body : Stm} {yesLabel noLabel join testLabel bodyLabel done : Label}

theorem runs_conditional_yes (tested : Flows M n test none (some yesLabel) σ σ₁)
    (ran : Runs M n yes σ₁ σ₂) : Runs M n (conditional test yes yesLabel noLabel) σ σ₂ := by
  have branch : Flows M n (.seq (.label yesLabel) (.seq yes (.label noLabel))) none none σ₁ σ₂ :=
    flows_seq (flows_label yesLabel) (flows_seq ran (flows_label noLabel))
  refine flows_through yesLabel ?_ (flows_left tested) (flows_right (flows_from_label branch))
  simp [conditional, Stm.sequence, Stm.marked]

theorem runs_conditional_no (tested : Flows M n test none (some noLabel) σ σ') :
    Runs M n (conditional test yes yesLabel noLabel) σ σ' := by
  refine flows_through noLabel ?_ (flows_left tested)
    (flows_right (flows_right (flows_right (flows_at_label noLabel))))
  simp [conditional, Stm.sequence, Stm.marked]

theorem runs_alternative_yes (tested : Flows M n test none (some yesLabel) σ σ₁)
    (ran : Runs M n yes σ₁ σ₂) :
    Runs M n (alternative test yes no yesLabel noLabel join) σ σ₂ := by
  have branch : Flows M n (.seq (.label yesLabel) (.seq yes (.seq (.goto join)
      (.seq (.label noLabel) (.seq no (.label join)))))) none (some join) σ₁ σ₂ :=
    flows_seq (flows_label yesLabel) (flows_seq ran (flows_left (flows_goto join)))
  have joined : Flows M n (alternative test yes no yesLabel noLabel join) (some join) none σ₂ σ₂ :=
    flows_right (flows_right (flows_right (flows_right (flows_right (flows_right
      (flows_at_label join))))))
  refine flows_through join ?_ (flows_through yesLabel ?_ (flows_left tested)
    (flows_right (flows_from_label branch))) joined
  · simp [alternative, Stm.sequence, Stm.marked]
  · simp [alternative, Stm.sequence, Stm.marked]

theorem runs_alternative_no (tested : Flows M n test none (some noLabel) σ σ₁)
    (ran : Runs M n no σ₁ σ₂) :
    Runs M n (alternative test yes no yesLabel noLabel join) σ σ₂ := by
  have branch : Flows M n (.seq (.label noLabel) (.seq no (.label join))) none none σ₁ σ₂ :=
    flows_seq (flows_label noLabel) (flows_seq ran (flows_label join))
  refine flows_through noLabel ?_ (flows_left tested)
    (flows_right (flows_right (flows_right (flows_right (flows_from_label branch)))))
  simp [alternative, Stm.sequence, Stm.marked]

/-- A loop whose test fails is left. -/
theorem runs_while_done (tested : Flows M n test none (some done) σ σ') :
    Runs M n (whileLoop test body testLabel bodyLabel done) σ σ' := by
  refine flows_through done ?_ (flows_seq (flows_label testLabel) (flows_left tested))
    (flows_right (flows_right (flows_right (flows_right (flows_right (flows_at_label done))))))
  simp [whileLoop, Stm.sequence, Stm.marked]

/-- A loop whose test holds runs its body and then all over again. -/
theorem runs_while_again {σ₃ : State V W} (tested : Flows M n test none (some bodyLabel) σ σ₁)
    (ran : Runs M n body σ₁ σ₂)
    (again : Runs M n (whileLoop test body testLabel bodyLabel done) σ₂ σ₃) :
    Runs M n (whileLoop test body testLabel bodyLabel done) σ σ₃ := by
  have round : Flows M n (.seq (.label bodyLabel) (.seq body (.seq (.goto testLabel)
      (.label done)))) none (some testLabel) σ₁ σ₂ :=
    flows_seq (flows_label bodyLabel) (flows_seq ran (flows_left (flows_goto testLabel)))
  refine flows_through testLabel ?_ (flows_through bodyLabel ?_
    (flows_seq (flows_label testLabel) (flows_left tested))
    (flows_right (flows_right (flows_from_label round)))) (flows_from_label again)
  · simp [whileLoop, Stm.sequence, Stm.marked]
  · simp [whileLoop, Stm.sequence, Stm.marked]

/-- Code that sets a place and resets it where a test fails: the test holds. -/
theorem runs_truth_yes {set reset : Stm} (began : Runs M n set σ σ₁)
    (tested : Flows M n test none (some yesLabel) σ₁ σ₂) :
    Runs M n (.sequence [set, test, .label noLabel, reset, .label yesLabel]) σ σ₂ := by
  refine flows_through yesLabel ?_ (flows_seq began (flows_left tested))
    (flows_right (flows_right (flows_right (flows_right (flows_at_label yesLabel)))))
  simp [Stm.sequence, Stm.marked]

/-- The same where the test fails. -/
theorem runs_truth_no {set reset : Stm} {σ₃ : State V W} (began : Runs M n set σ σ₁)
    (tested : Flows M n test none (some noLabel) σ₁ σ₂) (ran : Runs M n reset σ₂ σ₃) :
    Runs M n (.sequence [set, test, .label noLabel, reset, .label yesLabel]) σ σ₃ := by
  have branch : Flows M n (.seq (.label noLabel) (.seq reset (.label yesLabel))) none none σ₂ σ₃ :=
    flows_seq (flows_label noLabel) (flows_seq ran (flows_label yesLabel))
  refine flows_through noLabel ?_ (flows_seq began (flows_left tested))
    (flows_right (flows_right (flows_from_label branch)))
  simp [Stm.sequence, Stm.marked]

/-- A test that goes on at the same place either way. -/
theorem runs_join (tested : Flows M n test none (some join) σ σ') :
    Runs M n (.sequence [test, .label join]) σ σ' := by
  refine flows_through join ?_ (flows_left tested) (flows_right (flows_at_label join))
  simp [Stm.sequence, Stm.marked]

end Forms

section Sequences

/-- The statements lead from the start of the first to the end of the last. -/
def RunsAll (M : Model V W) (n : Nat) : List Stm → State V W → State V W → Prop
  | [], σ, σ' => σ = σ'
  | stm :: stms, σ, σ' => ∃ σ₁, Runs M n stm σ σ₁ ∧ RunsAll M n stms σ₁ σ'

theorem runs_nop : Runs M n .nop σ σ :=
  Running.performs_exp (Running.computes_const 0)

/-- Statements that run one after the other run as a sequence. -/
theorem runs_sequence : ∀ {stms : List Stm} {σ σ' : State V W}, RunsAll M n stms σ σ' →
    Runs M n (.sequence stms) σ σ'
  | [], _, _, ran => by
    cases ran
    exact runs_nop
  | [_], _, _, ran => by
    obtain ⟨_, ran, rfl⟩ := ran
    exact ran
  | _ :: next :: stms, _, _, ran => by
    obtain ⟨_, first, rest⟩ := ran
    exact flows_seq first (runs_sequence rest)

theorem runsAll_append {later : List Stm} :
    ∀ {stms : List Stm} {σ : State V W}, RunsAll M n stms σ σ₁ → RunsAll M n later σ₁ σ₂ →
      RunsAll M n (stms ++ later) σ σ₂
  | [], _, ran, ranLater => by
    cases ran
    exact ranLater
  | _ :: _, _, ran, ranLater => by
    obtain ⟨_, first, rest⟩ := ran
    exact ⟨_, first, runsAll_append rest ranLater⟩

theorem runsAll_single (ran : Runs M n stm σ σ') : RunsAll M n [stm] σ σ' :=
  ⟨σ', ran, rfl⟩

end Sequences

end TreeCode.Tree
