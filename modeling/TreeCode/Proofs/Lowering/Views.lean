import TreeCode.Proofs.Canonical.Flow
import TreeCode.Proofs.Lowering.Pieces
import TreeCode.Proofs.Tree.Words

/-!
The forms of a lowered expression do the same: whether it is used for its value, for its effect or
to choose between branches, it runs the same code and comes to the same value. `Leads` says what
code makes of every state with some property, and that temporaries issued later are left alone.
-/

namespace TreeCode

open Tree Source

variable {oracle : Oracle} {n hi hi' : Nat} {P Q R : State Value World → Prop}
  {run run' : State Value World → State Value World → Prop}

/-- The lowered expression has the value `v` and leads from the state `σ` to `σ'`. -/
def Lowered.Gives (oracle : Oracle) (n : Nat) (v : Word) :
    Lowered → State Value World → State Value World → Prop
  | .value exp, σ, σ' =>
    (Running.onMachine (Model.words oracle)).Computes n exp σ (.word v) σ' ∧
      ∀ c, exp = .const c → (c = 0 ↔ v = 0)
  | .effect stm, σ, σ' => Runs (Model.words oracle) n stm σ σ' ∧ v = 0
  | .test op left right, σ, σ' =>
    ∃ a b σ₁, (Running.onMachine (Model.words oracle)).Computes n left σ (.word a) σ₁ ∧
      (Running.onMachine (Model.words oracle)).Computes n right σ₁ (.word b) σ' ∧
      v = truth (op.holds a b)

section Leads

/-- From every state with `P`, the code runs to a state with `Q`. Temporaries from `hi` on are as
they were. -/
def Leads (hi : Nat) (P : State Value World → Prop)
    (run : State Value World → State Value World → Prop) (Q : State Value World → Prop) : Prop :=
  ∀ σ, P σ → ∃ σ', run σ σ' ∧ Q σ' ∧ ∀ t : Temp, hi ≤ t.index → σ'.temps t = σ.temps t

theorem leads_here (here : ∀ σ, P σ → run σ σ) : Leads hi P run P :=
  fun σ holds => ⟨σ, here σ holds, holds, fun _ _ => rfl⟩

theorem Leads.imp (leads : Leads hi P run Q) (imp : ∀ σ σ', run σ σ' → run' σ σ') :
    Leads hi P run' Q := by
  intro σ holds
  obtain ⟨σ', ran, after, kept⟩ := leads σ holds
  exact ⟨σ', imp σ σ' ran, after, kept⟩

theorem Leads.post (leads : Leads hi P run Q) (imp : ∀ σ, Q σ → R σ) : Leads hi P run R := by
  intro σ holds
  obtain ⟨σ', ran, after, kept⟩ := leads σ holds
  exact ⟨σ', ran, imp σ' after, kept⟩

/-- More temporaries may be changed than are. -/
theorem Leads.widen (leads : Leads hi P run Q) (le : hi ≤ hi') : Leads hi' P run Q := by
  intro σ holds
  obtain ⟨σ', ran, after, kept⟩ := leads σ holds
  exact ⟨σ', ran, after, fun t above => kept t (Nat.le_trans le above)⟩

/-- One piece of code after another one. -/
theorem Leads.trans {whole : State Value World → State Value World → Prop}
    (first : Leads hi P run Q) (second : Leads hi' Q run' R) (le : hi ≤ hi')
    (both : ∀ σ σ₁ σ₂, run σ σ₁ → run' σ₁ σ₂ → whole σ σ₂) : Leads hi' P whole R := by
  intro σ holds
  obtain ⟨σ₁, ran, middle, kept⟩ := first σ holds
  obtain ⟨σ₂, ranNext, after, keptNext⟩ := second σ₁ middle
  refine ⟨σ₂, both σ σ₁ σ₂ ran ranNext, after, fun t above => ?_⟩
  rw [keptNext t above, kept t (Nat.le_trans le above)]

/-- The property does not depend on temporaries from `hi` on. -/
def Settled (hi : Nat) (P : State Value World → Prop) : Prop :=
  ∀ σ τ, σ.Agree hi τ → P σ → P τ

theorem Settled.set (settled : Settled hi P) {σ : State Value World} (holds : P σ) {t : Temp}
    (above : hi ≤ t.index) (v : Value) : P (σ.set t v) :=
  settled σ _ ((State.Agree.refl hi σ).set_above above v) holds

theorem Settled.mono (settled : Settled hi P) (le : hi ≤ hi') : Settled hi' P :=
  fun σ τ agree => settled σ τ ⟨agree.1, fun t below => agree.2 t (Nat.lt_of_lt_of_le below le)⟩

end Leads

section Conversions

variable {lowered : Lowered} {supply : Supply} {v : Word}

theorem runs_set {t : Temp} {σ : State Value World} (below : t.index < n) (c : Int) :
    Runs (Model.words oracle) n (.move (.temp t) (.const c)) σ (σ.set t (.word (.ofInt 64 c))) :=
  Running.does_move_temp below (Running.computes_const c)

theorem computes_held {t : Temp} {σ : State Value World} {w : Value} (below : t.index < n)
    (held : σ.temps t = w) :
    (Running.onMachine (Model.words oracle)).Computes n (.temp t) σ w σ :=
  held ▸ Running.computes_temp below

/-- A comparison jumps to the label that its outcome chooses. -/
theorem flows_test {op : RelOp} {left right : Tree.Exp} {yes no : Label} {a b : Word}
    {σ σ₁ σ₂ : State Value World}
    (first : (Running.onMachine (Model.words oracle)).Computes n left σ (.word a) σ₁)
    (second : (Running.onMachine (Model.words oracle)).Computes n right σ₁ (.word b) σ₂) :
    Flows (Model.words oracle) n (.cjump op left right yes no) none
      (some (if op.holds a b then yes else no)) σ σ₂ :=
  flows_cjump first second

/-- A comparison that leaves one or zero in a temporary. The place of the result is set before the
operands are evaluated, which leave it alone. -/
theorem leads_truth {op : RelOp} {left right : Tree.Exp} {r : Temp} {yes no : Label}
    (leads : Leads r.index P ((Lowered.test op left right).Gives oracle n v) Q)
    (before : Settled r.index P) (after : Settled r.index Q) (below : r.index < n) :
    Leads (r.index + 1) P
      (fun σ σ' => (Running.onMachine (Model.words oracle)).Computes n
        (.eseq
          (.sequence [.move (.temp r) (.const 1), .cjump op left right yes no, .label no,
            .move (.temp r) (.const 0), .label yes])
          (.temp r)) σ (.word v) σ') Q := by
  intro σ holds
  obtain ⟨σ', ⟨a, b, σ₁, first, second, rfl⟩, held, kept⟩ :=
    leads (σ.set r (.word 1)) (before.set holds (Nat.le_refl _) _)
  have others : ∀ t : Temp, r.index + 1 ≤ t.index → σ'.temps t = σ.temps t ∧ t ≠ r := by
    intro t above
    have different : t ≠ r := by
      rintro rfl
      exact Nat.not_succ_le_self _ above
    rw [kept t (Nat.le_of_succ_le above), State.set_temps_ne _ _ different]
    exact ⟨rfl, different⟩
  have began : Runs (Model.words oracle) n (.move (.temp r) (.const 1)) σ (σ.set r (.word 1)) :=
    runs_set below 1
  have tested : Flows (Model.words oracle) n (.cjump op left right yes no) none
      (some (if op.holds a b then yes else no)) (σ.set r (.word 1)) σ' := flows_test first second
  cases holding : op.holds a b with
  | true =>
    rw [holding, if_pos rfl] at tested
    have result : σ'.temps r = .word 1 := by rw [kept r (Nat.le_refl _), State.set_temps_same]
    exact ⟨σ', Running.computes_eseq (runs_truth_yes began tested) (computes_held below result),
      held, fun t above => (others t above).1⟩
  | false =>
    rw [holding, if_neg Bool.false_ne_true] at tested
    refine ⟨σ'.set r (.word 0), ?_, after.set held (Nat.le_refl _) _, ?_⟩
    · exact Running.computes_eseq (runs_truth_no began tested (runs_set below 0))
        (computes_held below (State.set_temps_same _ _ _))
    · intro t above
      rw [State.set_temps_ne _ _ (others t above).2, (others t above).1]

/-- The value of a lowered expression. -/
theorem Leads.asValue (leads : Leads supply.temps P (lowered.Gives oracle n v) Q)
    (before : Settled supply.temps P) (after : Settled supply.temps Q)
    (room : (lowered.asValue supply).2.temps ≤ n) :
    Leads (lowered.asValue supply).2.temps P
      (fun σ σ' => (Running.onMachine (Model.words oracle)).Computes n (lowered.asValue supply).1
        σ (.word v) σ') Q := by
  cases lowered with
  | value exp => exact leads.imp fun σ σ' given => given.1
  | effect stm =>
    refine leads.imp fun σ σ' given => ?_
    rw [given.2]
    exact Running.computes_eseq given.1 (Running.computes_const 0)
  | test op left right =>
    rw [Lowering.asValue_test] at room ⊢
    exact leads_truth leads before after room

/-- The effect of a lowered expression. -/
theorem Lowered.Gives.effect {σ σ' : State Value World} (given : lowered.Gives oracle n v σ σ')
    (supply : Supply) : Runs (Model.words oracle) n (lowered.asEffect supply).1 σ σ' := by
  cases lowered with
  | value exp => exact Running.performs_exp given.1
  | effect stm => exact given.1
  | test op left right =>
    obtain ⟨a, b, σ₁, first, second, _⟩ := given
    have tested : Flows (Model.words oracle) n
        (.cjump op left right (freshLabel supply).1 (freshLabel supply).1) none
        (some (if op.holds a b then (freshLabel supply).1 else (freshLabel supply).1)) σ σ' :=
      flows_test first second
    rw [ite_self] at tested
    exact runs_join tested

theorem agree_of_computes_const {c : Int} {w : Value} {σ σ' τ : State Value World}
    (given : (Running.onMachine (Model.words oracle)).Computes n (.const c) σ w σ')
    (agree : σ.Agree n τ) : σ'.Agree n τ := by
  obtain ⟨υ, ran, evaluated, same, _⟩ := (given { temps := n } (Nat.le_refl n)).2 τ agree
  have still : τ = υ := passes_nil.mp ran
  subst still
  have world : σ'.world = τ.world := (congrArg (fun result => result.2.world) evaluated).symm
  exact ⟨world, same⟩

/-- A constant test needs no comparison. -/
theorem flows_constant {c : Int} {w : Value} {label : Label} {σ σ' : State Value World}
    (given : (Running.onMachine (Model.words oracle)).Computes n (.const c) σ w σ') :
    Flows (Model.words oracle) n (.goto label) none (some label) σ σ' :=
  fun _ _ => ⟨Nat.le_refl _, fun τ agree =>
    ⟨τ, passes_goto label, agree_of_computes_const given agree, State.Spared.refl _ _ _ _⟩⟩

/-- A lowered expression as a test. -/
theorem Lowered.Gives.branch {yes no : Label} {branch : Stm} {σ σ' : State Value World}
    (given : lowered.Gives oracle n v σ σ') (made : lowered.asBranch yes no = .ok branch) :
    Flows (Model.words oracle) n branch none (some (if v = 0 then no else yes)) σ σ' := by
  rcases Lowering.asBranch_ok made with
    ⟨op, left, right, rfl, rfl⟩ | ⟨c, rfl, rfl⟩ | ⟨exp, rfl, rfl⟩
  · obtain ⟨a, b, σ₁, first, second, rfl⟩ := given
    have tested : Flows (Model.words oracle) n (.cjump op left right yes no) none
        (some (if op.holds a b then yes else no)) σ σ' := flows_test first second
    cases holding : op.holds a b with
    | true => simpa [holding, truth] using tested
    | false => simpa [holding, truth] using tested
  · have zeros : c = 0 ↔ v = 0 := given.2 c rfl
    simp only [zeros]
    exact flows_constant given.1
  · have tested : Flows (Model.words oracle) n (.cjump .ne exp (.const 0) yes no) none
        (some (if v != 0 then yes else no)) σ σ' :=
      flows_test given.1 (Running.computes_const 0)
    by_cases zero : v = 0
    · simpa [zero] using tested
    · simpa [zero] using tested

/-- A lowered expression after some statements. -/
theorem Leads.after {stms : List Stm} (first : Leads hi P (RunsAll (Model.words oracle) n stms) Q)
    (second : Leads supply.temps Q (lowered.Gives oracle n v) R) (le : hi ≤ supply.temps)
    (before : Settled supply.temps Q) (after : Settled supply.temps R)
    (room : (lowered.after stms supply).2.temps ≤ n) :
    Leads (lowered.after stms supply).2.temps P
      ((lowered.after stms supply).1.Gives oracle n v) R := by
  rcases Lowering.after_cases stms lowered supply with ⟨rfl, same⟩ | ⟨last, rfl, same⟩ | same
  · rw [same]
    refine first.trans second le fun σ σ₁ σ₂ ran given => ?_
    cases ran
    exact given
  · rw [same]
    refine first.trans second le fun σ σ₁ σ₂ ran given => ?_
    exact ⟨runs_sequence (runsAll_append ran (runsAll_single given.1)), given.2⟩
  · rw [same] at room ⊢
    have grown := (Lowering.grows_asValue lowered supply).1
    refine first.trans (second.asValue before after room) (Nat.le_trans le grown) ?_
    intro σ σ₁ σ₂ ran given
    exact ⟨Running.computes_eseq (runs_sequence ran) given, fun c same => nomatch same⟩

end Conversions

end TreeCode
