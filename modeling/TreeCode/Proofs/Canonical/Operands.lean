import TreeCode.Proofs.Canonical.Equations
import TreeCode.Proofs.Tree.Meaning

/-!
Taking operands apart keeps what they compute. The statements that come before a node may use
temporaries from `n` on, of which the tree itself knows nothing. They are run from a state that
agrees with the tree's state below `n`; afterwards the values that are left evaluate to what the
operands evaluate to, and only temporaries that were issued on the way have changed above `n`.

How statements are run is left open: in order, or by a machine that jumps between labels.
-/

namespace TreeCode.Tree

variable {V W : Type} {M : Model V W}

/-- Whether a statement is a move to a temporary or to memory, or evaluates an expression. -/
def Stm.isPlain : Stm → Bool
  | .move (.temp _) _ => true
  | .move (.mem _) _ => true
  | .exp _ => true
  | _ => false

/-- A way to run lists of statements. -/
structure Running (M : Model V W) where
  runs : List Stm → State V W → State V W → Prop
  runs_nil : ∀ {σ τ : State V W}, runs [] σ τ ↔ σ = τ
  runs_append : ∀ {first second : List Stm} {σ τ υ : State V W},
    runs first σ τ → runs second τ υ → runs (first ++ second) σ υ
  runs_plain : ∀ {stm : Stm} (σ : State V W), stm.isPlain = true → runs [stm] σ (M.exec stm σ)

namespace State

/-- The states have the same world, and the same values in all temporaries below `n`. -/
def Agree (n : Nat) (σ τ : State V W) : Prop :=
  σ.world = τ.world ∧ ∀ t : Temp, t.index < n → σ.temps t = τ.temps t

/-- From `n` on, only temporaries from `lo` up to `hi` have changed. -/
def Spared (n lo hi : Nat) (σ τ : State V W) : Prop :=
  ∀ t : Temp, n ≤ t.index → t.index < lo ∨ hi ≤ t.index → τ.temps t = σ.temps t

theorem Agree.refl (n : Nat) (σ : State V W) : σ.Agree n σ := ⟨rfl, fun _ _ => rfl⟩

theorem Agree.set {n : Nat} {σ τ : State V W} (agree : σ.Agree n τ) (t : Temp) (v : V) :
    (σ.set t v).Agree n (τ.set t v) := by
  refine ⟨agree.1, ?_⟩
  intro u below
  by_cases same : u = t
  · subst u
    simp
  · rw [set_temps_ne σ v same, set_temps_ne τ v same, agree.2 u below]

/-- A temporary that the first state knows nothing of may be set in the second one. -/
theorem Agree.set_above {n : Nat} {σ τ : State V W} (agree : σ.Agree n τ) {t : Temp}
    (above : n ≤ t.index) (v : V) : σ.Agree n (τ.set t v) := by
  refine ⟨agree.1, ?_⟩
  intro u below
  have different : u ≠ t := by
    rintro rfl
    omega
  rw [set_temps_ne τ v different, agree.2 u below]

theorem Spared.refl (n lo hi : Nat) (σ : State V W) : σ.Spared n lo hi σ := fun _ _ _ => rfl

theorem Spared.trans {n lo hi : Nat} {σ τ υ : State V W} (first : σ.Spared n lo hi τ)
    (second : τ.Spared n lo hi υ) : σ.Spared n lo hi υ := by
  intro t above outside
  rw [second t above outside, first t above outside]

/-- Fewer temporaries have changed than a larger range allows. -/
theorem Spared.widen {n lo hi lo' hi' : Nat} {σ τ : State V W} (spared : σ.Spared n lo hi τ)
    (lower : lo' ≤ lo) (upper : hi ≤ hi') : σ.Spared n lo' hi' τ := by
  intro t above outside
  apply spared t above
  omega

theorem Spared.set {n lo hi : Nat} (σ : State V W) {t : Temp} (v : V)
    (inside : t.index < n ∨ lo ≤ t.index ∧ t.index < hi) : σ.Spared n lo hi (σ.set t v) := by
  intro u above outside
  apply set_temps_ne
  rintro rfl
  omega

end State

/-- Evaluating a constant or a label changes nothing and does not depend on the state. -/
theorem Model.eval_of_keeps {later : Stm} {value : Exp} (kept : later.keeps value = true)
    (effect : later.isNop = false) (σ τ : State V W) :
    M.eval value τ = ((M.eval value σ).1, τ) := by
  simp only [Stm.keeps, effect, Bool.false_or] at kept
  cases value <;> first | rfl | contradiction

namespace Running

/-- After `effects`, the expressions `values` evaluate to `vs`, just as the tree does that takes
the state `σ` to `σ'`. -/
def Realises (R : Running M) (n lo hi : Nat) (effects : Stm) (values : List Exp)
    (σ : State V W) (vs : List V) (σ' : State V W) : Prop :=
  ∀ τ, σ.Agree n τ → ∃ υ, R.runs effects.toList τ υ ∧
    M.evalAll values υ = (vs, υ.withWorld σ'.world) ∧
    (∀ t : Temp, t.index < n → σ'.temps t = υ.temps t) ∧ τ.Spared n lo hi υ

variable {R : Running M} {n lo mid hi : Nat} {σ σ' σ₁ σ₂ : State V W} {v : V} {vs : List V}

theorem runs_andThen {first second : Stm} {τ υ φ : State V W} (ran : R.runs first.toList τ υ)
    (next : R.runs second.toList υ φ) : R.runs (first.andThen second).toList τ φ := by
  rw [toList_andThen]
  exact R.runs_append ran next

/-- Running a move of a value into a temporary. -/
theorem runs_move_temp {value : Exp} {τ : State V W} {world : W} (t : Temp)
    (evaluated : M.evalAll [value] τ = ([v], τ.withWorld world)) :
    R.runs (Stm.move (.temp t) value).toList τ ((τ.withWorld world).set t v) := by
  have result : M.eval value τ = (v, τ.withWorld world) := by
    simp only [Model.evalAll, Prod.mk.injEq, List.cons.injEq, and_true] at evaluated
    exact Prod.ext evaluated.1 evaluated.2
  have ran : R.runs [.move (.temp t) value] τ (M.exec (.move (.temp t) value) τ) :=
    R.runs_plain τ rfl
  simp only [Model.exec, Model.assign, result] at ran
  exact ran

/-- An operand in front of others. Its value is saved where later effects might change it. -/
theorem realises_before {operand : Stm × Exp} {later : Stm} {values : List Exp} {supply : Supply}
    (low : n ≤ lo) (middle : lo ≤ mid) (high : mid ≤ supply.temps)
    (first : R.Realises n mid supply.temps operand.1 [operand.2] σ [v] σ₁)
    (rest : R.Realises n lo mid later values σ₁ vs σ₂) :
    R.Realises n lo (before operand later supply).2.temps (before operand later supply).1.1
      ((before operand later supply).1.2 :: values) σ (v :: vs) σ₂ := by
  intro τ agree
  obtain ⟨υ, ran, evaluated, same, spared⟩ := first τ agree
  have result : M.eval operand.2 υ = (v, υ.withWorld σ₁.world) := by
    simp only [Model.evalAll, Prod.mk.injEq, List.cons.injEq, and_true] at evaluated
    exact Prod.ext evaluated.1 evaluated.2
  have agreed : σ₁.Agree n (υ.withWorld σ₁.world) := ⟨rfl, same⟩
  by_cases kept : later.keeps operand.2 = true
  · rw [before_kept supply kept]
    by_cases nothing : later.isNop = true
    · -- Nothing runs between the two evaluations.
      obtain ⟨φ, ranLater, evaluatedLater, sameLater, sparedLater⟩ := rest _ agreed
      rw [toList_of_isNop nothing, R.runs_nil] at ranLater
      subst φ
      refine ⟨υ, ?_, ?_, sameLater, spared.widen middle (Nat.le_refl _)⟩
      · apply runs_andThen ran
        rw [toList_of_isNop nothing, R.runs_nil]
      · simp only [Model.evalAll, result, evaluatedLater, State.withWorld_withWorld]
    · -- The value does not depend on the state at all.
      have still := Model.eval_of_keeps (M := M) kept (Bool.eq_false_iff.mpr nothing)
      have unchanged : υ.withWorld σ₁.world = υ :=
        (Prod.ext_iff.mp (result.symm.trans (still υ υ))).2
      rw [unchanged] at agreed
      obtain ⟨φ, ranLater, evaluatedLater, sameLater, sparedLater⟩ := rest υ agreed
      refine ⟨φ, runs_andThen ran ranLater, ?_, sameLater, ?_⟩
      · have value : M.eval operand.2 φ = (v, φ) := by rw [still υ φ, result]
        simp only [Model.evalAll, value, evaluatedLater]
      · exact (spared.widen middle (Nat.le_refl _)).trans (sparedLater.widen (Nat.le_refl _) high)
  · -- The value is saved in a temporary that nothing on its right knows.
    rw [before_saved supply (Bool.eq_false_iff.mpr kept)]
    have fresh : n ≤ supply.temps := Nat.le_trans low (Nat.le_trans middle high)
    have saved : σ₁.Agree n ((υ.withWorld σ₁.world).set ⟨supply.temps⟩ v) :=
      agreed.set_above fresh v
    obtain ⟨φ, ranLater, evaluatedLater, sameLater, sparedLater⟩ := rest _ saved
    refine ⟨φ, ?_, ?_, sameLater, ?_⟩
    · exact runs_andThen ran (runs_andThen (runs_move_temp _ evaluated) ranLater)
    · have value : φ.temps ⟨supply.temps⟩ = v := by
        rw [sparedLater ⟨supply.temps⟩ fresh (Or.inr high)]
        exact State.set_temps_same _ _ _
      simp only [Model.evalAll, Model.eval, value, evaluatedLater]
    · have set : (υ.withWorld σ₁.world).Spared n lo (supply.temps + 1)
          ((υ.withWorld σ₁.world).set ⟨supply.temps⟩ v) :=
        State.Spared.set _ v (Or.inr ⟨Nat.le_trans middle high, Nat.lt_succ_self _⟩)
      exact ((spared.widen middle (Nat.le_succ _)).trans set).trans
        (sparedLater.widen (Nat.le_refl _) (Nat.le_succ_of_le high))

end Running

end TreeCode.Tree
