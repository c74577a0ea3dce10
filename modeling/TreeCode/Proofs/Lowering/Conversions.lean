import TreeCode.Proofs.Canonical.Labels
import TreeCode.Proofs.Labels
import TreeCode.Proofs.Lowering.Pieces
import TreeCode.Proofs.Tree.Locality
import TreeCode.Proofs.Tree.Machine
import TreeCode.Proofs.Tree.Words

/-!
The forms of a lowered expression agree. Whether an expression is used for its value, for its
effect or as a condition, each of its operands is evaluated once, with the same effects; the value
and the branch taken tell the same. Fresh temporaries and labels that a form needs do not get in the
way of anything that was issued before.

Operands are without jumps here, so that they can be evaluated as they stand. The code that the
forms put around them is run by the machine, inside any code whose labels were issued before.
-/

namespace TreeCode.Tree

open Source (Word truth)

/-- Whether a statement jumps. -/
def Stm.isJump : Stm → Bool
  | .jump _ _ => true
  | .cjump _ _ _ _ _ => true
  | _ => false

/-- Whether no statement inside an expression jumps. -/
def Exp.jumpFree (e : Exp) : Bool := e.allStms fun stm => !stm.isJump

section Surroundings

variable {V W : Type} [DecidableEq V] (M : Model V W)

/-- In any code around it whose labels were issued before, the machine gets from the start of
`piece` to its end. -/
def Model.Crosses (supply : Supply) (piece : List Stm) (σ τ : State V W) : Prop :=
  ∀ pre post, Issued 0 supply.labels (marks (pre ++ post)) →
    M.Reaches (pre ++ piece ++ post) (pre.length, σ) ((pre ++ piece).length, τ)

/-- In any code around it whose labels were issued before and that carries both `yes` and `no`, the
next step after `stm` is at `yes` or at `no`, as `choice` says. -/
def Model.Chooses (supply : Supply) (stm : Stm) (yes no : Label) (choice : Bool)
    (σ τ : State V W) : Prop :=
  ∀ pre post, Issued 0 supply.labels (marks (pre ++ post)) →
    ∀ i j, (pre ++ [stm] ++ post)[i]? = some (.label yes) →
      (pre ++ [stm] ++ post)[j]? = some (.label no) →
      i ≠ j ∧ M.step (pre ++ [stm] ++ post) pre.length σ = some (if choice then i else j, τ)

/-- The expression comes to the value `v`. Statements in front of it are run by the machine; what
is left after them does not jump. -/
inductive Model.Yields (supply : Supply) : Exp → State V W → V → State V W → Prop
  | direct {e : Exp} (σ : State V W) (free : e.jumpFree = true) :
    Yields supply e σ (M.eval e σ).1 (M.eval e σ).2
  | after {stm : Stm} {e : Exp} {σ τ υ : State V W} {v : V}
    (crosses : M.Crosses supply stm.toList σ τ) (rest : Yields supply e τ v υ) :
    Yields supply (.eseq stm e) σ v υ

variable {M} {supply : Supply} {piece : List Stm} {σ τ : State V W} {high : Nat}

/-- Labels issued later are different from all labels of the code around. -/
theorem nodup_marks_around {pre post : List Stm}
    (around : Issued 0 supply.labels (marks (pre ++ post)))
    (fresh : Issued supply.labels high (marks piece)) :
    (marks (pre ++ piece ++ post)).Nodup := by
  have inside : (marks (pre ++ piece ++ post)).Perm (marks (pre ++ post) ++ marks piece) := by
    simp only [marks_append, List.append_assoc]
    exact List.perm_append_comm.append_left _
  exact ((around.append fresh).perm inside).distinct

/-- Code that passes from its start to its end does so at any place in a program without its
labels. -/
theorem crosses_of_passes (fresh : Issued supply.labels high (marks piece))
    (passes : M.Passes piece none none σ τ) : M.Crosses supply piece σ τ := by
  intro pre post around
  exact passes pre post (nodup_marks_around around fresh) _ _ rfl rfl

theorem passes_cons_right {stm : Stm} {name : Label} {exit : Option Label}
    (ended : M.Passes piece (some name) exit σ τ) :
    M.Passes (stm :: piece) (some name) exit σ τ := by
  change M.Passes ([stm] ++ piece) (some name) exit σ τ
  exact passes_append_right ended

/-- A single jump chooses between two labels. -/
theorem chooses_of_step {stm : Stm} {yes no : Label} {choice : Bool} (plain : stm.label? = none)
    (different : yes ≠ no)
    (steps : ∀ code pc next, code[pc]? = some stm →
      place? code (if choice then yes else no) = some next → M.step code pc σ = some (next, τ)) :
    M.Chooses supply stm yes no choice σ τ := by
  intro pre post around i j atYes atNo
  have unlabelled : Issued supply.labels supply.labels (marks [stm]) := by
    simp [marks, plain, issued_nil]
  have distinct := nodup_marks_around around unlabelled
  refine ⟨?_, ?_⟩
  · rintro rfl
    rw [atYes] at atNo
    cases atNo
    exact different rfl
  · refine steps _ _ _ (getElem?_piece pre post stm) ?_
    cases choice with
    | true => exact place_of_nodup distinct atYes
    | false => exact place_of_nodup distinct atNo

end Surroundings

end TreeCode.Tree

namespace TreeCode

open Tree
open Source (Word truth)

namespace Lowered

/-- Whether nothing jumps inside the operands. -/
def jumpFree : Lowered → Bool
  | value e => e.jumpFree
  | effect stm => stm.allStms fun stm => !stm.isJump
  | test _ left right => left.jumpFree && right.jumpFree

/-- Whether a lowered constant is a signed word. -/
def signed : Lowered → Bool
  | value (.const c) => -2 ^ 63 ≤ c && c < 2 ^ 63
  | _ => true

/-- The value and the state after it if each operand is evaluated once, the left one first. -/
def meaning {W : Type} (M : Model Word W) : Lowered → State Word W → Word × State Word W
  | value e, σ => M.eval e σ
  | effect stm, σ => (0, M.exec stm σ)
  | test op left right, σ =>
    let a := M.eval left σ
    let b := M.eval right a.2
    (truth (op.holds a.1 b.1), b.2)

end Lowered

section Forms

variable {W : Type} {M : Model Word W} {supply : Supply} {σ : State Word W} {op : RelOp}
  {left right : Tree.Exp} {yes no : Label}

/-- A comparison jumps to its first label if its value is not zero. -/
theorem holds_iff_meaning (words : M.OnWords) (op : RelOp) (left right : Tree.Exp)
    (σ : State Word W) :
    M.holds op (M.eval left σ).1 (M.eval right (M.eval left σ).2).1 =
      (((Lowered.test op left right).meaning M σ).1 != 0) := by
  rw [words.holds]
  simp only [Lowered.meaning, truth]
  split <;> simp_all

theorem passes_comparison (words : M.OnWords) :
    M.Passes [.cjump op left right yes no] none
      (some (if ((Lowered.test op left right).meaning M σ).1 != 0 then yes else no)) σ
      ((Lowered.test op left right).meaning M σ).2 :=
  passes_jump fun _ _ _ found there =>
    step_cjump found (holds_iff_meaning words op left right σ) there

/-- A temporary that is set before a comparison is not seen by it. -/
theorem meaning_set {r : Temp} (absent : r ∉ left.temps ++ right.temps) (w : Word) :
    (Lowered.test op left right).meaning M (σ.set r w) =
      (((Lowered.test op left right).meaning M σ).1,
        ((Lowered.test op left right).meaning M σ).2.set r w) := by
  rw [List.mem_append, not_or] at absent
  simp only [Lowered.meaning, M.eval_set w left σ absent.1, M.eval_set w right _ absent.2]

theorem passes_set (words : M.OnWords) (r : Temp) (c : Int) :
    M.Passes [.move (.temp r) (.const c)] none none σ (σ.set r (.ofInt 64 c)) := by
  have passed : M.Passes [.move (.temp r) (.const c)] none none σ
      (M.exec (.move (.temp r) (.const c)) σ) := passes_plain rfl
  simpa only [Model.exec, Model.assign, Model.eval, words.const] using passed

/-- The code that leaves the outcome of a comparison in `r`. -/
abbrev truthCode (op : RelOp) (left right : Tree.Exp) (r : Temp) (yes no : Label) : List Stm :=
  [.move (.temp r) (.const 1), .cjump op left right yes no, .label no,
    .move (.temp r) (.const 0), .label yes]

/-- A comparison is made once, and `r` is one or zero afterwards. It is set to one beforehand,
which the operands do not notice. -/
theorem passes_truth (words : M.OnWords) {r : Temp} (absent : r ∉ left.temps ++ right.temps) :
    let meant := (Lowered.test op left right).meaning M σ
    M.Passes (truthCode op left right r yes no) none none σ (meant.2.set r meant.1) := by
  intro meant
  have compared : M.Passes (truthCode op left right r yes no) none
      (some (if meant.1 != 0 then yes else no)) σ (meant.2.set r 1) := by
    have passed : M.Passes [.cjump op left right yes no] none _ (σ.set r 1) _ :=
      passes_comparison words
    rw [meaning_set absent] at passed
    exact passes_append (passes_set words r 1) (passes_append_left passed)
  by_cases holds : op.holds (M.eval left σ).1 (M.eval right (M.eval left σ).2).1 = true
  · have one : meant.1 = 1 := by simp [meant, Lowered.meaning, truth, holds]
    rw [one] at compared ⊢
    have joined : M.Passes (truthCode op left right r yes no) (some yes) none (meant.2.set r 1)
        (meant.2.set r 1) :=
      passes_cons_right (passes_cons_right (passes_cons_right (passes_cons_right
        (passes_from_label (passes_label yes)))))
    exact passes_through (by simp [marks, Stm.label?]) compared joined
  · have zero : meant.1 = 0 := by simp [meant, Lowered.meaning, truth, holds]
    rw [zero] at compared ⊢
    have reset : M.Passes [.label no, .move (.temp r) (.const 0), .label yes] none none
        (meant.2.set r 1) ((meant.2.set r 1).set r 0) :=
      passes_append (passes_label no) (passes_append (passes_set words r 0) (passes_label yes))
    rw [State.set_set] at reset
    exact passes_through (by simp [marks, Stm.label?]) compared
      (passes_cons_right (passes_cons_right (passes_from_label reset)))

theorem passes_exp (e : Tree.Exp) (σ : State Word W) :
    M.Passes (Stm.exp e).toList none none σ (M.eval e σ).2 := by
  by_cases nothing : (Stm.exp e).isNop = true
  · rw [toList_of_isNop nothing, passes_nil]
    cases e <;> first | rfl | cases nothing
  · rw [toList_single (Bool.eq_false_iff.mpr nothing) (by simp)]
    exact passes_plain rfl

/-- The labels that a comparison for its value needs are new and different. -/
theorem issued_truthCode (op : RelOp) (left right : Tree.Exp) (r : Temp) (supply : Supply) :
    Issued supply.labels (supply.labels + 2)
      (marks (truthCode op left right r (freshLabel supply).1
        (freshLabel (freshLabel supply).2).1)) := by
  have both := (issued_single (numbered_freshLabel supply)).append
    (issued_single (numbered_freshLabel (freshLabel supply).2))
  exact both.perm (List.Perm.swap _ _ _)

/-- An expression as a value. -/
theorem yields_asValue (words : M.OnWords) {lowered : Lowered}
    (valued : lowered.isEffect = false) (free : lowered.jumpFree = true)
    (below : Below supply.temps lowered.temps) (σ : State Word W) :
    ∃ τ, M.Yields supply (lowered.asValue supply).1 σ (lowered.meaning M σ).1 τ ∧
      (lowered.meaning M σ).2.Agree supply.temps τ := by
  cases lowered with
  | value e => exact ⟨_, .direct σ free, State.Agree.refl _ _⟩
  | effect stm => cases valued
  | test op left right =>
    have absent : (⟨supply.temps⟩ : Temp) ∉ left.temps ++ right.temps := fun member =>
      Nat.lt_irrefl _ (below _ member)
    rw [Lowering.asValue_test]
    let meant := (Lowered.test op left right).meaning M σ
    have crosses : M.Crosses supply _ σ (meant.2.set ⟨supply.temps⟩ meant.1) :=
      crosses_of_passes (issued_truthCode op left right ⟨supply.temps⟩ supply)
        (passes_truth words absent)
    have result : M.Yields supply (.temp ⟨supply.temps⟩) (meant.2.set ⟨supply.temps⟩ meant.1)
        (M.eval (.temp ⟨supply.temps⟩) (meant.2.set ⟨supply.temps⟩ meant.1)).1 _ := .direct _ rfl
    simp only [Model.eval, State.set_temps_same] at result
    exact ⟨_, .after crosses result, (State.Agree.refl _ _).set_above (Nat.le_refl _) _⟩

/-- An expression for its effect. -/
theorem crosses_asEffect (words : M.OnWords) {lowered : Lowered}
    (valued : lowered.isEffect = false) (supply : Supply) (σ : State Word W) :
    M.Crosses supply (lowered.asEffect supply).1.toList σ (lowered.meaning M σ).2 := by
  cases lowered with
  | value e =>
    have unlabelled : Issued supply.labels supply.labels (marks (Stm.exp e).toList) := by
      rw [marks_exp]
      exact issued_nil (Nat.le_refl _)
    exact crosses_of_passes unlabelled (passes_exp e σ)
  | effect stm => cases valued
  | test op left right =>
    rw [Lowering.asEffect_test]
    let join := (freshLabel supply).1
    let after := ((Lowered.test op left right).meaning M σ).2
    have compared : M.Passes [.cjump op left right join join] none (some join) σ after := by
      have passed : M.Passes [.cjump op left right join join] none _ σ _ := passes_comparison words
      rwa [ite_self] at passed
    have joined : M.Passes [.cjump op left right join join, .label join] none none σ after :=
      passes_through (by simp [marks, Stm.label?]) (passes_append_left compared)
        (passes_cons_right (passes_from_label (passes_label join)))
    exact crosses_of_passes (issued_single (numbered_freshLabel supply)) joined

theorem chooses_goto {choice : Bool} {target : Label} (different : yes ≠ no)
    (chosen : (if choice then yes else no) = target) :
    M.Chooses supply (.goto target) yes no choice σ σ := by
  refine chooses_of_step rfl different fun code pc next found there => ?_
  rw [chosen] at there
  exact step_goto found there σ

/-- The constants that are signed words are zero as words only if they are zero. -/
theorem const_eq_zero {c : Int} (words : M.OnWords)
    (signed : (Lowered.value (.const c)).signed = true) : M.const c = 0 ↔ c = 0 := by
  simp only [Lowered.signed, Bool.and_eq_true, decide_eq_true_eq] at signed
  rw [words.const, ← BitVec.toInt_inj, BitVec.toInt_ofInt_eq_self (by decide) signed.1 signed.2]
  rfl

/-- An expression as a condition. -/
theorem chooses_asBranch (words : M.OnWords) {lowered : Lowered}
    (valued : lowered.isEffect = false) (signed : lowered.signed = true) (different : yes ≠ no)
    (supply : Supply) (σ : State Word W) :
    ∃ branch, lowered.asBranch yes no = .ok branch ∧
      M.Chooses supply branch yes no ((lowered.meaning M σ).1 != 0) σ (lowered.meaning M σ).2 := by
  cases lowered with
  | effect stm => cases valued
  | test op left right =>
    exact ⟨_, rfl, chooses_of_step rfl different fun _ _ _ found there =>
      step_cjump found (holds_iff_meaning words op left right σ) there⟩
  | value e =>
    by_cases constant : ∃ c, e = .const c
    · -- The branch of a constant is known.
      obtain ⟨c, rfl⟩ := constant
      simp only [Lowered.meaning, Model.eval]
      by_cases zero : c = 0
      · rw [(const_eq_zero words signed).mpr zero, zero]
        exact ⟨.goto no, rfl, chooses_goto different rfl⟩
      · have something : (M.const c != 0) = true :=
          bne_iff_ne.mpr fun same => zero ((const_eq_zero words signed).mp same)
        rw [something]
        exact ⟨.goto yes, by simp [Lowered.asBranch], chooses_goto different rfl⟩
    · refine ⟨.cjump .ne e (.const 0) yes no, ?_, ?_⟩
      · cases e with
        | const c => exact absurd ⟨c, rfl⟩ constant
        | _ => rfl
      · have chosen : M.holds .ne (M.eval e σ).1 (M.const 0) = ((M.eval e σ).1 != 0) := by
          rw [words.holds, words.const]
          rfl
        exact chooses_of_step rfl different fun _ _ _ found there => step_cjump found chosen there

/-- Code without a value counts as zero. -/
theorem eq_zero_of_yields (words : M.OnWords) {stm : Stm} {v : Word} {τ : State Word W}
    (yields : M.Yields supply (.eseq stm (.const 0)) σ v τ) : v = 0 := by
  have zero : M.const 0 = 0 := words.const 0
  cases yields with
  | direct => exact zero
  | after crosses rest =>
    cases rest with
    | direct => exact zero

end Forms

/-- The three forms of a lowered expression agree, on any machine with words of 64 bits and in any
code whose labels were issued before. The operands of an expression with a value may have any
effects, but do not jump and use only temporaries issued before. Then the expression comes to the
value that evaluating each operand once gives; for its effect and as a condition, it leads to the
same memory and calls and to the same values of all temporaries issued before. The condition goes to
`yes` if the value is not zero, and to `no` otherwise. A comparison is one or zero. Code without a
value counts as zero after it has run, and is no condition. -/
theorem forms_agree {W : Type} {M : Model Word W} (words : M.OnWords) (supply : Supply) :
    (∀ (lowered : Lowered) (yes no : Label) (σ : State Word W), lowered.isEffect = false →
      lowered.jumpFree = true → lowered.signed = true → Below supply.temps lowered.temps →
      Issued 0 supply.labels [yes, no] →
      let meant := lowered.meaning M σ
      (∃ τ, M.Yields supply (lowered.asValue supply).1 σ meant.1 τ ∧
        meant.2.Agree supply.temps τ) ∧
      (∃ τ, M.Crosses supply (lowered.asEffect supply).1.toList σ τ ∧
        meant.2.Agree supply.temps τ) ∧
      (∃ branch τ, lowered.asBranch yes no = .ok branch ∧
        M.Chooses supply branch yes no (meant.1 != 0) σ τ ∧ meant.2.Agree supply.temps τ) ∧
      ∀ op left right, lowered = .test op left right → meant.1 = 1 ∨ meant.1 = 0) ∧
    ∀ (stm : Stm) (yes no : Label),
      (∀ σ τ : State Word W, M.Crosses supply stm.toList σ τ →
        M.Yields supply ((Lowered.effect stm).asValue supply).1 σ 0 τ) ∧
      (∀ (σ : State Word W) (v : Word) (τ : State Word W),
        M.Yields supply ((Lowered.effect stm).asValue supply).1 σ v τ → v = 0) ∧
      (Lowered.effect stm).asBranch yes no = .error (.valuelessCondition stm) := by
  constructor
  · intro lowered yes no σ valued free signed below targets meant
    have different : yes ≠ no := by simpa using targets.distinct
    obtain ⟨branch, made, chooses⟩ := chooses_asBranch words valued signed different supply σ
    refine ⟨yields_asValue words valued free below σ,
      ⟨_, crosses_asEffect words valued supply σ, State.Agree.refl _ _⟩,
      ⟨branch, _, made, chooses, State.Agree.refl _ _⟩, ?_⟩
    rintro op left right rfl
    change truth _ = 1 ∨ truth _ = 0
    unfold truth
    split
    · exact .inl rfl
    · exact .inr rfl
  · intro stm yes no
    refine ⟨fun σ τ crosses => ?_, fun σ v τ yields => eq_zero_of_yields words yields, rfl⟩
    have zero : M.Yields supply (.const 0) τ (M.const 0) τ := .direct τ rfl
    rw [words.const] at zero
    exact .after crosses zero

/-- Compares the result of a call with a variable that is set after the call. -/
def sampleTest : Lowered :=
  .test .lt (.plainCall "g" [.temp ⟨0⟩]) (.eseq (.move (.temp ⟨0⟩) (.const 5)) (.temp ⟨0⟩))

theorem sampleTest_forms_agree :
    (sampleTest.isEffect = false ∧ sampleTest.jumpFree = true ∧ sampleTest.signed = true ∧
      Below 1 sampleTest.temps ∧ Issued 0 2 [".L0", ".L1"]) ∧
    ∃ branch τ, sampleTest.asBranch ".L0" ".L1" = .ok branch ∧
      Model.recording.Chooses { temps := 1, labels := 2 } branch ".L0" ".L1" true
        ⟨fun _ => 7, (fun _ => 0, [])⟩ τ ∧
      τ.world.2 = [[7]] ∧ τ.temps ⟨0⟩ = 5 := by
  have below : Below 1 sampleTest.temps := by
    unfold Below
    decide
  have targets : Issued 0 2 [".L0", ".L1"] :=
    (issued_single (numbered_freshLabel {})).append
      (issued_single (numbered_freshLabel { labels := 1 }))
  obtain ⟨_, _, ⟨branch, τ, made, chooses, world, same⟩, _⟩ :=
    (forms_agree Model.recording_onWords { temps := 1, labels := 2 }).1 sampleTest ".L0" ".L1"
      ⟨fun _ => 7, (fun _ => 0, [])⟩ rfl rfl rfl below targets
  refine ⟨⟨rfl, rfl, rfl, below, targets⟩, branch, τ, made, chooses, ?_, ?_⟩
  · exact (congrArg Prod.snd world).symm
  · exact (same ⟨0⟩ (by decide)).symm

end TreeCode
