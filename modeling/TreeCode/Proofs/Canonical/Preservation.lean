import TreeCode.Proofs.Canonical.Rules

/-!
Canonical form preserves the meaning of statements without control flow: running the canonical
statements in order leaves the same world and the same values in all temporaries that were issued
before. As the world and the effect of calls on it are arbitrary, this includes which calls are
made, with which arguments and in which order.
-/

namespace TreeCode.Tree

variable {V W : Type} {M : Model V W}

/-- Running statements in order. -/
def Running.inOrder (M : Model V W) : Running M where
  runs stms σ τ := M.execAll stms σ = τ
  runs_nil := Iff.rfl
  runs_append first second := by rw [Model.execAll_append, first, second]
  runs_plain _ _ := rfl

namespace Running

variable (R : Running M) {n : Nat}

mutual
/-- Taken apart, an expression computes its value. -/
theorem computes_eval : ∀ (e : Exp) (σ : State V W), Below n e.temps →
    e.allStms Stm.isStraight = true → R.Computes n e σ (M.eval e σ).1 (M.eval e σ).2
  | .const value, _, _, _ => computes_const value
  | .name label, _, _, _ => computes_name label
  | .temp t, σ, below, _ => by
    simp only [Exp.temps, below_cons] at below
    exact computes_temp below.1
  | .binop op left right, σ, below, straight => by
    simp only [Exp.temps, below_append] at below
    simp only [Exp.allStms, Bool.and_eq_true] at straight
    exact computes_binop op (computes_eval left σ below.1 straight.1)
      (computes_eval right _ below.2 straight.2)
  | .mem address, σ, below, straight => computes_mem (computes_eval address σ below straight)
  | .call func none args, σ, below, straight => by
    simp only [Exp.temps, Exp.linkTemps, below_append] at below
    simp only [Exp.allStms, Bool.and_eq_true] at straight
    exact computes_plain_call (computes_eval func σ below.1.1 straight.1.1)
      (givesAll_evalAll args _ below.2 straight.2)
  | .call func (some link) args, σ, below, straight => by
    simp only [Exp.temps, Exp.linkTemps, below_append] at below
    simp only [Exp.allStms, Exp.linkAllStms, Bool.and_eq_true] at straight
    exact computes_linked_call (computes_eval func σ below.1.1 straight.1.1)
      (computes_eval link _ below.1.2 straight.1.2)
      (givesAll_evalAll args _ below.2 straight.2)
  | .eseq stm e, σ, below, straight => by
    simp only [Exp.temps, below_append] at below
    simp only [Exp.allStms, Bool.and_eq_true] at straight
    exact computes_eseq (performs_exec stm σ below.1 straight.1)
      (computes_eval e _ below.2 straight.2)
/-- Taken apart, the arguments of a call give their values. -/
theorem givesAll_evalAll : ∀ (args : List Exp) (σ : State V W), Below n (Exp.listTemps args) →
    Exp.listAllStms Stm.isStraight args = true →
    R.GivesAll n (Exp.extractArgs args) σ (M.evalAll args σ).1 (M.evalAll args σ).2
  | [], _, _, _ => givesAll_nil
  | arg :: args, σ, below, straight => by
    simp only [Exp.listTemps, below_append] at below
    simp only [Exp.listAllStms, Bool.and_eq_true] at straight
    exact givesAll_cons (computes_eval arg σ below.1 straight.1)
      (givesAll_evalAll args _ below.2 straight.2)
/-- Taken apart, a move to a place assigns to it, whatever gives the value. -/
theorem does_assign {src : Exp} {parts : Fresh (Stm × Exp)} {value : State V W → V × State V W}
    (given : ∀ σ, R.Gives n parts σ (value σ).1 (value σ).2) : ∀ (dst : Exp) (σ : State V W),
    dst.isPlace = true → Below n dst.temps → dst.allStms Stm.isStraight = true →
    R.Does n (Exp.extractMove src parts dst) σ (M.assign value dst σ)
  | .temp t, σ, _, below, _ => by
    simp only [Exp.temps, below_cons] at below
    exact does_move_temp below.1 (given σ)
  | .mem address, σ, _, below, straight =>
    does_move_mem (computes_eval address σ below straight) (given _)
  | .eseq stm dst, σ, place, below, straight => by
    simp only [Exp.temps, below_append] at below
    simp only [Exp.allStms, Bool.and_eq_true] at straight
    exact does_move_eseq (performs_exec stm σ below.1 straight.1)
      (does_assign given dst _ place below.2 straight.2)
/-- Taken apart, a statement without control flow does what it did. -/
theorem performs_exec : ∀ (stm : Stm) (σ : State V W), Below n stm.temps →
    stm.allStms Stm.isStraight = true → R.Performs n stm σ (M.exec stm σ)
  | .move dst src, σ, below, straight => by
    simp only [Stm.temps, below_append] at below
    simp only [Stm.allStms, Stm.isStraight, Stm.movesToPlace, Bool.and_eq_true] at straight
    exact does_assign (fun σ => computes_eval src σ below.2 straight.2) dst σ straight.1.1.1
      below.1 straight.1.2
  | .exp e, σ, below, straight => by
    simp only [Stm.allStms, Bool.and_eq_true] at straight
    exact performs_exp (computes_eval e σ below straight.2)
  | .seq first second, σ, below, straight => by
    simp only [Stm.temps, below_append] at below
    simp only [Stm.allStms, Bool.and_eq_true] at straight
    exact performs_seq (performs_exec first σ below.1 straight.1.2)
      (performs_exec second _ below.2 straight.2)
end

end Running

/-- Running the canonical form of a statement without control flow ends in the same world as the
statement itself, and with the same values in all temporaries that were issued before. -/
theorem canonical_preserves_meaning (M : Model V W) (stm : Stm) (supply : Supply)
    (straight : stm.straight = true) (issued : ∀ t ∈ stm.temps, t.index < supply.temps)
    (σ : State V W) :
    let after := M.execAll (stm.canonical supply).1 σ
    after.world = (M.exec stm σ).world ∧
      ∀ t : Temp, t.index < supply.temps → after.temps t = (M.exec stm σ).temps t := by
  intro after
  obtain ⟨_, ran⟩ := (Running.inOrder M).performs_exec stm σ issued straight supply (Nat.le_refl _)
  obtain ⟨υ, executed, agree, _⟩ := ran σ (State.Agree.refl _ σ)
  have final : after = υ := executed
  rw [final]
  exact ⟨agree.1.symm, fun t below => (agree.2 t below).symm⟩

/-- A model whose world is a journal of all stores and calls, the latest first. What a load or a
call gives depends on how many entries there are. -/
def Model.journal : Model Int (List (List Int)) where
  const := id
  name _ := 0
  binop
    | .plus, a, b => a + b
    | .minus, a, b => a - b
    | _, a, b => a * b
  holds _ a b := a == b
  load journal address := address + journal.length
  store journal address value := [address, value] :: journal
  call func link args journal := (journal.length, (func :: link.toList ++ args) :: journal)

/-- Stores `t0 + f(g())` at `t0`, where `g` is called after `t0` was set to five. -/
def Stm.sampleStore : Stm :=
  .move (.mem (.temp ⟨0⟩))
    (.binop .plus (.temp ⟨0⟩)
      (.plainCall "f" [.eseq (.move (.temp ⟨0⟩) (.const 5)) (.plainCall "g" [.mem (.temp ⟨0⟩)])]))

theorem canonical_preserves_sampleStore :
    (Stm.sampleStore.straight = true ∧ ∀ t ∈ Stm.sampleStore.temps, t.index < 1) ∧
      (Model.journal.execAll (Stm.sampleStore.canonical { temps := 1 }).1 ⟨fun _ => 7, []⟩).world =
        [[7, 8], [0, 0], [0, 5]] :=
  ⟨by decide, (canonical_preserves_meaning Model.journal Stm.sampleStore { temps := 1 } (by decide)
    (by decide) ⟨fun _ => 7, []⟩).1⟩

end TreeCode.Tree
