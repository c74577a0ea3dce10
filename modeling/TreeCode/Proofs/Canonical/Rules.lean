import TreeCode.Proofs.Canonical.Operands
import TreeCode.Proofs.Tree.Occurrences

/-!
Rules for what trees compute once they are taken apart, one for each kind of node. The rules are
those of an evaluation from left to right: what a node does follows from what its parts do, one
after the other.
-/

namespace TreeCode.Tree.Running

variable {V W : Type} {M : Model V W}

/-- Whatever is issued from `n` on, `parts` leaves a value that evaluates to `v`, and leads from
the state `σ` to `σ'`. -/
def Gives (R : Running M) (n : Nat) (parts : Fresh (Stm × Exp)) (σ : State V W) (v : V)
    (σ' : State V W) : Prop :=
  ∀ supply : Supply, n ≤ supply.temps → supply.temps ≤ (parts supply).2.temps ∧
    R.Realises n supply.temps (parts supply).2.temps (parts supply).1.1 [(parts supply).1.2]
      σ [v] σ'

/-- The same for several values. -/
def GivesAll (R : Running M) (n : Nat) (parts : Fresh (Stm × List Exp)) (σ : State V W)
    (vs : List V) (σ' : State V W) : Prop :=
  ∀ supply : Supply, n ≤ supply.temps → supply.temps ≤ (parts supply).2.temps ∧
    R.Realises n supply.temps (parts supply).2.temps (parts supply).1.1 (parts supply).1.2
      σ vs σ'

/-- Whatever is issued from `n` on, the statement that `act` makes leads from `σ` to `σ'`. -/
def Does (R : Running M) (n : Nat) (act : Fresh Stm) (σ σ' : State V W) : Prop :=
  ∀ supply : Supply, n ≤ supply.temps → supply.temps ≤ (act supply).2.temps ∧
    ∀ τ, σ.Agree n τ → ∃ υ, R.runs (act supply).1.toList τ υ ∧ σ'.Agree n υ ∧
      τ.Spared n supply.temps (act supply).2.temps υ

/-- The expression evaluates to `v` and leads from `σ` to `σ'`. -/
def Computes (R : Running M) (n : Nat) (e : Exp) (σ : State V W) (v : V)
    (σ' : State V W) : Prop :=
  R.Gives n e.extract σ v σ'

/-- The statement leads from `σ` to `σ'`. -/
def Performs (R : Running M) (n : Nat) (stm : Stm) (σ σ' : State V W) : Prop :=
  R.Does n stm.extract σ σ'

variable {R : Running M} {n : Nat} {σ σ' σ₁ σ₂ σ₃ : State V W} {a b v : V} {vs : List V}

theorem before_temps_le (operand : Stm × Exp) (later : Stm) (supply : Supply) :
    supply.temps ≤ (before operand later supply).2.temps := by
  by_cases kept : later.keeps operand.2 = true
  · exact Nat.le_of_eq (by rw [before_kept supply kept])
  · rw [before_saved supply (Bool.eq_false_iff.mpr kept)]
    exact Nat.le_succ _

/-- A leaf needs no statements and changes nothing. -/
theorem gives_leaf {e : Exp} (leaf : ∀ supply, e.extract supply = ((.nop, e), supply))
    (stays : ∀ τ, σ.Agree n τ → M.eval e τ = (v, τ)) : R.Computes n e σ v σ := by
  intro supply low
  rw [leaf supply]
  refine ⟨Nat.le_refl _, ?_⟩
  intro τ agree
  refine ⟨τ, R.runs_nil.mpr rfl, ?_, agree.2, State.Spared.refl _ _ _ _⟩
  simp only [Model.evalAll, stays τ agree, agree.1, State.withWorld_self]

theorem computes_const (value : Int) : R.Computes n (.const value) σ (M.const value) σ :=
  gives_leaf (fun _ => rfl) (fun _ _ => rfl)

theorem computes_name (label : Label) : R.Computes n (.name label) σ (M.name label) σ :=
  gives_leaf (fun _ => rfl) (fun _ _ => rfl)

theorem computes_temp {t : Temp} (below : t.index < n) :
    R.Computes n (.temp t) σ (σ.temps t) σ :=
  gives_leaf (fun _ => rfl) (fun τ agree => by rw [agree.2 t below]; rfl)

/-- An operand gives what it computes, also where a call is made beforehand. -/
theorem gives_hoist {e : Exp} {parts : Fresh (Stm × Exp)} (given : R.Gives n parts σ v σ') :
    R.Gives n (e.hoist parts) σ v σ' := by
  cases e with
  | call func link args =>
    intro supply low
    rw [hoist_call]
    obtain ⟨upper, realised⟩ := given { supply with temps := supply.temps + 1 }
      (Nat.le_succ_of_le low)
    refine ⟨Nat.le_of_succ_le upper, ?_⟩
    intro τ agree
    obtain ⟨υ, ran, evaluated, same, spared⟩ := realised τ agree
    refine ⟨(υ.withWorld σ'.world).set ⟨supply.temps⟩ v, ?_, ?_, ?_, ?_⟩
    · exact runs_andThen ran (runs_move_temp _ evaluated)
    · simp only [Model.evalAll, Model.eval, State.set_temps_same]
      rfl
    · intro t below
      have different : t ≠ ⟨supply.temps⟩ := by
        rintro rfl
        exact Nat.lt_irrefl _ (Nat.lt_of_lt_of_le below low)
      rw [State.set_temps_ne _ _ different, State.withWorld_temps, same t below]
    · have set : (υ.withWorld σ'.world).Spared n supply.temps _
          ((υ.withWorld σ'.world).set ⟨supply.temps⟩ v) :=
        State.Spared.set _ v (Or.inr ⟨Nat.le_refl _, upper⟩)
      exact (spared.widen (Nat.le_succ _) (Nat.le_refl _)).trans set
  | _ => exact given

/-- One more operand in front of others that are taken apart already. -/
theorem realises_operand (e : Exp) {parts : Fresh (Stm × Exp)} {lo : Nat} {later : Stm}
    {values : List Exp} {supply : Supply} (low : n ≤ lo) (upper : lo ≤ supply.temps)
    (given : R.Gives n parts σ v σ₁)
    (rest : R.Realises n lo supply.temps later values σ₁ vs σ₂) :
    let operand := e.hoist parts supply
    let all := before operand.1 later operand.2
    lo ≤ all.2.temps ∧
      R.Realises n lo all.2.temps all.1.1 (all.1.2 :: values) σ (v :: vs) σ₂ := by
  intro operand all
  obtain ⟨further, realised⟩ := gives_hoist (e := e) given supply (Nat.le_trans low upper)
  refine ⟨?_, realises_before low upper further realised rest⟩
  exact Nat.le_trans (Nat.le_trans upper further) (before_temps_le _ _ _)

/-- Two operands, the left one first. -/
theorem realises_pair (left right : Exp) {leftParts rightParts : Fresh (Stm × Exp)}
    (first : R.Gives n leftParts σ a σ₁) (second : R.Gives n rightParts σ₁ b σ₂)
    {supply : Supply} (low : n ≤ supply.temps) :
    let later := right.hoist rightParts supply
    let operand := left.hoist leftParts later.2
    let both := before operand.1 later.1.1 operand.2
    supply.temps ≤ both.2.temps ∧
      R.Realises n supply.temps both.2.temps both.1.1 [both.1.2, later.1.2] σ [a, b] σ₂ := by
  obtain ⟨upper, realised⟩ := gives_hoist (e := right) second supply low
  exact realises_operand left low upper first realised

/-- The left operand is computed first. -/
theorem computes_binop {left right : Exp} (op : BinOp) (first : R.Computes n left σ a σ₁)
    (second : R.Computes n right σ₁ b σ₂) :
    R.Computes n (.binop op left right) σ (M.binop op a b) σ₂ := by
  intro supply low
  rw [extract_binop]
  obtain ⟨upper, realised⟩ := realises_pair left right first second low
  refine ⟨upper, ?_⟩
  intro τ agree
  obtain ⟨υ, ran, evaluated, same, spared⟩ := realised τ agree
  refine ⟨υ, ran, ?_, same, spared⟩
  simp only [Model.evalAll, Prod.mk.injEq, List.cons.injEq, and_true] at evaluated
  obtain ⟨⟨leftValue, rightValue⟩, final⟩ := evaluated
  simp only [Model.evalAll, Model.eval, leftValue, rightValue, final]

theorem computes_mem {address : Exp} (inner : R.Computes n address σ a σ') :
    R.Computes n (.mem address) σ (M.load σ'.world a) σ' := by
  intro supply low
  rw [extract_mem]
  obtain ⟨upper, realised⟩ := gives_hoist (e := address) inner supply low
  refine ⟨upper, ?_⟩
  intro τ agree
  obtain ⟨υ, ran, evaluated, same, spared⟩ := realised τ agree
  refine ⟨υ, ran, ?_, same, spared⟩
  simp only [Model.evalAll, Prod.mk.injEq, List.cons.injEq, and_true] at evaluated
  obtain ⟨value, final⟩ := evaluated
  simp only [Model.evalAll, Model.eval, value, final, State.withWorld_world]

/-- The statement of a sequence runs before its expression. -/
theorem computes_eseq {stm : Stm} {e : Exp} (first : R.Performs n stm σ σ₁)
    (second : R.Computes n e σ₁ v σ₂) : R.Computes n (.eseq stm e) σ v σ₂ := by
  intro supply low
  rw [extract_eseq]
  obtain ⟨firstUpper, done⟩ := first supply low
  obtain ⟨upper, realised⟩ := second (stm.extract supply).2 (Nat.le_trans low firstUpper)
  refine ⟨Nat.le_trans firstUpper upper, ?_⟩
  intro τ agree
  obtain ⟨υ, ran, agreed, spared⟩ := done τ agree
  obtain ⟨φ, ranRest, evaluated, same, sparedRest⟩ := realised υ agreed
  refine ⟨φ, runs_andThen ran ranRest, evaluated, same, ?_⟩
  exact (spared.widen (Nat.le_refl _) upper).trans (sparedRest.widen firstUpper (Nat.le_refl _))

theorem givesAll_nil : R.GivesAll n (Exp.extractArgs []) σ [] σ := by
  intro supply low
  refine ⟨Nat.le_refl _, ?_⟩
  intro τ agree
  refine ⟨τ, R.runs_nil.mpr rfl, ?_, agree.2, State.Spared.refl _ _ _ _⟩
  simp only [agree.1, State.withWorld_self]
  rfl

/-- Arguments are computed from left to right. -/
theorem givesAll_cons {arg : Exp} {args : List Exp} (first : R.Computes n arg σ v σ₁)
    (rest : R.GivesAll n (Exp.extractArgs args) σ₁ vs σ₂) :
    R.GivesAll n (Exp.extractArgs (arg :: args)) σ (v :: vs) σ₂ := by
  intro supply low
  rw [extractArgs_cons]
  obtain ⟨upper, realised⟩ := rest supply low
  exact realises_operand arg low upper first realised

theorem eval_plain_call {func : Exp} {args : List Exp} {f : V} {τ υ : State V W}
    (evaluated : M.evalAll (func :: args) τ = (f :: vs, υ)) :
    M.eval (.call func none args) τ =
      ((M.call f none vs υ.world).1, υ.withWorld (M.call f none vs υ.world).2) := by
  simp only [Model.evalAll, Prod.mk.injEq, List.cons.injEq] at evaluated
  obtain ⟨⟨function, arguments⟩, final⟩ := evaluated
  simp only [Model.eval, Model.evalLink, function, arguments, final]

theorem eval_linked_call {func link : Exp} {args : List Exp} {f l : V} {τ υ : State V W}
    (evaluated : M.evalAll (func :: link :: args) τ = (f :: l :: vs, υ)) :
    M.eval (.call func (some link) args) τ =
      ((M.call f (some l) vs υ.world).1, υ.withWorld (M.call f (some l) vs υ.world).2) := by
  simp only [Model.evalAll, Prod.mk.injEq, List.cons.injEq] at evaluated
  obtain ⟨⟨function, linked, arguments⟩, final⟩ := evaluated
  simp only [Model.eval, Model.evalLink, function, linked, arguments, final]

/-- A call without a link: the function, the arguments, the call. -/
theorem computes_plain_call {func : Exp} {args : List Exp} {f : V}
    (function : R.Computes n func σ f σ₁)
    (arguments : R.GivesAll n (Exp.extractArgs args) σ₁ vs σ₂) :
    R.Computes n (.call func none args) σ (M.call f none vs σ₂.world).1
      (σ₂.withWorld (M.call f none vs σ₂.world).2) := by
  intro supply low
  simp only [extract_call, extractLink_none]
  obtain ⟨argsUpper, argsRealised⟩ := arguments supply low
  obtain ⟨upper, realised⟩ := realises_operand func low argsUpper function argsRealised
  refine ⟨upper, ?_⟩
  intro τ agree
  obtain ⟨υ, ran, evaluated, same, spared⟩ := realised τ agree
  refine ⟨υ, ran, ?_, same, spared⟩
  rw [Model.evalAll, eval_plain_call evaluated]
  rfl

/-- A call with a link: the function, the link, the arguments, the call. -/
theorem computes_linked_call {func link : Exp} {args : List Exp} {f l : V}
    (function : R.Computes n func σ f σ₁) (linked : R.Computes n link σ₁ l σ₂)
    (arguments : R.GivesAll n (Exp.extractArgs args) σ₂ vs σ₃) :
    R.Computes n (.call func (some link) args) σ (M.call f (some l) vs σ₃.world).1
      (σ₃.withWorld (M.call f (some l) vs σ₃.world).2) := by
  intro supply low
  simp only [extract_call, extractLink_some]
  obtain ⟨argsUpper, argsRealised⟩ := arguments supply low
  obtain ⟨linkUpper, linkRealised⟩ := realises_operand link low argsUpper linked argsRealised
  obtain ⟨upper, realised⟩ := realises_operand func low linkUpper function linkRealised
  refine ⟨upper, ?_⟩
  intro τ agree
  obtain ⟨υ, ran, evaluated, same, spared⟩ := realised τ agree
  refine ⟨υ, ran, ?_, same, spared⟩
  rw [Model.evalAll, eval_linked_call evaluated]
  rfl

/-- A state after the values of a tree agrees with the tree's own. -/
theorem agree_withWorld {υ : State V W} (same : ∀ t : Temp, t.index < n → σ'.temps t = υ.temps t) :
    σ'.Agree n (υ.withWorld σ'.world) :=
  ⟨rfl, same⟩

theorem does_move_temp {src : Exp} {parts : Fresh (Stm × Exp)} {t : Temp} (below : t.index < n)
    (given : R.Gives n parts σ v σ') :
    R.Does n (Exp.extractMove src parts (.temp t)) σ (σ'.set t v) := by
  intro supply low
  rw [extractMove_temp]
  obtain ⟨upper, realised⟩ := given supply low
  refine ⟨upper, ?_⟩
  intro τ agree
  obtain ⟨υ, ran, evaluated, same, spared⟩ := realised τ agree
  refine ⟨_, runs_andThen ran (runs_move_temp t evaluated), (agree_withWorld same).set t v, ?_⟩
  have set : (υ.withWorld σ'.world).Spared n supply.temps (parts supply).2.temps
      ((υ.withWorld σ'.world).set t v) := State.Spared.set _ v (Or.inl below)
  exact spared.trans set

/-- Running a move of a value to an address in memory. -/
theorem runs_move_mem {address value : Exp} {υ : State V W} {world : W}
    (evaluated : M.evalAll [address, value] υ = ([a, v], υ.withWorld world)) :
    R.runs (Stm.move (.mem address) value).toList υ (υ.withWorld (M.store world a v)) := by
  have ran : R.runs [.move (.mem address) value] υ (M.exec (.move (.mem address) value) υ) :=
    R.runs_plain υ rfl
  simp only [Model.evalAll, Prod.mk.injEq, List.cons.injEq, and_true] at evaluated
  obtain ⟨⟨addressValue, result⟩, final⟩ := evaluated
  simp only [Model.exec, Model.assign, addressValue, result, final, State.withWorld_world,
    State.withWorld_withWorld] at ran
  exact ran

/-- The address is computed before the value. -/
theorem does_move_mem {address src : Exp} {parts : Fresh (Stm × Exp)}
    (first : R.Computes n address σ a σ₁) (second : R.Gives n parts σ₁ v σ₂) :
    R.Does n (Exp.extractMove src parts (.mem address)) σ
      (σ₂.withWorld (M.store σ₂.world a v)) := by
  intro supply low
  rw [extractMove_mem]
  obtain ⟨upper, realised⟩ := realises_pair address src first second low
  refine ⟨upper, ?_⟩
  intro τ agree
  obtain ⟨υ, ran, evaluated, same, spared⟩ := realised τ agree
  exact ⟨_, runs_andThen ran (runs_move_mem evaluated), ⟨rfl, same⟩, spared⟩

/-- One statement after another. -/
theorem does_andThen {first second : Fresh Stm} (done : R.Does n first σ σ₁)
    (next : R.Does n second σ₁ σ₂) :
    R.Does n (do return (← first).andThen (← second)) σ σ₂ := by
  intro supply low
  obtain ⟨firstUpper, firstRan⟩ := done supply low
  obtain ⟨upper, secondRan⟩ := next (first supply).2 (Nat.le_trans low firstUpper)
  refine ⟨Nat.le_trans firstUpper upper, ?_⟩
  intro τ agree
  obtain ⟨υ, ran, agreed, spared⟩ := firstRan τ agree
  obtain ⟨φ, ranNext, agreedNext, sparedNext⟩ := secondRan υ agreed
  refine ⟨φ, runs_andThen ran ranNext, agreedNext, ?_⟩
  exact (spared.widen (Nat.le_refl _) upper).trans (sparedNext.widen firstUpper (Nat.le_refl _))

/-- The statement in a place runs before the value is computed. -/
theorem does_move_eseq {stm : Stm} {dst src : Exp} {parts : Fresh (Stm × Exp)}
    (first : R.Performs n stm σ σ₁) (second : R.Does n (Exp.extractMove src parts dst) σ₁ σ₂) :
    R.Does n (Exp.extractMove src parts (.eseq stm dst)) σ σ₂ :=
  does_andThen first second

theorem performs_seq {first second : Stm} (done : R.Performs n first σ σ₁)
    (next : R.Performs n second σ₁ σ₂) : R.Performs n (.seq first second) σ σ₂ :=
  does_andThen done next

/-- Running an expression for its effects, also where nothing of it is left. -/
theorem runs_exp {value : Exp} {υ : State V W} {world : W}
    (evaluated : M.evalAll [value] υ = ([v], υ.withWorld world)) :
    R.runs (Stm.exp value).toList υ (υ.withWorld world) := by
  have result : (M.eval value υ).2 = υ.withWorld world := by
    simp only [Model.evalAll, Prod.mk.injEq] at evaluated
    exact evaluated.2
  by_cases nothing : (Stm.exp value).isNop = true
  · rw [toList_of_isNop nothing, R.runs_nil, ← result]
    cases value <;> first | rfl | contradiction
  · have ran : R.runs [.exp value] υ (M.exec (.exp value) υ) := R.runs_plain υ rfl
    rw [Model.exec, result] at ran
    rwa [toList_single (Bool.eq_false_iff.mpr nothing) (by simp)]

theorem performs_exp {e : Exp} (inner : R.Computes n e σ v σ') : R.Performs n (.exp e) σ σ' := by
  intro supply low
  rw [extract_exp]
  obtain ⟨upper, realised⟩ := inner supply low
  refine ⟨upper, ?_⟩
  intro τ agree
  obtain ⟨υ, ran, evaluated, same, spared⟩ := realised τ agree
  exact ⟨_, runs_andThen ran (runs_exp evaluated), agree_withWorld same, spared⟩

end TreeCode.Tree.Running
