import TreeCode.Proofs.Lowering.Renaming

/-!
Lowering a program from another supply comes to the same code under other names, and it fails
where it failed before and for the same reason.
-/

namespace TreeCode

variable {α β : Type} {ρ : Renaming} {last : Supply} {conv : Convention}

section Conversions

/-- The value of a renamed form is the renamed value. -/
theorem mirrors_asValue (lowered : Lowered) :
    FreshMirrors ρ last (Tree.Exp.rename ρ) lowered.asValue (lowered.rename ρ).asValue := by
  cases lowered with
  | value exp => exact freshMirrors_pure rfl
  | effect stm => exact freshMirrors_pure rfl
  | test op left right =>
    exact freshMirrors_bind freshMirrors_freshTemp fun _ =>
      freshMirrors_bind freshMirrors_freshLabel fun _ =>
      freshMirrors_bind freshMirrors_freshLabel fun _ => freshMirrors_pure (by simp)

/-- The effect of a renamed form is the renamed effect. -/
theorem mirrors_asEffect (lowered : Lowered) :
    FreshMirrors ρ last (Tree.Stm.rename ρ) lowered.asEffect (lowered.rename ρ).asEffect := by
  cases lowered with
  | value exp => exact freshMirrors_pure rfl
  | effect stm => exact freshMirrors_pure rfl
  | test op left right =>
    exact freshMirrors_bind freshMirrors_freshLabel fun _ => freshMirrors_pure (by simp)

/-- The branch of a renamed form is the renamed branch. -/
theorem asBranch_rename (lowered : Lowered) (yes no : Label) :
    (lowered.rename ρ).asBranch (ρ.label yes) (ρ.label no) =
      renameOutcome ρ (Tree.Stm.rename ρ) (lowered.asBranch yes no) := by
  cases lowered with
  | effect stm => rfl
  | test op left right => rfl
  | value exp =>
    cases exp with
    | const value =>
      by_cases zero : value = 0
      · subst zero
        rfl
      · simp only [Lowered.rename, Tree.Exp.rename, Lowered.asBranch]
        rfl
    | name | temp | binop | mem | call | eseq => rfl

theorem mirrors_after (stms : List Tree.Stm) (lowered : Lowered) :
    FreshMirrors ρ last (Lowered.rename ρ) (lowered.after stms)
      ((lowered.rename ρ).after (stms.map (Tree.Stm.rename ρ))) := by
  cases stms with
  | nil => exact freshMirrors_pure rfl
  | cons stm stms =>
    cases lowered with
    | effect last => exact freshMirrors_pure (by simp [Lowered.rename])
    | value exp =>
      exact freshMirrors_bind (mirrors_asValue (.value exp)) fun _ =>
        freshMirrors_pure (by simp [Lowered.rename])
    | test op left right =>
      exact freshMirrors_bind (mirrors_asValue (.test op left right)) fun _ =>
        freshMirrors_pure (by simp [Lowered.rename])

end Conversions

namespace Lowering

/-- A callee under other names. -/
def Callee.rename (ρ : Renaming) : Callee → Callee
  | nested label link => nested (ρ.label label) (link.rename ρ)
  | runtime name => runtime (ρ.label name)

section Pieces

theorem rename_call (callee : Callee) (args : List Tree.Exp) :
    (callee.call args).rename ρ = (callee.rename ρ).call (args.map (Tree.Exp.rename ρ)) := by
  cases callee <;> simp [Callee.rename, Callee.call]

/-- The labels of the runtime system are not renamed. -/
theorem keeps_runtime (keeps : ρ.Keeps conv) {name : Label} (runtime : name ∈ runtimeNames) :
    ρ.label name = name :=
  keeps.plain name (runtimeNames_undotted name runtime)

/-- An operation on renamed operands is the renamed operation. -/
theorem rename_operation (keeps : ρ.Keeps conv) (oper : Source.Oper) (strings : Bool)
    (left right : Tree.Exp) :
    (operation oper strings left right).rename ρ =
      operation oper strings (left.rename ρ) (right.rename ρ) := by
  have compare : ρ.label "stringCompare" = "stringCompare" := keeps_runtime keeps (by decide)
  unfold operation
  cases lowerOper oper with
  | inl op => rfl
  | inr op => cases strings <;> simp [Lowered.rename, compare]

theorem mirrors_value {out : α → β} {act act' : Lower Lowered} {next : Tree.Exp → Lower α}
    {next' : Tree.Exp → Lower β} (first : Mirrors ρ last (Lowered.rename ρ) act act')
    (rest : ∀ value, Mirrors ρ last out (next value) (next' (value.rename ρ))) :
    Mirrors ρ last out (do next (← (← act).asValue)) (do next' (← (← act').asValue)) :=
  mirrors_bind first fun lowered => mirrors_bind (mirrors_fresh (mirrors_asValue lowered)) rest

theorem mirrors_effect {out : α → β} {act act' : Lower Lowered} {next : Tree.Stm → Lower α}
    {next' : Tree.Stm → Lower β} (first : Mirrors ρ last (Lowered.rename ρ) act act')
    (rest : ∀ stm, Mirrors ρ last out (next stm) (next' (stm.rename ρ))) :
    Mirrors ρ last out (do next (← (← act).asEffect)) (do next' (← (← act').asEffect)) :=
  mirrors_bind first fun lowered => mirrors_bind (mirrors_fresh (mirrors_asEffect lowered)) rest

/-- A fresh code label, and what is done with it. -/
theorem mirrors_label {out : α → β} {next : Label → Lower α} {next' : Label → Lower β}
    (rest : ∀ label, Mirrors ρ last out (next label) (next' (ρ.label label))) :
    Mirrors ρ last out (do next (← freshLabel) : Lower α) (do next' (← freshLabel)) :=
  mirrors_bind (mirrors_fresh freshMirrors_freshLabel) rest

/-- A conditional of renamed parts is the renamed conditional. -/
theorem mirrors_joinBranches (test yes no : Lowered) (yesLabel noLabel join : Label) :
    Mirrors ρ last (Lowered.rename ρ) (joinBranches test yes no yesLabel noLabel join)
      (joinBranches (test.rename ρ) (yes.rename ρ) (no.rename ρ) (ρ.label yesLabel)
        (ρ.label noLabel) (ρ.label join)) := by
  have joined : ∀ yes no : Lowered, Mirrors ρ last (Lowered.rename ρ)
      (do
        let r ← freshTemp
        let yes ← yes.asValue
        let no ← no.asValue
        let branch ← test.asBranch yesLabel noLabel
        return Lowered.value (.eseq
          (alternative branch (.move (.temp r) yes) (.move (.temp r) no) yesLabel noLabel join)
          (.temp r)) : Lower Lowered)
      (do
        let r ← freshTemp
        let yes ← (yes.rename ρ).asValue
        let no ← (no.rename ρ).asValue
        let branch ← (test.rename ρ).asBranch (ρ.label yesLabel) (ρ.label noLabel)
        return Lowered.value (.eseq
          (alternative branch (.move (.temp r) yes) (.move (.temp r) no) (ρ.label yesLabel)
            (ρ.label noLabel) (ρ.label join))
          (.temp r))) := fun yes no =>
    mirrors_bind (mirrors_fresh freshMirrors_freshTemp) fun _ =>
    mirrors_bind (mirrors_fresh (mirrors_asValue yes)) fun _ =>
    mirrors_bind (mirrors_fresh (mirrors_asValue no)) fun _ =>
    mirrors_bind (mirrors_except (asBranch_rename test yesLabel noLabel)) fun _ =>
    mirrors_pure (by simp [Lowered.rename, alternative])
  cases yes with
  | value yes => exact joined _ _
  | test op left right => exact joined _ _
  | effect yes =>
    cases no with
    | value no => exact joined _ _
    | test op left right => exact joined _ _
    | effect no =>
      exact mirrors_bind (mirrors_except (asBranch_rename test yesLabel noLabel)) fun _ =>
        mirrors_pure (by simp [Lowered.rename, alternative])

theorem mirrors_bodyStm (keeps : ρ.Keeps conv) (result : Option String) (body : Lowered) :
    FreshMirrors ρ last (Tree.Stm.rename ρ) (bodyStm conv result body)
      (bodyStm conv result (body.rename ρ)) := by
  cases result with
  | none => exact mirrors_asEffect body
  | some =>
    exact freshMirrors_bind (mirrors_asValue body) fun _ =>
      freshMirrors_pure (by simp [keeps.returnValue])

/-- The callee is the renamed one, found under the same name. -/
theorem mirrors_resolveCallee (keeps : ρ.Keeps conv) (level : Level) (func : String)
    (pos : Source.Pos) :
    Mirrors ρ last (Callee.rename ρ) (resolveCallee conv level func pos)
      (resolveCallee conv level func pos) := by
  refine mirrors_bind (mirrors_meaning func) fun meaning => ?_
  cases meaning with
  | none =>
    by_cases known : runtimeLibrary.contains func = true
    · have library : func ∈ runtimeLibrary := List.contains_iff_mem.mp known
      simp only [Option.map_none, known, if_true]
      refine mirrors_pure ?_
      rw [Callee.rename, keeps_runtime keeps (List.mem_append_left _ library)]
    · simp only [Option.map_none, known]
      exact mirrors_throw rfl
  | some meaning =>
    cases meaning with
    | «variable» => exact mirrors_throw rfl
    | function target label =>
      refine mirrors_bind (mirrors_parentOf target) fun home => ?_
      cases home with
      | none => exact mirrors_throw rfl
      | some home =>
        exact mirrors_bind (mirrors_framePointerOf keeps level home) fun _ => mirrors_pure rfl

theorem mirrors_bindParams (level : Level) (params : List Source.Binder) (formals : List Access) :
    Mirrors ρ last id (bindParams level params formals)
      (bindParams level params (formals.map (Access.rename ρ))) := by
  induction params generalizing formals with
  | nil => exact mirrors_pure rfl
  | cons param params ih =>
    cases formals with
    | nil => exact mirrors_pure rfl
    | cons access formals =>
      exact mirrors_bind (mirrors_bindName param.name (.variable level access)) fun _ =>
        ih formals

/-- Functions are declared with renamed labels and frames. -/
theorem mirrors_declareFunctions (keeps : ρ.Keeps conv) (level : Level)
    (group : List Source.FunDec) :
    Mirrors ρ last id (declareFunctions conv level group) (declareFunctions conv level group) := by
  induction group with
  | nil => exact mirrors_pure rfl
  | cons function group ih =>
    obtain ⟨name, params, result, body⟩ := function
    exact mirrors_bind (mirrors_fresh (freshMirrors_freshLabelFor name)) fun label =>
      mirrors_bind (mirrors_openLevel keeps level label _) fun own =>
      mirrors_bind (mirrors_bindName name (.function own label)) fun _ =>
      mirrors_bind ih fun _ => mirrors_pure rfl

end Pieces

mutual
theorem mirrors_lowerVar (keeps : ρ.Keeps conv) (level : Level) : ∀ var : Source.Var,
    Mirrors ρ last (Tree.Exp.rename ρ) (lowerVar conv level var) (lowerVar conv level var)
  | .simple name pos => by
    unfold lowerVar
    refine mirrors_bind (mirrors_meaning name) fun meaning => ?_
    cases meaning with
    | none => exact mirrors_throw rfl
    | some meaning =>
      cases meaning with
      | «variable» declared access => exact mirrors_variableAt keeps access declared level
      | function => exact mirrors_throw rfl
  | .field _ _ none _ => by
    unfold lowerVar
    exact mirrors_throw rfl
  | .field record _ (some _) _ => by
    unfold lowerVar
    exact mirrors_bind (mirrors_lowerVar keeps level record) fun _ => mirrors_pure rfl
  | .subscript array index => by
    unfold lowerVar
    exact mirrors_bind (mirrors_lowerVar keeps level array) fun _ =>
      mirrors_value (mirrors_lowerExp keeps level index) fun _ => mirrors_pure rfl
/-- Lowering commutes with renaming: from a renamed state an expression is lowered to the renamed
form, in the renamed state, and it fails in the one exactly if it fails in the other. The induction
is on the expression; each draw gives the renamed temporary or label by the choice of the supply. -/
theorem mirrors_lowerExp (keeps : ρ.Keeps conv) (level : Level) : ∀ exp : Source.Exp,
    Mirrors ρ last (Lowered.rename ρ) (lowerExp conv level exp) (lowerExp conv level exp)
  | .nil => by
    unfold lowerExp
    exact mirrors_pure rfl
  | .int _ => by
    unfold lowerExp
    exact mirrors_pure rfl
  | .string text => by
    unfold lowerExp
    exact mirrors_label fun label =>
      mirrors_bind (mirrors_addFragment (.string label text)) fun _ => mirrors_pure rfl
  | .var var => by
    unfold lowerExp
    exact mirrors_bind (mirrors_lowerVar keeps level var) fun _ => mirrors_pure rfl
  | .call func args pos => by
    unfold lowerExp
    exact mirrors_bind (mirrors_resolveCallee keeps level func pos) fun callee =>
      mirrors_bind (mirrors_lowerArgs keeps level args) fun args =>
      mirrors_pure (congrArg Lowered.value (rename_call callee args).symm)
  | .op oper left right strings => by
    unfold lowerExp
    exact mirrors_value (mirrors_lowerExp keeps level left) fun _ =>
      mirrors_value (mirrors_lowerExp keeps level right) fun _ =>
      mirrors_pure (rename_operation keeps oper strings _ _).symm
  | .record _ fields => by
    have alloc : ρ.label "allocRecord" = "allocRecord" := keeps_runtime keeps (by decide)
    unfold lowerExp
    exact mirrors_bind (mirrors_fresh freshMirrors_freshTemp) fun r =>
      mirrors_bind (mirrors_lowerFields keeps level r 0 fields) fun _ =>
      mirrors_pure (by simp [Lowered.rename, alloc])
  | .seq exps => by
    unfold lowerExp
    exact mirrors_bind (mirrors_lowerSeq keeps level exps) fun (stms, last) =>
      mirrors_fresh (mirrors_after stms last)
  | .assign var value => by
    unfold lowerExp
    exact mirrors_bind (mirrors_lowerVar keeps level var) fun _ =>
      mirrors_value (mirrors_lowerExp keeps level value) fun _ => mirrors_pure rfl
  | .ifThen test yes => by
    unfold lowerExp
    exact mirrors_bind (mirrors_lowerExp keeps level test) fun test =>
      mirrors_bind (mirrors_lowerExp keeps level yes) fun yes =>
      mirrors_label fun yesLabel => mirrors_label fun noLabel =>
      mirrors_bind (mirrors_fresh (mirrors_asEffect yes)) fun _ =>
      mirrors_bind (mirrors_except (asBranch_rename test yesLabel noLabel)) fun _ =>
      mirrors_pure (by simp [Lowered.rename, conditional])
  | .ifElse test yes no => by
    unfold lowerExp
    exact mirrors_bind (mirrors_lowerExp keeps level test) fun test =>
      mirrors_bind (mirrors_lowerExp keeps level yes) fun yes =>
      mirrors_label fun yesLabel => mirrors_label fun noLabel =>
      mirrors_bind (mirrors_lowerExp keeps level no) fun no =>
      mirrors_label fun join => mirrors_joinBranches test yes no yesLabel noLabel join
  | .whileDo test body => by
    unfold lowerExp
    exact mirrors_label fun testLabel => mirrors_label fun bodyLabel =>
      mirrors_label fun done =>
      mirrors_bind (mirrors_lowerExp keeps level test) fun test =>
      mirrors_effect (mirrors_inLoop done (mirrors_lowerExp keeps level body)) fun _ =>
      mirrors_bind (mirrors_except (asBranch_rename test bodyLabel done)) fun _ =>
      mirrors_pure (by simp [Lowered.rename, whileLoop])
  | .forTo var lo hi body => by
    unfold lowerExp
    exact mirrors_value (mirrors_lowerExp keeps level lo) fun _ =>
      mirrors_value (mirrors_lowerExp keeps level hi) fun _ =>
      mirrors_bind (mirrors_allocateVariable level var.escapes) fun access =>
      mirrors_bind (mirrors_fresh freshMirrors_freshTemp) fun _ =>
      mirrors_label fun _ => mirrors_label fun _ => mirrors_label fun done =>
      mirrors_effect (mirrors_inScope
        (mirrors_bind (mirrors_bindName var.name (.variable level access)) fun _ =>
          mirrors_inLoop done (mirrors_lowerExp keeps level body))) fun _ =>
      mirrors_pure (by simp [Lowered.rename, countingLoop, keeps.framePointer])
  | .breakLoop _ => by
    unfold lowerExp
    refine mirrors_bind mirrors_loopExit fun exit => ?_
    cases exit with
    | none => exact mirrors_throw rfl
    | some exit => exact mirrors_pure rfl
  | .letIn decs body => by
    unfold lowerExp
    exact mirrors_inScope
      (mirrors_bind (mirrors_lowerDecs keeps level decs) fun stms =>
        mirrors_bind (mirrors_lowerExp keeps level body) fun lowered =>
        mirrors_fresh (mirrors_after stms lowered))
  | .array _ size init => by
    have alloc : ρ.label "initArray" = "initArray" := keeps_runtime keeps (by decide)
    unfold lowerExp
    exact mirrors_value (mirrors_lowerExp keeps level size) fun _ =>
      mirrors_value (mirrors_lowerExp keeps level init) fun _ =>
      mirrors_pure (by simp [Lowered.rename, alloc])
theorem mirrors_lowerArgs (keeps : ρ.Keeps conv) (level : Level) : ∀ args : List Source.Exp,
    Mirrors ρ last (List.map (Tree.Exp.rename ρ)) (lowerArgs conv level args)
      (lowerArgs conv level args)
  | [] => by
    unfold lowerArgs
    exact mirrors_pure rfl
  | arg :: args => by
    unfold lowerArgs
    exact mirrors_value (mirrors_lowerExp keeps level arg) fun _ =>
      mirrors_bind (mirrors_lowerArgs keeps level args) fun _ => mirrors_pure rfl
theorem mirrors_lowerFields (keeps : ρ.Keeps conv) (level : Level) (r : Temp) :
    ∀ (slot : Nat) (fields : List Source.Field),
      Mirrors ρ last (List.map (Tree.Stm.rename ρ)) (lowerFields conv level r slot fields)
        (lowerFields conv level (ρ.temp r) slot fields)
  | _, [] => by
    unfold lowerFields
    exact mirrors_pure rfl
  | slot, ⟨_, value⟩ :: fields => by
    unfold lowerFields
    exact mirrors_value (mirrors_lowerExp keeps level value) fun _ =>
      mirrors_bind (mirrors_lowerFields keeps level r (slot + 1) fields) fun _ => mirrors_pure rfl
theorem mirrors_lowerSeq (keeps : ρ.Keeps conv) (level : Level) : ∀ exps : List Source.Exp,
    Mirrors ρ last (Prod.map (List.map (Tree.Stm.rename ρ)) (Lowered.rename ρ))
      (lowerSeq conv level exps) (lowerSeq conv level exps)
  | [] => by
    unfold lowerSeq
    exact mirrors_pure rfl
  | [last] => by
    unfold lowerSeq
    exact mirrors_bind (mirrors_lowerExp keeps level last) fun _ => mirrors_pure rfl
  | exp :: next :: exps => by
    unfold lowerSeq
    exact mirrors_effect (mirrors_lowerExp keeps level exp) fun _ =>
      mirrors_bind (mirrors_lowerSeq keeps level (next :: exps)) fun _ => mirrors_pure rfl
theorem mirrors_lowerDecs (keeps : ρ.Keeps conv) (level : Level) : ∀ decs : List Source.Dec,
    Mirrors ρ last (List.map (Tree.Stm.rename ρ)) (lowerDecs conv level decs)
      (lowerDecs conv level decs)
  | [] => by
    unfold lowerDecs
    exact mirrors_pure rfl
  | .var var init :: decs => by
    unfold lowerDecs
    exact mirrors_value (mirrors_lowerExp keeps level init) fun _ =>
      mirrors_bind (mirrors_allocateVariable level var.escapes) fun access =>
      mirrors_bind (mirrors_bindName var.name (.variable level access)) fun _ =>
      mirrors_bind (mirrors_lowerDecs keeps level decs) fun _ =>
      mirrors_pure (by simp [keeps.framePointer])
  | .type _ _ :: decs => by
    unfold lowerDecs
    exact mirrors_lowerDecs keeps level decs
  | .functions group :: decs => by
    unfold lowerDecs
    exact mirrors_bind (mirrors_declareFunctions keeps level group) fun levels =>
      mirrors_bind (mirrors_lowerBodies keeps levels group) fun _ =>
       mirrors_lowerDecs keeps level decs
/-- The bodies of functions become renamed fragments. -/
theorem mirrors_lowerBodies (keeps : ρ.Keeps conv) :
    ∀ (levels : List Level) (group : List Source.FunDec),
      Mirrors ρ last id (lowerBodies conv levels group) (lowerBodies conv levels group)
  | _, [] => by
    unfold lowerBodies
    exact mirrors_pure rfl
  | [], ⟨_, _, _, _⟩ :: _ => by
    unfold lowerBodies
    exact mirrors_pure rfl
  | level :: levels, ⟨_, params, result, body⟩ :: group => by
    unfold lowerBodies
    refine mirrors_bind (mirrors_formalsOf level) fun formals => ?_
    rw [← List.map_tail]
    exact mirrors_bind (mirrors_inScope
        (mirrors_bind (mirrors_bindParams level params formals.tail) fun _ =>
          mirrors_outsideLoops (mirrors_lowerExp keeps level body))) fun lowered =>
      mirrors_bind (mirrors_fresh (mirrors_bodyStm keeps result lowered)) fun stm =>
      mirrors_bind (mirrors_finishProc keeps level stm) fun _ =>
      mirrors_lowerBodies keeps levels group
end

/-- Lowering a program from another supply mirrors lowering it. -/
theorem mirrors_lowerProgram (keeps : ρ.Keeps conv) (program : Source.Exp) :
    Mirrors ρ last id (lowerProgram conv program) (lowerProgram conv program) :=
  mirrors_effect (mirrors_lowerExp keeps 0 program) fun body => mirrors_finishProc keeps 0 body

end Lowering

end TreeCode
