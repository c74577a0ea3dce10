import TreeCode.Proofs.Lowering.Steps

/-!
Lowering stays within its steps. Whether it succeeds or fails, lowering an expression takes only
the steps of `Step` and leaves the names in scope and the exits of loops as it found them; only
declarations bring names into the innermost scope.
-/

namespace TreeCode.Lowering

variable {α β : Type} {conv : Convention}

/-- An expression lowered for its value, and what is done with the value. -/
theorem extending_value {act : Lower Lowered} {next : Tree.Exp → Lower β}
    (first : Extending conv act) (rest : ∀ value, Extending conv (next value)) :
    Extending conv (do next (← (← act).asValue)) :=
  extending_bind first fun lowered =>
    extending_bind (extending_fresh (grows_asValue lowered)) rest

/-- An expression lowered for its effect, and what is done after it. -/
theorem extending_effect {act : Lower Lowered} {next : Tree.Stm → Lower β}
    (first : Extending conv act) (rest : ∀ stm, Extending conv (next stm)) :
    Extending conv (do next (← (← act).asEffect)) :=
  extending_bind first fun lowered =>
    extending_bind (extending_fresh (grows_asEffect lowered)) rest

/-- Joining the branches of a conditional only draws from the supply. -/
theorem extending_joinBranches (test yes no : Lowered) (yesLabel noLabel join : Label) :
    Extending conv (joinBranches test yes no yesLabel noLabel join) := by
  have joined : ∀ yes no : Lowered, Extending conv (do
      let r ← freshTemp
      let yes ← yes.asValue
      let no ← no.asValue
      let branch ← test.asBranch yesLabel noLabel
      return Lowered.value (.eseq
        (alternative branch (.move (.temp r) yes) (.move (.temp r) no) yesLabel noLabel join)
        (.temp r))) := fun yes no =>
    extending_bind (extending_fresh grows_freshTemp) fun _ =>
    extending_bind (extending_fresh (grows_asValue yes)) fun _ =>
    extending_bind (extending_fresh (grows_asValue no)) fun _ =>
    extending_bind (extending_except _) fun _ => extending_pure _
  unfold joinBranches
  split
  next => exact extending_bind (extending_except _) fun _ => extending_pure _
  next => exact joined _ _

mutual
theorem lowerVar_extends (level : Level) :
    ∀ var : Source.Var, Extending conv (lowerVar conv level var)
  | .simple name pos => by
    unfold lowerVar
    apply extending_bind (extending_meaning name)
    intro meaning
    split
    next => exact extending_variableAt _ _ _
    next => exact extending_throw _
  | .field _ _ none _ => by
    unfold lowerVar
    exact extending_throw _
  | .field record _ (some _) _ => by
    unfold lowerVar
    exact extending_bind (lowerVar_extends level record) fun _ => extending_pure _
  | .subscript array index => by
    unfold lowerVar
    exact extending_bind (lowerVar_extends level array) fun _ =>
      extending_value (lowerExp_extends level index) fun _ => extending_pure _
/-- Lowering an expression takes steps of lowering only, and leaves scopes and loops as they were,
whether it succeeds or fails. -/
theorem lowerExp_extends (level : Level) :
    ∀ exp : Source.Exp, Extending conv (lowerExp conv level exp)
  | .nil => by
    unfold lowerExp
    exact extending_pure _
  | .int _ => by
    unfold lowerExp
    exact extending_pure _
  | .string text => by
    unfold lowerExp
    exact extending_bind (extending_fresh grows_freshLabel) fun label =>
      extending_bind (extending_addFragment label text) fun _ => extending_pure _
  | .var var => by
    unfold lowerExp
    exact extending_bind (lowerVar_extends level var) fun _ => extending_pure _
  | .call func args pos => by
    unfold lowerExp
    exact extending_bind (extending_resolveCallee level func pos) fun _ =>
      extending_bind (lowerArgs_extends level args) fun _ => extending_pure _
  | .op _ left right _ => by
    unfold lowerExp
    exact extending_value (lowerExp_extends level left) fun _ =>
      extending_value (lowerExp_extends level right) fun _ => extending_pure _
  | .record _ fields => by
    unfold lowerExp
    exact extending_bind (extending_fresh grows_freshTemp) fun r =>
      extending_bind (lowerFields_extends level r 0 fields) fun _ => extending_pure _
  | .seq exps => by
    unfold lowerExp
    exact extending_bind (lowerSeq_extends level exps) fun (stms, last) =>
      extending_fresh (grows_after stms last)
  | .assign var value => by
    unfold lowerExp
    exact extending_bind (lowerVar_extends level var) fun _ =>
      extending_value (lowerExp_extends level value) fun _ => extending_pure _
  | .ifThen test yes => by
    unfold lowerExp
    exact extending_bind (lowerExp_extends level test) fun _ =>
      extending_bind (lowerExp_extends level yes) fun yes =>
      extending_bind (extending_fresh grows_freshLabel) fun _ =>
      extending_bind (extending_fresh grows_freshLabel) fun _ =>
      extending_bind (extending_fresh (grows_asEffect yes)) fun _ =>
      extending_bind (extending_except _) fun _ => extending_pure _
  | .ifElse test yes no => by
    unfold lowerExp
    exact extending_bind (lowerExp_extends level test) fun _ =>
      extending_bind (lowerExp_extends level yes) fun _ =>
      extending_bind (extending_fresh grows_freshLabel) fun _ =>
      extending_bind (extending_fresh grows_freshLabel) fun _ =>
      extending_bind (lowerExp_extends level no) fun _ =>
      extending_bind (extending_fresh grows_freshLabel) fun _ =>
      extending_joinBranches _ _ _ _ _ _
  | .whileDo test body => by
    unfold lowerExp
    exact extending_bind (extending_fresh grows_freshLabel) fun _ =>
      extending_bind (extending_fresh grows_freshLabel) fun _ =>
      extending_bind (extending_fresh grows_freshLabel) fun done =>
      extending_bind (lowerExp_extends level test) fun _ =>
      extending_effect (extending_inLoop done (lowerExp_extends level body)) fun _ =>
      extending_bind (extending_except _) fun _ => extending_pure _
  | .forTo var lo hi body => by
    unfold lowerExp
    exact extending_value (lowerExp_extends level lo) fun _ =>
      extending_value (lowerExp_extends level hi) fun _ =>
      extending_bind (extending_allocateVariable level var.escapes) fun access =>
      extending_bind (extending_fresh grows_freshTemp) fun _ =>
      extending_bind (extending_fresh grows_freshLabel) fun _ =>
      extending_bind (extending_fresh grows_freshLabel) fun _ =>
      extending_bind (extending_fresh grows_freshLabel) fun done =>
      extending_effect (extending_inScope
        (extendingInner_bind (extendingInner_bindName var.name (.variable level access)) fun _ =>
          (extending_inLoop done (lowerExp_extends level body)).inner)) fun _ =>
      extending_pure _
  | .breakLoop _ => by
    unfold lowerExp
    apply extending_bind extending_loopExit
    intro exit
    cases exit with
    | none => exact extending_throw _
    | some exit => exact extending_pure _
  | .letIn decs body => by
    unfold lowerExp
    exact extending_inScope
      (extendingInner_bind (lowerDecs_extends level decs) fun stms =>
        (extending_bind (lowerExp_extends level body) fun lowered =>
          extending_fresh (grows_after stms lowered)).inner)
  | .array _ size init => by
    unfold lowerExp
    exact extending_value (lowerExp_extends level size) fun _ =>
      extending_value (lowerExp_extends level init) fun _ => extending_pure _
theorem lowerArgs_extends (level : Level) :
    ∀ args : List Source.Exp, Extending conv (lowerArgs conv level args)
  | [] => by
    unfold lowerArgs
    exact extending_pure _
  | arg :: args => by
    unfold lowerArgs
    exact extending_value (lowerExp_extends level arg) fun _ =>
      extending_bind (lowerArgs_extends level args) fun _ => extending_pure _
theorem lowerFields_extends (level : Level) (r : Temp) :
    ∀ (slot : Nat) (fields : List Source.Field),
      Extending conv (lowerFields conv level r slot fields)
  | _, [] => by
    unfold lowerFields
    exact extending_pure _
  | slot, ⟨_, value⟩ :: fields => by
    unfold lowerFields
    exact extending_value (lowerExp_extends level value) fun _ =>
      extending_bind (lowerFields_extends level r (slot + 1) fields) fun _ => extending_pure _
theorem lowerSeq_extends (level : Level) :
    ∀ exps : List Source.Exp, Extending conv (lowerSeq conv level exps)
  | [] => by
    unfold lowerSeq
    exact extending_pure _
  | [last] => by
    unfold lowerSeq
    exact extending_bind (lowerExp_extends level last) fun _ => extending_pure _
  | exp :: next :: exps => by
    unfold lowerSeq
    exact extending_effect (lowerExp_extends level exp) fun _ =>
      extending_bind (lowerSeq_extends level (next :: exps)) fun _ => extending_pure _
/-- Declarations bring names into the innermost scope. -/
theorem lowerDecs_extends (level : Level) :
    ∀ decs : List Source.Dec, ExtendingInner conv (lowerDecs conv level decs)
  | [] => by
    unfold lowerDecs
    exact (extending_pure _).inner
  | .var var init :: decs => by
    unfold lowerDecs
    exact extendingInner_bind (lowerExp_extends level init).inner fun lowered =>
      extendingInner_bind (extending_fresh (grows_asValue lowered)).inner fun _ =>
      extendingInner_bind (extending_allocateVariable level var.escapes).inner fun access =>
      extendingInner_bind (extendingInner_bindName var.name (.variable level access)) fun _ =>
      extendingInner_bind (lowerDecs_extends level decs) fun _ => (extending_pure _).inner
  | .type _ _ :: decs => by
    unfold lowerDecs
    exact lowerDecs_extends level decs
  | .functions group :: decs => by
    unfold lowerDecs
    exact extendingInner_bind (extendingInner_declareFunctions level group) fun levels =>
      extendingInner_bind (lowerBodies_extends levels group).inner fun _ =>
      lowerDecs_extends level decs
/-- The bodies of functions bring no names into scope. -/
theorem lowerBodies_extends :
    ∀ (levels : List Level) (group : List Source.FunDec),
      Extending conv (lowerBodies conv levels group)
  | _, [] => by
    unfold lowerBodies
    exact extending_pure _
  | [], ⟨_, _, _, _⟩ :: _ => by
    unfold lowerBodies
    exact extending_pure _
  | level :: levels, ⟨_, params, result, body⟩ :: group => by
    unfold lowerBodies
    exact extending_bind (extending_formalsOf level) fun formals =>
      extending_bind (extending_inScope
        (extendingInner_bind (extendingInner_bindParams level params formals.tail) fun _ =>
          (extending_outsideLoops (lowerExp_extends level body)).inner)) fun lowered =>
      extending_bind (extending_fresh (grows_bodyStm conv result lowered)) fun stm =>
      extending_bind (extending_finishProc level stm) fun _ =>
      lowerBodies_extends levels group
end

theorem lowerProgram_extends (conv : Convention) (program : Source.Exp) :
    Extending conv (lowerProgram conv program) :=
  extending_effect (lowerExp_extends 0 program) fun _ => extending_finishProc 0 _

end TreeCode.Lowering
