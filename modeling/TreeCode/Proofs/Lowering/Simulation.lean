import TreeCode.Proofs.Lowering.Storage

/-!
The code of a program in the core language does what direct evaluation of the program does. The
proof goes by induction on the fuel of the evaluation: for each form of the language, code for the
parts that follows their evaluation is put together to code that follows the evaluation of the
whole.
-/

namespace TreeCode

open Tree Source Lowering

namespace Activation

variable {act : Activation} {vars : List (String × Access)} {s s' : Lowering}
  {store store' : Store} {out : Lowered} {v : Word} {fuel hi hi' : Nat}
  {P Q R : State Value World → Prop}

/-- The code computes values, in order. -/
abbrev ComputesAll (act : Activation) (es : List Tree.Exp) (σ : State Value World)
    (vs : List Value) (σ' : State Value World) : Prop :=
  (Running.onMachine (Model.words act.oracle)).GivesAll act.temps (Exp.extractArgs es) σ vs σ'

/-- The lowered expression does what an evaluation does that gives `v`, and uses temporaries issued
before `s` only. -/
abbrev Evaluates (act : Activation) (s : Lowering) (vars : List (String × Access)) (out : Lowered)
    (store : Store) (v : Word) (store' : Store) : Prop :=
  Leads s.supply.temps (act.Represents vars store) (out.Gives act.oracle act.temps v)
    (act.Represents vars store')

/-- The same for several values. -/
abbrev EvaluatesAll (act : Activation) (s : Lowering) (vars : List (String × Access))
    (values : List Tree.Exp) (store : Store) (vs : List Word) (store' : Store) : Prop :=
  Leads s.supply.temps (act.Represents vars store)
    (fun σ σ' => act.ComputesAll values σ (vs.map .word) σ') (act.Represents vars store')

/-- The same for statements, which may bring variables into scope. -/
abbrev Executes (act : Activation) (s : Lowering) (stms : List Stm)
    (vars : List (String × Access)) (store : Store) (vars' : List (String × Access))
    (store' : Store) : Prop :=
  Leads s.supply.temps (act.Represents vars store)
    (RunsAll (Model.words act.oracle) act.temps stms) (act.Represents vars' store')

/-- Wherever an evaluation with this fuel comes to an end, the code that was lowered from the same
part of a program leads to the same store, and to the same values if there are any. -/
structure Faithful (act : Activation) (fuel : Nat) : Prop where
  exp : ∀ {exp : Source.Exp} {vars : List (String × Access)} {s s' : Lowering} {out : Lowered}
    {store store' : Store} {v : Word}, exp.isCore = true → act.Laid vars s → act.Room s' →
    lowerExp act.conv 0 exp s = .ok out s' → exp.eval act.oracle fuel store = some (v, store') →
    act.Evaluates s' vars out store v store'
  args : ∀ {args : List Source.Exp} {vars : List (String × Access)} {s s' : Lowering}
    {values : List Tree.Exp} {store store' : Store} {vs : List Word}, Exp.listIsCore args = true →
    act.Laid vars s → act.Room s' → lowerArgs act.conv 0 args s = .ok values s' →
    Exp.evalArgs act.oracle fuel args store = some (vs, store') →
    act.EvaluatesAll s' vars values store vs store'
  seq : ∀ {exps : List Source.Exp} {vars : List (String × Access)} {s s' : Lowering}
    {stms : List Stm} {last : Lowered} {store store' : Store} {v : Word},
    Exp.listIsCore exps = true → act.Laid vars s → act.Room s' →
    lowerSeq act.conv 0 exps s = .ok (stms, last) s' →
    Exp.evalSeq act.oracle fuel exps store = some (v, store') →
    ∃ middle, act.Executes s' stms vars store vars middle ∧
      act.Evaluates s' vars last middle v store'
  decs : ∀ {decs : List Dec} {vars : List (String × Access)} {s s' : Lowering} {stms : List Stm}
    {store store' : Store}, Exp.decsAreCore decs = true → act.Laid vars s → act.Room s' →
    lowerDecs act.conv 0 decs s = .ok stms s' →
    Exp.evalDecs act.oracle fuel decs store = some store' →
    ∃ added : List (String × Access), added.length = decs.length ∧ act.Laid (added ++ vars) s' ∧
      act.Executes s' stms vars store (added ++ vars) store'

section Parts

variable {exp : Source.Exp}

/-- The value of an expression is computed by the code of its value. -/
theorem Faithful.value {value : Tree.Exp} (faithful : act.Faithful fuel)
    (core : exp.isCore = true) (laid : act.Laid vars s) (room : act.Room s')
    (ran : lowerValue act.conv 0 exp s = .ok value s')
    (evaluated : exp.eval act.oracle fuel store = some (v, store')) :
    Leads s'.supply.temps (act.Represents vars store)
      (fun σ σ' => act.Computes value σ (.word v) σ') (act.Represents vars store') := by
  obtain ⟨out, t, lowered, rfl, rfl⟩ := lowerValue_ok.mp ran
  have later := laid.extend ((lowerExp_extends 0 exp).ok lowered)
  have leads := faithful.exp core laid (room.before (steps_draw (grows_asValue out) t)) lowered
    evaluated
  exact leads.asValue (later.settled (Nat.le_refl _)) (later.settled (Nat.le_refl _)) room.temps

/-- The effect of an expression is had by the code of its effect. -/
theorem Faithful.effect {stm : Stm} (faithful : act.Faithful fuel)
    (core : exp.isCore = true) (laid : act.Laid vars s) (room : act.Room s')
    (ran : lowerEffect act.conv 0 exp s = .ok stm s')
    (evaluated : exp.eval act.oracle fuel store = some (v, store')) :
    Leads s'.supply.temps (act.Represents vars store)
      (Runs (Model.words act.oracle) act.temps stm) (act.Represents vars store') := by
  obtain ⟨out, t, lowered, rfl, rfl⟩ := lowerEffect_ok.mp ran
  have steps : Steps act.conv t (t.draw out.asEffect) := steps_draw (grows_asEffect out) t
  have leads := faithful.exp core laid (room.before steps) lowered evaluated
  exact (leads.widen steps.supply_le.1).imp fun σ σ' given => given.effect t.supply

end Parts

section Leaves

/-- A constant that fits into a word is that word. -/
theorem leads_const {c : Int} (core : -2 ^ 63 ≤ c ∧ c < 2 ^ 63) :
    Leads hi P ((Lowered.value (.const c)).Gives act.oracle act.temps (.ofInt 64 c)) P := by
  refine leads_here fun σ _ => ⟨Running.computes_const c, ?_⟩
  intro c' same
  cases same
  constructor
  · rintro rfl
    rfl
  · intro zero
    refine eq_of_ofInt_eq zero ?_
    rw [abs_lt]
    omega

/-- A call of the runtime system gets the values of its arguments and leaves a trace. -/
theorem Faithful.call {func : String} {args : List Source.Exp} {pos : Pos}
    (faithful : act.Faithful fuel) (core : (Exp.call func args pos).isCore = true)
    (laid : act.Laid vars s) (room : act.Room s')
    (ran : lowerExp act.conv 0 (.call func args pos) s = .ok out s')
    (evaluated : (Exp.call func args pos).eval act.oracle (fuel + 1) store = some (v, store')) :
    act.Evaluates s' vars out store v store' := by
  obtain ⟨callee, values, resolved, lowered, rfl⟩ := lowerExp_call ran
  unfold Exp.eval at evaluated
  obtain ⟨⟨vs, store₁⟩, evaluatedArgs, same⟩ := Option.bind_eq_some_iff.mp evaluated
  cases same
  -- Only variables are in scope, so the callee is a function of the runtime system.
  obtain ⟨-, ⟨target, label, home, info, fp, meaning, -⟩ | ⟨-, -, rfl⟩⟩ := resolveCallee_ok resolved
  · rw [meaningIn_eq_lookup, laid.names, lookup_entry] at meaning
    obtain ⟨_, -, same⟩ := Option.map_eq_some_iff.mp meaning
    cases same
  intro σ represents
  obtain ⟨σ', computed, after, kept⟩ :=
    faithful.args (Exp.listIsCore_of_call core) laid room lowered evaluatedArgs σ represents
  have called : act.Computes (.plainCall func values) σ
      (.word (act.oracle (σ'.world.call func vs).trace))
      (σ'.withWorld (σ'.world.call func vs)) := by
    have ran := Running.computes_plain_call (Running.computes_name func) computed
    rw [Model.words_call] at ran
    exact ran
  have traced : (σ'.world.call func vs).trace = (store₁.call func vs).trace :=
    congrArg (· ++ [_]) after.trace
  rw [traced] at called
  refine ⟨_, ⟨called, fun c same => by cases same⟩, ⟨after.pointer, ?_, traced⟩, kept⟩
  refine holds_of_held_eq after.values fun u _ => ?_
  cases u.2 <;> rfl

/-- The tree language has the operators of the source language. -/
theorem lowerOper_apply {oper : Oper} {a b : Word} (applied : oper.apply a b = some v) :
    (∀ op, lowerOper oper = .inl op → v = op.apply a b) ∧
      ∀ op, lowerOper oper = .inr op → v = truth (op.holds a b) ∧ oper.isComparison = true := by
  cases oper <;> cases applied <;> refine ⟨fun op same => ?_, fun op same => ?_⟩ <;>
    cases same <;> first | rfl | exact ⟨rfl, rfl⟩

/-- An operation on words is the operation of the machine. -/
theorem leads_operation {oper : Oper} {strings : Bool} {left right : Tree.Exp} {a b : Word}
    (integers : (strings && oper.isComparison) = false) (applied : oper.apply a b = some v)
    (first : Leads hi P (fun σ σ' => act.Computes left σ (.word a) σ') Q)
    (second : Leads hi' Q (fun σ σ' => act.Computes right σ (.word b) σ') R) (le : hi ≤ hi') :
    Leads hi' P ((operation oper strings left right).Gives act.oracle act.temps v) R := by
  obtain ⟨arithmetic, comparing⟩ := lowerOper_apply applied
  refine first.trans second le fun σ σ₁ σ₂ began ended => ?_
  unfold operation
  cases lowered : lowerOper oper with
  | inl op =>
    obtain rfl := arithmetic op lowered
    exact ⟨Running.computes_binop op began ended, fun c same => by cases same⟩
  | inr op =>
    obtain ⟨rfl, comparison⟩ := comparing op lowered
    have plain : strings = false := by simpa [comparison] using integers
    subst plain
    exact ⟨a, b, σ₁, began, ended, rfl⟩

end Leaves

section Conditionals

variable {test yes no : Source.Exp}

/-- A conditional runs its body if its test is not zero. -/
theorem Faithful.ifThen (faithful : act.Faithful fuel) (core : (Exp.ifThen test yes).isCore = true)
    (laid : act.Laid vars s) (room : act.Room s')
    (ran : lowerExp act.conv 0 (.ifThen test yes) s = .ok out s')
    (evaluated : (Exp.ifThen test yes).eval act.oracle (fuel + 1) store = some (v, store')) :
    act.Evaluates s' vars out store v store' := by
  unfold Exp.isCore at core
  simp only [Bool.and_eq_true] at core
  obtain ⟨coreTest, coreYes⟩ := core
  obtain ⟨a, t, b, u, branch, first, second, branched, rfl, rfl⟩ := lowerExp_ifThen ran
  unfold Exp.eval at evaluated
  obtain ⟨⟨w, store₁⟩, tested, evaluated⟩ := Option.bind_eq_some_iff.mp evaluated
  have extended := (lowerExp_extends 0 test).ok first
  have later := ((lowerExp_extends 0 yes).ok second).steps
  have ended : Steps act.conv u (u.label.label.draw b.asEffect) :=
    ((steps_draw grows_freshLabel u).trans (steps_draw grows_freshLabel u.label)).trans
      (steps_draw (grows_asEffect b) u.label.label)
  have roomYes := room.before ended
  have condition := faithful.exp coreTest laid (roomYes.before later) first tested
  simp only at evaluated
  by_cases zero : w = 0
  · rw [if_pos zero] at evaluated
    cases evaluated
    refine (condition.widen (Nat.le_trans later.supply_le.1 ended.supply_le.1)).imp
      fun σ σ' given => ⟨?_, rfl⟩
    have left := given.branch branched
    rw [if_pos zero] at left
    exact runs_conditional_no left
  · rw [if_neg zero] at evaluated
    obtain ⟨⟨x, store₂⟩, taken, same⟩ := Option.bind_eq_some_iff.mp evaluated
    cases same
    have body := faithful.exp coreYes (laid.extend extended) roomYes second taken
    refine (condition.trans body later.supply_le.1 fun σ σ₁ σ₂ given done => ⟨?_, rfl⟩).widen
      ended.supply_le.1
    have right := given.branch branched
    rw [if_neg zero] at right
    exact runs_conditional_yes right (done.effect _)

/-- A value is put into a temporary that is not in use yet. -/
theorem leads_store {e : Tree.Exp} {r : Temp}
    (given : Leads hi P (fun σ σ' => act.Computes e σ (.word v) σ') Q)
    (settled : Settled r.index Q) (below : r.index < act.temps) (under : r.index < hi) :
    Leads hi P
      (fun σ σ' => Runs (Model.words act.oracle) act.temps (.move (.temp r) e) σ σ' ∧
        σ'.temps r = .word v) Q := by
  intro σ holds
  obtain ⟨σ', computed, after, kept⟩ := given σ holds
  refine ⟨σ'.set r (.word v), ⟨Running.does_move_temp below computed, State.set_temps_same _ _ _⟩,
    settled.set after (Nat.le_refl _) _, fun t above => ?_⟩
  have different : t ≠ r := by
    rintro rfl
    exact Nat.not_le_of_lt under above
  rw [State.set_temps_ne _ _ different, kept t above]

/-- An alternative does what the branch does that is taken. -/
theorem leads_joinBranches {a b c : Lowered} {w : Word} {yesLabel noLabel join : Label}
    (condition : Leads s.supply.temps P (a.Gives act.oracle act.temps w) Q)
    (taken : Leads s.supply.temps Q ((if w = 0 then c else b).Gives act.oracle act.temps v) R)
    (before : Settled s.supply.temps Q) (after : Settled s.supply.temps R) (room : act.Room s')
    (ran : joinBranches a b c yesLabel noLabel join s = .ok out s') :
    Leads s'.supply.temps P (out.Gives act.oracle act.temps v) R := by
  rcases joinBranches_ok ran with
    ⟨yesStm, noStm, branch, rfl, rfl, branched, rfl, rfl⟩ | ⟨t, branch, rfl, -, branched, rfl, rfl⟩
  · refine condition.trans taken (Nat.le_refl _) fun σ σ₁ σ₂ given done => ?_
    have chosen := given.branch branched
    by_cases zero : w = 0
    · rw [if_pos zero] at chosen done
      exact ⟨runs_alternative_no chosen done.1, done.2⟩
    · rw [if_neg zero] at chosen done
      exact ⟨runs_alternative_yes chosen done.1, done.2⟩
  · have one := Nat.le_succ s.supply.temps
    have two := (grows_asValue b (s.draw freshTemp).supply).1
    have three := (grows_asValue c ((s.draw freshTemp).draw b.asValue).supply).1
    have under : s.nextTemp.index < ((s.draw freshTemp).draw b.asValue).supply.temps :=
      Nat.lt_of_lt_of_le (Nat.lt_succ_self _) two
    have below : s.nextTemp.index < act.temps :=
      Nat.lt_of_lt_of_le under (Nat.le_trans three room.temps)
    by_cases zero : w = 0
    · rw [if_pos zero] at taken
      have low := Nat.le_trans one two
      have stored := leads_store
        ((taken.widen low).asValue (before.mono low) (after.mono low) room.temps) after below
        (Nat.lt_of_lt_of_le under three)
      refine condition.trans stored (Nat.le_trans low three) fun σ σ₁ σ₂ given done => ?_
      have chosen := given.branch branched
      rw [if_pos zero] at chosen
      exact ⟨Running.computes_eseq (runs_alternative_no chosen done.1) (computes_held below done.2),
        fun c same => nomatch same⟩
    · rw [if_neg zero] at taken
      have stored := leads_store ((taken.widen one).asValue (before.mono one) (after.mono one)
        (Nat.le_trans three room.temps)) after below under
      refine (condition.trans stored (Nat.le_trans one two) ?_).widen three
      intro σ σ₁ σ₂ given done
      have chosen := given.branch branched
      rw [if_neg zero] at chosen
      exact ⟨Running.computes_eseq (runs_alternative_yes chosen done.1)
        (computes_held below done.2), fun c same => nomatch same⟩

/-- A conditional with an alternative runs one of its branches, and joins their values. -/
theorem Faithful.ifElse (faithful : act.Faithful fuel)
    (core : (Exp.ifElse test yes no).isCore = true) (laid : act.Laid vars s) (room : act.Room s')
    (ran : lowerExp act.conv 0 (.ifElse test yes no) s = .ok out s')
    (evaluated : (Exp.ifElse test yes no).eval act.oracle (fuel + 1) store = some (v, store')) :
    act.Evaluates s' vars out store v store' := by
  unfold Exp.isCore at core
  simp only [Bool.and_eq_true] at core
  obtain ⟨⟨coreTest, coreYes⟩, coreNo⟩ := core
  obtain ⟨a, t, b, u, c, w, first, second, third, joined⟩ := lowerExp_ifElse ran
  unfold Exp.eval at evaluated
  obtain ⟨⟨x, store₁⟩, tested, evaluated⟩ := Option.bind_eq_some_iff.mp evaluated
  have extTest := (lowerExp_extends 0 test).ok first
  have extYes := (lowerExp_extends 0 yes).ok second
  have extNo := (lowerExp_extends 0 no).ok third
  have laidTest := laid.extend extTest
  have laidYes := (laidTest.extend extYes).label.label
  have laidNo := (laidYes.extend extNo).label
  have stepsNo : Steps act.conv w s' :=
    (steps_draw grows_freshLabel w).trans ((extending_joinBranches a b c _ _ _).ok joined).steps
  have stepsYes : Steps act.conv u w :=
    ((steps_draw grows_freshLabel u).trans (steps_draw grows_freshLabel u.label)).trans extNo.steps
  have roomNo := room.before stepsNo
  have roomYes := roomNo.before stepsYes
  have condition := faithful.exp coreTest laid (roomYes.before extYes.steps) first tested
  have low : t.supply.temps ≤ w.label.supply.temps :=
    Nat.le_trans extYes.steps.supply_le.1 stepsYes.supply_le.1
  refine leads_joinBranches (condition.widen low) ?_
    (laidNo.settled (Nat.le_refl _)) (laidNo.settled (Nat.le_refl _)) room joined
  simp only at evaluated
  by_cases zero : x = 0
  · rw [if_pos zero] at evaluated ⊢
    have other := faithful.exp coreNo laidYes roomNo third evaluated
    exact other
  · rw [if_neg zero] at evaluated ⊢
    exact (faithful.exp coreYes laidTest roomYes second evaluated).widen stepsYes.supply_le.1

end Conditionals

section Loops

variable {test body : Source.Exp}

/-- A loop does what its evaluation does, which goes on with the same loop and less fuel. -/
theorem Faithful.whileDo (faithful : act.Faithful fuel)
    (core : (Exp.whileDo test body).isCore = true) (laid : act.Laid vars s) (room : act.Room s')
    (ran : lowerExp act.conv 0 (.whileDo test body) s = .ok out s')
    (evaluated : (Exp.whileDo test body).eval act.oracle (fuel + 1) store = some (v, store')) :
    act.Evaluates s' vars out store v store' := by
  have again {store : Store}
      (evaluated : (Exp.whileDo test body).eval act.oracle fuel store = some (v, store')) :=
    faithful.exp core laid room ran evaluated
  unfold Exp.isCore at core
  simp only [Bool.and_eq_true] at core
  obtain ⟨coreTest, coreBody⟩ := core
  obtain ⟨a, t, b, u, branch, first, looped, branched, rfl, rfl⟩ := lowerExp_whileDo ran
  obtain ⟨w, second, rfl⟩ := inLoop_ok.mp looped
  unfold Exp.eval at evaluated
  obtain ⟨⟨x, store₁⟩, tested, evaluated⟩ := Option.bind_eq_some_iff.mp evaluated
  have extTest := (lowerExp_extends 0 test).ok first
  have extBody := ((extending_inLoop _ (lowerExp_extends 0 body)).ok looped).steps
  have ended : Steps act.conv _ ((w.withExits w.exits.tail).draw b.asEffect) :=
    steps_draw (grows_asEffect b) _
  have laidTest := laid.label.label.label.extend extTest
  have roomBody := room.before ended
  have condition := faithful.exp coreTest laid.label.label.label (roomBody.before extBody) first
    tested
  simp only at evaluated
  by_cases zero : x = 0
  · rw [if_pos zero] at evaluated
    cases evaluated
    refine (condition.widen (Nat.le_trans extBody.supply_le.1 ended.supply_le.1)).imp
      fun σ σ' given => ⟨?_, rfl⟩
    have left := given.branch branched
    rw [if_pos zero] at left
    exact runs_while_done left
  · rw [if_neg zero] at evaluated
    obtain ⟨⟨y, store₂⟩, once, evaluated⟩ := Option.bind_eq_some_iff.mp evaluated
    have roomInner : act.Room w := ⟨roomBody.temps, roomBody.slots⟩
    have round := faithful.exp coreBody (laidTest.withExits _) roomInner second once
    have begun := condition.trans round extBody.supply_le.1
      fun σ σ₁ σ₂ given done => Exists.intro σ₁ (And.intro given done)
    refine begun.trans (again evaluated) ended.supply_le.1 fun σ σ₂ σ₃ both rest => ?_
    obtain ⟨σ₁, given, done⟩ := both
    have right := given.branch branched
    rw [if_neg zero] at right
    exact ⟨runs_while_again right (done.effect _) rest.1, rest.2⟩

end Loops

section Expressions

theorem Faithful.op {oper : Oper} {left right : Source.Exp} {strings : Bool}
    (faithful : act.Faithful fuel) (core : (Exp.op oper left right strings).isCore = true)
    (laid : act.Laid vars s) (room : act.Room s')
    (ran : lowerExp act.conv 0 (.op oper left right strings) s = .ok out s')
    (evaluated : (Exp.op oper left right strings).eval act.oracle (fuel + 1) store =
      some (v, store')) :
    act.Evaluates s' vars out store v store' := by
  unfold Exp.isCore at core
  simp only [Bool.and_eq_true, Bool.not_eq_true'] at core
  obtain ⟨⟨⟨-, integers⟩, coreLeft⟩, coreRight⟩ := core
  obtain ⟨a, t, b, first, second, rfl⟩ := lowerExp_op ran
  unfold Exp.eval at evaluated
  obtain ⟨⟨x, store₁⟩, leftEvaluated, evaluated⟩ := Option.bind_eq_some_iff.mp evaluated
  obtain ⟨⟨y, store₂⟩, rightEvaluated, evaluated⟩ := Option.bind_eq_some_iff.mp evaluated
  obtain ⟨w, applied, same⟩ := Option.bind_eq_some_iff.mp evaluated
  cases same
  have extLeft := (lowerValue_extends 0 left).ok first
  have later := ((lowerValue_extends 0 right).ok second).steps
  exact leads_operation integers applied
    (faithful.value coreLeft laid (room.before later) first leftEvaluated)
    (faithful.value coreRight (laid.extend extLeft) room second rightEvaluated) later.supply_le.1

/-- An assignment changes the place of the variable. -/
theorem Faithful.assign {name : String} {pos : Pos} {value : Source.Exp}
    (faithful : act.Faithful fuel) (core : (Exp.assign (.simple name pos) value).isCore = true)
    (laid : act.Laid vars s) (room : act.Room s')
    (ran : lowerExp act.conv 0 (.assign (.simple name pos) value) s = .ok out s')
    (evaluated : (Exp.assign (.simple name pos) value).eval act.oracle (fuel + 1) store =
      some (v, store')) :
    act.Evaluates s' vars out store v store' := by
  unfold Exp.isCore at core
  obtain ⟨dst, t, src, target, lowered, rfl⟩ := lowerExp_assign ran
  obtain ⟨place, found, rfl, rfl⟩ := laid.lookup target
  unfold Exp.eval at evaluated
  obtain ⟨⟨w, store₁⟩, valued, evaluated⟩ := Option.bind_eq_some_iff.mp evaluated
  obtain ⟨store₂, assigned, same⟩ := Option.bind_eq_some_iff.mp evaluated
  cases same
  have extended := ((lowerValue_extends 0 value).ok lowered).steps
  have given := faithful.value core laid room lowered valued
  have moved := leads_assign laid (room.before extended) found extended.supply_le.1 given assigned
  exact moved.imp fun σ σ' ran => ⟨ran, rfl⟩

/-- The parts of a sequence run in order, and the last one gives its value. -/
theorem Faithful.sequence {exps : List Source.Exp} (faithful : act.Faithful fuel)
    (core : (Exp.seq exps).isCore = true) (laid : act.Laid vars s) (room : act.Room s')
    (ran : lowerExp act.conv 0 (.seq exps) s = .ok out s')
    (evaluated : (Exp.seq exps).eval act.oracle (fuel + 1) store = some (v, store')) :
    act.Evaluates s' vars out store v store' := by
  unfold Exp.isCore at core
  unfold Exp.eval at evaluated
  obtain ⟨stms, last, t, lowered, rfl, rfl⟩ := lowerExp_seq ran
  have ended : Steps act.conv t (t.draw (last.after stms)) := steps_draw (grows_after stms last) t
  have later := laid.extend ((lowerSeq_extends 0 exps).ok lowered)
  obtain ⟨middle, first, second⟩ :=
    faithful.seq core laid (room.before ended) lowered evaluated
  exact first.after second (Nat.le_refl _) (later.settled (Nat.le_refl _))
    (later.settled (Nat.le_refl _)) room.temps

/-- The variables of a let have places of their own until it ends. -/
theorem Faithful.letIn {decs : List Dec} {body : Source.Exp} (faithful : act.Faithful fuel)
    (core : (Exp.letIn decs body).isCore = true) (laid : act.Laid vars s) (room : act.Room s')
    (ran : lowerExp act.conv 0 (.letIn decs body) s = .ok out s')
    (evaluated : (Exp.letIn decs body).eval act.oracle (fuel + 1) store = some (v, store')) :
    act.Evaluates s' vars out store v store' := by
  unfold Exp.isCore at core
  simp only [Bool.and_eq_true] at core
  obtain ⟨coreDecs, coreBody⟩ := core
  obtain ⟨stms, t, b, u, first, second, rfl, rfl⟩ := lowerExp_letIn ran
  unfold Exp.eval at evaluated
  obtain ⟨store₁, declared, evaluated⟩ := Option.bind_eq_some_iff.mp evaluated
  obtain ⟨⟨w, store₂⟩, valued, same⟩ := Option.bind_eq_some_iff.mp evaluated
  cases same
  have extBody := (lowerExp_extends 0 body).ok second
  have ended : Steps act.conv u (u.draw (b.after stms)) := steps_draw (grows_after stms b) u
  have roomEnd : act.Room (u.draw (b.after stms)) := ⟨room.temps, room.slots⟩
  have roomBody := roomEnd.before ended
  obtain ⟨added, length, inner, begun⟩ :=
    faithful.decs coreDecs laid.enter (roomBody.before extBody.steps) first declared
  have value := faithful.exp coreBody inner roomBody second valued
  have later := inner.extend extBody
  have whole := begun.after value extBody.steps.supply_le.1 (later.settled (Nat.le_refl _))
    (later.settled (Nat.le_refl _)) roomEnd.temps
  exact whole.post fun σ represents => represents.forget length

end Expressions

section Lists

theorem leads_args_nil {values : List Tree.Exp} {vs : List Word}
    (ran : lowerArgs act.conv 0 [] s = .ok values s')
    (evaluated : Exp.evalArgs act.oracle fuel [] store = some (vs, store')) :
    act.EvaluatesAll s' vars values store vs store' := by
  obtain ⟨rfl, -⟩ := lowerArgs_nil ran
  unfold Exp.evalArgs at evaluated
  cases evaluated
  exact leads_here fun σ _ => Running.givesAll_nil

theorem Faithful.argsCons {arg : Source.Exp} {args : List Source.Exp} {values : List Tree.Exp}
    {vs : List Word} (faithful : act.Faithful fuel) (core : Exp.listIsCore (arg :: args) = true)
    (laid : act.Laid vars s) (room : act.Room s')
    (ran : lowerArgs act.conv 0 (arg :: args) s = .ok values s')
    (evaluated : Exp.evalArgs act.oracle (fuel + 1) (arg :: args) store = some (vs, store')) :
    act.EvaluatesAll s' vars values store vs store' := by
  unfold Exp.listIsCore at core
  simp only [Bool.and_eq_true] at core
  obtain ⟨value, t, rest, first, second, rfl⟩ := lowerArgs_cons ran
  unfold Exp.evalArgs at evaluated
  obtain ⟨⟨w, store₁⟩, valued, evaluated⟩ := Option.bind_eq_some_iff.mp evaluated
  obtain ⟨⟨ws, store₂⟩, others, same⟩ := Option.bind_eq_some_iff.mp evaluated
  cases same
  have extended := (lowerValue_extends 0 arg).ok first
  have later := ((lowerArgs_extends 0 args).ok second).steps
  exact (faithful.value core.1 laid (room.before later) first valued).trans
    (faithful.args core.2 (laid.extend extended) room second others) later.supply_le.1
    fun σ σ₁ σ₂ computed rest => Running.givesAll_cons computed rest

theorem leads_seq_nil {stms : List Stm} {last : Lowered}
    (ran : lowerSeq act.conv 0 [] s = .ok (stms, last) s')
    (evaluated : Exp.evalSeq act.oracle fuel [] store = some (v, store')) :
    ∃ middle, act.Executes s' stms vars store vars middle ∧
      act.Evaluates s' vars last middle v store' := by
  obtain ⟨same, -⟩ := lowerSeq_nil ran
  cases same
  unfold Exp.evalSeq at evaluated
  cases evaluated
  exact ⟨store, leads_here fun σ _ => rfl, leads_here fun σ _ => ⟨runs_nop, rfl⟩⟩

theorem Faithful.seqSingle {exp : Source.Exp} {stms : List Stm} {last : Lowered}
    (faithful : act.Faithful fuel) (core : Exp.listIsCore [exp] = true)
    (laid : act.Laid vars s) (room : act.Room s')
    (ran : lowerSeq act.conv 0 [exp] s = .ok (stms, last) s')
    (evaluated : Exp.evalSeq act.oracle (fuel + 1) [exp] store = some (v, store')) :
    ∃ middle, act.Executes s' stms vars store vars middle ∧
      act.Evaluates s' vars last middle v store' := by
  unfold Exp.listIsCore at core
  rw [Bool.and_eq_true] at core
  obtain ⟨_, lowered, same⟩ := lowerSeq_single ran
  cases same
  unfold Exp.evalSeq at evaluated
  exact ⟨store, leads_here fun σ _ => rfl, faithful.exp core.1 laid room lowered evaluated⟩

theorem Faithful.seqCons {exp next : Source.Exp} {exps : List Source.Exp} {stms : List Stm}
    {last : Lowered} (faithful : act.Faithful fuel)
    (core : Exp.listIsCore (exp :: next :: exps) = true)
    (laid : act.Laid vars s) (room : act.Room s')
    (ran : lowerSeq act.conv 0 (exp :: next :: exps) s = .ok (stms, last) s')
    (evaluated : Exp.evalSeq act.oracle (fuel + 1) (exp :: next :: exps) store =
      some (v, store')) :
    ∃ middle, act.Executes s' stms vars store vars middle ∧
      act.Evaluates s' vars last middle v store' := by
  unfold Exp.listIsCore at core
  rw [Bool.and_eq_true] at core
  obtain ⟨stm, t, rest, _, first, second, same⟩ := lowerSeq_cons ran
  cases same
  unfold Exp.evalSeq at evaluated
  obtain ⟨⟨w, store₁⟩, valued, evaluated⟩ := Option.bind_eq_some_iff.mp evaluated
  have extended := (lowerEffect_extends 0 exp).ok first
  have later := ((lowerSeq_extends 0 (next :: exps)).ok second).steps
  obtain ⟨middle, others, value⟩ :=
    faithful.seq core.2 (laid.extend extended) room second evaluated
  refine ⟨middle, ?_, value⟩
  exact (faithful.effect core.1 laid (room.before later) first valued).trans others
    later.supply_le.1 fun σ σ₁ σ₂ ran rest => ⟨σ₁, ran, rest⟩

theorem Laid.decs_nil {stms : List Stm} (laid : act.Laid vars s)
    (ran : lowerDecs act.conv 0 [] s = .ok stms s')
    (evaluated : Exp.evalDecs act.oracle fuel [] store = some store') :
    ∃ added : List (String × Access), added.length = 0 ∧ act.Laid (added ++ vars) s' ∧
      act.Executes s' stms vars store (added ++ vars) store' := by
  obtain ⟨rfl, rfl⟩ := lowerDecs_nil ran
  unfold Exp.evalDecs at evaluated
  cases evaluated
  exact ⟨[], rfl, laid, leads_here fun σ _ => rfl⟩

/-- A declared variable gets its initial value. -/
theorem Faithful.decsVar {binder : Binder} {init : Source.Exp} {decs : List Dec}
    {stms : List Stm} (faithful : act.Faithful fuel)
    (core : Exp.decsAreCore (.var binder init :: decs) = true)
    (laid : act.Laid vars s) (room : act.Room s')
    (ran : lowerDecs act.conv 0 (.var binder init :: decs) s = .ok stms s')
    (evaluated : Exp.evalDecs act.oracle (fuel + 1) (.var binder init :: decs) store =
      some store') :
    ∃ added : List (String × Access), added.length = decs.length + 1 ∧
      act.Laid (added ++ vars) s' ∧
      act.Executes s' stms vars store (added ++ vars) store' := by
  unfold Exp.decsAreCore at core
  rw [Bool.and_eq_true] at core
  obtain ⟨value, t, place, u, rest, first, stored, second, rfl⟩ := lowerDecs_var ran
  unfold Exp.evalDecs at evaluated
  obtain ⟨⟨w, store₁⟩, valued, evaluated⟩ := Option.bind_eq_some_iff.mp evaluated
  have extended := (lowerValue_extends 0 init).ok first
  have allocated : Steps act.conv t u :=
    ((extending_allocateVariable 0 binder.escapes).ok stored).steps
  have later := ((lowerDecs_extends 0 decs).ok second).steps
  have laidInit := laid.extend extended
  have roomDecs := room.before later
  have roomVar : act.Room u := ⟨roomDecs.temps, roomDecs.slots⟩
  have given := faithful.value core.1 laid (roomVar.before allocated) first valued
  have declared := leads_declare laidInit stored roomVar (Nat.le_refl _) binder.name
    (given.widen allocated.supply_le.1)
  obtain ⟨added, length, inner, others⟩ :=
    faithful.decs core.2 (laidInit.bind binder.name stored) room second evaluated
  refine ⟨added ++ [(binder.name, place)], ?_, ?_, ?_⟩
  · rw [List.length_append, length]
    rfl
  · rw [List.append_assoc]
    exact inner
  · rw [List.append_assoc]
    exact declared.trans others later.supply_le.1 fun σ σ₁ σ₂ ran rest => ⟨σ₁, ran, rest⟩

end Lists

/-- Evaluation without fuel comes to an end at empty lists alone. -/
theorem faithful_zero : act.Faithful 0 where
  exp _ _ _ _ evaluated := by
    rw [Exp.eval_zero] at evaluated
    cases evaluated
  args {args} _ _ _ _ _ _ _ core laid room ran evaluated := by
    cases args with
    | nil => exact leads_args_nil ran evaluated
    | cons arg args =>
      unfold Exp.evalArgs at evaluated
      cases evaluated
  seq {exps} _ _ _ _ _ _ _ _ core laid room ran evaluated := by
    cases exps with
    | nil => exact leads_seq_nil ran evaluated
    | cons exp exps =>
      unfold Exp.evalSeq at evaluated
      cases evaluated
  decs {decs} _ _ _ _ _ _ core laid room ran evaluated := by
    cases decs with
    | nil => exact laid.decs_nil ran evaluated
    | cons dec decs =>
      unfold Exp.evalDecs at evaluated
      cases dec <;> cases evaluated

/-- Lowering is faithful for one more step of evaluation. Each form of expression is a case, with
its parts evaluated one step below. -/
theorem Faithful.succ (faithful : act.Faithful fuel) : act.Faithful (fuel + 1) where
  exp {exp} _ _ _ _ _ _ _ core laid room ran evaluated := by
    cases exp with
    | nil =>
      obtain ⟨rfl, -⟩ := lowerExp_nil ran
      unfold Exp.eval at evaluated
      cases evaluated
      exact leads_const ⟨by decide, by decide⟩
    | int value =>
      obtain ⟨rfl, -⟩ := lowerExp_int ran
      unfold Exp.eval at evaluated
      cases evaluated
      unfold Exp.isCore at core
      simp only [Bool.and_eq_true, decide_eq_true_eq] at core
      exact leads_const core
    | var var =>
      cases var with
      | simple name pos =>
        obtain ⟨tree, lowered, rfl⟩ := lowerExp_var ran
        obtain ⟨place, found, rfl, rfl⟩ := laid.lookup lowered
        unfold Exp.eval at evaluated
        obtain ⟨w, read, same⟩ := Option.bind_eq_some_iff.mp evaluated
        cases same
        exact leads_read laid room found read
      | field => cases core
      | subscript => cases core
    | call func args pos => exact faithful.call core laid room ran evaluated
    | op oper left right strings => exact faithful.op core laid room ran evaluated
    | seq exps => exact faithful.sequence core laid room ran evaluated
    | assign var value =>
      cases var with
      | simple name pos => exact faithful.assign core laid room ran evaluated
      | field => cases core
      | subscript => cases core
    | ifThen test yes => exact faithful.ifThen core laid room ran evaluated
    | ifElse test yes no => exact faithful.ifElse core laid room ran evaluated
    | whileDo test body => exact faithful.whileDo core laid room ran evaluated
    | letIn decs body => exact faithful.letIn core laid room ran evaluated
    | string => cases core
    | record => cases core
    | forTo => cases core
    | breakLoop => cases core
    | array => cases core
  args {args} _ _ _ _ _ _ _ core laid room ran evaluated := by
    cases args with
    | nil => exact leads_args_nil ran evaluated
    | cons arg args => exact faithful.argsCons core laid room ran evaluated
  seq {exps} _ _ _ _ _ _ _ _ core laid room ran evaluated := by
    cases exps with
    | nil => exact leads_seq_nil ran evaluated
    | cons exp exps =>
      cases exps with
      | nil => exact faithful.seqSingle core laid room ran evaluated
      | cons next exps => exact faithful.seqCons core laid room ran evaluated
  decs {decs} _ _ _ _ _ _ core laid room ran evaluated := by
    cases decs with
    | nil => exact laid.decs_nil ran evaluated
    | cons dec decs =>
      cases dec with
      | var binder init => exact faithful.decsVar core laid room ran evaluated
      | type => cases core
      | functions => cases core

/-- Lowered code does what evaluation does. -/
theorem faithful (act : Activation) : ∀ fuel, act.Faithful fuel
  | 0 => faithful_zero
  | fuel + 1 => (faithful act fuel).succ

end Activation

end TreeCode
