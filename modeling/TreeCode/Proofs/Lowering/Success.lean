import TreeCode.Proofs.Lowering.Extension

/-!
Successful lowering, taken apart: for each form of the source language, the runs that a
successful run is made of and the states between them.
-/

namespace TreeCode.Lowering

variable {α β : Type} {conv : Convention} {level : Level} {s s' : Lowering}

/-- An expression lowered for its value. -/
def lowerValue (conv : Convention) (level : Level) (exp : Source.Exp) : Lower Tree.Exp := do
  (← lowerExp conv level exp).asValue

/-- An expression lowered for its effect. -/
def lowerEffect (conv : Convention) (level : Level) (exp : Source.Exp) : Lower Tree.Stm := do
  (← lowerExp conv level exp).asEffect

/-- The value of an expression is made of what the expression is lowered to. -/
theorem lowerValue_ok {exp : Source.Exp} {value : Tree.Exp} :
    lowerValue conv level exp s = .ok value s' ↔
      ∃ lowered t, lowerExp conv level exp s = .ok lowered t ∧
        (lowered.asValue t.supply).1 = value ∧ t.draw lowered.asValue = s' := by
  unfold lowerValue
  simp only [bind_ok, fresh_ok]

/-- The effect of an expression is made of what the expression is lowered to. -/
theorem lowerEffect_ok {exp : Source.Exp} {stm : Tree.Stm} :
    lowerEffect conv level exp s = .ok stm s' ↔
      ∃ lowered t, lowerExp conv level exp s = .ok lowered t ∧
        (lowered.asEffect t.supply).1 = stm ∧ t.draw lowered.asEffect = s' := by
  unfold lowerEffect
  simp only [bind_ok, fresh_ok]

theorem value_bind {exp : Source.Exp} {next : Tree.Exp → Lower β} {b : β} :
    (lowerExp conv level exp >>= fun lowered => (liftM lowered.asValue : Lower _) >>= next) s =
        .ok b s' ↔
      ∃ value t, lowerValue conv level exp s = .ok value t ∧ next value t = .ok b s' := by
  simp only [bind_ok, lowerValue_ok, fresh_ok]
  constructor
  · rintro ⟨lowered, t, ran, _, _, ⟨rfl, rfl⟩, rest⟩
    exact ⟨_, _, ⟨lowered, t, ran, rfl, rfl⟩, rest⟩
  · rintro ⟨_, _, ⟨lowered, t, ran, rfl, rfl⟩, rest⟩
    exact ⟨lowered, t, ran, _, _, ⟨rfl, rfl⟩, rest⟩

theorem effect_bind {exp : Source.Exp} {next : Tree.Stm → Lower β} {b : β} :
    (lowerExp conv level exp >>= fun lowered => (liftM lowered.asEffect : Lower _) >>= next) s =
        .ok b s' ↔
      ∃ stm t, lowerEffect conv level exp s = .ok stm t ∧ next stm t = .ok b s' := by
  simp only [bind_ok, lowerEffect_ok, fresh_ok]
  constructor
  · rintro ⟨lowered, t, ran, _, _, ⟨rfl, rfl⟩, rest⟩
    exact ⟨_, _, ⟨lowered, t, ran, rfl, rfl⟩, rest⟩
  · rintro ⟨_, _, ⟨lowered, t, ran, rfl, rfl⟩, rest⟩
    exact ⟨lowered, t, ran, _, _, ⟨rfl, rfl⟩, rest⟩

/-- What `name` stands for when the given scopes are open. -/
def meaningIn (scopes : List (List (String × Meaning))) (name : String) : Option Meaning :=
  scopes.findSome? fun scope => scope.lookup name

/-- Scopes are searched from the innermost one outwards, as one list. -/
theorem meaningIn_eq_lookup (scopes : List (List (String × Meaning))) (name : String) :
    meaningIn scopes name = scopes.flatten.lookup name := by
  induction scopes with
  | nil => rfl
  | cons scope outer carried =>
    unfold meaningIn at carried ⊢
    rw [List.findSome?_cons, List.flatten_cons, List.lookup_append, carried]
    cases scope.lookup name <;> rfl

theorem meaning_ok {name : String} {meaning : Option Meaning} :
    meaning? name s = .ok meaning s' ↔ meaningIn s.scopes name = meaning ∧ s = s' := by
  change EStateM.Result.ok (meaningIn s.scopes name) s = _ ↔ _
  simp

theorem loopExit_ok {exit : Option Label} :
    loopExit? s = .ok exit s' ↔ s.exits.head? = exit ∧ s = s' := by
  change EStateM.Result.ok s.exits.head? s = _ ↔ _
  simp

theorem framePointerOf_ok {source target : Level} {address : Tree.Exp} :
    framePointerOf conv source target s = .ok address s' ↔
      climb s.levels target (.temp conv.framePointer) source = .ok address ∧ s = s' := by
  change (liftM (climb s.levels target (.temp conv.framePointer) source) : Lower _) s = _ ↔ _
  rw [except_ok]

section Variables

/-- A variable in scope is reached from the frame of the level that declares it. -/
theorem lowerVar_simple {name : String} {pos : Source.Pos} {tree : Tree.Exp} :
    lowerVar conv level (.simple name pos) s = .ok tree s' ↔
      ∃ declared access fp, meaningIn s.scopes name = some (.variable declared access) ∧
        climb s.levels declared (.temp conv.framePointer) level = .ok fp ∧
        access.value fp = tree ∧ s = s' := by
  unfold lowerVar
  rw [bind_ok]
  constructor
  · rintro ⟨meaning, _, looked, ran⟩
    obtain ⟨found, rfl⟩ := meaning_ok.mp looked
    split at ran
    next declared access =>
      simp only [variableAt, bind_ok, pure_ok, framePointerOf_ok] at ran
      obtain ⟨fp, _, ⟨climbed, rfl⟩, rfl, rfl⟩ := ran
      exact ⟨declared, access, fp, found, climbed, rfl, rfl⟩
    next => exact absurd ran (by simp [throw_ok])
  · rintro ⟨declared, access, fp, found, climbed, rfl, rfl⟩
    refine ⟨_, s, meaning_ok.mpr ⟨found, rfl⟩, ?_⟩
    simp only [variableAt, bind_ok, pure_ok, framePointerOf_ok]
    exact ⟨fp, s, ⟨climbed, rfl⟩, rfl, rfl⟩

/-- A field is at a fixed distance from the start of its record, if it has been resolved. -/
theorem lowerVar_field {record : Source.Var} {name : String} {slot : Option Nat}
    {pos : Source.Pos} {tree : Tree.Exp}
    (ran : lowerVar conv level (.field record name slot pos) s = .ok tree s') :
    ∃ index base, slot = some index ∧ lowerVar conv level record s = .ok base s' ∧
      tree = .mem (.binop .plus base (.const (conv.words index))) := by
  cases slot with
  | none =>
    unfold lowerVar at ran
    exact absurd ran (by simp [throw_ok])
  | some index =>
    unfold lowerVar at ran
    simp only [bind_ok, pure_ok] at ran
    obtain ⟨base, _, ran, rfl, rfl⟩ := ran
    exact ⟨index, base, rfl, ran, rfl⟩

/-- An element is found by its index, which is lowered after the array. -/
theorem lowerVar_subscript {array : Source.Var} {index : Source.Exp} {tree : Tree.Exp}
    (ran : lowerVar conv level (.subscript array index) s = .ok tree s') :
    ∃ base t offset, lowerVar conv level array s = .ok base t ∧
      lowerValue conv level index t = .ok offset s' ∧
      tree = .mem (.binop .plus base (.binop .mul offset (.const (conv.words 1)))) := by
  unfold lowerVar at ran
  obtain ⟨base, t, first, ran⟩ := bind_ok.mp ran
  obtain ⟨offset, _, second, ran⟩ := value_bind.mp ran
  obtain ⟨rfl, rfl⟩ := pure_ok.mp ran
  exact ⟨base, t, offset, first, second, rfl⟩

end Variables

section Expressions

variable {out : Lowered}

/-- The label that comes next. -/
def nextLabel (s : Lowering) : Label := (freshLabel s.supply).1

/-- The temporary that comes next. -/
def nextTemp (s : Lowering) : Temp := ⟨s.supply.temps⟩

theorem lowerExp_nil (ran : lowerExp conv level .nil s = .ok out s') :
    out = .value (.const 0) ∧ s = s' := by
  unfold lowerExp at ran
  obtain ⟨rfl, rfl⟩ := pure_ok.mp ran
  exact ⟨rfl, rfl⟩

theorem lowerExp_int {value : Int} (ran : lowerExp conv level (.int value) s = .ok out s') :
    out = .value (.const value) ∧ s = s' := by
  unfold lowerExp at ran
  obtain ⟨rfl, rfl⟩ := pure_ok.mp ran
  exact ⟨rfl, rfl⟩

/-- The state after a string literal. -/
def withLiteral (s : Lowering) (text : String) : Lowering :=
  { s.draw freshLabel with fragments := s.fragments ++ [.string s.nextLabel text] }

theorem lowerExp_string {text : String}
    (ran : lowerExp conv level (.string text) s = .ok out s') :
    out = .value (.name s.nextLabel) ∧ s.withLiteral text = s' := by
  unfold lowerExp at ran
  simp only [bind_ok, fresh_ok, pure_ok] at ran
  obtain ⟨_, _, ⟨rfl, rfl⟩, _, _, added, rfl, rfl⟩ := ran
  cases added
  exact ⟨rfl, rfl⟩

theorem lowerExp_var {var : Source.Var} (ran : lowerExp conv level (.var var) s = .ok out s') :
    ∃ tree, lowerVar conv level var s = .ok tree s' ∧ out = .value tree := by
  unfold lowerExp at ran
  simp only [bind_ok, pure_ok] at ran
  obtain ⟨tree, _, ran, rfl, rfl⟩ := ran
  exact ⟨tree, ran, rfl⟩

/-- A callee is a function in scope, reached through the frame of the level that declares it, or
a function of the runtime system whose name is not in scope. -/
theorem resolveCallee_ok {func : String} {pos : Source.Pos} {callee : Callee}
    (ran : resolveCallee conv level func pos s = .ok callee s') :
    s = s' ∧
      ((∃ target label home info fp, meaningIn s.scopes func = some (.function target label) ∧
        s.levels[target]? = some info ∧ info.parent = some home ∧
        climb s.levels home (.temp conv.framePointer) level = .ok fp ∧
        callee = .nested label fp) ∨
      (meaningIn s.scopes func = none ∧ runtimeLibrary.contains func = true ∧
        callee = .runtime func)) := by
  unfold resolveCallee at ran
  obtain ⟨meaning, _, looked, ran⟩ := bind_ok.mp ran
  obtain ⟨found, rfl⟩ := meaning_ok.mp looked
  split at ran
  next target label =>
    obtain ⟨parent, _, asked, ran⟩ := bind_ok.mp ran
    simp only [parentOf, bind_ok, levelInfo_ok, pure_ok] at asked
    obtain ⟨info, _, ⟨known, rfl⟩, around, rfl⟩ := asked
    split at ran
    next home =>
      simp only [bind_ok, framePointerOf_ok, pure_ok] at ran
      obtain ⟨fp, _, ⟨climbed, rfl⟩, rfl, rfl⟩ := ran
      exact ⟨rfl, .inl ⟨target, label, home, info, fp, found, known, around, climbed, rfl⟩⟩
    next => exact absurd ran (by simp [throw_ok])
  next => exact absurd ran (by simp [throw_ok])
  next =>
    split at ran
    next known =>
      obtain ⟨rfl, rfl⟩ := pure_ok.mp ran
      exact ⟨rfl, .inr ⟨found, known, rfl⟩⟩
    next => exact absurd ran (by simp [throw_ok])

/-- The callee is looked up before the arguments are lowered, in the state that they start from. -/
theorem lowerExp_call {func : String} {args : List Source.Exp} {pos : Source.Pos}
    (ran : lowerExp conv level (.call func args pos) s = .ok out s') :
    ∃ callee values, resolveCallee conv level func pos s = .ok callee s ∧
      lowerArgs conv level args s = .ok values s' ∧ out = .value (callee.call values) := by
  unfold lowerExp at ran
  simp only [bind_ok, pure_ok] at ran
  obtain ⟨callee, _, resolved, values, _, ran, rfl, rfl⟩ := ran
  obtain ⟨rfl, -⟩ := resolveCallee_ok resolved
  exact ⟨callee, values, resolved, ran, rfl⟩

theorem lowerExp_op {oper : Source.Oper} {left right : Source.Exp} {strings : Bool}
    (ran : lowerExp conv level (.op oper left right strings) s = .ok out s') :
    ∃ a t b, lowerValue conv level left s = .ok a t ∧
      lowerValue conv level right t = .ok b s' ∧ out = operation oper strings a b := by
  unfold lowerExp at ran
  obtain ⟨a, t, first, ran⟩ := value_bind.mp ran
  obtain ⟨b, _, second, ran⟩ := value_bind.mp ran
  obtain ⟨rfl, rfl⟩ := pure_ok.mp ran
  exact ⟨a, t, b, first, second, rfl⟩

/-- The code of a new record in `r`, whose fields are set by `stores`. -/
def recordTree (conv : Convention) (r : Temp) (count : Nat) (stores : List Tree.Stm) : Tree.Exp :=
  .eseq
    (.sequence (.move (.temp r) (.plainCall "allocRecord" [.const (conv.words count)]) :: stores))
    (.temp r)

/-- A record takes its temporary before its fields are lowered. -/
theorem lowerExp_record {type : String} {fields : List Source.Field}
    (ran : lowerExp conv level (.record type fields) s = .ok out s') :
    ∃ stores, lowerFields conv level s.nextTemp 0 fields (s.draw freshTemp) = .ok stores s' ∧
      out = .value (recordTree conv s.nextTemp fields.length stores) := by
  unfold lowerExp at ran
  simp only [bind_ok, fresh_ok, pure_ok] at ran
  obtain ⟨_, _, ⟨rfl, rfl⟩, stores, _, ran, rfl, rfl⟩ := ran
  exact ⟨stores, ran, rfl⟩

theorem lowerExp_seq {exps : List Source.Exp}
    (ran : lowerExp conv level (.seq exps) s = .ok out s') :
    ∃ stms last t, lowerSeq conv level exps s = .ok (stms, last) t ∧
      (last.after stms t.supply).1 = out ∧ t.draw (last.after stms) = s' := by
  unfold lowerExp at ran
  simp only [bind_ok, fresh_ok] at ran
  obtain ⟨⟨stms, last⟩, t, ran, same, state⟩ := ran
  exact ⟨stms, last, t, ran, same, state⟩

theorem lowerExp_assign {var : Source.Var} {value : Source.Exp}
    (ran : lowerExp conv level (.assign var value) s = .ok out s') :
    ∃ dst t src, lowerVar conv level var s = .ok dst t ∧
      lowerValue conv level value t = .ok src s' ∧ out = .effect (.move dst src) := by
  unfold lowerExp at ran
  obtain ⟨dst, t, first, ran⟩ := bind_ok.mp ran
  obtain ⟨src, _, second, ran⟩ := value_bind.mp ran
  obtain ⟨rfl, rfl⟩ := pure_ok.mp ran
  exact ⟨dst, t, src, first, second, rfl⟩

/-- The state after a new label. -/
def label (s : Lowering) : Lowering := s.draw freshLabel

/-- Both parts are lowered before the labels of the conditional are taken. -/
theorem lowerExp_ifThen {test yes : Source.Exp}
    (ran : lowerExp conv level (.ifThen test yes) s = .ok out s') :
    ∃ a t b u branch, lowerExp conv level test s = .ok a t ∧
      lowerExp conv level yes t = .ok b u ∧
      a.asBranch u.nextLabel u.label.nextLabel = .ok branch ∧
      out = .effect (conditional branch (b.asEffect u.label.label.supply).1 u.nextLabel
        u.label.nextLabel) ∧
      u.label.label.draw b.asEffect = s' := by
  unfold lowerExp at ran
  simp only [bind_ok, fresh_ok, except_ok, pure_ok] at ran
  obtain ⟨a, t, first, b, u, second, _, _, ⟨rfl, rfl⟩, _, _, ⟨rfl, rfl⟩, _, _, ⟨rfl, rfl⟩, branch,
    _, ⟨branched, rfl⟩, rfl, rfl⟩ := ran
  exact ⟨a, t, b, u, branch, first, second, branched, rfl, rfl⟩

/-- The labels of the two branches are taken between the branches, the one behind them at the
end. -/
theorem lowerExp_ifElse {test yes no : Source.Exp}
    (ran : lowerExp conv level (.ifElse test yes no) s = .ok out s') :
    ∃ a t b u c v, lowerExp conv level test s = .ok a t ∧
      lowerExp conv level yes t = .ok b u ∧
      lowerExp conv level no u.label.label = .ok c v ∧
      joinBranches a b c u.nextLabel u.label.nextLabel v.nextLabel v.label = .ok out s' := by
  unfold lowerExp at ran
  simp only [bind_ok, fresh_ok] at ran
  obtain ⟨a, t, first, b, u, second, _, _, ⟨rfl, rfl⟩, _, _, ⟨rfl, rfl⟩, c, v, third, _, _,
    ⟨rfl, rfl⟩, joined⟩ := ran
  exact ⟨a, t, b, u, c, v, first, second, third, joined⟩

/-- Two effects are joined as effects, and everything else as values. -/
theorem joinBranches_ok {test yes no : Lowered} {yesLabel noLabel join : Label}
    (ran : joinBranches test yes no yesLabel noLabel join s = .ok out s') :
    (∃ yesStm noStm branch, yes = .effect yesStm ∧ no = .effect noStm ∧
      test.asBranch yesLabel noLabel = .ok branch ∧ s = s' ∧
      out = .effect (alternative branch yesStm noStm yesLabel noLabel join)) ∨
    (∃ t branch, s.draw freshTemp = t ∧ (yes.isEffect = false ∨ no.isEffect = false) ∧
      test.asBranch yesLabel noLabel = .ok branch ∧
      (t.draw yes.asValue).draw no.asValue = s' ∧
      out = .value (.eseq
        (alternative branch (.move (.temp s.nextTemp) (yes.asValue t.supply).1)
          (.move (.temp s.nextTemp) (no.asValue (t.draw yes.asValue).supply).1)
          yesLabel noLabel join)
        (.temp s.nextTemp))) := by
  unfold joinBranches at ran
  split at ran
  next yesStm noStm =>
    simp only [bind_ok, except_ok, pure_ok] at ran
    obtain ⟨branch, _, ⟨branched, rfl⟩, rfl, rfl⟩ := ran
    exact .inl ⟨yesStm, noStm, branch, rfl, rfl, branched, rfl, rfl⟩
  next valued =>
    simp only [bind_ok, fresh_ok, except_ok, pure_ok] at ran
    obtain ⟨_, _, ⟨rfl, rfl⟩, _, _, ⟨rfl, rfl⟩, _, _, ⟨rfl, rfl⟩, branch, _, ⟨branched, rfl⟩, rfl,
      rfl⟩ := ran
    refine .inr ⟨_, branch, rfl, ?_, branched, rfl, rfl⟩
    cases yes with
    | effect yesStm =>
      cases no with
      | effect noStm => exact absurd rfl (valued yesStm noStm rfl)
      | value => exact .inr rfl
      | test => exact .inr rfl
    | value => exact .inl rfl
    | test => exact .inl rfl

/-- The labels of a loop are taken before its parts are lowered, the body with the exit of the
loop. -/
theorem lowerExp_whileDo {test body : Source.Exp}
    (ran : lowerExp conv level (.whileDo test body) s = .ok out s') :
    ∃ a t b u branch, lowerExp conv level test s.label.label.label = .ok a t ∧
      inLoop s.label.label.nextLabel (lowerExp conv level body) t = .ok b u ∧
      a.asBranch s.label.nextLabel s.label.label.nextLabel = .ok branch ∧
      out = .effect (whileLoop branch (b.asEffect u.supply).1 s.nextLabel s.label.nextLabel
        s.label.label.nextLabel) ∧
      u.draw b.asEffect = s' := by
  unfold lowerExp at ran
  simp only [bind_ok, fresh_ok, except_ok, pure_ok] at ran
  obtain ⟨_, _, ⟨rfl, rfl⟩, _, _, ⟨rfl, rfl⟩, _, _, ⟨rfl, rfl⟩, a, t, first, b, u, second, _, _,
    ⟨rfl, rfl⟩, branch, _, ⟨branched, rfl⟩, rfl, rfl⟩ := ran
  exact ⟨a, t, b, u, branch, first, second, branched, rfl, rfl⟩

/-- The state after the limit of a counting loop has been given a temporary, and the loop its
labels. -/
def looped (s : Lowering) : Lowering := (s.draw freshTemp).label.label.label

/-- The bounds are lowered before the variable gets its storage, and the body in a scope of its
own. -/
theorem lowerExp_forTo {var : Source.Binder} {lo hi body : Source.Exp}
    (ran : lowerExp conv level (.forTo var lo hi body) s = .ok out s') :
    ∃ a t b u access v c w x, lowerValue conv level lo s = .ok a t ∧
      lowerValue conv level hi t = .ok b u ∧
      allocateVariable level var.escapes u = .ok access v ∧
      inLoop (v.draw freshTemp).label.label.nextLabel (lowerExp conv level body)
        (v.looped.enter.bound var.name (.variable level access)) = .ok c w ∧
      x = w.leave ∧
      out = .effect (countingLoop (access.value (.temp conv.framePointer)) (.temp v.nextTemp) a b
        (c.asEffect x.supply).1 (v.draw freshTemp).nextLabel (v.draw freshTemp).label.nextLabel
        (v.draw freshTemp).label.label.nextLabel) ∧
      x.draw c.asEffect = s' := by
  unfold lowerExp at ran
  obtain ⟨a, t, first, ran⟩ := value_bind.mp ran
  obtain ⟨b, u, second, ran⟩ := value_bind.mp ran
  obtain ⟨access, v, stored, ran⟩ := bind_ok.mp ran
  simp only [bind_ok, fresh_ok, pure_ok, inScope_ok, bindName_ok] at ran
  obtain ⟨_, _, ⟨rfl, rfl⟩, _, _, ⟨rfl, rfl⟩, _, _, ⟨rfl, rfl⟩, _, _, ⟨rfl, rfl⟩, c, _,
    ⟨w, ⟨_, _, rfl, looped⟩, rfl⟩, _, _, ⟨rfl, rfl⟩, rfl, rfl⟩ := ran
  exact ⟨a, t, b, u, access, v, c, w, _, first, second, stored, looped, rfl, rfl, rfl⟩

/-- A break jumps to the exit of the innermost loop. -/
theorem lowerExp_breakLoop {pos : Source.Pos}
    (ran : lowerExp conv level (.breakLoop pos) s = .ok out s') :
    ∃ exit, s.exits.head? = some exit ∧ out = .effect (.goto exit) ∧ s = s' := by
  unfold lowerExp at ran
  obtain ⟨exit, _, asked, ran⟩ := bind_ok.mp ran
  obtain ⟨found, rfl⟩ := loopExit_ok.mp asked
  cases exit with
  | none => exact absurd ran (by simp [throw_ok])
  | some exit =>
    obtain ⟨rfl, rfl⟩ := pure_ok.mp ran
    exact ⟨exit, found, rfl, rfl⟩

/-- Declarations and body share a scope, which is left afterwards. -/
theorem lowerExp_letIn {decs : List Source.Dec} {body : Source.Exp}
    (ran : lowerExp conv level (.letIn decs body) s = .ok out s') :
    ∃ stms t b u, lowerDecs conv level decs s.enter = .ok stms t ∧
      lowerExp conv level body t = .ok b u ∧ (b.after stms u.supply).1 = out ∧
      (u.draw (b.after stms)).leave = s' := by
  unfold lowerExp at ran
  simp only [inScope_ok, bind_ok, fresh_ok] at ran
  obtain ⟨_, ⟨stms, t, first, b, u, second, rfl, rfl⟩, rfl⟩ := ran
  exact ⟨stms, t, b, u, first, second, rfl, rfl⟩

theorem lowerExp_array {type : String} {size init : Source.Exp}
    (ran : lowerExp conv level (.array type size init) s = .ok out s') :
    ∃ a t b, lowerValue conv level size s = .ok a t ∧ lowerValue conv level init t = .ok b s' ∧
      out = .value (.plainCall "initArray" [a, b]) := by
  unfold lowerExp at ran
  obtain ⟨a, t, first, ran⟩ := value_bind.mp ran
  obtain ⟨b, _, second, ran⟩ := value_bind.mp ran
  obtain ⟨rfl, rfl⟩ := pure_ok.mp ran
  exact ⟨a, t, b, first, second, rfl⟩

end Expressions

section Lists

theorem lowerArgs_nil {values : List Tree.Exp} (ran : lowerArgs conv level [] s = .ok values s') :
    values = [] ∧ s = s' := by
  unfold lowerArgs at ran
  obtain ⟨rfl, rfl⟩ := pure_ok.mp ran
  exact ⟨rfl, rfl⟩

theorem lowerArgs_cons {arg : Source.Exp} {args : List Source.Exp} {values : List Tree.Exp}
    (ran : lowerArgs conv level (arg :: args) s = .ok values s') :
    ∃ value t rest, lowerValue conv level arg s = .ok value t ∧
      lowerArgs conv level args t = .ok rest s' ∧ values = value :: rest := by
  unfold lowerArgs at ran
  obtain ⟨value, t, first, ran⟩ := value_bind.mp ran
  obtain ⟨rest, _, second, ran⟩ := bind_ok.mp ran
  obtain ⟨rfl, rfl⟩ := pure_ok.mp ran
  exact ⟨value, t, rest, first, second, rfl⟩

theorem lowerFields_nil {r : Temp} {slot : Nat} {stores : List Tree.Stm}
    (ran : lowerFields conv level r slot [] s = .ok stores s') : stores = [] ∧ s = s' := by
  unfold lowerFields at ran
  obtain ⟨rfl, rfl⟩ := pure_ok.mp ran
  exact ⟨rfl, rfl⟩

theorem lowerFields_cons {r : Temp} {slot : Nat} {name : String} {exp : Source.Exp}
    {fields : List Source.Field} {stores : List Tree.Stm}
    (ran : lowerFields conv level r slot (⟨name, exp⟩ :: fields) s = .ok stores s') :
    ∃ value t rest, lowerValue conv level exp s = .ok value t ∧
      lowerFields conv level r (slot + 1) fields t = .ok rest s' ∧
      stores = .move (.mem (.binop .plus (.temp r) (.const (conv.words slot)))) value :: rest := by
  unfold lowerFields at ran
  obtain ⟨value, t, first, ran⟩ := value_bind.mp ran
  obtain ⟨rest, _, second, ran⟩ := bind_ok.mp ran
  obtain ⟨rfl, rfl⟩ := pure_ok.mp ran
  exact ⟨value, t, rest, first, second, rfl⟩

theorem lowerSeq_nil {result : List Tree.Stm × Lowered}
    (ran : lowerSeq conv level [] s = .ok result s') : result = ([], .effect .nop) ∧ s = s' := by
  unfold lowerSeq at ran
  obtain ⟨rfl, rfl⟩ := pure_ok.mp ran
  exact ⟨rfl, rfl⟩

theorem lowerSeq_single {exp : Source.Exp} {result : List Tree.Stm × Lowered}
    (ran : lowerSeq conv level [exp] s = .ok result s') :
    ∃ last, lowerExp conv level exp s = .ok last s' ∧ result = ([], last) := by
  unfold lowerSeq at ran
  simp only [bind_ok, pure_ok] at ran
  obtain ⟨last, _, ran, rfl, rfl⟩ := ran
  exact ⟨last, ran, rfl⟩

/-- All parts of a sequence but the last are lowered for their effects. -/
theorem lowerSeq_cons {exp next : Source.Exp} {exps : List Source.Exp}
    {result : List Tree.Stm × Lowered}
    (ran : lowerSeq conv level (exp :: next :: exps) s = .ok result s') :
    ∃ stm t stms last, lowerEffect conv level exp s = .ok stm t ∧
      lowerSeq conv level (next :: exps) t = .ok (stms, last) s' ∧
      result = (stm :: stms, last) := by
  unfold lowerSeq at ran
  obtain ⟨stm, t, first, ran⟩ := effect_bind.mp ran
  obtain ⟨⟨stms, last⟩, _, second, ran⟩ := bind_ok.mp ran
  obtain ⟨rfl, rfl⟩ := pure_ok.mp ran
  exact ⟨stm, t, stms, last, first, second, rfl⟩

end Lists

section Declarations

theorem lowerDecs_nil {stms : List Tree.Stm} (ran : lowerDecs conv level [] s = .ok stms s') :
    stms = [] ∧ s = s' := by
  unfold lowerDecs at ran
  obtain ⟨rfl, rfl⟩ := pure_ok.mp ran
  exact ⟨rfl, rfl⟩

/-- A variable is stored and bound after its initial value is lowered, so that it is not in scope
there. -/
theorem lowerDecs_var {var : Source.Binder} {init : Source.Exp} {decs : List Source.Dec}
    {stms : List Tree.Stm}
    (ran : lowerDecs conv level (.var var init :: decs) s = .ok stms s') :
    ∃ value t access u rest, lowerValue conv level init s = .ok value t ∧
      allocateVariable level var.escapes t = .ok access u ∧
      lowerDecs conv level decs (u.bound var.name (.variable level access)) = .ok rest s' ∧
      stms = .move (access.value (.temp conv.framePointer)) value :: rest := by
  unfold lowerDecs at ran
  obtain ⟨value, t, first, ran⟩ := value_bind.mp ran
  obtain ⟨access, u, stored, ran⟩ := bind_ok.mp ran
  simp only [bind_ok, bindName_ok, pure_ok] at ran
  obtain ⟨_, _, rfl, rest, _, second, rfl, rfl⟩ := ran
  exact ⟨value, t, access, u, rest, first, stored, second, rfl⟩

theorem lowerDecs_type {name : String} {definition : Source.TypeDef} {decs : List Source.Dec}
    {stms : List Tree.Stm}
    (ran : lowerDecs conv level (.type name definition :: decs) s = .ok stms s') :
    lowerDecs conv level decs s = .ok stms s' := by
  unfold lowerDecs at ran
  exact ran

/-- All functions of a group are declared before the first of their bodies is lowered. -/
theorem lowerDecs_functions {group : List Source.FunDec} {decs : List Source.Dec}
    {stms : List Tree.Stm}
    (ran : lowerDecs conv level (.functions group :: decs) s = .ok stms s') :
    ∃ levels t u, declareFunctions conv level group s = .ok levels t ∧
      lowerBodies conv levels group t = .ok () u ∧ lowerDecs conv level decs u = .ok stms s' := by
  unfold lowerDecs at ran
  obtain ⟨levels, t, declared, ran⟩ := bind_ok.mp ran
  obtain ⟨_, u, bodies, ran⟩ := bind_ok.mp ran
  exact ⟨levels, t, u, declared, bodies, ran⟩

theorem declareFunctions_nil {levels : List Level}
    (ran : declareFunctions conv level [] s = .ok levels s') : levels = [] ∧ s = s' := by
  unfold declareFunctions at ran
  obtain ⟨rfl, rfl⟩ := pure_ok.mp ran
  exact ⟨rfl, rfl⟩

/-- A function gets a label, a level and its name, in this order. -/
theorem declareFunctions_cons {name : String} {params : List Source.Binder}
    {result : Option String} {body : Source.Exp} {group : List Source.FunDec}
    {levels : List Level}
    (ran : declareFunctions conv level (⟨name, params, result, body⟩ :: group) s =
      .ok levels s') :
    ∃ own t rest,
      openLevel conv level (freshLabelFor name s.supply).1 (params.map Source.Binder.escapes)
        (s.draw (freshLabelFor name)) = .ok own t ∧
      declareFunctions conv level group
        (t.bound name (.function own (freshLabelFor name s.supply).1)) = .ok rest s' ∧
      levels = own :: rest := by
  simp only [declareFunctions, bind_ok, fresh_ok, bindName_ok, pure_ok] at ran
  obtain ⟨_, _, ⟨rfl, rfl⟩, own, t, opened, _, _, rfl, rest, _, ran, rfl, rfl⟩ := ran
  exact ⟨own, t, rest, opened, ran, rfl⟩

theorem lowerBodies_nil {levels : List Level} (ran : lowerBodies conv levels [] s = .ok () s') :
    s = s' := by
  unfold lowerBodies at ran
  exact (pure_ok.mp ran).2

/-- The body of a function is lowered in its own level and scope, outside of all loops, with its
parameters bound to the formals after the link. -/
theorem lowerBodies_cons {own : Level} {levels : List Level} {name : String}
    {params : List Source.Binder} {result : Option String} {body : Source.Exp}
    {group : List Source.FunDec}
    (ran : lowerBodies conv (own :: levels) (⟨name, params, result, body⟩ :: group) s =
      .ok () s') :
    ∃ info t lowered u v w, s.levels[own]? = some info ∧
      bindParams own params info.frame.formals.tail s.enter = .ok () t ∧
      outsideLoops (lowerExp conv own body) t = .ok lowered u ∧ u.leave = v ∧
      finishProc conv own (bodyStm conv result lowered v.supply).1
        (v.draw (bodyStm conv result lowered)) = .ok () w ∧
      lowerBodies conv levels group w = .ok () s' := by
  unfold lowerBodies at ran
  simp only [formalsOf, bind_ok, levelInfo_ok, pure_ok, inScope_ok, fresh_ok] at ran
  obtain ⟨_, _, ⟨info, _, ⟨known, rfl⟩, rfl, rfl⟩, lowered, _, ⟨u, ⟨_, t, params, lowerBody⟩, rfl⟩,
    _, _, ⟨rfl, rfl⟩, _, w, finish, ran⟩ := ran
  exact ⟨info, t, lowered, u, _, w, known, params, lowerBody, rfl, finish, ran⟩

/-- Binding parameters changes nothing but the scopes. -/
theorem bindParams_same {home : Level} :
    ∀ (params : List Source.Binder) (formals : List Access) {s t : Lowering},
      bindParams home params formals s = .ok () t →
      t.supply = s.supply ∧ t.levels = s.levels ∧ t.fragments = s.fragments
  | [], _, _, _, ran => by
    obtain ⟨-, rfl⟩ := pure_ok.mp ran
    exact ⟨rfl, rfl, rfl⟩
  | _ :: _, [], _, _, ran => by
    obtain ⟨-, rfl⟩ := pure_ok.mp ran
    exact ⟨rfl, rfl, rfl⟩
  | _ :: params, _ :: formals, _, _, ran => by
    obtain ⟨_, _, named, ran⟩ := bind_ok.mp ran
    obtain rfl := bindName_ok.mp named
    have same := bindParams_same params formals ran
    exact same

theorem lowerValue_extends (level : Level) (exp : Source.Exp) :
    Extending conv (lowerValue conv level exp) :=
  extending_bind (lowerExp_extends level exp) fun lowered =>
    extending_fresh (grows_asValue lowered)

theorem lowerEffect_extends (level : Level) (exp : Source.Exp) :
    Extending conv (lowerEffect conv level exp) :=
  extending_bind (lowerExp_extends level exp) fun lowered =>
    extending_fresh (grows_asEffect lowered)

/-- The body of one function, from the state in which its group is declared to the state in which
its code is made. -/
theorem extends_body {own : Level} {params : List Source.Binder} {formals : List Access}
    {body : Source.Exp} {lowered : Lowered} {t u : Lowering} (result : Option String)
    (bound : bindParams own params formals s.enter = .ok () t)
    (ran : outsideLoops (lowerExp conv own body) t = .ok lowered u) :
    Extends conv s (u.leave.draw (bodyStm conv result lowered)) := by
  have entered : ExtendsInner conv s.enter t :=
    (extendingInner_bindParams own params formals).ok bound
  have inner := (extending_outsideLoops (lowerExp_extends own body)).ok ran
  exact (entered.trans inner.inner).leave.trans
    ((extending_fresh (grows_bodyStm conv result lowered)).ok (run_fresh _ u.leave))

end Declarations

/-- A program is lowered for its effect, in the outermost level. -/
theorem lowerProgram_ok {program : Source.Exp} (ran : lowerProgram conv program s = .ok () s') :
    ∃ stm t, lowerEffect conv 0 program s = .ok stm t ∧ finishProc conv 0 stm t = .ok () s' := by
  unfold lowerProgram at ran
  exact effect_bind.mp ran

end TreeCode.Lowering
