import Mathlib.Logic.Relation
import TreeCode.Proofs.Lowering.Run
import TreeCode.Proofs.Machine.Frames

/-!
What lowering does to its state, step by step. Every change to the supply, the levels and the
fragments is one of a few steps, whether lowering succeeds or fails. Names in scope and exits of
loops are left as they were found.
-/

namespace TreeCode.Lowering

variable {α β : Type}

/-- One step of lowering. Which names are in scope and which loops can be left is not part of
this. -/
inductive Step (conv : Convention) : Lowering → Lowering → Prop
  | names (s : Lowering) (scopes : List (List (String × Meaning))) (exits : List Label) :
    Step conv s { s with scopes, exits }
  /-- Temporaries and labels are issued. -/
  | issue (s : Lowering) (supply : Supply) (grown : s.supply.Le supply) :
    Step conv s { s with supply }
  | literal (s : Lowering) (label : Label) (text : String) :
    Step conv s { s with fragments := s.fragments ++ [.string label text] }
  /-- A variable is given storage in a level. -/
  | allocate (s : Lowering) (level : Level) (info : LevelInfo) (escapes : Bool)
    (known : s.levels[level]? = some info) :
    Step conv s (s.allocated level info escapes)
  /-- A function is given a label and a level of its own inside another one. -/
  | nest (s : Lowering) (parent : Level) (info : LevelInfo) (name : String) (escapes : List Bool)
    (frame : Frame) (supply : Supply) (known : s.levels[parent]? = some info)
    (made : conv.frameFor (freshLabelFor name s.supply).1 (true :: escapes)
      (freshLabelFor name s.supply).2 = .ok frame supply) :
    Step conv s (s.opened parent frame supply)
  /-- The function of a level is finished. -/
  | finish (s : Lowering) (level : Level) (info : LevelInfo) (body : Tree.Stm)
    (known : s.levels[level]? = some info) :
    Step conv s (s.finished conv level info body)

/-- Any number of steps. -/
abbrev Steps (conv : Convention) : Lowering → Lowering → Prop :=
  Relation.ReflTransGen (Step conv)

/-- Steps that leave names in scope and exits of loops alone. -/
structure Extends (conv : Convention) (s s' : Lowering) : Prop where
  steps : Steps conv s s'
  scopes : s'.scopes = s.scopes
  exits : s'.exits = s.exits

theorem addNames_nil (scopes : List (List (String × Meaning))) : addNames [] scopes = scopes := by
  cases scopes <;> rfl

/-- Names that are brought into a scope later stand in front. -/
theorem addNames_addNames (first second : List (String × Meaning))
    (scopes : List (List (String × Meaning))) :
    addNames second (addNames first scopes) = addNames (second ++ first) scopes := by
  cases scopes with
  | nil => rfl
  | cons scope outer => exact congrArg (· :: outer) (List.append_assoc _ _ _).symm

/-- Steps that may bring names into the innermost scope and change nothing else in scope. -/
structure ExtendsInner (conv : Convention) (s s' : Lowering) : Prop where
  steps : Steps conv s s'
  names : ∃ added, s'.scopes = addNames added s.scopes
  exits : s'.exits = s.exits

theorem Extends.refl (conv : Convention) (s : Lowering) : Extends conv s s :=
  ⟨.refl, rfl, rfl⟩

theorem Extends.trans {conv : Convention} {s t u : Lowering} (first : Extends conv s t)
    (second : Extends conv t u) : Extends conv s u :=
  ⟨first.steps.trans second.steps, second.scopes.trans first.scopes,
    second.exits.trans first.exits⟩

theorem Extends.inner {conv : Convention} {s t : Lowering} (extended : Extends conv s t) :
    ExtendsInner conv s t :=
  ⟨extended.steps, ⟨[], by rw [addNames_nil, extended.scopes]⟩, extended.exits⟩

theorem ExtendsInner.trans {conv : Convention} {s t u : Lowering} (first : ExtendsInner conv s t)
    (second : ExtendsInner conv t u) : ExtendsInner conv s u := by
  obtain ⟨added, names⟩ := first.names
  obtain ⟨later, laterNames⟩ := second.names
  refine ⟨first.steps.trans second.steps, ⟨later ++ added, ?_⟩, second.exits.trans first.exits⟩
  rw [laterNames, names, addNames_addNames]

/-- A computation extends the state and leaves all names as they are. -/
abbrev Extending (conv : Convention) (act : Lower α) : Prop := Within (Extends conv) act

/-- A computation extends the state and may bring names into the innermost scope. -/
abbrev ExtendingInner (conv : Convention) (act : Lower α) : Prop := Within (ExtendsInner conv) act

section Rules

variable {conv : Convention} {act : Lower α} {next : α → Lower β}

theorem extending_pure (a : α) : Extending conv (pure a : Lower α) :=
  fun s => Extends.refl conv s

theorem extending_throw (error : Error) : Extending conv (throw error : Lower α) :=
  fun s => Extends.refl conv s

/-- A computation extends the state if its parts do. -/
theorem extending_bind (first : Extending conv act) (rest : ∀ a, Extending conv (next a)) :
    Extending conv (act >>= next) :=
  within_bind Extends.trans first rest

theorem extendingInner_bind (first : ExtendingInner conv act)
    (rest : ∀ a, ExtendingInner conv (next a)) : ExtendingInner conv (act >>= next) :=
  within_bind ExtendsInner.trans first rest

theorem Extending.inner (extending : Extending conv act) : ExtendingInner conv act :=
  fun s => (extending s).inner

/-- Draws from the supply extend the state. -/
theorem extending_fresh {act : Fresh α} (grows : Grows act) :
    Extending conv (liftM act : Lower α) := by
  intro s
  rw [run_fresh]
  exact ⟨.single (.issue s _ (grows s.supply)), rfl, rfl⟩

theorem steps_draw {act : Fresh α} (grows : Grows act) (s : Lowering) :
    Steps conv s (s.draw act) :=
  .single (.issue s _ (grows s.supply))

/-- A computation that only looks at the state. -/
theorem extending_of_left (same : ∀ s, left (act s) = s) : Extending conv act := by
  intro s
  rw [same s]
  exact Extends.refl conv s

theorem extending_except (act : Except Error α) : Extending conv (liftM act : Lower α) := by
  apply extending_of_left
  intro s
  rw [run_except]
  cases act <;> rfl

theorem extending_meaning (name : String) : Extending conv (meaning? name) :=
  extending_of_left fun _ => rfl

theorem extending_loopExit : Extending conv loopExit? :=
  extending_of_left fun _ => rfl

theorem extending_levelInfo (level : Level) : Extending conv (levelInfo level) := by
  apply extending_of_left
  intro s
  unfold levelInfo
  split <;> rfl

theorem extending_framePointerOf (source target : Level) :
    Extending conv (framePointerOf conv source target) :=
  extending_bind (extending_of_left fun _ => rfl) fun _ => extending_except _

theorem extending_variableAt (access : Access) (declared used : Level) :
    Extending conv (variableAt conv access declared used) :=
  extending_bind (extending_framePointerOf used declared) fun _ => extending_pure _

theorem extending_resolveCallee (level : Level) (func : String) (pos : Source.Pos) :
    Extending conv (resolveCallee conv level func pos) := by
  apply extending_bind (extending_meaning func)
  intro meaning
  cases meaning with
  | none =>
    by_cases known : runtimeLibrary.contains func = true
    · simp only [known, if_true]
      exact extending_pure _
    · simp only [known]
      exact extending_throw _
  | some meaning =>
    cases meaning with
    | «variable» => exact extending_throw _
    | function target label =>
      apply extending_bind (extending_bind (extending_levelInfo target) fun _ => extending_pure _)
      intro home
      cases home with
      | none => exact extending_throw _
      | some home =>
        exact extending_bind (extending_framePointerOf level home) fun _ => extending_pure _

theorem extending_addFragment (label : Label) (text : String) :
    Extending conv (addFragment (.string label text)) :=
  fun s => ⟨.single (.literal s label text), rfl, rfl⟩

theorem extendingInner_bindName (name : String) (meaning : Meaning) :
    ExtendingInner conv (bindName name meaning) := by
  intro s
  rw [run_bindName]
  exact ⟨.single (.names s _ s.exits), ⟨_, rfl⟩, rfl⟩

/-- Names brought into a new scope are gone when it is left. -/
theorem ExtendsInner.leave {s t : Lowering} (inner : ExtendsInner conv s.enter t) :
    Extends conv s t.leave := by
  obtain ⟨added, names⟩ := inner.names
  have entered : Steps conv s s.enter := .single (.names s _ s.exits)
  exact ⟨(entered.trans inner.steps).tail (.names t _ t.exits), congrArg List.tail names,
    inner.exits⟩

/-- What happens inside a scope does not show outside. -/
theorem extending_inScope (inner : ExtendingInner conv act) : Extending conv (inScope act) := by
  intro s
  have moved := inner s.enter
  unfold inScope
  rw [← enter]
  cases ran : act s.enter with
  | ok a t =>
    rw [ran] at moved
    exact moved.leave
  | error error t =>
    rw [ran] at moved
    exact moved.leave

/-- What happens inside a loop leaves the loops around it as they were. -/
theorem extending_inLoop (exit : Label) (inner : Extending conv act) :
    Extending conv (inLoop exit act) := by
  intro s
  have moved := inner { s with exits := exit :: s.exits }
  have entered : Steps conv s { s with exits := exit :: s.exits } :=
    .single (.names s s.scopes _)
  unfold inLoop
  cases ran : act { s with exits := exit :: s.exits } with
  | ok a t =>
    rw [ran] at moved
    exact ⟨(entered.trans moved.steps).tail (.names t t.scopes _), moved.scopes,
      congrArg List.tail moved.exits⟩
  | error error t =>
    rw [ran] at moved
    exact ⟨(entered.trans moved.steps).tail (.names t t.scopes _), moved.scopes,
      congrArg List.tail moved.exits⟩

theorem extending_outsideLoops (inner : Extending conv act) :
    Extending conv (outsideLoops act) := by
  intro s
  have moved := inner { s with exits := [] }
  have entered : Steps conv s { s with exits := [] } := .single (.names s s.scopes _)
  unfold outsideLoops
  cases ran : act { s with exits := [] } with
  | ok a t =>
    rw [ran] at moved
    exact ⟨(entered.trans moved.steps).tail (.names t t.scopes _), moved.scopes, rfl⟩
  | error error t =>
    rw [ran] at moved
    exact ⟨(entered.trans moved.steps).tail (.names t t.scopes _), moved.scopes, rfl⟩

/-- A new variable changes the frame of one level, which keeps its formals. -/
theorem extending_allocateVariable (level : Level) (escapes : Bool) :
    Extending conv (allocateVariable level escapes) := by
  intro s
  cases known : s.levels[level]? with
  | none =>
    rw [run_allocateVariable_none escapes known]
    exact Extends.refl conv s
  | some info =>
    rw [run_allocateVariable escapes known]
    exact ⟨.single (.allocate s level info escapes known), rfl, rfl⟩

/-- A new level comes after those that are there. -/
theorem extends_openLevel {parent own : Level} {name : String} {escapes : List Bool}
    {s s' : Lowering}
    (ran : openLevel conv parent (freshLabelFor name s.supply).1 escapes
      (s.draw (freshLabelFor name)) = .ok own s') : Extends conv s s' := by
  obtain ⟨⟨info, known⟩, -, frame, supply, made, rfl⟩ := openLevel_ok.mp ran
  exact ⟨.single (.nest s parent info name escapes frame supply known made), rfl, rfl⟩

/-- A level that cannot be opened leaves the state as it was. -/
theorem openLevel_error {parent : Level} {name : Label} {escapes : List Bool} {error : Error}
    {s s' : Lowering} (failed : openLevel conv parent name escapes s = .error error s') :
    s' = s := by
  unfold openLevel at failed
  rw [run_bind] at failed
  cases known : s.levels[parent]? with
  | none =>
    rw [run_levelInfo_none known] at failed
    cases failed
    rfl
  | some info =>
    simp only [run_levelInfo known] at failed
    rw [run_bind, run_issue] at failed
    cases made : conv.frameFor name (true :: escapes) s.supply with
    | error error supply =>
      rw [made] at failed
      cases failed
      rw [Convention.frameFor_error made]
    | ok frame supply =>
      rw [made] at failed
      cases failed

/-- A function is given a label and a level, and what is done with them. -/
theorem extendingInner_nest {parent : Level} {name : String} {escapes : List Bool}
    {next : Label → Level → Lower β}
    (rest : ∀ label own, ExtendingInner conv (next label own)) :
    ExtendingInner conv (do
      let label ← freshLabelFor name
      let own ← openLevel conv parent label escapes
      next label own) := by
  intro s
  rw [run_bind, run_fresh]
  simp only
  rw [run_bind]
  cases ran : openLevel conv parent (freshLabelFor name s.supply).1 escapes
      (s.draw (freshLabelFor name)) with
  | ok own t => exact (extends_openLevel ran).inner.trans (rest _ own t)
  | error error t =>
    rw [openLevel_error ran]
    exact ((extending_fresh (grows_freshLabelFor name)).ok (run_fresh _ s)).inner

/-- A finished body becomes a fragment. -/
theorem extending_finishProc (level : Level) (body : Tree.Stm) :
    Extending conv (finishProc conv level body) := by
  intro s
  cases known : s.levels[level]? with
  | none =>
    rw [run_finishProc_none body known]
    exact Extends.refl conv s
  | some info =>
    rw [run_finishProc body known]
    exact ⟨.single (.finish s level info body known), rfl, rfl⟩

theorem extending_formalsOf (level : Level) : Extending conv (formalsOf level) :=
  extending_bind (extending_levelInfo level) fun _ => extending_pure _

/-- Parameters are brought into the innermost scope. -/
theorem extendingInner_bindParams (level : Level) :
    ∀ (params : List Source.Binder) (formals : List Access),
      ExtendingInner conv (bindParams level params formals)
  | [], [] => (extending_pure ()).inner
  | [], _ :: _ => (extending_pure ()).inner
  | _ :: _, [] => (extending_pure ()).inner
  | _ :: params, _ :: formals =>
    extendingInner_bind (extendingInner_bindName _ _) fun _ =>
      extendingInner_bindParams level params formals

/-- Functions are brought into the innermost scope, each with a level of its own. -/
theorem extendingInner_declareFunctions (level : Level) :
    ∀ group : List Source.FunDec, ExtendingInner conv (declareFunctions conv level group) := by
  intro group
  induction group with
  | nil => exact (extending_pure []).inner
  | cons function group carried =>
    obtain ⟨name, _, _, _⟩ := function
    exact extendingInner_nest fun label own =>
      extendingInner_bind (extendingInner_bindName name (.function own label)) fun _ =>
      extendingInner_bind carried fun _ =>
      (extending_pure _).inner

end Rules

section Conversions

theorem grows_asValue (lowered : Lowered) : Grows lowered.asValue := by
  cases lowered with
  | value exp => exact grows_pure _
  | effect stm => exact grows_pure _
  | test op left right =>
    exact grows_bind grows_freshTemp fun _ => grows_bind grows_freshLabel fun _ =>
      grows_bind grows_freshLabel fun _ => grows_pure _

theorem grows_asEffect (lowered : Lowered) : Grows lowered.asEffect := by
  cases lowered with
  | value exp => exact grows_pure _
  | effect stm => exact grows_pure _
  | test op left right => exact grows_bind grows_freshLabel fun _ => grows_pure _

theorem grows_after (stms : List Tree.Stm) (lowered : Lowered) :
    Grows (lowered.after stms) := by
  cases stms with
  | nil => exact grows_pure _
  | cons stm stms =>
    cases lowered with
    | value exp => exact grows_bind (grows_asValue _) fun _ => grows_pure _
    | effect stm => exact grows_pure _
    | test op left right => exact grows_bind (grows_asValue _) fun _ => grows_pure _

theorem grows_bodyStm (conv : Convention) (result : Option String) (body : Lowered) :
    Grows (bodyStm conv result body) := by
  cases result with
  | none => exact grows_asEffect body
  | some => exact grows_bind (grows_asValue body) fun _ => grows_pure _

end Conversions

end TreeCode.Lowering
