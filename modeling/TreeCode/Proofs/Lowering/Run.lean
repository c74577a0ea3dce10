import TreeCode.Lowering.Program
import TreeCode.Proofs.Outcome

/-!
How lowering runs: what the operations of its monad do to a state, and how a computation that
succeeds is taken apart into its steps.
-/

namespace TreeCode.Lowering

variable {α β : Type}

/-- The state after `act` has drawn on the supply. -/
def draw (s : Lowering) (act : Fresh α) : Lowering := { s with supply := (act s.supply).2 }

@[simp] theorem draw_supply (s : Lowering) (act : Fresh α) :
    (s.draw act).supply = (act s.supply).2 := rfl

@[simp] theorem draw_levels (s : Lowering) (act : Fresh α) : (s.draw act).levels = s.levels := rfl

@[simp] theorem draw_fragments (s : Lowering) (act : Fresh α) :
    (s.draw act).fragments = s.fragments := rfl

@[simp] theorem draw_scopes (s : Lowering) (act : Fresh α) : (s.draw act).scopes = s.scopes := rfl

@[simp] theorem draw_exits (s : Lowering) (act : Fresh α) : (s.draw act).exits = s.exits := rfl

/-- A draw from the supply cannot fail. -/
theorem run_fresh (act : Fresh α) (s : Lowering) :
    (liftM act : Lower α) s = .ok (act s.supply).1 (s.draw act) := rfl

theorem run_except (act : Except Error α) (s : Lowering) :
    (liftM act : Lower α) s =
      match act with
      | .ok value => .ok value s
      | .error error => .error error s := rfl

/-- What a draw gives, and the state after it. -/
theorem fresh_ok {act : Fresh α} {b : α} {s s' : Lowering} :
    (liftM act : Lower α) s = .ok b s' ↔ (act s.supply).1 = b ∧ s.draw act = s' := by
  rw [run_fresh]
  simp

theorem except_ok {act : Except Error α} {b : α} {s s' : Lowering} :
    (liftM act : Lower α) s = .ok b s' ↔ act = .ok b ∧ s = s' := by
  rw [run_except]
  cases act <;> simp

/-- A computation that changes the state of another one at its end. -/
theorem restored_ok {result : EStateM.Result Error Lowering α} {restore : Lowering → Lowering}
    {b : α} {s' : Lowering} :
    (match result with
      | .ok value t => EStateM.Result.ok value (restore t)
      | .error error t => .error error (restore t)) = .ok b s' ↔
      ∃ t, result = .ok b t ∧ restore t = s' := by
  cases result with
  | ok a t =>
    constructor
    · intro same
      cases same
      exact ⟨t, rfl, rfl⟩
    · rintro ⟨_, same, rfl⟩
      cases same
      rfl
  | error error t => simp

/-- The state with a new scope. -/
def enter (s : Lowering) : Lowering := { s with scopes := [] :: s.scopes }

/-- The state without its innermost scope. -/
def leave (s : Lowering) : Lowering := { s with scopes := s.scopes.tail }

/-- A computation in a scope runs in the state with one more scope, which is left in the end. -/
theorem inScope_ok {act : Lower α} {b : α} {s s' : Lowering} :
    inScope act s = .ok b s' ↔ ∃ t, act s.enter = .ok b t ∧ t.leave = s' :=
  restored_ok

/-- The state with other exits of loops. -/
def withExits (s : Lowering) (exits : List Label) : Lowering := { s with exits }

/-- A computation in a loop runs with the exit of the loop in front of the others. -/
theorem inLoop_ok {exit : Label} {act : Lower α} {b : α} {s s' : Lowering} :
    inLoop exit act s = .ok b s' ↔
      ∃ t, act (s.withExits (exit :: s.exits)) = .ok b t ∧ t.withExits t.exits.tail = s' :=
  restored_ok

/-- A computation outside of loops runs without exits, and they are restored after it. -/
theorem outsideLoops_ok {act : Lower α} {b : α} {s s' : Lowering} :
    outsideLoops act s = .ok b s' ↔
      ∃ t, act (s.withExits []) = .ok b t ∧ t.withExits s.exits = s' :=
  restored_ok

theorem run_levelInfo {level : Level} {info : LevelInfo} {s : Lowering}
    (known : s.levels[level]? = some info) : levelInfo level s = .ok info s := by
  unfold levelInfo
  rw [known]

theorem run_formalsOf {level : Level} {info : LevelInfo} {s : Lowering}
    (known : s.levels[level]? = some info) : formalsOf level s = .ok info.frame.formals s := by
  unfold formalsOf
  rw [run_bind, run_levelInfo known]
  rfl

theorem run_levelInfo_none {level : Level} {s : Lowering} (unknown : s.levels[level]? = none) :
    levelInfo level s = .error (.unknownLevel level) s := by
  unfold levelInfo
  rw [unknown]

theorem levelInfo_ok {level : Level} {info : LevelInfo} {s s' : Lowering} :
    levelInfo level s = .ok info s' ↔ s.levels[level]? = some info ∧ s = s' := by
  cases known : s.levels[level]? with
  | none => simp [run_levelInfo_none known]
  | some => simp [run_levelInfo known]

/-- The state in which a variable of `level` has been given storage. -/
def allocated (s : Lowering) (level : Level) (info : LevelInfo) (escapes : Bool) : Lowering :=
  { s with
    supply := (info.frame.allocate escapes s.supply).2
    levels := s.levels.set level { info with frame := (info.frame.allocate escapes s.supply).1.2 } }

theorem run_allocateVariable {level : Level} {info : LevelInfo} {s : Lowering} (escapes : Bool)
    (known : s.levels[level]? = some info) :
    allocateVariable level escapes s =
      .ok (info.frame.allocate escapes s.supply).1.1 (s.allocated level info escapes) := by
  unfold allocateVariable
  rw [run_bind, run_levelInfo known]
  rfl

theorem run_allocateVariable_none {level : Level} {s : Lowering} (escapes : Bool)
    (unknown : s.levels[level]? = none) :
    allocateVariable level escapes s = .error (.unknownLevel level) s := by
  unfold allocateVariable
  rw [run_bind, run_levelInfo_none unknown]

/-- A variable gets storage in the frame of a level that is there. -/
theorem allocateVariable_ok {level : Level} {escapes : Bool} {access : Access}
    {s s' : Lowering} :
    allocateVariable level escapes s = .ok access s' ↔
      ∃ info, s.levels[level]? = some info ∧
        (info.frame.allocate escapes s.supply).1.1 = access ∧
        s.allocated level info escapes = s' := by
  cases known : s.levels[level]? with
  | none => simp [run_allocateVariable_none escapes known]
  | some => simp [run_allocateVariable escapes known]

/-- Names brought into the innermost scope; without a scope they are lost. -/
def addNames (added : List (String × Meaning)) :
    List (List (String × Meaning)) → List (List (String × Meaning))
  | [] => []
  | scope :: outer => (added ++ scope) :: outer

/-- The state in which `name` has a meaning in the innermost scope. -/
def bound (s : Lowering) (name : String) (meaning : Meaning) : Lowering :=
  { s with scopes := addNames [(name, meaning)] s.scopes }

theorem run_bindName (name : String) (meaning : Meaning) (s : Lowering) :
    bindName name meaning s = .ok () (s.bound name meaning) := by
  obtain ⟨supply, levels, fragments, scopes, exits⟩ := s
  cases scopes <;> rfl

theorem bindName_ok {name : String} {meaning : Meaning} {s s' : Lowering} {done : Unit} :
    bindName name meaning s = .ok done s' ↔ s.bound name meaning = s' := by
  rw [run_bindName]
  simp

/-- A name that is bound comes before all others. -/
theorem flatten_bound {s : Lowering} (name : String) (meaning : Meaning)
    (someScope : s.scopes ≠ []) :
    (s.bound name meaning).scopes.flatten = (name, meaning) :: s.scopes.flatten := by
  obtain ⟨supply, levels, fragments, scopes, exits⟩ := s
  cases scopes with
  | nil => exact absurd rfl someScope
  | cons inner outer => rfl

theorem addNames_ne_nil (added : List (String × Meaning))
    {scopes : List (List (String × Meaning))} (someScope : scopes ≠ []) :
    addNames added scopes ≠ [] := by
  cases scopes with
  | nil => exact absurd rfl someScope
  | cons inner outer => exact List.cons_ne_nil _ _

theorem scopes_bound {s : Lowering} (name : String) (meaning : Meaning)
    (someScope : s.scopes ≠ []) : (s.bound name meaning).scopes ≠ [] :=
  addNames_ne_nil _ someScope

theorem run_issue (act : Issue α) (s : Lowering) :
    (liftM act : Lower α) s =
      match act s.supply with
      | .ok value supply => .ok value { s with supply }
      | .error error supply => .error error { s with supply } := rfl

/-- The state in which a level with the given frame has been opened inside `parent`. -/
def opened (s : Lowering) (parent : Level) (frame : Frame) (supply : Supply) : Lowering :=
  { s with supply, levels := s.levels ++ [{ frame, parent := some parent }] }

/-- A level is opened inside one that is there, if its frame can be laid out; it gets the next
number. -/
theorem openLevel_ok {conv : Convention} {parent own : Level} {name : Label}
    {escapes : List Bool} {s s' : Lowering} :
    openLevel conv parent name escapes s = .ok own s' ↔
      (∃ info, s.levels[parent]? = some info) ∧ own = s.levels.length ∧
        ∃ frame supply, conv.frameFor name (true :: escapes) s.supply = .ok frame supply ∧
          s.opened parent frame supply = s' := by
  unfold openLevel
  rw [run_bind]
  cases known : s.levels[parent]? with
  | none => simp [run_levelInfo_none known]
  | some info =>
    simp only [run_levelInfo known]
    rw [run_bind, run_issue]
    cases made : conv.frameFor name (true :: escapes) s.supply with
    | error error supply => simp
    | ok frame supply =>
      change EStateM.Result.ok s.levels.length (s.opened parent frame supply) = _ ↔ _
      constructor
      · intro same
        cases same
        exact ⟨⟨info, rfl⟩, rfl, frame, supply, rfl, rfl⟩
      · rintro ⟨_, rfl, _, _, same, rfl⟩
        cases same
        rfl

/-- The state in which the function of `level` is finished. -/
def finished (s : Lowering) (conv : Convention) (level : Level) (info : LevelInfo)
    (body : Tree.Stm) : Lowering :=
  { s with
    supply := (conv.wrapBody info.frame body s.supply).2
    fragments := s.fragments ++ [.proc level (conv.wrapBody info.frame body s.supply).1] }

theorem run_finishProc {conv : Convention} {level : Level} {info : LevelInfo} {s : Lowering}
    (body : Tree.Stm) (known : s.levels[level]? = some info) :
    finishProc conv level body s = .ok () (s.finished conv level info body) := by
  unfold finishProc frameOf
  rw [run_bind, run_bind, run_levelInfo known]
  rfl

theorem run_finishProc_none {conv : Convention} {level : Level} {s : Lowering}
    (body : Tree.Stm) (unknown : s.levels[level]? = none) :
    finishProc conv level body s = .error (.unknownLevel level) s := by
  unfold finishProc frameOf
  rw [run_bind, run_bind, run_levelInfo_none unknown]

/-- A body is finished for a level that is there. -/
theorem finishProc_ok {conv : Convention} {level : Level} {body : Tree.Stm} {s s' : Lowering} :
    finishProc conv level body s = .ok () s' ↔
      ∃ info, s.levels[level]? = some info ∧ s.finished conv level info body = s' := by
  cases known : s.levels[level]? with
  | none => simp [run_finishProc_none body known]
  | some => simp [run_finishProc body known]

end TreeCode.Lowering
