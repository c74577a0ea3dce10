import TreeCode.Proofs.Lowering.Links
import TreeCode.Proofs.Machine.Renaming

/-!
Lowering does not depend on names: from a supply with other names it mirrors lowering from the
supply that it started with. Only the names of the source program decide anything, and those are
the same in both runs.
-/

namespace TreeCode

variable {α β : Type} {ρ : Renaming} {last : Supply} {conv : Convention}

/-- A level under other names. -/
def LevelInfo.rename (ρ : Renaming) (info : LevelInfo) : LevelInfo :=
  { info with frame := info.frame.rename ρ }

/-- A fragment under other names. -/
def Fragment.rename (ρ : Renaming) : Fragment → Fragment
  | proc level body => proc level (body.rename ρ)
  | string label text => string (ρ.label label) text

/-- A meaning under other names. -/
def Meaning.rename (ρ : Renaming) : Meaning → Meaning
  | «variable» level access => «variable» level (access.rename ρ)
  | function level label => function level (ρ.label label)

/-- A lowered expression under other names. -/
def Lowered.rename (ρ : Renaming) : Lowered → Lowered
  | value exp => value (exp.rename ρ)
  | effect stm => effect (stm.rename ρ)
  | test op left right => test op (left.rename ρ) (right.rename ρ)

/-- The second state of lowering is the first one under other names. -/
structure Lowering.Like (ρ : Renaming) (last : Supply) (s t : Lowering) : Prop where
  supply : Paired ρ last s.supply t.supply
  levels : t.levels = s.levels.map (LevelInfo.rename ρ)
  fragments : t.fragments = s.fragments.map (Fragment.rename ρ)
  scopes : t.scopes = s.scopes.map (List.map (Prod.map id (Meaning.rename ρ)))
  exits : t.exits = s.exits.map ρ.label

instance : Mirrored Lowering where
  supply := Lowering.supply
  withSupply s supply := { s with supply }
  supply_withSupply _ _ := rfl
  Like := Lowering.Like
  paired like := like.supply
  redrawn like after := { like with supply := after }

namespace Lowering

section Operations

/-- A draw of a renamed supply is the renamed draw. -/
theorem mirrors_fresh {out : α → β} {first : Fresh α} {second : Fresh β}
    (mirrors : FreshMirrors ρ last out first second) :
    Mirrors ρ last out (liftM first : Lower α) (liftM second) :=
  mirrors_draw mirrors (run_fresh first) (run_fresh second)

theorem lift_eq_inside (act : Issue α) :
    (liftM act : Lower α) = inside Lowering.supply (fun s supply => { s with supply }) act := by
  funext s
  unfold inside
  rw [run_issue]
  cases act s.supply <;> rfl

theorem mirrors_lift {out : α → β} {first : Issue α} {second : Issue β}
    (mirrors : Mirrors ρ last out first second) :
    Mirrors ρ last out (liftM first : Lower α) (liftM second) := by
  rw [lift_eq_inside, lift_eq_inside]
  refine mirrors_inside mirrors ?_ ?_ (fun _ => rfl) (fun _ _ => rfl)
  · intro s t like
    exact like.supply
  · intro s t u v like after
    exact { like with supply := after }

theorem mirrors_except {out : α → β} {first : Except Error α} {second : Except Error β}
    (same : second = renameOutcome ρ out first) :
    Mirrors ρ last out (liftM first : Lower α) (liftM second) := by
  rw [same]
  cases first with
  | ok a => exact mirrors_pure rfl
  | error error => exact mirrors_throw rfl

/-- A look-up in a renamed scope. -/
theorem lookup_renamed (name : String) (scope : List (String × Meaning)) :
    (scope.map (Prod.map id (Meaning.rename ρ))).lookup name =
      (scope.lookup name).map (Meaning.rename ρ) := by
  induction scope with
  | nil => rfl
  | cons entry scope ih =>
    rw [List.map_cons, List.lookup_cons, List.lookup_cons, ih]
    simp only [Prod.map_fst, Prod.map_snd, id_eq]
    cases name == entry.1 <;> rfl

/-- What a name stands for, renamed. -/
theorem mirrors_meaning (name : String) :
    Mirrors ρ last (Option.map (Meaning.rename ρ)) (meaning? name) (meaning? name) := by
  refine mirrors_of_same (fun _ => rfl) ?_
  intro s t like
  have same : (t.scopes.findSome? fun scope => scope.lookup name) =
      (s.scopes.findSome? fun scope => scope.lookup name).map (Meaning.rename ρ) := by
    rw [like.scopes, List.findSome?_map, List.map_findSome?]
    simp only [Function.comp_def, lookup_renamed]
  change Reflects ρ last _ (.ok _ s) (.ok _ t)
  rw [same]
  exact .ok like

theorem mirrors_loopExit : Mirrors ρ last (Option.map ρ.label) loopExit? loopExit? := by
  refine mirrors_of_same (fun _ => rfl) ?_
  intro s t like
  have same : t.exits.head? = s.exits.head?.map ρ.label := by
    rw [like.exits, List.head?_map]
  change Reflects ρ last _ (.ok _ s) (.ok _ t)
  rw [same]
  exact .ok like

theorem mirrors_levelInfo (level : Level) :
    Mirrors ρ last (LevelInfo.rename ρ) (levelInfo level) (levelInfo level) := by
  refine mirrors_of_same ?_ ?_
  · intro s
    unfold levelInfo
    split <;> rfl
  · intro s t like
    have same : t.levels[level]? = s.levels[level]?.map (LevelInfo.rename ρ) := by
      rw [like.levels, List.getElem?_map]
    cases known : s.levels[level]? with
    | none =>
      rw [known] at same
      rw [run_levelInfo_none known, run_levelInfo_none same]
      exact .error like
    | some info =>
      rw [known] at same
      rw [run_levelInfo known, run_levelInfo same]
      exact .ok like

theorem mirrors_formalsOf (level : Level) :
    Mirrors ρ last (List.map (Access.rename ρ)) (formalsOf level) (formalsOf level) :=
  mirrors_bind (mirrors_levelInfo level) fun _ => mirrors_pure rfl

theorem mirrors_frameOf (level : Level) :
    Mirrors ρ last (Frame.rename ρ) (frameOf level) (frameOf level) :=
  mirrors_bind (mirrors_levelInfo level) fun _ => mirrors_pure rfl

theorem mirrors_parentOf (level : Level) :
    Mirrors ρ last id (parentOf level) (parentOf level) :=
  mirrors_bind (mirrors_levelInfo level) fun _ => mirrors_pure rfl

theorem mirrors_addFragment (fragment : Fragment) :
    Mirrors ρ last id (addFragment fragment) (addFragment (fragment.rename ρ)) := by
  refine mirrors_modify (fun _ => rfl) ?_
  intro s t like
  refine { like with fragments := ?_ }
  rw [like.fragments, List.map_append]
  rfl

theorem mirrors_bindName (name : String) (meaning : Meaning) :
    Mirrors ρ last id (bindName name meaning) (bindName name (meaning.rename ρ)) := by
  refine mirrors_of_same (fun s => by rw [run_bindName]; rfl) ?_
  intro s t like
  rw [run_bindName, run_bindName]
  refine .ok { like with scopes := ?_ }
  rw [bound, bound, like.scopes]
  cases s.scopes <;> rfl

theorem mirrors_addLevel (info : LevelInfo) :
    Mirrors ρ last id (addLevel info) (addLevel (info.rename ρ)) := by
  refine mirrors_of_same (fun _ => rfl) ?_
  intro s t like
  have same : t.levels.length = s.levels.length := by rw [like.levels, List.length_map]
  unfold addLevel
  rw [same]
  refine .ok { like with levels := ?_ }
  rw [like.levels, List.map_append]
  rfl

/-- A level is opened with the renamed frame. -/
theorem mirrors_openLevel (keeps : ρ.Keeps conv) (parent : Level) (name : Label)
    (escapes : List Bool) :
    Mirrors ρ last id (openLevel conv parent name escapes)
      (openLevel conv parent (ρ.label name) escapes) :=
  mirrors_bind (mirrors_levelInfo parent) fun _ =>
    mirrors_bind (mirrors_lift (mirrors_frameFor keeps name (true :: escapes))) fun _ =>
    mirrors_addLevel _

/-- A variable gets renamed storage. -/
theorem mirrors_allocateVariable (level : Level) (escapes : Bool) :
    Mirrors ρ last (Access.rename ρ) (allocateVariable level escapes)
      (allocateVariable level escapes) := by
  refine mirrors_bind (mirrors_levelInfo level) fun info => ?_
  refine mirrors_bind (mirrors_fresh (mirrors_allocate info.frame escapes)) fun made => ?_
  refine mirrors_bind (mirrors_modify (fun _ => rfl) ?_) fun _ => mirrors_pure rfl
  intro s t like
  refine { like with levels := ?_ }
  rw [like.levels, List.map_set]
  rfl

theorem formals_rename {frame : Frame} {link : Access} {others : List Access}
    (formals : frame.formals = link :: others) :
    (frame.rename ρ).formals = link.rename ρ :: others.map (Access.rename ρ) :=
  congrArg (List.map (Access.rename ρ)) formals

/-- Following links decides nothing by names. -/
theorem climb_rename (levels : List LevelInfo) (target : Level) (fp : Tree.Exp)
    (current : Level) :
    climb (levels.map (LevelInfo.rename ρ)) target (fp.rename ρ) current =
      renameOutcome ρ (Tree.Exp.rename ρ) (climb levels target fp current) := by
  fun_induction climb levels target fp current with
  | case1 fp =>
    rw [climb, if_pos rfl]
    rfl
  | case2 fp current other unknown =>
    rw [climb, if_neg other, List.getElem?_map, unknown]
    rfl
  | case3 fp current other info known link others parent around formals smaller ih =>
    rw [climb, if_neg other, List.getElem?_map, known]
    simp only [Option.map_some, LevelInfo.rename, formals_rename formals, around, smaller, if_true]
    rw [← ih, Access.rename_value]
  | case4 fp current other info known link others parent around formals larger =>
    rw [climb, if_neg other, List.getElem?_map, known]
    simp only [Option.map_some, LevelInfo.rename, formals_rename formals, around, larger, if_false]
    rfl
  | case5 fp current other info known unlinked =>
    rw [climb, if_neg other, List.getElem?_map, known]
    cases formals : info.frame.formals with
    | nil =>
      have empty : (info.frame.rename ρ).formals = [] :=
        congrArg (List.map (Access.rename ρ)) formals
      simp only [Option.map_some, LevelInfo.rename, empty]
      rfl
    | cons link others =>
      cases around : info.parent with
      | none =>
        simp only [Option.map_some, LevelInfo.rename, formals_rename formals, around]
        rfl
      | some parent => exact absurd around (unlinked link others parent formals)

/-- The way along the static links does not change but for the frame pointer, which is kept. -/
theorem mirrors_framePointerOf (keeps : ρ.Keeps conv) (source target : Level) :
    Mirrors ρ last (Tree.Exp.rename ρ) (framePointerOf conv source target)
      (framePointerOf conv source target) := by
  have runs : ∀ s, framePointerOf conv source target s =
      (liftM (climb s.levels target (.temp conv.framePointer) source) : Lower Tree.Exp) s :=
    fun _ => rfl
  constructor
  · intro s
    rw [runs]
    cases climb s.levels target (.temp conv.framePointer) source <;> exact Supply.Le.refl _
  · intro s t like within
    have climbs : climb t.levels target (.temp conv.framePointer) source =
        renameOutcome ρ (Tree.Exp.rename ρ)
          (climb s.levels target (.temp conv.framePointer) source) := by
      rw [like.levels, ← climb_rename, Tree.Exp.rename, keeps.framePointer]
    rw [runs] at within
    rw [runs, runs]
    exact (mirrors_except climbs).mirrored s t like within

theorem mirrors_variableAt (keeps : ρ.Keeps conv) (access : Access) (declared used : Level) :
    Mirrors ρ last (Tree.Exp.rename ρ) (variableAt conv access declared used)
      (variableAt conv (access.rename ρ) declared used) :=
  mirrors_bind (mirrors_framePointerOf keeps used declared) fun _ => mirrors_pure (by simp)

/-- A finished body is the renamed one. -/
theorem mirrors_finishProc (keeps : ρ.Keeps conv) (level : Level) (body : Tree.Stm) :
    Mirrors ρ last id (finishProc conv level body) (finishProc conv level (body.rename ρ)) :=
  mirrors_bind (mirrors_frameOf level) fun frame =>
    mirrors_bind (mirrors_fresh (mirrors_wrapBody keeps frame body)) fun body =>
    mirrors_addFragment (.proc level body)

theorem inScope_eq_inside (act : Lower α) :
    inScope act = inside (fun s => { s with scopes := [] :: s.scopes })
      (fun _ s => { s with scopes := s.scopes.tail }) act := by
  funext s
  unfold inScope inside
  cases act { s with scopes := [] :: s.scopes } <;> rfl

/-- Scopes are entered and left on both sides. -/
theorem mirrors_inScope {out : α → β} {act : Lower α} {act' : Lower β}
    (inner : Mirrors ρ last out act act') : Mirrors ρ last out (inScope act) (inScope act') := by
  rw [inScope_eq_inside, inScope_eq_inside]
  refine mirrors_inside inner ?_ ?_ (fun _ => rfl) (fun _ _ => rfl)
  · intro s t like
    exact { like with scopes := congrArg ([] :: ·) like.scopes }
  · intro s t u v _ like
    refine { like with scopes := ?_ }
    rw [like.scopes, List.map_tail]

theorem inLoop_eq_inside (exit : Label) (act : Lower α) :
    inLoop exit act = inside (fun s => { s with exits := exit :: s.exits })
      (fun _ s => { s with exits := s.exits.tail }) act := by
  funext s
  unfold inLoop inside
  cases act { s with exits := exit :: s.exits } <;> rfl

theorem mirrors_inLoop {out : α → β} {act : Lower α} {act' : Lower β} (exit : Label)
    (inner : Mirrors ρ last out act act') :
    Mirrors ρ last out (inLoop exit act) (inLoop (ρ.label exit) act') := by
  rw [inLoop_eq_inside, inLoop_eq_inside]
  refine mirrors_inside inner ?_ ?_ (fun _ => rfl) (fun _ _ => rfl)
  · intro s t like
    exact { like with exits := congrArg (ρ.label exit :: ·) like.exits }
  · intro s t u v _ like
    refine { like with exits := ?_ }
    rw [like.exits, List.map_tail]

theorem outsideLoops_eq_inside (act : Lower α) :
    outsideLoops act = inside (fun s => { s with exits := [] })
      (fun outer s => { s with exits := outer.exits }) act := by
  funext s
  unfold outsideLoops inside
  cases act { s with exits := [] } <;> rfl

theorem mirrors_outsideLoops {out : α → β} {act : Lower α} {act' : Lower β}
    (inner : Mirrors ρ last out act act') :
    Mirrors ρ last out (outsideLoops act) (outsideLoops act') := by
  rw [outsideLoops_eq_inside, outsideLoops_eq_inside]
  refine mirrors_inside inner ?_ ?_ (fun _ => rfl) (fun _ _ => rfl)
  · intro s t like
    exact { like with exits := rfl }
  · intro s t u v outer like
    exact { like with exits := outer.exits }

end Operations

end Lowering

end TreeCode
