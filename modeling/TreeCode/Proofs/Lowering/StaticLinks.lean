import TreeCode.Proofs.Lowering.Nesting
import TreeCode.Proofs.Lowering.Success
import TreeCode.Proofs.Tree.Words

/-!
Frames found through static links. Whatever was asked of lowering before, the levels form a tree:
each but the outermost lies inside one that was opened earlier. From a level exactly the levels
around it can be reached, and while the program runs the address that is computed on the way is
the frame pointer of the level reached.
-/

namespace TreeCode.Lowering

open Tree (Model State)

variable {V W : Type} {conv : Convention} {levels levels' : List LevelInfo}
  {target level source parent : Level} {info : LevelInfo} {s : Lowering}

section Operations

/-- Something that lowering can be asked to do. -/
inductive Operation where
  | openLevel (parent : Level) (name : Label) (escapes : List Bool)
  | allocateVariable (level : Level) (escapes : Bool)
  | lowerExp (level : Level) (exp : Source.Exp)
  | finishProc (level : Level) (body : Tree.Stm)
  | lowerProgram (program : Source.Exp)

/-- The state after an operation, whether it succeeds or fails. -/
def Operation.run (conv : Convention) (s : Lowering) : Operation → Lowering
  | openLevel parent name escapes => left (Lowering.openLevel conv parent name escapes s)
  | allocateVariable level escapes => left (Lowering.allocateVariable level escapes s)
  | lowerExp level exp => left (Lowering.lowerExp conv level exp s)
  | finishProc level body => left (Lowering.finishProc conv level body s)
  | lowerProgram program => left (Lowering.lowerProgram conv program s)

/-- The state after one operation after another. -/
def Operation.runAll (conv : Convention) (s : Lowering) (operations : List Operation) : Lowering :=
  operations.foldl (run conv) s

/-- The state after operations from the start on. -/
def reached (conv : Convention) (entry : Label) (supply : Supply) (operations : List Operation) :
    Lowering :=
  Operation.runAll conv (start conv entry supply) operations

/-- The levels form a tree: all but the first one lie inside an earlier one, where they find their
static link. -/
structure Rooted (conv : Convention) (levels : List LevelInfo) : Prop extends
    Nested conv levels where
  outermost : ∀ (level : Level) (info : LevelInfo), levels[level]? = some info →
    (info.parent = none ↔ level = 0)

/-- The outermost level is the root. -/
theorem rooted_start (conv : Convention) (entry : Label) (supply : Supply) :
    Rooted conv (start conv entry supply).levels := by
  refine ⟨nested_start conv entry supply, ?_⟩
  intro level info known
  cases level with
  | zero =>
    cases known
    exact iff_of_true rfl rfl
  | succ level => cases known

theorem Grown.rooted (grown : Grown conv levels levels') (rooted : Rooted conv levels) :
    Rooted conv levels' := by
  refine ⟨grown.nested rooted.toNested, ?_⟩
  intro level info present
  rcases grown level info present with ⟨held, known, kept⟩ | ⟨_, ⟨parent, inside, smaller⟩, _⟩
  · rw [kept.parent]
    exact rooted.outermost level held known
  · refine iff_of_false ?_ (Nat.ne_of_gt (Nat.zero_lt_of_lt smaller))
    rw [inside]
    exact Option.some_ne_none parent

theorem Steps.rooted {t : Lowering} (steps : Steps conv s t) (rooted : Rooted conv s.levels) :
    Rooted conv t.levels := by
  induction steps with
  | refl => exact rooted
  | tail _ step carried => exact step.grown.rooted carried

/-- Opening a level adds it below the level that it is opened from. -/
theorem grown_openLevel (parent : Level) (name : Label) (escapes : List Bool) (s : Lowering) :
    Grown conv s.levels (left (openLevel conv parent name escapes s)).levels := by
  cases ran : openLevel conv parent name escapes s with
  | error error t =>
    rw [openLevel_error ran]
    exact Grown.refl conv s.levels
  | ok own t =>
    obtain ⟨⟨info, known⟩, -, frame, supply, made, rfl⟩ := openLevel_ok.mp ran
    exact grown_opened known made

theorem Operation.rooted (operation : Operation) (rooted : Rooted conv s.levels) :
    Rooted conv (operation.run conv s).levels := by
  cases operation with
  | openLevel parent name escapes => exact (grown_openLevel parent name escapes s).rooted rooted
  | allocateVariable level escapes =>
    exact (extending_allocateVariable level escapes s).steps.rooted rooted
  | lowerExp level exp => exact (lowerExp_extends level exp s).steps.rooted rooted
  | finishProc level body => exact (extending_finishProc level body s).steps.rooted rooted
  | lowerProgram program => exact (lowerProgram_extends conv program s).steps.rooted rooted

theorem Operation.rooted_runAll :
    ∀ (operations : List Operation) {s : Lowering}, Rooted conv s.levels →
      Rooted conv (runAll conv s operations).levels
  | [], _, rooted => rooted
  | operation :: operations, _, rooted => rooted_runAll operations (operation.rooted rooted)

theorem rooted_reached (conv : Convention) (entry : Label) (supply : Supply)
    (operations : List Operation) : Rooted conv (reached conv entry supply operations).levels :=
  Operation.rooted_runAll operations (rooted_start conv entry supply)

end Operations

section Climbing

/-- Levels that are not around a level cannot be reached from it. -/
theorem Rooted.climb_outside (rooted : Rooted conv levels) (known : level < levels.length)
    (outside : ¬ Encloses levels target level) (fp : Tree.Exp) :
    climb levels target fp level = .error (.unknownLevel target) := by
  induction level using Nat.strongRecOn generalizing fp with
  | ind level carried =>
    have away : level ≠ target := by
      rintro rfl
      exact outside .here
    obtain ⟨info, present⟩ : ∃ info, levels[level]? = some info :=
      ⟨_, List.getElem?_eq_getElem known⟩
    cases around : info.parent with
    | none =>
      rw [climb]
      simp [away, present, around]
    | some parent =>
      have smaller := rooted.later level info parent present around
      rw [rooted.climb_inside present around away]
      apply carried parent smaller (Nat.lt_trans smaller known)
      intro inside
      exact outside (.inside present around inside)

variable (M : Model V W) (σ : State V W)

/-- The value of a static link is what the frame holds two words above its pointer. -/
theorem eval_linkAt {fp : Tree.Exp} {v : V} (pointer : M.eval fp σ = (v, σ)) :
    M.eval (linkAt conv fp) σ =
      (M.load σ.world (M.binop .plus v (M.const (2 * conv.wordSize))), σ) := by
  simp [linkAt, Model.eval, pointer]

/-- There are activations of all levels from `source` outwards to `target`, with the given frame
pointers: that of `source` is in its register, and each activation inside another one on this way
keeps the frame pointer of the other one in its static link. -/
structure Activated (conv : Convention) (levels : List LevelInfo) (target source : Level)
    (frame : Level → V) : Prop where
  pointer : σ.temps conv.framePointer = frame source
  links : ∀ (level : Level) (info : LevelInfo) (parent : Level), levels[level]? = some info →
    info.parent = some parent → Encloses levels level source → Encloses levels target parent →
    M.load σ.world (M.binop .plus (frame level) (M.const (2 * conv.wordSize))) = frame parent

variable {M σ} {frame : Level → V}

/-- Static links lead from a frame to the one of the enclosing level. -/
theorem Nested.eval_linksUp (nested : Nested conv levels) (inside : Encloses levels target source)
    {fp : Tree.Exp} (pointer : M.eval fp σ = (frame source, σ))
    (links : ∀ (level : Level) (info : LevelInfo) (parent : Level), levels[level]? = some info →
      info.parent = some parent → Encloses levels level source → Encloses levels target parent →
      M.load σ.world (M.binop .plus (frame level) (M.const (2 * conv.wordSize))) =
        frame parent) :
    M.eval (linksUp conv (depth levels source - depth levels target) fp) σ =
      (frame target, σ) := by
  induction inside generalizing fp with
  | here =>
    rw [Nat.sub_self]
    exact pointer
  | @inside level parent info known around rest carried =>
    have shallower := nested.depth_le rest
    rw [nested.depth_inside known around, Nat.succ_sub shallower, ← linksUp_linkAt]
    apply carried
    · rw [eval_linkAt M σ pointer, links level info parent known around .here rest]
    · intro other held above present inside' further
      exact links other held above present inside' (further.trans (.inside known around .here))

end Climbing

/-- How the frame of `target` is found from `source`. -/
structure Found (conv : Convention) (s : Lowering) (source target : Level) : Prop where
  /-- It is found exactly if `target` is `source` or a level around it. -/
  found : (∃ fp, framePointerOf conv source target s = .ok fp s) ↔ Encloses s.levels target source
  missing : ¬ Encloses s.levels target source →
    framePointerOf conv source target s = .error (.unknownLevel target) s
  /-- One static link is loaded for each level in between. -/
  address : Encloses s.levels target source → framePointerOf conv source target s =
    .ok (linksUp conv (depth s.levels source - depth s.levels target) (.temp conv.framePointer)) s
  /-- The address is that of the activation of `target`. -/
  frame : ∀ {V W : Type} {M : Model V W} {σ : State V W} {frame : Level → V} (fp : Tree.Exp),
    framePointerOf conv source target s = .ok fp s →
    Activated M σ conv s.levels target source frame → M.eval fp σ = (frame target, σ)
  /-- A variable in the frame of `target` is the word at its distance from there. -/
  value : ∀ offset : Int, Encloses s.levels target source →
    ∃ place, variableAt conv (.inFrame offset) target source s = .ok place s ∧
      ∀ {V W : Type} {M : Model V W} {σ : State V W} {frame : Level → V},
        Activated M σ conv s.levels target source frame → M.eval place σ =
          (M.load σ.world (M.binop .plus (frame target) (M.const offset)), σ)

section Found

variable (rooted : Rooted conv s.levels)

include rooted

/-- From inside of a level its frame is reached by one link for each level between. -/
theorem Rooted.framePointerOf_encloses (inside : Encloses s.levels target source) :
    framePointerOf conv source target s = .ok (linksUp conv
      (depth s.levels source - depth s.levels target) (.temp conv.framePointer)) s :=
  framePointerOf_ok.mpr ⟨rooted.climb_encloses inside _, rfl⟩

/-- The frame of a level that does not enclose the current one cannot be reached. -/
theorem Rooted.framePointerOf_outside (known : source < s.levels.length)
    (outside : ¬ Encloses s.levels target source) :
    framePointerOf conv source target s = .error (.unknownLevel target) s := by
  change (liftM (climb s.levels target (.temp conv.framePointer) source) : Lower _) s = _
  rw [run_except, rooted.climb_outside known outside]

/-- If each frame holds the link to the one around it, following the links ends at the frame of the
level in question. -/
theorem Rooted.eval_framePointerOf {M : Model V W} {σ : State V W} {frame : Level → V}
    (inside : Encloses s.levels target source)
    (activated : Activated M σ conv s.levels target source frame) :
    M.eval (linksUp conv (depth s.levels source - depth s.levels target)
      (.temp conv.framePointer)) σ = (frame target, σ) := by
  apply rooted.eval_linksUp inside _ activated.links
  rw [Model.eval, activated.pointer]

theorem Rooted.found (known : source < s.levels.length) : Found conv s source target := by
  have outside : ¬ Encloses s.levels target source → _ := rooted.framePointerOf_outside known
  have inside : Encloses s.levels target source → _ := rooted.framePointerOf_encloses
  have exactly : (∃ fp, framePointerOf conv source target s = .ok fp s) ↔
      Encloses s.levels target source := by
    constructor
    · rintro ⟨fp, ran⟩
      by_contra away
      rw [outside away] at ran
      cases ran
    · intro around
      exact ⟨_, inside around⟩
  refine ⟨exactly, outside, inside, ?_, ?_⟩
  · intro V W M σ frame fp ran activated
    have around := exactly.mp ⟨fp, ran⟩
    rw [inside around] at ran
    cases ran
    exact rooted.eval_framePointerOf around activated
  · intro offset around
    refine ⟨_, bind_ok.mpr ⟨_, s, inside around, rfl⟩, ?_⟩
    intro V W M σ frame activated
    simp [Access.value, Model.eval, rooted.eval_framePointerOf around activated]

end Found

/-- After any operations, the levels form a tree, and from each level the frames of the levels
around it are found through their static links, and no others. -/
theorem frames_found_through_links (conv : Convention) (entry : Label) (supply : Supply)
    (operations : List Operation) (source target : Level)
    (known : source < (reached conv entry supply operations).levels.length) :
    Rooted conv (reached conv entry supply operations).levels ∧
      Found conv (reached conv entry supply operations) source target :=
  ⟨rooted_reached conv entry supply operations,
    (rooted_reached conv entry supply operations).found known⟩

/-- Two functions in a row, of which the first has another one inside. In between, a level is
asked for inside one that is not there, and a program fails. -/
def openings : List Operation :=
  [.openLevel 0 "outer" [], .openLevel 7 "stray" [], .openLevel 1 "inner" [true],
    .lowerProgram (.breakLoop {}), .openLevel 0 "next" [], .allocateVariable 0 true]

/-- The frame pointers of the outermost function, the first one and the one inside it. -/
def framesOf : Level → Source.Word
  | 0 => 100
  | 1 => 200
  | _ => 300

/-- A state of the inner function. The frame of the outermost one holds 42. -/
def insideInner : State Source.Word ((Source.Word → Source.Word) × List (List Source.Word)) where
  temps _ := 300
  world := (fun a => if a = 316 then 200 else if a = 216 then 100 else if a = 92 then 42 else 0, [])

theorem openings_frames_found :
    2 < (reached .small "tigermain" {} openings).levels.length ∧
      framePointerOf .small 2 3 (reached .small "tigermain" {} openings) =
        .error (.unknownLevel 3) (reached .small "tigermain" {} openings) ∧
      framePointerOf .small 2 0 (reached .small "tigermain" {} openings) =
        .ok (linkAt .small (linkAt .small (.temp ⟨0⟩))) (reached .small "tigermain" {} openings) ∧
      ∃ place, variableAt .small (.inFrame (-8)) 0 2 (reached .small "tigermain" {} openings) =
          .ok place (reached .small "tigermain" {} openings) ∧
        Model.recording.eval place insideInner = (42, insideInner) := by
  have parents : (reached .small "tigermain" {} openings).levels.map LevelInfo.parent =
      [none, some 0, some 1, some 0] := by decide +kernel
  generalize state : reached .small "tigermain" {} openings = s at parents
  have known : 2 < s.levels.length := by
    rw [← List.length_map LevelInfo.parent, parents]
    decide
  have parent (level : Level) :
      s.levels[level]?.map LevelInfo.parent = [none, some 0, some 1, some 0][level]? := by
    rw [← List.getElem?_map, parents]
  obtain ⟨inner, hasInner, inFirst⟩ := Option.map_eq_some_iff.mp (parent 2)
  obtain ⟨first, hasFirst, inOutermost⟩ := Option.map_eq_some_iff.mp (parent 1)
  have inside : Encloses s.levels 0 2 :=
    .inside hasInner inFirst (.inside hasFirst inOutermost .here)
  obtain ⟨rooted, found⟩ := frames_found_through_links .small "tigermain" {} openings 2 0
    (state ▸ known)
  have missing := (frames_found_through_links .small "tigermain" {} openings 2 3
    (state ▸ known)).2.missing
  rw [state] at rooted found missing
  have activated : Activated Model.recording insideInner .small s.levels 0 2 framesOf := by
    refine ⟨rfl, ?_⟩
    intro level info outer present around below _
    have le := rooted.le_of_encloses below
    have held := parent level
    rw [present, Option.map_some, around] at held
    have atMostTwo : ∀ n : Nat, n ≤ 2 → n = 0 ∨ n = 1 ∨ n = 2 := by omega
    rcases atMostTwo level le with rfl | rfl | rfl <;> cases held <;> decide +kernel
  refine ⟨known, missing fun around => ?_, ?_, ?_⟩
  · exact absurd (rooted.le_of_encloses around) (by decide)
  · have address := found.address inside
    rw [rooted.depth_inside hasInner inFirst, rooted.depth_inside hasFirst inOutermost] at address
    rw [address, Nat.add_assoc, Nat.add_sub_cancel_left]
    rfl
  · obtain ⟨place, made, evaluates⟩ := found.value (-8) inside
    have word : Model.recording.load insideInner.world (Model.recording.binop .plus (framesOf 0)
        (Model.recording.const (-8))) = 42 := by decide +kernel
    refine ⟨place, made, ?_⟩
    rw [evaluates activated, word]

end TreeCode.Lowering
