import TreeCode.Proofs.Lowering.Levels

/-!
How functions are nested. Every level but the outermost one lies inside a level that was opened
before it, and finds its static link where the convention puts it. So the frame of an enclosing
level can always be reached: one static link is loaded for each level in between. Lowering opens
levels but never moves one.
-/

namespace TreeCode.Lowering

variable {conv : Convention} {levels : List LevelInfo}
  {outer middle level parent : Level} {info : LevelInfo} {s t : Lowering}

/-- The address that the static link holds in the frame at `fp`. -/
def linkAt (conv : Convention) (fp : Tree.Exp) : Tree.Exp :=
  .mem (.binop .plus fp (.const (2 * conv.wordSize)))

/-- The frame that is reached from the one at `fp` through `count` static links. -/
def linksUp (conv : Convention) : Nat → Tree.Exp → Tree.Exp
  | 0, fp => fp
  | count + 1, fp => linkAt conv (linksUp conv count fp)

theorem linksUp_linkAt (conv : Convention) (fp : Tree.Exp) :
    ∀ count : Nat, linksUp conv count (linkAt conv fp) = linksUp conv (count + 1) fp
  | 0 => rfl
  | count + 1 => congrArg (linkAt conv) (linksUp_linkAt conv fp count)

theorem link_value (conv : Convention) (fp : Tree.Exp) :
    (Access.inFrame (conv.formalOffset 0)).value fp = linkAt conv fp := by
  simp [Access.value, linkAt, Convention.formalOffset, Convention.words]

/-- How many levels are around a level. -/
def depth (levels : List LevelInfo) (level : Level) : Nat :=
  match levels[level]? with
  | none => 0
  | some info =>
    match info.parent with
    | none => 0
    | some parent => if parent < level then depth levels parent + 1 else 0
termination_by level

/-- `outer` is the given level, or a level around it. -/
inductive Encloses (levels : List LevelInfo) (outer : Level) : Level → Prop
  | here : Encloses levels outer outer
  | inside {level parent : Level} {info : LevelInfo} (known : levels[level]? = some info)
    (around : info.parent = some parent) (rest : Encloses levels outer parent) :
    Encloses levels outer level

/-- Every level inside another one was opened after it, and has a static link. -/
structure Nested (conv : Convention) (levels : List LevelInfo) : Prop where
  links : LinksFirst conv levels
  later : ∀ (level : Level) (info : LevelInfo) (parent : Level), levels[level]? = some info →
    info.parent = some parent → parent < level

/-- What is inside of something inside is inside. -/
theorem Encloses.trans (first : Encloses levels outer middle)
    (second : Encloses levels middle level) : Encloses levels outer level := by
  induction second with
  | here => exact first
  | inside known around _ carried => exact .inside known around carried

theorem Encloses.known (inside : Encloses levels outer level) (known : outer < levels.length) :
    level < levels.length := by
  cases inside with
  | here => exact known
  | inside present _ _ => exact (List.getElem?_eq_some_iff.mp present).1

section Nested

variable (nested : Nested conv levels)

include nested

/-- A level is one deeper than the level around it. -/
theorem Nested.depth_inside (known : levels[level]? = some info)
    (around : info.parent = some parent) : depth levels level = depth levels parent + 1 := by
  have smaller := nested.later level info parent known around
  rw [depth]
  simp [known, around, smaller]

/-- Inner levels come later than outer ones. -/
theorem Nested.le_of_encloses (inside : Encloses levels outer level) : outer ≤ level := by
  induction inside with
  | here => exact Nat.le_refl _
  | inside known around _ carried =>
    exact Nat.le_of_lt (Nat.lt_of_le_of_lt carried (nested.later _ _ _ known around))

theorem Nested.depth_le (inside : Encloses levels outer level) :
    depth levels outer ≤ depth levels level := by
  induction inside with
  | here => exact Nat.le_refl _
  | inside known around _ carried =>
    rw [nested.depth_inside known around]
    exact Nat.le_succ_of_le carried

/-- One step outwards loads the static link. -/
theorem Nested.climb_inside {target : Level} {fp : Tree.Exp} (known : levels[level]? = some info)
    (around : info.parent = some parent) (away : level ≠ target) :
    climb levels target fp level = climb levels target (linkAt conv fp) parent := by
  have smaller := nested.later level info parent known around
  have first := nested.links level info parent known around
  obtain ⟨others, formals⟩ := List.head?_eq_some_iff.mp first
  rw [climb]
  simp only [away, if_false, known, formals, around, smaller, if_true, link_value]

/-- The frame of an enclosing level is as many static links away as there are levels in
between. -/
theorem Nested.climb_encloses (inside : Encloses levels outer level) (fp : Tree.Exp) :
    climb levels outer fp level =
      .ok (linksUp conv (depth levels level - depth levels outer) fp) := by
  induction inside generalizing fp with
  | here =>
    rw [climb, Nat.sub_self]
    simp [linksUp]
  | @inside level parent info known around rest carried =>
    have below : outer ≤ parent := nested.le_of_encloses rest
    have smaller := nested.later level info parent known around
    have shallower := nested.depth_le rest
    rw [nested.climb_inside known around (Nat.ne_of_gt (Nat.lt_of_le_of_lt below smaller)), carried,
      linksUp_linkAt, nested.depth_inside known around, Nat.succ_sub shallower]

end Nested

section Steps

/-- The outermost level alone is a nest. -/
theorem nested_start (conv : Convention) (entry : Label) (supply : Supply) :
    Nested conv (start conv entry supply).levels := by
  refine ⟨linksFirst_start conv entry supply, ?_⟩
  intro level info parent known around
  cases level with
  | zero =>
    cases known
    cases around
  | succ level => cases known

/-- A nest stays one while it grows. -/
theorem Grown.nested {levels' : List LevelInfo} (grown : Grown conv levels levels')
    (nested : Nested conv levels) : Nested conv levels' := by
  refine ⟨grown.linksFirst nested.links, ?_⟩
  intro level info parent present around
  rcases grown level info present with ⟨held, known, kept⟩ | ⟨_, ⟨above, inside, smaller⟩, _⟩
  · exact nested.later level held parent known (kept.parent.symm.trans around)
  · cases around.symm.trans inside
    exact smaller

theorem Steps.nested (steps : Steps conv s t) (nested : Nested conv s.levels) :
    Nested conv t.levels := by
  induction steps with
  | refl => exact nested
  | tail _ step carried => exact step.grown.nested carried

end Steps

/-- Every level stays, with what is kept of it. -/
def Outlasts (levels levels' : List LevelInfo) : Prop :=
  ∀ (level : Level) (info : LevelInfo), levels[level]? = some info →
    ∃ info', levels'[level]? = some info' ∧ Kept info info'

section Outlasts

variable {levels' levels'' : List LevelInfo}

theorem Outlasts.refl (levels : List LevelInfo) : Outlasts levels levels :=
  fun _ info known => ⟨info, known, Kept.refl info⟩

theorem Outlasts.trans (first : Outlasts levels levels') (second : Outlasts levels' levels'') :
    Outlasts levels levels'' := by
  intro level info known
  obtain ⟨info', still, kept⟩ := first level info known
  obtain ⟨info'', last, next⟩ := second level info' still
  exact ⟨info'', last, kept.trans next⟩

theorem Steps.outlasts (steps : Steps conv s t) : Outlasts s.levels t.levels :=
  fun _ _ known => steps.keeps known

variable (grown : Outlasts levels levels')

include grown

/-- Levels stay inside of each other. -/
theorem Outlasts.encloses (inside : Encloses levels outer level) :
    Encloses levels' outer level := by
  induction inside with
  | here => exact .here
  | inside known around _ carried =>
    obtain ⟨_, still, kept⟩ := grown _ _ known
    exact .inside still (kept.parent.trans around) carried

/-- A level stays as deep as it is. -/
theorem Outlasts.depth_eq (nested : Nested conv levels) (known : level < levels.length) :
    depth levels' level = depth levels level := by
  induction level using Nat.strongRecOn with
  | ind level carried =>
    obtain ⟨info, found⟩ : ∃ info, levels[level]? = some info :=
      ⟨_, List.getElem?_eq_getElem known⟩
    obtain ⟨info', still, kept⟩ := grown level info found
    have parent := kept.parent
    rw [depth, depth]
    cases around : info.parent with
    | none => simp [found, still, around, parent]
    | some outer =>
      have smaller := nested.later level info outer found around
      have same := carried outer smaller (Nat.lt_trans smaller known)
      simp [found, still, around, parent, smaller, same]

end Outlasts

/-- A name can be used in `level`: a variable is one of an enclosing level, and a function has a
level of its own inside an enclosing one. -/
def Visible (levels : List LevelInfo) (level : Level) : Meaning → Prop
  | .variable declared _ => Encloses levels declared level
  | .function target label => ∃ info home, levels[target]? = some info ∧
    info.frame.name = label ∧ info.parent = some home ∧ Encloses levels home level

theorem Visible.outlast {levels' : List LevelInfo} {meaning : Meaning}
    (visible : Visible levels level meaning) (grown : Outlasts levels levels') :
    Visible levels' level meaning := by
  cases meaning with
  | «variable» declared access => exact grown.encloses visible
  | function target label =>
    obtain ⟨info, home, known, named, around, inside⟩ := visible
    obtain ⟨info', still, kept⟩ := grown target info known
    exact ⟨info', home, still, kept.name.trans named, kept.parent.trans around,
      grown.encloses inside⟩

/-- What is visible in a level is visible further inside. -/
theorem Visible.inner {meaning : Meaning} (visible : Visible levels middle meaning)
    (inside : Encloses levels middle level) : Visible levels level meaning := by
  cases meaning with
  | «variable» declared access => exact Encloses.trans visible inside
  | function target label =>
    obtain ⟨info, home, known, named, around, above⟩ := visible
    exact ⟨info, home, known, named, around, above.trans inside⟩

end TreeCode.Lowering
