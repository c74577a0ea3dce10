import TreeCode.Proofs.Lowering.Nesting
import TreeCode.Proofs.Lowering.Success
import TreeCode.Proofs.Source.Sites

/-!
Where lowering stands. At every place of a program, the scopes and loop exits of the state are
those that the text of the program has there, and each name in scope belongs to a level around the
current one. This holds when lowering starts and goes on to hold through all declarations.
-/

namespace TreeCode

/-- What a name is declared as. -/
def Meaning.kind : Meaning → Source.NameKind
  | .variable _ _ => .variable
  | .function _ _ => .function

namespace Lowering

variable {α : Type} {conv : Convention} {level own : Level} {names : Source.Names} {looped : Bool}
  {info : LevelInfo} {s t u : Lowering} {name : String} {meaning : Meaning}

/-- The names of some scopes, the innermost first, and what they are declared as. -/
def namesIn (scopes : List (List (String × Meaning))) : Source.Names :=
  scopes.flatten.map fun entry => (entry.1, entry.2.kind)

/-- What a name stands for in the text is what kind of thing it stands for in scope. -/
theorem lookup_namesIn (scopes : List (List (String × Meaning))) (name : String) :
    (namesIn scopes).lookup name = (meaningIn scopes name).map Meaning.kind := by
  rw [meaningIn_eq_lookup, namesIn]
  induction scopes.flatten with
  | nil => rfl
  | cons entry entries carried =>
    rw [List.map_cons, List.lookup_cons, List.lookup_cons, carried]
    cases name == entry.1 <;> rfl

/-- Lowering stands in `level`, where `names` are in scope and `looped` says whether there is a
loop to be left. -/
structure Situated (conv : Convention) (level : Level) (names : Source.Names) (looped : Bool)
    (s : Lowering) : Prop where
  nested : Nested conv s.levels
  known : level < s.levels.length
  someScope : s.scopes ≠ []
  visible : ∀ entry ∈ s.scopes.flatten, Visible s.levels level entry.2
  scope : namesIn s.scopes = names
  loops : looped = true ↔ s.exits ≠ []

/-- At the start no name is in scope. -/
theorem situated_start (conv : Convention) (entry : Label) (supply : Supply) :
    Situated conv 0 [] false (start conv entry supply) :=
  ⟨nested_start conv entry supply, Nat.one_pos, List.cons_ne_nil _ _, nofun, rfl, by simp [start]⟩

section Situated

variable (situated : Situated conv level names looped s)

include situated

/-- The situation stays the same when the state is extended. -/
theorem Situated.extend (extended : Extends conv s t) : Situated conv level names looped t where
  nested := extended.steps.nested situated.nested
  known := Nat.lt_of_lt_of_le situated.known extended.steps.levels_le
  someScope := by rw [extended.scopes]; exact situated.someScope
  visible := by
    rw [extended.scopes]
    exact fun entry member => (situated.visible entry member).outlast extended.steps.outlasts
  scope := by rw [extended.scopes]; exact situated.scope
  loops := by rw [extended.exits]; exact situated.loops

theorem Situated.ok {act : Lower α} {a : α} (extending : Extending conv act)
    (ran : act s = .ok a t) : Situated conv level names looped t :=
  situated.extend (extending.ok ran)

theorem Situated.draw (act : Fresh α) : Situated conv level names looped (s.draw act) :=
  { situated with }

theorem Situated.label : Situated conv level names looped s.label :=
  situated.draw freshLabel

theorem Situated.enter : Situated conv level names looped s.enter :=
  { situated with someScope := List.cons_ne_nil _ _ }

/-- Inside a loop, the loop can be left. -/
theorem Situated.inLoop (exit : Label) :
    Situated conv level names true (s.withExits (exit :: s.exits)) :=
  { situated with loops := iff_of_true rfl (List.cons_ne_nil _ _) }

/-- Outside of all loops, there is none to be left. -/
theorem Situated.outsideLoops : Situated conv level names false (s.withExits []) :=
  { situated with loops := iff_of_false nofun (absurd rfl) }

theorem Situated.lookup (name : String) :
    names.lookup name = (meaningIn s.scopes name).map Meaning.kind := by
  rw [← situated.scope, lookup_namesIn]

/-- What is found in scope can be used. -/
theorem Situated.visible_of_lookup (found : meaningIn s.scopes name = some meaning) :
    Visible s.levels level meaning := by
  rw [meaningIn_eq_lookup] at found
  obtain ⟨before, after, scopes, _⟩ := List.lookup_eq_some_iff.mp found
  exact situated.visible (name, meaning) (by rw [scopes]; simp)

/-- A name comes into scope on both sides. -/
theorem Situated.bind (name : String) (visible : Visible s.levels level meaning) :
    Situated conv level (names.bind meaning.kind [name]) looped (s.bound name meaning) where
  nested := situated.nested
  known := situated.known
  someScope := scopes_bound name meaning situated.someScope
  visible := by
    rw [flatten_bound name meaning situated.someScope]
    exact List.forall_mem_cons.mpr ⟨visible, situated.visible⟩
  scope := by
    rw [namesIn, flatten_bound name meaning situated.someScope, List.map_cons]
    exact congrArg (_ :: ·) situated.scope
  loops := situated.loops

theorem Situated.bindVariable (name : String) (access : Access) :
    Situated conv level (names.bind .variable [name]) looped
      (s.bound name (.variable level access)) := by
  have visible : Visible s.levels level (.variable level access) := Encloses.here
  exact situated.bind name visible

/-- The frame of an enclosing level can be reached. -/
theorem Situated.framePointerOf {target : Level} (inside : Encloses s.levels target level) :
    framePointerOf conv level target s =
      .ok (linksUp conv (depth s.levels level - depth s.levels target)
        (.temp conv.framePointer)) s :=
  framePointerOf_ok.mpr ⟨situated.nested.climb_encloses inside _, rfl⟩

/-- All names around a function are in scope inside it. -/
theorem Situated.nest (known : s.levels[own]? = some info) (around : info.parent = some level) :
    Situated conv own names looped s :=
  { situated with
    known := (List.getElem?_eq_some_iff.mp known).1
    visible := fun entry member =>
      (situated.visible entry member).inner (.inside known around .here) }

end Situated

section Functions

/-- A function declared in `level` has a level of its own, with a formal for the static link and
one for each parameter. -/
def Member (level : Level) (s : Lowering) (own : Level) (function : Source.FunDec) : Prop :=
  ∃ info, s.levels[own]? = some info ∧ info.parent = some level ∧
    info.frame.formals.tail.length = function.params.length

theorem Member.steps {function : Source.FunDec} (member : Member level s own function)
    (steps : Steps conv s t) : Member level t own function := by
  obtain ⟨info, known, around, formals⟩ := member
  obtain ⟨info', still, kept⟩ := steps.keeps known
  exact ⟨info', still, kept.parent.trans around, by rw [kept.formals]; exact formals⟩

/-- A function whose level has been opened can be called from the level around it. -/
theorem member_openLevel {label : Label} (function : Source.FunDec)
    (ran : openLevel conv level label (function.params.map Source.Binder.escapes) s =
      .ok own t) :
    Member level t own function ∧ Visible t.levels level (.function own label) := by
  obtain ⟨-, rfl, frame, supply, made, rfl⟩ := openLevel_ok.mp ran
  obtain ⟨-, kept, incoming, formals, -, receives⟩ := Convention.frameFor_receives made
  have counted := receives.stored.length_eq
  rw [List.length_map] at counted
  have present : (s.opened level frame supply).levels[s.levels.length]? =
      some { frame, parent := some level } := List.getElem?_concat_length
  refine ⟨⟨_, present, rfl, ?_⟩, _, level, present, (Convention.frameFor_labels made).1, rfl, .here⟩
  rw [formals]
  exact counted.symm

/-- The functions of a group are in scope once they are declared. -/
theorem declareFunctions_situated :
    ∀ (group : List Source.FunDec) {names : Source.Names} {levels : List Level} {s t : Lowering},
      Situated conv level names looped s → declareFunctions conv level group s = .ok levels t →
      Situated conv level (names.bind .function (group.map Source.FunDec.name)) looped t ∧
        List.Forall₂ (Member level t) levels group
  | [], _, _, _, _, situated, ran => by
    obtain ⟨rfl, rfl⟩ := declareFunctions_nil ran
    exact ⟨situated, .nil⟩
  | ⟨name, params, result, body⟩ :: group, names, _, s, t, situated, ran => by
    obtain ⟨own, u, rest, opened, declared, rfl⟩ := declareFunctions_cons ran
    obtain ⟨member, visible⟩ := member_openLevel ⟨name, params, result, body⟩ opened
    have there := (situated.extend (extends_openLevel opened)).bind name visible
    obtain ⟨after, others⟩ := declareFunctions_situated group there declared
    have naming : Steps conv u (u.bound name (.function own (freshLabelFor name s.supply).1)) :=
      .single (.names u _ u.exits)
    have declaring := ((extendingInner_declareFunctions level group).ok declared).steps
    exact ⟨after, .cons (member.steps (naming.trans declaring)) others⟩

/-- The parameters of a function are in scope once they are bound. -/
theorem bindParams_situated :
    ∀ (params : List Source.Binder) {names : Source.Names} {formals : List Access}
      {s : Lowering}, Situated conv own names looped s → formals.length = params.length →
      ∃ t, bindParams own params formals s = .ok () t ∧
        Situated conv own (names.bind .variable (params.map Source.Binder.name)) looped t
  | [], _, _, s, situated, _ => ⟨s, by unfold bindParams; rfl, situated⟩
  | param :: params, _, access :: formals, s, situated, counted => by
    obtain ⟨t, ran, there⟩ := bindParams_situated params
      (situated.bindVariable param.name access) (Nat.succ.inj counted)
    refine ⟨t, ?_, there⟩
    unfold bindParams
    exact bind_ok.mpr ⟨(), _, run_bindName _ _ s, ran⟩

/-- The body of a declared function has the names around the function in scope, and the
parameters. -/
theorem Situated.body {function : Source.FunDec} (situated : Situated conv level names looped s)
    (member : Member level s own function) (known : s.levels[own]? = some info) :
    ∃ t, bindParams own function.params info.frame.formals.tail s.enter = .ok () t ∧
      Situated conv own (names.bind .variable (function.params.map Source.Binder.name)) looped
        t := by
  obtain ⟨_, present, around, formals⟩ := member
  cases known.symm.trans present
  exact bindParams_situated function.params (situated.nest known around).enter formals

end Functions

/-- Each declaration is in scope after it. -/
theorem lowerDecs_situated :
    ∀ (decs : List Source.Dec) {names : Source.Names} {stms : List Tree.Stm} {s t : Lowering},
      Situated conv level names looped s → lowerDecs conv level decs s = .ok stms t →
      Situated conv level (decs.foldl Source.Dec.scope names) looped t
  | [], _, _, _, _, situated, ran => by
    obtain ⟨-, rfl⟩ := lowerDecs_nil ran
    exact situated
  | .var binder init :: decs, _, _, _, _, situated, ran => by
    obtain ⟨value, t, access, u, rest, first, stored, second, -⟩ := lowerDecs_var ran
    have initialised := situated.ok (lowerValue_extends level init) first
    have there := initialised.ok (extending_allocateVariable level binder.escapes) stored
    exact lowerDecs_situated decs (there.bindVariable binder.name access) second
  | .type _ _ :: decs, _, _, _, _, situated, ran =>
    lowerDecs_situated decs situated (lowerDecs_type ran)
  | .functions group :: decs, _, _, _, _, situated, ran => by
    obtain ⟨levels, t, u, declared, bodies, rest⟩ := lowerDecs_functions ran
    have there := (declareFunctions_situated group situated declared).1
    exact lowerDecs_situated decs (there.ok (lowerBodies_extends levels group) bodies) rest

end Lowering

end TreeCode
