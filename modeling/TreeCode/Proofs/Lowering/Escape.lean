import TreeCode.Proofs.Lowering.Uses
import TreeCode.Proofs.Source.Walk

/-!
Escape analysis is sound for lowering. Two walks go over a program: the analysis keeps a list of
the variables in scope, each with the number of functions around it; lowering keeps scopes of
variables and functions, each variable with its level. `Follows` says that the two stay in step,
so that both resolve every use to the same variable. Hence a variable that is used in a level
other than its own has been marked, and lives in memory.
-/

namespace TreeCode.Lowering

variable {conv : Convention} {marks : List Nat} {path : List Level}

/-- The variable that an entry of a scope declares. -/
def asVariable : String × Meaning → Option (String × Level × Access)
  | (name, .variable level access) => some (name, level, access)
  | (_, .function _ _) => none

/-- The variables in scope, the innermost first. -/
def varsIn (scopes : List (List (String × Meaning))) : List (String × Level × Access) :=
  scopes.flatten.filterMap asVariable

/-- A name that stands for a variable is found among the variables. -/
theorem find_asVariable {entries : List (String × Meaning)} {name : String} {level : Level}
    {access : Access} (found : entries.lookup name = some (.variable level access)) :
    (entries.filterMap asVariable).find? (fun v => v.1 == name) = some (name, level, access) := by
  induction entries with
  | nil => cases found
  | cons entry entries carried =>
    obtain ⟨other, meaning⟩ := entry
    rw [List.lookup_cons] at found
    by_cases same : name = other
    · subst same
      simp only [beq_self_eq_true] at found
      cases found
      simp [asVariable]
    · simp only [beq_false_of_ne same] at found
      cases meaning with
      | «variable» declared stored =>
        simp [asVariable, Ne.symm same, carried found]
      | function target label =>
        simpa [asVariable] using carried found

/-- A lookup in one of two related lists is one in the other. -/
theorem find_related {α β : Type} {R : α → β → Prop} {p : α → Bool} {q : β → Bool}
    {as : List α} {bs : List β} {b : β} (related : List.Forall₂ R as bs)
    (agree : ∀ a b, R a b → p a = q b) (found : bs.find? q = some b) :
    ∃ a, as.find? p = some a ∧ R a b := by
  induction related with
  | nil => cases found
  | cons first rest carried =>
    rename_i x y xs ys
    rw [List.find?_cons] at found ⊢
    rw [agree x y first]
    cases holds : q y with
    | true =>
      simp only [holds] at found
      cases found
      exact ⟨x, rfl, first⟩
    | false =>
      simp only [holds] at found
      exact carried found

/-- A variable of the analysis stands for one of lowering: it has the same name, it is declared
in the level at its depth on the path from the outermost level, and if it is marked it lives in
memory. -/
structure Stands (marks : List Nat) (path : List Level) (binding : Source.Binding)
    (v : String × Level × Access) : Prop where
  name : binding.name = v.1
  level : path[binding.depth]? = some v.2.1
  stored : binding.number ∈ marks → v.2.2.isInFrame = true

/-- The analysis, inside `depth` functions with `scope`, and lowering, in `level` with the state
`s`, are in step. The levels from the outermost one to `level` are `path`. -/
structure Follows (conv : Convention) (marks : List Nat) (path : List Level)
    (scope : Source.Scope) (depth : Nat) (level : Level) (s : Lowering) : Prop where
  tracks : List.Forall₂ (Stands marks path) scope (varsIn s.scopes)
  length : path.length = depth + 1
  here : path[depth]? = some level
  links : LinksFirst conv s.levels

section Follows

variable {scope : Source.Scope} {depth : Nat} {level : Level} {s s' : Lowering}

/-- The analysis stays in step when the state is extended. -/
theorem Follows.extend (follows : Follows conv marks path scope depth level s)
    (extended : Extends conv s s') : Follows conv marks path scope depth level s' :=
  ⟨by rw [extended.scopes]; exact follows.tracks, follows.length, follows.here,
    extended.steps.linksFirst follows.links⟩

theorem Follows.draw {α : Type} (follows : Follows conv marks path scope depth level s)
    (act : Fresh α) : Follows conv marks path scope depth level (s.draw act) :=
  ⟨follows.tracks, follows.length, follows.here, follows.links⟩

theorem Follows.label (follows : Follows conv marks path scope depth level s) :
    Follows conv marks path scope depth level s.label :=
  follows.draw freshLabel

theorem Follows.withExits (follows : Follows conv marks path scope depth level s)
    (exits : List Label) : Follows conv marks path scope depth level (s.withExits exits) :=
  ⟨follows.tracks, follows.length, follows.here, follows.links⟩

theorem Follows.enter (follows : Follows conv marks path scope depth level s) :
    Follows conv marks path scope depth level s.enter :=
  ⟨follows.tracks, follows.length, follows.here, follows.links⟩

/-- The variables in scope after one more has been bound. -/
theorem varsIn_bound {s : Lowering} (name : String) (level : Level) (access : Access)
    (someScope : s.scopes ≠ []) :
    varsIn (s.bound name (.variable level access)).scopes =
      (name, level, access) :: varsIn s.scopes := by
  rw [varsIn, flatten_bound name _ someScope]
  rfl

/-- A function in scope may hide a variable, but is none itself. -/
theorem varsIn_bound_function (s : Lowering) (name : String) (level : Level) (label : Label) :
    varsIn (s.bound name (.function level label)).scopes = varsIn s.scopes := by
  obtain ⟨supply, levels, fragments, scopes, exits⟩ := s
  cases scopes with
  | nil => rfl
  | cons inner outer => rfl

/-- A variable declared in `level`. -/
theorem Follows.bind (follows : Follows conv marks path scope depth level s)
    (someScope : s.scopes ≠ []) (name : String) {number : Nat} {access : Access}
    (stored : number ∈ marks → access.isInFrame = true) :
    Follows conv marks path (⟨name, depth, number⟩ :: scope) depth level
      (s.bound name (.variable level access)) := by
  refine ⟨?_, follows.length, follows.here, follows.links⟩
  rw [varsIn_bound name level access someScope]
  exact .cons ⟨rfl, follows.here, stored⟩ follows.tracks

/-- A function inside `level`. -/
theorem Follows.nest (follows : Follows conv marks path scope depth level s) (own : Level) :
    Follows conv marks (path ++ [own]) scope (depth + 1) own s where
  tracks := by
    refine follows.tracks.imp ?_
    intro binding v stands
    refine ⟨stands.name, ?_, stands.stored⟩
    have inside := (List.getElem?_eq_some_iff.mp stands.level).1
    rw [List.getElem?_append_left inside]
    exact stands.level
  length := by rw [List.length_append, follows.length]; rfl
  here := by rw [← follows.length, List.getElem?_concat_length]
  links := follows.links

/-- A use that the analysis accepts is safe. -/
theorem Follows.safe (follows : Follows conv marks path scope depth level s) {name : String}
    {pos : Source.Pos} {found found' : List Nat} {tree : Tree.Exp}
    (walked : scope.use depth name pos found = .ok () found') (marked : found' ⊆ marks)
    (ran : lowerVar conv level (.simple name pos) s = .ok tree s') :
    SafeUse conv level name s := by
  obtain ⟨declared, access, fp, meaning, climbed, -, -⟩ := lowerVar_simple.mp ran
  refine ⟨declared, access, meaning, ?_⟩
  by_cases own : declared = level
  · exact .inl own
  right
  rw [meaningIn_eq_lookup] at meaning
  obtain ⟨binding, present, stands⟩ :=
    find_related (p := fun binding => binding.name == name) follows.tracks
      (fun binding v stands => by rw [stands.name]) (find_asVariable meaning)
  obtain ⟨_, found, _, escapes⟩ := Source.use_ok walked
  cases present.symm.trans found
  -- The variable is declared further out, since the level at this depth is not its own.
  have outer : binding.depth < depth := by
    have inside := (List.getElem?_eq_some_iff.mp stands.level).1
    have away : binding.depth ≠ depth := by
      intro same
      have declaredHere := stands.level
      rw [same, follows.here] at declaredHere
      exact own (Option.some.inj declaredHere).symm
    have length := follows.length
    omega
  have inFrame := stands.stored (marked (escapes outer))
  cases access with
  | inReg t => cases inFrame
  | inFrame offset =>
    refine ⟨offset, fp, rfl, linked_of_climb follows.links climbed, ?_⟩
    intro pos
    rw [← meaningIn_eq_lookup] at meaning
    exact lowerVar_simple.mpr ⟨declared, .inFrame offset, fp, meaning, climbed, rfl, rfl⟩

end Follows

section Functions

/-- A binder has storage as its flag says. -/
def Housed (binder : Source.Binder) (access : Access) : Prop :=
  binder.escapes = true → access.isInFrame = true

/-- A marked binder that escapes has been given storage in memory. -/
theorem Housed.stored {binder : Source.Binder} {number : Nat} {access : Access}
    (housed : Housed (binder.mark marks number) access) (marked : number ∈ marks) :
    access.isInFrame = true := by
  apply housed
  unfold Source.Binder.mark
  simp [marked]

/-- A variable that escapes is stored in memory. -/
theorem housed_allocateVariable {binder : Source.Binder} {level : Level} {access : Access}
    {s s' : Lowering} (ran : allocateVariable level binder.escapes s = .ok access s') :
    Housed binder access := by
  obtain ⟨info, -, rfl, -⟩ := allocateVariable_ok.mp ran
  exact Frame.isInFrame_allocate info.frame s.supply

/-- The parameters of a function come into scope in both walks. -/
theorem bindParams_follows {depth : Nat} {own : Level} :
    ∀ (params : List Source.Binder) {number : Nat} {formals : List Access}
      {scope : Source.Scope} {s s' : Lowering},
      Follows conv marks path scope depth own s → s.scopes ≠ [] →
      List.Forall₂ Housed (Source.Binder.markList marks number params) formals →
      bindParams own (Source.Binder.markList marks number params) formals s = .ok () s' →
      Follows conv marks path (scope.bind depth number params) depth own s'
  | [], _, _, _, _, _, follows, _, .nil, ran => by
    obtain ⟨-, rfl⟩ := pure_ok.mp ran
    exact follows
  | param :: params, number, _, _, s, _, follows, someScope, .cons first rest, ran => by
    obtain ⟨_, _, named, ran⟩ := bind_ok.mp ran
    obtain rfl := bindName_ok.mp named
    exact bindParams_follows params (follows.bind someScope param.name first.stored)
      (scopes_bound _ _ someScope) rest ran

/-- A declared function has a level, whose formals after the static link house its
parameters. -/
def Prepared (s : Lowering) (own : Level) (function : Source.FunDec) : Prop :=
  ∃ info, s.levels[own]? = some info ∧
    List.Forall₂ Housed function.params info.frame.formals.tail

theorem Prepared.steps {s s' : Lowering} {own : Level} {function : Source.FunDec}
    (prepared : Prepared s own function) (steps : Steps conv s s') :
    Prepared s' own function := by
  obtain ⟨info, known, housed⟩ := prepared
  obtain ⟨info', present, kept⟩ := steps.keeps known
  exact ⟨info', present, by rw [kept.formals]; exact housed⟩

/-- The formals of a function are stored as the flags of its parameters say. -/
theorem openLevel_prepared {parent own : Level} {label : Label} {function : Source.FunDec}
    {s s' : Lowering}
    (ran : openLevel conv parent label (function.params.map Source.Binder.escapes) s =
      .ok own s') : Prepared s' own function ∧ s'.scopes = s.scopes := by
  obtain ⟨-, rfl, frame, supply, made, rfl⟩ := openLevel_ok.mp ran
  obtain ⟨-, kept, incoming, formals, -, receives⟩ := Convention.frameFor_receives made
  refine ⟨⟨_, List.getElem?_concat_length, ?_⟩, rfl⟩
  have housed := List.forall₂_map_left_iff.mp receives.stored
  rw [formals]
  exact housed

/-- Declaring functions leaves the variables in scope as they are and prepares a level for each
function. -/
theorem declareFunctions_prepared {level : Level} :
    ∀ (group : List Source.FunDec) {levels : List Level} {s s' : Lowering},
      s.scopes ≠ [] → declareFunctions conv level group s = .ok levels s' →
      varsIn s'.scopes = varsIn s.scopes ∧ s'.scopes ≠ [] ∧
        List.Forall₂ (Prepared s') levels group
  | [], _, _, _, someScope, ran => by
    obtain ⟨rfl, rfl⟩ := declareFunctions_nil ran
    exact ⟨rfl, someScope, .nil⟩
  | ⟨name, params, result, body⟩ :: group, _, s, s', someScope, ran => by
    obtain ⟨own, t, rest, opened, declared, rfl⟩ := declareFunctions_cons ran
    obtain ⟨prepared, scopes⟩ : Prepared t own ⟨name, params, result, body⟩ ∧ _ :=
      openLevel_prepared opened
    rw [draw_scopes] at scopes
    have someScope' : t.scopes ≠ [] := by rw [scopes]; exact someScope
    obtain ⟨same, still, others⟩ :=
      declareFunctions_prepared group (scopes_bound name _ someScope') declared
    have named : Steps conv t (t.bound name (.function own (freshLabelFor name s.supply).1)) :=
      .single (.names t _ t.exits)
    have steps := named.trans ((extendingInner_declareFunctions level group).ok declared).steps
    refine ⟨?_, still, .cons (prepared.steps steps) others⟩
    rw [same, varsIn_bound_function, scopes]

end Functions

mutual
/-- The uses in a variable are safe. -/
theorem lowerVar_safe {path : List Level} {scope : Source.Scope} {depth n : Nat} {level : Level}
    {found found' : List Nat} {s s' : Lowering} {tree : Tree.Exp}
    (follows : Follows conv marks path scope depth level s) :
    ∀ var : Source.Var, var.walk scope depth n found = .ok () found' → found' ⊆ marks →
      lowerVar conv level (var.mark marks n) s = .ok tree s' →
      (requiring (SafeUse conv)).visitVar conv level (var.mark marks n) s
  | .simple name pos, walked, marked, ran => by
    unfold Source.Var.walk at walked
    unfold Source.Var.mark at ran ⊢
    unfold Visitor.visitVar
    exact follows.safe walked marked ran
  | .field record name slot pos, walked, marked, ran => by
    unfold Source.Var.walk at walked
    unfold Source.Var.mark at ran ⊢
    unfold Visitor.visitVar
    obtain ⟨_, _, _, inner, -⟩ := lowerVar_field ran
    exact lowerVar_safe follows record walked marked inner
  | .subscript array index, walked, marked, ran => by
    unfold Source.Var.walk at walked
    unfold Source.Var.mark at ran ⊢
    unfold Visitor.visitVar
    obtain ⟨_, _, walkedArray, walkedIndex⟩ := bind_ok.mp walked
    obtain ⟨_, _, _, first, second, -⟩ := lowerVar_subscript ran
    obtain ⟨_, _, inner, -⟩ := lowerValue_ok.mp second
    have markedArray := (index.walk_collects scope depth _).within walkedIndex marked
    have follows' := follows.extend ((lowerVar_extends level _).ok first)
    exact ⟨lowerVar_safe follows array walkedArray markedArray first,
      (later_iff first).mpr (lowerExp_safe follows' index walkedIndex marked inner)⟩
/-- All uses in an expression are safe that has been marked with what the analysis found. Both walks
go along the expression; the marks that a part needs are among those that are found in the end,
since the analysis takes none back. -/
theorem lowerExp_safe {path : List Level} {scope : Source.Scope} {depth n : Nat} {level : Level}
    {found found' : List Nat} {s s' : Lowering} {out : Lowered}
    (follows : Follows conv marks path scope depth level s) :
    ∀ exp : Source.Exp, exp.walk scope depth n found = .ok () found' → found' ⊆ marks →
      lowerExp conv level (exp.mark marks n) s = .ok out s' →
      (requiring (SafeUse conv)).visit conv level (exp.mark marks n) s
  | .nil, _, _, _ => by
    unfold Source.Exp.mark Visitor.visit
    trivial
  | .int _, _, _, _ => by
    unfold Source.Exp.mark Visitor.visit
    trivial
  | .string _, _, _, _ => by
    unfold Source.Exp.mark Visitor.visit
    trivial
  | .breakLoop _, _, _, _ => by
    unfold Source.Exp.mark Visitor.visit
    trivial
  | .var var, walked, marked, ran => by
    unfold Source.Exp.walk at walked
    unfold Source.Exp.mark at ran ⊢
    unfold Visitor.visit
    obtain ⟨_, inner, -⟩ := lowerExp_var ran
    exact lowerVar_safe follows var walked marked inner
  | .call func args pos, walked, marked, ran => by
    unfold Source.Exp.walk at walked
    unfold Source.Exp.mark at ran ⊢
    unfold Visitor.visit
    obtain ⟨_, _, _, inner, -⟩ := lowerExp_call ran
    exact lowerArgs_safe follows args walked marked inner
  | .op oper left right strings, walked, marked, ran => by
    unfold Source.Exp.walk at walked
    unfold Source.Exp.mark at ran ⊢
    unfold Visitor.visit
    obtain ⟨_, _, walkedLeft, walkedRight⟩ := bind_ok.mp walked
    obtain ⟨_, _, _, first, second, -⟩ := lowerExp_op ran
    obtain ⟨_, _, leftRan, -⟩ := lowerValue_ok.mp first
    obtain ⟨_, _, rightRan, -⟩ := lowerValue_ok.mp second
    have markedLeft := (right.walk_collects scope depth _).within walkedRight marked
    have follows' := follows.extend ((lowerValue_extends level _).ok first)
    exact ⟨lowerExp_safe follows left walkedLeft markedLeft leftRan,
      (later_iff first).mpr (lowerExp_safe follows' right walkedRight marked rightRan)⟩
  | .record type fields, walked, marked, ran => by
    unfold Source.Exp.walk at walked
    unfold Source.Exp.mark at ran ⊢
    unfold Visitor.visit
    obtain ⟨_, inner, -⟩ := lowerExp_record ran
    exact lowerFields_safe (follows.draw freshTemp) fields walked marked inner
  | .seq exps, walked, marked, ran => by
    unfold Source.Exp.walk at walked
    unfold Source.Exp.mark at ran ⊢
    unfold Visitor.visit
    obtain ⟨_, _, _, inner, -⟩ := lowerExp_seq ran
    exact lowerSeq_safe follows exps walked marked inner
  | .assign var value, walked, marked, ran => by
    unfold Source.Exp.walk at walked
    unfold Source.Exp.mark at ran ⊢
    unfold Visitor.visit
    obtain ⟨_, _, walkedVar, walkedValue⟩ := bind_ok.mp walked
    obtain ⟨_, _, _, first, second, -⟩ := lowerExp_assign ran
    obtain ⟨_, _, inner, -⟩ := lowerValue_ok.mp second
    have markedVar := (value.walk_collects scope depth _).within walkedValue marked
    have follows' := follows.extend ((lowerVar_extends level _).ok first)
    exact ⟨lowerVar_safe follows var walkedVar markedVar first,
      (later_iff first).mpr (lowerExp_safe follows' value walkedValue marked inner)⟩
  | .ifThen test yes, walked, marked, ran => by
    unfold Source.Exp.walk at walked
    unfold Source.Exp.mark at ran ⊢
    unfold Visitor.visit
    obtain ⟨_, _, walkedTest, walkedYes⟩ := bind_ok.mp walked
    obtain ⟨_, _, _, _, _, first, second, -⟩ := lowerExp_ifThen ran
    have markedTest := (yes.walk_collects scope depth _).within walkedYes marked
    have follows' := follows.extend ((lowerExp_extends level _).ok first)
    exact ⟨lowerExp_safe follows test walkedTest markedTest first,
      (later_iff first).mpr (lowerExp_safe follows' yes walkedYes marked second)⟩
  | .ifElse test yes no, walked, marked, ran => by
    unfold Source.Exp.walk at walked
    unfold Source.Exp.mark at ran ⊢
    unfold Visitor.visit
    obtain ⟨_, _, walkedTest, walked⟩ := bind_ok.mp walked
    obtain ⟨_, _, walkedYes, walkedNo⟩ := bind_ok.mp walked
    obtain ⟨_, _, _, _, _, _, first, second, third, -⟩ := lowerExp_ifElse ran
    have markedYes := (no.walk_collects scope depth _).within walkedNo marked
    have markedTest := (yes.walk_collects scope depth _).within walkedYes markedYes
    have followsYes := follows.extend ((lowerExp_extends level _).ok first)
    have followsNo := followsYes.extend ((lowerExp_extends level _).ok second)
    refine ⟨lowerExp_safe follows test walkedTest markedTest first, (later_iff first).mpr ?_⟩
    refine ⟨lowerExp_safe followsYes yes walkedYes markedYes second, (later_iff second).mpr ?_⟩
    exact lowerExp_safe followsNo.label.label no walkedNo marked third
  | .whileDo test body, walked, marked, ran => by
    unfold Source.Exp.walk at walked
    unfold Source.Exp.mark at ran ⊢
    unfold Visitor.visit
    obtain ⟨_, _, walkedTest, walkedBody⟩ := bind_ok.mp walked
    obtain ⟨_, _, _, _, _, first, second, -⟩ := lowerExp_whileDo ran
    obtain ⟨_, inner, -⟩ := inLoop_ok.mp second
    have markedTest := (body.walk_collects scope depth _).within walkedBody marked
    have labelled := follows.label.label.label
    have follows' := labelled.extend ((lowerExp_extends level _).ok first)
    exact ⟨lowerExp_safe labelled test walkedTest markedTest first,
      (later_iff first).mpr (lowerExp_safe (follows'.withExits _) body walkedBody marked inner)⟩
  | .forTo var lo hi body, walked, marked, ran => by
    unfold Source.Exp.walk at walked
    unfold Source.Exp.mark at ran ⊢
    dsimp only at ran ⊢
    unfold Visitor.visit
    obtain ⟨_, _, walkedLo, walked⟩ := bind_ok.mp walked
    obtain ⟨_, _, walkedHi, walkedBody⟩ := bind_ok.mp walked
    obtain ⟨_, _, _, _, _, v, _, _, _, first, second, stored, looped, -⟩ := lowerExp_forTo ran
    obtain ⟨_, _, loRan, -⟩ := lowerValue_ok.mp first
    obtain ⟨_, _, hiRan, -⟩ := lowerValue_ok.mp second
    obtain ⟨_, bodyRan, -⟩ := inLoop_ok.mp looped
    have markedHi := (body.walk_collects _ depth _).within walkedBody marked
    have markedLo := (hi.walk_collects scope depth _).within walkedHi markedHi
    have followsHi := follows.extend ((lowerValue_extends level _).ok first)
    have followsVar := followsHi.extend ((lowerValue_extends level _).ok second)
    have followsBody := followsVar.extend ((extending_allocateVariable level _).ok stored)
    have entered := (followsBody.draw freshTemp).label.label.label.enter
    have housed := housed_allocateVariable stored
    have bound := entered.bind (List.cons_ne_nil _ _) var.name housed.stored
    refine ⟨lowerExp_safe follows lo walkedLo markedLo loRan, (later_iff first).mpr ?_⟩
    refine ⟨lowerExp_safe followsHi hi walkedHi markedHi hiRan, (later_iff second).mpr ?_⟩
    exact (later_iff stored).mpr
      ⟨trivial, lowerExp_safe (bound.withExits _) body walkedBody marked bodyRan⟩
  | .letIn decs body, walked, marked, ran => by
    unfold Source.Exp.walk at walked
    unfold Source.Exp.mark at ran ⊢
    unfold Visitor.visit
    obtain ⟨inner, _, walkedDecs, walkedBody⟩ := bind_ok.mp walked
    obtain ⟨_, _, _, _, first, second, -⟩ := lowerExp_letIn ran
    have markedDecs := (body.walk_collects inner depth _).within walkedBody marked
    obtain ⟨safe, follows'⟩ :=
      lowerDecs_safe follows.enter (List.cons_ne_nil _ _) decs walkedDecs markedDecs first
    exact ⟨safe, (later_iff first).mpr (lowerExp_safe follows' body walkedBody marked second)⟩
  | .array type size init, walked, marked, ran => by
    unfold Source.Exp.walk at walked
    unfold Source.Exp.mark at ran ⊢
    unfold Visitor.visit
    obtain ⟨_, _, walkedSize, walkedInit⟩ := bind_ok.mp walked
    obtain ⟨_, _, _, first, second, -⟩ := lowerExp_array ran
    obtain ⟨_, _, sizeRan, -⟩ := lowerValue_ok.mp first
    obtain ⟨_, _, initRan, -⟩ := lowerValue_ok.mp second
    have markedSize := (init.walk_collects scope depth _).within walkedInit marked
    have follows' := follows.extend ((lowerValue_extends level _).ok first)
    exact ⟨lowerExp_safe follows size walkedSize markedSize sizeRan,
      (later_iff first).mpr (lowerExp_safe follows' init walkedInit marked initRan)⟩
/-- The arguments of a call, in order. -/
theorem lowerArgs_safe {path : List Level} {scope : Source.Scope} {depth n : Nat} {level : Level}
    {found found' : List Nat} {s s' : Lowering} {values : List Tree.Exp}
    (follows : Follows conv marks path scope depth level s) :
    ∀ args : List Source.Exp, Source.Exp.walkList scope depth n args found = .ok () found' →
      found' ⊆ marks → lowerArgs conv level (Source.Exp.markList marks n args) s = .ok values s' →
      (requiring (SafeUse conv)).visitArgs conv level (Source.Exp.markList marks n args) s
  | [], _, _, _ => by
    unfold Source.Exp.markList Visitor.visitArgs
    trivial
  | arg :: args, walked, marked, ran => by
    unfold Source.Exp.walkList at walked
    unfold Source.Exp.markList at ran ⊢
    unfold Visitor.visitArgs
    obtain ⟨_, _, walkedArg, walkedArgs⟩ := bind_ok.mp walked
    obtain ⟨_, _, _, first, second, -⟩ := lowerArgs_cons ran
    obtain ⟨_, _, argRan, -⟩ := lowerValue_ok.mp first
    have markedArg := (Source.Exp.walkList_collects scope depth _ args).within walkedArgs marked
    have follows' := follows.extend ((lowerValue_extends level _).ok first)
    exact ⟨lowerExp_safe follows arg walkedArg markedArg argRan,
      (later_iff first).mpr (lowerArgs_safe follows' args walkedArgs marked second)⟩
/-- The values of record fields, in order. -/
theorem lowerFields_safe {path : List Level} {scope : Source.Scope} {depth n : Nat} {level : Level}
    {found found' : List Nat} {s s' : Lowering} {r : Temp} {slot : Nat} {stores : List Tree.Stm}
    (follows : Follows conv marks path scope depth level s) :
    ∀ fields : List Source.Field,
      Source.Field.walkList scope depth n fields found = .ok () found' → found' ⊆ marks →
      lowerFields conv level r slot (Source.Field.markList marks n fields) s = .ok stores s' →
      (requiring (SafeUse conv)).visitFields conv level (Source.Field.markList marks n fields) s
  | [], _, _, _ => by
    unfold Source.Field.markList Visitor.visitFields
    trivial
  | ⟨name, value⟩ :: fields, walked, marked, ran => by
    unfold Source.Field.walkList at walked
    unfold Source.Field.markList at ran ⊢
    unfold Visitor.visitFields
    obtain ⟨_, _, walkedValue, walkedFields⟩ := bind_ok.mp walked
    obtain ⟨_, _, _, first, second, -⟩ := lowerFields_cons ran
    obtain ⟨_, _, valueRan, -⟩ := lowerValue_ok.mp first
    have markedValue :=
      (Source.Field.walkList_collects scope depth _ fields).within walkedFields marked
    have follows' := follows.extend ((lowerValue_extends level _).ok first)
    exact ⟨lowerExp_safe follows value walkedValue markedValue valueRan,
      (later_iff first).mpr (lowerFields_safe follows' fields walkedFields marked second)⟩
/-- The parts of a sequence, in order. -/
theorem lowerSeq_safe {path : List Level} {scope : Source.Scope} {depth n : Nat} {level : Level}
    {found found' : List Nat} {s s' : Lowering} {result : List Tree.Stm × Lowered}
    (follows : Follows conv marks path scope depth level s) :
    ∀ exps : List Source.Exp, Source.Exp.walkList scope depth n exps found = .ok () found' →
      found' ⊆ marks → lowerSeq conv level (Source.Exp.markList marks n exps) s = .ok result s' →
      (requiring (SafeUse conv)).visitSeq conv level (Source.Exp.markList marks n exps) s
  | [], _, _, _ => by
    unfold Source.Exp.markList Visitor.visitSeq
    trivial
  | [exp], walked, marked, ran => by
    unfold Source.Exp.walkList at walked
    unfold Source.Exp.markList at ran ⊢
    unfold Source.Exp.markList at ran ⊢
    unfold Visitor.visitSeq
    obtain ⟨_, _, walkedExp, walkedNil⟩ := bind_ok.mp walked
    obtain ⟨_, inner, -⟩ := lowerSeq_single ran
    have markedExp := (Source.Exp.walkList_collects scope depth _ []).within walkedNil marked
    have first := lowerEffect_ok.mpr ⟨_, _, inner, rfl, rfl⟩
    refine ⟨lowerExp_safe follows exp walkedExp markedExp inner, (later_iff first).mpr ?_⟩
    unfold Visitor.visitSeq
    trivial
  | exp :: next :: exps, walked, marked, ran => by
    unfold Source.Exp.walkList at walked
    unfold Source.Exp.markList at ran ⊢
    unfold Visitor.visitSeq
    obtain ⟨_, _, walkedExp, walkedExps⟩ := bind_ok.mp walked
    obtain ⟨_, _, _, _, first, second, -⟩ := lowerSeq_cons ran
    obtain ⟨_, _, expRan, -⟩ := lowerEffect_ok.mp first
    have markedExp :=
      (Source.Exp.walkList_collects scope depth _ (next :: exps)).within walkedExps marked
    have follows' := follows.extend ((lowerEffect_extends level _).ok first)
    exact ⟨lowerExp_safe follows exp walkedExp markedExp expRan,
      (later_iff first).mpr (lowerSeq_safe follows' (next :: exps) walkedExps marked second)⟩
/-- Declarations also bring the two walks into step for what comes after them. -/
theorem lowerDecs_safe {path : List Level} {scope inner : Source.Scope} {depth n : Nat}
    {level : Level} {found found' : List Nat} {s s' : Lowering} {stms : List Tree.Stm}
    (follows : Follows conv marks path scope depth level s) (someScope : s.scopes ≠ []) :
    ∀ decs : List Source.Dec, Source.Dec.walkList scope depth n decs found = .ok inner found' →
      found' ⊆ marks → lowerDecs conv level (Source.Dec.markList marks n decs) s = .ok stms s' →
      (requiring (SafeUse conv)).visitDecs conv level (Source.Dec.markList marks n decs) s ∧
        Follows conv marks path inner depth level s'
  | [], walked, _, ran => by
    unfold Source.Dec.walkList at walked
    unfold Source.Dec.markList at ran ⊢
    unfold Visitor.visitDecs
    obtain ⟨rfl, -⟩ := pure_ok.mp walked
    obtain ⟨-, rfl⟩ := lowerDecs_nil ran
    exact ⟨trivial, follows⟩
  | .var var init :: decs, walked, marked, ran => by
    unfold Source.Dec.walkList Source.Dec.walk at walked
    unfold Source.Dec.markList Source.Dec.mark at ran ⊢
    unfold Visitor.visitDecs
    obtain ⟨_, _, walkedVar, walkedDecs⟩ := bind_ok.mp walked
    obtain ⟨_, _, walkedInit, ended⟩ := bind_ok.mp walkedVar
    obtain ⟨rfl, rfl⟩ := pure_ok.mp ended
    obtain ⟨_, t, _, u, _, first, stored, second, -⟩ := lowerDecs_var ran
    obtain ⟨_, _, initRan, -⟩ := lowerValue_ok.mp first
    have markedInit := (Source.Dec.walkList_collects _ depth _ decs).within walkedDecs marked
    have initExtends := (lowerValue_extends level _).ok first
    have varExtends : Extends conv t u := (extending_allocateVariable level _).ok stored
    have follows' := (follows.extend initExtends).extend varExtends
    have someScope' : u.scopes ≠ [] := by
      rw [varExtends.scopes, initExtends.scopes]
      exact someScope
    have housed := housed_allocateVariable stored
    have bound := follows'.bind someScope' var.name housed.stored
    obtain ⟨safe, last⟩ :=
      lowerDecs_safe bound (scopes_bound _ _ someScope') decs walkedDecs marked second
    refine ⟨⟨lowerExp_safe follows init walkedInit markedInit initRan, ?_⟩, last⟩
    exact (later_iff first).mpr ((later_iff stored).mpr ⟨trivial, safe⟩)
  | .type name definition :: decs, walked, marked, ran => by
    unfold Source.Dec.walkList Source.Dec.walk at walked
    unfold Source.Dec.markList Source.Dec.mark at ran ⊢
    unfold Visitor.visitDecs
    obtain ⟨_, _, passed, walkedDecs⟩ := bind_ok.mp walked
    obtain ⟨rfl, rfl⟩ := pure_ok.mp passed
    exact lowerDecs_safe follows someScope decs walkedDecs marked (lowerDecs_type ran)
  | .functions group :: decs, walked, marked, ran => by
    unfold Source.Dec.walkList Source.Dec.walk at walked
    unfold Source.Dec.markList Source.Dec.mark at ran ⊢
    unfold Visitor.visitDecs
    obtain ⟨_, _, walkedDec, walkedDecs⟩ := bind_ok.mp walked
    obtain ⟨_, _, walkedGroup, ended⟩ := bind_ok.mp walkedDec
    obtain ⟨rfl, rfl⟩ := pure_ok.mp ended
    obtain ⟨levels, t, u, declared, bodies, rest⟩ := lowerDecs_functions ran
    have markedGroup := (Source.Dec.walkList_collects scope depth _ decs).within walkedDecs marked
    obtain ⟨vars, someScope', prepared⟩ := declareFunctions_prepared _ someScope declared
    have declaring := (extendingInner_declareFunctions level _).ok declared
    have followsGroup : Follows conv marks path scope depth level t :=
      ⟨by rw [vars]; exact follows.tracks, follows.length, follows.here,
        declaring.steps.linksFirst follows.links⟩
    have lowering := (lowerBodies_extends levels _).ok bodies
    have followsDecs := followsGroup.extend lowering
    obtain ⟨safe, last⟩ := lowerDecs_safe followsDecs (by rw [lowering.scopes]; exact someScope')
      decs walkedDecs marked rest
    refine ⟨(later_iff declared).mpr ⟨?_, (later_iff bodies).mpr safe⟩, last⟩
    exact lowerBodies_safe followsGroup group prepared walkedGroup markedGroup bodies
/-- The bodies of functions, each one function deeper than the declaration. -/
theorem lowerBodies_safe {path : List Level} {scope : Source.Scope} {depth n : Nat}
    {level : Level} {levels : List Level} {found found' : List Nat} {s s' : Lowering}
    (follows : Follows conv marks path scope depth level s) :
    ∀ group : List Source.FunDec,
      List.Forall₂ (Prepared s) levels (Source.FunDec.markList marks n group) →
      Source.FunDec.walkList scope depth n group found = .ok () found' → found' ⊆ marks →
      lowerBodies conv levels (Source.FunDec.markList marks n group) s = .ok () s' →
      (requiring (SafeUse conv)).visitBodies conv levels (Source.FunDec.markList marks n group) s
  | [], _, _, _, _ => by
    unfold Source.FunDec.markList Visitor.visitBodies
    trivial
  | ⟨name, params, result, body⟩ :: group, prepared, walked, marked, ran => by
    unfold Source.FunDec.walkList at walked
    unfold Source.FunDec.markList at prepared ran ⊢
    cases prepared with
    | cons first others =>
      rename_i own levels
      unfold Visitor.visitBodies
      obtain ⟨_, _, walkedBody, walkedGroup⟩ := bind_ok.mp walked
      obtain ⟨info, t, lowered, u, _, w, known, named, inner, rfl, finish, rest⟩ :=
        lowerBodies_cons ran
      have markedBody :=
        (Source.FunDec.walkList_collects scope depth _ group).within walkedGroup marked
      have extended := (extends_body result named inner).trans
        ((extending_finishProc own _).ok finish)
      have followsGroup := follows.extend extended
      obtain ⟨_, present, housed⟩ := first
      cases known.symm.trans present
      have entered := (follows.nest own).enter
      have followsBody := bindParams_follows params entered (List.cons_ne_nil _ _) housed named
      have formals := run_formalsOf known
      obtain ⟨_, bodyRan, -⟩ := outsideLoops_ok.mp inner
      refine (later_iff formals).mpr ((later_iff named).mpr
        ⟨trivial, ?_, (later_iff inner).mpr ?_⟩)
      · exact lowerExp_safe (followsBody.withExits []) body walkedBody markedBody bodyRan
      · refine (later_iff (run_fresh _ _)).mpr ((later_iff finish).mpr ?_)
        exact lowerBodies_safe followsGroup group
          (others.imp fun _ _ prepared => prepared.steps extended.steps) walkedGroup marked rest
end

end TreeCode.Lowering
