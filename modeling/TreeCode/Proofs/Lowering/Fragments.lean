import TreeCode.Proofs.Lowering.Nesting
import TreeCode.Proofs.Lowering.References
import TreeCode.Proofs.Source.Outline

/-!
The fragments of a program. Lowering follows the outline of the program text: each function gets the
level of its number, inside the level of the function around it, and each body and each literal
becomes one fragment, in the order of the outline.
-/

namespace TreeCode.Lowering

open Source (Outline)
open Source.Outline (nothing literal finish andThen)

variable {conv : Convention} {level own : Level} {around : List Nat} {s s' t t' u : Lowering}
  {make make' first second : Nat → Outline}

/-- The texts of the string literals among some fragments. -/
def literalTexts (fragments : List Fragment) : List String :=
  fragments.filterMap fun
    | .string _ text => some text
    | .proc _ _ => none

theorem literalTexts_append (one two : List Fragment) :
    literalTexts (one ++ two) = literalTexts one ++ literalTexts two :=
  List.filterMap_append

/-- A function has the level of its number, in the function next around it, and a label made of its
name and a number. -/
def Placed (levels : List LevelInfo) (f : Source.Function) : Prop :=
  ∃ info, levels[f.number]? = some info ∧ info.parent = f.around.head? ∧
    ∃ supply, info.frame.name = (freshLabelFor f.name supply).1

/-- A function stays in its place while more levels come. -/
theorem Placed.outlast {levels levels' : List LevelInfo} {f : Source.Function}
    (placed : Placed levels f) (grown : Outlasts levels levels') : Placed levels' f := by
  obtain ⟨info, known, parent, supply, named⟩ := placed
  obtain ⟨info', still, kept⟩ := grown f.number info known
  exact ⟨info', still, kept.parent.trans parent, supply, kept.name.trans named⟩

/-- On the way from `s` to `t`, lowering has followed an outline whose functions are numbered from
the first level that was free. -/
structure Outlined (s t : Lowering) (make : Nat → Outline) : Prop where
  grown : Outlasts s.levels t.levels
  count : t.levels.length = s.levels.length + (make s.levels.length).functions.length
  functions : ∀ f ∈ (make s.levels.length).functions, Placed t.levels f
  procs : procLevels t.fragments = procLevels s.fragments ++ (make s.levels.length).finished
  literals : literalTexts t.fragments =
    literalTexts s.fragments ++ (make s.levels.length).literals

section Outlined

theorem outlined_nothing (s : Lowering) : Outlined s s nothing :=
  ⟨Outlasts.refl _, rfl, nofun, (List.append_nil _).symm, (List.append_nil _).symm⟩

/-- Changes before and after that have to do with neither levels nor fragments. -/
theorem Outlined.quiet (outlined : Outlined s' t' make)
    (levels : s.levels = s'.levels := by rfl) (fragments : s.fragments = s'.fragments := by rfl)
    (levelsAfter : t.levels = t'.levels := by rfl)
    (fragmentsAfter : t.fragments = t'.fragments := by rfl) : Outlined s t make := by
  obtain ⟨grown, count, functions, procs, literals⟩ := outlined
  rw [← levels, ← levelsAfter] at grown count
  rw [← levels, ← levelsAfter] at functions
  rw [← levels, ← fragments, ← fragmentsAfter] at procs literals
  exact ⟨grown, count, functions, procs, literals⟩

theorem Outlined.same (outlined : Outlined s t make)
    (same : make' s.levels.length = make s.levels.length) : Outlined s t make' := by
  obtain ⟨grown, count, functions, procs, literals⟩ := outlined
  rw [← same] at count functions procs literals
  exact ⟨grown, count, functions, procs, literals⟩

/-- One part after another. In between, neither levels nor fragments change. -/
theorem Outlined.andThen (one : Outlined s t first) (two : Outlined t' u second)
    (levels : t'.levels = t.levels := by rfl) (fragments : t'.fragments = t.fragments := by rfl) :
    Outlined s u (andThen first second) := by
  obtain ⟨grown, count, functions, procs, literals⟩ := two
  rw [levels] at grown count functions procs literals
  rw [fragments] at procs literals
  rw [one.count] at count functions procs literals
  refine ⟨one.grown.trans grown, ?_, ?_, ?_, ?_⟩
  · rw [count, Outline.andThen, Outline.functions_append, List.length_append, Nat.add_assoc]
  · intro f member
    rcases List.mem_append.mp member with early | late
    · exact (one.functions f early).outlast grown
    · exact functions f late
  · rw [procs, one.procs, Outline.andThen, Outline.finished_append, List.append_assoc]
  · rw [literals, one.literals, Outline.andThen, Outline.literals_append, List.append_assoc]

theorem outlined_literal (s : Lowering) (text : String) :
    Outlined s (s.withLiteral text) (literal text) :=
  ⟨Outlasts.refl _, rfl, nofun, by simp [withLiteral, procLevels, literal],
    literalTexts_append _ _⟩

/-- Steps of the state in which no level is added and no fragment either. -/
theorem Outlined.still (outlined : Outlined s t make) (steps : Steps conv t u)
    (levels : u.levels.length = t.levels.length) (fragments : u.fragments = t.fragments) :
    Outlined s u make := by
  have grown := steps.outlasts
  refine ⟨outlined.grown.trans grown, levels.trans outlined.count, ?_, ?_, ?_⟩
  · exact fun f member => (outlined.functions f member).outlast grown
  · rw [fragments, outlined.procs]
  · rw [fragments, outlined.literals]

/-- A new variable makes no fragment. -/
theorem outlined_allocate (conv : Convention) {escapes : Bool} {access : Access}
    (outlined : Outlined s t make) (ran : allocateVariable level escapes t = .ok access u) :
    Outlined s u make := by
  have extended : Extends conv t u := (extending_allocateVariable level escapes).ok ran
  refine outlined.still extended.steps ?_ ?_ <;>
    obtain ⟨info, _, _, rfl⟩ := allocateVariable_ok.mp ran
  · exact List.length_set
  · rfl

/-- The value of an expression makes no further fragment. -/
theorem outlined_value {exp : Source.Exp} {value : Tree.Exp}
    (inner : ∀ {out : Lowered} {t : Lowering}, lowerExp conv level exp s = .ok out t →
      Outlined s t make)
    (ran : lowerValue conv level exp s = .ok value t) : Outlined s t make := by
  obtain ⟨lowered, u, first, rfl, rfl⟩ := lowerValue_ok.mp ran
  exact (inner first).quiet

/-- The effect of an expression makes no further fragment. -/
theorem outlined_effect {exp : Source.Exp} {stm : Tree.Stm}
    (inner : ∀ {out : Lowered} {t : Lowering}, lowerExp conv level exp s = .ok out t →
      Outlined s t make)
    (ran : lowerEffect conv level exp s = .ok stm t) : Outlined s t make := by
  obtain ⟨lowered, u, first, rfl, rfl⟩ := lowerEffect_ok.mp ran
  exact (inner first).quiet

/-- A joined conditional makes no further fragment. -/
theorem outlined_joinBranches {test yes no out : Lowered} {yesLabel noLabel join : Label}
    (outlined : Outlined s t make)
    (ran : joinBranches test yes no yesLabel noLabel join t = .ok out u) : Outlined s u make := by
  rcases joinBranches_ok ran with ⟨_, _, _, _, _, _, rfl, _⟩ | ⟨_, _, rfl, _, _, rfl, _⟩
  · exact outlined
  · exact outlined.quiet

/-- The body of a function ends. -/
theorem outlined_finish {body : Tree.Stm} (ran : finishProc conv own body s = .ok () t) :
    Outlined s t (finish own) := by
  obtain ⟨info, _, rfl⟩ := finishProc_ok.mp ran
  exact ⟨Outlasts.refl _, rfl, nofun, procLevels_append _ _, literalTexts_append _ _⟩

/-- A function gets the first free level. -/
theorem outlined_openLevel {name : String} {escapes : List Bool}
    (here : around.head? = some level)
    (ran : openLevel conv level (freshLabelFor name s.supply).1 escapes (s.draw (freshLabelFor name))
      = .ok own t) :
    own = s.levels.length ∧
      Outlined s t fun n => { functions := [⟨name, n, around⟩] } := by
  have grown := (extends_openLevel ran).steps.outlasts
  obtain ⟨-, rfl, frame, supply, made, rfl⟩ := openLevel_ok.mp ran
  refine ⟨rfl, grown, List.length_append, ?_, ?_, ?_⟩
  · intro f member
    rw [List.mem_singleton] at member
    subst member
    refine ⟨_, List.getElem?_concat_length, here.symm, s.supply, ?_⟩
    exact (Convention.frameFor_labels made).1
  · exact (List.append_nil _).symm
  · exact (List.append_nil _).symm

/-- The functions of a group get the levels that follow each other from the first free one. -/
theorem declareFunctions_outlined (here : around.head? = some level) :
    ∀ (group : List Source.FunDec) {levels : List Level} {s t : Lowering},
      declareFunctions conv level group s = .ok levels t →
      levels = List.range' s.levels.length group.length ∧
        Outlined s t fun n => { functions := Outline.group around n group }
  | [], _, _, _, ran => by
    obtain ⟨rfl, rfl⟩ := declareFunctions_nil ran
    exact ⟨rfl, outlined_nothing _⟩
  | ⟨name, params, result, body⟩ :: group, _, _, _, ran => by
    obtain ⟨own, u, rest, opened, declared, rfl⟩ := declareFunctions_cons ran
    obtain ⟨rfl, first⟩ := outlined_openLevel here opened
    obtain ⟨rfl, others⟩ := declareFunctions_outlined here group declared
    refine ⟨?_, ?_⟩
    · rw [List.length_cons, List.range'_succ]
      exact congrArg (fun n => _ :: List.range' n group.length) first.count
    · exact first.andThen others

end Outlined

mutual
/-- The fragments of what stands inside subscripts. -/
theorem lowerVar_outlined {level : Level} {around : List Nat} (here : around.head? = some level) :
    ∀ (var : Source.Var) {s t : Lowering} {tree : Tree.Exp},
      lowerVar conv level var s = .ok tree t → Outlined s t (var.outline around)
  | .simple name pos, _, _, _, ran => by
    obtain ⟨declared, access, fp, _, _, rfl, rfl⟩ := lowerVar_simple.mp ran
    exact outlined_nothing _
  | .field record name slot pos, _, _, _, ran => by
    obtain ⟨index, base, _, inner, rfl⟩ := lowerVar_field ran
    exact lowerVar_outlined here record inner
  | .subscript array index, _, _, _, ran => by
    obtain ⟨base, t, offset, first, second, rfl⟩ := lowerVar_subscript ran
    exact (lowerVar_outlined here array first).andThen
      (outlined_value (lowerExp_outlined here index) second)
/-- Lowering an expression follows its outline. -/
theorem lowerExp_outlined {level : Level} {around : List Nat} (here : around.head? = some level) :
    ∀ (exp : Source.Exp) {s t : Lowering} {out : Lowered},
      lowerExp conv level exp s = .ok out t → Outlined s t (exp.outline around)
  | .nil, _, _, _, ran => by
    obtain ⟨rfl, rfl⟩ := lowerExp_nil ran
    exact outlined_nothing _
  | .int value, _, _, _, ran => by
    obtain ⟨rfl, rfl⟩ := lowerExp_int ran
    exact outlined_nothing _
  | .string text, _, _, _, ran => by
    obtain ⟨rfl, rfl⟩ := lowerExp_string ran
    exact outlined_literal _ text
  | .breakLoop pos, _, _, _, ran => by
    obtain ⟨exit, _, rfl, rfl⟩ := lowerExp_breakLoop ran
    exact outlined_nothing _
  | .var var, _, _, _, ran => by
    obtain ⟨tree, inner, rfl⟩ := lowerExp_var ran
    exact lowerVar_outlined here var inner
  | .call func args pos, _, _, _, ran => by
    obtain ⟨callee, values, _, inner, rfl⟩ := lowerExp_call ran
    exact lowerArgs_outlined here args inner
  | .op oper left right strings, _, _, _, ran => by
    obtain ⟨a, t, b, first, second, rfl⟩ := lowerExp_op ran
    exact (outlined_value (lowerExp_outlined here left) first).andThen
      (outlined_value (lowerExp_outlined here right) second)
  | .record type fields, _, _, _, ran => by
    obtain ⟨stores, inner, rfl⟩ := lowerExp_record ran
    exact (lowerFields_outlined here fields inner).quiet
  | .seq exps, _, _, _, ran => by
    obtain ⟨stms, last, t, inner, rfl, rfl⟩ := lowerExp_seq ran
    exact (lowerSeq_outlined here exps inner).quiet
  | .assign var value, _, _, _, ran => by
    obtain ⟨dst, t, src, first, second, rfl⟩ := lowerExp_assign ran
    exact (lowerVar_outlined here var first).andThen
      (outlined_value (lowerExp_outlined here value) second)
  | .ifThen test yes, _, _, _, ran => by
    obtain ⟨a, t, b, u, branch, first, second, _, rfl, rfl⟩ := lowerExp_ifThen ran
    exact ((lowerExp_outlined here test first).andThen
      (lowerExp_outlined here yes second)).quiet
  | .ifElse test yes no, _, _, _, ran => by
    obtain ⟨a, t, b, u, c, v, first, second, third, joined⟩ := lowerExp_ifElse ran
    have branches := (lowerExp_outlined here yes second).andThen (lowerExp_outlined here no third)
    exact outlined_joinBranches
      ((lowerExp_outlined here test first).andThen branches).quiet joined
  | .whileDo test body, _, _, _, ran => by
    obtain ⟨a, t, b, u, branch, first, second, _, rfl, rfl⟩ := lowerExp_whileDo ran
    obtain ⟨v, inner, rfl⟩ := inLoop_ok.mp second
    exact ((lowerExp_outlined here test first).andThen (lowerExp_outlined here body inner)).quiet
  | .forTo var lo hi body, _, _, _, ran => by
    obtain ⟨a, t, b, u, access, v, c, w, _, first, second, stored, looped, rfl, rfl, rfl⟩ :=
      lowerExp_forTo ran
    obtain ⟨x, inner, rfl⟩ := inLoop_ok.mp looped
    have hiPart := outlined_value (lowerExp_outlined here hi) second
    have rest := (outlined_allocate conv hiPart stored).andThen (lowerExp_outlined here body inner)
    exact ((outlined_value (lowerExp_outlined here lo) first).andThen rest).quiet
  | .letIn decs body, _, _, _, ran => by
    obtain ⟨stms, t, b, u, first, second, rfl, rfl⟩ := lowerExp_letIn ran
    exact ((lowerDecs_outlined here decs first).andThen
      (lowerExp_outlined here body second)).quiet
  | .array type size init, _, _, _, ran => by
    obtain ⟨a, t, b, first, second, rfl⟩ := lowerExp_array ran
    exact (outlined_value (lowerExp_outlined here size) first).andThen
      (outlined_value (lowerExp_outlined here init) second)
/-- The arguments of a call, in order. -/
theorem lowerArgs_outlined {level : Level} {around : List Nat} (here : around.head? = some level) :
    ∀ (args : List Source.Exp) {s t : Lowering} {values : List Tree.Exp},
      lowerArgs conv level args s = .ok values t →
      Outlined s t (Source.Exp.outlineList around args)
  | [], _, _, _, ran => by
    obtain ⟨rfl, rfl⟩ := lowerArgs_nil ran
    exact outlined_nothing _
  | arg :: args, _, _, _, ran => by
    obtain ⟨value, t, rest, first, second, rfl⟩ := lowerArgs_cons ran
    exact (outlined_value (lowerExp_outlined here arg) first).andThen
      (lowerArgs_outlined here args second)
/-- The values of record fields, in order. -/
theorem lowerFields_outlined {level : Level} {around : List Nat}
    (here : around.head? = some level) {r : Temp} {slot : Nat} :
    ∀ (fields : List Source.Field) {s t : Lowering} {stores : List Tree.Stm},
      lowerFields conv level r slot fields s = .ok stores t →
      Outlined s t (Source.Field.outlineList around fields)
  | [], _, _, _, ran => by
    obtain ⟨rfl, rfl⟩ := lowerFields_nil ran
    exact outlined_nothing _
  | ⟨name, exp⟩ :: fields, _, _, _, ran => by
    obtain ⟨value, t, rest, first, second, rfl⟩ := lowerFields_cons ran
    exact (outlined_value (lowerExp_outlined here exp) first).andThen
      (lowerFields_outlined here fields second)
/-- The parts of a sequence, in order. -/
theorem lowerSeq_outlined {level : Level} {around : List Nat} (here : around.head? = some level) :
    ∀ (exps : List Source.Exp) {s t : Lowering} {code : List Tree.Stm × Lowered},
      lowerSeq conv level exps s = .ok code t →
      Outlined s t (Source.Exp.outlineList around exps)
  | [], _, _, _, ran => by
    obtain ⟨_, rfl⟩ := lowerSeq_nil ran
    exact outlined_nothing _
  | [exp], _, _, _, ran => by
    obtain ⟨_, inner, _⟩ := lowerSeq_single ran
    exact (lowerExp_outlined here exp inner).andThen (outlined_nothing _)
  | exp :: next :: exps, _, _, _, ran => by
    obtain ⟨stm, t, rest, _, first, second, _⟩ := lowerSeq_cons ran
    exact (outlined_effect (lowerExp_outlined here exp) first).andThen
      (lowerSeq_outlined here (next :: exps) second)
/-- Declarations; a group of functions gets its levels before the first body is lowered. -/
theorem lowerDecs_outlined {level : Level} {around : List Nat} (here : around.head? = some level) :
    ∀ (decs : List Source.Dec) {s t : Lowering} {stms : List Tree.Stm},
      lowerDecs conv level decs s = .ok stms t →
      Outlined s t (Source.Dec.outlineList around decs)
  | [], _, _, _, ran => by
    obtain ⟨rfl, rfl⟩ := lowerDecs_nil ran
    exact outlined_nothing _
  | .var binder init :: decs, _, _, _, ran => by
    obtain ⟨value, t, access, u, rest, first, stored, second, rfl⟩ := lowerDecs_var ran
    have initialised := outlined_value (lowerExp_outlined here init) first
    exact (outlined_allocate conv initialised stored).andThen (lowerDecs_outlined here decs second)
  | .type name definition :: decs, s, _, _, ran =>
    (outlined_nothing s).andThen (lowerDecs_outlined here decs (lowerDecs_type ran))
  | .functions group :: decs, s, _, _, ran => by
    obtain ⟨levels, t, u, declared, bodies, rest⟩ := lowerDecs_functions ran
    obtain ⟨rfl, headers⟩ := declareFunctions_outlined here group declared
    have functions : Outlined s u ((Source.Dec.functions group).outline around) := by
      refine (headers.andThen (lowerBodies_outlined around group bodies)).same ?_
      rw [Outline.andThen, Outline.length_group]
      rfl
    exact functions.andThen (lowerDecs_outlined here decs rest)
/-- The bodies of functions, whose levels have the numbers from the given one on. -/
theorem lowerBodies_outlined (around : List Nat) {number : Nat} :
    ∀ (group : List Source.FunDec) {s t : Lowering},
      lowerBodies conv (List.range' number group.length) group s = .ok () t →
      Outlined s t (Source.FunDec.outlineList around number group)
  | [], _, _, ran => by
    obtain rfl := lowerBodies_nil ran
    exact outlined_nothing _
  | ⟨name, params, result, body⟩ :: group, s, _, ran => by
    rw [List.length_cons, List.range'_succ] at ran
    obtain ⟨info, t, lowered, u, _, w, _, bound, inner, rfl, finish, rest⟩ := lowerBodies_cons ran
    obtain ⟨v, bodyRan, rfl⟩ := outsideLoops_ok.mp inner
    obtain ⟨-, levels, fragments⟩ := bindParams_same params _ bound
    have bodyPart : Outlined s v (body.outline (number :: around)) :=
      (lowerExp_outlined rfl body bodyRan).quiet levels.symm fragments.symm
    exact (bodyPart.andThen (outlined_finish finish)).andThen (lowerBodies_outlined around group rest)
end

section Programs

/-- The fragments that were made of a program are those of its outline: a procedure for each
function and one for the program itself, and each literal. -/
structure Complete (outline : Outline) (t : Lowering) : Prop where
  frames : t.frames.length = outline.functions.length + 1
  numbers : outline.functions.map Source.Function.number = List.range' 1 outline.functions.length
  functions : ∀ f ∈ outline.functions, Placed t.levels f
  /-- Every level has one procedure. -/
  procs : (procLevels t.fragments).Perm (List.range (outline.functions.length + 1))
  last : ∃ body, t.fragments.getLast? = some (.proc 0 body)
  /-- The procedure of a function comes before those of the functions around it. -/
  inner : ∀ f ∈ outline.functions, ∀ outer ∈ f.around,
    [f.number, outer].Sublist (procLevels t.fragments)
  literals : literalTexts t.fragments = outline.literals

/-- The last fragment is the body that was finished last. -/
theorem last_fragment {body : Tree.Stm} (ran : finishProc conv own body s = .ok () t) :
    ∃ wrapped, t.fragments.getLast? = some (.proc own wrapped) := by
  obtain ⟨info, _, rfl⟩ := finishProc_ok.mp ran
  exact ⟨_, List.getLast?_concat⟩

/-- No fragment of a program is lost, made twice or taken for that of another function. -/
theorem program_fragments_complete (conv : Convention) (entry : Label) (supply : Supply)
    (program : Source.Exp) (t : Lowering)
    (ran : lowerProgram conv program (start conv entry supply) = .ok () t) :
    Complete program.programOutline t := by
  obtain ⟨stm, u, lowered, finished⟩ := lowerProgram_ok ran
  have body : Outlined (start conv entry supply) u (program.outline [0]) :=
    outlined_effect (lowerExp_outlined rfl program) lowered
  obtain ⟨-, count, functions, procs, literals⟩ := body.andThen (outlined_finish finished)
  have tidy := program.programOutline_tidy
  have ordered : procLevels t.fragments = program.programOutline.finished := procs
  refine
    { frames := ?_
      numbers := tidy.numbers
      functions := functions
      procs := ?_
      last := last_fragment finished
      inner := ?_
      literals := literals }
  · rw [frames, List.length_map, count]
    exact Nat.add_comm 1 _
  · have each := tidy.finished
    rw [tidy.numbers] at each
    rw [ordered, List.range_eq_range', List.range'_succ]
    exact each.trans List.perm_append_comm
  · intro f member outer further
    rw [ordered]
    exact (tidy.inner f member outer further).resolve_left List.not_mem_nil

/-- Two functions next to each other, with another one inside the first. -/
def greetings : Source.Exp :=
  .letIn [.functions [
      ⟨"greet", [], none,
        .letIn [.functions [⟨"again", [], none, .call "print" [.string "hello"] {}⟩]]
          (.seq [.call "print" [.string "oh, "] {}, .call "again" [] {}])⟩,
      ⟨"part", [], none, .call "print" [.string "bye"] {}⟩]]
    (.seq [.call "greet" [] {}, .call "part" [] {}, .call "print" [.string "hello"] {}])

theorem greetings_complete :
    ∃ t, lowerProgram .small greetings (start .small "tigermain" {}) = .ok () t ∧
      procLevels t.fragments = [3, 1, 2, 0] ∧
      literalTexts t.fragments = ["hello", "oh, ", "bye", "hello"] ∧
      Complete greetings.programOutline t := by
  have checked : (match lowerProgram .small greetings (start .small "tigermain" {}) with
    | .ok _ t => some (procLevels t.fragments, literalTexts t.fragments)
    | .error _ _ => none) = some ([3, 1, 2, 0], ["hello", "oh, ", "bye", "hello"]) := by
    decide +kernel
  split at checked
  next t ran =>
    obtain ⟨procs, texts⟩ := Prod.mk.inj (Option.some.inj checked)
    exact ⟨t, ran, procs, texts,
      program_fragments_complete .small "tigermain" {} greetings t ran⟩
  next => cases checked

end Programs

end TreeCode.Lowering
