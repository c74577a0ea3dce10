import Mathlib.Data.List.Nodup
import TreeCode.Proofs.Canonical.Labels
import TreeCode.Proofs.Canonical.References
import TreeCode.Proofs.Code.Labels
import TreeCode.Proofs.Lowering.References
import TreeCode.Proofs.Session.Hygiene

/-!
Labels over a whole session. All labels that the units of a session define are different, but for
that of the program itself, which every unit defines once. The functions of a unit jump to labels
of their own and name only what the unit or the runtime system has.
-/

namespace TreeCode

open Tree

/-- The labels that the instructions of a unit define, in order. -/
def Assembly.labels (unit : Assembly) : List Label := Instr.defined unit.instrs

/-- What a function of a unit may refer to. It jumps to labels that it has once; all other names
are those of functions and literals of the unit or of functions of the runtime system. -/
def Assembly.limits (unit : Assembly) (proc : Procedure) : Limits where
  targets label := (marks proc.ir).count label = 1
  names label := (∃ other ∈ unit.procs, other.name = label) ∨
    (∃ literal ∈ unit.strings, literal.label = label) ∨ label ∈ Lowering.runtimeNames
  nested := False

/-- The units of the programs that compile, when programs are compiled one after the other. -/
def Session.units : Session → List Source.Exp → List Assembly
  | _, [] => []
  | session, program :: programs =>
    (session.compile program).outcome.toOption.toList ++
      (session.compile program).session.units programs

variable {session session' : Session} {frames : List Frame} {program : Source.Exp}
  {unit : Assembly}

section Growth

/-- A session with the same settings in which no label was taken back. -/
structure Session.Onward (first second : Session) : Prop where
  config : second.config = first.config
  labels : first.supply.labels ≤ second.supply.labels

theorem Session.Advances.onward {first second : Session} (moved : Advances first second) :
    Onward first second :=
  ⟨moved.config, moved.supply.2⟩

end Growth

section Fragments

/-- A function as it is compiled from the fragment of a level. -/
structure Procedure.From (frames : List Frame) (level : Level) (body : Stm) (proc : Procedure) :
    Prop where
  name : some proc.name = frames[level]?.map Frame.name
  ir : ∃ supply, proc.ir = (body.canonical supply).1
  defined : Instr.defined proc.instrs = proc.name :: marks proc.ir

/-- A literal as it is compiled from its fragment. -/
structure Literal.From (label : Label) (literal : Literal) : Prop where
  named : literal.label = label
  defined : Instr.defined literal.instrs = [label]

/-- Functions and literals as they are compiled from fragments, each in order. -/
inductive Compiled (frames : List Frame) : List Fragment → List Procedure → List Literal → Prop
  | nil : Compiled frames [] [] []
  | proc {level : Level} {body : Stm} {proc : Procedure} {fragments : List Fragment}
    {procs : List Procedure} {strings : List Literal} :
    proc.From frames level body → Compiled frames fragments procs strings →
    Compiled frames (.proc level body :: fragments) (proc :: procs) strings
  | string {label : Label} {text : String} {literal : Literal} {fragments : List Fragment}
    {procs : List Procedure} {strings : List Literal} :
    literal.From label → Compiled frames fragments procs strings →
    Compiled frames (.string label text :: fragments) procs (literal :: strings)

/-- The bodies of the procedures among the fragments keep limits of their own. -/
def Bounded (limits : Stm → Limits) (fragments : List Fragment) : Prop :=
  ∀ level body, .proc level body ∈ fragments → body.Respects (limits body)

variable {limits : Stm → Limits} {fragments : List Fragment} {procs : List Procedure}
  {strings : List Literal}

/-- The statements of a compiled function keep the limits of its body and carry its labels. -/
theorem Procedure.From.respects {level : Level} {body : Stm} {proc : Procedure} {bounds : Limits}
    (made : proc.From frames level body) (respects : body.Respects bounds) :
    (∀ stm ∈ proc.ir, stm.Respects bounds.flat) ∧ marks proc.ir = body.labels := by
  obtain ⟨supply, same⟩ := made.ir
  rw [same]
  exact canonical_respects respects supply

theorem compileProc_from {level : Level} {body : Stm} {proc : Procedure} {bounds : Limits}
    (respects : body.Respects bounds)
    (ran : compileProc frames level body session = .ok proc session') :
    proc.From frames level body := by
  obtain ⟨frame, code, state, known, selected, _, rfl⟩ := compileProc_ok ran
  refine ⟨by rw [known]; rfl, ⟨session.supply, rfl⟩, ?_⟩
  have flat : ∀ stm ∈ (body.canonical session.supply).1, stm.labels = stm.label?.toList :=
    fun stm member => Stm.labels_of_respects id
      ((canonical_respects respects session.supply).1 stm member)
  rw [List.cons_append, Instr.defined_atLabel, Instr.defined_append,
    Selector.selectAll_defined flat selected]
  exact congrArg _ (List.append_nil _)

/-- Each fragment is compiled on its own, in order. -/
theorem compileFragments_compiled (bounded : Bounded limits fragments)
    (ran : compileFragments frames fragments session = .ok (procs, strings) session') :
    Compiled frames fragments procs strings := by
  induction fragments generalizing session procs strings with
  | nil =>
    cases ran
    exact .nil
  | cons fragment rest ih =>
    have boundedRest : Bounded limits rest := fun level body member =>
      bounded level body (List.mem_cons_of_mem _ member)
    cases fragment with
    | proc level body =>
      obtain ⟨_, _, _, ran⟩ := bind_ok.mp ran
      obtain ⟨proc, _, compiled, ran⟩ := bind_ok.mp ran
      obtain ⟨⟨others, strings⟩, _, compiledRest, ran⟩ := bind_ok.mp ran
      cases ran
      exact .proc (compileProc_from (bounded level body List.mem_cons_self) compiled)
        (ih boundedRest compiledRest)
    | string label text =>
      obtain ⟨_, _, _, ran⟩ := bind_ok.mp ran
      obtain ⟨literal, _, compiled, ran⟩ := bind_ok.mp ran
      obtain ⟨⟨procs, others⟩, _, compiledRest, ran⟩ := bind_ok.mp ran
      cases ran
      cases compiled
      exact .string ⟨rfl, rfl⟩ (ih boundedRest compiledRest)

theorem Compiled.proc_from (compiled : Compiled frames fragments procs strings) :
    ∀ proc ∈ procs, ∃ level body, .proc level body ∈ fragments ∧ proc.From frames level body := by
  induction compiled with
  | nil => nofun
  | @proc level body proc fragments procs strings made _ ih =>
    refine List.forall_mem_cons.mpr ⟨⟨level, body, List.mem_cons_self, made⟩, ?_⟩
    intro other member
    obtain ⟨level, body, among, made⟩ := ih other member
    exact ⟨level, body, List.mem_cons_of_mem _ among, made⟩
  | string _ _ ih =>
    intro other member
    obtain ⟨level, body, among, made⟩ := ih other member
    exact ⟨level, body, List.mem_cons_of_mem _ among, made⟩

theorem Compiled.string_mem (compiled : Compiled frames fragments procs strings) {label : Label}
    {text : String} (member : .string label text ∈ fragments) :
    ∃ literal ∈ strings, literal.label = label := by
  induction compiled with
  | nil => cases member
  | proc _ _ ih =>
    rcases List.mem_cons.mp member with same | later
    · cases same
    · exact ih later
  | @string _ _ literal _ _ _ made _ ih =>
    rcases List.mem_cons.mp member with same | later
    · cases same
      exact ⟨literal, List.mem_cons_self, made.named⟩
    · obtain ⟨other, among, named⟩ := ih later
      exact ⟨other, List.mem_cons_of_mem _ among, named⟩

/-- Functions are named by the frames of their levels. -/
theorem Compiled.names (compiled : Compiled frames fragments procs strings) :
    procs.map (fun proc => some proc.name) =
      (Lowering.procLevels fragments).map fun level => frames[level]?.map Frame.name := by
  induction compiled with
  | nil => rfl
  | proc made _ ih => exact congrArg₂ List.cons made.name ih
  | string _ _ ih => exact ih

/-- The labels that the instructions define: those of the literals, and those of each function
after its name. -/
theorem Compiled.defined (compiled : Compiled frames fragments procs strings) :
    Instr.defined (strings.flatMap Literal.instrs) = strings.map Literal.label ∧
      Instr.defined (procs.flatMap Procedure.instrs) =
        procs.flatMap fun proc => proc.name :: marks proc.ir := by
  induction compiled with
  | nil => exact ⟨rfl, rfl⟩
  | proc made _ ih =>
    refine ⟨ih.1, ?_⟩
    rw [List.flatMap_cons, List.flatMap_cons, Instr.defined_append, made.defined, ih.2]
  | string made _ ih =>
    refine ⟨?_, ih.2⟩
    rw [List.flatMap_cons, List.map_cons, Instr.defined_append, made.defined, made.named, ih.1]
    rfl

/-- What is compiled from fragments carries their labels and the names of the functions. -/
theorem Compiled.labels_perm (bounded : Bounded limits fragments)
    (compiled : Compiled frames fragments procs strings) :
    (strings.map Literal.label ++ procs.flatMap fun proc => proc.name :: marks proc.ir).Perm
      (procs.map Procedure.name ++ fragments.flatMap Fragment.labels) := by
  induction compiled with
  | nil => exact List.Perm.refl _
  | @proc level body proc fragments procs strings made _ ih =>
    have rest := ih fun level body member => bounded level body (List.mem_cons_of_mem _ member)
    obtain ⟨_, carried⟩ := made.respects (bounded level body List.mem_cons_self)
    refine List.perm_iff_count.mpr fun label => ?_
    have same := rest.count_eq label
    simp only [List.flatMap_cons, List.map_cons, List.count_append, List.count_cons, carried,
      Fragment.labels] at same ⊢
    omega
  | @string label text literal fragments procs strings made _ ih =>
    have rest := ih fun level body member => bounded level body (List.mem_cons_of_mem _ member)
    rw [List.map_cons, made.named, List.flatMap_cons]
    exact (rest.cons label).trans List.perm_middle.symm

end Fragments

section Units

/-- What is known of a compiled unit: every level has its function. -/
theorem names_perm {state : Lowering} {fragments : List Fragment} {procs : List Procedure}
    {strings : List Literal} (compiled : Compiled state.frames fragments procs strings)
    (levels : (Lowering.procLevels fragments).Perm (List.range state.levels.length)) :
    (procs.map Procedure.name).Perm state.functionLabels := by
  have named : (List.range state.levels.length).map
      (fun level => state.frames[level]?.map Frame.name) = state.functionLabels.map some := by
    refine List.ext_getElem? fun i => ?_
    by_cases bound : i < state.levels.length
    · simp [Lowering.functionLabels, Lowering.frames, bound]
    · simp [Lowering.functionLabels, bound]
  have all := levels.map fun level => state.frames[level]?.map Frame.name
  rw [← compiled.names, named, ← Function.comp_def some Procedure.name, ← List.map_map] at all
  exact (List.map_perm_map_iff fun _ _ same => Option.some.inj same).mp all

/-- The labels of a unit are that of the program itself and labels issued while it was compiled,
and its functions refer only to what is there. -/
theorem compiled_labels (compiled : (session.compile program).outcome = .ok unit) :
    unit.labels = unit.strings.map Literal.label ++
        unit.procs.flatMap (fun proc => proc.name :: marks proc.ir) ∧
      (∃ issued, unit.labels.Perm (session.config.entry :: issued) ∧
        Issued session.supply.labels (session.compile program).session.supply.labels issued) ∧
      ∀ proc ∈ unit.procs, ∀ stm ∈ proc.ir, stm.Respects (unit.limits proc) := by
  obtain ⟨marked, session', analysed, ran⟩ := compile_ok compiled
  have after : (session.compile program).session = session' := by
    unfold Session.compile
    rw [analysed]
    simp [ran]
  obtain ⟨state, middle, lowered, _, supply, selected⟩ := compileMarked_ok ran
  have accounted := Lowering.lowerProgram_accounts lowered
  obtain ⟨functions, named, issued⟩ := Lowering.lowerProgram_defines lowered
  have made := compileFragments_compiled accounted.bodies selected
  have grown := ((advances_compileFragments _ _).ok selected).onward
  have levels := accounted.levels
  rw [List.append_nil] at levels
  have names := names_perm made levels
  have whole : unit.labels = unit.strings.map Literal.label ++
      unit.procs.flatMap fun proc => proc.name :: marks proc.ir := by
    unfold Assembly.labels Assembly.instrs
    rw [Instr.defined_append, made.defined.1, made.defined.2]
  refine ⟨whole, ⟨functions ++ state.fragments.flatMap Fragment.labels, ?_, ?_⟩, ?_⟩
  · rw [whole]
    refine (made.labels_perm accounted.bodies).trans ((names.append_right _).trans ?_)
    rw [named]
    exact List.Perm.refl _
  · rw [after]
    have later := issued.append (issued_nil (supply ▸ grown.labels))
    rw [List.append_nil] at later
    exact later
  · intro proc member stm inside
    obtain ⟨level, body, among, produced⟩ := made.proc_from proc member
    obtain ⟨respects, carried⟩ := produced.respects (accounted.bodies level body among)
    have distinct : body.labels.Nodup :=
      (List.nodup_flatMap.mp (List.nodup_append.mp issued.distinct).2.1).1 _ among
    have le : (state.closing body).flat.Le (unit.limits proc) := by
      refine ⟨fun label own => ?_, ?_, id⟩
      · change (marks proc.ir).count label = 1
        rw [carried]
        exact List.count_eq_one_of_mem distinct own
      · rintro label (function | ⟨text, literal⟩ | runtime)
        · exact .inl (List.mem_map.mp (names.mem_iff.mpr function))
        · exact .inr (.inl (made.string_mem literal))
        · exact .inr (.inr runtime)
    exact Stm.respects_of_le le stm (respects stm inside)

/-- A label without a dot is never issued. -/
theorem Issued.not_mem {low high : Nat} {labels : List Label} (issued : Issued low high labels)
    {label : Label} (plain : '.' ∉ label.toList) : label ∉ labels := by
  intro member
  obtain ⟨k, _, _, numbered⟩ := issued.numbered label member
  exact plain numbered.dot_mem

/-- But for that of the program itself, all labels of the units of a session are issued while
they are compiled. -/
theorem units_labels (plain : '.' ∉ session.config.entry.toList) (programs : List Source.Exp) :
    ∃ high issued, Issued session.supply.labels high issued ∧
      (((session.units programs).flatMap Assembly.labels).filter
        (· ≠ session.config.entry)).Perm issued := by
  induction programs generalizing session with
  | nil => exact ⟨_, [], issued_nil (Nat.le_refl _), List.Perm.refl _⟩
  | cons program programs ih =>
    have onward := (compile_advances session program).onward
    rw [← onward.config] at plain
    obtain ⟨high, issued, distinct, same⟩ := ih plain
    rw [onward.config] at same plain
    cases outcome : (session.compile program).outcome with
    | error error =>
      refine ⟨high, issued, (issued_nil onward.labels).append distinct, ?_⟩
      rw [Session.units, outcome]
      exact same
    | ok unit =>
      obtain ⟨_, ⟨first, perm, here⟩, _⟩ := compiled_labels outcome
      refine ⟨high, first ++ issued, here.append distinct, ?_⟩
      have own : (unit.labels.filter (· ≠ session.config.entry)).Perm first := by
        have others : ∀ label ∈ first, decide (label ≠ session.config.entry) = true :=
          fun label member => decide_eq_true fun same => here.not_mem plain (same ▸ member)
        have kept := perm.filter fun label => decide (label ≠ session.config.entry)
        rw [List.filter_cons_of_neg (by simp), List.filter_eq_self.mpr others] at kept
        exact kept
      rw [Session.units, outcome]
      change ((unit.labels ++ _).filter _).Perm _
      rw [List.filter_append]
      exact own.append same

/-- The units of a session come from compilations with the same settings. -/
theorem mem_units {programs : List Source.Exp} (member : unit ∈ session.units programs) :
    ∃ earlier program, earlier.config = session.config ∧
      (Session.compile earlier program).outcome = .ok unit := by
  induction programs generalizing session with
  | nil => cases member
  | cons program programs ih =>
    rcases List.mem_append.mp member with here | later
    · have compiled := ok_of_toOption (Option.mem_toList.mp here)
      exact ⟨session, program, rfl, compiled⟩
    · obtain ⟨earlier, other, same, compiled⟩ := ih later
      exact ⟨earlier, other, same.trans (compile_advances session program).config, compiled⟩

end Units

/-- Labels are unique and closed over a whole session. The name of the program itself, which has no
dot in it, is defined once in every unit; all other labels of all units are different. The label
instructions of a unit are those of its literals, and of the names of its functions and the labels
in them; each function jumps only to labels that it carries once, and names only functions and
literals of its unit and functions of the runtime system. -/
theorem session_labels_unique_and_closed (session : Session) (programs : List Source.Exp)
    (plain : '.' ∉ session.config.entry.toList) :
    (((session.units programs).flatMap Assembly.labels).filter
        (· ≠ session.config.entry)).Nodup ∧
      ∀ unit ∈ session.units programs,
        unit.labels.count session.config.entry = 1 ∧
        unit.labels = unit.strings.map Literal.label ++
          unit.procs.flatMap (fun proc => proc.name :: marks proc.ir) ∧
        ∀ proc ∈ unit.procs, ∀ stm ∈ proc.ir, stm.Respects (unit.limits proc) := by
  constructor
  · obtain ⟨_, issued, distinct, same⟩ := units_labels plain programs
    exact same.nodup_iff.mpr distinct.distinct
  · intro unit member
    obtain ⟨earlier, program, same, compiled⟩ := mem_units member
    obtain ⟨whole, ⟨issued, perm, distinct⟩, closed⟩ := compiled_labels compiled
    refine ⟨?_, whole, closed⟩
    rw [same] at perm
    rw [perm.count_eq, List.count_cons_self, List.count_eq_zero.mpr (distinct.not_mem plain)]

/-- A function with a loop that is left, and with a literal. -/
def announcing : Source.Exp :=
  .letIn
    [.functions [⟨"say", [], none, .whileDo (.int 1)
      (.seq [.call "print" [.string "on"] {}, .breakLoop {}])⟩]]
    (.call "say" [] {})

/-- Two units of one session, between which a program failed to compile. -/
theorem announcing_twice_labels :
    ∃ session, Session.start {} = .ok session ∧ '.' ∉ session.config.entry.toList ∧
      (session.units [announcing, .breakLoop {}, announcing]).map Assembly.labels =
        [[".L4", "say.0", ".L1", ".L2", ".L3", "tigermain"],
          [".L9", "say.5", ".L6", ".L7", ".L8", "tigermain"]] ∧
      (((session.units [announcing, .breakLoop {}, announcing]).flatMap Assembly.labels).filter
        (· ≠ session.config.entry)).Nodup ∧
      ∀ unit ∈ session.units [announcing, .breakLoop {}, announcing],
        unit.labels.count session.config.entry = 1 ∧
        ∀ proc ∈ unit.procs, ∀ stm ∈ proc.ir, stm.Respects (unit.limits proc) := by
  have evaluated : ((Session.start {}).toOption.map fun session =>
      (session.config.entry,
        (session.units [announcing, .breakLoop {}, announcing]).map Assembly.labels)) =
      some ("tigermain", [[".L4", "say.0", ".L1", ".L2", ".L3", "tigermain"],
        [".L9", "say.5", ".L6", ".L7", ".L8", "tigermain"]]) := by decide +kernel
  obtain ⟨session, began, evaluated⟩ := Option.map_eq_some_iff.mp evaluated
  obtain ⟨entry, labels⟩ := Prod.mk.inj evaluated
  have plain : '.' ∉ session.config.entry.toList := by
    rw [entry]
    decide
  obtain ⟨unique, closed⟩ := session_labels_unique_and_closed session
    [announcing, .breakLoop {}, announcing] plain
  refine ⟨session, ok_of_toOption began, plain, labels, unique, fun unit member => ?_⟩
  obtain ⟨once, _, respects⟩ := closed unit member
  exact ⟨once, respects⟩

end TreeCode
