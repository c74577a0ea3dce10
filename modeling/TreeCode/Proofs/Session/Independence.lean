import TreeCode.Proofs.Canonical.Labels
import TreeCode.Proofs.Canonical.Renaming
import TreeCode.Proofs.Code.Labels
import TreeCode.Proofs.Code.Renaming
import TreeCode.Proofs.Lowering.Independence
import TreeCode.Proofs.Session.Hygiene
import TreeCode.Proofs.Shift
import TreeCode.Proofs.Source.Marking

/-!
What a session compiled before does not matter. Two sessions of one configuration differ in their
supplies and statistics only, and compiling a program in the second mirrors compiling it in the
first.
-/

namespace TreeCode

open Tree

/-- A compiled function under other names. -/
def Procedure.rename (ρ : Renaming) (proc : Procedure) : Procedure :=
  { proc with
    name := ρ.label proc.name
    ir := proc.ir.map (Stm.rename ρ)
    instrs := proc.instrs.map (Instr.rename ρ) }

/-- A string literal under other names. -/
def Literal.rename (ρ : Renaming) (literal : Literal) : Literal :=
  { literal with
    label := ρ.label literal.label
    instrs := literal.instrs.map (Instr.rename ρ) }

/-- A compiled program under other names. -/
def Assembly.rename (ρ : Renaming) (unit : Assembly) : Assembly where
  frames := unit.frames.map (Frame.rename ρ)
  procs := unit.procs.map (Procedure.rename ρ)
  strings := unit.strings.map (Literal.rename ρ)

/-- Sessions of one configuration, which may have issued different names so far. The renaming
leaves alone what both have. -/
structure Session.Like (ρ : Renaming) (last : Supply) (s t : Session) : Prop where
  conv : t.conv = s.conv
  config : t.config = s.config
  supply : Paired ρ last s.supply t.supply
  keeps : ρ.Keeps s.conv
  entry : ρ.label s.config.entry = s.config.entry

theorem Session.Like.selector {ρ : Renaming} {last : Supply} {s t : Session}
    (like : Session.Like ρ last s t) : t.selector = s.selector := by
  rw [Session.selector, like.conv, like.config, Session.selector]

instance : Mirrored Session where
  supply := Session.supply
  withSupply s supply := { s with supply }
  supply_withSupply _ _ := rfl
  Like := Session.Like
  paired like := like.supply
  redrawn like after := { like with supply := after }

variable {α β : Type} {ρ : Renaming} {last : Supply}

section Steps

theorem mirrors_record (change change' : Stats → Stats) :
    Mirrors ρ last id (record change) (record change') :=
  mirrors_modify (fun _ => rfl) fun _ _ like => { like with }

theorem select_eq_inside (act : Select α) :
    (liftM act : InSession α) = inside (fun session => { supply := session.supply })
      (fun session state => { session with supply := state.supply }) act := by
  funext session
  unfold inside
  rw [run_select]
  cases act { supply := session.supply } <;> rfl

/-- Selection in a session mirrors selection. -/
theorem mirrors_select {out : α → β} {first : Select α} {second : Select β}
    (mirrors : Mirrors ρ last out first second) :
    Mirrors ρ last out (liftM first : InSession α) (liftM second) := by
  rw [select_eq_inside, select_eq_inside]
  refine mirrors_inside mirrors ?_ ?_ (fun _ => rfl) (fun _ _ => rfl)
  · intro s t like
    exact ⟨like.supply, by simp⟩
  · intro s t u v like after
    exact { like with supply := after.supply }

/-- What is read from the session may decide what comes next. -/
theorem mirrors_get {out : α → β} {next : Session → InSession α} {next' : Session → InSession β}
    (grows : Drawing (get >>= next))
    (rest : ∀ s t, Session.Like ρ last s t → Mirrors ρ last out (next s) (next' t)) :
    Mirrors ρ last out (get >>= next) (get >>= next') :=
  ⟨grows, fun s t like within => (rest s t like).mirrored s t like within⟩

end Steps

section Stages

/-- Lowering begins with a frame for the program itself, which has no issued names. -/
theorem start_like {s t : Session} (like : Session.Like ρ last s t) :
    Lowering.Like ρ last (.start s.conv s.config.entry s.supply)
      (.start t.conv t.config.entry t.supply) where
  supply := like.supply
  levels := by
    rw [like.conv, like.config]
    simp [Lowering.start, LevelInfo.rename, Frame.rename, like.entry]
  fragments := rfl
  scopes := rfl
  exits := rfl

theorem Lowering.Like.frames {s t : Lowering} (like : Lowering.Like ρ last s t) :
    t.frames = s.frames.map (Frame.rename ρ) := by
  rw [Lowering.frames, like.levels, Lowering.frames, List.map_map, List.map_map]
  rfl

/-- Lower a program and read off what came of it. -/
def Lowering.lowerUnit (conv : Convention) (program : Source.Exp) :
    Lower (List Frame × List Fragment) := do
  lowerProgram conv program
  let state ← get
  return (state.frames, state.fragments)

theorem run_lowerInSession (program : Source.Exp) (session : Session) :
    lowerInSession program session =
      inside (fun session => .start session.conv session.config.entry session.supply)
        (fun session state => { session with supply := state.supply })
        (Lowering.lowerUnit session.conv program) session := by
  unfold lowerInSession inside Lowering.lowerUnit
  dsimp only
  rw [run_bind]
  cases Lowering.lowerProgram session.conv program
    (.start session.conv session.config.entry session.supply) <;> rfl

theorem mirrors_lowerUnit {conv : Convention} (keeps : ρ.Keeps conv) (program : Source.Exp) :
    Mirrors ρ last (Prod.map (List.map (Frame.rename ρ)) (List.map (Fragment.rename ρ)))
      (Lowering.lowerUnit conv program) (Lowering.lowerUnit conv program) := by
  refine mirrors_bind (Lowering.mirrors_lowerProgram keeps program) fun _ => ?_
  refine mirrors_of_same (fun _ => rfl) ?_
  intro s t like
  have same : (t.frames, t.fragments) =
      Prod.map (List.map (Frame.rename ρ)) (List.map (Fragment.rename ρ))
        (s.frames, s.fragments) :=
    Prod.ext like.frames like.fragments
  change Reflects ρ last _ (.ok _ s) (.ok _ t)
  rw [same]
  exact .ok like

/-- A unit is lowered to the same fragments but for renaming. -/
theorem mirrors_lowerInSession (program : Source.Exp) :
    Mirrors ρ last (Prod.map (List.map (Frame.rename ρ)) (List.map (Fragment.rename ρ)))
      (lowerInSession program) (lowerInSession program) := by
  constructor
  · exact fun s => (advances_lowerInSession program s).supply
  · intro s t like within
    rw [run_lowerInSession] at within ⊢
    rw [run_lowerInSession, like.conv]
    refine (mirrors_inside (mirrors_lowerUnit like.keeps program) ?_ ?_ ?_ ?_).mirrored s t like
      within
    · exact fun _ _ => start_like
    · exact fun _ _ _ _ like after => { like with supply := after.supply }
    · exact fun _ => rfl
    · exact fun _ _ => rfl

theorem atLabel_rename (label : Label) :
    (Instr.atLabel label).rename ρ = .atLabel (ρ.label label) := rfl

theorem exitSink_rename {sel : Selector} (keeps : ρ.Keeps sel.conv) :
    sel.exitSink.rename ρ = sel.exitSink := by
  simp [Instr.rename, Selector.exitSink, keeps.registers (exitRegisters_known keeps.closed)]

/-- A renamed procedure is compiled to the renamed instructions. -/
theorem mirrors_compileProc (frames : List Frame) (level : Level) (body : Stm) :
    Mirrors ρ last (Procedure.rename ρ) (compileProc frames level body)
      (compileProc (frames.map (Frame.rename ρ)) level (body.rename ρ)) := by
  refine mirrors_get ?_ ?_
  -- the supply grows in any session, also in one whose registers the renaming would not keep
  · exact fun s => (advances_compileProc frames level body s).supply
  · intro s t like
    have sink : s.selector.exitSink.rename ρ = s.selector.exitSink := exitSink_rename like.keeps
    rw [like.selector, List.getElem?_map]
    cases frames[level]? with
    | none => exact mirrors_throw rfl
    | some frame =>
      exact mirrors_bind (mirrors_draw (mirrors_canonical body) (fun _ => rfl) (fun _ => rfl))
        fun ir => mirrors_bind (mirrors_select (s.selector.mirrors_selectAll like.keeps ir))
        fun code => mirrors_bind (mirrors_record _ _) fun _ => mirrors_pure (by
          simp [Procedure.rename, Frame.rename, atLabel_rename, sink])

theorem mirrors_compileString (label : Label) (text : String) :
    Mirrors ρ last (Literal.rename ρ) (compileString label text)
      (compileString (ρ.label label) text) := by
  refine mirrors_get ?_ ?_
  · exact fun s => (advances_compileString label text s).supply
  · intro s t like
    rw [like.selector]
    exact mirrors_bind (mirrors_record _ _) fun _ => mirrors_pure rfl

/-- Renamed fragments are compiled to renamed procedures and literals, or fail with the renamed
error. -/
theorem mirrors_compileFragments (frames : List Frame) (fragments : List Fragment) :
    Mirrors ρ last (Prod.map (List.map (Procedure.rename ρ)) (List.map (Literal.rename ρ)))
      (compileFragments frames fragments)
      (compileFragments (frames.map (Frame.rename ρ)) (fragments.map (Fragment.rename ρ))) := by
  induction fragments with
  | nil => exact mirrors_pure rfl
  | cons fragment rest ih =>
    cases fragment with
    | proc level body =>
      exact mirrors_bind (mirrors_record _ _) fun _ =>
        mirrors_bind (mirrors_compileProc frames level body) fun _ =>
        mirrors_bind ih fun _ => mirrors_pure rfl
    | string label text =>
      exact mirrors_bind (mirrors_record _ _) fun _ =>
        mirrors_bind (mirrors_compileString label text) fun _ =>
        mirrors_bind ih fun _ => mirrors_pure rfl

theorem mirrors_compileMarked (program : Source.Exp) :
    Mirrors ρ last (Assembly.rename ρ) (compileMarked program) (compileMarked program) :=
  mirrors_bind (mirrors_record _ _) fun _ =>
    mirrors_bind (mirrors_lowerInSession program) fun (frames, fragments) =>
    mirrors_bind (mirrors_compileFragments frames fragments) fun _ => mirrors_pure rfl

end Stages

section Histories

variable {config : Config} {first second : Session}

theorem compile_of_ok {program marked : Source.Exp} {session session' : Session} {unit : Assembly}
    (analysed : program.markEscaping = (.ok (), marked))
    (ran : compileMarked marked session = .ok unit session') :
    session.compile program =
      { outcome := .ok unit, program := marked, session := session' } := by
  simp only [Session.compile, analysed, ran]

theorem compile_of_error {program marked : Source.Exp} {session session' : Session}
    {error : Error} (analysed : program.markEscaping = (.ok (), marked))
    (ran : compileMarked marked session = .error error session') :
    session.compile program =
      { outcome := .error error, program := marked, session := session' } := by
  simp only [Session.compile, analysed, ran]

/-- Compiling a program in a session that differs in its names only comes to the same outcome under
other names. -/
theorem compile_mirrored {program : Source.Exp}
    (like : Session.Like ρ (first.compile program).session.supply first second) :
    (second.compile program).outcome =
      renameOutcome ρ (Assembly.rename ρ) (first.compile program).outcome := by
  -- a use of an undeclared variable stops both runs before they draw on their supplies
  rcases Source.resolved_or_first (program.uses 0) with
    resolved | ⟨before, use, after, uses, earlier, free⟩
  · have analysed := Source.markEscaping_resolved resolved
    generalize program.mark (Source.capturedBy (program.uses 0)) 0 = marked at analysed
    have reflected := (mirrors_compileMarked marked).mirrored first second like
    cases ran : compileMarked marked first with
    | ok unit middle =>
      rw [ran, compile_of_ok analysed ran] at reflected
      generalize ran' : compileMarked marked second = result at reflected
      cases reflected (Supply.Le.refl _) with
      | ok =>
        rw [compile_of_ok analysed ran, compile_of_ok analysed ran']
        rfl
    | error error middle =>
      rw [ran, compile_of_error analysed ran] at reflected
      generalize ran' : compileMarked marked second = result at reflected
      cases reflected (Supply.Le.refl _) with
      | error =>
        rw [compile_of_error analysed ran, compile_of_error analysed ran']
        rfl
  · have stopped := Source.markEscaping_stops uses earlier free
    simp only [Session.compile, stopped]
    rfl

theorem start_config {initial : Session} (began : Session.start config = .ok initial) :
    initial.config = config := by
  unfold Session.start at began
  split at began
  next =>
    cases began
    rfl
  next => cases began

/-- A session has the machine and the settings that it was started with. -/
theorem Session.Reachable.later_start (reached : Session.Reachable config first) :
    ∃ initial, Session.start config = .ok initial ∧ initial.Later first := by
  induction reached with
  | start began => exact ⟨_, began, .refl _⟩
  | compile program _ ih =>
    obtain ⟨initial, began, later⟩ := ih
    exact ⟨initial, began, later.trans (compile_advances _ program).later⟩

/-- The renaming from the names that the first session hands out while it compiles a program to
those that the second one hands out. -/
def Session.renaming (first second : Session) (program : Source.Exp) : Renaming :=
  .shift first.conv.machine first.supply (first.compile program).session.supply second.supply

/-- Two sessions of one configuration are alike under the renaming that shifts what the one will
draw to what the other will. -/
theorem reachable_like (plain : '.' ∉ config.entry.toList)
    (reached : Session.Reachable config first) (reached' : Session.Reachable config second)
    (program : Source.Exp) :
    Session.Like (first.renaming second program) (first.compile program).session.supply first
      second := by
  obtain ⟨initial, began, later⟩ := reached.later_start
  obtain ⟨initial', began', later'⟩ := reached'.later_start
  cases began.symm.trans began'
  have keeps : (first.renaming second program).Keeps first.conv :=
    shift_keeps reached.ready.closed reached.ready.registers
  refine ⟨?_, ?_, shift_paired _ _ _ _, keeps, ?_⟩
  · rw [later'.conv, later.conv]
  · rw [later'.config, later.config]
  · rw [later.config, start_config began]
    exact keeps.plain config.entry plain

theorem Error.pos_rename (error : Error) : (error.rename ρ).pos? = error.pos? := by
  cases error <;> rfl

theorem Error.variant_rename (error : Error) : (error.rename ρ).ctorIdx = error.ctorIdx := by
  cases error <;> rfl

/-- Compiling a program does not depend on what a session compiled before, be it with success or
not. In another session of the same configuration it succeeds if and only if it does here. The
units are then the same but for the names of temporaries other than machine registers and of
labels other than those of the program itself and of the runtime system, and no two names become
the same. An error is of the same kind and at the same place. -/
theorem compile_independent_of_history (plain : '.' ∉ config.entry.toList)
    (reached : Session.Reachable config first) (reached' : Session.Reachable config second)
    (program : Source.Exp) :
    second.conv = first.conv ∧
    ((second.compile program).outcome.isOk ↔ (first.compile program).outcome.isOk) ∧
    ∃ ρ : Renaming, Function.Injective ρ.temp ∧ Function.Injective ρ.label ∧
      (∀ t ∈ first.conv.machine, ρ.temp t = t) ∧ ρ.label config.entry = config.entry ∧
      (∀ name ∈ Lowering.runtimeNames, ρ.label name = name) ∧
      (∀ unit, (first.compile program).outcome = .ok unit →
        (second.compile program).outcome = .ok (unit.rename ρ)) ∧
      ∀ error, (first.compile program).outcome = .error error →
        (second.compile program).outcome = .error (error.rename ρ) ∧
          (error.rename ρ).ctorIdx = error.ctorIdx ∧ (error.rename ρ).pos? = error.pos? := by
  have like := reachable_like plain reached reached' program
  have mirrored := compile_mirrored like
  refine ⟨like.conv, ?_, first.renaming second program, ?_, ?_, like.keeps.machine, ?_, ?_, ?_, ?_⟩
  · rw [mirrored]
    cases (first.compile program).outcome <;> rfl
  · have below := reached'.ready.registers
    rw [like.conv] at below
    exact shiftTemp_injective _ _ below
  · exact shiftLabel_injective _ _ _
  · exact like.keeps.plain config.entry plain
  · intro name runtime
    exact like.keeps.plain name (Lowering.runtimeNames_undotted name runtime)
  · intro unit compiled
    rw [mirrored, compiled]
    rfl
  · intro error failed
    rw [mirrored, failed]
    exact ⟨rfl, error.variant_rename, error.pos_rename⟩

/-- A program that fails when a label has been issued. -/
def strayed : Source.Exp := .seq [.string "stray", .breakLoop {}]

/-- A program with a function, in a new session and after a program that fails and one that does
not. -/
theorem nestedRead_after_strayed :
    ∃ session unit, Session.start {} = .ok session ∧
      (session.compile nestedRead).outcome = .ok unit ∧
      (session.compile strayed).outcome.isOk = false ∧
      let later := ((session.compile strayed).session.compile nestedRead).session
      ∃ ρ : Renaming, Function.Injective ρ.temp ∧ Function.Injective ρ.label ∧
        (∀ t ∈ session.conv.machine, ρ.temp t = t) ∧ ρ.label "tigermain" = "tigermain" ∧
        (∀ name ∈ Lowering.runtimeNames, ρ.label name = name) ∧
        (later.compile nestedRead).outcome = .ok (unit.rename ρ) ∧
        unit.procs.map Procedure.name = ["f.0", "tigermain"] ∧
        (unit.rename ρ).procs.map Procedure.name = ["f.2", "tigermain"] := by
  have evaluated : ((Session.start {}).toOption.bind fun session =>
      (session.compile nestedRead).outcome.toOption.map fun unit =>
        let later := ((session.compile strayed).session.compile nestedRead).session
        ((session.compile strayed).outcome.isOk, unit.procs.map Procedure.name,
          (later.compile nestedRead).outcome.toOption.map fun unit =>
            unit.procs.map Procedure.name)) =
      some (false, ["f.0", "tigermain"], some ["f.2", "tigermain"]) := by decide +kernel
  obtain ⟨session, began, evaluated⟩ := Option.bind_eq_some_iff.mp evaluated
  obtain ⟨unit, compiled, evaluated⟩ := Option.map_eq_some_iff.mp evaluated
  obtain ⟨failed, evaluated⟩ := Prod.mk.inj evaluated
  obtain ⟨names, names'⟩ := Prod.mk.inj evaluated
  have began := ok_of_toOption began
  have compiled := ok_of_toOption compiled
  have reached : Session.Reachable {} session := .start began
  obtain ⟨_, _, ρ, temps, labels, registers, entry, runtime, success, _⟩ :=
    compile_independent_of_history (by decide) reached
      ((reached.compile strayed).compile nestedRead) nestedRead
  have again := success unit compiled
  rw [again] at names'
  exact ⟨session, unit, began, compiled, failed, ρ, temps, labels, registers, entry, runtime, again,
    names, Option.some.inj names'⟩

end Histories

end TreeCode
