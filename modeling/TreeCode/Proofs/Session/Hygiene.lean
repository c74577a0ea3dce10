import TreeCode.Proofs.Canonical.Labels
import TreeCode.Proofs.Canonical.Temps
import TreeCode.Proofs.Code.Labels
import TreeCode.Proofs.Code.Temps
import TreeCode.Proofs.Lowering.Hygiene
import TreeCode.Session.Basic

/-!
Sessions keep functions apart. A session never takes a temporary back, so the machine registers
and everything compiled before stay out of the way; and the compiled functions of one program
share nothing but machine registers.
-/

namespace TreeCode

open Tree

/-- All temporaries of a compiled function: those of its canonical statements and those of its
instructions. -/
def Procedure.temps (proc : Procedure) : List Temp :=
  proc.ir.flatMap Stm.temps ++ proc.instrs.flatMap Instr.temps

namespace Session

/-- A session that another one can move on to: with the same machine and the same settings, and
nothing that was issued is taken back. -/
structure Advances (first second : Session) : Prop where
  conv : second.conv = first.conv
  config : second.config = first.config
  supply : first.supply.Le second.supply

theorem Advances.refl (session : Session) : Advances session session := ⟨rfl, rfl, .refl _⟩

theorem Advances.trans {first second third : Session} (moved : Advances first second)
    (next : Advances second third) : Advances first third :=
  ⟨next.conv.trans moved.conv, next.config.trans moved.config, moved.supply.trans next.supply⟩

/-- A session that came after another one with the same machine. -/
structure Later (first second : Session) : Prop where
  conv : second.conv = first.conv
  config : second.config = first.config
  temps : first.supply.temps ≤ second.supply.temps

theorem Later.refl (session : Session) : Later session session := ⟨rfl, rfl, Nat.le_refl _⟩

theorem Later.trans {first second third : Session} (later : Later first second)
    (next : Later second third) : Later first third :=
  ⟨next.conv.trans later.conv, next.config.trans later.config,
    Nat.le_trans later.temps next.temps⟩

theorem Advances.later {first second : Session} (moved : Advances first second) :
    Later first second :=
  ⟨moved.conv, moved.config, moved.supply.1⟩

/-- A session in which the machine registers are issued. -/
structure Ready (session : Session) : Prop where
  closed : session.conv.Closed
  registers : Below session.supply.temps session.conv.machine

/-- A session stays ready as it goes on. -/
theorem Ready.later {first second : Session} (ready : Ready first) (later : Later first second) :
    Ready second where
  closed := by rw [later.conv]; exact ready.closed
  registers := by
    rw [later.conv]
    exact fun t member => Nat.lt_of_lt_of_le (ready.registers t member) later.temps

end Session

open Session

variable {α : Type} {session session' : Session} {frames : List Frame}

section Run

theorem lift_fresh_ok {act : Fresh α} {a : α} :
    (liftM act : InSession α) session = .ok a session' ↔
      (act session.supply).1 = a ∧
        { session with supply := (act session.supply).2 } = session' := by
  change EStateM.Result.ok _ _ = EStateM.Result.ok a session' ↔ _
  rw [EStateM.Result.ok.injEq]

theorem run_select (act : Select α) (session : Session) :
    (liftM act : InSession α) session =
      match act { supply := session.supply } with
      | .ok value state => .ok value { session with supply := state.supply }
      | .error error state => .error error { session with supply := state.supply } := rfl

theorem lift_select_ok {act : Select α} {a : α}
    (ran : (liftM act : InSession α) session = .ok a session') :
    ∃ state, act { supply := session.supply } = .ok a state ∧
      session' = { session with supply := state.supply } := by
  rw [run_select] at ran
  split at ran
  next state selected =>
    cases ran
    exact ⟨state, selected, rfl⟩
  next => cases ran

/-- A procedure is the canonical form of its body, with the instructions that are selected for
it. -/
theorem compileProc_ok {level : Level} {body : Stm} {proc : Procedure}
    (ran : compileProc frames level body session = .ok proc session') :
    ∃ frame code state, frames[level]? = some frame ∧
      session.selector.selectAll (body.canonical session.supply).1
        { supply := (body.canonical session.supply).2 } = .ok code state ∧
      session'.supply = state.supply ∧
      proc =
        { name := frame.name, level, ir := (body.canonical session.supply).1,
          instrs := Instr.atLabel frame.name :: code ++ [session.selector.exitSink] } := by
  obtain ⟨_, _, got, ran⟩ := bind_ok.mp ran
  cases got
  cases known : frames[level]? with
  | none => simp [known, throw_ok] at ran
  | some frame =>
    simp only [known] at ran
    obtain ⟨_, _, canonical, ran⟩ := bind_ok.mp ran
    obtain ⟨rfl, rfl⟩ := lift_fresh_ok.mp canonical
    obtain ⟨code, _, selected, ran⟩ := bind_ok.mp ran
    obtain ⟨state, covered, rfl⟩ := lift_select_ok selected
    cases ran
    exact ⟨frame, code, state, rfl, covered, rfl, rfl⟩

end Run

section Growth

/-- A computation that only moves on, from any session that is ready. -/
def Continues (act : InSession α) : Prop :=
  Within (fun session session' => session.Ready → session.Later session') act

theorem continues_of_advances {act : InSession α} (advances : Within Advances act) :
    Continues act :=
  fun session _ => (advances session).later

theorem advances_record (change : Stats → Stats) : Within Advances (record change) :=
  fun _ => ⟨rfl, rfl, .refl _⟩

theorem advances_canonical (body : Stm) :
    Within Advances (liftM body.canonical : InSession (List Stm)) :=
  fun session => ⟨rfl, rfl, grows_canonical body session.supply⟩

theorem advances_selectAll (sel : Selector) (ir : List Stm) :
    Within Advances (liftM (sel.selectAll ir) : InSession (List Instr)) := by
  intro session
  have grown := sel.selectAll_supply ir { supply := session.supply }
  rw [run_select]
  cases ran : sel.selectAll ir { supply := session.supply } with
  | ok code state =>
    rw [ran] at grown
    exact ⟨rfl, rfl, grown⟩
  | error error state =>
    rw [ran] at grown
    exact ⟨rfl, rfl, grown⟩

theorem advances_compileProc (frames : List Frame) (level : Level) (body : Stm) :
    Within Advances (compileProc frames level body) := by
  refine within_bind .trans (fun session => .refl session) fun session => ?_
  cases frames[level]? with
  | none => exact fun session => .refl session
  | some frame =>
    exact within_bind .trans (advances_canonical body) fun ir =>
      within_bind .trans (advances_selectAll session.selector ir) fun _ =>
      within_bind .trans (advances_record _) fun _ session => .refl session

theorem advances_compileString (label : Label) (text : String) :
    Within Advances (compileString label text) :=
  within_bind .trans (fun session => .refl session) fun _ =>
    within_bind .trans (advances_record _) fun _ session => .refl session

/-- Compiling fragments keeps the machine and the settings, and takes back nothing that was
issued. -/
theorem advances_compileFragments (frames : List Frame) :
    ∀ fragments : List Fragment, Within Advances (compileFragments frames fragments)
  | [] => fun session => .refl session
  | .proc level body :: rest =>
    within_bind .trans (advances_record _) fun _ =>
      within_bind .trans (advances_compileProc frames level body) fun _ =>
      within_bind .trans (advances_compileFragments frames rest) fun _ session => .refl session
  | .string label text :: rest =>
    within_bind .trans (advances_record _) fun _ =>
      within_bind .trans (advances_compileString label text) fun _ =>
      within_bind .trans (advances_compileFragments frames rest) fun _ session => .refl session

theorem advances_lowerInSession (program : Source.Exp) :
    Within Advances (lowerInSession program) := by
  intro session
  have extended := Lowering.lowerProgram_extends session.conv program
    (.start session.conv session.config.entry session.supply)
  unfold lowerInSession
  dsimp only
  cases ran : Lowering.lowerProgram session.conv program
      (.start session.conv session.config.entry session.supply) with
  | ok _ state =>
    rw [ran] at extended
    exact ⟨rfl, rfl, extended.steps.supply_le⟩
  | error error state =>
    rw [ran] at extended
    exact ⟨rfl, rfl, extended.steps.supply_le⟩

theorem advances_compileMarked (program : Source.Exp) : Within Advances (compileMarked program) :=
  within_bind .trans (advances_record _) fun _ =>
    within_bind .trans (advances_lowerInSession program) fun (frames, fragments) =>
    within_bind .trans (advances_compileFragments frames fragments) fun _ session => .refl session

/-- Compiling a program only moves the session on, whether it succeeds or fails. -/
theorem compile_advances (session : Session) (program : Source.Exp) :
    session.Advances (session.compile program).session := by
  unfold Session.compile
  split
  next => exact .refl session
  next marked _ =>
    have moved := advances_compileMarked marked session
    split
    next ran =>
      rw [ran] at moved
      exact moved
    next ran =>
      rw [ran] at moved
      exact moved

end Growth

/-- The sessions that a configuration leads to. -/
inductive Session.Reachable (config : Config) : Session → Prop
  | start {session : Session} : Session.start config = .ok session → Reachable config session
  | compile {session : Session} (program : Source.Exp) :
    Reachable config session → Reachable config (session.compile program).session

/-- A session is ready from the start. -/
theorem start_ready {config : Config} (began : Session.start config = .ok session) :
    session.Ready := by
  unfold Session.start at began
  split at began
  next conv supply issued =>
    cases began
    exact ⟨(issue_closed issued).1, (issue_closed issued).2⟩
  next => cases began

/-- Every session that can be reached is ready. The induction is on the units compiled so far. -/
theorem Session.Reachable.ready {config : Config} (reached : Reachable config session) :
    session.Ready := by
  induction reached with
  | start began => exact start_ready began
  | compile program _ ready => exact ready.later (compile_advances _ program).later

section Procedures

variable {level : Level} {body : Stm} {proc : Procedure}

theorem temps_atLabel (name : Label) : (Instr.atLabel name).temps = [] := rfl

theorem temps_exitSink (sel : Selector) : sel.exitSink.temps = sel.conv.exitRegisters := by
  simp [Instr.temps, Instr.defs, Instr.uses, Selector.exitSink]

theorem exitRegisters_known {conv : Convention} (closed : conv.Closed) :
    conv.exitRegisters ⊆ conv.machine :=
  List.cons_subset.mpr ⟨closed.returnValue, List.cons_subset.mpr ⟨closed.stackPointer,
    List.cons_subset.mpr ⟨closed.framePointer, closed.calleeSaved⟩⟩⟩

/-- A compiled function has, besides registers, the temporaries of its body and temporaries
issued while it was compiled. -/
theorem compileProc_temps (closed : session.conv.Closed)
    (ran : compileProc frames level body session = .ok proc session') :
    ∀ t ∈ proc.temps, t ∈ session.conv.machine ∨ t ∈ body.temps ∨
      t.Between session.supply.temps session'.supply.temps := by
  obtain ⟨frame, code, state, _, covered, supply, rfl⟩ := compileProc_ok ran
  rw [supply]
  obtain ⟨grown, fromBody⟩ := draws_canonical body session.supply
  have fromIr : ∀ t ∈ code.flatMap Instr.temps, t ∈ session.conv.machine ∨
      t ∈ (body.canonical session.supply).1.flatMap Stm.temps ∨
      t.Between (body.canonical session.supply).2.temps state.supply.temps :=
    Selector.selectAll_temps closed covered
  have later : (body.canonical session.supply).2.temps ≤ state.supply.temps :=
    ((session.selector.selectAll_supply _).ok covered).1
  have statements : ∀ t ∈ (body.canonical session.supply).1.flatMap Stm.temps,
      t ∈ body.temps ∨ t.Between session.supply.temps state.supply.temps := fun t member =>
    (fromBody t member).imp id fun between => between.widen (Nat.le_refl _) later
  intro t member
  rcases List.mem_append.mp member with inIr | inInstrs
  · exact .inr (statements t inIr)
  · rw [List.cons_append, List.flatMap_cons, temps_atLabel, List.nil_append,
      List.flatMap_append, List.flatMap_singleton, temps_exitSink] at inInstrs
    rcases List.mem_append.mp inInstrs with inCode | inSink
    · rcases fromIr t inCode with register | inIr | between
      · exact .inl register
      · exact .inr (statements t inIr)
      · exact .inr (.inr (between.widen grown (Nat.le_refl _)))
    · exact .inl (exitRegisters_known closed inSink)

/-- Functions whose bodies are apart and made of temporaries issued before are apart when they
are compiled. -/
theorem compileFragments_apart {conv : Convention} :
    ∀ (fragments : List Fragment) {session session' : Session} {procs : List Procedure}
      {strings : List Literal}, session.Ready → session.conv = conv →
      compileFragments frames fragments session = .ok (procs, strings) session' →
      (bodyTemps fragments).Pairwise (Apart conv.machine) →
      (∀ temps ∈ bodyTemps fragments, Below session.supply.temps temps) →
      (procs.map Procedure.temps).Pairwise (Apart conv.machine) ∧
        ∀ proc ∈ procs, ∃ temps ∈ bodyTemps fragments, ∀ t ∈ proc.temps,
          t ∈ conv.machine ∨ t ∈ temps ∨ t.Between session.supply.temps session'.supply.temps
  | [], _, _, _, _, _, _, ran, _, _ => by
    cases ran
    exact ⟨.nil, by simp⟩
  | .string label text :: rest, session, session', _, _, ready, same, ran, apart, below => by
    obtain ⟨_, counted, recorded, ran⟩ := bind_ok.mp ran
    obtain ⟨_, s, compiled, ran⟩ := bind_ok.mp ran
    obtain ⟨⟨procs, strings⟩, t, others, ran⟩ := bind_ok.mp ran
    cases ran
    have counting := (continues_of_advances (advances_record _)).ok recorded ready
    have later := counting.trans ((continues_of_advances
      (advances_compileString label text)).ok compiled (ready.later counting))
    obtain ⟨separate, origin⟩ := compileFragments_apart rest (ready.later later)
      (later.conv.trans same) others apart fun temps member t inside =>
        Nat.lt_of_lt_of_le (below temps member t inside) later.temps
    refine ⟨separate, fun proc member => ?_⟩
    obtain ⟨temps, among, known⟩ := origin proc member
    exact ⟨temps, among, fun t inside => (known t inside).imp id fun known =>
      known.imp id fun between => between.widen later.temps (Nat.le_refl _)⟩
  | .proc level body :: rest, session, session', _, _, ready, same, ran, apart, below => by
    obtain ⟨_, counted, recorded, ran⟩ := bind_ok.mp ran
    obtain ⟨proc, s, compiled, ran⟩ := bind_ok.mp ran
    obtain ⟨⟨procs, strings⟩, t, others, ran⟩ := bind_ok.mp ran
    cases ran
    have counting := (continues_of_advances (advances_record _)).ok recorded ready
    have readyHere := ready.later counting
    have compiling := (continues_of_advances
      (advances_compileProc frames level body)).ok compiled readyHere
    have later := counting.trans compiling
    have after := (continues_of_advances
      (advances_compileFragments frames rest)).ok others (ready.later later)
    obtain ⟨apartBody, apartRest⟩ := List.pairwise_cons.mp apart
    obtain ⟨belowBody, belowRest⟩ := List.forall_mem_cons.mp below
    obtain ⟨separate, origin⟩ := compileFragments_apart rest (ready.later later)
      (later.conv.trans same) others apartRest fun temps member t inside =>
        Nat.lt_of_lt_of_le (belowRest temps member t inside) later.temps
    have own : ∀ t ∈ proc.temps, t ∈ conv.machine ∨ t ∈ body.temps ∨
        t.Between session.supply.temps s.supply.temps := by
      have inside := compileProc_temps readyHere.closed compiled
      rw [counting.conv, same] at inside
      exact fun t member => (inside t member).imp id fun known => known.imp id fun between =>
        between.widen counting.temps (Nat.le_refl _)
    refine ⟨List.pairwise_cons.mpr ⟨?_, separate⟩, ?_⟩
    · intro temps member t inFirst inOther
      obtain ⟨other, among, rfl⟩ := List.mem_map.mp member
      obtain ⟨bodyTemps, known, others⟩ := origin other among
      rcases own t inFirst with register | inBody | between
      · exact register
      · rcases others t inOther with register | inBody' | between
        · exact register
        · exact apartBody bodyTemps known t inBody inBody'
        · exact absurd (belowBody t inBody) (Nat.not_lt.mpr (Nat.le_trans later.temps between.1))
      · rcases others t inOther with register | inBody' | between'
        · exact register
        · exact absurd (belowRest bodyTemps known t inBody') (Nat.not_lt.mpr between.1)
        · exact absurd between.2 (Nat.not_lt.mpr between'.1)
    · intro other member
      rcases List.mem_cons.mp member with rfl | among
      · exact ⟨body.temps, List.mem_cons_self, fun t inside => (own t inside).imp id fun known =>
          known.imp id fun between => between.widen (Nat.le_refl _) after.temps⟩
      · obtain ⟨temps, known, others⟩ := origin other among
        exact ⟨temps, List.mem_cons_of_mem _ known, fun t inside => (others t inside).imp id
          fun known => known.imp id fun between => between.widen later.temps (Nat.le_refl _)⟩

/-- A unit is lowered from a fresh environment, with the supply of the session. -/
theorem lowerInSession_ok {program : Source.Exp} {fragments : List Fragment}
    (ran : lowerInSession program session = .ok (frames, fragments) session') :
    ∃ state, Lowering.lowerProgram session.conv program
        (.start session.conv session.config.entry session.supply) = .ok () state ∧
      frames = state.frames ∧ fragments = state.fragments ∧
      session' = { session with supply := state.supply } := by
  unfold lowerInSession at ran
  dsimp only at ran
  split at ran
  next state lowered =>
    cases ran
    exact ⟨state, lowered, rfl, rfl, rfl⟩
  next => cases ran

/-- A unit is compiled after its variables have been marked. -/
theorem compile_ok {program : Source.Exp} {unit : Assembly}
    (compiled : (session.compile program).outcome = .ok unit) :
    ∃ marked session', program.markEscaping = (.ok (), marked) ∧
      compileMarked marked session = .ok unit session' := by
  unfold Session.compile at compiled
  split at compiled
  next => cases compiled
  next marked analysed =>
    split at compiled
    next session' ran =>
      cases compiled
      exact ⟨marked, session', analysed, ran⟩
    next => cases compiled

/-- A program is lowered, and then its fragments are compiled in the session that is left. -/
theorem compileMarked_ok {marked : Source.Exp} {unit : Assembly}
    (ran : compileMarked marked session = .ok unit session') :
    ∃ state middle, Lowering.lowerProgram session.conv marked
        (.start session.conv session.config.entry session.supply) = .ok () state ∧
      middle.conv = session.conv ∧ middle.supply = state.supply ∧
      compileFragments state.frames state.fragments middle =
        .ok (unit.procs, unit.strings) session' := by
  obtain ⟨_, _, counted, ran⟩ := bind_ok.mp ran
  cases counted
  obtain ⟨⟨frames, fragments⟩, middle, lowered, ran⟩ := bind_ok.mp ran
  obtain ⟨⟨procs, strings⟩, _, selected, ran⟩ := bind_ok.mp ran
  cases ran
  obtain ⟨state, made, rfl, rfl, same⟩ := lowerInSession_ok lowered
  exact ⟨state, middle, made, by rw [same], by rw [same], selected⟩

end Procedures

/-- The fragments that a program is lowered to in a session that is ready. -/
theorem lowered_apart (ready : session.Ready) {program marked : Source.Exp} {state : Lowering}
    (analysed : program.markEscaping = (.ok (), marked))
    (ran : Lowering.lowerProgram session.conv marked
      (.start session.conv session.config.entry session.supply) = .ok () state) :
    (bodyTemps state.fragments).Pairwise (Apart session.conv.machine) ∧
      ∀ temps ∈ bodyTemps state.fragments, Below state.supply.temps temps := by
  have safe := Lowering.lowerProgram_safe analysed ran
  obtain ⟨added, fragments, grown, apart, origin⟩ :=
    Lowering.lowerProgram_finishes ready.closed ready.registers safe ran
  rw [show state.fragments = added from fragments]
  refine ⟨apart, fun temps member t inside => ?_⟩
  rcases origin temps member t inside with register | ⟨pool, among, pooled⟩ | between
  · exact Nat.lt_of_lt_of_le (ready.registers t register) grown
  · rw [List.mem_singleton.mp among] at pooled
    cases pooled
  · exact between.2

/-- The functions of a compiled program share nothing but machine registers. -/
theorem compiled_apart (ready : session.Ready) {program : Source.Exp} {unit : Assembly}
    (compiled : (session.compile program).outcome = .ok unit) :
    (unit.procs.map Procedure.temps).Pairwise (Apart session.conv.machine) := by
  obtain ⟨marked, session', analysed, ran⟩ := compile_ok compiled
  obtain ⟨state, middle, lowered, conv, supply, selected⟩ := compileMarked_ok ran
  obtain ⟨apart, below⟩ := lowered_apart ready analysed lowered
  have grown := ((Lowering.lowerProgram_extends session.conv marked).ok lowered).steps.supply_le.1
  have readyMiddle : middle.Ready := by
    refine ⟨by rw [conv]; exact ready.closed, ?_⟩
    rw [conv, supply]
    exact fun t member => Nat.lt_of_lt_of_le (ready.registers t member) grown
  rw [← supply] at below
  exact (compileFragments_apart state.fragments readyMiddle conv selected apart below).1

/-- Escape analysis is sound for lowering. In any session, the bodies of a program whose escaping
variables are marked share nothing but machine registers, and a variable used outside of the
function that declares it is in a frame reached through static links. The canonical statements and
the instructions of the compiled functions share nothing but machine registers either. -/
theorem functions_kept_apart {config : Config} (reached : Session.Reachable config session)
    {program marked : Source.Exp} (analysed : program.markEscaping = (.ok (), marked)) :
    (∀ state, Lowering.lowerProgram session.conv marked
        (.start session.conv session.config.entry session.supply) = .ok () state →
      (bodyTemps state.fragments).Pairwise (Apart session.conv.machine) ∧
      Lowering.everyUse session.conv (Lowering.SafeUse session.conv) 0 marked
        (.start session.conv session.config.entry session.supply)) ∧
    ∀ unit, (session.compile program).outcome = .ok unit →
      (unit.procs.map Procedure.temps).Pairwise (Apart session.conv.machine) :=
  ⟨fun _ ran => ⟨(lowered_apart reached.ready analysed ran).1,
    Lowering.lowerProgram_safe analysed ran⟩, fun _ compiled =>
    compiled_apart reached.ready compiled⟩

/-- A function reads a variable of the program around it, which is not marked yet. -/
def nestedRead : Source.Exp :=
  .letIn
    [.var { name := "x" } (.int 1), .functions [⟨"f", [], some "int", .var (.simple "x" {})⟩]]
    (.call "f" [] {})

theorem nestedRead_kept_apart :
    ∃ session unit marked state, Session.start {} = .ok session ∧
      (session.compile nestedRead).outcome = .ok unit ∧ unit.procs.length = 2 ∧
      nestedRead.markEscaping = (.ok (), marked) ∧
      Lowering.lowerProgram session.conv marked
        (.start session.conv session.config.entry session.supply) = .ok () state ∧
      (bodyTemps state.fragments).Pairwise (Apart session.conv.machine) ∧
      Lowering.everyUse session.conv (Lowering.SafeUse session.conv) 0 marked
        (.start session.conv session.config.entry session.supply) ∧
      (unit.procs.map Procedure.temps).Pairwise (Apart session.conv.machine) := by
  have evaluated : ((Session.start {}).toOption.bind fun session =>
      (session.compile nestedRead).outcome.toOption.map fun unit => unit.procs.length) =
        some 2 := by decide +kernel
  obtain ⟨session, began, evaluated⟩ := Option.bind_eq_some_iff.mp evaluated
  obtain ⟨unit, compiled, count⟩ := Option.map_eq_some_iff.mp evaluated
  have began := ok_of_toOption began
  have compiled := ok_of_toOption compiled
  obtain ⟨marked, _, analysed, ran⟩ := compile_ok compiled
  obtain ⟨state, _, lowered, _⟩ := compileMarked_ok ran
  obtain ⟨lowering, selection⟩ := functions_kept_apart (.start began) analysed
  exact ⟨session, unit, marked, state, began, compiled, count, analysed, lowered,
    (lowering state lowered).1, (lowering state lowered).2, selection unit compiled⟩

end TreeCode
