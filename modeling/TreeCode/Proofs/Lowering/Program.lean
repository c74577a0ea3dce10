import TreeCode.Proofs.Canonical.Labels
import TreeCode.Proofs.Lowering.Labels
import TreeCode.Proofs.Lowering.Simulation

/-!
Whole programs of the core language. Such a program has no functions and no literals, so it becomes
one fragment. Its canonical statements carry no label twice, and running them from the first to
behind the last makes the same runtime calls as direct evaluation of the program.
-/

namespace TreeCode.Lowering

open Source

variable {conv : Convention}

section Fragments

variable {level : Level} {s s' : Lowering}

theorem fragments_lowerValue {exp : Source.Exp} {value : Tree.Exp}
    (inner : ∀ {out t}, lowerExp conv level exp s = .ok out t → t.fragments = s.fragments)
    (ran : lowerValue conv level exp s = .ok value s') : s'.fragments = s.fragments := by
  obtain ⟨out, t, lowered, -, rfl⟩ := lowerValue_ok.mp ran
  have same := inner lowered
  exact same

theorem fragments_lowerEffect {exp : Source.Exp} {stm : Tree.Stm}
    (inner : ∀ {out t}, lowerExp conv level exp s = .ok out t → t.fragments = s.fragments)
    (ran : lowerEffect conv level exp s = .ok stm s') : s'.fragments = s.fragments := by
  obtain ⟨out, t, lowered, -, rfl⟩ := lowerEffect_ok.mp ran
  have same := inner lowered
  exact same

theorem fragments_joinBranches {test yes no out : Lowered} {yesLabel noLabel join : Label}
    (ran : joinBranches test yes no yesLabel noLabel join s = .ok out s') :
    s'.fragments = s.fragments := by
  rcases joinBranches_ok ran with ⟨_, _, _, _, _, _, rfl, _⟩ | ⟨_, _, rfl, _, _, rfl, _⟩
  · rfl
  · rfl

mutual
/-- Expressions without functions and strings add no fragments. -/
theorem fragments_lowerExp {level : Level} {s s' : Lowering} {out : Lowered} :
    ∀ exp : Source.Exp, exp.isCore = true → lowerExp conv level exp s = .ok out s' →
      s'.fragments = s.fragments
  | .nil, _, ran => by
    obtain ⟨-, rfl⟩ := lowerExp_nil ran
    rfl
  | .int _, _, ran => by
    obtain ⟨-, rfl⟩ := lowerExp_int ran
    rfl
  | .var (.simple name pos), _, ran => by
    obtain ⟨_, found, -⟩ := lowerExp_var ran
    obtain ⟨_, _, _, _, _, _, rfl⟩ := lowerVar_simple.mp found
    rfl
  | .call func args pos, core, ran => by
    unfold Exp.isCore at core
    obtain ⟨_, _, _, lowered, -⟩ := lowerExp_call ran
    exact fragments_lowerArgs args core lowered
  | .op oper left right strings, core, ran => by
    unfold Exp.isCore at core
    simp only [Bool.and_eq_true] at core
    obtain ⟨_, t, _, first, second, -⟩ := lowerExp_op ran
    exact (fragments_lowerValue (fragments_lowerExp right core.2) second).trans
      (fragments_lowerValue (fragments_lowerExp left core.1.2) first)
  | .seq exps, core, ran => by
    unfold Exp.isCore at core
    obtain ⟨_, _, t, lowered, -, rfl⟩ := lowerExp_seq ran
    have same := fragments_lowerSeq exps core lowered
    exact same
  | .assign (.simple name pos) value, core, ran => by
    unfold Exp.isCore at core
    obtain ⟨_, _, _, found, lowered, -⟩ := lowerExp_assign ran
    obtain ⟨_, _, _, _, _, _, rfl⟩ := lowerVar_simple.mp found
    exact fragments_lowerValue (fragments_lowerExp value core) lowered
  | .ifThen test yes, core, ran => by
    unfold Exp.isCore at core
    simp only [Bool.and_eq_true] at core
    obtain ⟨_, _, _, _, _, first, second, _, _, rfl⟩ := lowerExp_ifThen ran
    have same := fragments_lowerExp test core.1 first
    have later := fragments_lowerExp yes core.2 second
    exact later.trans same
  | .ifElse test yes no, core, ran => by
    unfold Exp.isCore at core
    simp only [Bool.and_eq_true] at core
    obtain ⟨_, _, _, _, _, _, first, second, third, joined⟩ := lowerExp_ifElse ran
    have same := (fragments_lowerExp yes core.1.2 second).trans
      (fragments_lowerExp test core.1.1 first)
    have other := fragments_lowerExp no core.2 third
    have later := fragments_joinBranches joined
    exact later.trans (other.trans same)
  | .whileDo test body, core, ran => by
    unfold Exp.isCore at core
    simp only [Bool.and_eq_true] at core
    obtain ⟨_, _, _, _, _, first, looped, _, _, rfl⟩ := lowerExp_whileDo ran
    obtain ⟨_, second, rfl⟩ := inLoop_ok.mp looped
    have same := fragments_lowerExp test core.1 first
    have later := fragments_lowerExp body core.2 second
    exact later.trans same
  | .letIn decs body, core, ran => by
    unfold Exp.isCore at core
    simp only [Bool.and_eq_true] at core
    obtain ⟨_, _, _, _, first, second, _, rfl⟩ := lowerExp_letIn ran
    have same := fragments_lowerDecs decs core.1 first
    have later := fragments_lowerExp body core.2 second
    exact later.trans same
theorem fragments_lowerArgs {level : Level} {s s' : Lowering} {values : List Tree.Exp} :
    ∀ args : List Source.Exp, Exp.listIsCore args = true →
      lowerArgs conv level args s = .ok values s' → s'.fragments = s.fragments
  | [], _, ran => by
    obtain ⟨-, rfl⟩ := lowerArgs_nil ran
    rfl
  | arg :: args, core, ran => by
    unfold Exp.listIsCore at core
    simp only [Bool.and_eq_true] at core
    obtain ⟨_, _, _, first, second, -⟩ := lowerArgs_cons ran
    exact (fragments_lowerArgs args core.2 second).trans
      (fragments_lowerValue (fragments_lowerExp arg core.1) first)
theorem fragments_lowerSeq {level : Level} {s s' : Lowering}
    {result : List Tree.Stm × Lowered} :
    ∀ exps : List Source.Exp, Exp.listIsCore exps = true →
      lowerSeq conv level exps s = .ok result s' → s'.fragments = s.fragments
  | [], _, ran => by
    obtain ⟨-, rfl⟩ := lowerSeq_nil ran
    rfl
  | [exp], core, ran => by
    unfold Exp.listIsCore at core
    rw [Bool.and_eq_true] at core
    obtain ⟨_, lowered, -⟩ := lowerSeq_single ran
    exact fragments_lowerExp exp core.1 lowered
  | exp :: next :: exps, core, ran => by
    unfold Exp.listIsCore at core
    rw [Bool.and_eq_true] at core
    obtain ⟨_, _, _, _, first, second, -⟩ := lowerSeq_cons ran
    exact (fragments_lowerSeq (next :: exps) core.2 second).trans
      (fragments_lowerEffect (fragments_lowerExp exp core.1) first)
theorem fragments_lowerDecs {level : Level} {s s' : Lowering} {stms : List Tree.Stm} :
    ∀ decs : List Dec, Exp.decsAreCore decs = true →
      lowerDecs conv level decs s = .ok stms s' → s'.fragments = s.fragments
  | [], _, ran => by
    obtain ⟨-, rfl⟩ := lowerDecs_nil ran
    rfl
  | .var binder init :: decs, core, ran => by
    unfold Exp.decsAreCore at core
    rw [Bool.and_eq_true] at core
    obtain ⟨_, t, _, u, _, first, stored, second, -⟩ := lowerDecs_var ran
    obtain ⟨_, _, _, rfl⟩ := allocateVariable_ok.mp stored
    have same := fragments_lowerValue (fragments_lowerExp init core.1) first
    have later := fragments_lowerDecs decs core.2 second
    exact later.trans same
end

end Fragments

end TreeCode.Lowering

namespace TreeCode

open Tree Source Lowering

section Body

variable {oracle : Oracle} {n : Nat}

/-- Moves between temporaries change those that they go to. -/
theorem runsAll_moves : ∀ (pairs : List (Temp × Temp)) (σ : State Value World),
    (∀ pair ∈ pairs, pair.1.index < n ∧ pair.2.index < n) →
    ∃ σ', RunsAll (Model.words oracle) n
        (pairs.map fun pair => .move (.temp pair.1) (.temp pair.2)) σ σ' ∧
      σ'.world = σ.world ∧ ∀ t, (∀ pair ∈ pairs, t ≠ pair.1) → σ'.temps t = σ.temps t
  | [], σ, _ => ⟨σ, rfl, rfl, fun _ _ => rfl⟩
  | pair :: pairs, σ, below => by
    obtain ⟨first, others⟩ := List.forall_mem_cons.mp below
    obtain ⟨σ', ran, world, kept⟩ := runsAll_moves pairs (σ.set pair.1 (σ.temps pair.2)) others
    have moved : Runs (Model.words oracle) n (.move (.temp pair.1) (.temp pair.2)) σ
        (σ.set pair.1 (σ.temps pair.2)) :=
      Running.does_move_temp first.1 (Running.computes_temp first.2)
    refine ⟨σ', ⟨_, moved, ran⟩, world, fun t away => ?_⟩
    obtain ⟨here, there⟩ := List.forall_mem_cons.mp away
    rw [kept t there, State.set_temps_ne _ _ here]

/-- The body of a function without formals between its entry and exit sequences: these save and
restore registers, and the body does what it does alone. -/
theorem runs_wrapBody {conv : Convention} {frame : Frame} {body : Stm} {supply : Supply}
    {hi : Nat} {P Q : State Value World → Prop} (closed : conv.Closed)
    (registers : Below supply.temps conv.machine) (noFormals : frame.formals = [])
    (room : (conv.wrapBody frame body supply).2.temps ≤ n) (settled : Settled supply.temps P)
    (leads : Leads hi P (Runs (Model.words oracle) n body) Q) {σ : State Value World}
    (holds : P σ) :
    ∃ σ' σ'', Runs (Model.words oracle) n (conv.wrapBody frame body supply).1 σ σ'' ∧ Q σ' ∧
      σ''.world = σ'.world := by
  let copies := freshTemps conv.calleeSaved.length supply
  let saved := copies.1.zip conv.calleeSaved
  have wrapped : (conv.wrapBody frame body supply).1 =
      .sequence ((saved.map fun pair => .move (.temp pair.1) (.temp pair.2)) ++
        body :: (saved.map Prod.swap).map fun pair => .move (.temp pair.1) (.temp pair.2)) := by
    have noShift : conv.viewShift frame = [] := by
      unfold Convention.viewShift
      rw [noFormals]
      rfl
    rw [List.map_map]
    change Stm.sequence (conv.viewShift frame ++ _ ++ _) = _
    rw [noShift]
    rfl
  have fresh : ∀ pair ∈ saved, pair.1.Between supply.temps copies.2.temps ∧
      pair.2.index < supply.temps := fun pair member =>
    ⟨freshTemps_between _ supply _ (List.of_mem_zip member).1,
      registers _ (closed.calleeSaved (List.of_mem_zip member).2)⟩
  have grown : supply.temps ≤ copies.2.temps := (grows_freshTemps _ supply).1
  have below : ∀ pair ∈ saved, pair.1.index < n ∧ pair.2.index < n := fun pair member =>
    ⟨Nat.lt_of_lt_of_le (fresh pair member).1.2 room,
      Nat.lt_of_lt_of_le (fresh pair member).2 (Nat.le_trans grown room)⟩
  obtain ⟨σ₁, saves, sameWorld, kept⟩ := runsAll_moves saved σ below
  have agree : σ.Agree supply.temps σ₁ := by
    refine ⟨sameWorld.symm, fun t old => (kept t ?_).symm⟩
    rintro pair member rfl
    exact Nat.not_le_of_lt old (fresh pair member).1.1
  obtain ⟨σ₂, ran, after, -⟩ := leads σ₁ (settled σ σ₁ agree holds)
  have swapped : ∀ pair ∈ saved.map Prod.swap, pair.1.index < n ∧ pair.2.index < n := by
    intro pair member
    obtain ⟨original, among, rfl⟩ := List.mem_map.mp member
    exact (below original among).symm
  obtain ⟨σ₃, restores, world, -⟩ := runsAll_moves (saved.map Prod.swap) σ₂ swapped
  refine ⟨σ₂, σ₃, ?_, after, world⟩
  rw [wrapped]
  exact runs_sequence (runsAll_append saves ⟨σ₂, ran, restores⟩)

end Body

/-- A statement that runs through on the machine does so as a list of canonical statements. -/
theorem Tree.reaches_canonical {V W : Type} [DecidableEq V] {M : Model V W} {n : Nat} {stm : Stm}
    {σ σ' : State V W} (runs : Runs M n stm σ σ') (distinct : stm.labels.Nodup) {supply : Supply}
    (later : n ≤ supply.temps) :
    ∃ τ, M.Reaches (stm.canonical supply).1 (0, σ) ((stm.canonical supply).1.length, τ) ∧
      τ.world = σ'.world := by
  obtain ⟨τ, passed, agree, -⟩ := (runs supply later).2 σ (State.Agree.refl n σ)
  have marked := nodup_marks_canonical distinct supply
  have reached := passed [] []
  simp only [List.append_nil, List.nil_append] at reached
  exact ⟨τ, reached marked 0 _ rfl rfl, agree.1.symm⟩

section Programs

variable {conv : Convention} {entry : Label} {supply : Supply} {program : Source.Exp}
  {state : Lowering} {stm : Stm}

/-- The labels of a lowered program are all different. -/
theorem lowerEffect_distinct
    (ran : lowerEffect conv 0 program (.start conv entry supply) = .ok stm state) :
    stm.labels.Nodup := by
  obtain ⟨out, t, lowered, rfl, rfl⟩ := lowerEffect_ok.mp ran
  obtain ⟨_, _, _, _, issued⟩ := (lowerExp_defines program lowered).asEffect
  exact (List.nodup_append.mp issued.distinct).1

/-- At the start no variable is in scope. -/
theorem Activation.laid_start (act : Activation)
    (below : act.conv.framePointer.index < supply.temps) :
    act.Laid [] (.start act.conv entry supply) where
  names := rfl
  someScope := List.cons_ne_nil _ _
  pointer := below
  placed := ⟨_, rfl, rfl, by simp⟩
  distinct := .nil

/-- A program of the core language becomes one function. If evaluation of the program comes to an
end, then so does the canonical form of the function, with the same runtime calls. -/
theorem lowerProgram_behaves (closed : conv.Closed) (registers : Below supply.temps conv.machine)
    (spaced : 0 < conv.wordSize) (core : program.isCore = true)
    (ran : lowerProgram conv program (.start conv entry supply) = .ok () state)
    (fits : ∀ frame ∈ state.frames, frame.localBytes ≤ 2 ^ 64) {oracle : Oracle}
    {σ : State Value World} {base : Word} (pointer : σ.temps conv.framePointer = .word base)
    {fuel : Nat} {v : Word} {store : Store}
    (evaluated : program.eval oracle fuel ⟨[], σ.world.trace⟩ = some (v, store)) :
    ∃ body, state.fragments = [.proc 0 body] ∧
      ∀ later : Supply, state.supply.temps ≤ later.temps →
        ∃ τ, (Model.words oracle).Reaches (body.canonical later).1 (0, σ)
            ((body.canonical later).1.length, τ) ∧ τ.world.trace = store.trace := by
  obtain ⟨stm, t, lowered, finish⟩ := lowerProgram_ok ran
  obtain ⟨info, known, rfl⟩ := finishProc_ok.mp finish
  have extended := (lowerEffect_extends 0 program).ok lowered
  have outermost : (Lowering.start conv entry supply).levels[0]? =
      some { frame := { name := entry, wordSize := conv.wordSize }, parent := none } := rfl
  obtain ⟨_, present, kept⟩ := extended.steps.keeps outermost
  cases known.symm.trans present
  have small : (info.frame.slots : Int) * conv.wordSize ≤ 2 ^ 64 := by
    have listed : info.frame ∈ (t.finished conv 0 info stm).frames :=
      List.mem_map_of_mem (List.mem_of_getElem? known)
    rw [← show info.frame.wordSize = conv.wordSize from kept.wordSize]
    exact fits _ listed
  let act : Activation :=
    { conv, oracle, base, spaced, fits := small
      temps := (t.finished conv 0 info stm).supply.temps
      slots := info.frame.slots }
  have laid : act.Laid [] (.start conv entry supply) :=
    act.laid_start (registers _ closed.framePointer)
  have room : act.Room t := by
    refine ⟨(grows_wrapBody conv info.frame stm t.supply).1, fun info' found => ?_⟩
    cases known.symm.trans found
    exact Nat.le_refl _
  have below : Below t.supply.temps conv.machine := fun r member =>
    Nat.lt_of_lt_of_le (registers r member) extended.steps.supply_le.1
  have leads := (act.faithful fuel).effect core laid room lowered evaluated
  obtain ⟨σ₁, σ₂, runs, after, world⟩ := runs_wrapBody closed below kept.formals (Nat.le_refl _)
    ((laid.extend extended).settled (Nat.le_refl _)) leads ⟨pointer, .nil, rfl⟩
  refine ⟨(conv.wrapBody info.frame stm t.supply).1, ?_, fun later le => ?_⟩
  · have none : t.fragments = [] := fragments_lowerEffect (fragments_lowerExp program core) lowered
    exact congrArg (· ++ [_]) none
  · have distinct : (conv.wrapBody info.frame stm t.supply).1.labels.Nodup := by
      rw [labels_wrapBody]
      exact lowerEffect_distinct lowered
    obtain ⟨τ, reached, same⟩ := reaches_canonical runs distinct le
    refine ⟨τ, reached, ?_⟩
    rw [same, world]
    exact after.trace

end Programs

end TreeCode
