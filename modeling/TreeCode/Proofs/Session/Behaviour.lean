import TreeCode.Proofs.Lowering.Program
import TreeCode.Proofs.Session.Hygiene

/-!
Programs of the core language behave on the machine as they are evaluated, on each of the known
machines and in any session.
-/

namespace TreeCode

open Tree Source

variable {session : Session} {config : Config}

theorem issue_wordSize {table : ConventionTable} {conv : Convention} {supply supply' : Supply}
    (ran : table.issue supply = .ok conv supply') : conv.wordSize = table.wordSize := by
  obtain ⟨registers, _, issued, ran⟩ := bind_ok.mp ran
  obtain ⟨rfl, -⟩ := pure_ok.mp ran
  rfl

theorem wordSize_pos (arch : Arch) : 0 < arch.target.convention.wordSize := by
  cases arch <;> decide

/-- The words of a frame are apart from each other. -/
theorem Session.Reachable.spaced (reached : Reachable config session) :
    0 < session.conv.wordSize := by
  induction reached with
  | start began =>
    unfold Session.start at began
    split at began
    next conv supply issued =>
      cases began
      rw [show conv.wordSize = _ from issue_wordSize issued]
      exact wordSize_pos config.arch
    next => cases began
  | compile program _ spaced =>
    rw [(compile_advances _ program).conv]
    exact spaced

/-- A program of the core language that is lowered in some session becomes one function. Suppose
that the words of its frame have different addresses. If direct evaluation of the program comes to
an end, then the machine gets from the first canonical statement of the function to behind the last
one, and makes exactly the runtime calls that evaluation makes. The frame pointer may have any
value, and so may all other temporaries and the memory. -/
theorem lowered_runs_as_evaluated (reached : Session.Reachable config session)
    {program : Source.Exp} (core : program.isCore = true) {state : Lowering}
    (lowered : Lowering.lowerProgram session.conv program
      (.start session.conv session.config.entry session.supply) = .ok () state)
    (fits : ∀ frame ∈ state.frames, frame.localBytes ≤ 2 ^ 64) {oracle : Oracle}
    {σ : State Value World} {base : Word}
    (pointer : σ.temps session.conv.framePointer = .word base) {fuel : Nat} {v : Word}
    {store : Store}
    (evaluated : program.eval oracle fuel ⟨[], σ.world.trace⟩ = some (v, store)) :
    ∃ body, state.fragments = [.proc 0 body] ∧
      ∀ later : Supply, state.supply.temps ≤ later.temps →
        ∃ τ, (Model.words oracle).Reaches (body.canonical later).1 (0, σ)
            ((body.canonical later).1.length, τ) ∧ τ.world.trace = store.trace :=
  lowerProgram_behaves reached.ready.closed reached.ready.registers reached.spaced core lowered
    fits pointer evaluated

/-- Counts `x` down in an operand, with `x` in memory and `y` in a temporary. -/
def countdown : Source.Exp :=
  .letIn [.var { name := "x", escapes := true } (.int 2), .var { name := "y" } .nil]
    (.seq [
      .whileDo (.op .gt (.var (.simple "x" {})) (.int 0) false)
        (.assign (.simple "y" {})
          (.op .plus (.call "chr" [.var (.simple "x" {})] {})
            (.seq [.assign (.simple "x" {}) (.op .minus (.var (.simple "x" {})) (.int 1) false),
              .var (.simple "x" {})]) false)),
      .call "ord" [.ifElse (.op .lt (.var (.simple "y" {})) (.var (.simple "x" {})) false) .nil
        (.var (.simple "y" {}))] {}])

/-- Every call returns ten more than the one before. -/
def countingOracle : Oracle := fun calls => .ofNat 64 (10 * calls.length)

theorem countdown_runs_as_evaluated :
    ∃ session state body, Session.start {} = .ok session ∧
      Lowering.lowerProgram session.conv countdown
        (.start session.conv session.config.entry session.supply) = .ok () state ∧
      (∀ frame ∈ state.frames, frame.localBytes ≤ 2 ^ 64) ∧ state.fragments = [.proc 0 body] ∧
      ∃ τ, (Model.words countingOracle).Reaches (body.canonical state.supply).1
          (0, ⟨fun _ => .word 4096, ⟨fun _ => .word 0, []⟩⟩)
          ((body.canonical state.supply).1.length, τ) ∧
        τ.world.trace = [⟨"chr", [2]⟩, ⟨"chr", [1]⟩, ⟨"ord", [20]⟩] := by
  have checked : ((Session.start {}).toOption.bind fun session =>
      match lowerInSession countdown session with
      | .ok (frames, _) _ => some (frames.all fun frame => frame.localBytes ≤ 2 ^ 64)
      | .error _ _ => none) = some true := by decide +kernel
  obtain ⟨session, began, checked⟩ := Option.bind_eq_some_iff.mp checked
  have began := ok_of_toOption began
  split at checked
  next frames fragments _ ran =>
    obtain ⟨state, lowered, rfl, rfl, -⟩ := lowerInSession_ok ran
    have fits : ∀ frame ∈ state.frames, frame.localBytes ≤ 2 ^ 64 := by
      simpa using checked
    have evaluated : countdown.eval countingOracle 20 ⟨[], []⟩ =
        some (30, ⟨[], [⟨"chr", [2]⟩, ⟨"chr", [1]⟩, ⟨"ord", [20]⟩]⟩) := by decide +kernel
    obtain ⟨body, made, behaves⟩ :=
      @lowered_runs_as_evaluated session {} (.start began) countdown (by decide +kernel) state
        lowered fits countingOracle ⟨fun _ => .word 4096, ⟨fun _ => .word 0, []⟩⟩ 4096 rfl 20 30 _
        evaluated
    exact ⟨session, state, body, began, lowered, fits, made, behaves state.supply (Nat.le_refl _)⟩
  next => cases checked

end TreeCode
