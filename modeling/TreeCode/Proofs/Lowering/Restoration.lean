import TreeCode.Proofs.Lowering.Levels

/-!
What lowering leaves behind, on every path. Whether it succeeds or fails in the midst of nested
scopes, loops and functions, the names in scope and the exits of loops are what they were, so a
later lowering in the same state resolves names and leaves loops as if nothing had happened. Levels
and fragments are only added to.
-/

namespace TreeCode.Lowering

variable {conv : Convention} {s t : Lowering}

/-- Fragments are only added at the end. -/
theorem Step.fragments_prefix (step : Step conv s t) : s.fragments <+: t.fragments := by
  cases step with
  | literal label text => exact List.prefix_append _ _
  | finish level info body known => exact List.prefix_append _ _
  | names => exact List.prefix_rfl
  | issue => exact List.prefix_rfl
  | allocate => exact List.prefix_rfl
  | nest => exact List.prefix_rfl

theorem Steps.fragments_prefix (steps : Steps conv s t) : s.fragments <+: t.fragments := by
  induction steps with
  | refl => exact List.prefix_rfl
  | tail _ step carried => exact carried.trans step.fragments_prefix

/-- The environment `t` is that of `s`, with nothing taken back: scopes with all their names and
exits of loops are the same, each level is still there and has only gained storage, and fragments
were added at the end. -/
structure Restored (s t : Lowering) : Prop where
  scopes : t.scopes = s.scopes
  exits : t.exits = s.exits
  levels : ∀ (level : Level) (info : LevelInfo), s.levels[level]? = some info →
    ∃ info', t.levels[level]? = some info' ∧ info'.parent = info.parent ∧
      info'.frame.name = info.frame.name ∧ info'.frame.formals = info.frame.formals ∧
      info'.frame.incoming = info.frame.incoming ∧ info.frame.slots ≤ info'.frame.slots
  fragments : s.fragments <+: t.fragments

/-- A state that has been extended has what it had before. -/
theorem Extends.restored (extended : Extends conv s t) : Restored s t where
  scopes := extended.scopes
  exits := extended.exits
  levels level info present := by
    obtain ⟨info', found, kept⟩ := extended.steps.keeps present
    exact ⟨info', found, kept.parent, kept.name, kept.formals, kept.incoming, kept.slots⟩
  fragments := extended.steps.fragments_prefix

/-- Lowering an expression in any level, or a whole program, restores the environment of any state
that it starts in, whether it succeeds or fails. -/
theorem lowering_restores (conv : Convention) (s : Lowering) (exp : Source.Exp) :
    (∀ level, Restored s (left (lowerExp conv level exp s))) ∧
      Restored s (left (lowerProgram conv exp s)) :=
  ⟨fun level => (lowerExp_extends level exp s).restored, (lowerProgram_extends conv exp s).restored⟩

end TreeCode.Lowering
