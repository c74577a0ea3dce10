import TreeCode.Proofs.Lowering.Separation

/-!
Whole programs. When escaping variables are marked by the analysis, every use of a variable is
safe, and the procedures of the program are apart from each other.
-/

namespace TreeCode.Lowering

open Tree

variable {conv : Convention} {entry : Label} {supply : Supply} {s : Lowering}

/-- At the start the walk has marked nothing. -/
theorem follows_start (conv : Convention) (marks : List Nat) (entry : Label) (supply : Supply) :
    Follows conv marks [0] [] 0 0 (start conv entry supply) :=
  ⟨.nil, rfl, rfl, linksFirst_start conv entry supply⟩

theorem home_start (closed : conv.Closed) (registers : Below supply.temps conv.machine) :
    Home conv [] 0 (start conv entry supply) where
  homes _ _ member := nomatch member
  below _ member := nomatch member
  sound := ⟨closed, registers, by simp [start, varsIn], linksFirst_start conv entry supply⟩

theorem pooled_start (conv : Convention) (entry : Label) (supply : Supply) :
    Pooled conv (start conv entry supply) 0 [] :=
  ⟨_, rfl, by simp, by simp⟩

/-- Every use of a variable is safe in a program that was analysed. -/
theorem lowerProgram_safe {program marked : Source.Exp}
    (analysed : program.markEscaping = (.ok (), marked))
    (ran : lowerProgram conv marked (start conv entry supply) = .ok () s) :
    everyUse conv (SafeUse conv) 0 marked (start conv entry supply) := by
  unfold Source.Exp.markEscaping at analysed
  cases walked : program.walk [] 0 0 [] with
  | error error found => simp [walked] at analysed
  | ok _ found =>
    simp only [walked, Prod.mk.injEq, true_and] at analysed
    subst analysed
    obtain ⟨_, _, lowered, _⟩ := lowerProgram_ok ran
    obtain ⟨_, _, inner, _⟩ := lowerEffect_ok.mp lowered
    exact lowerExp_safe (follows_start conv found entry supply) program walked
      (List.Subset.refl found) inner

/-- The procedures of a program are apart when every use of a variable is safe. -/
theorem lowerProgram_finishes {program : Source.Exp} (closed : conv.Closed)
    (registers : Below supply.temps conv.machine)
    (safe : everyUse conv (SafeUse conv) 0 program (start conv entry supply))
    (ran : lowerProgram conv program (start conv entry supply) = .ok () s) :
    Finishes conv [[]] (start conv entry supply) s := by
  obtain ⟨_, _, lowered, finished⟩ := lowerProgram_ok ran
  obtain ⟨out, t, inner, rfl, rfl⟩ := lowerEffect_ok.mp lowered
  have home : Home conv [] 0 (start conv entry supply) := home_start closed registers
  have separates := (lowerExp_separates home program safe inner).asEffect home.below
  have pooled := (pooled_start conv entry supply).steps
    ((lowerEffect_extends 0 program).ok lowered).steps
  exact separates.finish pooled closed home.below finished

end TreeCode.Lowering
