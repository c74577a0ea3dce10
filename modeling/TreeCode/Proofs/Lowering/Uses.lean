import TreeCode.Proofs.Lowering.Visitor

/-!
The uses of variables in a program. `everyUse` requires something of each of them, in the level and
the state in which it is lowered.
-/

namespace TreeCode.Lowering

/-- The visitor that requires something of every use of a variable. -/
abbrev requiring (holds : Level → String → Lowering → Prop) : Visitor Prop where
  nothing := True
  both := And
  use := holds
  introduced _ _ := True

theorem later_iff {holds : Level → String → Lowering → Prop} {α : Type} {act : Lower α}
    {s t : Lowering} {a : α} {next : α → Lowering → Prop} (ran : act s = .ok a t) :
    (requiring holds).later act s next ↔ next a t :=
  Iff.of_eq (Visitor.later_ok _ ran next)

/-- Every variable that occurs in an expression, lowered in `level`, those in the functions
declared inside it included. -/
def everyUse (conv : Convention) (holds : Level → String → Lowering → Prop) (level : Level)
    (exp : Source.Exp) (s : Lowering) : Prop :=
  (requiring holds).visit conv level exp s

/-- The variable called `name` is one of `level` itself, or it lives in memory and code in
`level` finds it through the static links from `level` to the level that declares it. -/
def SafeUse (conv : Convention) (level : Level) (name : String) (s : Lowering) : Prop :=
  ∃ declared access, meaningIn s.scopes name = some (.variable declared access) ∧
    (declared = level ∨ ∃ offset address, access = .inFrame offset ∧
      Linked conv s.levels declared level (.temp conv.framePointer) address ∧
      ∀ pos, lowerVar conv level (.simple name pos) s =
        .ok (.mem (.binop .plus address (.const offset))) s)

end TreeCode.Lowering
