import TreeCode.Proofs.Canonical.Equations
import TreeCode.Proofs.Mirror

/-!
Canonical form does not depend on names: taking a renamed tree apart mirrors taking the tree apart.
-/

namespace TreeCode.Tree

variable {ρ : Renaming} {last : Supply}

/-- Effects and a value under other names. -/
def renameParts (ρ : Renaming) (parts : Stm × Exp) : Stm × Exp :=
  (parts.1.rename ρ, parts.2.rename ρ)

/-- Operands are saved on both sides, since renaming keeps what a statement changes. -/
theorem mirrors_before (operand : Stm × Exp) (later : Stm) :
    FreshMirrors ρ last (renameParts ρ) (before operand later)
      (before (renameParts ρ operand) (later.rename ρ)) := by
  unfold before
  rw [renameParts, Stm.keeps_rename]
  by_cases kept : later.keeps operand.2 = true
  · rw [if_pos kept, if_pos kept]
    exact freshMirrors_pure (by simp [renameParts])
  · rw [if_neg kept, if_neg kept]
    exact freshMirrors_bind freshMirrors_freshTemp fun t =>
      freshMirrors_pure (by simp [renameParts])

theorem mirrors_hoist {operand : Exp} {parts parts' : Fresh (Stm × Exp)}
    (inner : FreshMirrors ρ last (renameParts ρ) parts parts') :
    FreshMirrors ρ last (renameParts ρ) (operand.hoist parts)
      ((operand.rename ρ).hoist parts') := by
  cases operand with
  | call func link args =>
    exact freshMirrors_bind freshMirrors_freshTemp fun t =>
      freshMirrors_bind inner fun _ => freshMirrors_pure (by simp [renameParts])
  | const | name | temp | binop | mem | eseq => exact inner

/-- An operand in front of the effects of those to its right, and what is done with it. -/
theorem mirrors_operand {α β : Type} {out : α → β} {operand : Exp} {later : Stm}
    {next : Stm × Exp → Fresh α} {next' : Stm × Exp → Fresh β}
    (inner : FreshMirrors ρ last (renameParts ρ) operand.extract (operand.rename ρ).extract)
    (rest : ∀ parts, FreshMirrors ρ last out (next parts) (next' (renameParts ρ parts))) :
    FreshMirrors ρ last out
      (do next (← before (← operand.hoist operand.extract) later))
      (do next' (← before (← (operand.rename ρ).hoist (operand.rename ρ).extract)
        (later.rename ρ))) :=
  freshMirrors_bind (mirrors_hoist inner) fun parts =>
    freshMirrors_bind (mirrors_before parts later) rest

/-- A move to what is no place. -/
theorem mirrors_stray {src dst : Exp}
    (inner : FreshMirrors ρ last (renameParts ρ) src.extract (src.rename ρ).extract) :
    FreshMirrors ρ last (Stm.rename ρ)
      (do
        let (effects, value) ← src.hoist src.extract
        return effects.andThen (.move dst value))
      (do
        let (effects, value) ← (src.rename ρ).hoist (src.rename ρ).extract
        return effects.andThen (.move (dst.rename ρ) value)) :=
  freshMirrors_bind (mirrors_hoist inner) fun _ => freshMirrors_pure (by simp)

mutual
/-- Extraction commutes with renaming. The induction is on the expression. -/
theorem mirrors_extract : ∀ exp : Exp,
    FreshMirrors ρ last (renameParts ρ) exp.extract (exp.rename ρ).extract
  | .const _ => freshMirrors_pure rfl
  | .name _ => freshMirrors_pure rfl
  | .temp _ => freshMirrors_pure rfl
  | .binop op left right => by
    unfold Exp.rename Exp.extract
    exact freshMirrors_bind (mirrors_hoist (mirrors_extract right)) fun _ =>
      mirrors_operand (mirrors_extract left) fun _ => freshMirrors_pure rfl
  | .mem address => by
    unfold Exp.rename Exp.extract
    exact freshMirrors_bind (mirrors_hoist (mirrors_extract address)) fun _ =>
      freshMirrors_pure rfl
  | .call func link args => by
    unfold Exp.rename Exp.extract
    exact freshMirrors_bind (mirrors_extractArgs args) fun (later, _) =>
      freshMirrors_bind (mirrors_extractLink link later) fun _ =>
      mirrors_operand (mirrors_extract func) fun _ => freshMirrors_pure rfl
  | .eseq stm exp => by
    unfold Exp.rename Exp.extract
    exact freshMirrors_bind (mirrors_extractStm stm) fun _ =>
      freshMirrors_bind (mirrors_extract exp) fun _ =>
      freshMirrors_pure (by simp [renameParts])
theorem mirrors_extractLink : ∀ (link : Option Exp) (later : Stm),
    FreshMirrors ρ last (fun parts => (parts.1.rename ρ, Exp.renameLink ρ parts.2))
      (Exp.extractLink link later) (Exp.extractLink (Exp.renameLink ρ link) (later.rename ρ))
  | none, _ => freshMirrors_pure rfl
  | some link, later => by
    unfold Exp.renameLink Exp.extractLink
    exact mirrors_operand (mirrors_extract link) fun _ => freshMirrors_pure rfl
theorem mirrors_extractArgs : ∀ args : List Exp,
    FreshMirrors ρ last (fun parts => (parts.1.rename ρ, Exp.renameList ρ parts.2))
      (Exp.extractArgs args) (Exp.extractArgs (Exp.renameList ρ args))
  | [] => freshMirrors_pure rfl
  | arg :: args => by
    unfold Exp.renameList Exp.extractArgs
    exact freshMirrors_bind (mirrors_extractArgs args) fun _ =>
      mirrors_operand (mirrors_extract arg) fun _ => freshMirrors_pure rfl
theorem mirrors_extractMove {src : Exp}
    (inner : FreshMirrors ρ last (renameParts ρ) src.extract (src.rename ρ).extract) :
    ∀ dst : Exp, FreshMirrors ρ last (Stm.rename ρ) (Exp.extractMove src src.extract dst)
      (Exp.extractMove (src.rename ρ) (src.rename ρ).extract (dst.rename ρ))
  | .temp t => by
    rw [Exp.rename, Exp.extractMove, Exp.extractMove]
    exact freshMirrors_bind inner fun _ => freshMirrors_pure (by simp)
  | .mem address => by
    rw [Exp.rename, Exp.extractMove, Exp.extractMove]
    exact freshMirrors_bind (mirrors_hoist inner) fun _ =>
      mirrors_operand (mirrors_extract address) fun _ =>
      freshMirrors_pure (by simp)
  | .eseq stm dst => by
    rw [Exp.rename, Exp.extractMove, Exp.extractMove]
    exact freshMirrors_bind (mirrors_extractStm stm) fun _ =>
      freshMirrors_bind (mirrors_extractMove inner dst) fun _ =>
      freshMirrors_pure (by simp)
  | .const _ => mirrors_stray inner
  | .name _ => mirrors_stray inner
  | .binop _ _ _ => mirrors_stray inner
  | .call _ _ _ => mirrors_stray inner
theorem mirrors_extractStm : ∀ stm : Stm,
    FreshMirrors ρ last (Stm.rename ρ) stm.extract (stm.rename ρ).extract
  | .move dst src => by
    unfold Stm.rename Stm.extract
    exact mirrors_extractMove (mirrors_extract src) dst
  | .exp exp => by
    unfold Stm.rename Stm.extract
    exact freshMirrors_bind (mirrors_extract exp) fun _ =>
      freshMirrors_pure (by simp)
  | .jump target labels => by
    unfold Stm.rename Stm.extract
    exact freshMirrors_bind (mirrors_hoist (mirrors_extract target)) fun _ =>
      freshMirrors_pure (by simp)
  | .cjump op left right yes no => by
    unfold Stm.rename Stm.extract
    exact freshMirrors_bind (mirrors_hoist (mirrors_extract right)) fun _ =>
      mirrors_operand (mirrors_extract left) fun _ =>
      freshMirrors_pure (by simp)
  | .seq first second => by
    unfold Stm.rename Stm.extract
    exact freshMirrors_bind (mirrors_extractStm first) fun _ =>
      freshMirrors_bind (mirrors_extractStm second) fun _ => freshMirrors_pure (by simp)
  | .label _ => freshMirrors_pure rfl
end

theorem toList_rename_single {stm : Stm} (whole : ∀ first second, stm ≠ .seq first second)
    (whole' : ∀ first second, stm.rename ρ ≠ .seq first second) :
    (stm.rename ρ).toList = stm.toList.map (Stm.rename ρ) := by
  have same := Stm.isNop_rename ρ stm
  cases nothing : stm.isNop with
  | true => rw [toList_of_isNop nothing, toList_of_isNop (same.trans nothing), List.map_nil]
  | false =>
    rw [toList_single nothing whole, toList_single (same.trans nothing) whole']
    rfl

/-- Renaming a statement renames the statements in it. -/
theorem toList_rename : ∀ stm : Stm, (stm.rename ρ).toList = stm.toList.map (Stm.rename ρ)
  | .seq first second => by
    rw [Stm.rename, Stm.toList, Stm.toList, toList_rename first, toList_rename second,
      List.map_append]
  | .move _ _ => toList_rename_single (by simp) (by simp)
  | .exp _ => toList_rename_single (by simp) (by simp)
  | .jump _ _ => toList_rename_single (by simp) (by simp)
  | .cjump _ _ _ _ _ => toList_rename_single (by simp) (by simp)
  | .label _ => toList_rename_single (by simp) (by simp)

/-- The canonical statements of a renamed statement are those of the statement, renamed. -/
theorem mirrors_canonical (stm : Stm) :
    FreshMirrors ρ last (List.map (Stm.rename ρ)) stm.canonical (stm.rename ρ).canonical :=
  freshMirrors_bind (mirrors_extractStm stm) fun whole =>
    freshMirrors_pure (toList_rename whole)

end TreeCode.Tree
