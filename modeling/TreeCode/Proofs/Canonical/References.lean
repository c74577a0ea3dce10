import TreeCode.Proofs.Canonical.Equations
import TreeCode.Proofs.Tree.References

/-!
Canonical form refers to nothing else than the tree does, leaves nothing nested and keeps all labels
in order, provided that all moves in the tree go to places.
-/

namespace TreeCode.Tree

variable {limits : Limits} {labels later : List Label}

/-- The statements of a sequence refer only to what they may, nothing is nested in them, and these
are the labels that they carry. -/
structure Orderly (limits : Limits) (labels : List Label) (stm : Stm) : Prop where
  respects : ∀ part ∈ stm.toList, part.Respects limits.flat
  marks : marks stm.toList = labels

/-- What is left of an operand: its effects are orderly, and its value refers only to what it
may. -/
structure Left (limits : Limits) (labels : List Label) (parts : Stm × Exp) : Prop where
  effects : Orderly limits labels parts.1
  value : parts.2.Respects limits.flat

theorem orderly_nop : Orderly limits [] .nop := ⟨nofun, rfl⟩

theorem Orderly.andThen {first second : Stm} (begun : Orderly limits labels first)
    (ended : Orderly limits later second) :
    Orderly limits (labels ++ later) (first.andThen second) where
  respects := by
    intro part member
    rw [toList_andThen] at member
    rcases List.mem_append.mp member with early | late
    · exact begun.respects part early
    · exact ended.respects part late
  marks := by rw [toList_andThen, marks_append, begun.marks, ended.marks]

/-- A single statement without a label. -/
theorem orderly_single {stm : Stm} (respects : stm.Respects limits.flat)
    (plain : stm.label? = none) : Orderly limits [] stm := by
  by_cases nothing : stm.isNop = true
  · refine ⟨fun part member => ?_, ?_⟩
    · rw [toList_of_isNop nothing] at member
      cases member
    · rw [toList_of_isNop nothing]
      rfl
  · have whole : ∀ first second, stm ≠ .seq first second := by
      rintro first second rfl
      exact respects.1
    have single := toList_single (Bool.eq_false_iff.mpr nothing) whole
    refine ⟨fun part member => ?_, ?_⟩
    · rw [single, List.mem_singleton] at member
      exact member ▸ respects
    · rw [single, Tree.marks, List.filterMap_cons, plain]
      rfl

/-- A statement after the effects of its operands. -/
theorem Orderly.single {effects stm : Stm} (orderly : Orderly limits labels effects)
    (respects : stm.Respects limits.flat) (plain : stm.label? = none) :
    Orderly limits labels (effects.andThen stm) := by
  have both := orderly.andThen (orderly_single respects plain)
  rw [List.append_nil] at both
  exact both

/-- Saving an operand keeps references in order. -/
theorem Left.before {operand : Stm × Exp} {rest : Stm} (left : Left limits labels operand)
    (orderly : Orderly limits later rest) (supply : Supply) :
    Left limits (labels ++ later) (before operand rest supply).1 := by
  by_cases kept : rest.keeps operand.2 = true
  · rw [before_kept supply kept]
    exact ⟨left.effects.andThen orderly, left.value⟩
  · rw [before_saved supply (Bool.eq_false_iff.mpr kept)]
    have saved : Orderly limits [] (.move (.temp ⟨supply.temps⟩) operand.2) :=
      orderly_single ⟨rfl, trivial, left.value⟩ rfl
    exact ⟨left.effects.andThen (saved.andThen orderly), trivial⟩

theorem Left.hoist {e : Exp} {parts : Fresh (Stm × Exp)}
    (left : ∀ supply, Left limits labels (parts supply).1) (supply : Supply) :
    Left limits labels (e.hoist parts supply).1 := by
  cases e with
  | call func link args =>
    rw [hoist_call]
    exact ⟨(left _).effects.single ⟨rfl, trivial, (left _).value⟩ rfl, trivial⟩
  | _ => exact left supply

/-- An operand before the effects of what comes later. -/
theorem Left.operand {e : Exp} {parts : Fresh (Stm × Exp)} {rest : Stm}
    (left : ∀ supply, Left limits labels (parts supply).1) (orderly : Orderly limits later rest)
    (supply : Supply) :
    Left limits (labels ++ later)
      (TreeCode.Tree.before (e.hoist parts supply).1 rest (e.hoist parts supply).2).1 :=
  (Left.hoist left supply).before orderly _

mutual
/-- Extraction keeps the references of an expression within limits. The induction is on the
expression. -/
theorem left_extract : ∀ e : Exp, e.Respects limits → ∀ supply : Supply,
    Left limits e.labels (e.extract supply).1
  | .const _, _, _ => ⟨orderly_nop, trivial⟩
  | .name _, known, _ => ⟨orderly_nop, known⟩
  | .temp _, _, _ => ⟨orderly_nop, trivial⟩
  | .binop _ left right, both, supply => by
    rw [extract_binop]
    have second := Left.hoist (e := right) (left_extract right both.2) supply
    have first := Left.operand (e := left) (left_extract left both.1) second.effects
      (right.hoist right.extract supply).2
    exact ⟨first.effects, first.value, second.value⟩
  | .mem address, inner, supply => by
    rw [extract_mem]
    have inside := Left.hoist (e := address) (left_extract address inner) supply
    exact ⟨inside.effects, inside.value⟩
  | .call func link args, all, supply => by
    rw [extract_call]
    have rest := left_extractArgs args all.2.2 supply
    have linked := left_extractLink link all.2.1 rest.1 (Exp.extractArgs args supply).2
    have first := Left.operand (e := func) (left_extract func all.1) linked.1
      (Exp.extractLink link (Exp.extractArgs args supply).1.1 (Exp.extractArgs args supply).2).2
    exact ⟨first.effects, first.value, linked.2, rest.2⟩
  | .eseq stm exp, both, supply => by
    rw [extract_eseq]
    have first := orderly_extract stm both.2.1 supply
    have rest := left_extract exp both.2.2 (stm.extract supply).2
    exact ⟨first.andThen rest.effects, rest.value⟩
theorem left_extractLink : ∀ (link : Option Exp), Exp.LinkRespects limits link →
    ∀ {rest : Stm} {labels : List Label}, Orderly limits labels rest → ∀ supply : Supply,
    Orderly limits (Exp.linkLabels link ++ labels) (Exp.extractLink link rest supply).1.1 ∧
      Exp.LinkRespects limits.flat (Exp.extractLink link rest supply).1.2
  | none, _, _, _, orderly, _ => ⟨orderly, trivial⟩
  | some link, inner, _, _, orderly, supply => by
    rw [extractLink_some]
    have first := Left.operand (e := link) (left_extract link inner) orderly supply
    exact ⟨first.effects, first.value⟩
theorem left_extractArgs : ∀ (args : List Exp), Exp.AllRespect limits args → ∀ supply : Supply,
    Orderly limits (Exp.listLabels args) (Exp.extractArgs args supply).1.1 ∧
      Exp.AllRespect limits.flat (Exp.extractArgs args supply).1.2
  | [], _, _ => ⟨orderly_nop, trivial⟩
  | arg :: args, all, supply => by
    rw [extractArgs_cons]
    have rest := left_extractArgs args all.2 supply
    have first := Left.operand (e := arg) (left_extract arg all.1) rest.1
      (Exp.extractArgs args supply).2
    exact ⟨first.effects, first.value, rest.2⟩
theorem orderly_extractMove {src : Exp}
    (left : ∀ supply, Left limits src.labels (src.extract supply).1) :
    ∀ dst : Exp, dst.isPlace = true → dst.Respects limits → ∀ supply : Supply,
      Orderly limits (dst.labels ++ src.labels) (Exp.extractMove src src.extract dst supply).1
  | .temp t, _, _, supply => by
    rw [extractMove_temp]
    exact (left supply).effects.single ⟨rfl, trivial, (left supply).value⟩ rfl
  | .mem address, _, inner, supply => by
    rw [extractMove_mem]
    have value := Left.hoist (e := src) left supply
    have place := Left.operand (e := address) (left_extract address inner) value.effects
      (src.hoist src.extract supply).2
    exact place.effects.single ⟨rfl, place.value, value.value⟩ rfl
  | .eseq stm dst, place, both, supply => by
    rw [extractMove_eseq, Exp.labels, List.append_assoc]
    exact (orderly_extract stm both.2.1 supply).andThen
      (orderly_extractMove left dst place both.2.2 _)
/-- Extraction keeps the references of a statement within limits. -/
theorem orderly_extract : ∀ stm : Stm, stm.Respects limits → ∀ supply : Supply,
    Orderly limits stm.labels (stm.extract supply).1
  | .move dst src, both, supply =>
    orderly_extractMove (left_extract src both.2.2) dst both.1 both.2.1 supply
  | .exp exp, inner, supply => by
    rw [extract_exp]
    have inside := left_extract exp inner supply
    exact inside.effects.single inside.value rfl
  | .jump _ _, ⟨label, same, only, known⟩, supply => by
    subst same only
    exact orderly_single ⟨label, rfl, rfl, known⟩ rfl
  | .cjump op left right yes no, all, supply => by
    rw [extract_cjump]
    have second := Left.hoist (e := right) (left_extract right all.2.1) supply
    have first := Left.operand (e := left) (left_extract left all.1) second.effects
      (right.hoist right.extract supply).2
    exact first.effects.single ⟨first.value, second.value, all.2.2⟩ rfl
  | .seq first second, both, supply => by
    rw [extract_seq]
    exact (orderly_extract first both.2.1 supply).andThen (orderly_extract second both.2.2 _)
  | .label name, _, _ => ⟨List.forall_mem_singleton.mpr trivial, rfl⟩
end

/-- The canonical statements of a tree refer to nothing else than the tree, and carry its labels. -/
theorem canonical_respects {stm : Stm} (respects : stm.Respects limits) (supply : Supply) :
    (∀ part ∈ (stm.canonical supply).1, part.Respects limits.flat) ∧
      marks (stm.canonical supply).1 = stm.labels :=
  have orderly := orderly_extract stm respects supply
  ⟨orderly.respects, orderly.marks⟩

end TreeCode.Tree
