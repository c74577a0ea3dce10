import TreeCode.Proofs.Tree.Machine
import TreeCode.Proofs.Tree.Occurrences

/-!
What trees refer to. Jumps go to labels, and all other names in a tree stand for something outside
of it. Limits say which labels there may be, and whether statements may stand inside others.
-/

namespace TreeCode.Tree

/-- What a tree may refer to, and how it may be built. -/
structure Limits where
  /-- The labels that may be jumped to. -/
  targets : Label → Prop
  /-- The names that may stand elsewhere than in a jump. -/
  names : Label → Prop
  /-- Whether statements may stand inside expressions and other statements. -/
  nested : Prop

/-- The same limits for canonical statements, in which nothing is nested. -/
def Limits.flat (limits : Limits) : Limits := { limits with nested := False }

variable (limits : Limits)

mutual
/-- An expression refers only to what it may. -/
def Exp.Respects : Exp → Prop
  | .const _ => True
  | .name label => limits.names label
  | .temp _ => True
  | .binop _ left right => left.Respects ∧ right.Respects
  | .mem address => address.Respects
  | .call func link args => func.Respects ∧ Exp.LinkRespects link ∧ Exp.AllRespect args
  | .eseq stm exp => limits.nested ∧ stm.Respects ∧ exp.Respects
/-- The link of a call refers only to what it may. -/
def Exp.LinkRespects : Option Exp → Prop
  | none => True
  | some link => link.Respects
/-- Expressions refer only to what they may. -/
def Exp.AllRespect : List Exp → Prop
  | [] => True
  | exp :: exps => exp.Respects ∧ Exp.AllRespect exps
/-- A statement refers only to what it may. All jumps in it go to one label, and all moves to a
place. -/
def Stm.Respects : Stm → Prop
  | .move dst src => dst.isPlace = true ∧ dst.Respects ∧ src.Respects
  | .exp exp => exp.Respects
  | .jump target labels => ∃ label, target = .name label ∧ labels = [label] ∧ limits.targets label
  | .cjump _ left right yes no =>
    left.Respects ∧ right.Respects ∧ limits.targets yes ∧ limits.targets no
  | .seq first second => limits.nested ∧ first.Respects ∧ second.Respects
  | .label _ => True
end

variable {limits} {wider : Limits}

/-- What respects the first limits respects the second ones. -/
structure Limits.Le (limits wider : Limits) : Prop where
  targets : ∀ label, limits.targets label → wider.targets label
  names : ∀ label, limits.names label → wider.names label
  nested : limits.nested → wider.nested

mutual
/-- References within limits are within wider ones. -/
theorem Exp.respects_of_le (le : limits.Le wider) :
    ∀ exp : Exp, exp.Respects limits → exp.Respects wider
  | .const _, _ => trivial
  | .name label, known => le.names label known
  | .temp _, _ => trivial
  | .binop _ left right, both =>
    ⟨Exp.respects_of_le le left both.1, Exp.respects_of_le le right both.2⟩
  | .mem address, inner => Exp.respects_of_le le address inner
  | .call func link args, all =>
    ⟨Exp.respects_of_le le func all.1, Exp.linkRespects_of_le le link all.2.1,
      Exp.allRespect_of_le le args all.2.2⟩
  | .eseq stm exp, both =>
    ⟨le.nested both.1, Stm.respects_of_le le stm both.2.1, Exp.respects_of_le le exp both.2.2⟩
theorem Exp.linkRespects_of_le (le : limits.Le wider) :
    ∀ link : Option Exp, Exp.LinkRespects limits link → Exp.LinkRespects wider link
  | none, _ => trivial
  | some link, inner => Exp.respects_of_le le link inner
theorem Exp.allRespect_of_le (le : limits.Le wider) :
    ∀ exps : List Exp, Exp.AllRespect limits exps → Exp.AllRespect wider exps
  | [], _ => trivial
  | exp :: exps, all => ⟨Exp.respects_of_le le exp all.1, Exp.allRespect_of_le le exps all.2⟩
theorem Stm.respects_of_le (le : limits.Le wider) :
    ∀ stm : Stm, stm.Respects limits → stm.Respects wider
  | .move dst src, both =>
    ⟨both.1, Exp.respects_of_le le dst both.2.1, Exp.respects_of_le le src both.2.2⟩
  | .exp exp, inner => Exp.respects_of_le le exp inner
  | .jump _ _, ⟨label, same, only, known⟩ => ⟨label, same, only, le.targets label known⟩
  | .cjump _ left right yes no, all =>
    ⟨Exp.respects_of_le le left all.1, Exp.respects_of_le le right all.2.1,
      le.targets yes all.2.2.1, le.targets no all.2.2.2⟩
  | .seq first second, both =>
    ⟨le.nested both.1, Stm.respects_of_le le first both.2.1, Stm.respects_of_le le second both.2.2⟩
  | .label _, _ => trivial
end

@[simp] theorem Stm.respects_goto (label : Label) :
    (Stm.goto label).Respects limits ↔ limits.targets label := by
  constructor
  · rintro ⟨_, same, _, known⟩
    cases same
    exact known
  · intro known
    exact ⟨label, rfl, rfl, known⟩

/-- A sequence respects limits that let statements be nested if its statements do. -/
theorem Stm.respects_sequence (nested : limits.nested) {stms : List Stm}
    (all : ∀ stm ∈ stms, stm.Respects limits) : (Stm.sequence stms).Respects limits := by
  induction stms with
  | nil => trivial
  | cons stm stms ih =>
    have first := all stm List.mem_cons_self
    cases stms with
    | nil => exact first
    | cons next stms =>
      exact ⟨nested, first, ih fun stm member => all stm (List.mem_cons_of_mem _ member)⟩

section Flat

mutual
/-- There are no labels in an expression without statements inside. -/
theorem Exp.labels_of_respects (flat : ¬limits.nested) :
    ∀ exp : Exp, exp.Respects limits → exp.labels = []
  | .const _, _ => rfl
  | .name _, _ => rfl
  | .temp _, _ => rfl
  | .binop _ left right, both => by
    rw [Exp.labels, Exp.labels_of_respects flat left both.1,
      Exp.labels_of_respects flat right both.2, List.append_nil]
  | .mem address, inner => Exp.labels_of_respects flat address inner
  | .call func link args, all => by
    rw [Exp.labels, Exp.labels_of_respects flat func all.1,
      Exp.linkLabels_of_respects flat link all.2.1, Exp.listLabels_of_respects flat args all.2.2]
    rfl
  | .eseq _ _, both => absurd both.1 flat
theorem Exp.linkLabels_of_respects (flat : ¬limits.nested) :
    ∀ link : Option Exp, Exp.LinkRespects limits link → Exp.linkLabels link = []
  | none, _ => rfl
  | some link, inner => Exp.labels_of_respects flat link inner
theorem Exp.listLabels_of_respects (flat : ¬limits.nested) :
    ∀ exps : List Exp, Exp.AllRespect limits exps → Exp.listLabels exps = []
  | [], _ => rfl
  | exp :: exps, all => by
    rw [Exp.listLabels, Exp.labels_of_respects flat exp all.1,
      Exp.listLabels_of_respects flat exps all.2, List.append_nil]
end

/-- A statement without statements inside has no labels, or is one. -/
theorem Stm.labels_of_respects (flat : ¬limits.nested) {stm : Stm}
    (respects : stm.Respects limits) : stm.labels = stm.label?.toList := by
  cases stm with
  | move dst src =>
    rw [Stm.labels, Exp.labels_of_respects flat dst respects.2.1,
      Exp.labels_of_respects flat src respects.2.2]
    rfl
  | exp exp => exact Exp.labels_of_respects flat exp respects
  | jump target labels =>
    obtain ⟨label, rfl, _⟩ := respects
    rfl
  | cjump op left right yes no =>
    rw [Stm.labels, Exp.labels_of_respects flat left respects.1,
      Exp.labels_of_respects flat right respects.2.1]
    rfl
  | seq first second => exact absurd respects.1 flat
  | label name => rfl

end Flat

theorem marks_cons (stm : Stm) (stms : List Stm) :
    marks (stm :: stms) = stm.label?.toList ++ marks stms := by
  unfold marks
  rw [List.filterMap_cons]
  cases stm.label? <;> rfl

end TreeCode.Tree
