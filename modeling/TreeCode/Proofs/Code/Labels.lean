import TreeCode.Proofs.Code.Steps
import TreeCode.Proofs.Tree.References

/-!
Selection gives labels back. The instructions for canonical statements define the labels that the
statements carry, in order, and no others; and nothing that was issued is taken back.
-/

namespace TreeCode

open Tree

/-- The label that an instruction defines. -/
def Instr.label? (instr : Instr) : Option Label :=
  match instr.kind with
  | .label => instr.labels.head?
  | _ => none

/-- The labels that instructions define, in order. -/
def Instr.defined (instrs : List Instr) : List Label := instrs.filterMap Instr.label?

@[simp] theorem Instr.defined_append (first second : List Instr) :
    Instr.defined (first ++ second) = Instr.defined first ++ Instr.defined second :=
  List.filterMap_append

@[simp] theorem Instr.defined_atLabel (name : Label) (instrs : List Instr) :
    Instr.defined (.atLabel name :: instrs) = name :: Instr.defined instrs := rfl

namespace Selector

variable {sel : Selector} {s s' : Selection} {stms : List Stm}

/-- What templates make is no label. -/
theorem label?_instrOf {operands : Operands} {template : Template} {instr : Instr}
    (made : sel.instrOf operands template = .ok instr) : instr.label? = none := by
  unfold instrOf at made
  simp only [except_bind_ok] at made
  obtain ⟨_, _, _, _, _, _, _, _, _, _, made⟩ := made
  cases made
  unfold Instr.label?
  cases template.isMove <;> rfl

theorem labels_of_mem {exp : Exp} {exps : List Exp} (plain : Exp.listLabels exps = [])
    (member : exp ∈ exps) : exp.labels = [] := by
  induction exps with
  | nil => cases member
  | cons first exps ih =>
    obtain ⟨here, later⟩ := List.append_eq_nil_iff.mp plain
    rcases List.mem_cons.mp member with rfl | inRest
    · exact here
    · exact ih later inRest

/-- What has no labels inside has operands without labels. -/
theorem hereditary_unlabelled :
    Hereditary (fun exp => exp.labels = []) fun stm => stm.labels = [] where
  binop plain := List.append_eq_nil_iff.mp plain
  mem plain := plain
  call plain := by
    obtain ⟨func, rest⟩ := List.append_eq_nil_iff.mp plain
    obtain ⟨inLink, inArgs⟩ := List.append_eq_nil_iff.mp rest
    refine ⟨func, ?_, fun e member => labels_of_mem inArgs member⟩
    rintro link rfl
    exact inLink
  eseq plain := List.append_eq_nil_iff.mp plain
  move plain := List.append_eq_nil_iff.mp plain
  exp plain := plain
  jump plain := plain
  cjump plain := List.append_eq_nil_iff.mp plain
  seq plain := List.append_eq_nil_iff.mp plain

/-- Selection for what carries no labels defines none. -/
theorem steps_unlabelled : sel.Steps (fun stm => stm.labels = [])
    fun act => Within (fun s s' =>
      Instr.defined s'.emitted.toList = Instr.defined s.emitted.toList) act where
  pure _ _ := rfl
  bind := within_bind fun first second => second.trans first
  fresh _ := rfl
  label plain := nomatch plain
  instr operands template := by
    intro s
    rw [run_made]
    cases made : sel.instrOf operands template with
    | error error => rfl
    | ok instr =>
      rw [left_ok, Selection.adding_emitted, Instr.defined_append]
      simp [Instr.defined, label?_instrOf made]
  uncovered _ _ := rfl
  misplaced _ _ := rfl
  crowded _ _ := rfl

/-- The instructions for a statement with nothing nested in it define its label, if it is one. -/
theorem coverStm_defined {stm : Stm} (flat : stm.labels = stm.label?.toList)
    (ran : sel.coverStm stm s = .ok () s') :
    Instr.defined s'.emitted.toList = Instr.defined s.emitted.toList ++ stm.label?.toList := by
  cases found : stm.label? with
  | none =>
    rw [found] at flat
    rw [(steps_unlabelled.coverStm hereditary_unlabelled stm flat).ok ran]
    exact (List.append_nil _).symm
  | some name =>
    cases stm with
    | label name =>
      cases found
      rw [coverStm, run_emit] at ran
      cases ran
      rw [Array.toList_push, Instr.defined_append]
      rfl
    | _ => cases found

theorem coverList_defined (flat : ∀ stm ∈ stms, stm.labels = stm.label?.toList)
    (ran : sel.coverList stms s = .ok () s') :
    Instr.defined s'.emitted.toList = Instr.defined s.emitted.toList ++ marks stms := by
  induction stms generalizing s with
  | nil =>
    cases ran
    exact (List.append_nil _).symm
  | cons stm stms ih =>
    obtain ⟨_, t, first, rest⟩ := bind_ok.mp ran
    obtain ⟨here, later⟩ := List.forall_mem_cons.mp flat
    rw [ih later rest, coverStm_defined here first, List.append_assoc, ← marks_cons]

/-- The instructions selected for canonical statements define the labels of the statements. -/
theorem selectAll_defined {supply : Supply} {code : List Instr}
    (flat : ∀ stm ∈ stms, stm.labels = stm.label?.toList)
    (ran : sel.selectAll stms { supply } = .ok code s) : Instr.defined code = marks stms := by
  obtain ⟨_, t, covered, taken⟩ := bind_ok.mp ran
  cases taken
  exact coverList_defined flat covered

/-- Selection takes back nothing that was issued. -/
theorem selectAll_supply (sel : Selector) (stms : List Stm) :
    Within (fun s s' => s.supply.Le s'.supply) (sel.selectAll stms) := by
  have steps : sel.Steps (fun _ => True)
      fun act => Within (fun s s' => s.supply.Le s'.supply) act :=
    Steps.within (fun _ => .refl _) .trans (fun s => grows_freshTemp s.supply) fun _ _ => .refl _
  exact within_bind .trans (steps.coverList hereditary_true stms fun _ _ => trivial)
    fun _ _ => .refl _

end Selector

end TreeCode
