import TreeCode.Proofs.Canonical.Equations
import TreeCode.Proofs.Supply
import TreeCode.Proofs.Tree.Machine
import TreeCode.Proofs.Tree.Occurrences

/-!
Canonical form keeps labels in order and carries none twice that the tree carries once. It takes
nothing back that was issued.
-/

namespace TreeCode.Tree

/-- The effects that `parts` leaves carry no other labels than `labels`, in the same order. -/
def CarriesOnly {α : Type} (labels : List Label) (parts : Fresh (Stm × α)) : Prop :=
  ∀ supply, (marks (parts supply).1.1.toList).Sublist labels

theorem marks_andThen (first second : Stm) :
    marks (first.andThen second).toList = marks first.toList ++ marks second.toList := by
  rw [toList_andThen, marks_append]

theorem marks_move (dst src : Exp) : marks (Stm.move dst src).toList = [] := rfl

theorem marks_exp (exp : Exp) : marks (Stm.exp exp).toList = [] := by
  cases exp <;> rfl

/-- Saving an operand adds no labels. -/
theorem marks_before (operand : Stm × Exp) (later : Stm) (supply : Supply) :
    marks (before operand later supply).1.1.toList =
      marks operand.1.toList ++ marks later.toList := by
  by_cases kept : later.keeps operand.2 = true
  · rw [before_kept supply kept]
    exact marks_andThen _ _
  · rw [before_saved supply (Bool.eq_false_iff.mpr kept)]
    simp only [marks_andThen, marks_move, List.nil_append]

theorem CarriesOnly.hoist {labels : List Label} {parts : Fresh (Stm × Exp)} {e : Exp}
    (carries : CarriesOnly labels parts) : CarriesOnly labels (e.hoist parts) := by
  intro supply
  cases e with
  | call func link args =>
    rw [hoist_call]
    simp only [marks_andThen, marks_move, List.append_nil]
    exact carries _
  | _ => exact carries supply

/-- An operand in front of others. -/
theorem CarriesOnly.operand {labels later : List Label} {parts : Fresh (Stm × Exp)} {e : Exp}
    {rest : Stm} (carries : CarriesOnly labels parts)
    (carriesRest : (marks rest.toList).Sublist later) (supply : Supply) :
    (marks (before (e.hoist parts supply).1 rest (e.hoist parts supply).2).1.1.toList).Sublist
      (labels ++ later) := by
  rw [marks_before]
  exact (carries.hoist supply).append carriesRest

/-- A move that goes to no place. -/
theorem marks_stray {src dst : Exp} (carries : CarriesOnly src.labels src.extract)
    (supply : Supply) :
    (marks ((src.hoist src.extract supply).1.1.andThen
      (.move dst (src.hoist src.extract supply).1.2)).toList).Sublist
        (dst.labels ++ src.labels) := by
  rw [marks_andThen, marks_move, List.append_nil]
  exact (carries.hoist supply).trans (List.sublist_append_right _ _)

mutual
/-- The labels in front of an expression are those inside of it, in order. The induction is on the
expression. -/
theorem marks_extract : ∀ e : Exp, CarriesOnly e.labels e.extract
  | .const _ => fun _ => List.nil_sublist _
  | .name _ => fun _ => List.nil_sublist _
  | .temp _ => fun _ => List.nil_sublist _
  | .binop _ left right => by
    intro supply
    rw [extract_binop]
    exact (marks_extract left).operand ((marks_extract right).hoist supply) _
  | .mem address => by
    intro supply
    rw [extract_mem]
    exact (marks_extract address).hoist supply
  | .call func link args => by
    intro supply
    rw [extract_call]
    exact (marks_extract func).operand (marks_extractLink link (marks_extractArgs args supply) _) _
  | .eseq stm exp => by
    intro supply
    rw [extract_eseq]
    simp only [marks_andThen]
    exact (marks_extractStm stm supply).append (marks_extract exp _)
theorem marks_extractLink : ∀ (link : Option Exp) {later : Stm} {labels : List Label},
    (marks later.toList).Sublist labels →
    CarriesOnly (Exp.linkLabels link ++ labels) (Exp.extractLink link later)
  | none, _, _, carries => fun _ => carries
  | some link, _, _, carries => by
    intro supply
    rw [extractLink_some]
    exact (marks_extract link).operand carries _
theorem marks_extractArgs : ∀ args : List Exp, CarriesOnly (Exp.listLabels args)
    (Exp.extractArgs args)
  | [] => fun _ => List.nil_sublist _
  | arg :: args => by
    intro supply
    rw [extractArgs_cons]
    exact (marks_extract arg).operand (marks_extractArgs args supply) _
theorem marks_extractMove {src : Exp} (carries : CarriesOnly src.labels src.extract) :
    ∀ (dst : Exp) (supply : Supply),
      (marks (Exp.extractMove src src.extract dst supply).1.toList).Sublist
        (dst.labels ++ src.labels)
  | .temp _, supply => by
    rw [extractMove_temp]
    simp only [marks_andThen, marks_move, List.append_nil]
    exact carries supply
  | .mem address, supply => by
    rw [extractMove_mem]
    simp only [marks_andThen, marks_move, List.append_nil]
    exact (marks_extract address).operand (carries.hoist supply) _
  | .eseq stm dst, supply => by
    rw [extractMove_eseq]
    simp only [marks_andThen, Exp.labels, List.append_assoc]
    exact (marks_extractStm stm supply).append (marks_extractMove carries dst _)
  | .const _, supply => marks_stray carries supply
  | .name _, supply => marks_stray carries supply
  | .binop _ _ _, supply => marks_stray carries supply
  | .call _ _ _, supply => marks_stray carries supply
/-- Extraction adds no labels to a statement and repeats none. -/
theorem marks_extractStm : ∀ (stm : Stm) (supply : Supply),
    (marks (stm.extract supply).1.toList).Sublist stm.labels
  | .move dst src, supply => marks_extractMove (marks_extract src) dst supply
  | .exp exp, supply => by
    rw [extract_exp]
    simp only [marks_andThen, marks_exp, List.append_nil]
    exact marks_extract exp supply
  | .jump target labels, supply => by
    rw [extract_jump]
    simp only [marks_andThen]
    exact (List.append_nil _).symm ▸ (marks_extract target).hoist supply
  | .cjump op left right yes no, supply => by
    rw [extract_cjump]
    simp only [marks_andThen]
    exact (List.append_nil _).symm ▸
      (marks_extract left).operand ((marks_extract right).hoist supply) _
  | .seq first second, supply => by
    rw [extract_seq]
    simp only [marks_andThen]
    exact (marks_extractStm first supply).append (marks_extractStm second _)
  | .label name, _ => List.Sublist.refl [name]
end

theorem nodup_marks_canonical {stm : Stm} (distinct : stm.labels.Nodup) (supply : Supply) :
    (marks (stm.canonical supply).1).Nodup :=
  distinct.sublist (marks_extractStm stm supply)

section Growth

theorem grows_before (operand : Stm × Exp) (later : Stm) : Grows (before operand later) := by
  unfold before
  split
  next => exact grows_pure _
  next => exact grows_bind grows_freshTemp fun _ => grows_pure _

theorem grows_hoist {e : Exp} {parts : Fresh (Stm × Exp)} (grows : Grows parts) :
    Grows (e.hoist parts) := by
  cases e with
  | call func link args =>
    exact grows_bind grows_freshTemp fun _ => grows_bind grows fun _ => grows_pure _
  | _ => exact grows

/-- An operand before the effects of what comes later. -/
theorem grows_operand {α : Type} {e : Exp} {parts : Fresh (Stm × Exp)} {later : Stm}
    {next : Stm × Exp → Fresh α} (grows : Grows parts) (rest : ∀ both, Grows (next both)) :
    Grows (do next (← before (← e.hoist parts) later)) :=
  grows_bind (grows_hoist grows) fun operand => grows_bind (grows_before operand later) rest

mutual
/-- Extraction only draws from the supply. -/
theorem grows_extract : ∀ e : Exp, Grows e.extract
  | .const _ => grows_pure _
  | .name _ => grows_pure _
  | .temp _ => grows_pure _
  | .binop _ left right =>
    grows_bind (grows_hoist (grows_extract right)) fun _ =>
      grows_operand (grows_extract left) fun _ => grows_pure _
  | .mem address => grows_bind (grows_hoist (grows_extract address)) fun _ => grows_pure _
  | .call func link args =>
    grows_bind (grows_extractArgs args) fun rest =>
      grows_bind (grows_extractLink link rest.1) fun _ =>
      grows_operand (grows_extract func) fun _ => grows_pure _
  | .eseq stm exp =>
    grows_bind (grows_extractStm stm) fun _ => grows_bind (grows_extract exp) fun _ => grows_pure _
theorem grows_extractLink : ∀ (link : Option Exp) (later : Stm), Grows (Exp.extractLink link later)
  | none, _ => grows_pure _
  | some link, _ => grows_operand (grows_extract link) fun _ => grows_pure _
theorem grows_extractArgs : ∀ args : List Exp, Grows (Exp.extractArgs args)
  | [] => grows_pure _
  | arg :: args =>
    grows_bind (grows_extractArgs args) fun _ =>
      grows_operand (grows_extract arg) fun _ => grows_pure _
theorem grows_extractMove {src : Exp} {parts : Fresh (Stm × Exp)} (grows : Grows parts) :
    ∀ dst : Exp, Grows (Exp.extractMove src parts dst)
  | .temp _ => grows_bind grows fun _ => grows_pure _
  | .mem address =>
    grows_bind (grows_hoist grows) fun _ =>
      grows_operand (grows_extract address) fun _ => grows_pure _
  | .eseq stm dst =>
    grows_bind (grows_extractStm stm) fun _ =>
      grows_bind (grows_extractMove grows dst) fun _ => grows_pure _
  | .const _ => grows_bind (grows_hoist grows) fun _ => grows_pure _
  | .name _ => grows_bind (grows_hoist grows) fun _ => grows_pure _
  | .binop _ _ _ => grows_bind (grows_hoist grows) fun _ => grows_pure _
  | .call _ _ _ => grows_bind (grows_hoist grows) fun _ => grows_pure _
theorem grows_extractStm : ∀ stm : Stm, Grows stm.extract
  | .move dst src => grows_extractMove (grows_extract src) dst
  | .exp exp => grows_bind (grows_extract exp) fun _ => grows_pure _
  | .jump target _ => grows_bind (grows_hoist (grows_extract target)) fun _ => grows_pure _
  | .cjump _ left right _ _ =>
    grows_bind (grows_hoist (grows_extract right)) fun _ =>
      grows_operand (grows_extract left) fun _ => grows_pure _
  | .seq first second =>
    grows_bind (grows_extractStm first) fun _ =>
      grows_bind (grows_extractStm second) fun _ => grows_pure _
  | .label _ => grows_pure _
end

theorem grows_canonical (stm : Stm) : Grows stm.canonical :=
  grows_bind (grows_extractStm stm) fun _ => grows_pure _

end Growth

end TreeCode.Tree
