import TreeCode.Proofs.Labels
import TreeCode.Proofs.Lowering.Pieces

/-!
Lowering gives every label once. All labels that the code for an expression carries were issued
while it was lowered, and so were the labels of the procedures and literals that were split off;
no two of them are the same.
-/

namespace TreeCode

open Tree

/-- The labels that a lowered expression carries. -/
def Lowered.labels : Lowered → List Label
  | .value exp => exp.labels
  | .effect stm => stm.labels
  | .test _ left right => left.labels ++ right.labels

/-- The labels that a fragment carries. -/
def Fragment.labels : Fragment → List Label
  | .proc _ body => body.labels
  | .string label _ => [label]

/-- The labels that statements carry, in order. -/
def Tree.Stm.listLabels (stms : List Stm) : List Label := stms.flatMap Stm.labels

@[simp] theorem Tree.Stm.labels_nop : Stm.nop.labels = [] := rfl

@[simp] theorem Tree.Stm.labels_goto (label : Label) : (Stm.goto label).labels = [] := rfl

@[simp] theorem Tree.Stm.labels_sequence (stms : List Stm) :
    (Stm.sequence stms).labels = Stm.listLabels stms :=
  Stm.collect_sequence Stm.labels rfl (fun _ _ => rfl) stms

theorem Access.labels_value (access : Access) (fp : Exp) (plain : fp.labels = []) :
    (access.value fp).labels = [] := by
  cases access with
  | inFrame offset => simp [Access.value, Exp.labels, plain]
  | inReg t => rfl

namespace Lowering

variable {α : Type} {conv : Convention} {level : Level} {s t u : Lowering}
  {own own' new : List Label} {supply : Supply}

section Pieces

/-- `act` makes something with the labels `made` out of something with the labels `own`. -/
def Adds (act : Fresh α) (supply : Supply) (own made : List Label) : Prop :=
  ∃ new, Issued supply.labels (act supply).2.labels new ∧ made.Perm (own ++ new)

theorem adds_nothing {act : Fresh α} (same : (act supply).2.labels = supply.labels)
    (kept : own' = own) : Adds act supply own own' := by
  refine ⟨[], issued_nil (Nat.le_of_eq same.symm), ?_⟩
  rw [kept, List.append_nil]

theorem adds_label {act : Fresh α} (one : (act supply).2.labels = supply.labels + 1)
    (made : own'.Perm (own ++ [(freshLabel supply).1])) : Adds act supply own own' := by
  refine ⟨[(freshLabel supply).1], ?_, made⟩
  rw [one]
  exact issued_single (numbered_freshLabel supply)

/-- Making a value of a lowered form places the labels of the form and the new ones that it
takes. -/
theorem adds_asValue (lowered : Lowered) (supply : Supply) :
    Adds lowered.asValue supply lowered.labels (lowered.asValue supply).1.labels := by
  cases lowered with
  | value exp => exact adds_nothing rfl rfl
  | effect stm => exact adds_nothing rfl (List.append_nil _)
  | test op left right =>
    refine ⟨[(freshLabel supply).1] ++ [(freshLabel (freshLabel supply).2).1],
      (issued_single (numbered_freshLabel supply)).append
        (issued_single (numbered_freshLabel (freshLabel supply).2)), ?_⟩
    rw [asValue_test]
    simp only [Exp.labels, Stm.labels_sequence, Stm.listLabels, List.flatMap_cons,
      List.flatMap_nil, Stm.labels, Lowered.labels, List.append_nil, List.nil_append]
    exact (List.perm_append_comm).append_left _

/-- Making an effect of a lowered form places the labels of the form and the new ones that it
takes. -/
theorem adds_asEffect (lowered : Lowered) (supply : Supply) :
    Adds lowered.asEffect supply lowered.labels (lowered.asEffect supply).1.labels := by
  cases lowered with
  | value exp => exact adds_nothing rfl rfl
  | effect stm => exact adds_nothing rfl rfl
  | test op left right =>
    refine adds_label rfl ?_
    rw [asEffect_test]
    simp [Stm.listLabels, Stm.labels, Lowered.labels]

/-- Statements in front of a lowered form. -/
theorem adds_after (stms : List Stm) (lowered : Lowered) (supply : Supply) :
    Adds (lowered.after stms) supply (Stm.listLabels stms ++ lowered.labels)
      (lowered.after stms supply).1.labels := by
  rcases after_cases stms lowered supply with ⟨rfl, same⟩ | ⟨last, rfl, same⟩ | same
  · exact adds_nothing (by rw [same]) (by rw [same]; rfl)
  · refine adds_nothing (by rw [same]) ?_
    rw [same, Lowered.labels, Stm.labels_sequence]
    simp [Stm.listLabels, Lowered.labels]
  · obtain ⟨new, issued, made⟩ := adds_asValue lowered supply
    refine ⟨new, ?_, ?_⟩
    · rw [same]
      exact issued
    · rw [same, Lowered.labels, Exp.labels, Stm.labels_sequence, List.append_assoc]
      exact made.append_left _

/-- Making a branch of a lowered form places no further labels. -/
theorem labels_asBranch {lowered : Lowered} {yes no : Label} {branch : Stm}
    (made : lowered.asBranch yes no = .ok branch) : branch.labels = lowered.labels := by
  rcases asBranch_ok made with ⟨op, left, right, rfl, rfl⟩ | ⟨c, rfl, rfl⟩ | ⟨exp, rfl, rfl⟩
  · rfl
  · rfl
  · exact List.append_nil _

/-- The body of a function places the labels of what it was lowered to. -/
theorem adds_bodyStm (conv : Convention) (result : Option String) (body : Lowered)
    (supply : Supply) :
    Adds (bodyStm conv result body) supply body.labels
      (bodyStm conv result body supply).1.labels := by
  cases result with
  | none => exact adds_asEffect body supply
  | some type => exact adds_asValue body supply

/-- An operation places the labels of its operands. -/
theorem labels_operation (oper : Source.Oper) (strings : Bool) (left right : Exp) :
    (operation oper strings left right).labels = left.labels ++ right.labels := by
  unfold operation
  split
  next => rfl
  next =>
    split
    next =>
      simp [Lowered.labels, Exp.plainCall, Exp.labels, Exp.linkLabels, Exp.listLabels]
    next => rfl

/-- The way along static links places no labels. -/
theorem labels_climb {levels : List LevelInfo} {target current : Level} {fp address : Exp}
    (climbed : climb levels target fp current = .ok address) (plain : fp.labels = []) :
    address.labels = [] :=
  climb_keeps (P := fun fp => fp.labels = []) Access.labels_value climbed plain

theorem labels_freshTemps : ∀ (count : Nat) (supply : Supply),
    (freshTemps count supply).2.labels = supply.labels
  | 0, _ => rfl
  | count + 1, supply => labels_freshTemps count (freshTemp supply).2

/-- Entry and exit code place no labels. -/
theorem labels_wrapBody (conv : Convention) (frame : Frame) (body : Stm) (supply : Supply) :
    (conv.wrapBody frame body supply).1.labels = body.labels := by
  let copies := freshTemps conv.calleeSaved.length supply
  change (Stm.sequence (conv.viewShift frame ++
    ((copies.1.zip conv.calleeSaved).map fun pair => Stm.move (.temp pair.1) (.temp pair.2)) ++
    body :: (copies.1.zip conv.calleeSaved).map
      fun pair => Stm.move (.temp pair.2) (.temp pair.1))).labels = body.labels
  have shift : Stm.listLabels (conv.viewShift frame) = [] := by
    refine List.flatMap_eq_nil_iff.mpr fun stm member => ?_
    obtain ⟨⟨access, arrival⟩, _, same⟩ := List.mem_filterMap.mp member
    cases arrival with
    | none => cases same
    | some reg =>
      cases same
      rw [Stm.labels, access.labels_value _ rfl]
      rfl
  have moves : ∀ f : Temp × Temp → Stm, (∀ pair, (f pair).labels = []) →
      Stm.listLabels ((copies.1.zip conv.calleeSaved).map f) = [] := by
    intro f plain
    refine List.flatMap_eq_nil_iff.mpr fun stm member => ?_
    obtain ⟨pair, _, rfl⟩ := List.mem_map.mp member
    exact plain pair
  unfold Stm.listLabels at shift moves
  rw [Stm.labels_sequence, Stm.listLabels, List.flatMap_append, List.flatMap_append,
    List.flatMap_cons, shift, moves _ fun _ => rfl, moves _ fun _ => rfl]
  simp

end Pieces

/-- The labels of the functions of all levels, by number. -/
def functionLabels (s : Lowering) : List Label := s.levels.map fun info => info.frame.name

/-- Lowering from `s` to `t` made code that carries the labels `own`. They were all issued
meanwhile, as were those of new functions and fragments. -/
def Defines (s t : Lowering) (own : List Label) : Prop :=
  ∃ functions fragments, t.functionLabels = s.functionLabels ++ functions ∧
    t.fragments = s.fragments ++ fragments ∧
    Issued s.supply.labels t.supply.labels
      (own ++ (functions ++ fragments.flatMap Fragment.labels))

section Defines

theorem defines_nil : Defines s s [] :=
  ⟨[], [], (List.append_nil _).symm, (List.append_nil _).symm, issued_nil (Nat.le_refl _)⟩

/-- The order in which labels are placed makes no difference. -/
theorem Defines.perm (defines : Defines s t own) (same : own'.Perm own) : Defines s t own' := by
  obtain ⟨functions, fragments, levels, grown, issued⟩ := defines
  exact ⟨functions, fragments, levels, grown, issued.perm (same.append_right _)⟩

/-- One part after another. -/
theorem Defines.trans (first : Defines s t own) (second : Defines t u own') :
    Defines s u (own ++ own') := by
  obtain ⟨functions, fragments, levels, grown, issued⟩ := first
  obtain ⟨functions', fragments', levels', grown', issued'⟩ := second
  refine ⟨functions ++ functions', fragments ++ fragments', ?_, ?_, ?_⟩
  · rw [levels', levels, List.append_assoc]
  · rw [grown', grown, List.append_assoc]
  · refine (issued.append issued').perm (List.perm_iff_count.mpr fun label => ?_)
    simp only [List.flatMap_append, List.count_append]
    omega

/-- Code made from what there is, with some new labels. -/
theorem Defines.draw {act : Fresh α} (defines : Defines s t own)
    (adds : Adds act t.supply own own') : Defines s (t.draw act) own' := by
  obtain ⟨new, issued, made⟩ := adds
  have drawn : Defines t (t.draw act) new :=
    ⟨[], [], (List.append_nil _).symm, (List.append_nil _).symm, by simpa using issued⟩
  exact (defines.trans drawn).perm made

theorem Defines.label (defines : Defines s t own) : Defines s t.label (own ++ [t.nextLabel]) :=
  defines.draw (adds_label rfl (List.Perm.refl _))

theorem Defines.asValue {lowered : Lowered} (defines : Defines s t lowered.labels) :
    Defines s (t.draw lowered.asValue) (lowered.asValue t.supply).1.labels :=
  defines.draw (adds_asValue lowered t.supply)

theorem Defines.asEffect {lowered : Lowered} (defines : Defines s t lowered.labels) :
    Defines s (t.draw lowered.asEffect) (lowered.asEffect t.supply).1.labels :=
  defines.draw (adds_asEffect lowered t.supply)

theorem Adds.within {act : Fresh α} (adds : Adds act supply own own') (rest : List Label) :
    Adds act supply (own ++ rest) (own' ++ rest) := by
  obtain ⟨new, issued, made⟩ := adds
  refine ⟨new, issued, List.perm_iff_count.mpr fun label => ?_⟩
  have same := made.count_eq label
  simp only [List.count_append] at same ⊢
  omega

/-- Giving storage to a variable renames no function. -/
theorem functionLabels_allocated {info : LevelInfo} (escapes : Bool)
    (known : s.levels[level]? = some info) :
    (s.allocated level info escapes).functionLabels = s.functionLabels := by
  obtain ⟨bound, found⟩ := List.getElem?_eq_some_iff.mp known
  unfold functionLabels allocated
  rw [List.map_set, Frame.allocate_name, ← found]
  exact List.ext_getElem? fun i => by
    rw [List.getElem?_set]
    split
    next same => subst same; simp [bound]
    next => rfl

/-- A new variable takes no label. -/
theorem defines_allocate {escapes : Bool} {access : Access}
    (ran : allocateVariable level escapes s = .ok access t) : Defines s t [] := by
  obtain ⟨info, known, rfl, rfl⟩ := allocateVariable_ok.mp ran
  refine ⟨[], [], ?_, (List.append_nil _).symm, ?_⟩
  · rw [functionLabels_allocated escapes known, List.append_nil]
  · have same : (s.allocated level info escapes).supply.labels = s.supply.labels :=
      Frame.allocate_labels info.frame escapes s.supply
    rw [same]
    exact issued_nil (Nat.le_refl _)

/-- A call places the labels of its arguments. -/
theorem labels_call {func : String} {pos : Source.Pos} {callee : Callee} {values : List Exp}
    (resolved : resolveCallee conv level func pos s = .ok callee t) :
    (callee.call values).labels = Exp.listLabels values := by
  obtain ⟨-, ⟨_, label, _, _, fp, _, _, _, climbed, rfl⟩ | ⟨_, _, rfl⟩⟩ :=
    resolveCallee_ok resolved
  · change [] ++ (fp.labels ++ Exp.listLabels values) = _
    rw [labels_climb climbed rfl]
    rfl
  · rfl

/-- A joined conditional places the labels of its parts, those of the two branches and the one
behind them, each of them once. -/
theorem defines_joinBranches {test yes no out : Lowered} {yesLabel noLabel join : Label}
    (defines : Defines s t
      (yes.labels ++ (no.labels ++ (test.labels ++ ([yesLabel] ++ ([noLabel] ++ [join]))))))
    (ran : joinBranches test yes no yesLabel noLabel join t = .ok out u) :
    Defines s u out.labels := by
  rcases joinBranches_ok ran with
    ⟨yesStm, noStm, branch, rfl, rfl, branched, rfl, rfl⟩ |
      ⟨t', branch, rfl, _, branched, rfl, rfl⟩
  · refine defines.perm (List.perm_iff_count.mpr fun label => ?_)
    simp only [Lowered.labels, alternative, Stm.labels_sequence, Stm.listLabels, List.flatMap_cons,
      List.flatMap_nil, Stm.labels, Stm.labels_goto, labels_asBranch branched, List.count_append,
      List.count_nil]
    omega
  · have first : Defines s (t.draw freshTemp) _ := defines.draw (adds_nothing rfl rfl)
    have second := first.draw ((adds_asValue yes _).within _)
    have turned := second.perm (List.perm_append_comm_assoc no.labels _ _)
    have third := turned.draw ((adds_asValue no _).within _)
    refine third.perm (List.perm_iff_count.mpr fun label => ?_)
    simp only [Lowered.labels, Exp.labels, alternative, Stm.labels_sequence, Stm.listLabels,
      List.flatMap_cons, List.flatMap_nil, Stm.labels, Stm.labels_goto, labels_asBranch branched,
      List.count_append, List.count_nil]
    omega

end Defines

/-- A function is finished. -/
theorem Defines.finish {home : Level} {body : Stm} (defines : Defines s t body.labels)
    (ran : finishProc conv home body t = .ok () u) : Defines s u [] := by
  obtain ⟨functions, fragments, levels, grown, issued⟩ := defines
  obtain ⟨info, _, rfl⟩ := finishProc_ok.mp ran
  let wrapped := conv.wrapBody info.frame body t.supply
  refine ⟨functions, fragments ++ [.proc home wrapped.1], levels, ?_, ?_⟩
  · change t.fragments ++ _ = _
    rw [grown, List.append_assoc]
  · have same : wrapped.2.labels = t.supply.labels := labels_freshTemps _ t.supply
    change Issued _ wrapped.2.labels _
    rw [same]
    refine issued.perm (List.perm_iff_count.mpr fun label => ?_)
    have kept : wrapped.1.labels = body.labels := labels_wrapBody conv info.frame body t.supply
    simp only [List.flatMap_append, List.flatMap_cons, List.flatMap_nil, Fragment.labels, kept,
      List.count_append, List.count_nil]
    omega

/-- The label of a function is not placed in code of another one. -/
theorem openLevel_defines {home : Level} {name : String} {escapes : List Bool}
    (ran : openLevel conv level (freshLabelFor name s.supply).1 escapes
      (s.draw (freshLabelFor name)) = .ok home t) : Defines s t [] := by
  obtain ⟨-, -, frame, supply, made, rfl⟩ := openLevel_ok.mp ran
  obtain ⟨named, same⟩ := Convention.frameFor_labels made
  refine ⟨[(freshLabelFor name s.supply).1], [], ?_, (List.append_nil _).symm, ?_⟩
  · change (s.levels ++ [_]).map _ = s.levels.map _ ++ _
    rw [List.map_append, List.map_singleton, named]
  · change Issued _ supply.labels _
    rw [same]
    exact issued_single (numbered_freshLabelFor name s.supply)

/-- Declaring functions places no labels. -/
theorem declareFunctions_defines :
    ∀ (group : List Source.FunDec) {levels : List Level} {s t : Lowering},
      declareFunctions conv level group s = .ok levels t → Defines s t []
  | [], _, _, _, ran => by
    obtain ⟨rfl, rfl⟩ := declareFunctions_nil ran
    exact defines_nil
  | ⟨name, params, result, body⟩ :: group, _, s, t, ran => by
    obtain ⟨home, u, rest, opened, declared, rfl⟩ := declareFunctions_cons ran
    have rest := declareFunctions_defines group declared
    exact (openLevel_defines opened).trans rest

mutual
/-- The labels in the subscripts of a variable. -/
theorem lowerVar_defines {level : Level} {s s' : Lowering} {tree : Exp} :
    ∀ var : Source.Var, lowerVar conv level var s = .ok tree s' → Defines s s' tree.labels
  | .simple name pos, ran => by
    obtain ⟨declared, access, fp, meaning, climbed, rfl, rfl⟩ := lowerVar_simple.mp ran
    rw [access.labels_value _ (labels_climb climbed rfl)]
    exact defines_nil
  | .field record name slot pos, ran => by
    obtain ⟨index, base, _, inner, rfl⟩ := lowerVar_field ran
    exact (lowerVar_defines record inner).perm (by simp [Exp.labels])
  | .subscript array index, ran => by
    obtain ⟨base, t, offset, first, second, rfl⟩ := lowerVar_subscript ran
    obtain ⟨_, _, indexRan, rfl, rfl⟩ := lowerValue_ok.mp second
    exact ((lowerVar_defines array first).trans (lowerExp_defines index indexRan).asValue).perm
      (by simp [Exp.labels])
/-- Lowering an expression places every new label at most once. The labels that its code and the
fragments finished on the way place have numbers that were issued in between, and no label is placed
twice. -/
theorem lowerExp_defines {level : Level} {s s' : Lowering} {out : Lowered} :
    ∀ exp : Source.Exp, lowerExp conv level exp s = .ok out s' → Defines s s' out.labels
  | .nil, ran => by
    obtain ⟨rfl, rfl⟩ := lowerExp_nil ran
    exact defines_nil
  | .int value, ran => by
    obtain ⟨rfl, rfl⟩ := lowerExp_int ran
    exact defines_nil
  | .string text, ran => by
    obtain ⟨rfl, rfl⟩ := lowerExp_string ran
    exact ⟨[], [.string s.nextLabel text], (List.append_nil _).symm, rfl,
      issued_single (numbered_freshLabel s.supply)⟩
  | .breakLoop pos, ran => by
    obtain ⟨exit, _, rfl, rfl⟩ := lowerExp_breakLoop ran
    exact defines_nil
  | .var var, ran => by
    obtain ⟨tree, inner, rfl⟩ := lowerExp_var ran
    exact lowerVar_defines var inner
  | .call func args pos, ran => by
    obtain ⟨callee, values, resolved, inner, rfl⟩ := lowerExp_call ran
    rw [Lowered.labels, labels_call resolved]
    exact lowerArgs_defines args inner
  | .op oper left right strings, ran => by
    obtain ⟨a, t, b, first, second, rfl⟩ := lowerExp_op ran
    obtain ⟨_, _, leftRan, rfl, rfl⟩ := lowerValue_ok.mp first
    obtain ⟨_, _, rightRan, rfl, rfl⟩ := lowerValue_ok.mp second
    rw [labels_operation]
    exact (lowerExp_defines left leftRan).asValue.trans (lowerExp_defines right rightRan).asValue
  | .record type fields, ran => by
    obtain ⟨stores, inner, rfl⟩ := lowerExp_record ran
    exact (lowerFields_defines fields inner).perm (by
      simp [Lowered.labels, recordTree, Exp.labels, Stm.listLabels, Stm.labels, Exp.plainCall,
        Exp.linkLabels, Exp.listLabels])
  | .seq exps, ran => by
    obtain ⟨stms, last, t, inner, rfl, rfl⟩ := lowerExp_seq ran
    exact (lowerSeq_defines exps inner).draw (adds_after stms last t.supply)
  | .assign var value, ran => by
    obtain ⟨dst, t, src, first, second, rfl⟩ := lowerExp_assign ran
    obtain ⟨_, _, inner, rfl, rfl⟩ := lowerValue_ok.mp second
    exact (lowerVar_defines var first).trans (lowerExp_defines value inner).asValue
  | .ifThen test yes, ran => by
    obtain ⟨a, t, b, u, branch, first, second, branched, rfl, rfl⟩ := lowerExp_ifThen ran
    have both := ((lowerExp_defines test first).trans (lowerExp_defines yes second)).label.label
    have turned : Defines s _ (b.labels ++ (a.labels ++ ([u.nextLabel] ++ [u.label.nextLabel]))) :=
      both.perm (List.perm_iff_count.mpr fun label => by simp only [List.count_append]; omega)
    refine (turned.draw ((adds_asEffect b _).within _)).perm
      (List.perm_iff_count.mpr fun label => ?_)
    simp only [Lowered.labels, conditional, Stm.labels_sequence, Stm.listLabels, List.flatMap_cons,
      List.flatMap_nil, Stm.labels, labels_asBranch branched, List.count_append, List.count_nil]
    omega
  | .ifElse test yes no, ran => by
    obtain ⟨a, t, b, u, c, v, first, second, third, joined⟩ := lowerExp_ifElse ran
    have both := ((lowerExp_defines test first).trans (lowerExp_defines yes second)).label.label
    have all := (both.trans (lowerExp_defines no third)).label
    exact defines_joinBranches (all.perm (List.perm_iff_count.mpr fun label => by
      simp only [List.count_append]; omega)) joined
  | .whileDo test body, ran => by
    obtain ⟨a, t, b, u, branch, first, second, branched, rfl, rfl⟩ := lowerExp_whileDo ran
    obtain ⟨v, inner, rfl⟩ := inLoop_ok.mp second
    have labelled : Defines s s.label.label.label _ := defines_nil.label.label.label
    have looped := lowerExp_defines body inner
    have both : Defines s (v.withExits v.exits.tail) _ :=
      (labelled.trans (lowerExp_defines test first)).trans looped
    have turned := both.perm List.perm_append_comm
    refine (turned.draw ((adds_asEffect b _).within _)).perm
      (List.perm_iff_count.mpr fun label => ?_)
    simp only [Lowered.labels, whileLoop, Stm.labels_sequence, Stm.listLabels, List.flatMap_cons,
      List.flatMap_nil, Stm.labels, Stm.labels_goto, labels_asBranch branched, List.count_append,
      List.count_nil]
    omega
  | .forTo var lo hi body, ran => by
    obtain ⟨a, t, b, u, access, v, c, w, _, first, second, stored, looped, rfl, rfl, rfl⟩ :=
      lowerExp_forTo ran
    obtain ⟨_, _, loRan, rfl, rfl⟩ := lowerValue_ok.mp first
    obtain ⟨_, _, hiRan, rfl, rfl⟩ := lowerValue_ok.mp second
    obtain ⟨x, bodyRan, rfl⟩ := inLoop_ok.mp looped
    have bounds := (lowerExp_defines lo loRan).asValue.trans (lowerExp_defines hi hiRan).asValue
    have storage := bounds.trans (defines_allocate stored)
    have drawn : Defines s (v.draw freshTemp) _ := storage.draw (adds_nothing rfl rfl)
    have labelled : Defines s v.looped _ := drawn.label.label.label
    have inside := lowerExp_defines body bodyRan
    have all : Defines s (x.withExits x.exits.tail).leave _ := labelled.trans inside
    have turned := all.perm List.perm_append_comm
    refine (turned.draw ((adds_asEffect c _).within _)).perm
      (List.perm_iff_count.mpr fun label => ?_)
    simp only [Lowered.labels, countingLoop, Stm.labels_sequence, Stm.listLabels,
      List.flatMap_cons, List.flatMap_nil, Stm.labels, Exp.labels, Stm.labels_goto,
      access.labels_value (.temp conv.framePointer) rfl, List.count_append, List.count_nil]
    omega
  | .letIn decs body, ran => by
    obtain ⟨stms, t, b, u, first, second, rfl, rfl⟩ := lowerExp_letIn ran
    have both : Defines s u _ := (lowerDecs_defines decs first).trans (lowerExp_defines body second)
    exact both.draw (adds_after stms b u.supply)
  | .array type size init, ran => by
    obtain ⟨a, t, b, first, second, rfl⟩ := lowerExp_array ran
    obtain ⟨_, _, sizeRan, rfl, rfl⟩ := lowerValue_ok.mp first
    obtain ⟨_, _, initRan, rfl, rfl⟩ := lowerValue_ok.mp second
    exact ((lowerExp_defines size sizeRan).asValue.trans
      (lowerExp_defines init initRan).asValue).perm
      (by simp [Lowered.labels, Exp.plainCall, Exp.labels, Exp.linkLabels, Exp.listLabels])
/-- The arguments of a call, in order. -/
theorem lowerArgs_defines {level : Level} {s s' : Lowering} {values : List Exp} :
    ∀ args : List Source.Exp, lowerArgs conv level args s = .ok values s' →
      Defines s s' (Exp.listLabels values)
  | [], ran => by
    obtain ⟨rfl, rfl⟩ := lowerArgs_nil ran
    exact defines_nil
  | arg :: args, ran => by
    obtain ⟨value, t, rest, first, second, rfl⟩ := lowerArgs_cons ran
    obtain ⟨_, _, argRan, rfl, rfl⟩ := lowerValue_ok.mp first
    exact (lowerExp_defines arg argRan).asValue.trans (lowerArgs_defines args second)
/-- The stores of record fields, in order. -/
theorem lowerFields_defines {level : Level} {s s' : Lowering} {r : Temp} {slot : Nat}
    {stores : List Stm} :
    ∀ fields : List Source.Field, lowerFields conv level r slot fields s = .ok stores s' →
      Defines s s' (Stm.listLabels stores)
  | [], ran => by
    obtain ⟨rfl, rfl⟩ := lowerFields_nil ran
    exact defines_nil
  | ⟨name, exp⟩ :: fields, ran => by
    obtain ⟨value, t, rest, first, second, rfl⟩ := lowerFields_cons ran
    obtain ⟨_, _, expRan, rfl, rfl⟩ := lowerValue_ok.mp first
    exact (lowerExp_defines exp expRan).asValue.trans (lowerFields_defines fields second)
/-- The parts of a sequence, in order. -/
theorem lowerSeq_defines {level : Level} {s s' : Lowering} {stms : List Stm} {last : Lowered} :
    ∀ exps : List Source.Exp, lowerSeq conv level exps s = .ok (stms, last) s' →
      Defines s s' (Stm.listLabels stms ++ last.labels)
  | [], ran => by
    obtain ⟨same, rfl⟩ := lowerSeq_nil ran
    cases same
    exact defines_nil
  | [exp], ran => by
    obtain ⟨_, inner, same⟩ := lowerSeq_single ran
    cases same
    exact lowerExp_defines exp inner
  | exp :: next :: exps, ran => by
    obtain ⟨stm, t, rest, _, first, second, same⟩ := lowerSeq_cons ran
    cases same
    obtain ⟨_, _, expRan, rfl, rfl⟩ := lowerEffect_ok.mp first
    have all := (lowerExp_defines exp expRan).asEffect.trans
      (lowerSeq_defines (next :: exps) second)
    rw [← List.append_assoc] at all
    exact all
/-- The labels in declarations. -/
theorem lowerDecs_defines {level : Level} {s s' : Lowering} {stms : List Stm} :
    ∀ decs : List Source.Dec, lowerDecs conv level decs s = .ok stms s' →
      Defines s s' (Stm.listLabels stms)
  | [], ran => by
    obtain ⟨rfl, rfl⟩ := lowerDecs_nil ran
    exact defines_nil
  | .var var init :: decs, ran => by
    obtain ⟨value, t, access, u, rest, first, stored, second, rfl⟩ := lowerDecs_var ran
    obtain ⟨_, _, initRan, rfl, rfl⟩ := lowerValue_ok.mp first
    have storage := (lowerExp_defines init initRan).asValue.trans (defines_allocate stored)
    have later := lowerDecs_defines decs second
    refine (storage.trans later).perm ?_
    simp [Stm.listLabels, Stm.labels, access.labels_value (.temp conv.framePointer) rfl]
  | .type name definition :: decs, ran => lowerDecs_defines decs (lowerDecs_type ran)
  | .functions group :: decs, ran => by
    obtain ⟨levels, t, u, declared, bodies, rest⟩ := lowerDecs_functions ran
    exact ((declareFunctions_defines group declared).trans (lowerBodies_defines group bodies)).trans
      (lowerDecs_defines decs rest)
/-- The labels in the bodies of functions are all in finished fragments. -/
theorem lowerBodies_defines {levels : List Level} {s s' : Lowering} :
    ∀ group : List Source.FunDec, lowerBodies conv levels group s = .ok () s' → Defines s s' []
  | [], ran => by
    unfold lowerBodies at ran
    obtain ⟨-, rfl⟩ := pure_ok.mp ran
    exact defines_nil
  | ⟨name, params, result, body⟩ :: group, ran => by
    cases levels with
    | nil =>
      unfold lowerBodies at ran
      obtain ⟨-, rfl⟩ := pure_ok.mp ran
      exact defines_nil
    | cons home levels =>
      obtain ⟨info, t, lowered, u, _, w, known, named, inner, rfl, finish, rest⟩ :=
        lowerBodies_cons ran
      obtain ⟨v, bodyRan, rfl⟩ := outsideLoops_ok.mp inner
      obtain ⟨sameSupply, sameLevels, sameFragments⟩ := bindParams_same params _ named
      have inside := lowerExp_defines body bodyRan
      have whole : Defines s (v.withExits t.exits).leave lowered.labels := by
        unfold Defines functionLabels at inside ⊢
        change ∃ _ _, _ = t.levels.map _ ++ _ ∧ _ = t.fragments ++ _ ∧
          Issued t.supply.labels _ _ at inside
        rw [sameSupply, sameLevels, sameFragments] at inside
        exact inside
      have made := whole.draw (adds_bodyStm conv result lowered _)
      exact (made.finish finish).trans (lowerBodies_defines group rest)
end

end Lowering

end TreeCode
