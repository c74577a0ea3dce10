import TreeCode.Proofs.Lowering.Labels
import TreeCode.Proofs.Tree.References

/-!
Lowering refers only to what is there. The jumps of a function go to labels in its own body; every
other name in a body is that of a function of the program, of one of its string literals or of a
function of the runtime system. And every level gets one procedure, so that all functions that are
called have a body.
-/

namespace TreeCode

open Tree

/-- All of these labels may be jumped to. -/
def Tree.Limits.Reach (limits : Limits) (labels : List Label) : Prop :=
  ∀ label ∈ labels, limits.targets label

section Closed

variable {limits : Limits}

@[simp] theorem Tree.Limits.reach_nil : limits.Reach [] := nofun

@[simp] theorem Tree.Limits.reach_cons {label : Label} {labels : List Label} :
    limits.Reach (label :: labels) ↔ limits.targets label ∧ limits.Reach labels :=
  List.forall_mem_cons

@[simp] theorem Tree.Limits.reach_append {first second : List Label} :
    limits.Reach (first ++ second) ↔ limits.Reach first ∧ limits.Reach second :=
  List.forall_mem_append

/-- An expression that refers only to what it may, once its own labels may be jumped to. -/
def Tree.Exp.Closed (exp : Exp) (limits : Limits) : Prop :=
  limits.Reach exp.labels → exp.Respects limits

/-- The same for a statement. -/
def Tree.Stm.Closed (stm : Stm) (limits : Limits) : Prop :=
  limits.Reach stm.labels → stm.Respects limits

/-- The same for a list of expressions. -/
def Tree.Exp.AllClosed (exps : List Exp) (limits : Limits) : Prop :=
  limits.Reach (Exp.listLabels exps) → Exp.AllRespect limits exps

theorem Tree.Exp.allClosed_nil : Exp.AllClosed [] limits := fun _ => trivial

theorem Tree.Exp.allClosed_cons {exp : Exp} {exps : List Exp} (first : exp.Closed limits)
    (rest : Exp.AllClosed exps limits) : Exp.AllClosed (exp :: exps) limits :=
  fun reach => (Limits.reach_append.mp reach).imp first rest

/-- A lowered expression refers only to what it may. -/
def Lowered.Respects (limits : Limits) : Lowered → Prop
  | .value exp => exp.Respects limits
  | .effect stm => stm.Respects limits
  | .test _ left right => left.Respects limits ∧ right.Respects limits

/-- A lowered expression that refers only to what it may, once its own labels may be jumped to. -/
def Lowered.Closed (lowered : Lowered) (limits : Limits) : Prop :=
  limits.Reach lowered.labels → lowered.Respects limits

/-- A sequence is closed if all of its statements are. -/
theorem Tree.Stm.closed_sequence (nested : limits.nested) {stms : List Stm}
    (all : ∀ stm ∈ stms, stm.Closed limits) : (Stm.sequence stms).Closed limits := by
  intro reach
  rw [Stm.labels_sequence] at reach
  refine Stm.respects_sequence nested fun stm member => all stm member fun label inside => ?_
  exact reach label (List.mem_flatMap.mpr ⟨stm, member, inside⟩)

theorem Access.respects_value (access : Access) {fp : Exp} (respects : fp.Respects limits) :
    (access.value fp).Respects limits := by
  cases access with
  | inFrame offset => exact ⟨respects, trivial⟩
  | inReg t => trivial

theorem Access.isPlace_value (access : Access) (fp : Exp) :
    (access.value fp).isPlace = true := by
  cases access <;> rfl

end Closed

namespace Lowering

variable {α : Type} {conv : Convention} {level home : Level} {s t u : Lowering}
  {limits : Limits} {supply : Supply}

section Pieces

/-- A value is closed if the lowered form is. The labels that are placed to make it one are its
own. -/
theorem closed_asValue (nested : limits.nested) {lowered : Lowered}
    (closed : lowered.Closed limits) (supply : Supply) :
    (lowered.asValue supply).1.Closed limits := by
  cases lowered with
  | value exp => exact closed
  | effect stm =>
    intro reach
    exact ⟨nested, closed (Limits.reach_append.mp reach).1, trivial⟩
  | test op left right =>
    intro reach
    rw [asValue_test] at reach ⊢
    simp only [Exp.labels, Stm.labels_sequence, Stm.listLabels, List.flatMap_cons,
      List.flatMap_nil, Stm.labels, List.append_nil, List.nil_append, Limits.reach_append,
      Limits.reach_cons, Limits.reach_nil, and_true] at reach
    obtain ⟨⟨inLeft, inRight⟩, no, yes⟩ := reach
    obtain ⟨leftRespects, rightRespects⟩ := closed (Limits.reach_append.mpr ⟨inLeft, inRight⟩)
    refine ⟨nested, Stm.respects_sequence nested ?_, trivial⟩
    simp only [List.forall_mem_cons]
    exact ⟨⟨rfl, trivial, trivial⟩, ⟨leftRespects, rightRespects, yes, no⟩, trivial,
      ⟨rfl, trivial, trivial⟩, trivial, nofun⟩

/-- An effect is closed if the lowered form is. -/
theorem closed_asEffect (nested : limits.nested) {lowered : Lowered}
    (closed : lowered.Closed limits) (supply : Supply) :
    (lowered.asEffect supply).1.Closed limits := by
  cases lowered with
  | value exp => exact closed
  | effect stm => exact closed
  | test op left right =>
    intro reach
    rw [asEffect_test] at reach ⊢
    simp only [Stm.labels_sequence, Stm.listLabels, List.flatMap_cons, List.flatMap_nil,
      Stm.labels, List.append_nil, Limits.reach_append, Limits.reach_cons, Limits.reach_nil,
      and_true] at reach
    obtain ⟨operands, join⟩ := reach
    obtain ⟨leftRespects, rightRespects⟩ := closed (Limits.reach_append.mpr operands)
    refine Stm.respects_sequence nested ?_
    simp only [List.forall_mem_cons]
    exact ⟨⟨leftRespects, rightRespects, join, join⟩, trivial, nofun⟩

/-- A branch is closed if the lowered form is and both of its targets are within the limits. -/
theorem closed_asBranch {lowered : Lowered} {yes no : Label} {branch : Stm}
    (made : lowered.asBranch yes no = .ok branch) (closed : lowered.Closed limits)
    (toYes : limits.targets yes) (toNo : limits.targets no) : branch.Closed limits := by
  intro reach
  rw [labels_asBranch made] at reach
  have respects := closed reach
  rcases asBranch_ok made with ⟨op, left, right, rfl, rfl⟩ | ⟨c, rfl, rfl⟩ | ⟨exp, rfl, rfl⟩
  · exact ⟨respects.1, respects.2, toYes, toNo⟩
  · refine (Stm.respects_goto _).mpr ?_
    split
    next => exact toNo
    next => exact toYes
  · exact ⟨respects, trivial, toYes, toNo⟩

/-- Statements in front of a lowered form. -/
theorem closed_after (nested : limits.nested) {stms : List Stm} {lowered : Lowered}
    (before : ∀ stm ∈ stms, stm.Closed limits) (closed : lowered.Closed limits)
    (supply : Supply) : (lowered.after stms supply).1.Closed limits := by
  rcases after_cases stms lowered supply with ⟨rfl, same⟩ | ⟨last, rfl, same⟩ | same
  · rw [same]
    exact closed
  · rw [same]
    have all : ∀ part ∈ stms ++ [last], part.Closed limits :=
      List.forall_mem_append.mpr ⟨before, List.forall_mem_singleton.mpr closed⟩
    exact Stm.closed_sequence nested all
  · rw [same]
    intro reach
    obtain ⟨early, late⟩ := Limits.reach_append.mp reach
    exact ⟨nested, Stm.closed_sequence nested before early, closed_asValue nested closed _ late⟩

theorem closed_plainCall {func : Label} {values : List Exp} (known : limits.names func)
    (closed : Exp.AllClosed values limits) : (Exp.plainCall func values).Closed limits :=
  fun reach => ⟨known, trivial, closed reach⟩

theorem closed_moved {r : Temp} {value : Exp} (closed : value.Closed limits) :
    (Stm.move (.temp r) value).Closed limits :=
  fun reach => ⟨rfl, trivial, closed reach⟩

/-- The body of a function is closed if what it was lowered to is. -/
theorem closed_bodyStm (nested : limits.nested) (conv : Convention) (result : Option String)
    {body : Lowered} (closed : body.Closed limits) (supply : Supply) :
    (bodyStm conv result body supply).1.Closed limits := by
  cases result with
  | none => exact closed_asEffect nested closed supply
  | some type =>
    exact closed_moved (closed_asValue nested closed supply)

/-- A conditional without an alternative places the two labels that its test jumps to. -/
theorem closed_conditional (nested : limits.nested) {test yes : Stm} {yesLabel noLabel : Label}
    (branch : limits.targets yesLabel → limits.targets noLabel → test.Closed limits)
    (closed : yes.Closed limits) : (conditional test yes yesLabel noLabel).Closed limits := by
  intro reach
  simp only [conditional, Stm.labels_sequence, Stm.listLabels, List.flatMap_cons,
    List.flatMap_nil, Stm.labels, List.append_nil, Limits.reach_append, Limits.reach_cons,
    Limits.reach_nil, and_true] at reach
  obtain ⟨inTest, toYes, inYes, toNo⟩ := reach
  refine Stm.respects_sequence nested ?_
  simp only [List.forall_mem_cons]
  exact ⟨branch toYes toNo inTest, trivial, closed inYes, trivial, nofun⟩

/-- A conditional with an alternative places the labels of both branches and the one behind them. -/
theorem closed_alternative (nested : limits.nested) {test yes no : Stm}
    {yesLabel noLabel join : Label}
    (branch : limits.targets yesLabel → limits.targets noLabel → test.Closed limits)
    (closedYes : yes.Closed limits) (closedNo : no.Closed limits) :
    (alternative test yes no yesLabel noLabel join).Closed limits := by
  intro reach
  simp only [alternative, Stm.labels_sequence, Stm.listLabels, List.flatMap_cons,
    List.flatMap_nil, Stm.labels, Stm.labels_goto, List.append_nil, List.nil_append,
    Limits.reach_append, Limits.reach_cons, Limits.reach_nil, and_true] at reach
  obtain ⟨inTest, toYes, inYes, toNo, inNo, toJoin⟩ := reach
  refine Stm.respects_sequence nested ?_
  simp only [List.forall_mem_cons]
  exact ⟨branch toYes toNo inTest, trivial, closedYes inYes, (Stm.respects_goto join).mpr toJoin,
    trivial, closedNo inNo, trivial, List.forall_mem_nil _⟩

/-- A loop places its exit, so that its body may jump there. -/
theorem closed_whileLoop (nested : limits.nested) {test body : Stm}
    {testLabel bodyLabel done : Label}
    (branch : limits.targets bodyLabel → limits.targets done → test.Closed limits)
    (closed : limits.targets done → body.Closed limits) :
    (whileLoop test body testLabel bodyLabel done).Closed limits := by
  intro reach
  simp only [whileLoop, Stm.labels_sequence, Stm.listLabels, List.flatMap_cons,
    List.flatMap_nil, Stm.labels, Stm.labels_goto, List.append_nil, List.nil_append,
    Limits.reach_append, Limits.reach_cons, Limits.reach_nil, and_true] at reach
  obtain ⟨toTest, inTest, toBody, inBody, toDone⟩ := reach
  refine Stm.respects_sequence nested ?_
  simp only [List.forall_mem_cons]
  exact ⟨trivial, branch toBody toDone inTest, trivial, closed toDone inBody,
    (Stm.respects_goto testLabel).mpr toTest, trivial, List.forall_mem_nil _⟩

/-- A counting loop places its exit, and goes on from a label of its own. -/
theorem closed_countingLoop (nested : limits.nested) {i limit lo hi : Exp} {body : Stm}
    {bodyLabel next done : Label} (iPlace : i.isPlace = true) (limitPlace : limit.isPlace = true)
    (iClosed : i.Respects limits) (limitClosed : limit.Respects limits)
    (loClosed : lo.Closed limits) (hiClosed : hi.Closed limits)
    (closed : limits.targets done → body.Closed limits) :
    (countingLoop i limit lo hi body bodyLabel next done).Closed limits := by
  intro reach
  simp only [countingLoop, Stm.labels_sequence, Stm.listLabels, List.flatMap_cons,
    List.flatMap_nil, Stm.labels, Exp.labels, Stm.labels_goto, List.append_nil, List.nil_append,
    Limits.reach_append, Limits.reach_cons, Limits.reach_nil, and_true] at reach
  obtain ⟨⟨_, inLo⟩, ⟨_, inHi⟩, _, toBody, inBody, _, toNext, _, toDone⟩ := reach
  refine Stm.respects_sequence nested ?_
  simp only [List.forall_mem_cons]
  exact ⟨⟨iPlace, iClosed, loClosed inLo⟩, ⟨limitPlace, limitClosed, hiClosed inHi⟩,
    ⟨iClosed, limitClosed, toBody, toDone⟩, trivial, closed toDone inBody,
    ⟨iClosed, limitClosed, toNext, toDone⟩, trivial, ⟨iPlace, iClosed, iClosed, trivial⟩,
    (Stm.respects_goto bodyLabel).mpr toBody, trivial, nofun⟩

/-- The way along static links refers to nothing. -/
theorem respects_climb {levels : List LevelInfo} {target current : Level} {fp address : Exp}
    (climbed : climb levels target fp current = .ok address) (respects : fp.Respects limits) :
    address.Respects limits :=
  climb_keeps (fun link _ => link.respects_value) climbed respects

/-- Entry and exit code of a function refer to nothing. -/
theorem respects_wrapBody (nested : limits.nested) (conv : Convention) (frame : Frame)
    {body : Stm} (respects : body.Respects limits) (supply : Supply) :
    (conv.wrapBody frame body supply).1.Respects limits := by
  refine Stm.respects_sequence nested fun stm member => ?_
  rcases List.mem_append.mp member with entry | rest
  · rcases List.mem_append.mp entry with shift | save
    · obtain ⟨⟨access, arrival⟩, _, same⟩ := List.mem_filterMap.mp shift
      cases arrival with
      | none => cases same
      | some reg =>
        cases same
        exact ⟨access.isPlace_value _, access.respects_value trivial, trivial⟩
    · obtain ⟨pair, _, rfl⟩ := List.mem_map.mp save
      exact ⟨rfl, trivial, trivial⟩
  · rcases List.mem_cons.mp rest with rfl | restore
    · exact respects
    · obtain ⟨pair, _, rfl⟩ := List.mem_map.mp restore
      exact ⟨rfl, trivial, trivial⟩

end Pieces

/-- The functions of the runtime system: those that a program may call, and those that its code
needs. -/
def runtimeNames : List Label := runtimeLibrary ++ ["initArray", "allocRecord", "stringCompare"]

/-- There is something with this name: a function or a string literal of the program, or a
function of the runtime system. -/
def Knows (s : Lowering) (label : Label) : Prop :=
  label ∈ s.functionLabels ∨ (∃ text, .string label text ∈ s.fragments) ∨ label ∈ runtimeNames

/-- What the body of a function may refer to: its own labels and what is known. -/
def closing (s : Lowering) (body : Stm) : Limits where
  targets label := label ∈ body.labels
  names := s.Knows
  nested := True

/-- A body with more labels, in a state that knows more labels, may refer to more. -/
theorem closing_le (knows : ∀ label, s.Knows label → t.Knows label) {body body' : Stm}
    (labels : body.labels ⊆ body'.labels) : (s.closing body).Le (t.closing body') :=
  ⟨fun _ member => labels member, knows, id⟩

/-- The levels of the procedures among the fragments. -/
def procLevels (fragments : List Fragment) : List Level :=
  fragments.filterMap fun
    | .proc level _ => some level
    | .string _ _ => none

@[simp] theorem procLevels_append (first second : List Fragment) :
    procLevels (first ++ second) = procLevels first ++ procLevels second :=
  List.filterMap_append

/-- A state in which all levels but the pending ones are finished, once each. -/
structure Accounted (pending : List Level) (s : Lowering) : Prop where
  /-- Functions in scope have a level. -/
  functions : ∀ name level label, (name, .function level label) ∈ s.scopes.flatten →
    label ∈ s.functionLabels
  /-- Finished functions refer only to what they may. -/
  bodies : ∀ level body, .proc level body ∈ s.fragments → body.Respects (s.closing body)
  levels : (procLevels s.fragments ++ pending).Perm (List.range s.levels.length)

/-- Limits for code made between `s` and `t`. It may refer to what is known in the end, and leave
the loops that are around it. -/
structure Allows (limits : Limits) (s t : Lowering) : Prop where
  nested : limits.nested
  exits : limits.Reach s.exits
  names : ∀ label, t.Knows label → limits.names label

/-- The runtime system may be called from everywhere. -/
theorem Allows.runtime (allowed : Allows limits s t) {label : Label}
    (member : label ∈ runtimeNames) : limits.names label :=
  allowed.names label (.inr (.inr member))

/-- Lowering from `s` to `t` leaves only the given levels pending, and makes code of which `code`
holds for all limits that it has to keep. -/
structure Refers (pending : List Level) (s t : Lowering) (code : Limits → Prop) : Prop where
  accounted : Accounted pending t
  exits : t.exits = s.exits
  knows : ∀ label, s.Knows label → t.Knows label
  code : ∀ limits, Allows limits s t → code limits

section Refers

variable {pending pending' : List Level} {code code' : Limits → Prop}

theorem Accounted.perm (accounted : Accounted pending s) (same : pending.Perm pending') :
    Accounted pending' s :=
  ⟨accounted.functions, accounted.bodies, (same.symm.append_left _).trans accounted.levels⟩

/-- A change that finishes no function and opens no level. -/
theorem Accounted.change (accounted : Accounted pending s)
    (functions : ∀ name level label, (name, .function level label) ∈ t.scopes.flatten →
      label ∈ t.functionLabels)
    (knows : ∀ label, s.Knows label → t.Knows label)
    (fragments : ∀ level body, .proc level body ∈ t.fragments → .proc level body ∈ s.fragments)
    (procs : procLevels t.fragments = procLevels s.fragments)
    (levels : t.levels.length = s.levels.length) : Accounted pending t where
  functions := functions
  bodies level body member :=
    Stm.respects_of_le (closing_le knows (List.Subset.refl _)) body
      (accounted.bodies level body (fragments level body member))
  levels := by
    rw [procs, levels]
    exact accounted.levels

theorem Accounted.withExits (accounted : Accounted pending s) (exits : List Label) :
    Accounted pending (s.withExits exits) :=
  ⟨accounted.functions, accounted.bodies, accounted.levels⟩

/-- Code made without any step. -/
theorem refers_here (accounted : Accounted pending s)
    (made : ∀ limits, Allows limits s s → code limits) : Refers pending s s code :=
  ⟨accounted, rfl, fun _ => id, made⟩

/-- Where nothing has been done, nothing is referred to. -/
theorem refers_refl (accounted : Accounted pending s) : Refers pending s s fun _ => True :=
  refers_here accounted fun _ _ => trivial

theorem Refers.imp (refers : Refers pending s t code)
    (made : ∀ limits, Allows limits s t → code limits → code' limits) :
    Refers pending s t code' :=
  ⟨refers.accounted, refers.exits, refers.knows,
    fun limits allowed => made limits allowed (refers.code limits allowed)⟩

/-- One part after another. Both refer to what is known in the end. -/
theorem Refers.trans (first : Refers pending s t code) (second : Refers pending' t u code') :
    Refers pending' s u fun limits => code limits ∧ code' limits where
  accounted := second.accounted
  exits := second.exits.trans first.exits
  knows label known := second.knows label (first.knows label known)
  code limits allowed :=
    ⟨first.code limits ⟨allowed.nested, allowed.exits, fun label known =>
        allowed.names label (second.knows label known)⟩,
      second.code limits ⟨allowed.nested, by rw [first.exits]; exact allowed.exits, allowed.names⟩⟩

theorem Refers.perm (refers : Refers pending s t code) (same : pending.Perm pending') :
    Refers pending' s t code :=
  ⟨refers.accounted.perm same, refers.exits, refers.knows, refers.code⟩

theorem Refers.draw (refers : Refers pending s t code) (act : Fresh α) :
    Refers pending s (t.draw act) code :=
  ⟨⟨refers.accounted.functions, refers.accounted.bodies, refers.accounted.levels⟩, refers.exits,
    refers.knows, fun limits allowed => refers.code limits ⟨allowed.nested, allowed.exits,
      allowed.names⟩⟩

theorem Refers.label (refers : Refers pending s t code) : Refers pending s t.label code :=
  refers.draw freshLabel

/-- The value of a lowered form refers to what the form does. -/
theorem Refers.asValue {lowered : Lowered} (refers : Refers pending s t lowered.Closed) :
    Refers pending s (t.draw lowered.asValue) (lowered.asValue t.supply).1.Closed :=
  (refers.draw _).imp fun _ allowed closed => closed_asValue allowed.nested closed _

/-- The effect of a lowered form refers to what the form does. -/
theorem Refers.asEffect {lowered : Lowered} (refers : Refers pending s t lowered.Closed) :
    Refers pending s (t.draw lowered.asEffect) (lowered.asEffect t.supply).1.Closed :=
  (refers.draw _).imp fun _ allowed closed => closed_asEffect allowed.nested closed _

/-- A scope is left. -/
theorem Refers.leave (refers : Refers pending s t code) : Refers pending s t.leave code where
  accounted := by
    refine ⟨fun name level label member => ?_, refers.accounted.bodies, refers.accounted.levels⟩
    obtain ⟨scope, among, inside⟩ := List.mem_flatten.mp member
    exact refers.accounted.functions name level label
      (List.mem_flatten.mpr ⟨scope, List.mem_of_mem_tail among, inside⟩)
  exits := refers.exits
  knows := refers.knows
  code limits allowed := refers.code limits ⟨allowed.nested, allowed.exits, allowed.names⟩

theorem refers_enter (accounted : Accounted pending s) :
    Refers pending s s.enter fun _ => True :=
  ⟨⟨accounted.functions, accounted.bodies, accounted.levels⟩, rfl, fun _ => id, fun _ _ => trivial⟩

/-- A loop is left. -/
theorem Refers.inLoop {done : Label}
    (refers : Refers pending (s.withExits (done :: s.exits)) t code) :
    Refers pending s (t.withExits t.exits.tail)
      fun limits => limits.targets done → code limits where
  accounted := refers.accounted.withExits _
  exits := congrArg List.tail refers.exits
  knows := refers.knows
  code limits allowed reach :=
    refers.code limits ⟨allowed.nested, Limits.reach_cons.mpr ⟨reach, allowed.exits⟩, allowed.names⟩

theorem mem_flatten_bound {name : String} {meaning : Meaning} {entry : String × Meaning}
    (member : entry ∈ (s.bound name meaning).scopes.flatten) :
    entry = (name, meaning) ∨ entry ∈ s.scopes.flatten := by
  by_cases someScope : s.scopes = []
  · have none : (s.bound name meaning).scopes = [] := by
      unfold bound
      rw [someScope]
      rfl
    rw [none] at member
    cases member
  · rw [flatten_bound name meaning someScope] at member
    exact List.mem_cons.mp member

/-- A variable is brought into scope. -/
theorem refers_bound (accounted : Accounted pending s) (name : String) (level : Level)
    (access : Access) :
    Refers pending s (s.bound name (.variable level access)) fun _ => True where
  accounted := by
    refine ⟨fun other home label member => ?_, accounted.bodies, accounted.levels⟩
    rcases mem_flatten_bound member with same | earlier
    · cases same
    · exact accounted.functions other home label earlier
  exits := rfl
  knows _ := id
  code _ _ := trivial

/-- Binding parameters makes no code. -/
theorem refers_bindParams :
    ∀ (params : List Source.Binder) (formals : List Access) {s t : Lowering}, Accounted pending s →
      bindParams home params formals s = .ok () t → Refers pending s t fun _ => True
  | [], _, _, _, accounted, ran => by
    obtain ⟨-, rfl⟩ := pure_ok.mp ran
    exact refers_refl accounted
  | _ :: _, [], _, _, accounted, ran => by
    obtain ⟨-, rfl⟩ := pure_ok.mp ran
    exact refers_refl accounted
  | param :: params, access :: formals, _, _, accounted, ran => by
    obtain ⟨_, _, named, ran⟩ := bind_ok.mp ran
    obtain rfl := bindName_ok.mp named
    have first := refers_bound accounted param.name home access
    exact (first.trans (refers_bindParams params formals first.accounted ran)).imp
      fun _ _ _ => trivial

/-- A variable is given storage. -/
theorem refers_allocate {escapes : Bool} {access : Access} (accounted : Accounted pending s)
    (ran : allocateVariable level escapes s = .ok access t) :
    Refers pending s t fun _ => True := by
  obtain ⟨info, known, rfl, rfl⟩ := allocateVariable_ok.mp ran
  have same := functionLabels_allocated escapes known
  have knows : ∀ label, s.Knows label → (s.allocated level info escapes).Knows label := by
    intro label
    unfold Knows
    rw [same]
    exact id
  refine ⟨accounted.change ?_ knows (fun _ _ => id) rfl List.length_set, rfl, knows,
    fun _ _ => trivial⟩
  rw [same]
  exact accounted.functions

/-- A literal is known by its label from the moment when its fragment is there. -/
theorem refers_literal (accounted : Accounted pending s) (text : String) :
    Refers pending s (s.withLiteral text) fun limits => limits.names s.nextLabel := by
  have knows : ∀ label, s.Knows label → (s.withLiteral text).Knows label := by
    rintro label (function | ⟨other, literal⟩ | runtime)
    · exact .inl function
    · exact .inr (.inl ⟨other, List.mem_append_left _ literal⟩)
    · exact .inr (.inr runtime)
  refine ⟨accounted.change accounted.functions knows ?_ ?_ rfl, rfl, knows, ?_⟩
  · intro level body member
    rcases List.mem_append.mp member with earlier | last
    · exact earlier
    · cases List.mem_singleton.mp last
  · change procLevels (s.fragments ++ [_]) = _
    rw [procLevels_append]
    exact List.append_nil _
  · intro limits allowed
    exact allowed.names _ (.inr (.inl ⟨text, List.mem_append_right _ (List.mem_singleton_self _)⟩))

/-- A level is opened for a function that comes into scope. -/
theorem refers_declare {name : String} {escapes : List Bool} (accounted : Accounted pending s)
    (ran : openLevel conv level (freshLabelFor name s.supply).1 escapes
      (s.draw (freshLabelFor name)) = .ok home t) :
    Refers (home :: pending) s (t.bound name (.function home (freshLabelFor name s.supply).1))
      fun _ => True := by
  obtain ⟨-, here, frame, supply, made, rfl⟩ := openLevel_ok.mp ran
  obtain ⟨named, -⟩ := Convention.frameFor_labels made
  let opening := (s.draw (freshLabelFor name)).opened level frame supply
  have functions : opening.functionLabels = s.functionLabels ++ [frame.name] :=
    List.map_append
  have kept : ∀ label ∈ s.functionLabels, label ∈ opening.functionLabels := by
    intro label member
    rw [functions]
    exact List.mem_append_left _ member
  have knows : ∀ label, s.Knows label → opening.Knows label :=
    fun label known => known.imp (kept label) id
  refine ⟨⟨?_, ?_, ?_⟩, rfl, knows, fun _ _ => trivial⟩
  · intro other own label member
    change label ∈ opening.functionLabels
    rcases mem_flatten_bound member with same | earlier
    · cases same
      rw [functions, named]
      exact List.mem_append_right _ (List.mem_singleton_self _)
    · exact kept label (accounted.functions other own label earlier)
  · intro own body member
    exact Stm.respects_of_le (closing_le knows (List.Subset.refl _)) body
      (accounted.bodies own body member)
  · change (procLevels s.fragments ++ home :: pending).Perm
      (List.range (s.levels ++ [_]).length)
    rw [List.length_append, List.length_singleton, List.range_succ, here]
    exact List.perm_middle.trans ((accounted.levels.cons _).trans
      (List.perm_append_singleton _ _).symm)

/-- A function is finished. -/
theorem Refers.finish {body : Stm} (refers : Refers (home :: pending) s t code)
    (respects : body.Respects (t.closing body))
    (ran : finishProc conv home body t = .ok () u) : Refers pending s u fun _ => True := by
  obtain ⟨info, _, rfl⟩ := finishProc_ok.mp ran
  let wrapped := conv.wrapBody info.frame body t.supply
  have knows : ∀ label, t.Knows label → (t.finished conv home info body).Knows label := by
    rintro label (function | ⟨text, literal⟩ | runtime)
    · exact .inl function
    · exact .inr (.inl ⟨text, List.mem_append_left _ literal⟩)
    · exact .inr (.inr runtime)
  refine ⟨⟨refers.accounted.functions, ?_, ?_⟩, refers.exits,
    fun label known => knows label (refers.knows label known), fun _ _ => trivial⟩
  · intro own other member
    rcases List.mem_append.mp member with earlier | last
    · exact Stm.respects_of_le (closing_le knows (List.Subset.refl _)) other
        (refers.accounted.bodies own other earlier)
    · cases List.mem_singleton.mp last
      have kept : body.labels ⊆ wrapped.1.labels := by
        rw [labels_wrapBody conv info.frame body t.supply]
        exact List.Subset.refl _
      have whole : wrapped.1.Respects (t.closing body) :=
        respects_wrapBody trivial conv info.frame respects t.supply
      exact Stm.respects_of_le (closing_le knows kept) _ whole
  · change (procLevels (t.fragments ++ [.proc home wrapped.1]) ++ pending).Perm _
    rw [procLevels_append, List.append_assoc]
    exact refers.accounted.levels

/-- The call of a function that is in scope or belongs to the runtime system. -/
theorem refers_callee {func : String} {pos : Source.Pos} {callee : Callee}
    (accounted : Accounted pending s)
    (resolved : resolveCallee conv level func pos s = .ok callee t) :
    Refers pending s s fun limits => ∀ values, Exp.AllClosed values limits →
      (callee.call values).Closed limits := by
  obtain ⟨-, ⟨target, label, _, _, fp, found, _, _, climbed, rfl⟩ | ⟨_, known, rfl⟩⟩ :=
    resolveCallee_ok resolved
  · rw [meaningIn_eq_lookup] at found
    obtain ⟨before, after, scopes, _⟩ := List.lookup_eq_some_iff.mp found
    have function := accounted.functions func target label (by rw [scopes]; simp)
    refine refers_here accounted fun limits allowed values closed reach => ?_
    exact ⟨allowed.names label (.inl function), respects_climb climbed trivial,
      closed (Limits.reach_append.mp (Limits.reach_append.mp reach).2).2⟩
  · have runtime : func ∈ runtimeNames := List.mem_append_left _ (List.contains_iff_mem.mp known)
    exact refers_here accounted fun limits allowed values closed =>
      closed_plainCall (allowed.runtime runtime) closed

/-- An operation refers to its operands and, for strings, to the runtime system. -/
theorem closed_operation (allowed : Allows limits s t) {oper : Source.Oper} {strings : Bool}
    {left right : Exp} (leftClosed : left.Closed limits) (rightClosed : right.Closed limits) :
    (operation oper strings left right).Closed limits := by
  unfold operation
  split
  next => exact fun reach => (Limits.reach_append.mp reach).imp leftClosed rightClosed
  next =>
    split
    next =>
      have compared := closed_plainCall (allowed.runtime (by decide) : limits.names "stringCompare")
        (Exp.allClosed_cons leftClosed (Exp.allClosed_cons rightClosed Exp.allClosed_nil))
      exact fun reach => ⟨compared (Limits.reach_append.mp reach).1, trivial⟩
    next => exact fun reach => (Limits.reach_append.mp reach).imp leftClosed rightClosed

/-- A joined conditional refers to what its parts do. -/
theorem refers_joinBranches {test yes no out : Lowered} {yesLabel noLabel join : Label}
    (refers : Refers pending s t fun limits =>
      test.Closed limits ∧ yes.Closed limits ∧ no.Closed limits)
    (ran : joinBranches test yes no yesLabel noLabel join t = .ok out u) :
    Refers pending s u out.Closed := by
  rcases joinBranches_ok ran with
    ⟨yesStm, noStm, branch, rfl, rfl, branched, rfl, rfl⟩ |
      ⟨t', branch, rfl, _, branched, rfl, rfl⟩
  · refine refers.imp fun limits allowed closed => ?_
    exact closed_alternative allowed.nested (closed_asBranch branched closed.1) closed.2.1
      closed.2.2
  · refine (((refers.draw freshTemp).draw _).draw _).imp fun limits allowed closed reach => ?_
    refine ⟨allowed.nested, closed_alternative allowed.nested (closed_asBranch branched closed.1)
      ?_ ?_ (Limits.reach_append.mp reach).1, trivial⟩
    · exact closed_moved (closed_asValue allowed.nested closed.2.1 _)
    · exact closed_moved (closed_asValue allowed.nested closed.2.2 _)

/-- Functions of a group are declared before their bodies are there, which remain pending. -/
theorem declareFunctions_refers :
    ∀ (group : List Source.FunDec) {levels pending : List Level} {s t : Lowering},
      Accounted pending s → declareFunctions conv level group s = .ok levels t →
      levels.length = group.length ∧ Refers (levels ++ pending) s t fun _ => True
  | [], _, _, _, _, accounted, ran => by
    obtain ⟨rfl, rfl⟩ := declareFunctions_nil ran
    exact ⟨rfl, refers_refl accounted⟩
  | ⟨name, params, result, body⟩ :: group, _, _, s, t, accounted, ran => by
    obtain ⟨own, u, rest, opened, declared, rfl⟩ := declareFunctions_cons ran
    have first := refers_declare accounted opened
    obtain ⟨count, later⟩ := declareFunctions_refers group first.accounted declared
    refine ⟨congrArg (· + 1) count, ?_⟩
    exact ((first.trans later).perm List.perm_middle).imp fun _ _ _ => trivial

end Refers

/-- A variable is lowered to something that can be assigned to. -/
theorem isPlace_of_lowerVar {tree : Exp} {var : Source.Var}
    (ran : lowerVar conv level var s = .ok tree t) : tree.isPlace = true := by
  cases var with
  | simple name pos =>
    obtain ⟨_, access, fp, _, _, rfl, _⟩ := lowerVar_simple.mp ran
    exact access.isPlace_value fp
  | field record name slot pos =>
    obtain ⟨_, _, _, _, rfl⟩ := lowerVar_field ran
    rfl
  | subscript array index =>
    obtain ⟨_, _, _, _, _, rfl⟩ := lowerVar_subscript ran
    rfl

mutual
/-- A variable is lowered to closed code. -/
theorem lowerVar_refers {level : Level} {pending : List Level} {s s' : Lowering} {tree : Exp} :
    ∀ var : Source.Var, Accounted pending s → lowerVar conv level var s = .ok tree s' →
      Refers pending s s' tree.Closed
  | .simple name pos, accounted, ran => by
    obtain ⟨declared, access, fp, meaning, climbed, rfl, rfl⟩ := lowerVar_simple.mp ran
    exact refers_here accounted fun _ _ _ => access.respects_value (respects_climb climbed trivial)
  | .field record name slot pos, accounted, ran => by
    obtain ⟨index, base, _, inner, rfl⟩ := lowerVar_field ran
    exact (lowerVar_refers record accounted inner).imp fun _ _ closed reach =>
      ⟨closed (Limits.reach_append.mp reach).1, trivial⟩
  | .subscript array index, accounted, ran => by
    obtain ⟨base, t, offset, first, second, rfl⟩ := lowerVar_subscript ran
    obtain ⟨_, _, indexRan, rfl, rfl⟩ := lowerValue_ok.mp second
    have arrayRefers := lowerVar_refers array accounted first
    have indexRefers := (lowerExp_refers index arrayRefers.accounted indexRan).asValue
    refine (arrayRefers.trans indexRefers).imp fun _ _ closed reach => ?_
    obtain ⟨inArray, inIndex⟩ := Limits.reach_append.mp reach
    exact ⟨closed.1 inArray, closed.2 (Limits.reach_append.mp inIndex).1, trivial⟩
/-- Lowering an expression makes closed code: every label that it refers to is placed in the same
body, belongs to a function that is declared or to a literal, or is one of the runtime system. The
same holds of all fragments that are finished on the way. The induction carries the functions that
have been declared and have no body yet as pending ones. -/
theorem lowerExp_refers {level : Level} {pending : List Level} {s s' : Lowering} {out : Lowered} :
    ∀ exp : Source.Exp, Accounted pending s → lowerExp conv level exp s = .ok out s' →
      Refers pending s s' out.Closed
  | .nil, accounted, ran => by
    obtain ⟨rfl, rfl⟩ := lowerExp_nil ran
    exact refers_here accounted fun _ _ _ => trivial
  | .int value, accounted, ran => by
    obtain ⟨rfl, rfl⟩ := lowerExp_int ran
    exact refers_here accounted fun _ _ _ => trivial
  | .string text, accounted, ran => by
    obtain ⟨rfl, rfl⟩ := lowerExp_string ran
    exact (refers_literal accounted text).imp fun _ _ known _ => known
  | .breakLoop pos, accounted, ran => by
    obtain ⟨exit, inside, rfl, rfl⟩ := lowerExp_breakLoop ran
    refine refers_here accounted fun limits allowed _ => ?_
    exact (Stm.respects_goto exit).mpr (allowed.exits exit (List.mem_of_head? inside))
  | .var var, accounted, ran => by
    obtain ⟨tree, inner, rfl⟩ := lowerExp_var ran
    exact lowerVar_refers var accounted inner
  | .call func args pos, accounted, ran => by
    obtain ⟨callee, values, resolved, inner, rfl⟩ := lowerExp_call ran
    have argsRefers := lowerArgs_refers args accounted inner
    exact ((refers_callee accounted resolved).trans argsRefers).imp fun _ _ closed =>
      closed.1 values closed.2
  | .op oper left right strings, accounted, ran => by
    obtain ⟨a, t, b, first, second, rfl⟩ := lowerExp_op ran
    obtain ⟨_, _, leftRan, rfl, rfl⟩ := lowerValue_ok.mp first
    obtain ⟨_, _, rightRan, rfl, rfl⟩ := lowerValue_ok.mp second
    have leftRefers := (lowerExp_refers left accounted leftRan).asValue
    have rightRefers := (lowerExp_refers right leftRefers.accounted rightRan).asValue
    exact (leftRefers.trans rightRefers).imp fun _ allowed closed =>
      closed_operation allowed closed.1 closed.2
  | .record type fields, accounted, ran => by
    obtain ⟨stores, inner, rfl⟩ := lowerExp_record ran
    have drawn := (refers_refl accounted).draw freshTemp
    refine (drawn.trans (lowerFields_refers fields drawn.accounted inner)).imp
      fun _ allowed closed reach => ?_
    have inStores := (Limits.reach_append.mp reach).1
    refine ⟨allowed.nested, Stm.closed_sequence allowed.nested (List.forall_mem_cons.mpr
      ⟨fun _ => ?_, closed.2⟩) inStores, trivial⟩
    exact ⟨rfl, trivial, allowed.runtime (by decide), trivial, trivial, trivial⟩
  | .seq exps, accounted, ran => by
    obtain ⟨stms, last, t, inner, rfl, rfl⟩ := lowerExp_seq ran
    exact ((lowerSeq_refers exps accounted inner).draw _).imp fun _ allowed closed =>
      closed_after allowed.nested closed.1 closed.2 _
  | .assign var value, accounted, ran => by
    obtain ⟨dst, t, src, first, second, rfl⟩ := lowerExp_assign ran
    obtain ⟨_, _, inner, rfl, rfl⟩ := lowerValue_ok.mp second
    have varRefers := lowerVar_refers var accounted first
    have valueRefers := (lowerExp_refers value varRefers.accounted inner).asValue
    refine (varRefers.trans valueRefers).imp fun _ _ closed reach => ?_
    obtain ⟨inDst, inSrc⟩ := Limits.reach_append.mp reach
    exact ⟨isPlace_of_lowerVar first, closed.1 inDst, closed.2 inSrc⟩
  | .ifThen test yes, accounted, ran => by
    obtain ⟨a, t, b, u, branch, first, second, branched, rfl, rfl⟩ := lowerExp_ifThen ran
    have testRefers := lowerExp_refers test accounted first
    have yesRefers := lowerExp_refers yes testRefers.accounted second
    exact ((testRefers.trans yesRefers).label.label.draw _).imp fun _ allowed closed =>
      closed_conditional allowed.nested (closed_asBranch branched closed.1)
        (closed_asEffect allowed.nested closed.2 _)
  | .ifElse test yes no, accounted, ran => by
    obtain ⟨a, t, b, u, c, v, first, second, third, joined⟩ := lowerExp_ifElse ran
    have testRefers := lowerExp_refers test accounted first
    have yesRefers := (lowerExp_refers yes testRefers.accounted second).label.label
    have noRefers := (lowerExp_refers no yesRefers.accounted third).label
    exact refers_joinBranches (testRefers.trans (yesRefers.trans noRefers)) joined
  | .whileDo test body, accounted, ran => by
    obtain ⟨a, t, b, u, branch, first, second, branched, rfl, rfl⟩ := lowerExp_whileDo ran
    obtain ⟨v, inner, rfl⟩ := inLoop_ok.mp second
    have labelled := (refers_refl accounted).label.label.label
    have testRefers := labelled.trans (lowerExp_refers test labelled.accounted first)
    have bodyRefers := (lowerExp_refers body (testRefers.accounted.withExits _) inner).inLoop
    exact ((testRefers.trans bodyRefers).draw _).imp fun _ allowed closed =>
      closed_whileLoop allowed.nested (closed_asBranch branched closed.1.2) fun toDone =>
        closed_asEffect allowed.nested (closed.2 toDone) _
  | .forTo var lo hi body, accounted, ran => by
    obtain ⟨a, t, b, u, access, v, c, w, _, first, second, stored, looped, rfl, rfl, rfl⟩ :=
      lowerExp_forTo ran
    obtain ⟨_, _, loRan, rfl, rfl⟩ := lowerValue_ok.mp first
    obtain ⟨_, _, hiRan, rfl, rfl⟩ := lowerValue_ok.mp second
    obtain ⟨x, bodyRan, rfl⟩ := inLoop_ok.mp looped
    have loRefers := (lowerExp_refers lo accounted loRan).asValue
    have hiRefers := (lowerExp_refers hi loRefers.accounted hiRan).asValue
    have storage := (((refers_allocate hiRefers.accounted stored).draw freshTemp).label.label.label)
    have entered := refers_enter storage.accounted
    have named := entered.trans (refers_bound entered.accounted var.name level access)
    have bodyRefers := (lowerExp_refers body (named.accounted.withExits _) bodyRan).inLoop
    have whole := (loRefers.trans hiRefers).trans (storage.trans (named.trans bodyRefers).leave)
    exact (whole.draw _).imp fun _ allowed closed =>
      closed_countingLoop allowed.nested (access.isPlace_value _) rfl
        (access.respects_value trivial) trivial closed.1.1 closed.1.2 fun toDone =>
          closed_asEffect allowed.nested (closed.2.2.2 toDone) _
  | .letIn decs body, accounted, ran => by
    obtain ⟨stms, t, b, u, first, second, rfl, rfl⟩ := lowerExp_letIn ran
    have entered := refers_enter accounted
    have decsRefers := entered.trans (lowerDecs_refers decs entered.accounted first)
    have bodyRefers := lowerExp_refers body decsRefers.accounted second
    exact ((decsRefers.trans bodyRefers).draw _).leave.imp fun _ allowed closed =>
      closed_after allowed.nested closed.1.2 closed.2 _
  | .array type size init, accounted, ran => by
    obtain ⟨a, t, b, first, second, rfl⟩ := lowerExp_array ran
    obtain ⟨_, _, sizeRan, rfl, rfl⟩ := lowerValue_ok.mp first
    obtain ⟨_, _, initRan, rfl, rfl⟩ := lowerValue_ok.mp second
    have sizeRefers := (lowerExp_refers size accounted sizeRan).asValue
    have initRefers := (lowerExp_refers init sizeRefers.accounted initRan).asValue
    exact (sizeRefers.trans initRefers).imp fun _ allowed closed =>
      closed_plainCall (allowed.runtime (by decide))
        (Exp.allClosed_cons closed.1 (Exp.allClosed_cons closed.2 Exp.allClosed_nil))
/-- The arguments of a call, in order. -/
theorem lowerArgs_refers {level : Level} {pending : List Level} {s s' : Lowering}
    {values : List Exp} :
    ∀ args : List Source.Exp, Accounted pending s → lowerArgs conv level args s = .ok values s' →
      Refers pending s s' (Exp.AllClosed values)
  | [], accounted, ran => by
    obtain ⟨rfl, rfl⟩ := lowerArgs_nil ran
    exact refers_here accounted fun _ _ => Exp.allClosed_nil
  | arg :: args, accounted, ran => by
    obtain ⟨value, t, rest, first, second, rfl⟩ := lowerArgs_cons ran
    obtain ⟨_, _, argRan, rfl, rfl⟩ := lowerValue_ok.mp first
    have argRefers := (lowerExp_refers arg accounted argRan).asValue
    have restRefers := lowerArgs_refers args argRefers.accounted second
    exact (argRefers.trans restRefers).imp fun _ _ closed => Exp.allClosed_cons closed.1 closed.2
/-- The stores of record fields, in order. -/
theorem lowerFields_refers {level : Level} {pending : List Level} {s s' : Lowering} {r : Temp}
    {slot : Nat} {stores : List Stm} :
    ∀ fields : List Source.Field, Accounted pending s →
      lowerFields conv level r slot fields s = .ok stores s' →
      Refers pending s s' fun limits => ∀ stm ∈ stores, stm.Closed limits
  | [], accounted, ran => by
    obtain ⟨rfl, rfl⟩ := lowerFields_nil ran
    exact refers_here accounted fun _ _ => nofun
  | ⟨name, exp⟩ :: fields, accounted, ran => by
    obtain ⟨value, t, rest, first, second, rfl⟩ := lowerFields_cons ran
    obtain ⟨_, _, expRan, rfl, rfl⟩ := lowerValue_ok.mp first
    have expRefers := (lowerExp_refers exp accounted expRan).asValue
    have restRefers := lowerFields_refers fields expRefers.accounted second
    exact (expRefers.trans restRefers).imp fun _ _ closed =>
      List.forall_mem_cons.mpr ⟨fun reach => ⟨rfl, ⟨trivial, trivial⟩, closed.1 reach⟩, closed.2⟩
/-- The parts of a sequence, in order. -/
theorem lowerSeq_refers {level : Level} {pending : List Level} {s s' : Lowering}
    {stms : List Stm} {last : Lowered} :
    ∀ exps : List Source.Exp, Accounted pending s →
      lowerSeq conv level exps s = .ok (stms, last) s' →
      Refers pending s s' fun limits => (∀ stm ∈ stms, stm.Closed limits) ∧ last.Closed limits
  | [], accounted, ran => by
    obtain ⟨same, rfl⟩ := lowerSeq_nil ran
    cases same
    exact refers_here accounted fun _ _ => ⟨nofun, fun _ => trivial⟩
  | [exp], accounted, ran => by
    obtain ⟨_, inner, same⟩ := lowerSeq_single ran
    cases same
    exact (lowerExp_refers exp accounted inner).imp fun _ _ closed => ⟨nofun, closed⟩
  | exp :: next :: exps, accounted, ran => by
    obtain ⟨stm, t, rest, _, first, second, same⟩ := lowerSeq_cons ran
    cases same
    obtain ⟨_, _, expRan, rfl, rfl⟩ := lowerEffect_ok.mp first
    have expRefers := (lowerExp_refers exp accounted expRan).asEffect
    have restRefers := lowerSeq_refers (next :: exps) expRefers.accounted second
    exact (expRefers.trans restRefers).imp fun _ _ closed =>
      ⟨List.forall_mem_cons.mpr ⟨closed.1, closed.2.1⟩, closed.2.2⟩
/-- Declarations are closed together with the bodies of the functions that they declare. -/
theorem lowerDecs_refers {level : Level} {pending : List Level} {s s' : Lowering}
    {stms : List Stm} :
    ∀ decs : List Source.Dec, Accounted pending s → lowerDecs conv level decs s = .ok stms s' →
      Refers pending s s' fun limits => ∀ stm ∈ stms, stm.Closed limits
  | [], accounted, ran => by
    obtain ⟨rfl, rfl⟩ := lowerDecs_nil ran
    exact refers_here accounted fun _ _ => nofun
  | .var var init :: decs, accounted, ran => by
    obtain ⟨value, t, access, u, rest, first, stored, second, rfl⟩ := lowerDecs_var ran
    obtain ⟨_, _, initRan, rfl, rfl⟩ := lowerValue_ok.mp first
    have initRefers := (lowerExp_refers init accounted initRan).asValue
    have storage := refers_allocate initRefers.accounted stored
    have named := storage.trans (refers_bound storage.accounted var.name level access)
    have restRefers := named.trans (lowerDecs_refers decs named.accounted second)
    refine (initRefers.trans restRefers).imp fun _ _ closed => List.forall_mem_cons.mpr
      ⟨fun reach => ?_, closed.2.2⟩
    exact ⟨access.isPlace_value _, access.respects_value trivial,
      closed.1 (Limits.reach_append.mp reach).2⟩
  | .type name definition :: decs, accounted, ran =>
    lowerDecs_refers decs accounted (lowerDecs_type ran)
  | .functions group :: decs, accounted, ran => by
    obtain ⟨levels, t, u, declared, bodies, rest⟩ := lowerDecs_functions ran
    obtain ⟨count, declaring⟩ := declareFunctions_refers group accounted declared
    have bodiesRefers := lowerBodies_refers group count declaring.accounted bodies
    have restRefers := lowerDecs_refers decs bodiesRefers.accounted rest
    exact ((declaring.trans bodiesRefers).trans restRefers).imp fun _ _ closed => closed.2
/-- When the bodies of a group are there, its functions are no longer pending. -/
theorem lowerBodies_refers {levels pending : List Level} {s s' : Lowering} :
    ∀ group : List Source.FunDec, levels.length = group.length → Accounted (levels ++ pending) s →
      lowerBodies conv levels group s = .ok () s' → Refers pending s s' fun _ => True
  | [], count, accounted, ran => by
    unfold lowerBodies at ran
    obtain ⟨-, rfl⟩ := pure_ok.mp ran
    rw [List.eq_nil_of_length_eq_zero count] at accounted
    exact refers_refl accounted
  | ⟨name, params, result, body⟩ :: group, count, accounted, ran => by
    cases levels with
    | nil => cases count
    | cons home levels =>
      obtain ⟨info, t, lowered, u, _, w, known, bound, inner, rfl, finish, rest⟩ :=
        lowerBodies_cons ran
      obtain ⟨v, bodyRan, rfl⟩ := outsideLoops_ok.mp inner
      have entered := refers_enter accounted
      have named := entered.trans (refers_bindParams params _ entered.accounted bound)
      have inside := lowerExp_refers body (named.accounted.withExits []) bodyRan
      -- No loop around the function can be left from inside it, so there are no exits to reach.
      have closed : lowered.Closed (v.closing (bodyStm conv result lowered v.supply).1) :=
        inside.code _ ⟨trivial, nofun, fun _ => id⟩
      have stm := closed_bodyStm trivial conv result closed v.supply fun _ => id
      have whole : Refers (home :: (levels ++ pending)) s (v.withExits t.exits) fun _ => True :=
        ⟨inside.accounted.withExits _, named.exits,
          fun label known => inside.knows label (named.knows label known), fun _ _ => trivial⟩
      have done := (whole.leave.draw (bodyStm conv result lowered)).finish stm finish
      have restRefers := lowerBodies_refers group (Nat.succ.inj count) done.accounted rest
      exact (done.trans restRefers).imp fun _ _ _ => trivial
end

section Programs

variable {entry : Label} {program : Source.Exp}

/-- At the start, only the program itself has no body yet. -/
theorem accounted_start (conv : Convention) (entry : Label) (supply : Supply) :
    Accounted [0] (start conv entry supply) :=
  ⟨nofun, nofun, List.Perm.refl _⟩

/-- When a program is lowered, every level has its procedure, and the procedures refer only to
what is there. -/
theorem lowerProgram_accounts
    (ran : lowerProgram conv program (start conv entry supply) = .ok () s) : Accounted [] s := by
  obtain ⟨_, _, lowered, finished⟩ := lowerProgram_ok ran
  obtain ⟨out, t, inner, rfl, rfl⟩ := lowerEffect_ok.mp lowered
  have refers := (lowerExp_refers program (accounted_start conv entry supply) inner).asEffect
  have closed : (out.asEffect t.supply).1.Closed (t.closing (out.asEffect t.supply).1) :=
    refers.code _ ⟨trivial, nofun, fun _ => id⟩
  exact (refers.finish (closed fun _ => id) finished).accounted

/-- When a program is lowered, the outermost function keeps its name, and all labels but that are
issued meanwhile. -/
theorem lowerProgram_defines
    (ran : lowerProgram conv program (start conv entry supply) = .ok () s) :
    ∃ functions, s.functionLabels = entry :: functions ∧
      Issued supply.labels s.supply.labels
        (functions ++ s.fragments.flatMap Fragment.labels) := by
  obtain ⟨_, _, lowered, finished⟩ := lowerProgram_ok ran
  obtain ⟨out, t, inner, rfl, rfl⟩ := lowerEffect_ok.mp lowered
  obtain ⟨functions, fragments, levels, grown, issued⟩ :=
    (lowerExp_defines program inner).asEffect.finish finished
  rw [show s.fragments = fragments from grown]
  exact ⟨functions, levels, issued⟩

end Programs

end Lowering

end TreeCode
