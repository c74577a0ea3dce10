import TreeCode.Proofs.Lowering.Acceptance
import TreeCode.Proofs.Lowering.References
import TreeCode.Proofs.Tree.Calls

/-!
The static links of calls. A function is called with the frame of the level that declares it, which
lies around the caller; the address of that frame is found by loading one static link after the
other. Functions of the runtime system are not nested and get no link.
-/

namespace TreeCode

open Tree

/-- The calls in a lowered expression. -/
def Lowered.calls : Lowered → List Call
  | .value exp => exp.calls
  | .effect stm => stm.calls
  | .test _ left right => left.calls ++ right.calls

theorem Access.calls_value (access : Access) {fp : Exp} (plain : fp.calls = []) :
    (access.value fp).calls = [] := by
  cases access with
  | inFrame offset => simp [Access.value, Exp.calls, plain]
  | inReg t => rfl

namespace Lowering

variable {α : Type} {conv : Convention} {level home : Level} {names : Source.Names}
  {looped : Bool} {s t u : Lowering} {calls calls' : List Call}

section Pieces

@[simp] theorem calls_asValue (lowered : Lowered) (supply : Supply) :
    (lowered.asValue supply).1.calls = lowered.calls := by
  cases lowered with
  | value exp => rfl
  | effect stm => exact List.append_nil _
  | test op left right =>
    rw [asValue_test]
    simp [Exp.calls, Stm.calls, Lowered.calls]

@[simp] theorem calls_asEffect (lowered : Lowered) (supply : Supply) :
    (lowered.asEffect supply).1.calls = lowered.calls := by
  cases lowered with
  | value exp => rfl
  | effect stm => rfl
  | test op left right =>
    rw [asEffect_test]
    simp [Stm.calls, Lowered.calls]

/-- Making a branch of a lowered form adds no calls. -/
theorem calls_asBranch {lowered : Lowered} {yes no : Label} {branch : Stm}
    (made : lowered.asBranch yes no = .ok branch) : branch.calls = lowered.calls := by
  rcases asBranch_ok made with ⟨op, left, right, rfl, rfl⟩ | ⟨c, rfl, rfl⟩ | ⟨exp, rfl, rfl⟩
  · rfl
  · rfl
  · exact List.append_nil _

@[simp] theorem calls_after (stms : List Stm) (lowered : Lowered) (supply : Supply) :
    (lowered.after stms supply).1.calls = Stm.listCalls stms ++ lowered.calls := by
  rcases after_cases stms lowered supply with ⟨rfl, same⟩ | ⟨last, rfl, same⟩ | same
  · rw [same]
    rfl
  · rw [same, Lowered.calls, Stm.calls_sequence]
    simp [Lowered.calls]
  · rw [same, Lowered.calls, Exp.calls, Stm.calls_sequence, calls_asValue]

@[simp] theorem calls_bodyStm (conv : Convention) (result : Option String) (body : Lowered)
    (supply : Supply) : (bodyStm conv result body supply).1.calls = body.calls := by
  cases result with
  | none => exact calls_asEffect body supply
  | some type => exact calls_asValue body supply

@[simp] theorem calls_linksUp (conv : Convention) (t : Temp) :
    ∀ count : Nat, (linksUp conv count (.temp t)).calls = []
  | 0 => rfl
  | count + 1 => by
    have inner := calls_linksUp conv t count
    simp [linksUp, linkAt, Exp.calls, inner]

/-- The entry and exit sequences of a function only move registers to where things are kept. -/
theorem wrapBody_shape (conv : Convention) (frame : Frame) (body : Stm) (supply : Supply) :
    ∃ entry exit, (conv.wrapBody frame body supply).1 = .sequence (entry ++ body :: exit) ∧
      ∀ stm ∈ entry ++ exit, ∃ access reg,
        stm = .move (Access.value access (.temp conv.framePointer)) (.temp reg) := by
  refine ⟨_, _, rfl, fun stm member => ?_⟩
  rcases List.mem_append.mp member with before | after
  · rcases List.mem_append.mp before with shift | save
    · obtain ⟨⟨access, arrival⟩, _, same⟩ := List.mem_filterMap.mp shift
      cases arrival with
      | none => cases same
      | some reg =>
        cases same
        exact ⟨access, reg, rfl⟩
    · obtain ⟨⟨copy, reg⟩, _, rfl⟩ := List.mem_map.mp save
      exact ⟨.inReg copy, reg, rfl⟩
  · obtain ⟨⟨copy, reg⟩, _, rfl⟩ := List.mem_map.mp after
    exact ⟨.inReg reg, copy, rfl⟩

@[simp] theorem calls_wrapBody (conv : Convention) (frame : Frame) (body : Stm)
    (supply : Supply) : (conv.wrapBody frame body supply).1.calls = body.calls := by
  obtain ⟨entry, exit, made, moves⟩ := wrapBody_shape conv frame body supply
  have plain : Stm.listCalls (entry ++ exit) = [] := by
    refine List.flatMap_eq_nil_iff.mpr fun stm member => ?_
    obtain ⟨access, reg, rfl⟩ := moves stm member
    rw [Stm.calls, access.calls_value rfl]
    rfl
  obtain ⟨before, after⟩ := List.append_eq_nil_iff.mp (Stm.listCalls_append entry exit ▸ plain)
  rw [made, Stm.calls_sequence, Stm.listCalls_append, Stm.listCalls_cons, before, after]
  simp

end Pieces

/-- A call in the code of `level` goes where it should: to the runtime system without a link, or
to a function that is declared in an enclosing level, with the frame of that level. -/
def Aimed (conv : Convention) (levels : List LevelInfo) (level : Level) (call : Call) : Prop :=
  (∃ name ∈ runtimeNames, call = ⟨.name name, none⟩) ∨
    ∃ target info home, levels[target]? = some info ∧ info.parent = some home ∧
      Encloses levels home level ∧
      call = ⟨.name info.frame.name, some (linksUp conv
        (depth levels level + 1 - depth levels target) (.temp conv.framePointer))⟩

/-- A call stays well aimed when more levels come. -/
theorem Aimed.outlast {levels levels' : List LevelInfo} {call : Call}
    (aimed : Aimed conv levels level call) (nested : Nested conv levels)
    (grown : Outlasts levels levels') : Aimed conv levels' level call := by
  rcases aimed with runtime | ⟨target, info, home, known, around, inside, rfl⟩
  · exact .inl runtime
  · obtain ⟨info', still, kept⟩ := grown target info known
    have knownTarget : target < levels.length := (List.getElem?_eq_some_iff.mp known).1
    have knownHome := Nat.lt_trans (nested.later target info home known around) knownTarget
    refine .inr ⟨target, info', home, still, kept.parent.trans around, grown.encloses inside, ?_⟩
    rw [grown.depth_eq nested (inside.known knownHome), grown.depth_eq nested knownTarget,
      kept.name]

/-- What lowering in `level` makes on the way from `s` to `t`: code with these calls, and
procedures. All calls go where they should. -/
structure Links (conv : Convention) (level : Level) (s t : Lowering) (calls : List Call) :
    Prop where
  grown : Outlasts s.levels t.levels
  nested : Nested conv t.levels
  code : ∀ call ∈ calls, Aimed conv t.levels level call
  procs : ∃ added, t.fragments = s.fragments ++ added ∧
    ∀ own body, .proc own body ∈ added → ∀ call ∈ body.calls, Aimed conv t.levels own call

section Links

theorem links_refl (level : Level) (nested : Nested conv s.levels) : Links conv level s s [] :=
  ⟨Outlasts.refl _, nested, nofun, [], (List.append_nil _).symm, nofun⟩

/-- A change that has to do with neither levels nor fragments. -/
theorem Links.quiet (links : Links conv level s t calls) (levels : u.levels = t.levels := by rfl)
    (fragments : u.fragments = t.fragments := by rfl) : Links conv level s u calls := by
  obtain ⟨grown, nested, code, procs⟩ := links
  rw [← levels] at grown nested code
  rw [← levels, ← fragments] at procs
  exact ⟨grown, nested, code, procs⟩

/-- One piece of code after another. In between, neither levels nor fragments change. -/
theorem Links.trans {t' : Lowering} (before : Links conv level s t calls)
    (second : Links conv level t' u calls') (levels : t'.levels = t.levels := by rfl)
    (fragments : t'.fragments = t.fragments := by rfl) :
    Links conv level s u (calls ++ calls') := by
  have first := before.quiet levels fragments
  obtain ⟨added, fragments, aimed⟩ := first.procs
  obtain ⟨later, laterFragments, laterAimed⟩ := second.procs
  refine ⟨first.grown.trans second.grown, second.nested, ?_, added ++ later, ?_, ?_⟩
  · refine List.forall_mem_append.mpr ⟨fun call member => ?_, second.code⟩
    exact (first.code call member).outlast first.nested second.grown
  · rw [laterFragments, fragments, List.append_assoc]
  · intro own body member call inside
    rcases List.mem_append.mp member with early | late
    · exact (aimed own body early call inside).outlast first.nested second.grown
    · exact laterAimed own body late call inside

/-- Steps that finish no fragment. -/
theorem Links.still (links : Links conv level s t calls) (steps : Steps conv t u)
    (same : u.fragments = t.fragments) : Links conv level s u calls := by
  obtain ⟨added, fragments, aimed⟩ := links.procs
  refine ⟨links.grown.trans steps.outlasts, steps.nested links.nested, ?_, added,
    same.trans fragments, ?_⟩
  · exact fun call member => (links.code call member).outlast links.nested steps.outlasts
  · exact fun own body member call inside =>
      (aimed own body member call inside).outlast links.nested steps.outlasts

/-- Code made out of other code, with no new calls but those of the runtime system. -/
theorem Links.reuse (links : Links conv level s t calls)
    (old : ∀ call ∈ calls', call ∈ calls ∨ ∃ name ∈ runtimeNames, call = ⟨.name name, none⟩) :
    Links conv level s t calls' := by
  refine ⟨links.grown, links.nested, fun call member => ?_, links.procs⟩
  rcases old call member with same | runtime
  · exact links.code call same
  · exact .inl runtime

theorem Links.same (links : Links conv level s t calls) (same : calls' = calls) :
    Links conv level s t calls' := by
  rw [same]
  exact links

/-- The links of a function's body are those of its procedure. -/
theorem Links.finish {t' : Lowering} {body : Stm} (inner : Links conv home s t' calls)
    (ran : finishProc conv home body t = .ok () u) (same : body.calls = calls)
    (levels : t.levels = t'.levels := by rfl)
    (fragments : t.fragments = t'.fragments := by rfl) : Links conv level s u [] := by
  have links := inner.quiet levels fragments
  rw [← same] at links
  obtain ⟨info, _, rfl⟩ := finishProc_ok.mp ran
  obtain ⟨added, fragments, aimed⟩ := links.procs
  let wrapped := (conv.wrapBody info.frame body t.supply).1
  refine ⟨links.grown, links.nested, nofun, added ++ [.proc home wrapped], ?_, ?_⟩
  · change t.fragments ++ _ = _
    rw [fragments, List.append_assoc]
  · intro own other member call inside
    rcases List.mem_append.mp member with early | last
    · exact aimed own other early call inside
    · cases List.mem_singleton.mp last
      rw [calls_wrapBody] at inside
      exact links.code call inside

/-- One more call, which is made first. -/
theorem Links.cons {call : Call} (links : Links conv level s t calls)
    (nested : Nested conv s.levels) (aimed : Aimed conv s.levels level call) :
    Links conv level s t (call :: calls) :=
  { links with
    code := List.forall_mem_cons.mpr ⟨aimed.outlast nested links.grown, links.code⟩ }

/-- The value of an expression has the calls of what it was lowered to. -/
theorem links_value {exp : Source.Exp} {value : Exp}
    (inner : ∀ {out : Lowered} {t : Lowering}, lowerExp conv level exp s = .ok out t →
      Links conv level s t out.calls)
    (ran : lowerValue conv level exp s = .ok value t) : Links conv level s t value.calls := by
  obtain ⟨lowered, u, first, rfl, rfl⟩ := lowerValue_ok.mp ran
  exact (inner first).quiet.same (calls_asValue _ _)

/-- The effect of an expression has the calls of what it was lowered to. -/
theorem links_effect {exp : Source.Exp} {stm : Stm}
    (inner : ∀ {out : Lowered} {t : Lowering}, lowerExp conv level exp s = .ok out t →
      Links conv level s t out.calls)
    (ran : lowerEffect conv level exp s = .ok stm t) : Links conv level s t stm.calls := by
  obtain ⟨lowered, u, first, rfl, rfl⟩ := lowerEffect_ok.mp ran
  exact (inner first).quiet.same (calls_asEffect _ _)

/-- A call of a function in scope goes to its label with the link that leads to the frame around it;
a call of the runtime system has no link. -/
theorem aimed_callee {func : String} {pos : Source.Pos} {callee : Callee}
    (situated : Situated conv level names looped s)
    (resolved : resolveCallee conv level func pos s = .ok callee t) :
    ∃ call, Aimed conv s.levels level call ∧
      ∀ values, (callee.call values).calls = call :: Exp.listCalls values := by
  obtain ⟨-, ⟨target, label, home, info, fp, found, known, around, climbed, rfl⟩ |
    ⟨-, runtime, rfl⟩⟩ := resolveCallee_ok resolved
  · obtain ⟨_, _, present, named, parent, inside⟩ := situated.visible_of_lookup found
    cases known.symm.trans present
    cases around.symm.trans parent
    rw [situated.nested.climb_encloses inside] at climbed
    cases climbed
    refine ⟨_, .inr ⟨target, info, home, known, around, inside, rfl⟩, fun values => ?_⟩
    rw [situated.nested.depth_inside known around, Nat.add_sub_add_right, named]
    simp [Callee.call]
  · have member : func ∈ runtimeNames :=
      List.mem_append_left _ (List.contains_iff_mem.mp runtime)
    exact ⟨_, .inl ⟨func, member, rfl⟩, fun values => Exp.calls_plainCall func values⟩

/-- The only calls of an operation besides those of its operands are calls of the runtime system. -/
theorem mem_calls_operation {oper : Source.Oper} {strings : Bool} {left right : Exp} {call : Call}
    (member : call ∈ (operation oper strings left right).calls) :
    call ∈ left.calls ++ right.calls ∨ ∃ name ∈ runtimeNames, call = ⟨.name name, none⟩ := by
  unfold operation at member
  split at member
  next => exact .inl member
  next =>
    split at member
    next =>
      simp only [Lowered.calls, Exp.calls_plainCall, Exp.listCalls, Exp.calls, List.append_nil,
        List.mem_cons] at member
      rcases member with rfl | inside
      · exact .inr ⟨"stringCompare", by decide, rfl⟩
      · exact .inl inside
    next => exact .inl member

/-- A joined conditional has the calls of its parts. -/
theorem links_joinBranches {test yes no out : Lowered} {yesLabel noLabel join : Label}
    (links : Links conv level s t (test.calls ++ (yes.calls ++ no.calls)))
    (ran : joinBranches test yes no yesLabel noLabel join t = .ok out u) :
    Links conv level s u out.calls := by
  rcases joinBranches_ok ran with
    ⟨yesStm, noStm, branch, rfl, rfl, branched, rfl, rfl⟩ |
      ⟨t', branch, rfl, _, branched, rfl, rfl⟩
  · refine links.same ?_
    simp [Lowered.calls, alternative, Stm.calls, calls_asBranch branched]
  · refine links.quiet.same ?_
    simp [Lowered.calls, alternative, Stm.calls, Exp.calls, calls_asBranch branched]

theorem links_allocate {escapes : Bool} {access : Access} (links : Links conv level s t calls)
    (ran : allocateVariable level escapes t = .ok access u) : Links conv level s u calls := by
  refine links.still ((extending_allocateVariable level escapes).ok ran).steps ?_
  obtain ⟨info, _, _, rfl⟩ := allocateVariable_ok.mp ran
  rfl

/-- Declaring functions finishes no fragment. -/
theorem fragments_declareFunctions :
    ∀ (group : List Source.FunDec) {levels : List Level} {s t : Lowering},
      declareFunctions conv level group s = .ok levels t → t.fragments = s.fragments
  | [], _, _, _, ran => by
    obtain ⟨-, rfl⟩ := declareFunctions_nil ran
    rfl
  | ⟨name, params, result, body⟩ :: group, _, _, _, ran => by
    obtain ⟨own, u, rest, opened, declared, rfl⟩ := declareFunctions_cons ran
    obtain ⟨-, rfl, frame, supply, -, rfl⟩ := openLevel_ok.mp opened
    have same := fragments_declareFunctions group declared
    exact same

end Links

mutual
/-- The calls in the subscripts of a variable. -/
theorem lowerVar_links {level : Level} {names : Source.Names} {looped : Bool} {s : Lowering} :
    ∀ var : Source.Var, Situated conv level names looped s → ∀ {tree : Exp} {t : Lowering},
      lowerVar conv level var s = .ok tree t → Links conv level s t tree.calls
  | .simple name pos, situated, _, _, ran => by
    obtain ⟨declared, access, fp, meaning, climbed, rfl, rfl⟩ := lowerVar_simple.mp ran
    have inside : Encloses s.levels declared level := situated.visible_of_lookup meaning
    rw [situated.nested.climb_encloses inside] at climbed
    cases climbed
    exact (links_refl level situated.nested).same (access.calls_value (calls_linksUp _ _ _))
  | .field record name slot pos, situated, _, _, ran => by
    obtain ⟨index, base, _, inner, rfl⟩ := lowerVar_field ran
    refine (lowerVar_links record situated inner).same ?_
    simp [Exp.calls]
  | .subscript array index, situated, _, _, ran => by
    obtain ⟨base, t, offset, first, second, rfl⟩ := lowerVar_subscript ran
    have arrayLinks := lowerVar_links array situated first
    have there := situated.ok (lowerVar_extends level array) first
    refine (arrayLinks.trans (links_value (lowerExp_links index there) second)).same ?_
    simp [Exp.calls]
/-- The calls in the code for an expression, and in the functions declared inside it, go where
they should. -/
theorem lowerExp_links {level : Level} {names : Source.Names} {looped : Bool} {s : Lowering} :
    ∀ exp : Source.Exp, Situated conv level names looped s → ∀ {out : Lowered} {t : Lowering},
      lowerExp conv level exp s = .ok out t → Links conv level s t out.calls
  | .nil, situated, _, _, ran => by
    obtain ⟨rfl, rfl⟩ := lowerExp_nil ran
    exact links_refl level situated.nested
  | .int value, situated, _, _, ran => by
    obtain ⟨rfl, rfl⟩ := lowerExp_int ran
    exact links_refl level situated.nested
  | .string text, situated, _, _, ran => by
    obtain ⟨rfl, rfl⟩ := lowerExp_string ran
    exact ⟨Outlasts.refl _, situated.nested, nofun, [.string s.nextLabel text], rfl, by simp⟩
  | .breakLoop pos, situated, _, _, ran => by
    obtain ⟨exit, _, rfl, rfl⟩ := lowerExp_breakLoop ran
    exact links_refl level situated.nested
  | .var var, situated, _, _, ran => by
    obtain ⟨tree, inner, rfl⟩ := lowerExp_var ran
    exact lowerVar_links var situated inner
  | .call func args pos, situated, _, _, ran => by
    obtain ⟨callee, values, resolved, inner, rfl⟩ := lowerExp_call ran
    obtain ⟨call, aimed, made⟩ := aimed_callee situated resolved
    exact ((lowerArgs_links args situated inner).cons situated.nested aimed).same (made values)
  | .op oper left right strings, situated, _, _, ran => by
    obtain ⟨a, t, b, first, second, rfl⟩ := lowerExp_op ran
    have leftLinks := links_value (lowerExp_links left situated) first
    have there := situated.ok (lowerValue_extends level left) first
    have rightLinks := links_value (lowerExp_links right there) second
    exact (leftLinks.trans rightLinks).reuse fun _ member => mem_calls_operation member
  | .record type fields, situated, _, _, ran => by
    obtain ⟨stores, inner, rfl⟩ := lowerExp_record ran
    have fieldsLinks := lowerFields_links fields (situated.draw freshTemp) inner
    refine ((links_refl level situated.nested).trans fieldsLinks).reuse ?_
    simp only [Lowered.calls, recordTree, Exp.calls, Stm.calls_sequence, Stm.listCalls_cons,
      Stm.calls, Exp.calls_plainCall, Exp.listCalls, List.append_nil, List.nil_append,
      List.cons_append, List.forall_mem_cons]
    exact ⟨.inr ⟨"allocRecord", by decide, rfl⟩, fun _ member => .inl member⟩
  | .seq exps, situated, _, _, ran => by
    obtain ⟨stms, last, t, inner, rfl, rfl⟩ := lowerExp_seq ran
    exact (lowerSeq_links exps situated inner).quiet.same (calls_after _ _ _)
  | .assign var value, situated, _, _, ran => by
    obtain ⟨dst, t, src, first, second, rfl⟩ := lowerExp_assign ran
    have varLinks := lowerVar_links var situated first
    have there := situated.ok (lowerVar_extends level var) first
    exact varLinks.trans (links_value (lowerExp_links value there) second)
  | .ifThen test yes, situated, _, _, ran => by
    obtain ⟨a, t, b, u, branch, first, second, branched, rfl, rfl⟩ := lowerExp_ifThen ran
    have testLinks := lowerExp_links test situated first
    have there := situated.ok (lowerExp_extends level test) first
    refine (testLinks.trans (lowerExp_links yes there second)).quiet.same ?_
    simp [Lowered.calls, conditional, Stm.calls, calls_asBranch branched]
  | .ifElse test yes no, situated, _, _, ran => by
    obtain ⟨a, t, b, u, c, v, first, second, third, joined⟩ := lowerExp_ifElse ran
    have testLinks := lowerExp_links test situated first
    have there := situated.ok (lowerExp_extends level test) first
    have yesLinks := lowerExp_links yes there second
    have after := (there.ok (lowerExp_extends level yes) second).label.label
    have noLinks := lowerExp_links no after third
    exact links_joinBranches (testLinks.trans (yesLinks.trans noLinks)).quiet joined
  | .whileDo test body, situated, _, _, ran => by
    obtain ⟨a, t, b, u, branch, first, second, branched, rfl, rfl⟩ := lowerExp_whileDo ran
    obtain ⟨v, inner, rfl⟩ := inLoop_ok.mp second
    have labelled := situated.label.label.label
    have testLinks := (links_refl level situated.nested).trans
      (lowerExp_links test labelled first)
    have there := labelled.ok (lowerExp_extends level test) first
    have bodyLinks := lowerExp_links body (there.inLoop _) inner
    refine (testLinks.trans bodyLinks).quiet.same ?_
    simp [Lowered.calls, whileLoop, Stm.calls, calls_asBranch branched]
  | .forTo var lo hi body, situated, _, _, ran => by
    obtain ⟨a, t, b, u, access, v, c, w, _, first, second, stored, looped, rfl, rfl, rfl⟩ :=
      lowerExp_forTo ran
    obtain ⟨x, bodyRan, rfl⟩ := inLoop_ok.mp looped
    have loLinks := links_value (lowerExp_links lo situated) first
    have afterLo := situated.ok (lowerValue_extends level lo) first
    have hiLinks := links_value (lowerExp_links hi afterLo) second
    have afterHi := afterLo.ok (lowerValue_extends level hi) second
    have storage := links_allocate (loLinks.trans hiLinks) stored
    have there := afterHi.ok (extending_allocateVariable level var.escapes) stored
    have inside := ((there.draw freshTemp).label.label.label.enter.bindVariable var.name access)
    have bodyLinks := lowerExp_links body (inside.inLoop _) bodyRan
    have plain : (access.value (.temp conv.framePointer)).calls = [] := access.calls_value rfl
    refine (storage.trans bodyLinks).quiet.same ?_
    simp [Lowered.calls, countingLoop, Stm.calls, Exp.calls, plain]
  | .letIn decs body, situated, _, _, ran => by
    obtain ⟨stms, t, b, u, first, second, rfl, rfl⟩ := lowerExp_letIn ran
    have decsLinks := (links_refl level situated.nested).trans
      (lowerDecs_links decs situated.enter first)
    have there := lowerDecs_situated decs situated.enter first
    refine (decsLinks.trans (lowerExp_links body there second)).quiet.same ?_
    simp
  | .array type size init, situated, _, _, ran => by
    obtain ⟨a, t, b, first, second, rfl⟩ := lowerExp_array ran
    have sizeLinks := links_value (lowerExp_links size situated) first
    have there := situated.ok (lowerValue_extends level size) first
    refine (sizeLinks.trans (links_value (lowerExp_links init there) second)).reuse ?_
    simp only [Lowered.calls, Exp.calls_plainCall, Exp.listCalls, List.append_nil,
      List.forall_mem_cons]
    exact ⟨.inr ⟨"initArray", by decide, rfl⟩, fun _ member => .inl member⟩
/-- The arguments of a call, in order. -/
theorem lowerArgs_links {level : Level} {names : Source.Names} {looped : Bool} {s : Lowering} :
    ∀ args : List Source.Exp, Situated conv level names looped s →
      ∀ {values : List Exp} {t : Lowering}, lowerArgs conv level args s = .ok values t →
      Links conv level s t (Exp.listCalls values)
  | [], situated, _, _, ran => by
    obtain ⟨rfl, rfl⟩ := lowerArgs_nil ran
    exact links_refl level situated.nested
  | arg :: args, situated, _, _, ran => by
    obtain ⟨value, t, rest, first, second, rfl⟩ := lowerArgs_cons ran
    have argLinks := links_value (lowerExp_links arg situated) first
    have there := situated.ok (lowerValue_extends level arg) first
    exact argLinks.trans (lowerArgs_links args there second)
/-- The stores of record fields, in order. -/
theorem lowerFields_links {level : Level} {names : Source.Names} {looped : Bool} {s : Lowering}
    {r : Temp} {slot : Nat} :
    ∀ fields : List Source.Field, Situated conv level names looped s →
      ∀ {stores : List Stm} {t : Lowering},
      lowerFields conv level r slot fields s = .ok stores t →
      Links conv level s t (Stm.listCalls stores)
  | [], situated, _, _, ran => by
    obtain ⟨rfl, rfl⟩ := lowerFields_nil ran
    exact links_refl level situated.nested
  | ⟨name, exp⟩ :: fields, situated, _, _, ran => by
    obtain ⟨value, t, rest, first, second, rfl⟩ := lowerFields_cons ran
    have valueLinks := links_value (lowerExp_links exp situated) first
    have there := situated.ok (lowerValue_extends level exp) first
    refine (valueLinks.trans (lowerFields_links fields there second)).same ?_
    simp [Stm.calls, Exp.calls]
/-- The parts of a sequence, in order. -/
theorem lowerSeq_links {level : Level} {names : Source.Names} {looped : Bool} {s : Lowering} :
    ∀ exps : List Source.Exp, Situated conv level names looped s →
      ∀ {stms : List Stm} {last : Lowered} {t : Lowering},
      lowerSeq conv level exps s = .ok (stms, last) t →
      Links conv level s t (Stm.listCalls stms ++ last.calls)
  | [], situated, _, _, _, ran => by
    obtain ⟨same, rfl⟩ := lowerSeq_nil ran
    cases same
    exact links_refl level situated.nested
  | [exp], situated, _, _, _, ran => by
    obtain ⟨_, inner, same⟩ := lowerSeq_single ran
    cases same
    exact lowerExp_links exp situated inner
  | exp :: next :: exps, situated, _, _, _, ran => by
    obtain ⟨stm, t, rest, _, first, second, same⟩ := lowerSeq_cons ran
    cases same
    have expLinks := links_effect (lowerExp_links exp situated) first
    have there := situated.ok (lowerEffect_extends level exp) first
    refine (expLinks.trans (lowerSeq_links (next :: exps) there second)).same ?_
    simp
/-- The calls in declarations, those in the bodies of functions included. -/
theorem lowerDecs_links {level : Level} {names : Source.Names} {looped : Bool} {s : Lowering} :
    ∀ decs : List Source.Dec, Situated conv level names looped s →
      ∀ {stms : List Stm} {t : Lowering}, lowerDecs conv level decs s = .ok stms t →
      Links conv level s t (Stm.listCalls stms)
  | [], situated, _, _, ran => by
    obtain ⟨rfl, rfl⟩ := lowerDecs_nil ran
    exact links_refl level situated.nested
  | .var binder init :: decs, situated, _, _, ran => by
    obtain ⟨value, t, access, u, rest, first, stored, second, rfl⟩ := lowerDecs_var ran
    have initLinks := links_value (lowerExp_links init situated) first
    have initialised := situated.ok (lowerValue_extends level init) first
    have storage := links_allocate initLinks stored
    have there := (initialised.ok (extending_allocateVariable level binder.escapes)
      stored).bindVariable binder.name access
    have plain : (access.value (.temp conv.framePointer)).calls = [] := access.calls_value rfl
    refine (storage.trans (lowerDecs_links decs there second)).same ?_
    simp [Stm.calls, plain]
  | .type name definition :: decs, situated, _, _, ran =>
    lowerDecs_links decs situated (lowerDecs_type ran)
  | .functions group :: decs, situated, _, _, ran => by
    obtain ⟨levels, t, u, declared, bodies, rest⟩ := lowerDecs_functions ran
    have declaring := ((extendingInner_declareFunctions level group).ok declared).steps
    have begun := (links_refl level situated.nested).still declaring
      (fragments_declareFunctions group declared)
    obtain ⟨there, members⟩ := declareFunctions_situated group situated declared
    have bodiesLinks := lowerBodies_links group there members bodies
    have after := there.ok (lowerBodies_extends levels group) bodies
    exact (begun.trans bodiesLinks).trans (lowerDecs_links decs after rest)
/-- The bodies of a group are lowered inside their own levels, which have the level of the
declaration around them. -/
theorem lowerBodies_links {level : Level} {names : Source.Names} {looped : Bool}
    {levels : List Level} {s : Lowering} :
    ∀ group : List Source.FunDec, Situated conv level names looped s →
      List.Forall₂ (Member level s) levels group → ∀ {t : Lowering},
      lowerBodies conv levels group s = .ok () t → Links conv level s t []
  | [], situated, _, _, ran => by
    obtain rfl := lowerBodies_nil ran
    exact links_refl level situated.nested
  | ⟨name, params, result, body⟩ :: group, situated, .cons member members, _, ran => by
    rename_i own levels _
    obtain ⟨info, t, lowered, u, _, w, known, bound, inner, rfl, finish, rest⟩ :=
      lowerBodies_cons ran
    obtain ⟨v, bodyRan, rfl⟩ := outsideLoops_ok.mp inner
    obtain ⟨_, again, there⟩ := situated.body member known
    cases bound.symm.trans again
    obtain ⟨-, levels, fragments⟩ := bindParams_same params _ bound
    have bodyLinks := (links_refl own situated.nested).trans
      (lowerExp_links body there.outsideLoops bodyRan) levels fragments
    have done : Links conv level s w [] :=
      bodyLinks.finish finish (calls_bodyStm conv result lowered _)
    have extended := (extends_body result bound inner).trans ((extending_finishProc own _).ok finish)
    have restLinks := lowerBodies_links group (situated.extend extended)
      (members.imp fun _ _ member => member.steps extended.steps) rest
    exact done.trans restLinks
end

section Labelled

variable {call : Call} {info info' : LevelInfo} {own own' parent parent' : Level}

/-- All functions but the outermost have labels that were issued, and no two have the same. -/
def Labelled (s : Lowering) : Prop := Issued 0 s.supply.labels s.functionLabels.tail

theorem labelled_start (conv : Convention) (entry : Label) (supply : Supply) :
    Labelled (start conv entry supply) :=
  issued_nil (Nat.zero_le _)

/-- One step keeps the labels of functions apart. -/
theorem Step.labelled (step : Step conv s t) (labelled : Labelled s) : Labelled t := by
  have grown := labelled.append (issued_nil step.supply_le.2)
  rw [List.append_nil] at grown
  cases step with
  | names => exact labelled
  | issue => exact grown
  | literal => exact labelled
  | finish => exact grown
  | allocate level info escapes known =>
    rw [← functionLabels_allocated escapes known] at grown
    exact grown
  | nest parent info name escapes frame supply known made =>
    obtain ⟨named, labels⟩ := Convention.frameFor_labels made
    have someLevel : s.functionLabels ≠ [] := by
      intro none
      rw [List.map_eq_nil_iff.mp none] at known
      cases known
    have next := labelled.append (issued_single (numbered_freshLabelFor name s.supply))
    have count : supply.labels = s.supply.labels + 1 := labels
    have added : (s.opened parent frame supply).functionLabels = s.functionLabels ++ [frame.name] :=
      List.map_append
    unfold Labelled
    rw [added, named, List.tail_append_of_ne_nil someLevel]
    change Issued 0 supply.labels _
    rw [count]
    exact next

theorem Steps.labelled (steps : Steps conv s t) (labelled : Labelled s) : Labelled t := by
  induction steps with
  | refl => exact labelled
  | tail _ step carried => exact step.labelled carried

/-- The label of a function, among all of them. -/
theorem label_at (nested : Nested conv s.levels) (known : s.levels[own]? = some info)
    (around : info.parent = some parent) :
    s.functionLabels.tail[own - 1]? = some info.frame.name := by
  have later := nested.later own info parent known around
  rw [List.getElem?_tail, Nat.sub_add_cancel (Nat.succ_le_of_lt (Nat.zero_lt_of_lt later)),
    functionLabels, List.getElem?_map, known]
  rfl

/-- The label of a function other than the program has a dot in it. -/
theorem Labelled.dotted (labelled : Labelled s) (nested : Nested conv s.levels)
    (known : s.levels[own]? = some info) (around : info.parent = some parent) :
    '.' ∈ info.frame.name.toList := by
  have member := List.mem_of_getElem? (label_at nested known around)
  obtain ⟨_, _, _, numbered⟩ := labelled.numbered _ member
  exact numbered.dot_mem

/-- No two functions have the same label. -/
theorem Labelled.unique (labelled : Labelled s) (nested : Nested conv s.levels)
    (known : s.levels[own]? = some info) (around : info.parent = some parent)
    (known' : s.levels[own']? = some info') (around' : info'.parent = some parent')
    (same : info.frame.name = info'.frame.name) : own = own' := by
  have first := label_at nested known around
  have second := label_at nested known' around'
  have bound := (List.getElem?_eq_some_iff.mp first).1
  have equal := (List.getElem?_inj bound labelled.distinct).mp
    (first.trans ((congrArg some same).trans second.symm))
  have later := nested.later own info parent known around
  have later' := nested.later own' info' parent' known' around'
  exact Nat.sub_one_cancel (Nat.zero_lt_of_lt later) (Nat.zero_lt_of_lt later') equal

end Labelled

/-- The runtime system has no dots in its labels, so that none of them is the label of a
function. -/
theorem runtimeNames_undotted : ∀ name ∈ runtimeNames, '.' ∉ name.toList := by decide

/-- A call in the code of `level` as it has to be. -/
structure WellLinked (conv : Convention) (levels : List LevelInfo) (level : Level) (call : Call) :
    Prop where
  /-- A function is called from inside the level that declares it. The call passes the frame of
  that level, as many static links away as there are levels in between. -/
  nested : ∀ (target : Level) (info : LevelInfo) (home : Level), levels[target]? = some info →
    info.parent = some home → call.func = .name info.frame.name →
    Encloses levels home level ∧ call.link = some (linksUp conv
      (depth levels level + 1 - depth levels target) (.temp conv.framePointer))
  /-- A function of the runtime system gets no link. -/
  runtime : ∀ name ∈ runtimeNames, call.func = .name name → call.link = none
  /-- No other calls are made. -/
  known : (∃ (target : Level) (info : LevelInfo) (home : Level), levels[target]? = some info ∧
      info.parent = some home ∧ call.func = .name info.frame.name) ∨
    ∃ name ∈ runtimeNames, call.func = .name name

/-- A well aimed call has one callee only. -/
theorem Aimed.wellLinked {call : Call} (aimed : Aimed conv s.levels level call)
    (nested : Nested conv s.levels) (labelled : Labelled s) :
    WellLinked conv s.levels level call := by
  rcases aimed with ⟨name, member, rfl⟩ | ⟨target, info, home, known, around, inside, rfl⟩
  · refine ⟨?_, fun _ _ _ => rfl, .inr ⟨name, member, rfl⟩⟩
    intro target info home known around same
    have dotted := labelled.dotted nested known around
    rw [← Exp.name.inj same] at dotted
    exact absurd dotted (runtimeNames_undotted name member)
  · refine ⟨?_, ?_, .inl ⟨target, info, home, known, around, rfl⟩⟩
    · intro other info' home' known' around' same
      obtain rfl := labelled.unique nested known around known' around' (Exp.name.inj same)
      cases known.symm.trans known'
      cases around.symm.trans around'
      exact ⟨inside, rfl⟩
    · intro name member same
      have dotted := labelled.dotted nested known around
      rw [Exp.name.inj same] at dotted
      exact absurd dotted (runtimeNames_undotted name member)

section Programs

/-- The state after one program after another has been lowered, or has failed to be. -/
def attempted (conv : Convention) (programs : List Source.Exp) (s : Lowering) : Lowering :=
  programs.foldl (fun s program => left (lowerProgram conv program s)) s

/-- Programs that were lowered earlier, with or without success, only extend the state. -/
theorem extends_attempted (conv : Convention) :
    ∀ (programs : List Source.Exp) (s : Lowering), Extends conv s (attempted conv programs s)
  | [], s => Extends.refl conv s
  | program :: programs, s =>
    (lowerProgram_extends conv program s).trans (extends_attempted conv programs _)

/-- However many programs are lowered one after the other, and whether or not they succeed, no
level is looked for that is not there. When a program is lowered, every call in its procedures has
the static link that it needs. -/
theorem calls_well_linked (conv : Convention) (entry : Label) (supply : Supply)
    (earlier : List Source.Exp) (program : Source.Exp) :
    (∀ error t, lowerProgram conv program (attempted conv earlier (start conv entry supply)) =
        .error error t → ∀ level, error ≠ .unknownLevel level) ∧
      ∀ t, lowerProgram conv program (attempted conv earlier (start conv entry supply)) =
          .ok () t →
        ∃ added, t.fragments = (attempted conv earlier (start conv entry supply)).fragments ++
            added ∧
          ∀ level body, .proc level body ∈ added → ∀ call ∈ body.calls,
            WellLinked conv t.levels level call := by
  have before := extends_attempted conv earlier (start conv entry supply)
  have situated := (situated_start conv entry supply).extend before
  refine ⟨fun error t failed level => (lowerProgram_accepts situated program).known failed level,
    fun t ran => ?_⟩
  have labelled := (before.trans ((lowerProgram_extends conv program).ok ran)).steps.labelled
    (labelled_start conv entry supply)
  obtain ⟨stm, u, lowered, finished⟩ := lowerProgram_ok ran
  have links : Links conv 0 _ t [] :=
    (links_effect (lowerExp_links program situated) lowered).finish finished rfl
  obtain ⟨added, fragments, aimed⟩ := links.procs
  exact ⟨added, fragments, fun level body member call inside =>
    (aimed level body member call inside).wellLinked links.nested labelled⟩

/-- Two functions, one inside the other, that call each other. -/
def pingPong : Source.Exp :=
  .letIn [.functions [⟨"ping", [], none,
      .letIn [.functions [⟨"pong", [], none, .call "ping" [] {}⟩]] (.call "pong" [] {})⟩]]
    (.call "ping" [] {})

/-- How many calls there are in a fragment. -/
def callCount : Fragment → Nat
  | .proc _ body => body.calls.length
  | .string _ _ => 0

theorem pingPong_well_linked :
    ∃ t, lowerProgram .small pingPong
        (attempted .small [.breakLoop {}] (start .small "tigermain" {})) = .ok () t ∧
      t.fragments.map callCount = [1, 1, 1] ∧
      ∀ level body, .proc level body ∈ t.fragments → ∀ call ∈ body.calls,
        WellLinked .small t.levels level call := by
  have checked : (match lowerProgram .small pingPong
      (attempted .small [.breakLoop {}] (start .small "tigermain" {})) with
    | .ok _ t => some (t.fragments.map callCount)
    | .error _ _ => none) = some [1, 1, 1] := by decide +kernel
  split at checked
  next t ran =>
    obtain ⟨added, fragments, linked⟩ :=
      (calls_well_linked .small "tigermain" {} [.breakLoop {}] pingPong).2 t ran
    have whole : t.fragments = added := fragments
    refine ⟨t, ran, Option.some.inj checked, ?_⟩
    rw [whole]
    exact linked
  next => cases checked

end Programs

end Lowering

end TreeCode
