import TreeCode.Proofs.Lowering.Levels
import TreeCode.Proofs.Lowering.Success
import TreeCode.Proofs.Machine.Roles

/-!
The temporaries of the pieces that lowering puts together. Bringing lowered expressions into
another form or joining them uses their own temporaries and freshly issued ones, and nothing else.
-/

namespace TreeCode

open Tree

/-- The temporaries of a lowered expression. -/
def Lowered.temps : Lowered → List Temp
  | .value exp => exp.temps
  | .effect stm => stm.temps
  | .test _ left right => left.temps ++ right.temps

/-- The temporaries of statements in order. -/
def Tree.Stm.listTemps (stms : List Stm) : List Temp := stms.flatMap Stm.temps

@[simp] theorem Tree.Stm.temps_nop : Stm.nop.temps = [] := rfl

@[simp] theorem Tree.Stm.temps_goto (label : Label) : (Stm.goto label).temps = [] := rfl

@[simp] theorem Tree.Stm.temps_sequence (stms : List Stm) :
    (Stm.sequence stms).temps = Stm.listTemps stms :=
  Stm.collect_sequence Stm.temps rfl (fun _ _ => rfl) stms

@[simp] theorem Tree.Exp.temps_plainCall (func : Label) (args : List Exp) :
    (Exp.plainCall func args).temps = Exp.listTemps args := rfl

@[simp] theorem Tree.Exp.temps_linkedCall (func : Label) (link : Exp) (args : List Exp) :
    (Exp.linkedCall func link args).temps = link.temps ++ Exp.listTemps args := rfl

namespace Lowering

variable {t : Temp} {supply : Supply}

section Conversions

theorem asValue_test (op : RelOp) (left right : Exp) (supply : Supply) :
    (Lowered.test op left right).asValue supply =
      (.eseq
        (.sequence [
          .move (.temp ⟨supply.temps⟩) (.const 1),
          .cjump op left right (freshLabel supply).1 (freshLabel (freshLabel supply).2).1,
          .label (freshLabel (freshLabel supply).2).1,
          .move (.temp ⟨supply.temps⟩) (.const 0),
          .label (freshLabel supply).1])
        (.temp ⟨supply.temps⟩),
      { supply with temps := supply.temps + 1, labels := supply.labels + 2 }) := rfl

theorem asEffect_test (op : RelOp) (left right : Exp) (supply : Supply) :
    (Lowered.test op left right).asEffect supply =
      (.sequence [.cjump op left right (freshLabel supply).1 (freshLabel supply).1,
        .label (freshLabel supply).1], { supply with labels := supply.labels + 1 }) := rfl

/-- The branch of a test is the test, that of a constant is known, and all else is compared to
zero. -/
theorem asBranch_ok {lowered : Lowered} {yes no : Label} {branch : Stm}
    (made : lowered.asBranch yes no = .ok branch) :
    (∃ op left right, lowered = .test op left right ∧ branch = .cjump op left right yes no) ∨
    (∃ c : Int, lowered = .value (.const c) ∧ branch = .goto (if c = 0 then no else yes)) ∨
    ∃ exp, lowered = .value exp ∧ branch = .cjump .ne exp (.const 0) yes no := by
  cases lowered with
  | effect stm => cases made
  | test op left right =>
    cases made
    exact .inl ⟨op, left, right, rfl, rfl⟩
  | value exp =>
    unfold Lowered.asBranch at made
    split at made
    next same => cases same
    next same =>
      cases same
      cases made
      exact .inr (.inl ⟨0, rfl, rfl⟩)
    next c nonzero same =>
      cases same
      cases made
      exact .inr (.inl ⟨c, rfl, by rw [if_neg fun zero => nonzero zero]⟩)
    next same =>
      cases same
      cases made
      exact .inr (.inr ⟨exp, rfl, rfl⟩)
    next same => cases same

/-- Code without a value stays so behind some statements, and all else becomes a value. -/
theorem after_cases (stms : List Stm) (lowered : Lowered) (supply : Supply) :
    (stms = [] ∧ lowered.after stms supply = (lowered, supply)) ∨
    (∃ last, lowered = .effect last ∧
      lowered.after stms supply = (.effect (.sequence (stms ++ [last])), supply)) ∨
    lowered.after stms supply =
      (.value (.eseq (.sequence stms) (lowered.asValue supply).1), (lowered.asValue supply).2) := by
  cases stms with
  | nil => exact .inl ⟨rfl, rfl⟩
  | cons stm stms =>
    cases lowered with
    | value exp => exact .inr (.inr rfl)
    | effect last => exact .inr (.inl ⟨last, rfl, rfl⟩)
    | test op left right => exact .inr (.inr rfl)

/-- A value has the temporaries of the lowered form, and new ones. -/
theorem mem_asValue {lowered : Lowered} (member : t ∈ (lowered.asValue supply).1.temps) :
    t ∈ lowered.temps ∨ t.Between supply.temps (lowered.asValue supply).2.temps := by
  cases lowered with
  | value exp => exact .inl member
  | effect stm =>
    left
    change t ∈ stm.temps ++ [] at member
    rw [List.append_nil] at member
    exact member
  | test op left right =>
    rw [asValue_test] at member ⊢
    simp only [Exp.temps, Stm.temps_sequence, Stm.listTemps, List.flatMap_cons, List.flatMap_nil,
      Stm.temps, List.append_nil, List.nil_append, List.mem_append, List.mem_singleton] at member
    have fresh : t = ⟨supply.temps⟩ → t.Between supply.temps (supply.temps + 1) := by
      rintro rfl
      exact ⟨Nat.le_refl _, Nat.lt_succ_self _⟩
    rcases member with (new | old | new) | new
    · exact .inr (fresh new)
    · exact .inl (List.mem_append.mpr old)
    · exact .inr (fresh new)
    · exact .inr (fresh new)

/-- An effect has the temporaries of the lowered form. -/
theorem mem_asEffect {lowered : Lowered} (member : t ∈ (lowered.asEffect supply).1.temps) :
    t ∈ lowered.temps := by
  cases lowered with
  | value exp => exact member
  | effect stm => exact member
  | test op left right =>
    rw [asEffect_test] at member
    simpa [Stm.listTemps, Stm.temps, Lowered.temps] using member

/-- A branch has the temporaries of the lowered form. -/
theorem mem_asBranch {lowered : Lowered} {yes no : Label} {branch : Stm}
    (made : lowered.asBranch yes no = .ok branch) (member : t ∈ branch.temps) :
    t ∈ lowered.temps := by
  rcases asBranch_ok made with ⟨op, left, right, rfl, rfl⟩ | ⟨c, rfl, rfl⟩ | ⟨exp, rfl, rfl⟩
  · exact member
  · simp at member
  · simpa [Stm.temps, Exp.temps, Lowered.temps] using member

/-- Statements in front of a lowered form. -/
theorem mem_after {stms : List Stm} {lowered : Lowered}
    (member : t ∈ (lowered.after stms supply).1.temps) :
    t ∈ Stm.listTemps stms ∨ t ∈ lowered.temps ∨
      t.Between supply.temps (lowered.after stms supply).2.temps := by
  rcases after_cases stms lowered supply with ⟨rfl, same⟩ | ⟨last, rfl, same⟩ | same
  · rw [same] at member
    exact .inr (.inl member)
  · rw [same, Lowered.temps, Stm.temps_sequence, Stm.listTemps, List.flatMap_append] at member
    rcases List.mem_append.mp member with early | late
    · exact .inl early
    · exact .inr (.inl (by simpa [Lowered.temps] using late))
  · rw [same] at member ⊢
    rw [Lowered.temps, Exp.temps, Stm.temps_sequence] at member
    rcases List.mem_append.mp member with early | late
    · exact .inl early
    · exact .inr (mem_asValue late)

end Conversions

section Combinations

/-- An operation has the temporaries of its operands. -/
theorem mem_operation {oper : Source.Oper} {strings : Bool} {left right : Exp}
    (member : t ∈ (operation oper strings left right).temps) :
    t ∈ left.temps ++ right.temps := by
  unfold operation at member
  split at member
  next => exact member
  next =>
    split at member
    next => simpa [Lowered.temps, Exp.listTemps, Exp.temps] using member
    next => exact member

theorem mem_conditional {test yes : Stm} {yesLabel noLabel : Label}
    (member : t ∈ (conditional test yes yesLabel noLabel).temps) :
    t ∈ test.temps ++ yes.temps := by
  simpa [conditional, Stm.listTemps, Stm.temps] using member

theorem mem_alternative {test yes no : Stm} {yesLabel noLabel join : Label}
    (member : t ∈ (alternative test yes no yesLabel noLabel join).temps) :
    t ∈ test.temps ++ (yes.temps ++ no.temps) := by
  simpa [alternative, Stm.listTemps, Stm.temps] using member

theorem mem_whileLoop {test body : Stm} {testLabel bodyLabel done : Label}
    (member : t ∈ (whileLoop test body testLabel bodyLabel done).temps) :
    t ∈ test.temps ++ body.temps := by
  simpa [whileLoop, Stm.listTemps, Stm.temps] using member

/-- A counting loop has the temporaries of its variable, its limit, its bounds and its body. -/
theorem mem_countingLoop {i limit lo hi : Exp} {body : Stm} {bodyLabel next done : Label}
    (member : t ∈ (countingLoop i limit lo hi body bodyLabel next done).temps) :
    t ∈ i.temps ∨ t ∈ limit.temps ∨ t ∈ lo.temps ∨ t ∈ hi.temps ∨ t ∈ body.temps := by
  simp only [countingLoop, Stm.temps_sequence, Stm.listTemps, List.flatMap_cons, List.flatMap_nil,
    Stm.temps, Exp.temps, Stm.temps_goto, List.append_nil, List.nil_append,
    List.mem_append] at member
  grind

theorem mem_recordTree {conv : Convention} {r : Temp} {count : Nat} {stores : List Stm}
    (member : t ∈ (recordTree conv r count stores).temps) :
    t = r ∨ t ∈ Stm.listTemps stores := by
  simp only [recordTree, Exp.temps, Stm.temps_sequence, Stm.listTemps, List.flatMap_cons,
    Stm.temps, Exp.temps_plainCall, Exp.listTemps, List.append_nil, List.mem_append,
    List.mem_singleton] at member
  rcases member with (same | stored) | same
  · exact .inl same
  · exact .inr stored
  · exact .inl same

/-- A variable has its own temporary, or those of the frame pointer that it is reached from. -/
theorem mem_access {access : Access} {fp : Exp} (member : t ∈ (access.value fp).temps) :
    access = .inReg t ∨ t ∈ fp.temps := by
  cases access with
  | inFrame offset =>
    right
    simpa [Access.value, Exp.temps] using member
  | inReg reg =>
    left
    rw [List.mem_singleton.mp member]

/-- A frame found through static links needs no temporary but the first frame pointer. -/
theorem Linked.temps {conv : Convention} {levels : List LevelInfo} {target level : Level}
    {fp address : Exp} (linked : Linked conv levels target level fp address) :
    address.temps = fp.temps := by
  induction linked with
  | here fp => rfl
  | up known around rest carried =>
    rw [carried]
    exact List.append_nil _

/-- The body of a function also has the register of the result. -/
theorem mem_bodyStm {conv : Convention} {result : Option String} {body : Lowered}
    (member : t ∈ (bodyStm conv result body supply).1.temps) :
    t = conv.returnValue ∨ t ∈ body.temps ∨
      t.Between supply.temps (bodyStm conv result body supply).2.temps := by
  cases result with
  | none => exact .inr (.inl (mem_asEffect member))
  | some type =>
    change t ∈ [conv.returnValue] ++ (body.asValue supply).1.temps at member
    rcases List.mem_append.mp member with register | value
    · exact .inl (List.mem_singleton.mp register)
    · exact .inr (mem_asValue value)

/-- Several temporaries at once are all new. -/
theorem freshTemps_between :
    ∀ (count : Nat) (supply : Supply), ∀ t ∈ (freshTemps count supply).1,
      t.Between supply.temps (freshTemps count supply).2.temps
  | 0, _, t, member => by cases member
  | count + 1, supply, t, member => by
    have grown := (grows_freshTemps count (freshTemp supply).2).1
    rcases List.mem_cons.mp member with here | there
    · subst here
      exact ⟨Nat.le_refl _, grown⟩
    · exact (freshTemps_between count (freshTemp supply).2 t there).widen (Nat.le_succ _)
        (Nat.le_refl _)

/-- A finished function uses the registers of the convention, the temporaries of its formals and
of its body, and fresh ones for what it has to preserve. -/
theorem mem_wrapBody {conv : Convention} {frame : Frame} {body : Stm} (closed : conv.Closed)
    (arrive : ∀ reg, some reg ∈ frame.incoming → reg ∈ conv.machine)
    (member : t ∈ (conv.wrapBody frame body supply).1.temps) :
    t ∈ conv.machine ∨ .inReg t ∈ frame.formals ∨ t ∈ body.temps ∨
      t.Between supply.temps (conv.wrapBody frame body supply).2.temps := by
  let copies := freshTemps conv.calleeSaved.length supply
  change t ∈ (Stm.sequence (conv.viewShift frame ++
    ((copies.1.zip conv.calleeSaved).map fun pair => Stm.move (.temp pair.1) (.temp pair.2)) ++
    body :: (copies.1.zip conv.calleeSaved).map
      fun pair => Stm.move (.temp pair.2) (.temp pair.1))).temps at member
  have saved : ∀ pair ∈ copies.1.zip conv.calleeSaved, t = pair.1 ∨ t = pair.2 →
      t ∈ conv.machine ∨ t.Between supply.temps copies.2.temps := by
    rintro ⟨copy, reg⟩ zipped (rfl | rfl)
    · exact .inr (freshTemps_between _ supply t (List.of_mem_zip zipped).1)
    · exact .inl (closed.calleeSaved (List.of_mem_zip zipped).2)
  rw [Stm.temps_sequence, Stm.listTemps, List.mem_flatMap] at member
  obtain ⟨stm, among, member⟩ := member
  rcases List.mem_append.mp among with among | among
  · rcases List.mem_append.mp among with shift | save
    · obtain ⟨⟨access, arrival⟩, zipped, same⟩ := List.mem_filterMap.mp shift
      cases arrival with
      | none => cases same
      | some reg =>
        cases same
        rcases List.mem_append.mp member with kept | arrived
        · rcases mem_access kept with home | pointer
          · subst home
            exact .inr (.inl (List.of_mem_zip zipped).1)
          · rw [List.mem_singleton.mp pointer]
            exact .inl closed.framePointer
        · rw [List.mem_singleton.mp arrived]
          exact .inl (arrive reg (List.of_mem_zip zipped).2)
    · obtain ⟨pair, zipped, rfl⟩ := List.mem_map.mp save
      have either : t = pair.1 ∨ t = pair.2 := by simpa [Stm.temps, Exp.temps] using member
      rcases saved pair zipped either with register | fresh
      · exact .inl register
      · exact .inr (.inr (.inr fresh))
  · rcases List.mem_cons.mp among with rfl | restore
    · exact .inr (.inr (.inl member))
    · obtain ⟨pair, zipped, rfl⟩ := List.mem_map.mp restore
      have either : t = pair.1 ∨ t = pair.2 := by
        simpa [Stm.temps, Exp.temps, or_comm] using member
      rcases saved pair zipped either with register | fresh
      · exact .inl register
      · exact .inr (.inr (.inr fresh))

end Combinations

end Lowering

end TreeCode
