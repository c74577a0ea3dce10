import TreeCode.Proofs.Lowering.Isolation

/-!
Every form of the source language keeps functions apart when it is lowered, provided that every
use of a variable in it is safe. The proof goes along the recursion of lowering; `old` are the
temporaries that hold the variables of the current level.
-/

namespace TreeCode.Lowering

open Tree

variable {conv : Convention}

theorem mem_varsIn_of_meaning {scopes : List (List (String × Meaning))} {name : String}
    {level : Level} {access : Access}
    (meaning : meaningIn scopes name = some (.variable level access)) :
    (name, level, access) ∈ varsIn scopes := by
  rw [meaningIn_eq_lookup] at meaning
  exact List.mem_of_find?_eq_some (find_asVariable meaning)

/-- A safe use reads a temporary of the level itself, or none but the frame pointer. -/
theorem separates_use {old : List Temp} {level : Level} {s s' : Lowering}
    {name : String} {pos : Source.Pos} {tree : Exp} (home : Home conv old level s)
    (safe : SafeUse conv level name s)
    (ran : lowerVar conv level (.simple name pos) s = .ok tree s') :
    Separates conv old s s' tree.temps := by
  obtain ⟨declared, access, fp, meaning, climbed, rfl, rfl⟩ := lowerVar_simple.mp ran
  obtain ⟨_, _, again, own⟩ := safe
  cases meaning.symm.trans again
  have pointer : fp.temps = [conv.framePointer] := (linked_of_climb home.sound.links climbed).temps
  refine separates_here fun x member => ?_
  rcases mem_access member with rfl | inPointer
  · rcases own with rfl | ⟨_, _, same, _⟩
    · exact .inr (home.homes name x (mem_varsIn_of_meaning meaning))
    · cases same
  · rw [pointer] at inPointer
    rw [List.mem_singleton.mp inPointer]
    exact .inl home.sound.closed.framePointer

/-- A call uses what its arguments use, and registers to reach the frame of the callee. -/
theorem mem_call {level : Level} {s s' : Lowering} {func : String} {pos : Source.Pos}
    {callee : Callee} {values : List Exp} {x : Temp} (sound : Sound conv s)
    (resolved : resolveCallee conv level func pos s = .ok callee s')
    (member : x ∈ (callee.call values).temps) : x ∈ conv.machine ∨ x ∈ Exp.listTemps values := by
  obtain ⟨-, ⟨_, label, home, _, fp, _, _, _, climbed, rfl⟩ | ⟨_, _, rfl⟩⟩ :=
    resolveCallee_ok resolved
  · have pointer : fp.temps = [conv.framePointer] := (linked_of_climb sound.links climbed).temps
    change x ∈ (Exp.linkedCall label fp values).temps at member
    rw [Exp.temps_linkedCall, pointer] at member
    rcases List.mem_append.mp member with inPointer | inside
    · rw [List.mem_singleton.mp inPointer]
      exact .inl sound.closed.framePointer
    · exact .inr inside
  · exact .inr member

/-- A new variable is in a temporary that no function has used so far. -/
theorem separates_allocate (conv : Convention) (old : List Temp) {level : Level}
    {s s' : Lowering} {escapes : Bool} {access : Access}
    (ran : allocateVariable level escapes s = .ok access s') :
    Separates conv old s s' access.temps ∧ level < s'.levels.length := by
  obtain ⟨info, known, rfl, rfl⟩ := allocateVariable_ok.mp ran
  have grown := Frame.grows_allocate info.frame escapes s.supply
  refine ⟨⟨[], (List.append_nil _).symm, isolated_fresh grown.1 ?_⟩, ?_⟩
  · intro x member
    exact .inr (.inr (Frame.fresh_allocate (Access.mem_temps.mp member)))
  · change level < (s.levels.set level _).length
    rw [List.length_set]
    exact (List.getElem?_eq_some_iff.mp known).1

theorem separates_freshTemp {old : List Temp} {s : Lowering} (below : Below s.supply.temps old) :
    Separates conv old s (s.draw freshTemp) [s.nextTemp] := by
  refine separates_nil.draw below grows_freshTemp fun x member => ?_
  rw [List.mem_singleton.mp member]
  exact .inr (.inr (.inr ⟨Nat.le_refl _, Nat.lt_succ_self _⟩))

/-- The limit of a loop is kept in a temporary of its own. -/
theorem separates_looped {old : List Temp} {s : Lowering} (below : Below s.supply.temps old) :
    Separates conv old s s.looped [s.nextTemp] :=
  (((separates_freshTemp below).label below).label below).label below

/-- The branches of a conditional are joined without further temporaries, but for the one of its
value. -/
theorem separates_joinBranches {old : List Temp} {s t s' : Lowering} {test yes no out : Lowered}
    {yesLabel noLabel join : Label} (below : Below s.supply.temps old)
    (separates : Separates conv old s t (test.temps ++ (yes.temps ++ no.temps)))
    (ran : joinBranches test yes no yesLabel noLabel join t = .ok out s') :
    Separates conv old s s' out.temps := by
  rcases joinBranches_ok ran with
    ⟨yesStm, noStm, branch, rfl, rfl, branched, rfl, rfl⟩ |
      ⟨u, branch, rfl, _, branched, rfl, rfl⟩
  · refine separates.subset below fun x member => ?_
    rcases List.mem_append.mp (mem_alternative member) with inTest | inside
    · exact List.mem_append_left _ (mem_asBranch branched inTest)
    · exact List.mem_append_right _ inside
  · -- First the result is given a temporary, then each branch is brought into the form of a value.
    have first : Separates conv old s (t.draw freshTemp)
        ([t.nextTemp] ++ (test.temps ++ (yes.temps ++ no.temps))) := by
      refine separates.draw below grows_freshTemp fun x member => ?_
      rcases List.mem_append.mp member with new | made
      · rw [List.mem_singleton.mp new]
        exact .inr (.inr (.inr ⟨Nat.le_refl _, Nat.lt_succ_self _⟩))
      · exact .inr (.inr (.inl made))
    let u := t.draw freshTemp
    have second : Separates conv old s (u.draw yes.asValue)
        ([t.nextTemp] ++ (test.temps ++ ((yes.asValue u.supply).1.temps ++ no.temps))) := by
      refine first.draw below (grows_asValue yes) fun x member => ?_
      simp only [List.mem_append] at member ⊢
      rcases member with new | inTest | inYes | inNo
      · exact .inr (.inr (.inl (.inl new)))
      · exact .inr (.inr (.inl (.inr (.inl inTest))))
      · rcases mem_asValue inYes with made | between
        · exact .inr (.inr (.inl (.inr (.inr (.inl made)))))
        · exact .inr (.inr (.inr between))
      · exact .inr (.inr (.inl (.inr (.inr (.inr inNo)))))
    refine second.draw below (grows_asValue no) fun x member => ?_
    simp only [Lowered.temps, Exp.temps, List.mem_append, List.mem_singleton] at member ⊢
    rcases member with inside | new
    · have parts := mem_alternative inside
      simp only [Stm.temps, Exp.temps, List.mem_append, List.mem_singleton] at parts
      rcases parts with inTest | (new | inYes) | (new | inNo)
      · exact .inr (.inr (.inl (.inr (.inl (mem_asBranch branched inTest)))))
      · exact .inr (.inr (.inl (.inl new)))
      · exact .inr (.inr (.inl (.inr (.inr (.inl inYes)))))
      · exact .inr (.inr (.inl (.inl new)))
      · rcases mem_asValue inNo with made | between
        · exact .inr (.inr (.inl (.inr (.inr (.inr made)))))
        · exact .inr (.inr (.inr between))
    · exact .inr (.inr (.inl (.inl new)))

/-- The functions of a group are declared and lowered. -/
theorem Finishes.separates {old : List Temp} {pools : List (List Temp)} {s t u : Lowering}
    (finishes : Finishes conv pools t u) (same : t.fragments = s.fragments)
    (up : s.supply.temps ≤ t.supply.temps)
    (between : ∀ pool ∈ pools, ∀ x ∈ pool, x.Between s.supply.temps t.supply.temps) :
    Separates conv old s u [] := by
  obtain ⟨added, grown, le, separate, origin⟩ := finishes
  refine ⟨added, by rw [grown, same], Nat.le_trans up le, by simp, ?_, ?_, separate⟩
  rotate_left
  · intro temps _ x member
    cases member
  intro temps other x member
  rcases origin temps other x member with register | ⟨pool, among, pooled⟩ | later
  · exact .inl register
  · exact .inr ((between pool among x pooled).widen (Nat.le_refl _) le)
  · exact .inr (later.widen up (Nat.le_refl _))

mutual
/-- A variable is lowered to code that keeps functions apart, if all uses in it are safe. -/
theorem lowerVar_separates {old : List Temp} {level : Level} {s s' : Lowering} {tree : Exp}
    (home : Home conv old level s) :
    ∀ var : Source.Var, (requiring (SafeUse conv)).visitVar conv level var s →
      lowerVar conv level var s = .ok tree s' → Separates conv old s s' tree.temps
  | .simple name pos, uses, ran => by
    unfold Visitor.visitVar at uses
    exact separates_use home uses ran
  | .field record name slot pos, uses, ran => by
    unfold Visitor.visitVar at uses
    obtain ⟨index, base, _, inner, rfl⟩ := lowerVar_field ran
    refine (lowerVar_separates home record uses inner).subset home.below fun x member => ?_
    simpa [Exp.temps] using member
  | .subscript array index, uses, ran => by
    unfold Visitor.visitVar at uses
    obtain ⟨base, t, offset, first, second, rfl⟩ := lowerVar_subscript ran
    obtain ⟨lowered, u, inner, rfl, rfl⟩ := lowerValue_ok.mp second
    have home' := home.extend ((lowerVar_extends level array).ok first)
    have array' := lowerVar_separates home array uses.1 first
    have index' := lowerExp_separates home' index ((later_iff first).mp uses.2) inner
    refine (array'.both (index'.asValue home'.below) home.below).subset home.below
      fun x member => ?_
    simpa [Exp.temps] using member
/-- Lowering an expression keeps functions apart if all uses of variables in it are safe: its code
has registers, temporaries that hold variables of the level, and new ones, and the fragments that
are finished on the way share no temporary with it or among each other. The induction is on the
expression, along with its parts; what one part issues is out of reach for the next one, since
temporaries are numbered in the order of issue. -/
theorem lowerExp_separates {old : List Temp} {level : Level} {s s' : Lowering} {out : Lowered}
    (home : Home conv old level s) :
    ∀ exp : Source.Exp, (requiring (SafeUse conv)).visit conv level exp s →
      lowerExp conv level exp s = .ok out s' → Separates conv old s s' out.temps
  | .nil, _, ran => by
    obtain ⟨rfl, rfl⟩ := lowerExp_nil ran
    exact separates_nil
  | .int value, _, ran => by
    obtain ⟨rfl, rfl⟩ := lowerExp_int ran
    exact separates_nil
  | .string text, _, ran => by
    obtain ⟨rfl, rfl⟩ := lowerExp_string ran
    exact ⟨[.string s.nextLabel text], rfl,
      isolated_fresh (Nat.le_refl _) (by intro x member; cases member)⟩
  | .breakLoop pos, _, ran => by
    obtain ⟨exit, _, rfl, rfl⟩ := lowerExp_breakLoop ran
    exact separates_nil
  | .var var, uses, ran => by
    unfold Visitor.visit at uses
    obtain ⟨tree, inner, rfl⟩ := lowerExp_var ran
    exact lowerVar_separates home var uses inner
  | .call func args pos, uses, ran => by
    unfold Visitor.visit at uses
    obtain ⟨callee, values, resolved, inner, rfl⟩ := lowerExp_call ran
    refine (lowerArgs_separates home args uses inner).cover home.below fun x member => ?_
    exact (mem_call home.sound resolved member).imp id .inr
  | .op oper left right strings, uses, ran => by
    unfold Visitor.visit at uses
    obtain ⟨a, t, b, first, second, rfl⟩ := lowerExp_op ran
    obtain ⟨_, _, leftRan, rfl, rfl⟩ := lowerValue_ok.mp first
    obtain ⟨_, _, rightRan, rfl, rfl⟩ := lowerValue_ok.mp second
    have home' := home.extend ((lowerValue_extends level left).ok first)
    have left' := (lowerExp_separates home left uses.1 leftRan).asValue home.below
    have right' := (lowerExp_separates home' right ((later_iff first).mp uses.2) rightRan).asValue
      home'.below
    exact (left'.both right' home.below).subset home.below fun x member => mem_operation member
  | .record type fields, uses, ran => by
    unfold Visitor.visit at uses
    obtain ⟨stores, inner, rfl⟩ := lowerExp_record ran
    have fresh : Separates conv old s (s.draw freshTemp) [s.nextTemp] :=
      separates_freshTemp home.below
    have home' := home.draw grows_freshTemp
    have inside := home'.more (fresh.issued home')
    have fields' := lowerFields_separates inside
      (List.mem_append_right old (List.mem_singleton_self _)) fields uses inner
    refine (fresh.trans fields' home.below).subset home.below fun x member => ?_
    rcases mem_recordTree member with rfl | stored
    · exact List.mem_append_left _ (List.mem_singleton_self _)
    · exact List.mem_append_right _ stored
  | .seq exps, uses, ran => by
    unfold Visitor.visit at uses
    obtain ⟨stms, last, t, inner, rfl, rfl⟩ := lowerExp_seq ran
    refine (lowerSeq_separates home exps uses inner).draw home.below (grows_after stms last)
      fun x member => ?_
    rcases mem_after member with early | late | between
    · exact .inr (.inr (.inl (List.mem_append_left _ early)))
    · exact .inr (.inr (.inl (List.mem_append_right _ late)))
    · exact .inr (.inr (.inr between))
  | .assign var value, uses, ran => by
    unfold Visitor.visit at uses
    obtain ⟨dst, t, src, first, second, rfl⟩ := lowerExp_assign ran
    obtain ⟨_, _, inner, rfl, rfl⟩ := lowerValue_ok.mp second
    have home' := home.extend ((lowerVar_extends level var).ok first)
    have var' := lowerVar_separates home var uses.1 first
    have value' := lowerExp_separates home' value ((later_iff first).mp uses.2) inner
    exact var'.both (value'.asValue home'.below) home.below
  | .ifThen test yes, uses, ran => by
    unfold Visitor.visit at uses
    obtain ⟨a, t, b, u, branch, first, second, branched, rfl, rfl⟩ := lowerExp_ifThen ran
    have home' := home.extend ((lowerExp_extends level test).ok first)
    have test' := lowerExp_separates home test uses.1 first
    have yes' := lowerExp_separates home' yes ((later_iff first).mp uses.2) second
    refine (((test'.both yes' home.below).label home.below).label home.below).draw home.below
      (grows_asEffect b) fun x member => .inr (.inr (.inl ?_))
    rcases List.mem_append.mp (mem_conditional member) with inTest | inYes
    · exact List.mem_append_left _ (mem_asBranch branched inTest)
    · exact List.mem_append_right _ (mem_asEffect inYes)
  | .ifElse test yes no, uses, ran => by
    unfold Visitor.visit at uses
    obtain ⟨a, t, b, u, c, v, first, second, third, joined⟩ := lowerExp_ifElse ran
    have homeYes := home.extend ((lowerExp_extends level test).ok first)
    have homeNo := (homeYes.extend ((lowerExp_extends level yes).ok second)).label.label
    have usesYes := (later_iff first).mp uses.2
    have test' := lowerExp_separates home test uses.1 first
    have yes' := (((lowerExp_separates homeYes yes usesYes.1 second).label
      homeYes.below).label homeYes.below)
    have no' := lowerExp_separates homeNo no ((later_iff second).mp usesYes.2) third
    have all := test'.both (yes'.both no' homeYes.below) home.below
    exact separates_joinBranches home.below (all.label home.below) joined
  | .whileDo test body, uses, ran => by
    unfold Visitor.visit at uses
    obtain ⟨a, t, b, u, branch, first, second, branched, rfl, rfl⟩ := lowerExp_whileDo ran
    obtain ⟨_, inner, rfl⟩ := inLoop_ok.mp second
    have labelled : Separates conv old s s.label.label.label [] :=
      ((separates_nil.label home.below).label home.below).label home.below
    have homeTest := home.label.label.label
    have homeBody := homeTest.extend ((lowerExp_extends level test).ok first)
    have test' := lowerExp_separates homeTest test uses.1 first
    have body' := lowerExp_separates (homeBody.withExits _) body ((later_iff first).mp uses.2) inner
    have both : Separates conv old s _ (a.temps ++ b.temps) :=
      labelled.both (test'.both body' homeTest.below) home.below
    refine both.draw home.below (grows_asEffect b) fun x member => .inr (.inr (.inl ?_))
    rcases List.mem_append.mp (mem_whileLoop member) with inTest | inBody
    · exact List.mem_append_left _ (mem_asBranch branched inTest)
    · exact List.mem_append_right _ (mem_asEffect inBody)
  | .forTo var lo hi body, uses, ran => by
    unfold Visitor.visit at uses
    obtain ⟨a, t, b, u, access, v, c, _, _, first, second, stored, looped, rfl, rfl, rfl⟩ :=
      lowerExp_forTo ran
    obtain ⟨_, _, loRan, rfl, rfl⟩ := lowerValue_ok.mp first
    obtain ⟨_, _, hiRan, rfl, rfl⟩ := lowerValue_ok.mp second
    obtain ⟨_, bodyRan, rfl⟩ := inLoop_ok.mp looped
    have usesHi := (later_iff first).mp uses.2
    obtain ⟨_, usesBody⟩ := (later_iff stored).mp ((later_iff second).mp usesHi.2)
    have homeHi := home.extend ((lowerValue_extends level lo).ok first)
    have homeVar := homeHi.extend ((lowerValue_extends level hi).ok second)
    have homeLoop := homeVar.extend ((extending_allocateVariable level _).ok stored)
    have lo' := (lowerExp_separates home lo uses.1 loRan).asValue home.below
    have hi' := (lowerExp_separates homeHi hi usesHi.1 hiRan).asValue homeHi.below
    obtain ⟨access', here⟩ := separates_allocate conv old stored
    -- The variable and the limit belong to the level and are old for the body.
    have limit : Separates conv old v v.looped [v.nextTemp] := separates_looped homeLoop.below
    have storage := access'.both limit homeVar.below
    have homeLabels := (homeLoop.draw grows_freshTemp).label.label.label
    have homeBody := ((homeLabels.more (storage.issued homeLabels)).enter.bind var.name here
      fun x member => List.mem_append_right _ (List.mem_append_left _ member)).withExits
      ((v.draw freshTemp).label.label.nextLabel :: v.exits)
    have body' := lowerExp_separates homeBody body usesBody bodyRan
    have all := (lo'.both hi' home.below).both (storage.trans body' homeVar.below) home.below
    refine all.draw home.below (grows_asEffect c) fun x member => ?_
    simp only [List.mem_append]
    rcases mem_countingLoop member with inVar | inLimit | inLo | inHi | inBody
    · rcases mem_access inVar with same | inPointer
      · exact .inr (.inr (.inl (.inr (.inl (.inl (Access.mem_temps.mpr same))))))
      · rw [List.mem_singleton.mp inPointer]
        exact .inl home.sound.closed.framePointer
    · exact .inr (.inr (.inl (.inr (.inl (.inr inLimit)))))
    · exact .inr (.inr (.inl (.inl (.inl inLo))))
    · exact .inr (.inr (.inl (.inl (.inr inHi))))
    · exact .inr (.inr (.inl (.inr (.inr (mem_asEffect inBody)))))
  | .letIn decs body, uses, ran => by
    unfold Visitor.visit at uses
    obtain ⟨stms, t, b, u, first, second, rfl, rfl⟩ := lowerExp_letIn ran
    obtain ⟨own, decs', covered, home'⟩ := lowerDecs_separates home.enter decs uses.1 first
    have body' := lowerExp_separates home' body ((later_iff first).mp uses.2) second
    have both : Separates conv old s u (own ++ b.temps) := decs'.trans body' home.below
    refine both.draw home.below (grows_after stms b) fun x member => ?_
    rcases mem_after member with early | late | between
    · rcases covered x early with register | made
      · exact .inl register
      · exact .inr (.inr (.inl (List.mem_append_left _ made)))
    · exact .inr (.inr (.inl (List.mem_append_right _ late)))
    · exact .inr (.inr (.inr between))
  | .array type size init, uses, ran => by
    unfold Visitor.visit at uses
    obtain ⟨a, t, b, first, second, rfl⟩ := lowerExp_array ran
    obtain ⟨_, _, sizeRan, rfl, rfl⟩ := lowerValue_ok.mp first
    obtain ⟨_, _, initRan, rfl, rfl⟩ := lowerValue_ok.mp second
    have home' := home.extend ((lowerValue_extends level size).ok first)
    have size' := (lowerExp_separates home size uses.1 sizeRan).asValue home.below
    have init' := (lowerExp_separates home' init ((later_iff first).mp uses.2) initRan).asValue
      home'.below
    refine (size'.both init' home.below).subset home.below fun x member => ?_
    simpa [Lowered.temps, Exp.listTemps] using member
/-- The arguments of a call, in order. -/
theorem lowerArgs_separates {old : List Temp} {level : Level} {s s' : Lowering}
    {values : List Exp} (home : Home conv old level s) :
    ∀ args : List Source.Exp, (requiring (SafeUse conv)).visitArgs conv level args s →
      lowerArgs conv level args s = .ok values s' →
      Separates conv old s s' (Exp.listTemps values)
  | [], _, ran => by
    obtain ⟨rfl, rfl⟩ := lowerArgs_nil ran
    exact separates_nil
  | arg :: args, uses, ran => by
    unfold Visitor.visitArgs at uses
    obtain ⟨value, t, rest, first, second, rfl⟩ := lowerArgs_cons ran
    obtain ⟨_, _, argRan, rfl, rfl⟩ := lowerValue_ok.mp first
    have home' := home.extend ((lowerValue_extends level arg).ok first)
    have arg' := (lowerExp_separates home arg uses.1 argRan).asValue home.below
    exact arg'.both (lowerArgs_separates home' args ((later_iff first).mp uses.2) second) home.below
/-- The stores of record fields also use the temporary `r` of the record. -/
theorem lowerFields_separates {old : List Temp} {level : Level} {s s' : Lowering} {r : Temp}
    {slot : Nat} {stores : List Stm} (home : Home conv old level s) (known : r ∈ old) :
    ∀ fields : List Source.Field, (requiring (SafeUse conv)).visitFields conv level fields s →
      lowerFields conv level r slot fields s = .ok stores s' →
      Separates conv old s s' (Stm.listTemps stores)
  | [], _, ran => by
    obtain ⟨rfl, rfl⟩ := lowerFields_nil ran
    exact separates_nil
  | ⟨name, exp⟩ :: fields, uses, ran => by
    unfold Visitor.visitFields at uses
    obtain ⟨value, t, rest, first, second, rfl⟩ := lowerFields_cons ran
    obtain ⟨_, _, expRan, rfl, rfl⟩ := lowerValue_ok.mp first
    have home' := home.extend ((lowerValue_extends level exp).ok first)
    have exp' := (lowerExp_separates home exp uses.1 expRan).asValue home.below
    have fields' := lowerFields_separates home' known fields ((later_iff first).mp uses.2) second
    refine (exp'.both fields' home.below).cover home.below fun x member => ?_
    simp only [Stm.listTemps, List.flatMap_cons, Stm.temps, Exp.temps, List.append_nil,
      List.mem_append, List.mem_singleton] at member ⊢
    rcases member with (rfl | inValue) | inRest
    · exact .inr (.inl known)
    · exact .inr (.inr (.inl inValue))
    · exact .inr (.inr (.inr inRest))
/-- The parts of a sequence, in order. -/
theorem lowerSeq_separates {old : List Temp} {level : Level} {s s' : Lowering} {stms : List Stm}
    {last : Lowered} (home : Home conv old level s) :
    ∀ exps : List Source.Exp, (requiring (SafeUse conv)).visitSeq conv level exps s →
      lowerSeq conv level exps s = .ok (stms, last) s' →
      Separates conv old s s' (Stm.listTemps stms ++ last.temps)
  | [], _, ran => by
    obtain ⟨same, rfl⟩ := lowerSeq_nil ran
    cases same
    exact separates_nil
  | [exp], uses, ran => by
    unfold Visitor.visitSeq at uses
    obtain ⟨_, inner, same⟩ := lowerSeq_single ran
    cases same
    exact lowerExp_separates home exp uses.1 inner
  | exp :: next :: exps, uses, ran => by
    unfold Visitor.visitSeq at uses
    obtain ⟨stm, t, rest, _, first, second, same⟩ := lowerSeq_cons ran
    cases same
    obtain ⟨_, _, expRan, rfl, rfl⟩ := lowerEffect_ok.mp first
    have home' := home.extend ((lowerEffect_extends level exp).ok first)
    have exp' := (lowerExp_separates home exp uses.1 expRan).asEffect home.below
    have exps' := lowerSeq_separates home' (next :: exps) ((later_iff first).mp uses.2) second
    refine (exp'.both exps' home.below).subset home.below fun x member => ?_
    simpa [Stm.listTemps, List.append_assoc] using member
/-- Declarations add the temporaries of their variables to those that the level has. -/
theorem lowerDecs_separates {old : List Temp} {level : Level} {s s' : Lowering} {stms : List Stm}
    (home : Home conv old level s) :
    ∀ decs : List Source.Dec, (requiring (SafeUse conv)).visitDecs conv level decs s →
      lowerDecs conv level decs s = .ok stms s' →
      ∃ own, Separates conv old s s' own ∧
        (∀ x ∈ Stm.listTemps stms, x ∈ conv.machine ∨ x ∈ own) ∧ Home conv (old ++ own) level s'
  | [], _, ran => by
    obtain ⟨rfl, rfl⟩ := lowerDecs_nil ran
    exact ⟨[], separates_nil, by simp [Stm.listTemps], home.more (below_nil _)⟩
  | .var var init :: decs, uses, ran => by
    unfold Visitor.visitDecs at uses
    obtain ⟨value, t, access, u, rest, first, stored, second, rfl⟩ := lowerDecs_var ran
    obtain ⟨_, _, initRan, rfl, rfl⟩ := lowerValue_ok.mp first
    obtain ⟨_, usesDecs⟩ := (later_iff stored).mp ((later_iff first).mp uses.2)
    have homeVar := home.extend ((lowerValue_extends level init).ok first)
    have homeThere := homeVar.extend ((extending_allocateVariable level _).ok stored)
    have init' := (lowerExp_separates home init uses.1 initRan).asValue home.below
    obtain ⟨access', here⟩ := separates_allocate conv old stored
    have both := init'.both access' home.below
    have homeDecs := (homeThere.more (both.issued homeThere)).bind var.name here
      fun x member => List.mem_append_right _ (List.mem_append_right _ member)
    obtain ⟨own, decs', covered, home'⟩ := lowerDecs_separates homeDecs decs usesDecs second
    refine ⟨_, both.trans decs' home.below, ?_, by rw [← List.append_assoc]; exact home'⟩
    intro x member
    simp only [Stm.listTemps, List.flatMap_cons, Stm.temps, List.mem_append] at member ⊢
    rcases member with (inVar | inValue) | inRest
    · rcases mem_access inVar with same | inPointer
      · exact .inr (.inl (.inr (Access.mem_temps.mpr same)))
      · rw [List.mem_singleton.mp inPointer]
        exact .inl home.sound.closed.framePointer
    · exact .inr (.inl (.inl inValue))
    · exact (covered x inRest).imp id .inr
  | .type name definition :: decs, uses, ran => by
    unfold Visitor.visitDecs at uses
    exact lowerDecs_separates home decs uses (lowerDecs_type ran)
  | .functions group :: decs, uses, ran => by
    unfold Visitor.visitDecs at uses
    obtain ⟨levels, t, u, declared, bodies, rest⟩ := lowerDecs_functions ran
    obtain ⟨usesBodies, usesDecs⟩ := (later_iff declared).mp uses
    obtain ⟨sameFragments, vars, pools, grouped, between⟩ :=
      declareFunctions_grouped group home.sound declared
    have declaring : ExtendsInner conv s t :=
      (extendingInner_declareFunctions level group).ok declared
    have up := declaring.steps.supply_le.1
    have bodies' := lowerBodies_separates grouped group usesBodies bodies
    have homeBodies : Home conv old level t :=
      ⟨by rw [vars]; exact home.homes,
        fun x member => Nat.lt_of_lt_of_le (home.below x member) up, grouped.sound⟩
    have homeDecs := homeBodies.extend ((lowerBodies_extends levels group).ok bodies)
    obtain ⟨own, decs', covered, home'⟩ :=
      lowerDecs_separates homeDecs decs ((later_iff bodies).mp usesDecs) rest
    exact ⟨own, (bodies'.separates sameFragments up between).both decs' home.below, covered, home'⟩
/-- Functions of a group are lowered with pools of temporaries that are apart from each other, and
so their bodies are. -/
theorem lowerBodies_separates {levels : List Level} {pools : List (List Temp)} {s s' : Lowering}
    (grouped : Grouped conv levels pools s) :
    ∀ group : List Source.FunDec, (requiring (SafeUse conv)).visitBodies conv levels group s →
      lowerBodies conv levels group s = .ok () s' → Finishes conv pools s s'
  | [], _, ran => by
    unfold lowerBodies at ran
    obtain ⟨-, rfl⟩ := pure_ok.mp ran
    exact finishes_refl conv pools s
  | ⟨name, params, result, body⟩ :: group, uses, ran => by
    obtain ⟨pooled, apart, below, foreign, sound⟩ := grouped
    cases pooled with
    | nil =>
      unfold lowerBodies at ran
      obtain ⟨-, rfl⟩ := pure_ok.mp ran
      exact finishes_refl conv [] s
    | cons first others =>
      rename_i own pool levels pools
      unfold Visitor.visitBodies at uses
      obtain ⟨info, t, lowered, u, _, w, known, named, inner, rfl, finish, rest⟩ :=
        lowerBodies_cons ran
      have formals := run_formalsOf known
      obtain ⟨_, usesBody, usesRest⟩ :=
        (later_iff named).mp ((later_iff formals).mp uses)
      have usesGroup := (later_iff finish).mp
        ((later_iff (run_fresh _ _)).mp ((later_iff inner).mp usesRest))
      have making := extends_body result named inner
      have finishing := making.trans ((extending_finishProc own _).ok finish)
      obtain ⟨w', bodyRan, rfl⟩ := outsideLoops_ok.mp inner
      have homeBody := home_params sound first (below pool List.mem_cons_self)
        (foreign own List.mem_cons_self) known named
      have body' := lowerExp_separates (homeBody.withExits []) body usesBody bodyRan
      obtain ⟨sameSupply, -, sameFragments⟩ := bindParams_same params _ named
      have inside : Separates conv pool s (w'.withExits t.exits).leave lowered.temps := by
        obtain ⟨added, grown, isolated⟩ := body'
        refine ⟨added, grown.trans (congrArg (· ++ added) sameFragments), ?_⟩
        change Isolated _ _ t.supply.temps _ _ _ at isolated
        rw [sameSupply] at isolated
        exact isolated
      have issued := below pool List.mem_cons_self
      have made := inside.draw issued (grows_bodyStm conv result lowered) fun x member => by
        rcases mem_bodyStm member with rfl | inBody | between
        · exact .inl sound.closed.returnValue
        · exact .inr (.inr (.inl inBody))
        · exact .inr (.inr (.inr between))
      have one := made.finish (first.steps making.steps) sound.closed issued finish
      have grouped' : Grouped conv levels pools s :=
        ⟨others, (List.pairwise_cons.mp apart).2,
          fun pool' member => below pool' (List.mem_cons_of_mem pool member),
          fun level member => foreign level (List.mem_cons_of_mem own member), sound⟩
      have more := lowerBodies_separates (grouped'.extend finishing) group usesGroup rest
      refine one.trans more ?_ below
      intro pool' member
      rw [List.mem_singleton.mp member]
      exact (List.pairwise_cons.mp apart).1
end

end TreeCode.Lowering
