import TreeCode.Proofs.Lowering.Situation

/-!
Which programs are lowered. Lowering fails in the midst of its work, with scopes and loops as its
state has them at that moment; `Accepts` says that a computation succeeds exactly if some property
of the program text holds. Put together over all forms of the source language, a program is lowered
exactly if each of its places is fine on its own. And lowering never looks for a level that is not
there.
-/

namespace TreeCode.Lowering

variable {α β : Type} {conv : Convention} {level own : Level} {names : Source.Names}
  {looped : Bool} {s t : Lowering} {p q : Prop} {post : α → Prop} {done : β → Prop}

/-- A computation succeeds exactly if `fine` holds, and then with a result that meets `post`. It
does not fail for want of a level. -/
def Accepts (act : Lower α) (s : Lowering) (fine : Prop) (post : α → Prop) : Prop :=
  match act s with
  | .ok a _ => fine ∧ post a
  | .error error _ => ¬ fine ∧ ∀ level, error ≠ .unknownLevel level

section Rules

variable {act : Lower α} {next : α → Lower β} {a : α}

/-- A computation that succeeds accepts what is fine. -/
theorem accepts_ok (ran : act s = .ok a t) (fine : p) (met : post a) : Accepts act s p post := by
  unfold Accepts
  rw [ran]
  exact ⟨fine, met⟩

theorem accepts_pure (met : post a) : Accepts (pure a : Lower α) s True post :=
  accepts_ok (pure_ok.mpr ⟨rfl, rfl⟩) trivial met

/-- A computation that fails accepts nothing, and may complain about anything but a missing
level. -/
theorem accepts_throw {error : Error} (wrong : ¬ p)
    (other : ∀ level, error ≠ .unknownLevel level) :
    Accepts (throw error : Lower α) s p post :=
  ⟨wrong, other⟩

theorem Accepts.iff (accepts : Accepts act s p post) (same : p ↔ q) : Accepts act s q post := by
  rw [← propext same]
  exact accepts

/-- A computation succeeds exactly if what it accepts is fine. -/
theorem Accepts.ok_iff (accepts : Accepts act s p post) : (∃ a t, act s = .ok a t) ↔ p := by
  unfold Accepts at accepts
  cases ran : act s with
  | ok a t =>
    rw [ran] at accepts
    exact iff_of_true ⟨a, t, rfl⟩ accepts.1
  | error error t =>
    rw [ran] at accepts
    exact iff_of_false (by rintro ⟨_, _, ⟨⟩⟩) accepts.1

/-- A computation never misses a level. -/
theorem Accepts.known (accepts : Accepts act s p post) {error : Error}
    (failed : act s = .error error t) (level : Level) : error ≠ .unknownLevel level := by
  unfold Accepts at accepts
  rw [failed] at accepts
  exact accepts.2 level

/-- One part after another accepts what both of them accept. -/
theorem accepts_bind (first : Accepts act s p post)
    (rest : ∀ a t, act s = .ok a t → post a → Accepts (next a) t q done) :
    Accepts (act >>= next) s (p ∧ q) done := by
  unfold Accepts at first ⊢
  rw [run_bind]
  cases ran : act s with
  | error error t =>
    rw [ran] at first
    exact ⟨fun both => first.1 both.1, first.2⟩
  | ok a t =>
    rw [ran] at first
    exact (rest a t ran first.2).iff (by simp [first.1])

/-- A step that succeeds in any case. -/
theorem accepts_after (ran : act s = .ok a t) (rest : Accepts (next a) t q done) :
    Accepts (act >>= next) s q done := by
  unfold Accepts
  rw [run_bind, ran]
  exact rest

/-- A step that leaves the place in the program as it is. -/
theorem accepts_step (situated : Situated conv level names looped s)
    (extending : Extending conv act) (first : Accepts act s p post)
    (rest : ∀ a t, Situated conv level names looped t → post a → Accepts (next a) t q done) :
    Accepts (act >>= next) s (p ∧ q) done :=
  accepts_bind first fun a t ran => rest a t (situated.ok extending ran)

theorem accepts_fresh {act : Fresh α} (situated : Situated conv level names looped s)
    (rest : ∀ a t, Situated conv level names looped t → Accepts (next a) t q done) :
    Accepts ((liftM act : Lower α) >>= next) s q done :=
  accepts_after (run_fresh act s) (rest _ _ (situated.draw act))

/-- The value of an accepted form can always be made. -/
theorem accepts_value {act : Lower Lowered} {post : Lowered → Prop} {next : Tree.Exp → Lower β}
    (situated : Situated conv level names looped s) (extending : Extending conv act)
    (first : Accepts act s p post)
    (rest : ∀ value t, Situated conv level names looped t → Accepts (next value) t q done) :
    Accepts (do next (← (← act).asValue)) s (p ∧ q) done :=
  accepts_step situated extending first fun _ _ there _ => accepts_fresh there rest

/-- The effect of an accepted form can always be made. -/
theorem accepts_effect {act : Lower Lowered} {post : Lowered → Prop} {next : Tree.Stm → Lower β}
    (situated : Situated conv level names looped s) (extending : Extending conv act)
    (first : Accepts act s p post)
    (rest : ∀ stm t, Situated conv level names looped t → Accepts (next stm) t q done) :
    Accepts (do next (← (← act).asEffect)) s (p ∧ q) done :=
  accepts_step situated extending first fun _ _ there _ => accepts_fresh there rest

/-- A computation that changes the state of another one at its end. -/
theorem accepts_restored {restore : Lowering → Lowering} (start : Lowering)
    (inner : Accepts act s p post) :
    Accepts (fun _ => match act s with
      | .ok value t => .ok value (restore t)
      | .error error t => .error error (restore t)) start p post := by
  unfold Accepts at inner ⊢
  cases ran : act s with
  | ok a t => rwa [ran] at inner
  | error error t => rwa [ran] at inner

theorem accepts_inScope (inner : Accepts act s.enter p post) : Accepts (inScope act) s p post :=
  accepts_restored s inner

theorem accepts_inLoop {exit : Label} (inner : Accepts act (s.withExits (exit :: s.exits)) p post) :
    Accepts (inLoop exit act) s p post :=
  accepts_restored s inner

theorem accepts_outsideLoops (inner : Accepts act (s.withExits []) p post) :
    Accepts (outsideLoops act) s p post :=
  accepts_restored s inner

end Rules

section Pieces

/-- Statements in front of a lowered form do not change whether it is an effect. -/
theorem isEffect_after (stms : List Tree.Stm) (lowered : Lowered) (supply : Supply) :
    (lowered.after stms supply).1.isEffect = lowered.isEffect := by
  cases stms with
  | nil => rfl
  | cons stm stms => cases lowered <;> rfl

/-- An operation always has a value. -/
theorem isEffect_operation (oper : Source.Oper) (strings : Bool) (left right : Tree.Exp) :
    (operation oper strings left right).isEffect = false := by
  unfold operation
  split
  next => rfl
  next => split <;> rfl

/-- A value can always be branched on. -/
theorem asBranch_value (exp : Tree.Exp) (yes no : Label) :
    ∃ branch, (Lowered.value exp).asBranch yes no = .ok branch := by
  unfold Lowered.asBranch
  split
  next same => cases same
  next => exact ⟨_, rfl⟩
  next => exact ⟨_, rfl⟩
  next => exact ⟨_, rfl⟩
  next same => cases same

/-- Code without a value is no condition, and everything else is one. -/
theorem accepts_asBranch {lowered : Lowered} {statement : Bool} {next : Tree.Stm → Lower β}
    {yes no : Label} (kind : lowered.isEffect = statement)
    (rest : ∀ branch, Accepts (next branch) s q done) :
    Accepts ((liftM (lowered.asBranch yes no) : Lower Tree.Stm) >>= next) s
      (statement = false ∧ q) done := by
  subst kind
  have converted : Accepts (liftM (lowered.asBranch yes no) : Lower Tree.Stm) s
      (lowered.isEffect = false) fun _ => True := by
    cases lowered with
    | effect stm => exact ⟨nofun, nofun⟩
    | test op left right => exact ⟨rfl, trivial⟩
    | value exp =>
      obtain ⟨branch, made⟩ := asBranch_value exp yes no
      exact accepts_ok (except_ok.mpr ⟨made, rfl⟩) rfl trivial
  refine accepts_bind converted fun branch t ran _ => ?_
  obtain ⟨-, rfl⟩ := except_ok.mp ran
  exact rest branch

/-- Two branches joined have a value unless both have none. -/
theorem accepts_joinBranches {test yes no : Lowered} {kind kindYes kindNo : Bool}
    {yesLabel noLabel join : Label} (situated : Situated conv level names looped s)
    (tested : test.isEffect = kind) (yesKind : yes.isEffect = kindYes)
    (noKind : no.isEffect = kindNo) :
    Accepts (joinBranches test yes no yesLabel noLabel join) s (kind = false)
      fun out => out.isEffect = (kindYes && kindNo) := by
  have valued : (kindYes && kindNo) = false →
      Accepts (do
        let r ← freshTemp
        let yes ← yes.asValue
        let no ← no.asValue
        let branch ← test.asBranch yesLabel noLabel
        return Lowered.value (.eseq
          (alternative branch (.move (.temp r) yes) (.move (.temp r) no) yesLabel noLabel join)
          (.temp r))) s (kind = false)
        fun out => out.isEffect = (kindYes && kindNo) := by
    intro value
    refine Accepts.iff (accepts_fresh situated fun _ _ there => accepts_fresh there
      fun _ _ there => accepts_fresh there fun _ _ _ => accepts_asBranch tested fun _ =>
        accepts_pure value.symm) ?_
    simp
  subst yesKind noKind
  unfold joinBranches
  split
  next =>
    refine Accepts.iff (accepts_asBranch tested fun _ => accepts_pure rfl) ?_
    simp
  next apart =>
    apply valued
    cases yes with
    | effect yesStm =>
      cases no with
      | effect noStm => exact absurd rfl (apart yesStm noStm rfl)
      | value => rfl
      | test => rfl
    | value => rfl
    | test => rfl

/-- A variable is accepted exactly if its name stands for a variable. -/
theorem accepts_variable (situated : Situated conv level names looped s) (name : String)
    (pos : Source.Pos) :
    Accepts (lowerVar conv level (.simple name pos)) s (names.lookup name = some .variable)
      fun _ => True := by
  unfold lowerVar
  rw [situated.lookup name]
  refine accepts_after (meaning_ok.mpr ⟨rfl, rfl⟩) ?_
  cases found : meaningIn s.scopes name with
  | none => exact accepts_throw nofun nofun
  | some meaning =>
    cases meaning with
    | function target label => exact accepts_throw nofun nofun
    | «variable» declared access =>
      have inside : Encloses s.levels declared level := situated.visible_of_lookup found
      refine accepts_after (situated.framePointerOf inside) ?_
      exact accepts_ok (pure_ok.mpr ⟨rfl, rfl⟩) rfl trivial

/-- A call is accepted exactly if its name stands for a function, or for nothing and is one of the
runtime library. -/
theorem accepts_callee (situated : Situated conv level names looped s) (func : String)
    (pos : Source.Pos) :
    Accepts (resolveCallee conv level func pos) s
      (names.lookup func = some .function ∨ names.lookup func = none ∧ func ∈ runtimeLibrary)
      fun _ => True := by
  unfold resolveCallee
  rw [situated.lookup func]
  refine accepts_after (meaning_ok.mpr ⟨rfl, rfl⟩) ?_
  cases found : meaningIn s.scopes func with
  | none =>
    by_cases runtime : runtimeLibrary.contains func = true
    · simp only [runtime, if_true]
      exact accepts_ok (pure_ok.mpr ⟨rfl, rfl⟩)
        (.inr ⟨rfl, List.contains_iff_mem.mp runtime⟩) trivial
    · simp only [runtime]
      refine accepts_throw ?_ nofun
      rintro (absent | ⟨-, member⟩)
      · cases absent
      · exact runtime (List.contains_iff_mem.mpr member)
  | some meaning =>
    cases meaning with
    | «variable» declared access =>
      refine accepts_throw ?_ nofun
      rintro (kind | ⟨absent, -⟩)
      · cases kind
      · cases absent
    | function target label =>
      obtain ⟨info, home, known, -, around, inside⟩ := situated.visible_of_lookup found
      have asked : parentOf target s = .ok (some home) s := by
        unfold parentOf
        rw [run_bind, run_levelInfo known, ← around]
        rfl
      refine accepts_after asked (accepts_after (situated.framePointerOf inside) ?_)
      exact accepts_ok (pure_ok.mpr ⟨rfl, rfl⟩) (.inl rfl) trivial

theorem accepts_allocateVariable {next : Access → Lower β}
    (situated : Situated conv level names looped s) (escapes : Bool)
    (rest : ∀ access t, Situated conv level names looped t → Accepts (next access) t q done) :
    Accepts (allocateVariable level escapes >>= next) s q done := by
  have ran := run_allocateVariable escapes (List.getElem?_eq_getElem situated.known)
  exact accepts_after ran (rest _ _ (situated.ok (extending_allocateVariable level escapes) ran))

/-- A function is accepted exactly if there is room for its stack-passed formals and the link. -/
theorem accepts_openLevel (situated : Situated conv level names looped s) (label : Label)
    (escapes : List Bool) :
    Accepts (openLevel conv level label escapes) s
      (1 + (escapes.length - conv.arguments.length) ≤ conv.outgoing) fun _ => True := by
  unfold openLevel
  refine accepts_after (run_levelInfo (List.getElem?_eq_getElem situated.known)) ?_
  unfold Accepts
  rw [run_bind, run_issue]
  by_cases crowded : conv.outgoing < 1 + (escapes.length - conv.arguments.length)
  · simp only [Convention.frameFor, crowded, if_true]
    exact ⟨Nat.not_le_of_lt crowded, nofun⟩
  · simp only [Convention.frameFor, crowded, if_false]
    exact ⟨Nat.le_of_not_lt crowded, trivial⟩

end Pieces

open Source (AllFine)

/-- A group of functions is accepted exactly if there is room for the formals of each of them. -/
theorem declareFunctions_accepts :
    ∀ (group : List Source.FunDec) {names : Source.Names} {s : Lowering},
      Situated conv level names looped s →
      Accepts (declareFunctions conv level group) s
        (AllFine conv (group.map fun f => .function f.params.length)) fun _ => True
  | [], _, _, _ => by
    unfold declareFunctions
    refine Accepts.iff (accepts_pure trivial) ?_
    simp
  | ⟨name, params, result, body⟩ :: group, _, s, situated => by
    unfold declareFunctions
    refine Accepts.iff (accepts_after (run_fresh (freshLabelFor name) s)
      (accepts_bind (accepts_openLevel (situated.draw _) _ _) fun own t ran _ =>
      have visible := (member_openLevel ⟨name, params, result, body⟩ ran).2
      have there := (situated.extend (extends_openLevel ran)).bind name visible
      accepts_after (run_bindName _ _ t)
        (accepts_bind (declareFunctions_accepts group there)
          fun _ _ _ _ => accepts_pure trivial))) ?_
    simp [Source.Site.Fine]

mutual
/-- A variable is accepted exactly if the sites in it are fine. -/
theorem lowerVar_accepts {level : Level} {names : Source.Names} {looped : Bool} {s : Lowering} :
    ∀ var : Source.Var, Situated conv level names looped s →
      Accepts (lowerVar conv level var) s (AllFine conv (var.sites names looped)) fun _ => True
  | .simple name pos, situated => by
    refine (accepts_variable situated name pos).iff ?_
    simp [Source.Var.sites, Source.Site.Fine]
  | .field record name none pos, _ => by
    unfold lowerVar
    refine accepts_throw ?_ nofun
    simp [Source.Var.sites, Source.Site.Fine]
  | .field record name (some slot) pos, situated => by
    unfold lowerVar
    refine Accepts.iff (accepts_bind (lowerVar_accepts record situated)
      fun _ _ _ _ => accepts_pure trivial) ?_
    simp [Source.Var.sites, Source.Site.Fine]
  | .subscript array index, situated => by
    unfold lowerVar
    refine Accepts.iff (accepts_step situated (lowerVar_extends level array)
      (lowerVar_accepts array situated) fun _ _ there _ =>
      accepts_value there (lowerExp_extends level index) (lowerExp_accepts index there)
        fun _ _ _ => accepts_pure trivial) ?_
    simp [Source.Var.sites]
/-- An expression is lowered exactly if all places in it are fine. -/
theorem lowerExp_accepts {level : Level} {names : Source.Names} {looped : Bool} {s : Lowering} :
    ∀ exp : Source.Exp, Situated conv level names looped s →
      Accepts (lowerExp conv level exp) s (AllFine conv (exp.sites names looped))
        fun out => out.isEffect = exp.isStatement
  | .nil, _ => by
    unfold lowerExp
    refine Accepts.iff (accepts_pure rfl) ?_
    simp [Source.Exp.sites]
  | .int value, _ => by
    unfold lowerExp
    refine Accepts.iff (accepts_pure rfl) ?_
    simp [Source.Exp.sites]
  | .string text, situated => by
    unfold lowerExp
    refine Accepts.iff (accepts_fresh situated fun label t _ =>
      accepts_after (t := { t with fragments := t.fragments ++ [.string label text] }) rfl
        (accepts_pure rfl)) ?_
    simp [Source.Exp.sites]
  | .var var, situated => by
    unfold lowerExp
    refine Accepts.iff (accepts_bind (lowerVar_accepts var situated)
      fun _ _ _ _ => accepts_pure rfl) ?_
    simp [Source.Exp.sites]
  | .call func args pos, situated => by
    unfold lowerExp
    refine Accepts.iff (accepts_step situated (extending_resolveCallee level func pos)
      (accepts_callee situated func pos) fun _ _ there _ =>
      accepts_bind (lowerArgs_accepts args there) fun _ _ _ _ => accepts_pure rfl) ?_
    simp [Source.Exp.sites, Source.Site.Fine]
  | .op oper left right strings, situated => by
    unfold lowerExp
    refine Accepts.iff (accepts_value situated (lowerExp_extends level left)
      (lowerExp_accepts left situated) fun _ _ there =>
      accepts_value there (lowerExp_extends level right) (lowerExp_accepts right there)
        fun _ _ _ => accepts_pure (isEffect_operation _ _ _ _)) ?_
    simp [Source.Exp.sites]
  | .record type fields, situated => by
    unfold lowerExp
    refine Accepts.iff (accepts_fresh situated fun _ _ there =>
      accepts_bind (lowerFields_accepts fields there) fun _ _ _ _ => accepts_pure rfl) ?_
    simp [Source.Exp.sites]
  | .seq exps, situated => by
    unfold lowerExp
    refine Accepts.iff (accepts_bind (lowerSeq_accepts exps situated) fun (stms, last) t _ kind =>
      accepts_ok (run_fresh _ t) trivial ((isEffect_after stms last t.supply).trans kind)) ?_
    simp [Source.Exp.sites]
  | .assign var value, situated => by
    unfold lowerExp
    refine Accepts.iff (accepts_step situated (lowerVar_extends level var)
      (lowerVar_accepts var situated) fun _ _ there _ =>
      accepts_value there (lowerExp_extends level value) (lowerExp_accepts value there)
        fun _ _ _ => accepts_pure rfl) ?_
    simp [Source.Exp.sites]
  | .ifThen test yes, situated => by
    unfold lowerExp
    refine Accepts.iff (accepts_step situated (lowerExp_extends level test)
      (lowerExp_accepts test situated) fun _ _ there kind =>
      accepts_step there (lowerExp_extends level yes) (lowerExp_accepts yes there)
        fun _ _ there _ =>
      accepts_fresh there fun _ _ there =>
      accepts_fresh there fun _ _ there =>
      accepts_fresh there fun _ _ _ =>
      accepts_asBranch kind fun _ => accepts_pure rfl) ?_
    simp [Source.Exp.sites, Source.Site.Fine]
  | .ifElse test yes no, situated => by
    unfold lowerExp
    refine Accepts.iff (accepts_step situated (lowerExp_extends level test)
      (lowerExp_accepts test situated) fun _ _ there kind =>
      accepts_step there (lowerExp_extends level yes) (lowerExp_accepts yes there)
        fun _ _ there kindYes =>
      accepts_fresh there fun _ _ there =>
      accepts_fresh there fun _ _ there =>
      accepts_step there (lowerExp_extends level no) (lowerExp_accepts no there)
        fun _ _ there kindNo =>
      accepts_fresh there fun _ _ there => accepts_joinBranches there kind kindYes kindNo) ?_
    simp [Source.Exp.sites, Source.Site.Fine]
  | .whileDo test body, situated => by
    unfold lowerExp
    refine Accepts.iff (accepts_fresh situated fun _ _ there =>
      accepts_fresh there fun _ _ there =>
      accepts_fresh there fun exit _ there =>
      accepts_step there (lowerExp_extends level test) (lowerExp_accepts test there)
        fun _ _ there kind =>
      accepts_effect there (extending_inLoop exit (lowerExp_extends level body))
        (accepts_inLoop (lowerExp_accepts body (there.inLoop exit))) fun _ _ _ =>
      accepts_asBranch kind fun _ => accepts_pure rfl) ?_
    simp [Source.Exp.sites, Source.Site.Fine]
  | .forTo var lo hi body, situated => by
    unfold lowerExp
    refine Accepts.iff (accepts_value situated (lowerExp_extends level lo)
      (lowerExp_accepts lo situated) fun _ _ there =>
      accepts_value there (lowerExp_extends level hi) (lowerExp_accepts hi there) fun _ _ there =>
      accepts_allocateVariable there var.escapes fun access _ there =>
      accepts_fresh there fun _ _ there =>
      accepts_fresh there fun _ _ there =>
      accepts_fresh there fun _ _ there =>
      accepts_fresh there fun exit t there =>
      accepts_bind (accepts_inScope (accepts_after (run_bindName _ _ t.enter)
        (accepts_inLoop (lowerExp_accepts body
          ((there.enter.bindVariable var.name access).inLoop exit))))) fun _ u _ _ =>
      accepts_after (run_fresh _ u) (accepts_pure rfl)) ?_
    simp [Source.Exp.sites]
  | .breakLoop pos, situated => by
    unfold lowerExp
    refine accepts_after (loopExit_ok.mpr ⟨rfl, rfl⟩) ?_
    have loops := situated.loops
    cases exits : s.exits with
    | nil =>
      refine accepts_throw ?_ nofun
      simpa [Source.Exp.sites, Source.Site.Fine, exits] using loops
    | cons exit outer =>
      refine accepts_ok (pure_ok.mpr ⟨rfl, rfl⟩) ?_ rfl
      simpa [Source.Exp.sites, Source.Site.Fine, exits] using loops
  | .letIn decs body, situated => by
    unfold lowerExp
    refine Accepts.iff (accepts_inScope (accepts_bind (lowerDecs_accepts decs situated.enter)
      fun stms _ ran _ =>
      accepts_bind (lowerExp_accepts body (lowerDecs_situated decs situated.enter ran))
        fun b t _ kind =>
      accepts_ok (run_fresh _ t) trivial ((isEffect_after stms b t.supply).trans kind))) ?_
    simp [Source.Exp.sites]
  | .array type size init, situated => by
    unfold lowerExp
    refine Accepts.iff (accepts_value situated (lowerExp_extends level size)
      (lowerExp_accepts size situated) fun _ _ there =>
      accepts_value there (lowerExp_extends level init) (lowerExp_accepts init there)
        fun _ _ _ => accepts_pure rfl) ?_
    simp [Source.Exp.sites]
/-- The arguments of a call, in order. -/
theorem lowerArgs_accepts {level : Level} {names : Source.Names} {looped : Bool} {s : Lowering} :
    ∀ args : List Source.Exp, Situated conv level names looped s →
      Accepts (lowerArgs conv level args) s
        (AllFine conv (Source.Exp.sitesList names looped args)) fun _ => True
  | [], _ => by
    unfold lowerArgs
    refine Accepts.iff (accepts_pure trivial) ?_
    simp [Source.Exp.sitesList]
  | arg :: args, situated => by
    unfold lowerArgs
    refine Accepts.iff (accepts_value situated (lowerExp_extends level arg)
      (lowerExp_accepts arg situated) fun _ _ there =>
      accepts_bind (lowerArgs_accepts args there) fun _ _ _ _ => accepts_pure trivial) ?_
    simp [Source.Exp.sitesList]
/-- The values of record fields, in order. -/
theorem lowerFields_accepts {level : Level} {names : Source.Names} {looped : Bool} {s : Lowering}
    {r : Temp} {slot : Nat} :
    ∀ fields : List Source.Field, Situated conv level names looped s →
      Accepts (lowerFields conv level r slot fields) s
        (AllFine conv (Source.Field.sitesList names looped fields)) fun _ => True
  | [], _ => by
    unfold lowerFields
    refine Accepts.iff (accepts_pure trivial) ?_
    simp [Source.Field.sitesList]
  | ⟨name, value⟩ :: fields, situated => by
    unfold lowerFields
    refine Accepts.iff (accepts_value situated (lowerExp_extends level value)
      (lowerExp_accepts value situated) fun _ _ there =>
      accepts_bind (lowerFields_accepts fields there) fun _ _ _ _ => accepts_pure trivial) ?_
    simp [Source.Field.sitesList]
/-- The parts of a sequence; whether it ends in a statement can be read off the text. -/
theorem lowerSeq_accepts {level : Level} {names : Source.Names} {looped : Bool} {s : Lowering} :
    ∀ exps : List Source.Exp, Situated conv level names looped s →
      Accepts (lowerSeq conv level exps) s
        (AllFine conv (Source.Exp.sitesList names looped exps))
        fun out => out.2.isEffect = Source.Exp.endsInStatement exps
  | [], _ => by
    unfold lowerSeq
    refine Accepts.iff (accepts_pure rfl) ?_
    simp [Source.Exp.sitesList]
  | [last], situated => by
    unfold lowerSeq
    refine Accepts.iff (accepts_bind (lowerExp_accepts last situated)
      fun _ _ _ kind => accepts_pure kind) ?_
    simp [Source.Exp.sitesList]
  | exp :: next :: exps, situated => by
    unfold lowerSeq
    refine Accepts.iff (accepts_effect situated (lowerExp_extends level exp)
      (lowerExp_accepts exp situated) fun _ _ there =>
      accepts_bind (lowerSeq_accepts (next :: exps) there)
        fun _ _ _ kind => accepts_pure kind) ?_
    simp [Source.Exp.sitesList]
/-- Declarations, each in the scope of those before it. -/
theorem lowerDecs_accepts {level : Level} {names : Source.Names} {looped : Bool} {s : Lowering} :
    ∀ decs : List Source.Dec, Situated conv level names looped s →
      Accepts (lowerDecs conv level decs) s
        (AllFine conv (Source.Dec.sitesList names looped decs)) fun _ => True
  | [], _ => by
    unfold lowerDecs
    refine Accepts.iff (accepts_pure trivial) ?_
    simp [Source.Dec.sitesList]
  | .var binder init :: decs, situated => by
    unfold lowerDecs
    refine Accepts.iff (accepts_value situated (lowerExp_extends level init)
      (lowerExp_accepts init situated) fun _ _ there =>
      accepts_allocateVariable there binder.escapes fun access t there =>
      accepts_after (run_bindName _ _ t)
        (accepts_bind (lowerDecs_accepts decs (there.bindVariable binder.name access))
          fun _ _ _ _ => accepts_pure trivial)) ?_
    simp [Source.Dec.sitesList, Source.Dec.sites, Source.Dec.scope]
  | .type name definition :: decs, situated => by
    unfold lowerDecs
    refine (lowerDecs_accepts decs situated).iff ?_
    simp [Source.Dec.sitesList, Source.Dec.sites, Source.Dec.scope]
  | .functions group :: decs, situated => by
    unfold lowerDecs
    refine Accepts.iff (accepts_bind (declareFunctions_accepts group situated)
      fun levels _ ran _ =>
      have there := declareFunctions_situated group situated ran
      accepts_step there.1 (lowerBodies_extends levels group)
        (lowerBodies_accepts group there.1 there.2) fun _ _ there _ =>
      lowerDecs_accepts decs there) ?_
    simp [Source.Dec.sitesList, Source.Dec.sites, Source.Dec.scope]
/-- The bodies of functions, each in the scope of its parameters. -/
theorem lowerBodies_accepts {level : Level} {names : Source.Names} {looped : Bool}
    {levels : List Level} {s : Lowering} :
    ∀ group : List Source.FunDec, Situated conv level names looped s →
      List.Forall₂ (Member level s) levels group →
      Accepts (lowerBodies conv levels group) s
        (AllFine conv (Source.FunDec.sitesList names group)) fun _ => True
  | [], _, _ => by
    unfold lowerBodies
    refine Accepts.iff (accepts_pure trivial) ?_
    simp [Source.FunDec.sitesList]
  | ⟨name, params, result, body⟩ :: group, situated, .cons member members => by
    rename_i own levels
    obtain ⟨info, known, -, -⟩ := id member
    obtain ⟨inner, bound, there⟩ := situated.body member known
    have formals := run_formalsOf known
    have lowering : Extending conv (inScope do
        bindParams own params info.frame.formals.tail
        outsideLoops (lowerExp conv own body)) :=
      extending_inScope (extendingInner_bind (extendingInner_bindParams own params _) fun _ =>
        (extending_outsideLoops (lowerExp_extends own body)).inner)
    have rest : ∀ (t : Lowering) (stm : Tree.Stm), Extends conv s t →
        Accepts (do finishProc conv own stm; lowerBodies conv levels group) t
          (AllFine conv (Source.FunDec.sitesList names group)) fun _ => True := by
      intro t stm moved
      obtain ⟨_, still, -⟩ := member.steps moved.steps
      have ran : finishProc conv own stm t = _ := run_finishProc stm still
      have finished := moved.trans ((extending_finishProc own stm).ok ran)
      exact accepts_after ran (lowerBodies_accepts group (situated.extend finished)
        (members.imp fun _ _ member => member.steps finished.steps))
    unfold lowerBodies
    refine Accepts.iff (accepts_after formals (accepts_bind
      (accepts_inScope (accepts_after bound (accepts_outsideLoops
        (lowerExp_accepts body there.outsideLoops)))) fun lowered t ran _ =>
      accepts_after (run_fresh _ t) (rest _ _ ((lowering.ok ran).trans
        ((extending_fresh (grows_bodyStm conv result lowered)).ok (run_fresh _ t)))))) ?_
    simp [Source.FunDec.sitesList]
end

section Programs

theorem lowerProgram_accepts (situated : Situated conv 0 names looped s)
    (program : Source.Exp) :
    Accepts (lowerProgram conv program) s (AllFine conv (program.sites names looped))
      fun _ => True := by
  unfold lowerProgram
  refine Accepts.iff (accepts_effect situated (lowerExp_extends 0 program)
    (lowerExp_accepts program situated) fun stm t there =>
      accepts_ok (run_finishProc stm (List.getElem?_eq_getElem there.known)) trivial trivial) ?_
  simp

/-- A program is lowered exactly if nothing is wrong at any of its places. So neither the name of
the outermost function nor what has been issued before makes a difference to this, nor which
variables are marked as escaping. -/
theorem lowered_iff_all_fine (conv : Convention) (entry : Label) (supply : Supply)
    (program : Source.Exp) :
    ((∃ t, lowerProgram conv program (start conv entry supply) = .ok () t) ↔
      ∀ site ∈ program.sites [] false, site.Fine conv) ∧
    ∀ (other : Source.Exp) (marks : List Nat) (entry' : Label) (supply' : Supply),
      program.mark marks 0 = other.mark marks 0 →
      ((∃ t, lowerProgram conv program (start conv entry supply) = .ok () t) ↔
        ∃ t, lowerProgram conv other (start conv entry' supply') = .ok () t) := by
  have accepted : ∀ (entry : Label) (supply : Supply) (program : Source.Exp),
      (∃ t, lowerProgram conv program (start conv entry supply) = .ok () t) ↔
        AllFine conv (program.sites [] false) := by
    intro entry supply program
    rw [← (lowerProgram_accepts (situated_start conv entry supply) program).ok_iff]
    exact ⟨fun ⟨t, ran⟩ => ⟨(), t, ran⟩, fun ⟨_, t, ran⟩ => ⟨t, ran⟩⟩
  refine ⟨accepted entry supply program, ?_⟩
  intro other marks entry' supply' same
  have sites : program.sites [] false = other.sites [] false := by
    rw [← Source.Exp.sites_mark marks [] false 0 program, same, Source.Exp.sites_mark]
  rw [accepted, accepted, sites]

/-- A function, called in the condition of a loop that is left at once. Its parameter is marked as
`escapes` says. -/
def doubling (escapes : Bool) : Source.Exp :=
  .letIn [.functions [⟨"double", [⟨"n", escapes⟩], some "int",
      .op .plus (.var (.simple "n" {})) (.var (.simple "n" {})) false⟩]]
    (.whileDo (.call "not" [.call "double" [.int 1] {}] {}) (.breakLoop {}))

theorem doubling_lowered :
    (∀ site ∈ (doubling false).sites [] false, site.Fine .small) ∧
      (doubling false).mark [0] 0 = (doubling true).mark [0] 0 ∧
      ∃ t, lowerProgram .small (doubling true) (start .small "tigermain" {}) = .ok () t := by
  have fine : ∀ site ∈ (doubling false).sites [] false, site.Fine .small := by decide
  have marked : (doubling false).mark [0] 0 = (doubling true).mark [0] 0 := rfl
  obtain ⟨accepted, independent⟩ :=
    lowered_iff_all_fine .small "tigermain" {} (doubling false)
  exact ⟨fine, marked, (independent _ [0] "tigermain" {} marked).mp (accepted.mpr fine)⟩

end Programs

end TreeCode.Lowering
