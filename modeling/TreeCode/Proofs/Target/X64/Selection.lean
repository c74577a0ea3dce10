import TreeCode.Proofs.Code.Flat
import TreeCode.Proofs.Supply
import TreeCode.Proofs.Target.Coverage
import TreeCode.Proofs.Target.X64.Patterns

/-!
Instruction selection for the 64-bit x86 machine preserves the meaning of statements without calls.
Subtrees are evaluated into registers one after the other. Each evaluation leaves alone what was
issued before it, up to the registers that instructions use without naming them, so that every
register still carries its subtree when the instructions of the pattern come to read it.
-/

namespace TreeCode

open Tree

namespace X64

open Source (Word)
open Processor

variable {conv : Convention} {address : Label → Word}

/-- An expression that selection evaluates: the registers of the machine and its temporaries were
issued before, and it reads no register that instructions use without naming it, unless it is such
a register itself. -/
structure Ready (conv : Convention) (s : Selection) (e : Exp) : Prop where
  machine : Below s.supply.temps (scratch conv)
  flat : e.isFlat = true
  issued : Below s.supply.temps e.temps
  clean : (∃ t, e = .temp t) ∨ ∀ u ∈ e.temps, u ∉ scratch conv

/-- An expression stays ready while temporaries are drawn. -/
theorem Ready.later {s s' : Selection} {e : Exp} (ready : Ready conv s e)
    (grown : s.supply.temps ≤ s'.supply.temps) : Ready conv s' e where
  machine u member := Nat.lt_of_lt_of_le (ready.machine u member) grown
  flat := ready.flat
  issued u member := Nat.lt_of_lt_of_le (ready.issued u member) grown
  clean := ready.clean

/-- Between two states of selection, code was emitted that evaluates expressions into registers. It
leaves memory alone and every register that was issued before, up to those that instructions use
without naming them. -/
structure Evaluates (conv : Convention) (address : Label → Word) (s s' : Selection)
    (exps : List Exp) (regs : List Temp) : Prop where
  grown : s.supply.temps ≤ s'.supply.temps
  origin : ∀ t ∈ regs, t ∈ Exp.listTemps exps ∨ t.Between s.supply.temps s'.supply.temps
  code : ∃ code, s'.emitted.toList = s.emitted.toList ++ code ∧
    ∀ σ : Processor,
      (∀ e ∈ exps, e.defined (Model.bytes address) σ.toState = true) →
      ∃ σ', run conv address code σ = some (σ', none) ∧ σ'.world = σ.world ∧
        (∀ u, u.index < s.supply.temps → u ∉ scratch conv → σ'.temps u = σ.temps u) ∧
        List.Forall₂ (Carries conv address σ.toState σ') regs exps

theorem evaluates_nil (s : Selection) : Evaluates conv address s s [] [] where
  grown := Nat.le_refl _
  origin := by
    intro t member
    cases member
  code := ⟨[], (List.append_nil _).symm, fun σ _ => ⟨σ, rfl, rfl, fun _ _ _ => rfl, .nil⟩⟩

theorem evaluates_temp (s : Selection) (t : Temp) : Evaluates conv address s s [.temp t] [t] where
  grown := Nat.le_refl _
  origin := by
    intro u member
    exact .inl (by simpa [Exp.listTemps, Exp.temps] using member)
  code := by
    refine ⟨[], (List.append_nil _).symm, fun σ _ => ⟨σ, rfl, rfl, fun _ _ _ => rfl, ?_⟩⟩
    refine .cons ⟨?_, ?_, ?_⟩ .nil
    · intro u same
      cases same
      rfl
    · intro clean
      exact clean t (by simp [Exp.temps])
    · intro _
      rw [Model.value_temp]

theorem carried_from {before before' : State Word Memory} {σ : Processor} {regs : List Temp}
    {exps : List Exp} (carried : List.Forall₂ (Carries conv address before σ) regs exps)
    (each : ∀ e ∈ exps, ∀ t, Carries conv address before σ t e →
      Carries conv address before' σ t e) :
    List.Forall₂ (Carries conv address before' σ) regs exps := by
  induction carried with
  | nil => exact .nil
  | cons first _ ih =>
    exact .cons (each _ List.mem_cons_self _ first) (ih fun e member =>
      each e (List.mem_cons_of_mem _ member))

/-- Expressions are evaluated one after the other, and later code leaves the values of earlier ones
alone. -/
theorem Evaluates.cons {s middle s' : Selection} {e : Exp} {exps : List Exp} {t : Temp}
    {regs : List Temp} (first : Evaluates conv address s middle [e] [t])
    (rest : Evaluates conv address middle s' exps regs) (ready : Ready conv s e)
    (readies : ∀ e ∈ exps, Ready conv s e) :
    Evaluates conv address s s' (e :: exps) (t :: regs) := by
  obtain ⟨code, emitted, runs⟩ := first.code
  obtain ⟨more, emittedLater, runsLater⟩ := rest.code
  refine ⟨Nat.le_trans first.grown rest.grown, ?_, code ++ more, ?_, ?_⟩
  · intro u member
    rcases List.mem_cons.mp member with rfl | later
    · rcases first.origin u List.mem_cons_self with old | between
      · exact .inl (List.mem_append_left _ (by simpa [Exp.listTemps] using old))
      · exact .inr (between.widen (Nat.le_refl _) rest.grown)
    · rcases rest.origin u later with old | between
      · exact .inl (List.mem_append_right _ old)
      · exact .inr (between.widen first.grown (Nat.le_refl _))
  · rw [emittedLater, emitted, List.append_assoc]
  · intro σ defined
    obtain ⟨τ, ran, world, kept, carried⟩ := runs σ fun x member => by
      rw [List.mem_singleton.mp member]
      exact defined e List.mem_cons_self
    -- Evaluating `e` leaves alone what the other expressions read.
    have same {x : Exp} (member : x ∈ exps) (clean : ∀ u ∈ x.temps, u ∉ scratch conv) :
        ∀ u ∈ x.temps, τ.temps u = σ.temps u := fun u inside =>
      kept u ((readies x member).issued u inside) (clean u inside)
    obtain ⟨υ, ranLater, worldLater, keptLater, carriedLater⟩ := runsLater τ fun x member => by
      rcases (readies x member).clean with ⟨u, rfl⟩ | clean
      · rfl
      · rw [Exp.defined_congr _ (readies x member).flat world (same member clean)]
        exact defined x (List.mem_cons_of_mem e member)
    refine ⟨υ, (run_append ran).trans ranLater, worldLater.trans world, ?_, .cons ?_ ?_⟩
    · intro u issued clean
      rw [keptLater u (Nat.lt_of_lt_of_le issued first.grown) clean, kept u issued clean]
    · -- The register of `e` was issued before the others were evaluated.
      cases carried with
      | cons carries _ =>
        refine ⟨carries.temp, carries.clean, fun clean => ?_⟩
        rw [keptLater t ?_ (carries.clean clean), carries.value clean]
        rcases first.origin t List.mem_cons_self with old | between
        · have inside : t ∈ e.temps := by simpa [Exp.listTemps] using old
          exact Nat.lt_of_lt_of_le (ready.issued t inside) first.grown
        · exact between.2
    · refine carried_from carriedLater fun x member t carries => ?_
      refine ⟨carries.temp, carries.clean, fun clean => ?_⟩
      rw [carries.value clean, Model.value_congr _ (readies x member).flat world (same member clean)]

/-- Evaluating a list of expressions, if each of them is evaluated. -/
theorem coverAll_evaluates {exps : List Exp}
    (each : ∀ e ∈ exps, ∀ {s s' : Selection} {t : Temp}, Ready conv s e →
      (selector conv).coverExp e s = .ok t s' → Evaluates conv address s s' [e] [t])
    {s s' : Selection} {regs : List Temp} (ready : ∀ e ∈ exps, Ready conv s e)
    (ran : (selector conv).coverAll exps s = .ok regs s') :
    Evaluates conv address s s' exps regs := by
  induction exps generalizing s regs with
  | nil =>
    rw [Selector.coverAll] at ran
    obtain ⟨rfl, rfl⟩ := pure_ok.mp ran
    exact evaluates_nil s
  | cons e exps ih =>
    rw [Selector.coverAll] at ran
    obtain ⟨t, middle, covered, ran⟩ := bind_ok.mp ran
    obtain ⟨rest, _, others, ran⟩ := bind_ok.mp ran
    obtain ⟨rfl, rfl⟩ := pure_ok.mp ran
    have first := each e List.mem_cons_self (ready e List.mem_cons_self) covered
    have readies : ∀ x ∈ exps, Ready conv s x := fun x member =>
      ready x (List.mem_cons_of_mem e member)
    exact first.cons (ih (fun x member => each x (List.mem_cons_of_mem e member))
      (fun x member => (readies x member).later first.grown) others)
      (ready e List.mem_cons_self) readies

theorem mem_stmPatterns {pattern : Pattern} (member : pattern ∈ isa.patterns)
    (statement : pattern.shape.isStatement = true) : pattern ∈ stmPatterns := by
  have none : ∀ pattern ∈ expPatterns, pattern.shape.isStatement = false := by decide
  rcases List.mem_append.mp member with here | there
  · exact here
  · rw [none pattern there] at statement
    cases statement

theorem mem_expPatterns {pattern : Pattern} (member : pattern ∈ isa.patterns)
    (value : pattern.shape.isStatement = false) : pattern ∈ expPatterns := by
  have all : ∀ pattern ∈ stmPatterns, pattern.shape.isStatement = true := by decide
  rcases List.mem_append.mp member with here | there
  · rw [all pattern here] at value
    cases value
  · exact there

/-- The best match of a flat expression computes it. -/
theorem pick_computes (address : Label → Word) (fixed : Fixed conv) {e : Exp} {found : Match}
    (flat : e.isFlat = true) (picked : isa.pick (.exp e) = some found) :
    found.pattern.shape.bindExp? e {} = some found.bindings ∧
      Computes conv address found.pattern := by
  obtain ⟨member, matched⟩ := InstructionSet.pick_matches picked
  rcases Shape.match_bound matched with ⟨_, same, value, bound⟩ | ⟨_, other, _⟩
  · cases same
    refine ⟨bound, ?_⟩
    rcases expPatterns_compute fixed found.pattern (mem_expPatterns member value) with
      call | computes
    · -- A flat expression is no call.
      cases shape : found.pattern.shape with
      | call func =>
        rw [shape] at bound
        obtain ⟨f, link, args, rfl⟩ := Shape.bind_call bound
        cases flat
      | move | exp =>
        rw [shape] at value
        cases value
      | _ =>
        rw [shape] at call
        cases call
    · exact computes
  · cases other

/-- The best match of a flat statement does what it says. -/
theorem pick_performs (address : Label → Word) {stm : Stm} {found : Match}
    (flat : stm.isFlat = true) (picked : isa.pick (.stm stm) = some found) :
    found.pattern.shape.bindStm? stm {} = some found.bindings ∧
      Performs conv address found.pattern := by
  obtain ⟨member, matched⟩ := InstructionSet.pick_matches picked
  rcases Shape.match_bound matched with ⟨_, other, _⟩ | ⟨_, same, statement, bound⟩
  · cases other
  · cases same
    refine ⟨bound, ?_⟩
    rcases stmPatterns_perform found.pattern (mem_stmPatterns member statement) with
      call | performs
    · -- Nor does a flat statement have one.
      cases shape : found.pattern.shape with
      | move dst src =>
        rw [shape] at bound call
        obtain ⟨d, e, _, rfl, _, second⟩ := Shape.bind_move bound
        cases src with
        | call func =>
          obtain ⟨f, link, args, rfl⟩ := Shape.bind_call second
          cases d <;> simp [Stm.isFlat, Exp.isFlat] at flat
        | _ => cases call
      | exp inner =>
        rw [shape] at bound call
        obtain ⟨e, rfl, first⟩ := Shape.bind_exp bound
        cases inner with
        | call func =>
          obtain ⟨f, link, args, rfl⟩ := Shape.bind_call first
          cases flat
        | _ => cases call
      | call func =>
        rw [shape] at statement
        cases statement
      | _ =>
        rw [shape] at call
        cases call
    · exact performs

theorem size_le_listSize {x : Exp} {exps : List Exp} (member : x ∈ exps) :
    x.size ≤ Exp.listSize exps := by
  induction exps with
  | nil => cases member
  | cons e exps ih =>
    rw [Exp.listSize]
    rcases List.mem_cons.mp member with rfl | later
    · exact Nat.le_add_right _ _
    · exact Nat.le_trans (ih later) (Nat.le_add_left _ _)

/-- Covering a flat expression evaluates it. -/
theorem coverExp_evaluates (fixed : Fixed conv) {s s' : Selection} {e : Exp} {t : Temp}
    (ready : Ready conv s e) (ran : (selector conv).coverExp e s = .ok t s') :
    Evaluates conv address s s' [e] [t] := by
  have bare : ∀ stm value, e ≠ .eseq stm value := by
    rintro stm value rfl
    cases ready.flat
  rcases Selector.coverExp_ok bare ran with
    ⟨rfl, rfl⟩ | ⟨cell, rfl, found, picked, smaller, _, covered⟩
  · exact evaluates_temp s' t
  · obtain ⟨bound, computes⟩ := pick_computes address fixed ready.flat picked
    obtain ⟨plain, parts⟩ := found.pattern.shape.bindExp_parts e {} ready.flat bound
    obtain ⟨regs, middle, code, evaluated, made, rfl⟩ := Selector.coverMatch_ok plain covered
    have clean : ∀ u ∈ e.temps, u ∉ scratch conv := ready.clean.resolve_left fun ⟨u, same⟩ =>
      cell u same
    have part : ∀ x ∈ found.bindings.regs, x ∈ e.parts := fun x member =>
      (parts x member).resolve_left List.not_mem_nil
    have inner : Evaluates conv address s.drawn middle found.bindings.regs regs := by
      refine coverAll_evaluates (fun x member _ _ _ ready ran => ?_) (fun x member => ?_) evaluated
      · have shorter : x.size < e.size := by
          have listed := size_le_listSize member
          simp only [Match.load, Bindings.load] at smaller
          omega
        exact coverExp_evaluates fixed ready ran
      · have inside := temps_part ready.flat (part x member)
        have now : Ready conv s x :=
          ⟨ready.machine, isFlat_part ready.flat (part x member),
            fun u member => ready.issued u (inside member),
            .inr fun u member => clean u (inside member)⟩
        exact now.later (Nat.le_succ _)
    have grown : s.supply.temps + 1 ≤ middle.supply.temps := inner.grown
    have fresh : (⟨s.supply.temps⟩ : Temp) ∉ scratch conv := fun member =>
      Nat.lt_irrefl _ (ready.machine _ member)
    have apart : (⟨s.supply.temps⟩ : Temp) ∉ regs := by
      intro member
      rcases inner.origin _ member with old | between
      · have inside := found.pattern.shape.bindExp_temps e {} bound (List.mem_append_left _ old)
        exact Nat.lt_irrefl _ (ready.issued _ inside)
      · exact Nat.not_succ_le_self _ between.1
    obtain ⟨before, emitted, runs⟩ := inner.code
    refine ⟨Nat.le_trans (Nat.le_succ _) grown, ?_, before ++ code, ?_, ?_⟩
    · intro u member
      rw [List.mem_singleton.mp member]
      exact .inr ⟨Nat.le_refl _, grown⟩
    · rw [Selection.adding_emitted, emitted, List.append_assoc]
      rfl
    · intro σ defined
      have defined : e.defined (Model.bytes address) σ.toState = true :=
        defined e List.mem_cons_self
      obtain ⟨τ, ran, world, kept, carried⟩ := runs σ fun x member =>
        Exp.defined_part _ ready.flat defined (part x member)
      obtain ⟨code', υ, made', ranLater, worldLater, value, keptLater⟩ :=
        computes bound ready.flat defined clean carried fresh apart world
      cases made.symm.trans made'
      refine ⟨υ, (run_append ran).trans ranLater, worldLater.trans world, ?_, .cons ⟨?_, ?_, ?_⟩ .nil⟩
      · intro u issued untouched
        have other : u ≠ ⟨s.supply.temps⟩ := by
          rintro rfl
          exact Nat.lt_irrefl _ issued
        rw [keptLater u untouched other]
        exact kept u (Nat.lt_succ_of_lt issued) untouched
      · exact fun u same => absurd same (cell u)
      · exact fun _ => fresh
      · exact fun _ => value
termination_by e.size

/-- Flat statements are canonical and make no call. -/
theorem canonical_of_isFlat {stm : Stm} (flat : stm.isFlat = true) :
    stm.isCanonical = true ∧ stm.call? = none := by
  have root {e : Exp} (flat : e.isFlat = true) : e.isFlatCall = true ∧ (Stm.exp e).call? = none := by
    cases e with
    | call => cases flat
    | _ => exact ⟨flat, rfl⟩
  cases stm with
  | move dst src =>
    cases dst with
    | temp t =>
      have same : (Stm.move (.temp t) src).call? = (Stm.exp src).call? := by cases src <;> rfl
      exact ⟨(root flat).1, same.trans (root flat).2⟩
    | mem place => exact ⟨flat, rfl⟩
    | _ => cases flat
  | exp e => exact root flat
  | seq | label => cases flat
  | jump | cjump => exact ⟨flat, rfl⟩

section Issued

variable {supply supply' : Supply}

theorem fixed_of_issue (issued : convention.issue supply = .ok conv supply') :
    Nonempty (Fixed conv) := by
  have all := issue_all issued
  refine ⟨⟨supply.temps + 0⟩, ⟨supply.temps + 1⟩, ⟨supply.temps + 2⟩, ?_, ?_, ?_, by simp⟩
  · rw [Registers.find?, all]
    exact freshNamedAll_lookup (by decide) supply
  · rw [Registers.find?, all]
    exact freshNamedAll_lookup (by decide) supply
  · rw [Registers.find?, all]
    exact freshNamedAll_lookup (by decide) supply

theorem scratch_below (issued : convention.issue supply = .ok conv supply') :
    Below supply'.temps (scratch conv) := by
  intro t member
  obtain ⟨name, _, found⟩ := List.mem_filterMap.mp member
  exact (issue_closed issued).2 t (mem_of_lookup found)

theorem flat_selected (issued : convention.issue supply = .ok conv supply') {stm : Stm}
    (flat : stm.isFlat = true) (s : Selection) :
    ∃ done s', (selector conv).coverStm stm s = .ok done s' := by
  have issued : Arch.x64.target.convention.issue supply = .ok conv supply' := issued
  have serves : (selector conv).Serves Arch.x64.repertoire := Arch.issued_serves issued
  refine (Selector.decides_coverStm serves stm s).mpr ?_
  obtain ⟨canonical, plain⟩ := canonical_of_isFlat flat
  rw [coversStm_canonical canonical, plain, Option.all_none, Bool.and_true, Arch.admits_parts]
  nofun

/-- Covering a flat statement emits code that does what it says. -/
theorem coverStm_does (address : Label → Word) (fixed : Fixed conv) {s s' : Selection} {stm : Stm}
    {done : Unit} (machine : Below s.supply.temps (scratch conv)) (flat : stm.isFlat = true)
    (issued : Below s.supply.temps stm.temps) (clean : ∀ u ∈ stm.reads, u ∉ scratch conv)
    (ran : (selector conv).coverStm stm s = .ok done s') :
    ∃ code, s'.emitted.toList = s.emitted.toList ++ code ∧
      ∀ σ : Processor, stm.defined (Model.bytes address) σ.toState = true →
      ∃ σ', run conv address code σ = some (σ', stm.branch? (Model.bytes address) σ.toState) ∧
        σ'.world = ((Model.bytes address).exec stm σ.toState).world ∧
        (∀ t, stm.target? = some t →
          σ'.temps t = ((Model.bytes address).exec stm σ.toState).temps t) ∧
        ∀ u, u.index < s.supply.temps → u ∉ scratch conv → stm.target? ≠ some u →
          σ'.temps u = σ.temps u := by
  obtain ⟨found, picked, covered⟩ := Selector.coverStm_ok flat ran
  obtain ⟨bound, performs⟩ := pick_performs address flat picked
  obtain ⟨plain, part⟩ := Shape.bindStm_parts flat bound
  obtain ⟨regs, middle, code, evaluated, made, rfl⟩ := Selector.coverMatch_ok plain covered
  have ready : ∀ x ∈ found.bindings.regs, Ready conv s x := by
    intro x member
    rcases part_of_flat flat (part x member) with ⟨t, inside, rfl⟩ | ⟨e, inside, flat, reads, _⟩
    · exact ⟨machine, rfl, by simpa [Exp.temps] using issued t inside, .inl ⟨t, rfl⟩⟩
    · have within : x.temps ⊆ stm.reads := fun u own => reads (temps_part flat inside own)
      exact ⟨machine, isFlat_part flat inside,
        fun u member => issued u (reads_subset stm (within member)),
        .inr fun u member => clean u (within member)⟩
  have inner : Evaluates conv address s middle found.bindings.regs regs :=
    coverAll_evaluates (fun x _ _ _ _ ready ran => coverExp_evaluates fixed ready ran) ready evaluated
  obtain ⟨before, emitted, runs⟩ := inner.code
  refine ⟨before ++ code, ?_, ?_⟩
  · rw [Selection.adding_emitted, emitted, List.append_assoc]
  · intro σ defined
    obtain ⟨τ, ran, world, kept, carried⟩ := runs σ fun x member => by
      rcases part_of_flat flat (part x member) with ⟨t, _, rfl⟩ | ⟨e, inside, flat, _, passes⟩
      · rfl
      · exact Exp.defined_part _ flat (passes defined) inside
    obtain ⟨code', υ, made', ranLater, worldLater, value, keptLater⟩ :=
      performs bound flat clean carried world
    cases made.symm.trans made'
    refine ⟨υ, (run_append ran).trans ranLater, worldLater, value, ?_⟩
    intro u issued untouched other
    rw [keptLater u other, kept u issued untouched]

/-- A flat statement is always selected, and from every state in which it is defined its code does
what the statement says: it leaves the same memory and the same value in the target, goes to the
same label, and changes no other temporary that was issued before, the scratch registers `rax`,
`rcx` and `rdx` apart. The statement may read any register but those three. Instructions that were
waiting in the buffer come first and are no part of its code. -/
theorem selected_code_preserves_meaning (issued : convention.issue supply = .ok conv supply')
    (address : Label → Word) {stm : Stm} (state : Selection)
    (later : supply'.temps ≤ state.supply.temps) (flat : stm.isFlat = true)
    (known : Below state.supply.temps stm.temps) (clean : ∀ t ∈ stm.reads, t ∉ scratch conv) :
    ∃ code state', (selector conv).select stm state = .ok (state.emitted.toList ++ code) state' ∧
      ∀ σ : Processor, stm.defined (Model.bytes address) σ.toState = true →
        ∃ σ', run conv address code σ = some (σ', stm.branch? (Model.bytes address) σ.toState) ∧
          σ'.world = ((Model.bytes address).exec stm σ.toState).world ∧
          (∀ t, stm.target? = some t →
            σ'.temps t = ((Model.bytes address).exec stm σ.toState).temps t) ∧
          ∀ t, t.index < state.supply.temps → t ∉ scratch conv → stm.target? ≠ some t →
            σ'.temps t = σ.temps t := by
  obtain ⟨fixed⟩ := fixed_of_issue issued
  have machine : Below state.supply.temps (scratch conv) := fun t member =>
    Nat.lt_of_lt_of_le (scratch_below issued t member) later
  obtain ⟨done, covered, ran⟩ := flat_selected issued flat state
  obtain ⟨code, emitted, does⟩ := coverStm_does address fixed machine flat known clean ran
  have selected : (selector conv).select stm state =
      .ok covered.emitted.toList { covered with emitted := #[] } := by
    rw [Selector.select, run_bind, ran]
    rfl
  exact ⟨code, _, emitted ▸ selected, does⟩

end Issued

/-- A store below the frame pointer of a shifted quotient. -/
def storedQuotient : Stm :=
  .move (.mem (.binop .plus (.temp ⟨5⟩) (.const (-16))))
    (.binop .lshift (.binop .div (.temp ⟨20⟩) (.temp ⟨21⟩)) (.temp ⟨22⟩))

/-- The state in which temporary 21 holds -1 and every other one its own number. -/
def numbered : Processor where
  temps t := if t.index = 21 then -1 else .ofNat 64 t.index
  world _ := 0
  flags := none

theorem storedQuotient_performed : ∃ conv supply', convention.issue {} = .ok conv supply' ∧
    supply'.temps ≤ 23 ∧ storedQuotient.isFlat = true ∧ Below 23 storedQuotient.temps ∧
    (∀ t ∈ storedQuotient.reads, t ∉ scratch conv) ∧
    storedQuotient.defined (Model.bytes fun _ => 0) numbered.toState = true ∧
    ∃ code state' σ', (selector conv).select storedQuotient { supply := { temps := 23 } } =
        .ok code state' ∧
      run conv (fun _ => 0) code numbered = some (σ', none) ∧
      σ'.world = ((Model.bytes fun _ => 0).exec storedQuotient numbered.toState).world := by
  have checked : (match convention.issue {} with
      | .ok conv supply' =>
        decide (supply'.temps ≤ 23 ∧ ∀ t ∈ storedQuotient.reads, t ∉ scratch conv)
      | .error _ _ => false) = true := by decide +kernel
  split at checked
  case h_2 => cases checked
  case h_1 conv supply' issued =>
    obtain ⟨later, clean⟩ := of_decide_eq_true checked
    have flat : storedQuotient.isFlat = true := by decide
    have known : Below 23 storedQuotient.temps := by simp [storedQuotient, Stm.temps, Exp.temps]
    have defined : storedQuotient.defined (Model.bytes fun _ => 0) numbered.toState = true := by
      decide +kernel
    obtain ⟨code, state', selected, does⟩ :=
      selected_code_preserves_meaning issued (fun _ => 0) { supply := { temps := 23 } } later flat
        known clean
    obtain ⟨σ', ran, world, _⟩ := does numbered defined
    exact ⟨conv, supply', issued, later, flat, known, clean, defined, code, state', σ', selected,
      ran, world⟩

end X64

end TreeCode
