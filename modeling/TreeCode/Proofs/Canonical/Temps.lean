import TreeCode.Proofs.Canonical.Equations
import TreeCode.Proofs.Supply
import TreeCode.Proofs.Tree.Apart

/-!
Canonical form uses temporaries hygienically: every temporary of the canonical statements occurs
in the statement that they come from, or was issued while it was taken apart.
-/

namespace TreeCode.Tree

variable {α β : Type} {old old' : List Temp}

/-- What `act` gives has only temporaries from `old` and temporaries issued by `act`. -/
def Draws (old : List Temp) (act : Fresh α) (temps : α → List Temp) : Prop :=
  ∀ supply : Supply, supply.temps ≤ (act supply).2.temps ∧
    ∀ t ∈ temps (act supply).1, t ∈ old ∨ t.Between supply.temps (act supply).2.temps

theorem draws_pure {a : α} {temps : α → List Temp} (known : temps a ⊆ old) :
    Draws old (pure a : Fresh α) temps :=
  fun _ => ⟨Nat.le_refl _, fun _ member => .inl (known member)⟩

theorem draws_freshTemp : Draws old freshTemp fun t => [t] := by
  intro supply
  refine ⟨Nat.le_succ _, fun t member => .inr ?_⟩
  rw [List.mem_singleton.mp member]
  exact ⟨Nat.le_refl _, Nat.lt_succ_self _⟩

/-- What the first part gives is known to the rest. -/
theorem draws_bind {act : Fresh α} {next : α → Fresh β} {temps : α → List Temp}
    {temps' : β → List Temp} (first : Draws old act temps)
    (rest : ∀ a, Draws (old ++ temps a) (next a) temps') : Draws old (act >>= next) temps' := by
  intro supply
  obtain ⟨grown, origin⟩ := first supply
  obtain ⟨grownLater, originLater⟩ := rest (act supply).1 (act supply).2
  refine ⟨Nat.le_trans grown grownLater, fun t member => ?_⟩
  rcases originLater t member with known | between
  · rcases List.mem_append.mp known with older | made
    · exact .inl older
    · exact (origin t made).imp id fun between => between.widen (Nat.le_refl _) grownLater
  · exact .inr (between.widen grown (Nat.le_refl _))

theorem Draws.mono {act : Fresh α} {temps : α → List Temp} (draws : Draws old act temps)
    (subset : old ⊆ old') : Draws old' act temps := by
  intro supply
  obtain ⟨grown, origin⟩ := draws supply
  exact ⟨grown, fun t member => (origin t member).imp (fun older => subset older) id⟩

/-- The temporaries of effects and a value. -/
def partTemps (parts : Stm × Exp) : List Temp := parts.1.temps ++ parts.2.temps

theorem temps_andThen (first second : Stm) :
    (first.andThen second).temps ⊆ first.temps ++ second.temps := by
  unfold Stm.andThen
  split
  next => exact List.subset_append_right _ _
  next =>
    split
    next => exact List.subset_append_left _ _
    next => exact fun _ member => member

/-- Saving an operand takes a new temporary. -/
theorem draws_before (operand : Stm × Exp) (later : Stm) :
    Draws (partTemps operand ++ later.temps) (before operand later) partTemps := by
  unfold before
  split
  next =>
    refine draws_pure fun t member => ?_
    have first := @temps_andThen operand.1 later t
    simp only [partTemps, List.mem_append] at member first ⊢
    grind
  next =>
    refine draws_bind draws_freshTemp fun saved => draws_pure fun t member => ?_
    have first := @temps_andThen operand.1 ((Stm.move (.temp saved) operand.2).andThen later) t
    have second := @temps_andThen (Stm.move (.temp saved) operand.2) later t
    simp only [partTemps, Stm.temps, Exp.temps, List.mem_append] at member first second ⊢
    grind

theorem draws_hoist {operand : Exp} {parts : Fresh (Stm × Exp)}
    (inner : Draws old parts partTemps) : Draws old (operand.hoist parts) partTemps := by
  cases operand with
  | call func link args =>
    refine draws_bind draws_freshTemp fun saved =>
      draws_bind (inner.mono (List.subset_append_left _ _)) fun ⟨effects, value⟩ =>
      draws_pure fun t member => ?_
    have all := @temps_andThen effects (.move (.temp saved) value) t
    simp only [partTemps, Stm.temps, Exp.temps, List.mem_append] at member all ⊢
    grind
  | const | name | temp | binop | mem | eseq => exact inner

/-- Two operands, the right one taken apart first. -/
theorem draws_pair {left right : Exp} {temps : β → List Temp}
    (next : Stm → Exp → Exp → Fresh β) (leftDraws : Draws left.temps left.extract partTemps)
    (rightDraws : Draws right.temps right.extract partTemps)
    (rest : ∀ effects first second,
      Draws (effects.temps ++ (first.temps ++ second.temps)) (next effects first second) temps) :
    Draws (left.temps ++ right.temps) (do
      let (later, second) ← right.hoist right.extract
      let (effects, first) ← before (← left.hoist left.extract) later
      next effects first second) temps := by
  refine draws_bind ((draws_hoist rightDraws).mono (List.subset_append_right _ _))
    fun ⟨later, second⟩ => ?_
  refine draws_bind ((draws_hoist leftDraws).mono ?_) fun operand => ?_
  · exact fun _ member => List.mem_append_left _ (List.mem_append_left _ member)
  refine draws_bind ((draws_before operand later).mono ?_) fun ⟨effects, first⟩ => ?_
  · intro t member
    simp only [partTemps, List.mem_append] at member ⊢
    grind
  · refine (rest effects first second).mono fun t member => ?_
    simp only [partTemps, List.mem_append] at member ⊢
    grind

/-- A move to what is no place. -/
theorem draws_stray {src dst : Exp} (srcDraws : Draws src.temps src.extract partTemps) :
    Draws (dst.temps ++ src.temps) (do
      let (effects, value) ← src.hoist src.extract
      return effects.andThen (.move dst value)) Stm.temps := by
  refine draws_bind ((draws_hoist srcDraws).mono (List.subset_append_right _ _))
    fun ⟨effects, value⟩ => draws_pure fun x member => ?_
  have all := temps_andThen effects (.move dst value) member
  simp only [partTemps, Stm.temps, List.mem_append] at all ⊢
  grind

mutual
/-- Extraction uses the temporaries of an expression and new ones. The induction is on the
expression. -/
theorem draws_extract : ∀ exp : Exp, Draws exp.temps exp.extract partTemps
  | .const _ => draws_pure fun _ member => member
  | .name _ => draws_pure fun _ member => member
  | .temp _ => draws_pure fun _ member => member
  | .binop op left right => by
    unfold Exp.extract Exp.temps
    refine draws_pair (fun effects first second => pure (effects, Exp.binop op first second))
      (draws_extract left) (draws_extract right) fun effects first second =>
      draws_pure fun t member => ?_
    simpa only [partTemps, Exp.temps] using member
  | .mem address => by
    unfold Exp.extract Exp.temps
    refine draws_bind (draws_hoist (draws_extract address)) fun ⟨effects, value⟩ =>
      draws_pure fun t member => ?_
    exact List.mem_append_right _ member
  | .call func link args => by
    unfold Exp.extract Exp.temps
    refine draws_bind ((draws_extractArgs args).mono (List.subset_append_right _ _))
      fun ⟨later, values⟩ => ?_
    refine draws_bind ((draws_extractLink link later).mono ?_) fun ⟨linked, value⟩ => ?_
    · intro t member
      simp only [List.mem_append] at member ⊢
      grind
    refine draws_bind ((draws_hoist (draws_extract func)).mono ?_) fun operand => ?_
    · intro t member
      simp only [List.mem_append]
      exact .inl (.inl (.inl (.inl member)))
    refine draws_bind ((draws_before operand linked).mono ?_) fun ⟨effects, first⟩ => ?_
    · intro t member
      simp only [partTemps, List.mem_append] at member ⊢
      grind
    · refine draws_pure fun t member => ?_
      simp only [partTemps, Exp.temps, List.mem_append] at member ⊢
      grind
  | .eseq stm exp => by
    unfold Exp.extract Exp.temps
    refine draws_bind ((draws_extractStm stm).mono (List.subset_append_left _ _)) fun first => ?_
    refine draws_bind ((draws_extract exp).mono ?_) fun ⟨second, value⟩ => draws_pure
      fun t member => ?_
    · exact fun _ member => List.mem_append_left _ (List.mem_append_right _ member)
    · have both := @temps_andThen first second t
      simp only [partTemps, List.mem_append] at member both ⊢
      grind
theorem draws_extractLink : ∀ (link : Option Exp) (later : Stm),
    Draws (Exp.linkTemps link ++ later.temps) (Exp.extractLink link later)
      fun parts => parts.1.temps ++ Exp.linkTemps parts.2
  | none, later => by
    unfold Exp.extractLink
    refine draws_pure fun t member => ?_
    simpa only [Exp.linkTemps, List.append_nil, List.nil_append] using member
  | some link, later => by
    unfold Exp.extractLink
    refine draws_bind ((draws_hoist (draws_extract link)).mono (List.subset_append_left _ _))
      fun operand => ?_
    refine draws_bind ((draws_before operand later).mono ?_) fun ⟨effects, value⟩ =>
      draws_pure fun t member => ?_
    · intro t member
      simp only [partTemps, List.mem_append] at member ⊢
      grind
    · exact List.mem_append_right _ member
theorem draws_extractArgs : ∀ args : List Exp,
    Draws (Exp.listTemps args) (Exp.extractArgs args)
      fun parts => parts.1.temps ++ Exp.listTemps parts.2
  | [] => draws_pure fun _ member => member
  | arg :: args => by
    unfold Exp.extractArgs Exp.listTemps
    refine draws_bind ((draws_extractArgs args).mono (List.subset_append_right _ _))
      fun ⟨later, values⟩ => ?_
    refine draws_bind ((draws_hoist (draws_extract arg)).mono ?_) fun operand => ?_
    · exact fun _ member => List.mem_append_left _ (List.mem_append_left _ member)
    refine draws_bind ((draws_before operand later).mono ?_) fun ⟨effects, value⟩ =>
      draws_pure fun t member => ?_
    · intro t member
      simp only [partTemps, List.mem_append] at member ⊢
      grind
    · simp only [partTemps, List.mem_append] at member ⊢
      grind
theorem draws_extractMove {src : Exp} (srcDraws : Draws src.temps src.extract partTemps) :
    ∀ dst : Exp, Draws (dst.temps ++ src.temps) (Exp.extractMove src src.extract dst) Stm.temps
  | .temp t => by
    unfold Exp.extractMove
    refine draws_bind (srcDraws.mono (List.subset_append_right _ _)) fun ⟨effects, value⟩ =>
      draws_pure fun x member => ?_
    have all := temps_andThen effects (.move (.temp t) value) member
    simp only [partTemps, Stm.temps, Exp.temps, List.mem_append] at all ⊢
    grind
  | .mem address => by
    unfold Exp.extractMove
    refine draws_pair
      (fun effects first second => pure (effects.andThen (.move (.mem first) second)))
      (draws_extract address) srcDraws fun effects first second =>
      draws_pure fun x member => ?_
    have all := temps_andThen effects (.move (.mem first) second) member
    simpa only [Stm.temps, Exp.temps] using all
  | .eseq stm dst => by
    unfold Exp.extractMove
    refine draws_bind ((draws_extractStm stm).mono ?_) fun first => ?_
    · exact fun _ member => List.mem_append_left _ (List.mem_append_left _ member)
    refine draws_bind ((draws_extractMove srcDraws dst).mono ?_) fun second =>
      draws_pure fun x member => ?_
    · intro t member
      simp only [Exp.temps, List.mem_append] at member ⊢
      grind
    · have all := temps_andThen first second member
      simp only [List.mem_append] at all ⊢
      grind
  | .const value => draws_stray srcDraws
  | .name label => draws_stray srcDraws
  | .binop op left right => draws_stray srcDraws
  | .call func link args => draws_stray srcDraws
/-- Extraction uses the temporaries of a statement and new ones. -/
theorem draws_extractStm : ∀ stm : Stm, Draws stm.temps stm.extract Stm.temps
  | .move dst src => by
    unfold Stm.extract Stm.temps
    exact draws_extractMove (draws_extract src) dst
  | .exp exp => by
    unfold Stm.extract
    refine draws_bind (draws_extract exp) fun ⟨effects, value⟩ => draws_pure fun t member => ?_
    have all := temps_andThen effects (.exp value) member
    exact List.mem_append_right _ all
  | .jump target labels => by
    unfold Stm.extract
    refine draws_bind (draws_hoist (draws_extract target)) fun ⟨effects, value⟩ =>
      draws_pure fun t member => ?_
    have all := temps_andThen effects (.jump value labels) member
    exact List.mem_append_right _ all
  | .cjump op left right yes no => by
    unfold Stm.extract Stm.temps
    refine draws_pair
      (fun effects first second => pure (effects.andThen (.cjump op first second yes no)))
      (draws_extract left) (draws_extract right) fun effects first second =>
      draws_pure fun t member => ?_
    exact temps_andThen effects (.cjump op first second yes no) member
  | .seq first second => by
    unfold Stm.extract
    refine draws_bind ((draws_extractStm first).mono (List.subset_append_left _ second.temps))
      fun a => ?_
    refine draws_bind ((draws_extractStm second).mono ?_) fun b => draws_pure fun t member => ?_
    · exact fun _ member => List.mem_append_left _ (List.mem_append_right _ member)
    · have all := temps_andThen a b member
      simp only [List.mem_append] at all ⊢
      grind
  | .label label => draws_pure fun _ member => member
end

theorem mem_toList {t : Temp} : ∀ {stm piece : Stm}, piece ∈ stm.toList → t ∈ piece.temps →
    t ∈ stm.temps
  | .seq first second, _, member, inside => by
    rcases List.mem_append.mp member with early | late
    · exact List.mem_append_left _ (mem_toList early inside)
    · exact List.mem_append_right _ (mem_toList late inside)
  | .move dst src, _, member, inside => by
    rw [List.mem_singleton.mp member] at inside
    exact inside
  | .jump target labels, _, member, inside => by
    rw [List.mem_singleton.mp member] at inside
    exact inside
  | .cjump op left right yes no, _, member, inside => by
    rw [List.mem_singleton.mp member] at inside
    exact inside
  | .label label, _, member, inside => by
    rw [List.mem_singleton.mp member] at inside
    exact inside
  | .exp exp, _, member, inside => by
    unfold Stm.toList at member
    split at member
    next => cases member
    next =>
      rw [List.mem_singleton.mp member] at inside
      exact inside

/-- Every temporary of the canonical statements is one of the statement, or fresh. -/
theorem draws_canonical (stm : Stm) :
    Draws stm.temps stm.canonical fun stms => stms.flatMap Stm.temps := by
  refine draws_bind (draws_extractStm stm) fun whole => draws_pure fun t member => ?_
  obtain ⟨piece, among, inside⟩ := List.mem_flatMap.mp member
  exact List.mem_append_right _ (mem_toList among inside)

end TreeCode.Tree
