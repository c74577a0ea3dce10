import TreeCode.Proofs.Canonical.Temps

/-!
The shape of canonical form: no sequencing is left, neither between statements nor inside their
expressions, and each temporary issued on the way is assigned by one move and no other.
-/

namespace TreeCode.Tree

/-- Whether an expression is one after a statement. -/
def Exp.isEseq : Exp → Bool
  | .eseq _ _ => true
  | _ => false

/-- No statement stands inside an expression. -/
def Exp.Plain (e : Exp) : Prop := ∀ x ∈ e.parts, x.isEseq = false

/-- No statement stands inside the expressions of a statement. -/
def Stm.Plain (stm : Stm) : Prop := ∀ x ∈ stm.parts, x.isEseq = false

/-- Whether a statement is a sequence. -/
def Stm.isSeq : Stm → Bool
  | .seq _ _ => true
  | _ => false

/-- Whether a statement is a move to the temporary `t`. -/
def Stm.assigns (t : Temp) : Stm → Bool
  | .move (.temp u) _ => u == t
  | _ => false

section Plain

variable {e left right : Exp}

theorem plain_const (value : Int) : (Exp.const value).Plain := by
  simp [Exp.Plain, Exp.parts, Exp.isEseq]

theorem plain_name (label : Label) : (Exp.name label).Plain := by
  simp [Exp.Plain, Exp.parts, Exp.isEseq]

theorem plain_temp (t : Temp) : (Exp.temp t).Plain := by
  simp [Exp.Plain, Exp.parts, Exp.isEseq]

theorem plain_binop (op : BinOp) :
    (Exp.binop op left right).Plain ↔ left.Plain ∧ right.Plain := by
  rw [Exp.Plain, Exp.parts, List.forall_mem_cons, List.forall_mem_append]
  exact and_iff_right rfl

theorem plain_mem : (Exp.mem e).Plain ↔ e.Plain := by
  rw [Exp.Plain, Exp.parts, List.forall_mem_cons]
  exact and_iff_right rfl

theorem plain_call {link : Option Exp} {args : List Exp} :
    (Exp.call e link args).Plain ↔ e.Plain ∧ (∀ x ∈ Exp.linkParts link, x.isEseq = false) ∧
      ∀ x ∈ Exp.listParts args, x.isEseq = false := by
  rw [Exp.Plain, Exp.parts, List.forall_mem_cons, List.forall_mem_append, List.forall_mem_append]
  exact and_iff_right rfl

theorem plain_move : (Stm.move left right).Plain ↔ left.Plain ∧ right.Plain :=
  List.forall_mem_append

theorem plain_cjump (op : RelOp) (yes no : Label) :
    (Stm.cjump op left right yes no).Plain ↔ left.Plain ∧ right.Plain :=
  List.forall_mem_append

end Plain

/-- Statements that were made while the temporaries from `low` up to `high` were issued. No
statement stands inside their expressions, and of the temporaries from `n` on they assign those
that were issued, each by one move, and no other. -/
structure Tidy (n low high : Nat) (stms : List Stm) : Prop where
  grown : low ≤ high
  plain : ∀ s ∈ stms, s.Plain
  assigned : ∀ t : Temp, n ≤ t.index →
    stms.countP (Stm.assigns t) = if low ≤ t.index ∧ t.index < high then 1 else 0

section Tidy

variable {n low middle high : Nat} {first second : List Stm} {stm : Stm}

/-- Two pieces of code are tidy together if the second draws where the first has stopped. -/
theorem Tidy.append (early : Tidy n low middle first) (late : Tidy n middle high second) :
    Tidy n low high (first ++ second) where
  grown := Nat.le_trans early.grown late.grown
  plain := List.forall_mem_append.mpr ⟨early.plain, late.plain⟩
  assigned := by
    intro t above
    have lower := early.grown
    have upper := late.grown
    rw [List.countP_append, early.assigned t above, late.assigned t above]
    split <;> split <;> split <;> omega

/-- The order of the statements makes no difference. -/
theorem Tidy.perm (tidy : Tidy n low high first) (same : first.Perm second) :
    Tidy n low high second where
  grown := tidy.grown
  plain s member := tidy.plain s (same.mem_iff.mpr member)
  assigned t above := by rw [← same.countP_eq, tidy.assigned t above]

/-- What is made later may have to run earlier. -/
theorem Tidy.prepend (early : Tidy n low middle first) (late : Tidy n middle high second) :
    Tidy n low high (second ++ first) :=
  (early.append late).perm List.perm_append_comm

/-- A statement that assigns none of the temporaries from `n` on. -/
theorem tidy_single (k : Nat) (plain : stm.Plain)
    (older : ∀ t : Temp, n ≤ t.index → stm.assigns t = false) : Tidy n k k [stm] where
  grown := Nat.le_refl k
  plain := List.forall_mem_singleton.mpr plain
  assigned := by
    intro t above
    rw [List.countP_singleton, older t above, if_neg Bool.false_ne_true, if_neg (by omega)]

theorem tidy_nil (n k : Nat) : Tidy n k k [] where
  grown := Nat.le_refl k
  plain := List.forall_mem_nil _
  assigned t _ := by rw [List.countP_nil, if_neg (by omega)]

/-- The move that saves a value in the temporary issued for it. -/
theorem tidy_save (n k : Nat) {value : Exp} (plain : value.Plain) :
    Tidy n k (k + 1) [.move (.temp ⟨k⟩) value] where
  grown := Nat.le_succ k
  plain := List.forall_mem_singleton.mpr (plain_move.mpr ⟨plain_temp _, plain⟩)
  assigned := by
    intro t _
    have here : Stm.assigns t (.move (.temp ⟨k⟩) value) = true ↔ k = t.index := by
      cases t
      rw [Stm.assigns, beq_iff_eq, Temp.mk.injEq]
    simp only [List.countP_singleton, here]
    split <;> split <;> omega

/-- The statement at the end, if it does anything. -/
theorem Tidy.last (tidy : Tidy n low high stm.toList) {final : Stm} (plain : final.Plain)
    (whole : final.isSeq = false) (older : ∀ t : Temp, n ≤ t.index → final.assigns t = false) :
    Tidy n low high (stm.andThen final).toList := by
  rw [toList_andThen]
  apply tidy.append
  by_cases nothing : final.isNop = true
  · rw [toList_of_isNop nothing]
    exact tidy_nil n high
  · rw [toList_single (Bool.eq_false_iff.mpr nothing) (by rintro _ _ rfl; cases whole)]
    exact tidy_single high plain older

end Tidy

/-- An expression was taken apart, from the supply `start` on: the effects are tidy, and no
statement stands inside what is left to evaluate. -/
structure Cleared (n : Nat) (start : Supply) (parts : (Stm × Exp) × Supply) : Prop where
  effects : Tidy n start.temps parts.2.temps parts.1.1.toList
  value : parts.1.2.Plain

section Cleared

variable {n : Nat} {start : Supply}

/-- An operand in front of code that is tidy. -/
theorem Cleared.before {operand : (Stm × Exp) × Supply} {supply : Supply} {later : Stm}
    (cleared : Cleared n supply operand) (rest : Tidy n start.temps supply.temps later.toList) :
    Cleared n start (before operand.1 later operand.2) := by
  by_cases kept : later.keeps operand.1.2 = true
  · rw [before_kept operand.2 kept]
    refine ⟨?_, cleared.value⟩
    rw [toList_andThen]
    exact rest.prepend cleared.effects
  · rw [before_saved operand.2 (Bool.eq_false_iff.mpr kept)]
    refine ⟨?_, plain_temp _⟩
    -- The value is saved after its own effects and before those on its right.
    have saved := tidy_save n operand.2.temps cleared.value
    have all := (rest.append cleared.effects).prepend saved
    rw [← List.append_assoc] at all
    simp only [toList_andThen, Stm.toList, Stm.isNop, Bool.false_eq_true, if_false]
    exact all.perm List.perm_append_comm

/-- Hoisting an operand assigns at most one more temporary, and that once. -/
theorem Cleared.hoist {e : Exp} {parts : Fresh (Stm × Exp)}
    (cleared : ∀ supply : Supply, n ≤ supply.temps → Cleared n supply (parts supply))
    (above : n ≤ start.temps) : Cleared n start (e.hoist parts start) := by
  cases e with
  | call func link args =>
    rw [hoist_call]
    have inner := cleared { start with temps := start.temps + 1 } (Nat.le_succ_of_le above)
    refine ⟨?_, plain_temp _⟩
    simp only [toList_andThen, Stm.toList, Stm.isNop, Bool.false_eq_true, if_false]
    exact (tidy_save n start.temps inner.value).prepend inner.effects
  | _ => exact cleared start above

/-- An operand in front of the effects of those on its right, which came first. -/
theorem Cleared.operand {e : Exp} {parts : Fresh (Stm × Exp)} {later : Stm} {supply : Supply}
    (cleared : ∀ supply : Supply, n ≤ supply.temps → Cleared n supply (parts supply))
    (above : n ≤ start.temps) (rest : Tidy n start.temps supply.temps later.toList) :
    Cleared n start
      (Tree.before (e.hoist parts supply).1 later (e.hoist parts supply).2) :=
  (Cleared.hoist cleared (Nat.le_trans above rest.grown)).before rest

mutual
/-- Extraction leaves an expression without sequences and code that is tidy. The induction is on the
expression, for every supply above its temporaries. -/
theorem cleared_extract : ∀ e : Exp, Below n e.temps → e.allStms Stm.movesToPlace = true →
    ∀ start : Supply, n ≤ start.temps → Cleared n start (e.extract start)
  | .const value, _, _, start, _ => ⟨tidy_nil n start.temps, plain_const value⟩
  | .name label, _, _, start, _ => ⟨tidy_nil n start.temps, plain_name label⟩
  | .temp t, _, _, start, _ => ⟨tidy_nil n start.temps, plain_temp t⟩
  | .binop op left right, below, placed, start, above => by
    simp only [Exp.temps, below_append] at below
    simp only [Exp.allStms, Bool.and_eq_true] at placed
    rw [extract_binop]
    have second := Cleared.hoist (e := right) (cleared_extract right below.2 placed.2) above
    have first := Cleared.operand (e := left) (cleared_extract left below.1 placed.1) above
      second.effects
    exact ⟨first.effects, (plain_binop op).mpr ⟨first.value, second.value⟩⟩
  | .mem address, below, placed, start, above => by
    rw [extract_mem]
    have inner := Cleared.hoist (e := address) (cleared_extract address below placed) above
    exact ⟨inner.effects, plain_mem.mpr inner.value⟩
  | .call func link args, below, placed, start, above => by
    simp only [Exp.temps, below_append] at below
    simp only [Exp.allStms, Bool.and_eq_true] at placed
    rw [extract_call]
    obtain ⟨rest, plainArgs⟩ := cleared_extractArgs args below.2 placed.2 start above
    obtain ⟨linked, plainLink⟩ := cleared_extractLink link below.1.2 placed.1.2 above rest
    have first := Cleared.operand (e := func) (cleared_extract func below.1.1 placed.1.1) above
      linked
    exact ⟨first.effects, plain_call.mpr ⟨first.value, plainLink, plainArgs⟩⟩
  | .eseq stm e, below, placed, start, above => by
    simp only [Exp.temps, below_append] at below
    simp only [Exp.allStms, Bool.and_eq_true] at placed
    rw [extract_eseq]
    have first := tidy_extract stm below.1 placed.1 start above
    have rest := cleared_extract e below.2 placed.2 (stm.extract start).2
      (Nat.le_trans above first.grown)
    refine ⟨?_, rest.value⟩
    rw [toList_andThen]
    exact first.append rest.effects
theorem cleared_extractLink : ∀ link : Option Exp, Below n (Exp.linkTemps link) →
    Exp.linkAllStms Stm.movesToPlace link = true → ∀ {start supply : Supply} {later : Stm},
    n ≤ start.temps → Tidy n start.temps supply.temps later.toList →
    Tidy n start.temps (Exp.extractLink link later supply).2.temps
        (Exp.extractLink link later supply).1.1.toList ∧
      ∀ x ∈ Exp.linkParts (Exp.extractLink link later supply).1.2, x.isEseq = false
  | none, _, _, _, _, _, _, rest => ⟨rest, List.forall_mem_nil _⟩
  | some link, below, placed, _, _, _, above, rest => by
    rw [extractLink_some]
    have first := Cleared.operand (e := link) (cleared_extract link below placed) above rest
    exact ⟨first.effects, first.value⟩
theorem cleared_extractArgs : ∀ args : List Exp, Below n (Exp.listTemps args) →
    Exp.listAllStms Stm.movesToPlace args = true → ∀ start : Supply, n ≤ start.temps →
    Tidy n start.temps (Exp.extractArgs args start).2.temps
        (Exp.extractArgs args start).1.1.toList ∧
      ∀ x ∈ Exp.listParts (Exp.extractArgs args start).1.2, x.isEseq = false
  | [], _, _, start, _ => ⟨tidy_nil n start.temps, List.forall_mem_nil _⟩
  | arg :: args, below, placed, start, above => by
    simp only [Exp.listTemps, below_append] at below
    simp only [Exp.listAllStms, Bool.and_eq_true] at placed
    rw [extractArgs_cons]
    obtain ⟨rest, plainArgs⟩ := cleared_extractArgs args below.2 placed.2 start above
    have first := Cleared.operand (e := arg) (cleared_extract arg below.1 placed.1) above rest
    exact ⟨first.effects, List.forall_mem_append.mpr ⟨first.value, plainArgs⟩⟩
theorem tidy_extractMove {src : Exp}
    (cleared : ∀ start : Supply, n ≤ start.temps → Cleared n start (src.extract start)) :
    ∀ dst : Exp, dst.isPlace = true → Below n dst.temps →
      dst.allStms Stm.movesToPlace = true → ∀ start : Supply, n ≤ start.temps →
      Tidy n start.temps (Exp.extractMove src src.extract dst start).2.temps
        (Exp.extractMove src src.extract dst start).1.toList
  | .temp t, _, below, _, start, above => by
    rw [extractMove_temp]
    have inner := cleared start above
    have older : ∀ u : Temp, n ≤ u.index → t ≠ u := by
      rintro u high rfl
      exact absurd (below t (List.mem_singleton_self t)) (Nat.not_lt.mpr high)
    refine inner.effects.last (plain_move.mpr ⟨plain_temp t, inner.value⟩) rfl ?_
    intro u high
    exact beq_eq_false_iff_ne.mpr (older u high)
  | .mem address, _, below, placed, start, above => by
    rw [extractMove_mem]
    have value := Cleared.hoist (e := src) cleared above
    have place := Cleared.operand (e := address) (cleared_extract address below placed) above
      value.effects
    exact place.effects.last (plain_move.mpr ⟨plain_mem.mpr place.value, value.value⟩) rfl
      fun _ _ => rfl
  | .eseq stm dst, place, below, placed, start, above => by
    simp only [Exp.temps, below_append] at below
    simp only [Exp.allStms, Bool.and_eq_true] at placed
    rw [extractMove_eseq]
    have first := tidy_extract stm below.1 placed.1 start above
    have second := tidy_extractMove cleared dst place below.2 placed.2 (stm.extract start).2
      (Nat.le_trans above first.grown)
    simp only [toList_andThen]
    exact first.append second
/-- A statement is extracted to code that is tidy. -/
theorem tidy_extract : ∀ stm : Stm, Below n stm.temps → stm.allStms Stm.movesToPlace = true →
    ∀ start : Supply, n ≤ start.temps →
    Tidy n start.temps (stm.extract start).2.temps (stm.extract start).1.toList
  | .move dst src, below, placed, start, above => by
    simp only [Stm.temps, below_append] at below
    simp only [Stm.allStms, Stm.movesToPlace, Bool.and_eq_true] at placed
    exact tidy_extractMove (cleared_extract src below.2 placed.2) dst placed.1.1 below.1
      placed.1.2 start above
  | .exp e, below, placed, start, above => by
    simp only [Stm.allStms, Bool.and_eq_true] at placed
    rw [extract_exp]
    have inner := cleared_extract e below placed.2 start above
    exact inner.effects.last inner.value rfl fun _ _ => rfl
  | .jump target labels, below, placed, start, above => by
    simp only [Stm.allStms, Bool.and_eq_true] at placed
    rw [extract_jump]
    have inner := Cleared.hoist (e := target) (cleared_extract target below placed.2) above
    exact inner.effects.last inner.value rfl fun _ _ => rfl
  | .cjump op left right yes no, below, placed, start, above => by
    simp only [Stm.temps, below_append] at below
    simp only [Stm.allStms, Bool.and_eq_true] at placed
    rw [extract_cjump]
    have second := Cleared.hoist (e := right) (cleared_extract right below.2 placed.2) above
    have first := Cleared.operand (e := left) (cleared_extract left below.1 placed.1.2) above
      second.effects
    exact first.effects.last ((plain_cjump op yes no).mpr ⟨first.value, second.value⟩) rfl
      fun _ _ => rfl
  | .seq first second, below, placed, start, above => by
    simp only [Stm.temps, below_append] at below
    simp only [Stm.allStms, Bool.and_eq_true] at placed
    rw [extract_seq]
    have early := tidy_extract first below.1 placed.1.2 start above
    have late := tidy_extract second below.2 placed.2 (first.extract start).2
      (Nat.le_trans above early.grown)
    simp only [toList_andThen]
    exact early.append late
  | .label name, _, _, start, _ =>
    tidy_single start.temps (List.forall_mem_nil _) fun _ _ => rfl
end

end Cleared

/-- The statements of a list made from a sequence are no sequences, and each does something. -/
theorem whole_of_mem_toList {stm part : Stm} (member : part ∈ stm.toList) :
    part.isSeq = false ∧ part.isNop = false := by
  fun_induction Stm.toList stm with
  | case1 first second ihFirst ihSecond =>
    rcases List.mem_append.mp member with early | late
    · exact ihFirst early
    · exact ihSecond late
  | case2 => cases member
  | case3 stm whole something =>
    rw [List.mem_singleton.mp member]
    refine ⟨?_, Bool.eq_false_iff.mpr something⟩
    cases stm with
    | seq first second => exact absurd rfl (whole first second)
    | _ => rfl

/-- In the canonical form of a statement whose moves go to places, and whose temporaries were all
issued before, there are no sequences, no statements that do nothing and no statements inside
expressions. Each of its temporaries is one of the statement or was issued on the way, and each of
those that were issued is assigned by exactly one move. -/
theorem canonical_flat_and_hygienic {stm : Stm} (placed : stm.placed = true) {supply : Supply}
    (below : Below supply.temps stm.temps) :
    (∀ s ∈ (stm.canonical supply).1,
      s.isSeq = false ∧ s.isNop = false ∧ ∀ e ∈ s.parts, e.isEseq = false) ∧
    (∀ s ∈ (stm.canonical supply).1, ∀ t ∈ s.temps,
      t ∈ stm.temps ∨ t.Between supply.temps (stm.canonical supply).2.temps) ∧
    ∀ t : Temp, t.Between supply.temps (stm.canonical supply).2.temps →
      (stm.canonical supply).1.countP (Stm.assigns t) = 1 := by
  have tidy := tidy_extract stm below placed supply (Nat.le_refl _)
  refine ⟨?_, ?_, ?_⟩
  · intro s member
    obtain ⟨whole, something⟩ := whole_of_mem_toList member
    exact ⟨whole, something, tidy.plain s member⟩
  · intro s member t inside
    exact (draws_canonical stm supply).2 t (List.mem_flatMap.mpr ⟨s, member, inside⟩)
  · rintro t ⟨lower, upper⟩
    have once := tidy.assigned t lower
    rw [if_pos ⟨lower, upper⟩] at once
    exact once

/-- In `*(x := 1; x) := *y + (f() * g())`, both addresses and the first call have to be saved. -/
def Stm.sampleNest : Stm :=
  .move (.eseq (.move (.temp ⟨0⟩) (.const 1)) (.mem (.temp ⟨0⟩)))
    (.binop .plus (.mem (.temp ⟨1⟩)) (.eseq (.exp (.const 0)) (.binop .mul (.plainCall "f" [])
      (.plainCall "g" []))))

theorem sampleNest_flat : (Stm.sampleNest.placed = true ∧ Below 2 Stm.sampleNest.temps) ∧
    (Stm.sampleNest.canonical { temps := 2 }).2.temps = 7 ∧
    (∀ s ∈ (Stm.sampleNest.canonical { temps := 2 }).1,
      s.isSeq = false ∧ s.isNop = false ∧ ∀ e ∈ s.parts, e.isEseq = false) ∧
    (∀ s ∈ (Stm.sampleNest.canonical { temps := 2 }).1, ∀ t ∈ s.temps,
      t ∈ Stm.sampleNest.temps ∨ t.Between 2 7) ∧
    ∀ t : Temp, t.Between 2 7 →
      (Stm.sampleNest.canonical { temps := 2 }).1.countP (Stm.assigns t) = 1 := by
  have below : Below 2 Stm.sampleNest.temps := by
    unfold Below
    decide
  have issued : (Stm.sampleNest.canonical { temps := 2 }).2.temps = 7 := by decide
  have placed : Stm.sampleNest.placed = true := by decide
  have flat := @canonical_flat_and_hygienic Stm.sampleNest placed { temps := 2 } below
  rw [issued] at flat
  exact ⟨⟨placed, below⟩, issued, flat⟩

end TreeCode.Tree
