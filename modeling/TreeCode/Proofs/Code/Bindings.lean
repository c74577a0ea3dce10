import TreeCode.Code.InstructionSet
import TreeCode.Proofs.Tree.Occurrences

/-!
What a pattern binds comes from the tree that it matches, and what it leaves to be covered is
smaller. The best match is that of a pattern of the table.
-/

namespace TreeCode

open Tree

/-- The temporaries of a call's operands. -/
def CallOperands.temps : Option CallOperands → List Temp
  | none => []
  | some call => Exp.linkTemps call.link ++ Exp.listTemps call.args

/-- The temporaries of all that is bound and still to be evaluated. -/
def Bindings.temps (b : Bindings) : List Temp :=
  Exp.listTemps b.regs ++ CallOperands.temps b.call

/-- The temporaries of a tree. -/
def Tree.Node.temps : Node → List Temp
  | .exp e => e.temps
  | .stm s => s.temps

theorem listTemps_append (first second : List Exp) :
    Exp.listTemps (first ++ second) = Exp.listTemps first ++ Exp.listTemps second := by
  induction first with
  | nil => rfl
  | cons exp exps carried =>
    rw [List.cons_append, Exp.listTemps, carried, Exp.listTemps, List.append_assoc]

/-- One more subtree to be evaluated into a register. -/
theorem Bindings.temps_reg (b : Bindings) (e : Exp) :
    Bindings.temps { b with regs := b.regs ++ [e] } ⊆ b.temps ++ e.temps := by
  intro t member
  simp only [Bindings.temps, listTemps_append, Exp.listTemps, List.mem_append] at member ⊢
  rcases member with (early | here | none) | call
  · exact .inl (.inl early)
  · exact .inr here
  · cases none
  · exact .inl (.inr call)

/-- What a shape binds was in the expression, or had been bound before. -/
theorem Shape.bindExp_temps (shape : Shape) (e : Exp) (b : Bindings) {b' : Bindings}
    (bound : shape.bindExp? e b = some b') : b'.temps ⊆ b.temps ++ e.temps := by
  fun_induction Shape.bindExp? shape e b generalizing b' with
  | case1 e b =>
    cases bound
    exact b.temps_reg e
  | case2 t b =>
    cases bound
    exact b.temps_reg (.temp t)
  | case3 | case5 | case7 =>
    cases bound
    exact List.subset_append_left _ _
  | case8 left right op l r b middle first carriedLeft carriedRight =>
    intro t member
    have early := @carriedLeft middle first t
    have late := carriedRight bound member
    simp only [Exp.temps, List.mem_append] at early late ⊢
    grind
  | case11 address e b carried => exact carried bound
  | case12 func f link args b middle first carried =>
    cases bound
    intro t member
    have early := @carried middle first t
    simp only [Bindings.temps, CallOperands.temps, Exp.temps, List.mem_append] at early member ⊢
    grind
  | case4 | case6 | case9 | case10 | case13 | case14 => cases bound

section Inversion

variable {e : Exp} {b b' : Bindings}

theorem Shape.bind_reg (bound : Shape.reg.bindExp? e b = some b') :
    b' = { b with regs := b.regs ++ [e] } :=
  (Option.some.inj bound).symm

theorem Shape.bind_temp (bound : Shape.temp.bindExp? e b = some b') :
    ∃ t, e = .temp t ∧ b' = { b with regs := b.regs ++ [.temp t] } := by
  cases e with
  | temp t => exact ⟨t, rfl, (Option.some.inj bound).symm⟩
  | _ => cases bound

theorem Shape.bind_imm {range : ImmRange} (bound : (Shape.imm range).bindExp? e b = some b') :
    ∃ value, e = .const value ∧ range.contains value = true ∧
      b' = { b with imms := b.imms ++ [value] } := by
  cases e with
  | const value =>
    unfold Shape.bindExp? at bound
    split at bound
    next fits => exact ⟨value, rfl, fits, by simpa using bound.symm⟩
    next => cases bound
  | _ => cases bound

theorem Shape.bind_name (bound : Shape.name.bindExp? e b = some b') :
    ∃ label, e = .name label ∧ b' = { b with labels := b.labels ++ [label] } := by
  cases e with
  | name label => exact ⟨label, rfl, (Option.some.inj bound).symm⟩
  | _ => cases bound

theorem Shape.bind_binop {op : BinOp} {left right : Shape}
    (bound : (Shape.binop op left right).bindExp? e b = some b') :
    ∃ l r middle, e = .binop op l r ∧ left.bindExp? l b = some middle ∧
      right.bindExp? r middle = some b' := by
  cases e with
  | binop actual l r =>
    unfold Shape.bindExp? at bound
    split at bound
    next same =>
      subst same
      cases first : left.bindExp? l b with
      | none => simp [first] at bound
      | some middle => exact ⟨l, r, middle, rfl, first, by simpa [first] using bound⟩
    next => cases bound
  | _ => cases bound

theorem Shape.bind_mem {address : Shape} (bound : (Shape.mem address).bindExp? e b = some b') :
    ∃ place, e = .mem place ∧ address.bindExp? place b = some b' := by
  cases e with
  | mem place => exact ⟨place, rfl, bound⟩
  | _ => cases bound

theorem Shape.bind_call {func : Shape} (bound : (Shape.call func).bindExp? e b = some b') :
    ∃ f link args, e = .call f link args := by
  cases e with
  | call f link args => exact ⟨f, link, args, rfl⟩
  | _ => cases bound

end Inversion

/-- A statement that matches is taken apart as the shape says. -/
theorem Shape.bindStm_some {shape : Shape} {s : Stm} {b b' : Bindings}
    (bound : shape.bindStm? s b = some b') :
    (∃ dst src d e middle, shape = .move dst src ∧ s = .move d e ∧
      dst.bindExp? d b = some middle ∧ src.bindExp? e middle = some b') ∨
    (∃ inner e, shape = .exp inner ∧ s = .exp e ∧ inner.bindExp? e b = some b') ∨
    (∃ target e labels middle, shape = .jump target ∧ s = .jump e labels ∧
      target.bindExp? e b = some middle ∧
      b' = { middle with labels := middle.labels ++ labels }) ∨
    ∃ op left right actual l r yes no middle last, shape = .cjump op left right ∧
      s = .cjump actual l r yes no ∧ left.bindExp? l { b with relop := some actual } = some middle ∧
      right.bindExp? r middle = some last ∧
      b' = { last with labels := last.labels ++ [yes, no] } := by
  fun_cases Shape.bindStm? shape s b with
  | case1 dst src d e b middle first =>
    rw [Shape.bindStm?, first] at bound
    exact .inl ⟨dst, src, d, e, middle, rfl, rfl, first, bound⟩
  | case3 inner e b => exact .inr (.inl ⟨inner, e, rfl, rfl, bound⟩)
  | case4 target e labels b middle first =>
    rw [Shape.bindStm?, first] at bound
    cases bound
    exact .inr (.inr (.inl ⟨target, e, labels, middle, rfl, rfl, first, rfl⟩))
  | case6 op left right actual l r yes no b same middle first last second =>
    simp only [Shape.bindStm?, same, first, second, if_true] at bound
    cases bound
    exact .inr (.inr (.inr
      ⟨op, left, right, actual, l, r, yes, no, middle, last, rfl, rfl, first, second, rfl⟩))
  | case2 dst src d e b first => simp [Shape.bindStm?, first] at bound
  | case5 target e labels b first => simp [Shape.bindStm?, first] at bound
  | case7 op left right actual l r yes no b same middle first second =>
    simp [Shape.bindStm?, same, first, second] at bound
  | case8 op left right actual l r yes no b same first =>
    simp [Shape.bindStm?, same, first] at bound
  | case9 op left right actual l r yes no b other => simp [Shape.bindStm?, other] at bound
  | case10 => simp_all [Shape.bindStm?]

section Inversion

variable {s : Stm} {b b' : Bindings}

theorem Shape.bind_move {dst src : Shape} (bound : (Shape.move dst src).bindStm? s b = some b') :
    ∃ d e middle, s = .move d e ∧ dst.bindExp? d b = some middle ∧
      src.bindExp? e middle = some b' := by
  rcases bindStm_some bound with ⟨_, _, d, e, middle, same, rfl, first, second⟩ |
    ⟨_, _, other, _⟩ | ⟨_, _, _, _, other, _⟩ | ⟨_, _, _, _, _, _, _, _, _, _, other, _⟩
  · cases same
    exact ⟨d, e, middle, rfl, first, second⟩
  · cases other
  · cases other
  · cases other

theorem Shape.bind_exp {inner : Shape} (bound : (Shape.exp inner).bindStm? s b = some b') :
    ∃ e, s = .exp e ∧ inner.bindExp? e b = some b' := by
  rcases bindStm_some bound with ⟨_, _, _, _, _, other, _⟩ | ⟨_, e, same, rfl, first⟩ |
    ⟨_, _, _, _, other, _⟩ | ⟨_, _, _, _, _, _, _, _, _, _, other, _⟩
  · cases other
  · cases same
    exact ⟨e, rfl, first⟩
  · cases other
  · cases other

theorem Shape.bind_jump {target : Shape} (bound : (Shape.jump target).bindStm? s b = some b') :
    ∃ e labels middle, s = .jump e labels ∧ target.bindExp? e b = some middle ∧
      b' = { middle with labels := middle.labels ++ labels } := by
  rcases bindStm_some bound with ⟨_, _, _, _, _, other, _⟩ | ⟨_, _, other, _⟩ |
    ⟨_, e, labels, middle, same, rfl, first, rfl⟩ | ⟨_, _, _, _, _, _, _, _, _, _, other, _⟩
  · cases other
  · cases other
  · cases same
    exact ⟨e, labels, middle, rfl, first, rfl⟩
  · cases other

theorem Shape.bind_cjump {op : Option RelOp} {left right : Shape}
    (bound : (Shape.cjump op left right).bindStm? s b = some b') :
    ∃ actual l r yes no middle last, s = .cjump actual l r yes no ∧
      left.bindExp? l { b with relop := some actual } = some middle ∧
      right.bindExp? r middle = some last ∧
      b' = { last with labels := last.labels ++ [yes, no] } := by
  rcases bindStm_some bound with ⟨_, _, _, _, _, other, _⟩ | ⟨_, _, other, _⟩ |
    ⟨_, _, _, _, other, _⟩ |
    ⟨_, _, _, actual, l, r, yes, no, middle, last, same, rfl, first, second, rfl⟩
  · cases other
  · cases other
  · cases other
  · cases same
    exact ⟨actual, l, r, yes, no, middle, last, rfl, first, second, rfl⟩

end Inversion

theorem Shape.bindStm_temps (shape : Shape) (s : Stm) (b : Bindings) {b' : Bindings}
    (bound : shape.bindStm? s b = some b') : b'.temps ⊆ b.temps ++ s.temps := by
  rcases bindStm_some bound with
    ⟨dst, src, d, e, middle, rfl, rfl, first, second⟩ | ⟨inner, e, rfl, rfl, first⟩ |
    ⟨target, e, labels, middle, rfl, rfl, first, rfl⟩ |
    ⟨op, left, right, actual, l, r, yes, no, middle, last, rfl, rfl, first, second, rfl⟩
  · intro t member
    have early := @Shape.bindExp_temps dst d b middle first t
    have late := src.bindExp_temps e middle second member
    simp only [Stm.temps, List.mem_append] at early late ⊢
    grind
  · exact inner.bindExp_temps e b first
  · have inner := target.bindExp_temps e b first
    exact inner
  · intro t member
    have early := @Shape.bindExp_temps left l _ middle first t
    have late := right.bindExp_temps r middle second member
    simp only [Bindings.temps, Stm.temps, List.mem_append] at early late ⊢
    grind

theorem Shape.match_temps {shape : Shape} {tree : Node} {b : Bindings}
    (matched : shape.match? tree = some b) : b.temps ⊆ tree.temps := by
  unfold Shape.match? at matched
  cases tree with
  | exp e =>
    simp only at matched
    split at matched
    next => cases matched
    next => exact shape.bindExp_temps e {} matched
  | stm s =>
    simp only at matched
    split at matched
    next => exact shape.bindStm_temps s {} matched
    next => cases matched

theorem listSize_append (first second : List Exp) :
    Exp.listSize (first ++ second) = Exp.listSize first + Exp.listSize second := by
  induction first with
  | nil => simp [Exp.listSize]
  | cons exp exps ih => simp [Exp.listSize, ih, Nat.add_assoc]

/-- Whether a shape says more of an expression than that it is to be in a register. -/
def Shape.inspects : Shape → Bool
  | .reg => false
  | .temp => false
  | _ => true

/-- What a match of an expression leaves is no larger than the expression, and smaller if the
shape inspects it. -/
theorem Shape.bindExp_load (shape : Shape) (e : Exp) (b : Bindings) {b' : Bindings}
    (bound : shape.bindExp? e b = some b') :
    b'.load + (if shape.inspects then 1 else 0) ≤ b.load + e.size := by
  fun_induction Shape.bindExp? shape e b generalizing b' with
  | case1 e b =>
    cases bound
    simp [Bindings.load, listSize_append, Exp.listSize, inspects]
    omega
  | case2 t b =>
    cases bound
    simp [Bindings.load, listSize_append, Exp.listSize, Exp.size, inspects]
    omega
  | case3 | case5 | case7 =>
    cases bound
    simp [Bindings.load, Exp.size, inspects]
  | case8 left right op l r b middle first carriedLeft carriedRight =>
    have early := carriedLeft first
    have late := carriedRight bound
    simp only [Exp.size, inspects, if_true]
    omega
  | case11 address e b carried =>
    have inner := carried bound
    simp only [Exp.size, inspects, if_true]
    omega
  | case12 func f link args b middle first carried =>
    cases bound
    have inner := carried first
    simp only [Bindings.load, CallOperands.load, Exp.size, inspects, if_true] at inner ⊢
    omega
  | case4 | case6 | case9 | case10 | case13 | case14 => cases bound

/-- A statement has more nodes than what is left of it to cover. -/
theorem Shape.bindStm_load (shape : Shape) (s : Stm) (b : Bindings) {b' : Bindings}
    (bound : shape.bindStm? s b = some b') : b'.load < b.load + s.size := by
  rcases bindStm_some bound with
    ⟨dst, src, d, e, middle, rfl, rfl, first, second⟩ | ⟨inner, e, rfl, rfl, first⟩ |
    ⟨target, e, labels, middle, rfl, rfl, first, rfl⟩ |
    ⟨op, left, right, actual, l, r, yes, no, middle, last, rfl, rfl, first, second, rfl⟩
  · have early := dst.bindExp_load d b first
    have late := src.bindExp_load e middle second
    simp only [Stm.size]
    omega
  · have early := inner.bindExp_load e b first
    simp only [Stm.size]
    omega
  · have early := target.bindExp_load e b first
    simp only [Bindings.load, Stm.size] at early ⊢
    omega
  · have early := left.bindExp_load l _ first
    have late := right.bindExp_load r middle second
    simp only [Bindings.load, Stm.size] at early late ⊢
    omega

/-- A pattern that inspects the root of a tree leaves less than the tree. -/
theorem Shape.match_load {shape : Shape} {tree : Node} {b : Bindings}
    (inspects : shape.inspects = true) (matched : shape.match? tree = some b) :
    b.load < tree.size := by
  unfold Shape.match? at matched
  cases tree with
  | exp e =>
    simp only at matched
    split at matched
    next => cases matched
    next =>
      have load := shape.bindExp_load e {} matched
      simp only [inspects, if_true, Bindings.load, Exp.listSize, CallOperands.load,
        Node.size] at load ⊢
      omega
  | stm s =>
    simp only at matched
    split at matched
    next =>
      have load := shape.bindStm_load s {} matched
      simp only [Bindings.load, Exp.listSize, CallOperands.load, Node.size] at load ⊢
      omega
    next => cases matched

section Best

variable {isa : InstructionSet} {tree : Node} {best : Option Match} {pattern : Pattern}
  {found : Match}

/-- A pattern that takes the place of the best one so far matches the tree. -/
theorem InstructionSet.improve_eq (tree : Node) (best : Option Match) (pattern : Pattern) :
    improve tree best pattern = best ∨
      ∃ bindings, pattern.shape.match? tree = some bindings ∧
        improve tree best pattern = some { pattern, bindings } := by
  unfold improve
  cases matched : pattern.shape.match? tree with
  | none => exact .inl rfl
  | some bindings =>
    cases best with
    | none => exact .inr ⟨bindings, rfl, rfl⟩
    | some current =>
      by_cases larger : current.pattern.shape.size < pattern.shape.size
      · simp [larger]
      · simp [larger]

/-- The best match is the one given, or that of a pattern of the list. -/
theorem InstructionSet.foldl_improve {patterns : List Pattern}
    (picked : patterns.foldl (improve tree) best = some found) :
    best = some found ∨
      found.pattern ∈ patterns ∧ found.pattern.shape.match? tree = some found.bindings := by
  induction patterns generalizing best with
  | nil => exact .inl picked
  | cons pattern patterns ih =>
    rcases ih picked with here | ⟨member, matched⟩
    · rcases improve_eq tree best pattern with same | ⟨bindings, matched, made⟩
      · exact .inl (same.symm.trans here)
      · rw [made] at here
        cases here
        exact .inr ⟨List.mem_cons_self, matched⟩
    · exact .inr ⟨List.mem_cons_of_mem pattern member, matched⟩

/-- The best match is that of a pattern of the table. -/
theorem InstructionSet.pick_matches (picked : isa.pick tree = some found) :
    found.pattern ∈ isa.patterns ∧ found.pattern.shape.match? tree = some found.bindings := by
  rcases foldl_improve picked with none | matched
  · cases none
  · exact matched

/-- A match is never lost. -/
theorem InstructionSet.isSome_improve
    (given : best.isSome = true ∨ (pattern.shape.match? tree).isSome = true) :
    (improve tree best pattern).isSome = true := by
  unfold improve
  cases matched : pattern.shape.match? tree with
  | none => simpa [matched] using given
  | some bindings =>
    cases best with
    | none => rfl
    | some current =>
      by_cases larger : current.pattern.shape.size < pattern.shape.size
      · simp [larger]
      · simp [larger]

theorem InstructionSet.isSome_foldl (given : best.isSome = true) (patterns : List Pattern) :
    (patterns.foldl (improve tree) best).isSome = true := by
  induction patterns generalizing best with
  | nil => exact given
  | cons pattern patterns ih => exact ih (isSome_improve (.inl given))

/-- There is a best match as soon as some pattern of the table matches. -/
theorem InstructionSet.pick_of_match {bindings : Bindings} (member : pattern ∈ isa.patterns)
    (matched : pattern.shape.match? tree = some bindings) :
    ∃ found, isa.pick tree = some found := by
  obtain ⟨before, behind, split⟩ := List.append_of_mem member
  apply Option.isSome_iff_exists.mp
  rw [pick, split, List.foldl_append, List.foldl_cons]
  exact isSome_foldl (isSome_improve (.inr (by rw [matched]; rfl))) behind

/-- What the best pattern leaves to be evaluated is part of the tree. -/
theorem InstructionSet.pick_temps (picked : isa.pick tree = some found) :
    found.bindings.temps ⊆ tree.temps :=
  Shape.match_temps (pick_matches picked).2

/-- What covers a tree is the pattern picked for it. -/
theorem InstructionSet.cover_ok {covered : { found : Match // found.load < tree.size }}
    (ran : isa.cover tree = .ok covered) : isa.pick tree = some covered.val := by
  unfold cover at ran
  split at ran
  next => cases ran
  next found picked =>
    split at ran
    next =>
      cases ran
      exact picked
    next => cases ran

end Best

end TreeCode
