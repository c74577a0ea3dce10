import TreeCode.Proofs.Code.Templates

/-!
The nodes of a tree that is matched are those that the shape covers and those of the subtrees that
it binds. So how much is still to be covered is known beforehand, and so is how many operands of each
kind there are.
-/

namespace TreeCode

open Tree

namespace Shape

/-- The leaves of a shape that bind registers, from left to right: whether they are open to any
expression, or to temporaries only. -/
def leaves : Shape → List Bool
  | reg => [true]
  | temp => [false]
  | imm _ | const _ | name => []
  | binop _ left right | move left right | cjump _ left right => left.leaves ++ right.leaves
  | mem inner | call inner | exp inner | jump inner => inner.leaves

/-- How many calls there are in a shape. -/
def calls : Shape → Nat
  | reg | temp | imm _ | const _ | name => 0
  | binop _ left right | move left right | cjump _ left right => left.calls + right.calls
  | mem inner | exp inner | jump inner => inner.calls
  | call func => func.calls + 1

end Shape

/-- The subtrees at open leaves, of those that are bound at all these leaves. -/
def opened (leaves : List Bool) (regs : List Exp) : List Exp :=
  ((leaves.zip regs).filter (·.1)).map (·.2)

theorem opened_append {leaves leaves' : List Bool} {regs regs' : List Exp}
    (count : regs.length = leaves.length) :
    opened (leaves ++ leaves') (regs ++ regs') = opened leaves regs ++ opened leaves' regs' := by
  simp [opened, List.zip_append count.symm]

/-- The labels that a tree may jump to besides those of its own operands. -/
def Tree.Node.targets : Node → List Label
  | .stm (.jump _ labels) => labels
  | _ => []

/-- Whether a call is bound, as a number. -/
def Bindings.calls (b : Bindings) : Nat := b.call.toList.length

/-- What is bound in addition when a shape with these leaves and `calls`, which covers `covered`
nodes, has matched a tree of `size` nodes. A second call would take the place of the first one. -/
structure Accounts (leaves : List Bool) (calls covered size : Nat) (b b' : Bindings) : Prop where
  counted : b.calls + calls ≤ 1 → b'.calls = b.calls + calls
  bound : ∃ regs, b'.regs = b.regs ++ regs ∧ regs.length = leaves.length ∧
    (b.calls + calls ≤ 1 → size + CallOperands.load b.call =
      covered + Exp.listSize (opened leaves regs) + CallOperands.load b'.call)

section Accounts

variable {leaves leaves' : List Bool} {calls calls' covered covered' size size' : Nat}
  {b b' middle : Bindings}

/-- Two subtrees, one after the other. -/
theorem Accounts.both (first : Accounts leaves calls covered size b middle)
    (second : Accounts leaves' calls' covered' size' middle b') :
    Accounts (leaves ++ leaves') (calls + calls') (covered + covered') (size + size') b b' where
  counted few := by
    have early := first.counted (by omega)
    have late := second.counted (by omega)
    omega
  bound := by
    obtain ⟨regs, added, count, sizes⟩ := first.bound
    obtain ⟨regs', added', count', sizes'⟩ := second.bound
    refine ⟨regs ++ regs', ?_, ?_, ?_⟩
    · rw [added', added, List.append_assoc]
    · rw [List.length_append, List.length_append, count, count']
    · intro few
      have early := first.counted (by omega)
      have sizes := sizes (by omega)
      have sizes' := sizes' (by omega)
      rw [opened_append count, listSize_append]
      omega

/-- A node that is covered, with its subtrees. -/
theorem Accounts.node (inner : Accounts leaves calls covered size b b') :
    Accounts leaves calls (1 + covered) (1 + size) b b' where
  counted := inner.counted
  bound := by
    obtain ⟨regs, added, count, sizes⟩ := inner.bound
    refine ⟨regs, added, count, ?_⟩
    intro few
    have sizes := sizes few
    omega

theorem Bindings.load_of_no_call (none : b.calls = 0) : CallOperands.load b.call = 0 := by
  cases called : b.call with
  | none => rfl
  | some call => simp [Bindings.calls, called] at none

/-- A call, when its function has been matched. The function has no call inside, so none is lost. -/
theorem Accounts.call (func : Accounts leaves calls covered size b middle) (link : Option Exp)
    (args : List Exp) :
    Accounts leaves (calls + 1) (1 + covered) (1 + size + Exp.linkSize link + Exp.listSize args) b
      { middle with call := some { link, args } } where
  counted few := by
    change 1 = b.calls + (calls + 1)
    omega
  bound := by
    obtain ⟨regs, added, count, sizes⟩ := func.bound
    refine ⟨regs, added, count, ?_⟩
    intro few
    have none := func.counted (by omega)
    have nothing := middle.load_of_no_call (by omega)
    have sizes := sizes (by omega)
    change _ = _ + (Exp.linkSize link + Exp.listSize args)
    omega

/-- A leaf that binds nothing to a register. -/
theorem accounts_leaf (regs : b'.regs = b.regs) (call : b'.call = b.call) :
    Accounts [] 0 1 1 b b' where
  counted _ := by rw [Bindings.calls, call, Bindings.calls, Nat.add_zero]
  bound := by
    refine ⟨[], by rw [regs, List.append_nil], rfl, fun _ => ?_⟩
    rw [call]
    rfl

end Accounts

/-- The nodes of an expression are those that the shape covers and those of what it binds. -/
theorem Shape.bindExp_accounts (shape : Shape) (e : Exp) (b : Bindings) {b' : Bindings}
    (bound : shape.bindExp? e b = some b') :
    Accounts shape.leaves shape.calls shape.size e.size b b' := by
  fun_induction Shape.bindExp? shape e b generalizing b' with
  | case1 e b =>
    cases bound
    refine ⟨fun _ => rfl, [e], rfl, rfl, fun _ => ?_⟩
    simp [leaves, opened, Exp.listSize, Shape.size]
  | case2 t b =>
    cases bound
    refine ⟨fun _ => rfl, [.temp t], rfl, rfl, fun _ => ?_⟩
    simp [leaves, opened, Exp.listSize, Exp.size, Shape.size]
  | case3 | case5 | case7 =>
    cases bound
    exact accounts_leaf rfl rfl
  | case8 left right op l r b middle first carriedLeft carriedRight =>
    simp only [leaves, calls, Shape.size, Exp.size, Nat.add_assoc]
    exact ((carriedLeft first).both (carriedRight bound)).node
  | case11 address e b carried =>
    simp only [leaves, calls, Shape.size, Exp.size]
    exact (carried bound).node
  | case12 func f link args b middle first carried =>
    cases bound
    simp only [leaves, calls, Shape.size, Exp.size]
    exact (carried first).call link args
  | case4 | case6 | case9 | case10 | case13 | case14 => cases bound

theorem Shape.bindStm_accounts (shape : Shape) (s : Stm) (b : Bindings) {b' : Bindings}
    (bound : shape.bindStm? s b = some b') :
    Accounts shape.leaves shape.calls shape.size s.size b b' := by
  rcases bindStm_some bound with
    ⟨dst, src, d, e, middle, rfl, rfl, first, second⟩ | ⟨inner, e, rfl, rfl, first⟩ |
    ⟨target, e, labels, middle, rfl, rfl, first, rfl⟩ |
    ⟨op, left, right, actual, l, r, yes, no, middle, last, rfl, rfl, first, second, rfl⟩
  · simp only [leaves, calls, Shape.size, Stm.size, Nat.add_assoc]
    exact ((dst.bindExp_accounts d b first).both (src.bindExp_accounts e middle second)).node
  · exact (inner.bindExp_accounts e b first).node
  · have inner := (target.bindExp_accounts e b first).node
    exact ⟨inner.counted, inner.bound⟩
  · have both := ((left.bindExp_accounts l _ first).both
      (right.bindExp_accounts r middle second)).node
    simp only [leaves, calls, Shape.size, Stm.size, Nat.add_assoc]
    exact ⟨both.counted, both.bound⟩

section Matches

variable {shape : Shape} {tree : Node} {b : Bindings}

/-- The nodes of a tree are those that a shape covers and those of what it binds, in registers at
open leaves and with a call. -/
theorem Shape.match_size (few : shape.calls ≤ 1) (matched : shape.match? tree = some b) :
    tree.size = shape.size + Exp.listSize (opened shape.leaves b.regs) +
      CallOperands.load b.call := by
  have accounts : Accounts shape.leaves shape.calls shape.size tree.size {} b := by
    rcases match_bound matched with ⟨e, rfl, -, bound⟩ | ⟨s, rfl, -, bound⟩
    · exact shape.bindExp_accounts e {} bound
    · exact shape.bindStm_accounts s {} bound
  obtain ⟨regs, added, -, sizes⟩ := accounts.bound
  have start : Bindings.calls {} + shape.calls ≤ 1 := by
    change 0 + shape.calls ≤ 1
    omega
  rw [added]
  exact sizes start

/-- How many operands of each kind are bound depends on the shape and on how many labels a jump
lists. -/
theorem Shape.match_counts (matched : shape.match? tree = some b) :
    b.regs.length = shape.capacity.regs ∧ b.imms.length = shape.capacity.imms ∧
      b.labels.length = shape.capacity.labels + tree.targets.length := by
  rcases match_bound matched with ⟨e, rfl, -, bound⟩ | ⟨s, rfl, -, bound⟩
  · obtain ⟨regs, imms, labels, -⟩ := shape.bindExp_capacity e {} bound
    simp [Node.targets, regs, imms, labels]
  · rcases bindStm_some bound with
      ⟨dst, src, d, e, middle, rfl, rfl, first, second⟩ | ⟨inner, e, rfl, rfl, first⟩ |
      ⟨target, e, labels, middle, rfl, rfl, first, rfl⟩ |
      ⟨op, left, right, actual, l, r, yes, no, middle, last, rfl, rfl, first, second, rfl⟩
    · have early := dst.bindExp_capacity d {} first
      have late := src.bindExp_capacity e middle second
      simp [capacity, Node.targets, late, early]
    · have inner := inner.bindExp_capacity e {} first
      simp [capacity, Node.targets, inner]
    · have inner := target.bindExp_capacity e {} first
      simp [capacity, Node.targets, inner]
    · have early := left.bindExp_capacity l _ first
      have late := right.bindExp_capacity r middle second
      simp [capacity, Node.targets, late, early]

end Matches

end TreeCode
