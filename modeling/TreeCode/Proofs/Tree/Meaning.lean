import TreeCode.Tree.Basic

/-!
The meaning of tree code. A model says what words are and what operators, memory and calls do with
them; trees are then evaluated strictly from left to right. A call may depend on and change the
world in any way, but it leaves temporaries alone.

Transfers of control are no part of this: they are left to machines that run lists of statements.
-/

namespace TreeCode.Tree

/-- What the parts of tree code mean. `V` are the words; `W` is the world, which holds the memory
and all else that calls can see or change. -/
structure Model (V W : Type) where
  const : Int → V
  /-- The address of a label. -/
  name : Label → V
  binop : BinOp → V → V → V
  holds : RelOp → V → V → Bool
  load : W → V → V
  /-- The world with a word stored at an address. -/
  store : W → V → V → W
  /-- A call of a function with a link and arguments. -/
  call : V → Option V → List V → W → V × W

/-- A state of a program. -/
structure State (V W : Type) where
  temps : Temp → V
  world : W

namespace State

variable {V W : Type}

/-- The state in which `t` holds `v`. -/
def set (σ : State V W) (t : Temp) (v : V) : State V W :=
  { σ with temps := fun u => if u = t then v else σ.temps u }

/-- The state with another world. -/
def withWorld (σ : State V W) (world : W) : State V W :=
  { σ with world }

@[simp] theorem set_world (σ : State V W) (t : Temp) (v : V) : (σ.set t v).world = σ.world := rfl

@[simp] theorem set_temps_same (σ : State V W) (t : Temp) (v : V) : (σ.set t v).temps t = v := by
  simp [set]

theorem set_temps_ne (σ : State V W) {t u : Temp} (v : V) (different : u ≠ t) :
    (σ.set t v).temps u = σ.temps u := by
  simp [set, different]

@[simp] theorem withWorld_world (σ : State V W) (world : W) :
    (σ.withWorld world).world = world := rfl

@[simp] theorem withWorld_temps (σ : State V W) (world : W) :
    (σ.withWorld world).temps = σ.temps := rfl

@[simp] theorem withWorld_withWorld (σ : State V W) (world world' : W) :
    (σ.withWorld world).withWorld world' = σ.withWorld world' := rfl

@[simp] theorem withWorld_self (σ : State V W) : σ.withWorld σ.world = σ := rfl

end State

namespace Model

variable {V W : Type}

mutual
/-- The value of an expression, and the state after it. -/
def eval (M : Model V W) : Exp → State V W → V × State V W
  | .const value, σ => (M.const value, σ)
  | .name label, σ => (M.name label, σ)
  | .temp t, σ => (σ.temps t, σ)
  | .binop op left right, σ =>
    let a := M.eval left σ
    let b := M.eval right a.2
    (M.binop op a.1 b.1, b.2)
  | .mem address, σ =>
    let a := M.eval address σ
    (M.load a.2.world a.1, a.2)
  | .call func link args, σ =>
    let f := M.eval func σ
    let l := M.evalLink link f.2
    let vs := M.evalAll args l.2
    let result := M.call f.1 l.1 vs.1 vs.2.world
    (result.1, vs.2.withWorld result.2)
  | .eseq stm exp, σ => M.eval exp (M.exec stm σ)
/-- The value of a call's link. -/
def evalLink (M : Model V W) : Option Exp → State V W → Option V × State V W
  | none, σ => (none, σ)
  | some link, σ =>
    let l := M.eval link σ
    (some l.1, l.2)
/-- The values of expressions in order. -/
def evalAll (M : Model V W) : List Exp → State V W → List V × State V W
  | [], σ => ([], σ)
  | exp :: exps, σ =>
    let v := M.eval exp σ
    let vs := M.evalAll exps v.2
    (v.1 :: vs.1, vs.2)
/-- The state after a move into the given destination, where `src` evaluates what is moved. The
address of a place in memory comes first. A move that goes to no place only evaluates. -/
def assign (M : Model V W) (src : State V W → V × State V W) : Exp → State V W → State V W
  | .temp t, σ =>
    let v := src σ
    v.2.set t v.1
  | .mem address, σ =>
    let a := M.eval address σ
    let v := src a.2
    v.2.withWorld (M.store v.2.world a.1 v.1)
  | .eseq stm dst, σ => M.assign src dst (M.exec stm σ)
  | _, σ => (src σ).2
/-- The state after a statement. Jumps and labels do nothing here. -/
def exec (M : Model V W) : Stm → State V W → State V W
  | .move dst src, σ => M.assign (M.eval src) dst σ
  | .exp exp, σ => (M.eval exp σ).2
  | .jump _ _, σ => σ
  | .cjump _ _ _ _ _, σ => σ
  | .seq first second, σ => M.exec second (M.exec first σ)
  | .label _, σ => σ
end

/-- The state after statements in order. -/
def execAll (M : Model V W) : List Stm → State V W → State V W
  | [], σ => σ
  | stm :: stms, σ => M.execAll stms (M.exec stm σ)

theorem execAll_append (M : Model V W) (first second : List Stm) (σ : State V W) :
    M.execAll (first ++ second) σ = M.execAll second (M.execAll first σ) := by
  induction first generalizing σ with
  | nil => rfl
  | cons stm stms ih => exact ih (M.exec stm σ)

-- An operand is evaluated before the statements of those on its right.
example (M : Model V W) (σ : State V W) :
    (M.eval (.binop .plus (.temp ⟨0⟩)
      (.eseq (.move (.temp ⟨0⟩) (.const 1)) (.temp ⟨0⟩))) σ).1 =
        M.binop .plus (σ.temps ⟨0⟩) (M.const 1) := by
  cbv

end Model

end TreeCode.Tree
