import TreeCode.Proofs.Tree.Occurrences
import TreeCode.Proofs.Tree.Words

/-!
Tree code on a machine whose memory is made of bytes. A word is stored as eight bytes, the lowest
first. Dividing by zero is undefined, and so is a quotient that no word can hold.
-/

namespace TreeCode.Tree

open Source (Word)

/-- The byte at each address. -/
abbrev Memory := Word → BitVec 8

/-- The word in memory at an address. Addresses wrap around. -/
def Memory.load (memory : Memory) (address : Word) : Word :=
  memory (address + 7) ++ memory (address + 6) ++ memory (address + 5) ++ memory (address + 4) ++
    memory (address + 3) ++ memory (address + 2) ++ memory (address + 1) ++ memory address

/-- The memory after a word is stored at an address. -/
def Memory.store (memory : Memory) (address value : Word) : Memory := fun place =>
  let distance := (place - address).toNat
  if distance < 8 then value.extractLsb' (8 * distance) 8 else memory place

/-- The machine on which labels have the given addresses. Calls are no part of this. -/
def Model.bytes (address : Label → Word) : Model Word Memory where
  const value := .ofInt 64 value
  name := address
  binop := BinOp.apply
  holds := RelOp.holds
  load := Memory.load
  store := Memory.store
  call _ _ _ memory := (0, memory)

/-- Whether an operation is defined. -/
def BinOp.defined : BinOp → Word → Word → Bool
  | .div, a, b => b != 0 && !(a == BitVec.intMin 64 && b == -1)
  | _, _, _ => true

namespace Model

variable {V W : Type}

/-- The value of an expression. -/
def value (M : Model V W) (σ : State V W) (e : Exp) : V := (M.eval e σ).1

/-- Evaluating a flat expression changes nothing. -/
theorem eval_flat (M : Model V W) (σ : State V W) {e : Exp} (flat : e.isFlat = true) :
    M.eval e σ = (M.value σ e, σ) := by
  unfold value
  fun_induction Exp.isFlat e with
  | case1 | case2 | case3 => simp [eval]
  | case4 op left right ihLeft ihRight =>
    simp only [Bool.and_eq_true] at flat
    rw [eval, ihLeft flat.1, ihRight flat.2]
  | case5 address ih => rw [eval, ih flat]
  | case6 | case7 => cases flat

@[simp] theorem value_const (M : Model V W) (σ : State V W) (value : Int) :
    M.value σ (.const value) = M.const value := by
  simp [Model.value, eval]

@[simp] theorem value_name (M : Model V W) (σ : State V W) (label : Label) :
    M.value σ (.name label) = M.name label := by
  simp [Model.value, eval]

@[simp] theorem value_temp (M : Model V W) (σ : State V W) (t : Temp) :
    M.value σ (.temp t) = σ.temps t := by
  simp [Model.value, eval]

theorem value_binop (M : Model V W) (σ : State V W) {op : BinOp} {left right : Exp}
    (flat : left.isFlat = true) :
    M.value σ (.binop op left right) = M.binop op (M.value σ left) (M.value σ right) := by
  rw [value, eval, eval_flat M σ flat]
  rfl

theorem value_mem (M : Model V W) (σ : State V W) {address : Exp} (flat : address.isFlat = true) :
    M.value σ (.mem address) = M.load σ.world (M.value σ address) := by
  rw [value, eval, eval_flat M σ flat]

/-- The value of a flat expression is fixed by the memory and by its temporaries. -/
theorem value_congr (M : Model V W) {σ τ : State V W} {e : Exp} (flat : e.isFlat = true)
    (world : σ.world = τ.world) (same : ∀ t ∈ e.temps, σ.temps t = τ.temps t) :
    M.value σ e = M.value τ e := by
  fun_induction Exp.isFlat e with
  | case1 | case2 => simp
  | case3 t => simpa using same t (by simp [Exp.temps])
  | case4 op left right ihLeft ihRight =>
    simp only [Bool.and_eq_true] at flat
    simp only [Exp.temps, List.mem_append] at same
    rw [value_binop M σ flat.1, value_binop M τ flat.1,
      ihLeft flat.1 fun t member => same t (.inl member),
      ihRight flat.2 fun t member => same t (.inr member)]
  | case5 address ih => rw [value_mem M σ flat, value_mem M τ flat, world, ih flat same]
  | case6 | case7 => cases flat

theorem exec_move_temp (M : Model V W) (σ : State V W) {t : Temp} {src : Exp}
    (flat : src.isFlat = true) : M.exec (.move (.temp t) src) σ = σ.set t (M.value σ src) := by
  rw [exec, assign, eval_flat M σ flat]

theorem exec_move_mem (M : Model V W) (σ : State V W) {address src : Exp}
    (flatAddress : address.isFlat = true) (flat : src.isFlat = true) :
    M.exec (.move (.mem address) src) σ =
      σ.withWorld (M.store σ.world (M.value σ address) (M.value σ src)) := by
  rw [exec, assign, eval_flat M σ flatAddress, eval_flat M σ flat]

end Model

section Defined

variable {W : Type} (M : Model Word W)

/-- Whether all operations in a flat expression are defined. -/
def Exp.defined (σ : State Word W) : Exp → Bool
  | .binop op left right =>
    left.defined σ && right.defined σ && op.defined (M.value σ left) (M.value σ right)
  | .mem address => address.defined σ
  | _ => true

/-- Whether all operations in the expressions of a statement are defined. -/
def Stm.defined (σ : State Word W) : Stm → Bool
  | .move dst src => dst.defined M σ && src.defined M σ
  | .exp e => e.defined M σ
  | .cjump _ left right _ _ => left.defined M σ && right.defined M σ
  | _ => true

/-- The label that a statement goes to, if it is a jump to a known label. -/
def Stm.branch? (σ : State Word W) : Stm → Option Label
  | .jump (.name target) _ => some target
  | .cjump op left right yes no =>
    some (if M.holds op (M.value σ left) (M.value σ right) then yes else no)
  | _ => none

theorem Exp.defined_congr {σ τ : State Word W} {e : Exp} (flat : e.isFlat = true)
    (world : σ.world = τ.world) (same : ∀ t ∈ e.temps, σ.temps t = τ.temps t) :
    e.defined M σ = e.defined M τ := by
  fun_induction Exp.isFlat e with
  | case1 | case2 | case3 => rfl
  | case4 op left right ihLeft ihRight =>
    simp only [Bool.and_eq_true] at flat
    simp only [Exp.temps, List.mem_append] at same
    have sameLeft : ∀ t ∈ left.temps, σ.temps t = τ.temps t := fun t member => same t (.inl member)
    have sameRight : ∀ t ∈ right.temps, σ.temps t = τ.temps t :=
      fun t member => same t (.inr member)
    rw [defined, defined, ihLeft flat.1 sameLeft, ihRight flat.2 sameRight,
      M.value_congr flat.1 world sameLeft, M.value_congr flat.2 world sameRight]
  | case5 address ih => exact ih flat same
  | case6 | case7 => cases flat

theorem Exp.defined_part {σ : State Word W} {e x : Exp} (flat : e.isFlat = true)
    (defined : e.defined M σ = true) (part : x ∈ e.parts) : x.defined M σ = true :=
  forall_parts (P := fun x => x.defined M σ = true)
    (fun _ _ _ defined => by
      simp only [Exp.defined, Bool.and_eq_true] at defined
      exact defined.1)
    (fun _ defined => defined) flat defined part

end Defined

/-- The temporary that a statement assigns. -/
def Stm.target? : Stm → Option Temp
  | .move (.temp t) _ => some t
  | _ => none

/-- The temporaries that a statement reads. -/
def Stm.reads : Stm → List Temp
  | .move (.temp _) src => src.temps
  | stm => stm.temps

/-- The parts of a flat statement are parts of flat expressions that it reads, apart from the
temporary that it assigns. -/
theorem part_of_flat {stm : Stm} {x : Exp} (flat : stm.isFlat = true) (part : x ∈ stm.parts) :
    (∃ t ∈ stm.temps, x = .temp t) ∨
      ∃ e : Exp, x ∈ e.parts ∧ e.isFlat = true ∧ e.temps ⊆ stm.reads ∧
        ∀ {M : Model Word Memory} {σ : State Word Memory}, stm.defined M σ = true →
          e.defined M σ = true := by
  cases stm with
  | move dst src =>
    rcases List.mem_append.mp part with inside | inside
    · cases dst with
      | temp t =>
        exact .inl ⟨t, List.mem_append_left _ List.mem_cons_self, List.mem_singleton.mp inside⟩
      | mem place =>
        simp only [Stm.isFlat, Bool.and_eq_true] at flat
        refine .inr ⟨.mem place, inside, flat.1, List.subset_append_left _ _, fun defined => ?_⟩
        exact (Bool.and_eq_true_iff.mp defined).1
      | _ => cases flat
    · refine .inr ⟨src, inside, ?_, ?_, fun defined => (Bool.and_eq_true_iff.mp defined).2⟩
      · cases dst <;> simp_all [Stm.isFlat]
      · cases dst <;> simp_all [Stm.isFlat, Stm.reads, Stm.temps]
  | exp e => exact .inr ⟨e, part, flat, List.Subset.refl _, id⟩
  | jump target labels =>
    cases target with
    | name label => exact .inr ⟨.name label, part, rfl, List.Subset.refl _, fun _ => rfl⟩
    | _ => cases flat
  | cjump op left right yes no =>
    simp only [Stm.isFlat, Bool.and_eq_true] at flat
    rcases List.mem_append.mp part with inside | inside
    · exact .inr ⟨left, inside, flat.1, List.subset_append_left _ _, fun defined =>
        (Bool.and_eq_true_iff.mp defined).1⟩
    · exact .inr ⟨right, inside, flat.2, List.subset_append_right _ _, fun defined =>
        (Bool.and_eq_true_iff.mp defined).2⟩
  | seq | label => cases flat

theorem reads_subset (stm : Stm) : stm.reads ⊆ stm.temps := by
  cases stm with
  | move dst src =>
    cases dst with
    | temp t => exact List.subset_append_right _ _
    | _ => exact List.Subset.refl _
  | _ => exact List.Subset.refl _

end TreeCode.Tree
