import TreeCode.Tree.Canonical

/-!
Tree code under other names. A renaming gives every temporary and every label a new name, and
trees are renamed node by node. The shape of a tree stays, and so does all that is decided by it.
-/

namespace TreeCode

/-- New names for temporaries and labels. -/
structure Renaming where
  temp : Temp → Temp
  label : Label → Label

namespace Tree

mutual
/-- An expression under other names. -/
@[simp] def Exp.rename (ρ : Renaming) : Exp → Exp
  | .const value => .const value
  | .name label => .name (ρ.label label)
  | .temp t => .temp (ρ.temp t)
  | .binop op left right => .binop op (left.rename ρ) (right.rename ρ)
  | .mem address => .mem (address.rename ρ)
  | .call func link args => .call (func.rename ρ) (Exp.renameLink ρ link) (Exp.renameList ρ args)
  | .eseq stm exp => .eseq (stm.rename ρ) (exp.rename ρ)
/-- An optional link under other names. -/
@[simp] def Exp.renameLink (ρ : Renaming) : Option Exp → Option Exp
  | none => none
  | some link => some (link.rename ρ)
/-- Expressions under other names. -/
@[simp] def Exp.renameList (ρ : Renaming) : List Exp → List Exp
  | [] => []
  | exp :: exps => exp.rename ρ :: Exp.renameList ρ exps
/-- A statement under other names. -/
@[simp] def Stm.rename (ρ : Renaming) : Stm → Stm
  | .move dst src => .move (dst.rename ρ) (src.rename ρ)
  | .exp exp => .exp (exp.rename ρ)
  | .jump target labels => .jump (target.rename ρ) (labels.map ρ.label)
  | .cjump op left right yes no =>
    .cjump op (left.rename ρ) (right.rename ρ) (ρ.label yes) (ρ.label no)
  | .seq first second => .seq (first.rename ρ) (second.rename ρ)
  | .label label => .label (ρ.label label)
end

/-- A tree of either kind under other names. -/
@[simp] def Node.rename (ρ : Renaming) : Node → Node
  | .exp e => .exp (e.rename ρ)
  | .stm s => .stm (s.rename ρ)

variable (ρ : Renaming)

theorem Exp.renameLink_eq (link : Option Exp) :
    Exp.renameLink ρ link = link.map (Exp.rename ρ) := by
  cases link <;> rfl

theorem Exp.renameList_eq (exps : List Exp) : Exp.renameList ρ exps = exps.map (Exp.rename ρ) := by
  induction exps with
  | nil => rfl
  | cons exp exps ih => rw [Exp.renameList, ih, List.map_cons]

mutual
/-- Renaming keeps the size of a tree. -/
theorem Exp.size_rename : ∀ exp : Exp, (exp.rename ρ).size = exp.size
  | .const _ => rfl
  | .name _ => rfl
  | .temp _ => rfl
  | .binop _ left right => by
    simp only [Exp.rename, Exp.size, Exp.size_rename left, Exp.size_rename right]
  | .mem address => by
    simp only [Exp.rename, Exp.size, Exp.size_rename address]
  | .call func link args => by
    simp only [Exp.rename, Exp.size, Exp.size_rename func, Exp.linkSize_rename link,
      Exp.listSize_rename args]
  | .eseq stm exp => by
    simp only [Exp.rename, Exp.size, Stm.size_rename stm, Exp.size_rename exp]
theorem Exp.linkSize_rename : ∀ link : Option Exp,
    Exp.linkSize (Exp.renameLink ρ link) = Exp.linkSize link
  | none => rfl
  | some link => Exp.size_rename link
theorem Exp.listSize_rename : ∀ exps : List Exp,
    Exp.listSize (Exp.renameList ρ exps) = Exp.listSize exps
  | [] => rfl
  | exp :: exps => by
    simp only [Exp.renameList, Exp.listSize, Exp.size_rename exp, Exp.listSize_rename exps]
theorem Stm.size_rename : ∀ stm : Stm, (stm.rename ρ).size = stm.size
  | .move dst src => by
    simp only [Stm.rename, Stm.size, Exp.size_rename dst, Exp.size_rename src]
  | .exp exp => by
    simp only [Stm.rename, Stm.size, Exp.size_rename exp]
  | .jump target _ => by
    simp only [Stm.rename, Stm.size, Exp.size_rename target]
  | .cjump _ left right _ _ => by
    simp only [Stm.rename, Stm.size, Exp.size_rename left, Exp.size_rename right]
  | .seq first second => by
    simp only [Stm.rename, Stm.size, Stm.size_rename first, Stm.size_rename second]
  | .label _ => rfl
end

theorem Node.size_rename (tree : Node) : (tree.rename ρ).size = tree.size := by
  cases tree with
  | exp e => exact Exp.size_rename ρ e
  | stm s => exact Stm.size_rename ρ s

@[simp] theorem Exp.rename_plainCall (func : Label) (args : List Exp) :
    (Exp.plainCall func args).rename ρ =
      .plainCall (ρ.label func) (args.map (Exp.rename ρ)) := by
  simp [Exp.plainCall, Exp.renameList_eq]

@[simp] theorem Exp.rename_linkedCall (func : Label) (link : Exp) (args : List Exp) :
    (Exp.linkedCall func link args).rename ρ =
      .linkedCall (ρ.label func) (link.rename ρ) (args.map (Exp.rename ρ)) := by
  simp [Exp.linkedCall, Exp.renameList_eq]

@[simp] theorem Stm.rename_nop : Stm.nop.rename ρ = .nop := rfl

@[simp] theorem Stm.rename_goto (label : Label) :
    (Stm.goto label).rename ρ = .goto (ρ.label label) := rfl

@[simp] theorem Stm.rename_sequence (stms : List Stm) :
    (Stm.sequence stms).rename ρ = .sequence (stms.map (Stm.rename ρ)) := by
  fun_induction Stm.sequence stms with
  | case1 => rfl
  | case2 stm => rfl
  | case3 stm stms several ih =>
    cases stms with
    | nil => exact absurd rfl several
    | cons next stms =>
      rw [Stm.rename, ih]
      rfl

@[simp] theorem Stm.isNop_rename (stm : Stm) : (stm.rename ρ).isNop = stm.isNop := by
  cases stm with
  | exp e => cases e <;> rfl
  | move | jump | cjump | seq | label => rfl

@[simp] theorem Stm.rename_andThen (first second : Stm) :
    (first.andThen second).rename ρ = (first.rename ρ).andThen (second.rename ρ) := by
  simp only [Stm.andThen, Stm.isNop_rename]
  split
  next => rfl
  next =>
    split
    next => rfl
    next => rfl

/-- Renaming does not change which values a statement keeps. -/
@[simp] theorem Stm.keeps_rename (stm : Stm) (value : Exp) :
    (stm.rename ρ).keeps (value.rename ρ) = stm.keeps value := by
  unfold Stm.keeps
  rw [Stm.isNop_rename]
  cases value <;> rfl

end Tree

end TreeCode
