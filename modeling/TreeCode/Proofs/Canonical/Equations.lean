import TreeCode.Tree.Canonical

/-!
How canonical form is computed, as equations on supplies: what taking a tree apart gives when it
starts from a given supply, and the supply that it leaves.
-/

namespace TreeCode.Tree

/-- An operand that later statements keep stays where it is. -/
theorem before_kept {operand : Stm × Exp} {later : Stm} (supply : Supply)
    (kept : later.keeps operand.2 = true) :
    before operand later supply = ((operand.1.andThen later, operand.2), supply) := by
  simp only [before, kept, if_true]
  rfl

/-- An operand that later statements may change is saved in a temporary. -/
theorem before_saved {operand : Stm × Exp} {later : Stm} (supply : Supply)
    (changed : later.keeps operand.2 = false) :
    before operand later supply =
      ((operand.1.andThen
          ((Stm.move (.temp ⟨supply.temps⟩) operand.2).andThen later), .temp ⟨supply.temps⟩),
        { supply with temps := supply.temps + 1 }) := by
  simp only [before, changed, Bool.false_eq_true, if_false]
  rfl

/-- A call as an operand is moved to a temporary, which is drawn before those of its parts. -/
theorem hoist_call (func : Exp) (link : Option Exp) (args : List Exp)
    (parts : Fresh (Stm × Exp)) (supply : Supply) :
    (Exp.call func link args).hoist parts supply =
      let inner := parts { supply with temps := supply.temps + 1 }
      ((inner.1.1.andThen (.move (.temp ⟨supply.temps⟩) inner.1.2), .temp ⟨supply.temps⟩),
        inner.2) := rfl

theorem extract_binop (op : BinOp) (left right : Exp) (supply : Supply) :
    (Exp.binop op left right).extract supply =
      let later := right.hoist right.extract supply
      let first := left.hoist left.extract later.2
      let both := before first.1 later.1.1 first.2
      ((both.1.1, .binop op both.1.2 later.1.2), both.2) := rfl

theorem extract_mem (address : Exp) (supply : Supply) :
    (Exp.mem address).extract supply =
      let inner := address.hoist address.extract supply
      ((inner.1.1, .mem inner.1.2), inner.2) := rfl

theorem extract_call (func : Exp) (link : Option Exp) (args : List Exp) (supply : Supply) :
    (Exp.call func link args).extract supply =
      let rest := Exp.extractArgs args supply
      let linked := Exp.extractLink link rest.1.1 rest.2
      let first := func.hoist func.extract linked.2
      let all := before first.1 linked.1.1 first.2
      ((all.1.1, .call all.1.2 linked.1.2 rest.1.2), all.2) := rfl

theorem extract_eseq (stm : Stm) (exp : Exp) (supply : Supply) :
    (Exp.eseq stm exp).extract supply =
      let first := stm.extract supply
      let rest := exp.extract first.2
      ((first.1.andThen rest.1.1, rest.1.2), rest.2) := rfl

theorem extractLink_none (later : Stm) (supply : Supply) :
    Exp.extractLink none later supply = ((later, none), supply) := rfl

theorem extractLink_some (link : Exp) (later : Stm) (supply : Supply) :
    Exp.extractLink (some link) later supply =
      let first := link.hoist link.extract supply
      let both := before first.1 later first.2
      ((both.1.1, some both.1.2), both.2) := rfl

theorem extractArgs_cons (arg : Exp) (args : List Exp) (supply : Supply) :
    Exp.extractArgs (arg :: args) supply =
      let rest := Exp.extractArgs args supply
      let first := arg.hoist arg.extract rest.2
      let both := before first.1 rest.1.1 first.2
      ((both.1.1, both.1.2 :: rest.1.2), both.2) := rfl

theorem extractMove_temp (src : Exp) (parts : Fresh (Stm × Exp)) (t : Temp) (supply : Supply) :
    Exp.extractMove src parts (.temp t) supply =
      let inner := parts supply
      (inner.1.1.andThen (.move (.temp t) inner.1.2), inner.2) := rfl

theorem extractMove_mem (src : Exp) (parts : Fresh (Stm × Exp)) (address : Exp)
    (supply : Supply) :
    Exp.extractMove src parts (.mem address) supply =
      let later := src.hoist parts supply
      let first := address.hoist address.extract later.2
      let both := before first.1 later.1.1 first.2
      (both.1.1.andThen (.move (.mem both.1.2) later.1.2), both.2) := rfl

theorem extractMove_eseq (src : Exp) (parts : Fresh (Stm × Exp)) (stm : Stm) (dst : Exp)
    (supply : Supply) :
    Exp.extractMove src parts (.eseq stm dst) supply =
      let first := stm.extract supply
      let second := Exp.extractMove src parts dst first.2
      (first.1.andThen second.1, second.2) := rfl

theorem extract_exp (exp : Exp) (supply : Supply) :
    (Stm.exp exp).extract supply =
      let inner := exp.extract supply
      (inner.1.1.andThen (.exp inner.1.2), inner.2) := rfl

theorem extract_jump (target : Exp) (labels : List Label) (supply : Supply) :
    (Stm.jump target labels).extract supply =
      let inner := target.hoist target.extract supply
      (inner.1.1.andThen (.jump inner.1.2 labels), inner.2) := rfl

theorem extract_cjump (op : RelOp) (left right : Exp) (yes no : Label) (supply : Supply) :
    (Stm.cjump op left right yes no).extract supply =
      let later := right.hoist right.extract supply
      let first := left.hoist left.extract later.2
      let both := before first.1 later.1.1 first.2
      (both.1.1.andThen (.cjump op both.1.2 later.1.2 yes no), both.2) := rfl

theorem extract_seq (first second : Stm) (supply : Supply) :
    (Stm.seq first second).extract supply =
      let a := first.extract supply
      let b := second.extract a.2
      (a.1.andThen b.1, b.2) := rfl

theorem toList_of_isNop {stm : Stm} (nothing : stm.isNop = true) : stm.toList = [] := by
  cases stm <;> simp_all [Stm.isNop, Stm.toList]

theorem toList_single {stm : Stm} (something : stm.isNop = false)
    (whole : ∀ first second, stm ≠ .seq first second) : stm.toList = [stm] := by
  cases stm with
  | seq first second => exact absurd rfl (whole first second)
  | exp exp => simp [Stm.toList, something]
  | move | jump | cjump | label => simp [Stm.toList, Stm.isNop]

/-- Leaving out what does nothing does not change the statements of a sequence. -/
theorem toList_andThen (first second : Stm) :
    (first.andThen second).toList = first.toList ++ second.toList := by
  unfold Stm.andThen
  by_cases nothing : first.isNop = true
  · rw [if_pos nothing, toList_of_isNop nothing, List.nil_append]
  · rw [if_neg nothing]
    by_cases empty : second.isNop = true
    · rw [if_pos empty, toList_of_isNop empty, List.append_nil]
    · rw [if_neg empty, Stm.toList]

/-- Two statements do nothing together if neither does anything. -/
theorem isNop_andThen (first second : Stm) :
    (first.andThen second).isNop = (first.isNop && second.isNop) := by
  unfold Stm.andThen
  by_cases nothing : first.isNop = true
  · rw [if_pos nothing, nothing, Bool.true_and]
  · rw [if_neg nothing]
    by_cases empty : second.isNop = true
    · rw [if_pos empty, empty, Bool.and_true]
    · rw [if_neg empty]
      simp_all [Stm.isNop]

end TreeCode.Tree
