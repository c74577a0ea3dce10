import TreeCode.Proofs.Target.X64.Machine

/-!
The arithmetic of the 64-bit x86 machine agrees with that of tree code: conditions on the flags
with comparisons, encoded immediates with constants, shifts by the lowest six bits of a word, and
the division of a word that was extended to two.
-/

namespace TreeCode.X64

open Source (Word)
open Tree (BinOp RelOp)

section Comparison

theorem sub_beq_zero (a b : Word) : (a - b == 0) = (a == b) := by
  rw [Bool.eq_iff_iff, beq_iff_eq, beq_iff_eq]
  exact ⟨fun zero => by simpa using BitVec.sub_eq_iff_eq_add.mp zero, fun same => by simp [same]⟩

theorem sign_bne_overflow (a b : Word) :
    ((a - b).msb != (a.msb != b.msb && a.msb != (a - b).msb)) = a.slt b := by
  have boundA := a.isLt
  have boundB := b.isLt
  simp only [BitVec.msb_eq_decide, BitVec.slt_eq_decide, BitVec.toInt_eq_toNat_cond,
    BitVec.toNat_sub]
  by_cases first : 2 ^ (64 - 1) ≤ a.toNat <;> by_cases second : 2 ^ (64 - 1) ≤ b.toNat <;>
    by_cases third : 2 ^ (64 - 1) ≤ (2 ^ 64 - b.toNat + a.toNat) % 2 ^ 64 <;>
    simp only [first, second, third, decide_true, decide_false, Bool.bne_true, Bool.bne_false,
      Bool.not_true, Bool.not_false, Bool.and_true, Bool.and_false, Bool.and_self,
      Bool.true_eq, Bool.false_eq, decide_eq_true_eq, decide_eq_false_iff_not] <;> omega

/-- The condition of a jump for a comparison. -/
def Condition.ofRelOp : RelOp → Condition
  | .eq => e
  | .ne => ne
  | .lt => l
  | .gt => g
  | .le => le
  | .ge => ge
  | .ult => b
  | .ule => be
  | .ugt => a
  | .uge => ae

/-- After a comparison of two words, the conditions say how they compare. -/
theorem holds_compare (op : RelOp) (a b : Word) :
    (Condition.ofRelOp op).holds (.compare a b) = op.holds a b := by
  have zero : (Flags.compare a b).zero = (a == b) := sub_beq_zero a b
  have carry : (Flags.compare a b).carry = a.ult b := rfl
  have signed : ((Flags.compare a b).sign != (Flags.compare a b).overflow) = a.slt b :=
    sign_bne_overflow a b
  have unsigned : ((Flags.compare a b).sign == (Flags.compare a b).overflow) = !a.slt b := by
    rw [← signed, bne, Bool.not_not]
  rw [Bool.eq_iff_iff]
  by_cases same : a = b
  · subst same
    cases op <;>
      simp [Condition.ofRelOp, Condition.holds, RelOp.holds, zero, carry, signed, unsigned,
        BitVec.slt_eq_decide, BitVec.sle_eq_decide, BitVec.ult_eq_decide, BitVec.ule_eq_decide]
  · have ints : a.toInt ≠ b.toInt := fun equal => same (BitVec.toInt_inj.mp equal)
    have nats : a.toNat ≠ b.toNat := fun equal => same (BitVec.toNat_inj.mp equal)
    cases op <;>
      simp [Condition.ofRelOp, Condition.holds, RelOp.holds, zero, carry, signed, unsigned,
        BitVec.slt_eq_decide, BitVec.sle_eq_decide, BitVec.ult_eq_decide, BitVec.ule_eq_decide,
        same] <;>
      omega

end Comparison

section Values

theorem imm32_of_mem {value : Int} (fits : -2 ^ 31 ≤ value ∧ value < 2 ^ 31) :
    imm32? value = some (.ofInt 64 value) := by
  rw [imm32?, if_pos fits, Option.some.injEq]
  apply BitVec.eq_of_toInt_eq
  rw [BitVec.toInt_signExtend_of_le (by omega),
    BitVec.toInt_ofInt_eq_self (by omega) (by omega) (by omega),
    BitVec.toInt_ofInt_eq_self (by omega) (by omega) (by omega)]

theorem Shift.apply_shl (a b : Word) : BinOp.lshift.apply a b = Shift.shl.apply a b := by
  simp [Shift.apply, BinOp.apply]

theorem Shift.apply_shr (a b : Word) : BinOp.rshift.apply a b = Shift.shr.apply a b := by
  simp [Shift.apply, BinOp.apply]

theorem Shift.apply_sar (a b : Word) : BinOp.arshift.apply a b = Shift.sar.apply a b := by
  simp [Shift.apply, BinOp.apply, BitVec.sshiftRight']

/-- Filling the upper half with the sign extends a word to two. -/
theorem toInt_sign (a : Word) : (a.sshiftRight 63 ++ a).toInt = a.toInt := by
  have low := a.isLt
  have value := a.toInt_eq_toNat_cond
  rw [BitVec.toInt_append, if_neg (by decide), BitVec.toInt_sshiftRight, Int.shiftRight_eq_div_pow]
  omega

/-- Dividing a word, extended to two, is defined and gives the quotient if the operation is. -/
theorem divide_sign {a b : Word} (defined : BinOp.div.defined a b = true) :
    ∃ rest, Processor.divide? (a.sshiftRight 63) a b = some (BinOp.div.apply a b, rest) := by
  simp only [BinOp.defined, Bool.and_eq_true, bne_iff_ne, Bool.not_eq_true',
    Bool.and_eq_false_iff, beq_eq_false_iff_ne] at defined
  have quotient := BitVec.toInt_sdiv_of_ne_or_ne a b defined.2
  have least := (a.sdiv b).le_toInt
  have greatest := (a.sdiv b).toInt_lt
  rw [Processor.divide?, toInt_sign, ← quotient, if_neg (not_or.mpr ⟨defined.1, by omega⟩),
    BitVec.ofInt_toInt]
  exact ⟨_, rfl⟩

end Values

end TreeCode.X64
