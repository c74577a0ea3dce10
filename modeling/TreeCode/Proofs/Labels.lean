import Mathlib.Data.List.Perm.Basic
import TreeCode.Proofs.Supply

/-!
Labels tell their numbers: the digits at the end of an issued label are those of its number, with
something else than a digit in front of them. So labels with different numbers are different,
whatever they are called.
-/

namespace TreeCode

variable {j k low middle high : Nat} {label : Label} {labels labels' : List Label}

/-- The label has been issued with the number `k`. There is a dot in it. -/
def Numbered (k : Nat) (label : Label) : Prop :=
  ∃ stem mark, mark.isDigit = false ∧ '.' ∈ stem ++ [mark] ∧
    label.toList = stem ++ mark :: Nat.toDigits 10 k

theorem Numbered.dot_mem (numbered : Numbered k label) : '.' ∈ label.toList := by
  obtain ⟨stem, mark, _, dotted, same⟩ := numbered
  rw [same, List.append_cons]
  exact List.mem_append_left _ dotted

/-- The digits at the end of a text, the last one first. -/
def finalDigits (text : String) : List Char := text.toList.reverse.takeWhile Char.isDigit

theorem Numbered.finalDigits (numbered : Numbered k label) :
    finalDigits label = (Nat.toDigits 10 k).reverse := by
  obtain ⟨stem, mark, other, _, same⟩ := numbered
  have digits : ∀ c ∈ (Nat.toDigits 10 k).reverse, c.isDigit = true := fun c member =>
    Nat.isDigit_of_mem_toDigits (by decide) (by decide) (List.mem_reverse.mp member)
  unfold TreeCode.finalDigits
  rw [same, List.reverse_append, List.reverse_cons, List.append_assoc,
    List.takeWhile_append_of_pos digits]
  simp [other]

/-- The number of a label can be read off it. -/
theorem Numbered.unique (first : Numbered j label) (second : Numbered k label) : j = k := by
  have same : Nat.toDigits 10 j = Nat.toDigits 10 k :=
    List.reverse_injective (first.finalDigits.symm.trans second.finalDigits)
  calc
    j = Nat.ofDigitChars 10 (Nat.toDigits 10 j) 0 := Nat.ofDigitChars_ten_toDigits.symm
    _ = Nat.ofDigitChars 10 (Nat.toDigits 10 k) 0 := by rw [same]
    _ = k := Nat.ofDigitChars_ten_toDigits

theorem numbered_freshLabel (supply : Supply) :
    Numbered supply.labels (freshLabel supply).1 := by
  refine ⟨['.'], 'L', by decide, by decide, ?_⟩
  simp [freshLabel]

theorem numbered_freshLabelFor (name : String) (supply : Supply) :
    Numbered supply.labels (freshLabelFor name supply).1 := by
  refine ⟨name.toList, '.', by decide, List.mem_append_right _ (List.mem_singleton_self _), ?_⟩
  simp [freshLabelFor]

/-- The labels have numbers from `low` up to `high`, and no label occurs twice. -/
structure Issued (low high : Nat) (labels : List Label) : Prop where
  grown : low ≤ high
  distinct : labels.Nodup
  numbered : ∀ label ∈ labels, ∃ k, low ≤ k ∧ k < high ∧ Numbered k label

theorem issued_nil (grown : low ≤ high) : Issued low high [] :=
  ⟨grown, .nil, by simp⟩

theorem issued_single (numbered : Numbered k label) : Issued k (k + 1) [label] := by
  refine ⟨Nat.le_succ k, List.pairwise_singleton _ label, ?_⟩
  intro other member
  rw [List.mem_singleton.mp member]
  exact ⟨k, Nat.le_refl k, Nat.lt_succ_self k, numbered⟩

/-- Labels of two draws, one after the other. -/
theorem Issued.append (first : Issued low middle labels) (second : Issued middle high labels') :
    Issued low high (labels ++ labels') where
  grown := Nat.le_trans first.grown second.grown
  distinct := by
    refine List.nodup_append.mpr ⟨first.distinct, second.distinct, ?_⟩
    rintro label early _ late rfl
    obtain ⟨j, _, below, number⟩ := first.numbered label early
    obtain ⟨k, above, _, number'⟩ := second.numbered label late
    have same := number.unique number'
    omega
  numbered := by
    intro label member
    rcases List.mem_append.mp member with early | late
    · obtain ⟨k, above, below, number⟩ := first.numbered label early
      exact ⟨k, above, Nat.lt_of_lt_of_le below second.grown, number⟩
    · obtain ⟨k, above, below, number⟩ := second.numbered label late
      exact ⟨k, Nat.le_trans first.grown above, below, number⟩

theorem Issued.perm (issued : Issued low high labels) (same : labels'.Perm labels) :
    Issued low high labels' :=
  ⟨issued.grown, same.nodup_iff.mpr issued.distinct,
    fun label member => issued.numbered label (same.mem_iff.mp member)⟩

end TreeCode
