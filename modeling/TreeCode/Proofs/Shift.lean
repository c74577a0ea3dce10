import TreeCode.Proofs.Labels
import TreeCode.Proofs.Machine.Renaming

/-!
A renaming that takes what one supply hands out to what another supply hands out. Numbers of
temporaries and labels are shifted, machine registers and labels that were not issued stay, and
everything else moves out of the way, so that no two names become the same.
-/

namespace TreeCode

section Numbers

/-- The number at the end of a label. -/
def numberOf (label : Label) : Nat := Nat.ofDigitChars 10 (finalDigits label).reverse 0

/-- What a label has in front of the digits at its end. -/
def stemOf (label : Label) : List Char := (label.toList.reverse.dropWhile Char.isDigit).reverse

/-- A label made of a stem and a number. -/
def withNumber (stem : List Char) (number : Nat) : Label :=
  String.ofList (stem ++ Nat.toDigits 10 number)

/-- A text that does not end in a digit. -/
def EndsBare (text : List Char) : Prop := ∀ c, text.reverse.head? = some c → c.isDigit = false

theorem endsBare_stemOf (label : Label) : EndsBare (stemOf label) := by
  intro c last
  rw [stemOf, List.reverse_reverse] at last
  have bare := List.head?_dropWhile_not Char.isDigit label.toList.reverse
  rw [last] at bare
  simpa using bare

/-- A number behind a stem that does not end in a digit can be split off again. -/
theorem split_withNumber {stem : List Char} (bare : EndsBare stem) (n : Nat) :
    finalDigits (withNumber stem n) = (Nat.toDigits 10 n).reverse ∧
      stemOf (withNumber stem n) = stem := by
  have digits : ∀ c ∈ (Nat.toDigits 10 n).reverse, c.isDigit = true := fun c member =>
    Nat.isDigit_of_mem_toDigits (by decide) (by decide) (List.mem_reverse.mp member)
  have reversed : (withNumber stem n).toList.reverse =
      (Nat.toDigits 10 n).reverse ++ stem.reverse := by
    rw [withNumber, String.toList_ofList, List.reverse_append]
  unfold finalDigits stemOf
  rw [reversed, List.takeWhile_append_of_pos digits, List.dropWhile_append_of_pos digits]
  cases ends : stem.reverse with
  | nil => simp_all
  | cons c rest =>
    have other : c.isDigit = false := bare c (by rw [ends]; rfl)
    have same : stem = (c :: rest).reverse := by rw [← ends, List.reverse_reverse]
    simp [other, same]

theorem numberOf_withNumber {stem : List Char} (bare : EndsBare stem) (n : Nat) :
    numberOf (withNumber stem n) = n := by
  rw [numberOf, (split_withNumber bare n).1, List.reverse_reverse]
  exact Nat.ofDigitChars_ten_toDigits

/-- A label that has been issued with a number from `low` up to `high`. -/
def IssuedBetween (low high : Nat) (label : Label) : Prop :=
  '.' ∈ stemOf label ∧ label = withNumber (stemOf label) (numberOf label) ∧
    low ≤ numberOf label ∧ numberOf label < high

instance (low high : Nat) (label : Label) : Decidable (IssuedBetween low high label) :=
  inferInstanceAs (Decidable (_ ∧ _ ∧ _ ∧ _))

/-- The labels that were issued with numbers from `low` up to `high` get numbers from `other` on.
Labels without a dot were not issued and stay. -/
def shiftLabel (low high other : Nat) (label : Label) : Label :=
  if IssuedBetween low high label then withNumber (stemOf label) (numberOf label - low + other)
  else if '.' ∈ label.toList then label ++ "."
  else label

variable {low high other : Nat} {label : Label}

/-- A label that is issued in the range is moved to the other range. -/
theorem shiftLabel_issued {stem : List Char} (bare : EndsBare stem) (dotted : '.' ∈ stem)
    {i : Nat} (within : low + i < high) :
    shiftLabel low high other (withNumber stem (low + i)) = withNumber stem (other + i) := by
  have stems := (split_withNumber bare (low + i)).2
  have numbers := numberOf_withNumber bare (low + i)
  have issued : IssuedBetween low high (withNumber stem (low + i)) := by
    refine ⟨?_, ?_, ?_, ?_⟩
    · rw [stems]
      exact dotted
    · rw [stems, numbers]
    · rw [numbers]
      exact Nat.le_add_right low i
    · rw [numbers]
      exact within
  rw [shiftLabel, if_pos issued, stems, numbers, Nat.add_sub_cancel_left, Nat.add_comm]

theorem mem_withNumber {stem : List Char} (dotted : '.' ∈ stem) (n : Nat) :
    '.' ∈ (withNumber stem n).toList := by
  rw [withNumber, String.toList_ofList]
  exact List.mem_append_left _ dotted

/-- A label without a dot is left as it is. -/
theorem shiftLabel_plain (plain : '.' ∉ label.toList) :
    shiftLabel low high other label = label := by
  have old : ¬ IssuedBetween low high label := by
    rintro ⟨dotted, made, -, -⟩
    apply plain
    rw [made]
    exact mem_withNumber dotted _
  rw [shiftLabel, if_neg old, if_neg plain]

/-- What becomes of a label shows which kind of label it was. -/
theorem shiftLabel_cases (low high other : Nat) (label : Label) :
    (IssuedBetween low high label ∧
      shiftLabel low high other label = withNumber (stemOf label) (numberOf label - low + other) ∧
      '.' ∈ (shiftLabel low high other label).toList ∧
      finalDigits (shiftLabel low high other label) ≠ []) ∨
    (shiftLabel low high other label = label ++ "." ∧
      '.' ∈ (shiftLabel low high other label).toList ∧
      finalDigits (shiftLabel low high other label) = []) ∨
    (shiftLabel low high other label = label ∧
      '.' ∉ (shiftLabel low high other label).toList) := by
  by_cases issued : IssuedBetween low high label
  · left
    have shifted : shiftLabel low high other label =
        withNumber (stemOf label) (numberOf label - low + other) := if_pos issued
    refine ⟨issued, shifted, ?_, ?_⟩
    · rw [shifted]
      exact mem_withNumber issued.1 _
    · rw [shifted, (split_withNumber (endsBare_stemOf label) _).1]
      simp
  · right
    by_cases dotted : '.' ∈ label.toList
    · left
      have moved : shiftLabel low high other label = label ++ "." := by
        rw [shiftLabel, if_neg issued, if_pos dotted]
      refine ⟨moved, ?_, ?_⟩
      · simp [moved]
      · rw [moved]
        simp [finalDigits]
    · right
      have same : shiftLabel low high other label = label := shiftLabel_plain dotted
      exact ⟨same, by rw [same]; exact dotted⟩

/-- Different labels stay different. -/
theorem shiftLabel_injective (low high other : Nat) :
    Function.Injective (shiftLabel low high other) := by
  intro a b same
  rcases shiftLabel_cases low high other a with
    ⟨issued, shifted, dotted, digits⟩ | ⟨moved, dotted, bare⟩ | ⟨stays, plain⟩
  · rcases shiftLabel_cases low high other b with
      ⟨issued', shifted', -, -⟩ | ⟨-, -, bare'⟩ | ⟨-, plain'⟩
    · rw [shifted, shifted'] at same
      have stems : stemOf a = stemOf b := by
        rw [← (split_withNumber (endsBare_stemOf a) (numberOf a - low + other)).2, same]
        exact (split_withNumber (endsBare_stemOf b) _).2
      have numbers : numberOf a - low + other = numberOf b - low + other := by
        rw [← numberOf_withNumber (endsBare_stemOf a) (numberOf a - low + other), same]
        exact numberOf_withNumber (endsBare_stemOf b) _
      have number : numberOf a = numberOf b := by
        have lower := issued.2.2.1
        have lower' := issued'.2.2.1
        omega
      rw [issued.2.1, issued'.2.1, stems, number]
    · rw [same] at digits
      exact absurd bare' digits
    · rw [same] at dotted
      exact absurd dotted plain'
  · rcases shiftLabel_cases low high other b with
      ⟨-, -, -, digits'⟩ | ⟨moved', -, -⟩ | ⟨-, plain'⟩
    · rw [same] at bare
      exact absurd bare digits'
    · rw [moved, moved'] at same
      have texts := congrArg String.toList same
      rw [String.toList_append, String.toList_append] at texts
      exact String.toList_inj.mp (List.append_cancel_right texts)
    · rw [same] at dotted
      exact absurd dotted plain'
  · rcases shiftLabel_cases low high other b with
      ⟨-, -, dotted', -⟩ | ⟨-, dotted', -⟩ | ⟨stays', -⟩
    · rw [same] at plain
      exact absurd dotted' plain
    · rw [same] at plain
      exact absurd dotted' plain
    · rw [← stays, same, stays']

end Numbers

section Temps

/-- The temporaries from `low` up to `high` get numbers from `other` on; registers stay. -/
def shiftTemp (registers : List Temp) (low high other : Nat) (t : Temp) : Temp :=
  if low ≤ t.index ∧ t.index < high then ⟨t.index - low + other⟩
  else if t ∈ registers then t
  else ⟨t.index + high + other⟩

variable {registers : List Temp} {low high other : Nat}

theorem shiftTemp_issued {i : Nat} (within : low + i < high) :
    shiftTemp registers low high other ⟨low + i⟩ = ⟨other + i⟩ := by
  rw [shiftTemp, if_pos ⟨Nat.le_add_right low i, within⟩, Nat.add_sub_cancel_left, Nat.add_comm]

theorem shiftTemp_register (below : Tree.Below low registers) {t : Temp}
    (register : t ∈ registers) : shiftTemp registers low high other t = t := by
  have old : ¬ (low ≤ t.index ∧ t.index < high) := by
    have early := below t register
    omega
  rw [shiftTemp, if_neg old, if_pos register]

/-- What becomes of a temporary shows which kind of temporary it was. -/
theorem shiftTemp_cases (below : Tree.Below other registers) (t : Temp) :
    (low ≤ t.index ∧ t.index < high ∧
      (shiftTemp registers low high other t).index = t.index - low + other) ∨
    ((shiftTemp registers low high other t).index = t.index ∧ t.index < other) ∨
    (shiftTemp registers low high other t).index = t.index + high + other := by
  by_cases issued : low ≤ t.index ∧ t.index < high
  · left
    rw [shiftTemp, if_pos issued]
    exact ⟨issued.1, issued.2, rfl⟩
  · right
    by_cases register : t ∈ registers
    · left
      rw [shiftTemp, if_neg issued, if_pos register]
      exact ⟨rfl, below t register⟩
    · right
      rw [shiftTemp, if_neg issued, if_neg register]

/-- Different temporaries stay different. -/
theorem shiftTemp_injective (low high : Nat) (below : Tree.Below other registers) :
    Function.Injective (shiftTemp registers low high other) := by
  intro a b same
  have index := congrArg Temp.index same
  have equal : a.index = b.index := by
    have first := @shiftTemp_cases registers low high other below a
    have second := @shiftTemp_cases registers low high other below b
    omega
  cases a
  cases b
  exact congrArg Temp.mk equal

end Temps

section Renaming

variable {conv : Convention} {first last second : Supply}

/-- The renaming that takes what the first supply hands out, up to `last`, to what the second
hands out, and leaves the registers alone. -/
def Renaming.shift (registers : List Temp) (first last second : Supply) : Renaming where
  temp := shiftTemp registers first.temps last.temps second.temps
  label := shiftLabel first.labels last.labels second.labels

theorem shift_temp (registers : List Temp) (t : Temp) :
    (Renaming.shift registers first last second).temp t =
      shiftTemp registers first.temps last.temps second.temps t := rfl

theorem shift_label (registers : List Temp) (label : Label) :
    (Renaming.shift registers first last second).label label =
      shiftLabel first.labels last.labels second.labels label := rfl

theorem codeLabel_eq (n : Nat) : ".L" ++ toString n = withNumber ['.', 'L'] n := by
  apply String.toList_inj.mp
  simp [withNumber]

theorem functionLabel_eq (name : String) (n : Nat) :
    name ++ "." ++ toString n = withNumber (name.toList ++ ['.']) n := by
  apply String.toList_inj.mp
  simp [withNumber]

theorem endsBare_codeLabel : EndsBare ['.', 'L'] := by
  intro c ends
  cases ends
  rfl

theorem endsBare_functionLabel (name : String) : EndsBare (name.toList ++ ['.']) := by
  intro c ends
  rw [List.reverse_append] at ends
  cases ends
  rfl

/-- Shifting brings the draws from one supply to those from the other. -/
theorem shift_paired (registers : List Temp) (first last second : Supply) :
    Paired (.shift registers first last second) last first second := by
  constructor
  · intro i within
    rw [shift_temp, shiftTemp_issued within]
  · intro i within
    rw [shift_label, codeLabel_eq, codeLabel_eq,
      shiftLabel_issued endsBare_codeLabel (by decide) within]
  · intro i name within
    rw [shift_label, functionLabel_eq, functionLabel_eq,
      shiftLabel_issued (endsBare_functionLabel name) (by simp) within]

/-- Shifting keeps the registers of the machine and every label without a dot. -/
theorem shift_keeps (closed : conv.Closed) (below : Tree.Below first.temps conv.machine) :
    (Renaming.shift conv.machine first last second).Keeps conv := by
  refine ⟨closed, ?_, ?_⟩
  · intro t register
    rw [shift_temp, shiftTemp_register below register]
  · intro label plain
    rw [shift_label, shiftLabel_plain plain]

end Renaming

end TreeCode
