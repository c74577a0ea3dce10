import TreeCode.Proofs.Tree.Occurrences

/-!
Pieces of code that are kept apart. Two lists of temporaries are apart when they share at most
machine registers. `Isolated` describes a piece of code and the pieces split off while it was
made: each holds only temporaries issued meanwhile, and no two of them share any.
-/

namespace TreeCode

/-- The index of `t` is at least `low` and less than `high`. -/
def Temp.Between (low high : Nat) (t : Temp) : Prop := low ≤ t.index ∧ t.index < high

theorem Temp.Between.widen {low high low' high' : Nat} {t : Temp} (between : t.Between low high)
    (lower : low' ≤ low) (upper : high ≤ high') : t.Between low' high' :=
  ⟨Nat.le_trans lower between.1, Nat.lt_of_lt_of_le between.2 upper⟩

/-- Two lists of temporaries share at most the registers `regs`. -/
def Apart (regs first second : List Temp) : Prop := ∀ t ∈ first, t ∈ second → t ∈ regs

theorem Apart.symm {regs first second : List Temp} (apart : Apart regs first second) :
    Apart regs second first :=
  fun t inSecond inFirst => apart t inFirst inSecond

/-- While temporaries from `low` up to `high` were issued, code with the temporaries `own` was
made, which may also use `old` ones, and the pieces `others` were split off. -/
structure Isolated (regs old : List Temp) (low high : Nat) (own : List Temp)
    (others : List (List Temp)) : Prop where
  grown : low ≤ high
  own_from : ∀ t ∈ own, t ∈ regs ∨ t ∈ old ∨ t.Between low high
  others_from : ∀ temps ∈ others, ∀ t ∈ temps, t ∈ regs ∨ t.Between low high
  own_apart : ∀ temps ∈ others, Apart regs own temps
  others_apart : others.Pairwise (Apart regs)

section Isolated

variable {regs old own own' : List Temp} {low middle high : Nat} {others others' : List (List Temp)}

/-- Code made from nothing but registers, old temporaries and new ones. -/
theorem isolated_fresh (grown : low ≤ high)
    (own_from : ∀ t ∈ own, t ∈ regs ∨ t ∈ old ∨ t.Between low high) :
    Isolated regs old low high own [] :=
  ⟨grown, own_from, by simp, by simp, .nil⟩

/-- The same pieces, and code that uses no more than the code that was made. -/
theorem Isolated.cover (isolated : Isolated regs old low high own others)
    (below : Tree.Below low old) (covered : ∀ t ∈ own', t ∈ regs ∨ t ∈ old ∨ t ∈ own) :
    Isolated regs old low high own' others where
  grown := isolated.grown
  own_from := by
    intro t member
    rcases covered t member with register | earlier | made
    · exact .inl register
    · exact .inr (.inl earlier)
    · exact isolated.own_from t made
  others_from := isolated.others_from
  own_apart := by
    intro temps other t member shared
    rcases covered t member with register | earlier | made
    · exact register
    · rcases isolated.others_from temps other t shared with register | between
      · exact register
      · exact absurd (below t earlier) (Nat.not_lt.mpr between.1)
    · exact isolated.own_apart temps other t made shared
  others_apart := isolated.others_apart

/-- Code made in two goes. What the first go made is old in the second. -/
theorem Isolated.trans (first : Isolated regs old low middle own others)
    (second : Isolated regs (old ++ own) middle high own' others') (below : Tree.Below low old) :
    Isolated regs old low high (own ++ own') (others ++ others') where
  grown := Nat.le_trans first.grown second.grown
  own_from := by
    intro t member
    rcases List.mem_append.mp member with early | late
    · rcases first.own_from t early with register | earlier | between
      · exact .inl register
      · exact .inr (.inl earlier)
      · exact .inr (.inr (between.widen (Nat.le_refl _) second.grown))
    · rcases second.own_from t late with register | earlier | between
      · exact .inl register
      · rcases List.mem_append.mp earlier with older | early
        · exact .inr (.inl older)
        · rcases first.own_from t early with register | older | between
          · exact .inl register
          · exact .inr (.inl older)
          · exact .inr (.inr (between.widen (Nat.le_refl _) second.grown))
      · exact .inr (.inr (between.widen first.grown (Nat.le_refl _)))
  others_from := by
    intro temps other t member
    rcases List.mem_append.mp other with early | late
    · exact (first.others_from temps early t member).imp id fun between =>
        between.widen (Nat.le_refl _) second.grown
    · exact (second.others_from temps late t member).imp id fun between =>
        between.widen first.grown (Nat.le_refl _)
  own_apart := by
    intro temps other t member shared
    rcases List.mem_append.mp other with early | late
    · rcases List.mem_append.mp member with mine | mine
      · exact first.own_apart temps early t mine shared
      · -- What the second go uses is new, or was there when the piece was split off.
        rcases first.others_from temps early t shared with register | between
        · exact register
        rcases second.own_from t mine with register | earlier | later
        · exact register
        · rcases List.mem_append.mp earlier with older | made
          · exact absurd (below t older) (Nat.not_lt.mpr between.1)
          · exact first.own_apart temps early t made shared
        · exact absurd between.2 (Nat.not_lt.mpr later.1)
    · rcases List.mem_append.mp member with mine | mine
      · rcases second.others_from temps late t shared with register | later
        · exact register
        rcases first.own_from t mine with register | older | between
        · exact register
        · exact absurd (below t older)
            (Nat.not_lt.mpr (Nat.le_trans first.grown later.1))
        · exact absurd between.2 (Nat.not_lt.mpr later.1)
      · exact second.own_apart temps late t mine shared
  others_apart := by
    refine List.pairwise_append.mpr ⟨first.others_apart, second.others_apart, ?_⟩
    intro temps early temps' late t member shared
    rcases first.others_from temps early t member with register | between
    · exact register
    rcases second.others_from temps' late t shared with register | later
    · exact register
    · exact absurd between.2 (Nat.not_lt.mpr later.1)

/-- Code that is finished with some new temporaries. -/
theorem Isolated.finish (isolated : Isolated regs old low middle own others)
    (below : Tree.Below low old) (grown : middle ≤ high)
    (covered : ∀ t ∈ own', t ∈ regs ∨ t ∈ old ∨ t ∈ own ∨ t.Between middle high) :
    Isolated regs old low high own' others := by
  have last : Isolated regs (old ++ own) middle high own' [] := by
    refine isolated_fresh grown ?_
    intro t member
    rcases covered t member with register | older | made | between
    · exact .inl register
    · exact .inr (.inl (List.mem_append_left own older))
    · exact .inr (.inl (List.mem_append_right old made))
    · exact .inr (.inr between)
  have both := isolated.trans last below
  rw [List.append_nil] at both
  exact both.cover below fun t member => .inr (.inr (List.mem_append_right own member))

end Isolated

end TreeCode
