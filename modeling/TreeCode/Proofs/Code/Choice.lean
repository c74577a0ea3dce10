import TreeCode.Proofs.Code.Templates

/-!
Which pattern is picked for a tree: of the patterns that match it, one that covers the most nodes,
and of several such the one that stands first in the table. What it binds is what it binds on its
own; patterns that were tried before leave no trace.
-/

namespace TreeCode

open Tree

/-- The pattern is of the kind of the tree and matches it, and binds this if nothing is bound
before. -/
def Pattern.Matches (pattern : Pattern) : Node → Bindings → Prop
  | .exp e, b => pattern.shape.isStatement = false ∧ pattern.shape.bindExp? e {} = some b
  | .stm s, b => pattern.shape.isStatement = true ∧ pattern.shape.bindStm? s {} = some b

/-- The match is that of a pattern of the table. No pattern that matches covers more, and those
that match and stand in front of it cover less. -/
structure Match.FirstLargest (tree : Node) (patterns : List Pattern) (found : Match) : Prop where
  fits : found.pattern.Matches tree found.bindings
  most : ∀ other ∈ patterns, ∀ b, other.Matches tree b →
    other.shape.size ≤ found.pattern.shape.size
  first : ∃ before behind, patterns = before ++ found.pattern :: behind ∧
    ∀ other ∈ before, ∀ b, other.Matches tree b → other.shape.size < found.pattern.shape.size

section Matches

variable {pattern : Pattern} {tree : Node} {b b' : Bindings}

theorem Pattern.matches_iff : pattern.Matches tree b ↔ pattern.shape.match? tree = some b := by
  constructor
  · intro fits
    cases tree with
    | exp e => simp [Shape.match?, fits.1, fits.2]
    | stm s => simp [Shape.match?, fits.1, fits.2]
  · intro matched
    rcases Shape.match_bound matched with ⟨e, rfl, value, bound⟩ | ⟨s, rfl, statement, bound⟩
    · exact ⟨value, bound⟩
    · exact ⟨statement, bound⟩

theorem Pattern.not_matches (missed : pattern.shape.match? tree = none) :
    ¬ pattern.Matches tree b := by
  intro fits
  rw [matches_iff.mp fits] at missed
  cases missed

end Matches

section Choice

variable {tree : Node} {patterns seen : List Pattern} {best : Option Match} {pattern : Pattern}
  {found other : Match} {bindings : Bindings}

/-- A pattern further down that does not match, or does not cover more, changes nothing. -/
theorem Match.FirstLargest.keep (largest : found.FirstLargest tree seen)
    (beaten : ∀ b, pattern.Matches tree b → pattern.shape.size ≤ found.pattern.shape.size) :
    found.FirstLargest tree (seen ++ [pattern]) where
  fits := largest.fits
  most := by
    intro other member b matched
    rcases List.mem_append.mp member with old | new
    · exact largest.most other old b matched
    · cases List.mem_singleton.mp new
      exact beaten b matched
  first := by
    obtain ⟨before, behind, rfl, less⟩ := largest.first
    exact ⟨before, behind ++ [pattern], by simp, less⟩

/-- A pattern that matches and covers more than all that match in front of it. -/
theorem Match.firstLargest_last (fits : pattern.Matches tree bindings)
    (less : ∀ other ∈ seen, ∀ b, other.Matches tree b → other.shape.size < pattern.shape.size) :
    Match.FirstLargest tree (seen ++ [pattern]) { pattern, bindings } where
  fits := fits
  most := by
    intro other member b matched
    rcases List.mem_append.mp member with old | new
    · exact Nat.le_of_lt (less other old b matched)
    · cases List.mem_singleton.mp new
      exact Nat.le_refl _
  first := ⟨seen, [], rfl, less⟩

theorem Match.FirstLargest.mem (largest : found.FirstLargest tree patterns) :
    found.pattern ∈ patterns := by
  obtain ⟨before, behind, rfl, -⟩ := largest.first
  exact List.mem_append_right before List.mem_cons_self

/-- Only one match is the first of the largest ones: of two patterns that cover as much as each
other, none stands in front of the other. -/
theorem Match.FirstLargest.unique (largest : found.FirstLargest tree patterns)
    (again : other.FirstLargest tree patterns) : found = other := by
  have atMost := again.most found.pattern largest.mem found.bindings largest.fits
  have atLeast := largest.most other.pattern again.mem other.bindings again.fits
  obtain ⟨before, behind, split, less⟩ := largest.first
  obtain ⟨before', behind', split', less'⟩ := again.first
  have samePattern : found.pattern = other.pattern := by
    rcases List.append_eq_append_iff.mp (split.symm.trans split') with
      ⟨between, longer, rest⟩ | ⟨between, longer, rest⟩
    · cases between with
      | nil => exact (List.cons.inj rest).1
      | cons front between =>
        rw [← (List.cons.inj rest).1] at longer
        have smaller := less' found.pattern (by simp [longer]) found.bindings largest.fits
        exact absurd smaller (Nat.not_lt.mpr atLeast)
    · cases between with
      | nil => exact (List.cons.inj rest).1.symm
      | cons front between =>
        rw [← (List.cons.inj rest).1] at longer
        have smaller := less other.pattern (by simp [longer]) other.bindings again.fits
        exact absurd smaller (Nat.not_lt.mpr atMost)
  have sameBindings : found.bindings = other.bindings := by
    have bound := Pattern.matches_iff.mp largest.fits
    rw [samePattern, Pattern.matches_iff.mp again.fits] at bound
    exact (Option.some.inj bound).symm
  cases found
  cases other
  cases samePattern
  cases sameBindings
  rfl

/-- The best match so far, when these patterns have been tried. -/
structure InstructionSet.Best (tree : Node) (seen : List Pattern) (best : Option Match) :
    Prop where
  none : best = none → ∀ pattern ∈ seen, ∀ b, ¬ pattern.Matches tree b
  some : ∀ found, best = some found → found.FirstLargest tree seen

/-- One more pattern is tried. -/
theorem InstructionSet.Best.improve (sofar : Best tree seen best) (pattern : Pattern) :
    Best tree (seen ++ [pattern]) (improve tree best pattern) := by
  unfold InstructionSet.improve
  cases matched : pattern.shape.match? tree with
  | none =>
    constructor
    · intro nothing other member b
      rcases List.mem_append.mp member with old | new
      · exact sofar.none nothing other old b
      · cases List.mem_singleton.mp new
        exact Pattern.not_matches matched
    · intro found same
      exact (sofar.some found same).keep fun b fits => absurd fits (Pattern.not_matches matched)
  | some bindings =>
    have fits : pattern.Matches tree bindings := Pattern.matches_iff.mpr matched
    cases best with
    | none =>
      refine ⟨by simp, ?_⟩
      rintro _ ⟨⟩
      exact Match.firstLargest_last fits fun other member b hit =>
        absurd hit (sofar.none rfl other member b)
    | some current =>
      have largest := sofar.some current rfl
      by_cases larger : current.pattern.shape.size < pattern.shape.size
      · simp only [larger, if_true]
        refine ⟨by simp, ?_⟩
        rintro _ ⟨⟩
        exact Match.firstLargest_last fits fun other member b hit =>
          Nat.lt_of_le_of_lt (largest.most other member b hit) larger
      · simp only [larger, if_false]
        refine ⟨by simp, ?_⟩
        rintro _ ⟨⟩
        exact largest.keep fun _ _ => Nat.le_of_not_lt larger

/-- The rest of a table is tried. -/
theorem InstructionSet.Best.foldl (sofar : Best tree seen best) (patterns : List Pattern) :
    Best tree (seen ++ patterns) (patterns.foldl (InstructionSet.improve tree) best) := by
  induction patterns generalizing seen best with
  | nil =>
    rw [List.append_nil]
    exact sofar
  | cons pattern patterns ih =>
    rw [List.append_cons]
    exact ih (sofar.improve pattern)

theorem InstructionSet.best_pick (isa : InstructionSet) (tree : Node) :
    Best tree isa.patterns (isa.pick tree) := by
  have start : Best tree [] none := ⟨fun _ => List.forall_mem_nil _, by simp⟩
  exact start.foldl isa.patterns

end Choice

/-- Maximal munch: nothing is picked exactly if no pattern of the kind of the tree matches it.
Otherwise that match is picked whose pattern covers the most nodes and stands first among those
that do, with what the pattern binds on its own. -/
theorem InstructionSet.picks_first_largest (isa : InstructionSet) (tree : Node) :
    (isa.pick tree = none ↔ ∀ pattern ∈ isa.patterns, ∀ b, ¬ pattern.Matches tree b) ∧
    ∀ found, isa.pick tree = some found ↔ found.FirstLargest tree isa.patterns := by
  have best := isa.best_pick tree
  refine ⟨⟨best.none, ?_⟩, fun found => ⟨best.some found, ?_⟩⟩
  · intro nothing
    cases picked : isa.pick tree with
    | none => rfl
    | some found =>
      have largest := best.some found picked
      exact absurd largest.fits (nothing found.pattern largest.mem found.bindings)
  · intro largest
    cases picked : isa.pick tree with
    | none =>
      exact absurd largest.fits (best.none picked found.pattern largest.mem found.bindings)
    | some other => rw [(best.some other picked).unique largest]

end TreeCode
