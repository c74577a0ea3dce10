import TreeCode.Proofs.Code.WellFormed
import TreeCode.Proofs.Target.Coverage

/-!
The code of every machine is well formed, whatever statement it is selected for.
-/

namespace TreeCode

open Tree

namespace Arch

/-- In the tables of all targets, results are written before they are read. -/
theorem target_orderly (arch : Arch) : arch.target.isa.orderly = true := by
  cases arch with
  | x64 => decide +kernel
  | arm64 => decide +kernel
  | i386 => decide +kernel

theorem issued_orderly {arch : Arch} {supply supply' : Supply} {conv : Convention}
    (issued : arch.target.convention.issue supply = .ok conv supply') :
    Selector.Orderly { conv, isa := arch.target.isa } arch.repertoire :=
  { issued_serves issued with closed := (issue_closed issued).1, orderly := arch.target_orderly }

end Arch

/-- Selection does not fail because of the table. When it succeeds, every instruction has the
operands that its text asks for, and a temporary that was issued on the way is written by an
instruction before another one reads it. Whether it succeeds or fails, what is waiting afterwards is
well formed again. -/
theorem selection_wellFormed {arch : Arch} {supply supply' : Supply} {conv : Convention}
    (issued : arch.target.convention.issue supply = .ok conv supply') {s : Selection}
    (later : supply'.temps ≤ s.supply.temps) (waiting : s.WellFormed) {stm : Stm}
    (known : Tree.Below s.supply.temps stm.temps) :
    (∀ error t, Selector.select { conv, isa := arch.target.isa } stm s = .error error t →
      (∀ fault, error ≠ .table fault) ∧ t.WellFormed) ∧
    ∀ code t, Selector.select { conv, isa := arch.target.isa } stm s = .ok code t →
      (∀ instr ∈ code, instr.Complete) ∧
      (∀ before instr behind, code = before ++ instr :: behind →
        ∀ r ∈ instr.src, r.Between s.supply.temps t.supply.temps →
          ∃ earlier ∈ before, r ∈ earlier.dst) ∧
      t.WellFormed := by
  have orderly := Arch.issued_orderly issued
  obtain ⟨closed, machine⟩ := issue_closed issued
  have registers : Tree.Below s.supply.temps conv.machine := fun t member =>
    Nat.lt_of_lt_of_le (machine t member) later
  obtain ⟨complete, reads⟩ := Selector.coverStm_wellFormed orderly registers waiting known
  have grows := (@Selector.emits_coverStm { conv, isa := arch.target.isa } closed stm).grows s
  constructor
  · intro error t failed
    rcases bind_error failed with failed | ⟨_, _, _, taken⟩
    · rw [failed, left_error] at complete reads grows
      refine ⟨?_, complete, reads.mono fun r old => Nat.lt_of_lt_of_le old grows⟩
      rintro fault rfl
      exact (Selector.sound_coverStm orderly stm registers known).faultless failed
    · cases taken
  · intro code t ran
    obtain ⟨_, u, covered, taken⟩ := bind_ok.mp ran
    rw [covered, left_ok] at complete reads
    cases taken
    refine ⟨complete, ?_, Selection.wellFormed_nil _⟩
    rintro before instr behind same r read ⟨recent, -⟩
    rw [same] at reads
    exact (reads.source read).resolve_left (Nat.not_lt.mpr recent)

/-- A quotient with a statement inside, stored in memory. -/
def nestedQuotient : Stm :=
  .move (.mem (.temp ⟨20⟩))
    (.eseq (.move (.temp ⟨21⟩) (.const 7)) (.binop .div (.temp ⟨21⟩) (.mem (.temp ⟨20⟩))))

theorem nestedQuotient_wellFormed : ∃ conv supply',
    Arch.x64.target.convention.issue {} = .ok conv supply' ∧ supply'.temps ≤ 24 ∧
      Tree.Below 24 nestedQuotient.temps ∧
      ∃ code t, Selector.select { conv, isa := Arch.x64.target.isa } nestedQuotient
          { supply := { supply' with temps := 24 } } = .ok code t ∧
        (∀ instr ∈ code, instr.Complete) ∧
        ∀ before instr behind, code = before ++ instr :: behind →
          ∀ r ∈ instr.src, r.Between 24 t.supply.temps → ∃ earlier ∈ before, r ∈ earlier.dst := by
  have checked : (match Arch.x64.target.convention.issue {} with
    | .ok _ supply => decide (supply.temps ≤ 24)
    | .error _ _ => false) = true := by decide +kernel
  split at checked
  next conv supply issued =>
    have few : supply.temps ≤ 24 := of_decide_eq_true checked
    have below : Tree.Below 24 nestedQuotient.temps := by
      simp [nestedQuotient, Stm.temps, Exp.temps]
    have covered : Selector.coversStm { conv, isa := Arch.x64.target.isa } Arch.x64.repertoire
        nestedQuotient = true := by
      simp [nestedQuotient, Selector.coversStm, Selector.covers, Exp.isCell, Arch.repertoire,
        ImmRange.contains]
    obtain ⟨code, t, ran⟩ := (Selector.decides_select (Arch.issued_serves issued) nestedQuotient
      { supply := { supply with temps := 24 } }).mpr covered
    obtain ⟨complete, reads, -⟩ :=
      (selection_wellFormed issued few (Selection.wellFormed_nil _) below).2 code t ran
    exact ⟨conv, supply, issued, few, below, code, t, ran, complete, reads⟩
  next => cases checked

end TreeCode
