import TreeCode.Code.Selection
import TreeCode.Proofs.Code.Templates

/-!
Covering flat trees. A match binds parts of the tree to registers and never a call, so that covering
it evaluates these parts one after the other and then emits the instructions of the pattern.
-/

namespace TreeCode

open Tree

/-- What a match of a flat expression binds to registers are parts of it. -/
theorem Shape.bindExp_parts (shape : Shape) (e : Exp) (b : Bindings) {b' : Bindings}
    (flat : e.isFlat = true) (bound : shape.bindExp? e b = some b') :
    b'.call = b.call ∧ ∀ x ∈ b'.regs, x ∈ b.regs ∨ x ∈ e.parts := by
  fun_induction Shape.bindExp? shape e b generalizing b' with
  | case1 e b =>
    cases bound
    refine ⟨rfl, fun x member => ?_⟩
    rcases List.mem_append.mp member with old | here
    · exact .inl old
    · rw [List.mem_singleton.mp here]
      exact .inr (mem_parts_self e)
  | case2 t b =>
    cases bound
    refine ⟨rfl, fun x member => ?_⟩
    rcases List.mem_append.mp member with old | here
    · exact .inl old
    · exact .inr here
  | case3 | case5 | case7 =>
    cases bound
    exact ⟨rfl, fun x member => .inl member⟩
  | case8 left right op l r b middle first carriedLeft carriedRight =>
    simp only [Exp.isFlat, Bool.and_eq_true] at flat
    obtain ⟨early, before⟩ := carriedLeft flat.1 first
    obtain ⟨late, behind⟩ := carriedRight flat.2 bound
    refine ⟨late.trans early, fun x member => ?_⟩
    simp only [Exp.parts, List.mem_cons, List.mem_append]
    rcases behind x member with middle | inRight
    · rcases before x middle with old | inLeft
      · exact .inl old
      · exact .inr (.inr (.inl inLeft))
    · exact .inr (.inr (.inr inRight))
  | case11 address e b carried =>
    obtain ⟨same, inside⟩ := carried flat bound
    exact ⟨same, fun x member => (inside x member).imp id (List.mem_cons_of_mem _)⟩
  | case12 => cases flat
  | case4 | case6 | case9 | case10 | case13 | case14 => cases bound

theorem Shape.bindStm_parts {shape : Shape} {stm : Stm} {b : Bindings} (flat : stm.isFlat = true)
    (bound : shape.bindStm? stm {} = some b) :
    b.call = none ∧ ∀ x ∈ b.regs, x ∈ stm.parts := by
  rcases bindStm_some bound with
    ⟨dst, src, d, e, middle, rfl, rfl, first, second⟩ | ⟨inner, e, rfl, rfl, first⟩ |
    ⟨target, e, labels, middle, rfl, rfl, first, rfl⟩ |
    ⟨op, left, right, actual, l, r, yes, no, middle, last, rfl, rfl, first, second, rfl⟩
  · have flats : d.isFlat = true ∧ e.isFlat = true := by
      cases d <;> simp_all [Stm.isFlat, Exp.isFlat]
    obtain ⟨early, before⟩ := dst.bindExp_parts d {} flats.1 first
    obtain ⟨late, behind⟩ := src.bindExp_parts e middle flats.2 second
    refine ⟨late.trans early, fun x member => List.mem_append.mpr ?_⟩
    rcases behind x member with middle | inSource
    · exact .inl ((before x middle).resolve_left List.not_mem_nil)
    · exact .inr inSource
  · obtain ⟨same, inside⟩ := inner.bindExp_parts e {} flat first
    exact ⟨same, fun x member => (inside x member).resolve_left List.not_mem_nil⟩
  · have flats : e.isFlat = true := by
      cases e <;> simp_all [Stm.isFlat, Exp.isName, Exp.isFlat]
    obtain ⟨same, inside⟩ := target.bindExp_parts e {} flats first
    exact ⟨same, fun x member => (inside x member).resolve_left List.not_mem_nil⟩
  · simp only [Stm.isFlat, Bool.and_eq_true] at flat
    obtain ⟨early, before⟩ := left.bindExp_parts l _ flat.1 first
    obtain ⟨late, behind⟩ := right.bindExp_parts r middle flat.2 second
    refine ⟨late.trans early, fun x member => List.mem_append.mpr ?_⟩
    rcases behind x member with middle | inRight
    · exact .inl ((before x middle).resolve_left List.not_mem_nil)
    · exact .inr inRight

namespace Selector

variable {sel : Selector} {s s' : Selection}

/-- What covering a match does, if it binds no call. -/
theorem coverMatch_ok {found : Match} {result : Option Temp} {done : Unit}
    (plain : found.bindings.call = none) (ran : sel.coverMatch found result s = .ok done s') :
    ∃ regs middle code, sel.coverAll found.bindings.regs s = .ok regs middle ∧
      found.pattern.emit.mapM (sel.instrOf (found.bindings.operands regs result)) = .ok code ∧
      s' = middle.adding code := by
  rw [coverMatch, plain, placeCall] at ran
  obtain ⟨regs, middle, covered, ran⟩ := bind_ok.mp ran
  obtain ⟨_, _, placed, ran⟩ := bind_ok.mp ran
  obtain ⟨-, rfl⟩ := pure_ok.mp placed
  obtain ⟨code, made, rfl⟩ := emitTemplates_ok.mp ran
  exact ⟨regs, middle, code, covered, made, rfl⟩

/-- What covering the match of an expression does: the result is a fresh temporary. -/
theorem coverFresh_ok {e : Exp} {t : Temp}
    (ran : (match sel.isa.cover (.exp e) with
      | .error error => throw error
      | .ok ⟨found, _⟩ => do
        let result ← freshTemp
        sel.coverMatch found (some result)
        return result : Select Temp) s = .ok t s') :
    t = ⟨s.supply.temps⟩ ∧ ∃ found, sel.isa.pick (.exp e) = some found ∧ found.load < e.size ∧
      ∃ done, sel.coverMatch found (some t) s.drawn = .ok done s' := by
  cases picked : sel.isa.cover (.exp e) with
  | error error =>
    rw [picked] at ran
    exact (throw_ok.mp ran).elim
  | ok found =>
    rw [picked] at ran
    obtain ⟨result, _, drawn, ran⟩ := bind_ok.mp ran
    obtain ⟨rfl, rfl⟩ := select_fresh_ok.mp drawn
    obtain ⟨done, _, covered, ran⟩ := bind_ok.mp ran
    obtain ⟨rfl, rfl⟩ := pure_ok.mp ran
    exact ⟨rfl, found.val, InstructionSet.cover_ok picked, found.property, done, covered⟩

/-- What covering an expression does, if it does not begin with a statement: nothing for a
temporary, otherwise it covers a match. -/
theorem coverExp_ok {e : Exp} {t : Temp} (bare : ∀ stm value, e ≠ .eseq stm value)
    (ran : sel.coverExp e s = .ok t s') :
    (e = .temp t ∧ s' = s) ∨
      (∀ u, e ≠ .temp u) ∧ t = ⟨s.supply.temps⟩ ∧
        ∃ found, sel.isa.pick (.exp e) = some found ∧ found.load < e.size ∧
          ∃ done, sel.coverMatch found (some t) s.drawn = .ok done s' := by
  cases e with
  | temp u =>
    rw [coverExp] at ran
    obtain ⟨rfl, rfl⟩ := pure_ok.mp ran
    exact .inl ⟨rfl, rfl⟩
  | const value =>
    simp only [coverExp] at ran
    exact .inr ⟨by simp, coverFresh_ok ran⟩
  | name label =>
    simp only [coverExp] at ran
    exact .inr ⟨by simp, coverFresh_ok ran⟩
  | binop op left right =>
    simp only [coverExp] at ran
    exact .inr ⟨by simp, coverFresh_ok ran⟩
  | mem address =>
    simp only [coverExp] at ran
    exact .inr ⟨by simp, coverFresh_ok ran⟩
  | call func link args =>
    simp only [coverExp] at ran
    exact .inr ⟨by simp, coverFresh_ok ran⟩
  | eseq stm value => exact absurd rfl (bare stm value)

theorem coverPlain_ok {stm : Stm} {done : Unit}
    (ran : (match sel.isa.cover (.stm stm) with
      | .error error => throw error
      | .ok ⟨found, _⟩ => sel.coverMatch found none : Select Unit) s = .ok done s') :
    ∃ found, sel.isa.pick (.stm stm) = some found ∧ sel.coverMatch found none s = .ok done s' := by
  cases picked : sel.isa.cover (.stm stm) with
  | error error =>
    rw [picked] at ran
    exact (throw_ok.mp ran).elim
  | ok found =>
    rw [picked] at ran
    exact ⟨found.val, InstructionSet.cover_ok picked, ran⟩

/-- What covering a flat statement does: it covers a match. -/
theorem coverStm_ok {stm : Stm} {done : Unit} (flat : stm.isFlat = true)
    (ran : sel.coverStm stm s = .ok done s') :
    ∃ found, sel.isa.pick (.stm stm) = some found ∧ sel.coverMatch found none s = .ok done s' := by
  cases stm with
  | seq first second => cases flat
  | label name => cases flat
  | move dst src =>
    simp only [coverStm] at ran
    exact coverPlain_ok ran
  | exp e =>
    simp only [coverStm] at ran
    exact coverPlain_ok ran
  | jump target labels =>
    simp only [coverStm] at ran
    exact coverPlain_ok ran
  | cjump op left right yes no =>
    simp only [coverStm] at ran
    exact coverPlain_ok ran

end Selector

end TreeCode
