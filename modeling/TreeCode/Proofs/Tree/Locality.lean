import TreeCode.Proofs.Tree.Meaning
import TreeCode.Proofs.Tree.Occurrences

/-!
Evaluation is local: a temporary that does not occur in a tree is neither read nor written when
the tree is evaluated. So it makes no difference whether it is set before or afterwards.
-/

namespace TreeCode.Tree

variable {V W : Type} {M : Model V W} {t : Temp}

theorem State.set_set (σ : State V W) (t : Temp) (v w : V) :
    (σ.set t v).set t w = σ.set t w := by
  unfold State.set
  congr 1
  funext x
  by_cases same : x = t <;> simp [same]

theorem State.set_comm (σ : State V W) {t u : Temp} (v w : V) (different : t ≠ u) :
    (σ.set t v).set u w = (σ.set u w).set t v := by
  unfold State.set
  congr 1
  funext x
  by_cases first : x = t
  · subst x
    simp [different]
  · simp [first]

namespace Model

mutual
/-- A temporary that does not occur may be set before an expression is evaluated or after it. -/
theorem eval_set (w : V) : ∀ (e : Exp) (σ : State V W), t ∉ e.temps →
    M.eval e (σ.set t w) = ((M.eval e σ).1, (M.eval e σ).2.set t w)
  | .const _, _, _ => by simp only [eval]
  | .name _, _, _ => by simp only [eval]
  | .temp u, σ, absent => by
    have different : u ≠ t := fun same => absent (same ▸ List.mem_singleton_self u)
    simp only [eval, State.set_temps_ne σ w different]
  | .binop op left right, σ, absent => by
    simp only [Exp.temps, List.mem_append, not_or] at absent
    simp only [eval, eval_set w left σ absent.1, eval_set w right _ absent.2]
  | .mem address, σ, absent => by
    simp only [eval, eval_set w address σ absent, State.set_world]
  | .call func link args, σ, absent => by
    simp only [Exp.temps, List.mem_append, not_or] at absent
    simp only [eval, eval_set w func σ absent.1.1, evalLink_set w link _ absent.1.2,
      evalAll_set w args _ absent.2, State.set_world]
    rfl
  | .eseq stm e, σ, absent => by
    simp only [Exp.temps, List.mem_append, not_or] at absent
    simp only [eval, exec_set w stm σ absent.1, eval_set w e _ absent.2]
theorem evalLink_set (w : V) : ∀ (link : Option Exp) (σ : State V W), t ∉ Exp.linkTemps link →
    M.evalLink link (σ.set t w) = ((M.evalLink link σ).1, (M.evalLink link σ).2.set t w)
  | none, _, _ => by simp only [evalLink]
  | some link, σ, absent => by simp only [evalLink, eval_set w link σ absent]
theorem evalAll_set (w : V) : ∀ (exps : List Exp) (σ : State V W), t ∉ Exp.listTemps exps →
    M.evalAll exps (σ.set t w) = ((M.evalAll exps σ).1, (M.evalAll exps σ).2.set t w)
  | [], _, _ => by simp only [evalAll]
  | exp :: exps, σ, absent => by
    simp only [Exp.listTemps, List.mem_append, not_or] at absent
    simp only [evalAll, eval_set w exp σ absent.1, evalAll_set w exps _ absent.2]
/-- The same for an assignment, whatever gives the value. -/
theorem assign_set (w : V) {src : State V W → V × State V W}
    (source : ∀ σ, src (σ.set t w) = ((src σ).1, (src σ).2.set t w)) :
    ∀ (dst : Exp) (σ : State V W), t ∉ dst.temps →
      M.assign src dst (σ.set t w) = (M.assign src dst σ).set t w
  | .temp u, σ, absent => by
    have different : t ≠ u := fun same => absent (same ▸ List.mem_singleton_self u)
    simp only [assign, source, State.set_comm _ _ _ different]
  | .mem address, σ, absent => by
    simp only [assign, eval_set w address σ absent, source, State.set_world]
    rfl
  | .eseq stm dst, σ, absent => by
    simp only [Exp.temps, List.mem_append, not_or] at absent
    simp only [assign, exec_set w stm σ absent.1, assign_set w source dst _ absent.2]
  | .const _, σ, _ => by simp only [assign, source]
  | .name _, σ, _ => by simp only [assign, source]
  | .binop _ _ _, σ, _ => by simp only [assign, source]
  | .call _ _ _, σ, _ => by simp only [assign, source]
/-- A temporary that is not in a statement does not matter to it and is not changed by it. -/
theorem exec_set (w : V) : ∀ (stm : Stm) (σ : State V W), t ∉ stm.temps →
    M.exec stm (σ.set t w) = (M.exec stm σ).set t w
  | .move dst src, σ, absent => by
    simp only [Stm.temps, List.mem_append, not_or] at absent
    simp only [exec]
    exact assign_set w (fun σ => eval_set w src σ absent.2) dst σ absent.1
  | .exp e, σ, absent => by simp only [exec, eval_set w e σ absent]
  | .jump _ _, _, _ => by simp only [exec]
  | .cjump _ _ _ _ _, _, _ => by simp only [exec]
  | .seq first second, σ, absent => by
    simp only [Stm.temps, List.mem_append, not_or] at absent
    simp only [exec, exec_set w first σ absent.1, exec_set w second _ absent.2]
  | .label _, _, _ => by simp only [exec]
end

end Model

end TreeCode.Tree
