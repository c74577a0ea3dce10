import TreeCode.Proofs.Tree.Meaning

/-!
What running a statement writes. A temporary changes only if a move inside the statement goes to
it; reading it makes no difference.
-/

namespace TreeCode.Tree

mutual
/-- The temporaries that statements inside an expression write. -/
def Exp.writes : Exp → List Temp
  | .const _ => []
  | .name _ => []
  | .temp _ => []
  | .binop _ left right => left.writes ++ right.writes
  | .mem address => address.writes
  | .call func link args => func.writes ++ (Exp.linkWrites link ++ Exp.listWrites args)
  | .eseq stm exp => stm.writes ++ exp.writes
/-- The temporaries that a call's link writes. -/
def Exp.linkWrites : Option Exp → List Temp
  | none => []
  | some link => link.writes
/-- The temporaries that expressions write. -/
def Exp.listWrites : List Exp → List Temp
  | [] => []
  | exp :: exps => exp.writes ++ Exp.listWrites exps
/-- The temporaries that are written when an expression is the destination of a move. -/
def Exp.destinations : Exp → List Temp
  | .temp t => [t]
  | .mem address => address.writes
  | .eseq stm exp => stm.writes ++ exp.destinations
  | .const _ => []
  | .name _ => []
  | .binop _ _ _ => []
  | .call _ _ _ => []
/-- The temporaries that a statement writes. -/
def Stm.writes : Stm → List Temp
  | .move dst src => dst.destinations ++ src.writes
  | .exp exp => exp.writes
  | .jump target _ => target.writes
  | .cjump _ left right _ _ => left.writes ++ right.writes
  | .seq first second => first.writes ++ second.writes
  | .label _ => []
end

namespace Model

variable {V W : Type} {M : Model V W} {t : Temp}

mutual
/-- A temporary keeps its value in an expression that does not write it. -/
theorem eval_unwritten : ∀ (e : Exp) (σ : State V W), t ∉ e.writes →
    (M.eval e σ).2.temps t = σ.temps t
  | .const _, _, _ => by simp only [eval]
  | .name _, _, _ => by simp only [eval]
  | .temp _, _, _ => by simp only [eval]
  | .binop op left right, σ, absent => by
    simp only [Exp.writes, List.mem_append, not_or] at absent
    simp only [eval, eval_unwritten right _ absent.2, eval_unwritten left σ absent.1]
  | .mem address, σ, absent => by
    simp only [eval, eval_unwritten address σ absent]
  | .call func link args, σ, absent => by
    simp only [Exp.writes, List.mem_append, not_or] at absent
    simp only [eval, State.withWorld_temps, evalAll_unwritten args _ absent.2.2,
      evalLink_unwritten link _ absent.2.1, eval_unwritten func σ absent.1]
  | .eseq stm e, σ, absent => by
    simp only [Exp.writes, List.mem_append, not_or] at absent
    simp only [eval, eval_unwritten e _ absent.2, exec_unwritten stm σ absent.1]
theorem evalLink_unwritten : ∀ (link : Option Exp) (σ : State V W), t ∉ Exp.linkWrites link →
    (M.evalLink link σ).2.temps t = σ.temps t
  | none, _, _ => by simp only [evalLink]
  | some link, σ, absent => by simp only [evalLink, eval_unwritten link σ absent]
theorem evalAll_unwritten : ∀ (exps : List Exp) (σ : State V W), t ∉ Exp.listWrites exps →
    (M.evalAll exps σ).2.temps t = σ.temps t
  | [], _, _ => by simp only [evalAll]
  | exp :: exps, σ, absent => by
    simp only [Exp.listWrites, List.mem_append, not_or] at absent
    simp only [evalAll, evalAll_unwritten exps _ absent.2, eval_unwritten exp σ absent.1]
/-- The same for an assignment, if what gives the value writes nothing to `t`. -/
theorem assign_unwritten {src : State V W → V × State V W}
    (source : ∀ σ, (src σ).2.temps t = σ.temps t) :
    ∀ (dst : Exp) (σ : State V W), t ∉ dst.destinations →
      (M.assign src dst σ).temps t = σ.temps t
  | .temp u, σ, absent => by
    have different : t ≠ u := fun same => absent (same ▸ List.mem_singleton_self t)
    simp only [assign, State.set_temps_ne _ _ different, source]
  | .mem address, σ, absent => by
    simp only [assign, State.withWorld_temps, source, eval_unwritten address σ absent]
  | .eseq stm dst, σ, absent => by
    simp only [Exp.destinations, List.mem_append, not_or] at absent
    simp only [assign, assign_unwritten source dst _ absent.2, exec_unwritten stm σ absent.1]
  | .const _, _, _ => by simp only [assign, source]
  | .name _, _, _ => by simp only [assign, source]
  | .binop _ _ _, _, _ => by simp only [assign, source]
  | .call _ _ _, _, _ => by simp only [assign, source]
/-- What a statement does not write keeps its value. -/
theorem exec_unwritten : ∀ (stm : Stm) (σ : State V W), t ∉ stm.writes →
    (M.exec stm σ).temps t = σ.temps t
  | .move dst src, σ, absent => by
    simp only [Stm.writes, List.mem_append, not_or] at absent
    simp only [exec]
    exact assign_unwritten (fun σ => eval_unwritten src σ absent.2) dst σ absent.1
  | .exp e, σ, absent => by simp only [exec, eval_unwritten e σ absent]
  | .jump _ _, _, _ => by simp only [exec]
  | .cjump _ _ _ _ _, _, _ => by simp only [exec]
  | .seq first second, σ, absent => by
    simp only [Stm.writes, List.mem_append, not_or] at absent
    simp only [exec, exec_unwritten second _ absent.2, exec_unwritten first σ absent.1]
  | .label _, _, _ => by simp only [exec]
end

/-- A sequence is run as the list of its statements. -/
theorem exec_sequence (M : Model V W) : ∀ (stms : List Stm) (σ : State V W),
    M.exec (.sequence stms) σ = M.execAll stms σ
  | [], σ => by simp only [Stm.sequence, Stm.nop, exec, eval, execAll]
  | [stm], σ => rfl
  | stm :: next :: stms, σ => by
    rw [Stm.sequence, exec, exec_sequence M (next :: stms)]
    · rfl
    · exact fun absurd => List.cons_ne_nil _ _ absurd

end Model

end TreeCode.Tree
