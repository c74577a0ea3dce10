import TreeCode.Tree.Basic

/-!
What occurs in a tree: its temporaries, the labels that it gives to statements, and the statements
and expressions inside it. Moves are meant to go to a place, which is a temporary, a word in memory,
or one of these after some statements.
-/

namespace TreeCode.Tree

mutual
/-- The temporaries of an expression, from left to right. -/
def Exp.temps : Exp → List Temp
  | .const _ => []
  | .name _ => []
  | .temp t => [t]
  | .binop _ left right => left.temps ++ right.temps
  | .mem address => address.temps
  | .call func link args => func.temps ++ Exp.linkTemps link ++ Exp.listTemps args
  | .eseq stm exp => stm.temps ++ exp.temps
/-- The temporaries of a call's link. -/
def Exp.linkTemps : Option Exp → List Temp
  | none => []
  | some link => link.temps
/-- The temporaries of expressions in order. -/
def Exp.listTemps : List Exp → List Temp
  | [] => []
  | exp :: exps => exp.temps ++ Exp.listTemps exps
/-- The temporaries of a statement, from left to right. -/
def Stm.temps : Stm → List Temp
  | .move dst src => dst.temps ++ src.temps
  | .exp exp => exp.temps
  | .jump target _ => target.temps
  | .cjump _ left right _ _ => left.temps ++ right.temps
  | .seq first second => first.temps ++ second.temps
  | .label _ => []
end

mutual
/-- The labels that statements inside an expression carry, from left to right. -/
def Exp.labels : Exp → List Label
  | .const _ => []
  | .name _ => []
  | .temp _ => []
  | .binop _ left right => left.labels ++ right.labels
  | .mem address => address.labels
  | .call func link args => func.labels ++ (Exp.linkLabels link ++ Exp.listLabels args)
  | .eseq stm exp => stm.labels ++ exp.labels
/-- The labels of a call's link. -/
def Exp.linkLabels : Option Exp → List Label
  | none => []
  | some link => link.labels
/-- The labels of expressions in order. -/
def Exp.listLabels : List Exp → List Label
  | [] => []
  | exp :: exps => exp.labels ++ Exp.listLabels exps
/-- The labels that a statement and the statements inside it carry, from left to right. -/
def Stm.labels : Stm → List Label
  | .move dst src => dst.labels ++ src.labels
  | .exp exp => exp.labels
  | .jump target _ => target.labels
  | .cjump _ left right _ _ => left.labels ++ right.labels
  | .seq first second => first.labels ++ second.labels
  | .label name => [name]
end

/-- What a sequence holds is what its statements hold, for everything that is collected from left
to right. -/
theorem Stm.collect_sequence {α : Type} (collect : Stm → List α) (empty : collect .nop = [])
    (both : ∀ first second, collect (.seq first second) = collect first ++ collect second)
    (stms : List Stm) : collect (.sequence stms) = stms.flatMap collect := by
  induction stms with
  | nil => exact empty
  | cons stm stms carried =>
    cases stms with
    | nil => exact (List.append_nil _).symm
    | cons next stms =>
      rw [List.flatMap_cons, ← carried]
      exact both stm _

/-- All of the temporaries are numbered below `n`. -/
def Below (n : Nat) (temps : List Temp) : Prop := ∀ t ∈ temps, t.index < n

@[simp] theorem below_nil (n : Nat) : Below n [] := by
  simp [Below]

@[simp] theorem below_cons (n : Nat) (t : Temp) (temps : List Temp) :
    Below n (t :: temps) ↔ t.index < n ∧ Below n temps := by
  simp [Below]

@[simp] theorem below_append (n : Nat) (first second : List Temp) :
    Below n (first ++ second) ↔ Below n first ∧ Below n second := by
  simp only [Below, List.mem_append]
  constructor
  · intro all
    exact ⟨fun t member => all t (Or.inl member), fun t member => all t (Or.inr member)⟩
  · rintro ⟨left, right⟩ t (member | member)
    · exact left t member
    · exact right t member

mutual
/-- Whether `p` holds of every statement inside an expression. -/
def Exp.allStms (p : Stm → Bool) : Exp → Bool
  | .const _ => true
  | .name _ => true
  | .temp _ => true
  | .binop _ left right => left.allStms p && right.allStms p
  | .mem address => address.allStms p
  | .call func link args =>
    func.allStms p && Exp.linkAllStms p link && Exp.listAllStms p args
  | .eseq stm exp => stm.allStms p && exp.allStms p
/-- Whether `p` holds of every statement inside a call's link. -/
def Exp.linkAllStms (p : Stm → Bool) : Option Exp → Bool
  | none => true
  | some link => link.allStms p
/-- Whether `p` holds of every statement inside some expressions. -/
def Exp.listAllStms (p : Stm → Bool) : List Exp → Bool
  | [] => true
  | exp :: exps => exp.allStms p && Exp.listAllStms p exps
/-- Whether `p` holds of a statement and of every statement inside it. -/
def Stm.allStms (p : Stm → Bool) : Stm → Bool
  | .move dst src => p (.move dst src) && dst.allStms p && src.allStms p
  | .exp exp => p (.exp exp) && exp.allStms p
  | .jump target labels => p (.jump target labels) && target.allStms p
  | .cjump op left right yes no =>
    p (.cjump op left right yes no) && left.allStms p && right.allStms p
  | .seq first second => p (.seq first second) && first.allStms p && second.allStms p
  | .label label => p (.label label)
end

mutual
/-- Whether there is no call inside an expression. -/
def Exp.callFree : Exp → Bool
  | .const _ => true
  | .name _ => true
  | .temp _ => true
  | .binop _ left right => left.callFree && right.callFree
  | .mem address => address.callFree
  | .call _ _ _ => false
  | .eseq stm exp => stm.callFree && exp.callFree
/-- Whether there is no call inside a statement. -/
def Stm.callFree : Stm → Bool
  | .move dst src => dst.callFree && src.callFree
  | .exp exp => exp.callFree
  | .jump target _ => target.callFree
  | .cjump _ left right _ _ => left.callFree && right.callFree
  | .seq first second => first.callFree && second.callFree
  | .label _ => true
end

/-- Whether an expression is a call. -/
def Exp.isCall : Exp → Bool
  | .call _ _ _ => true
  | _ => false

/-- Whether an expression is a constant. -/
def Exp.isConst : Exp → Bool
  | .const _ => true
  | _ => false

/-- Whether there is no call inside an expression, except that it may be one itself. -/
def Exp.callsAtRoot : Exp → Bool
  | .call func link args => func.callFree && (link.all Exp.callFree && args.all Exp.callFree)
  | e => e.callFree

/-- Whether the only call of a statement is all that it evaluates: the whole source of a move to
a temporary, or the whole of an expression statement. -/
def Stm.callsPlaced : Stm → Bool
  | .move (.temp _) src => src.callsAtRoot
  | .exp e => e.callsAtRoot
  | stm => stm.callFree

mutual
/-- An expression and the expressions inside it. -/
def Exp.parts : Exp → List Exp
  | .const value => [.const value]
  | .name label => [.name label]
  | .temp t => [.temp t]
  | .binop op left right => .binop op left right :: (left.parts ++ right.parts)
  | .mem address => .mem address :: address.parts
  | .call func link args =>
    .call func link args :: (func.parts ++ (Exp.linkParts link ++ Exp.listParts args))
  | .eseq stm exp => .eseq stm exp :: (stm.parts ++ exp.parts)
/-- The expressions inside a call's link. -/
def Exp.linkParts : Option Exp → List Exp
  | none => []
  | some link => link.parts
/-- The expressions inside some expressions. -/
def Exp.listParts : List Exp → List Exp
  | [] => []
  | exp :: exps => exp.parts ++ Exp.listParts exps
/-- The expressions inside a statement. -/
def Stm.parts : Stm → List Exp
  | .move dst src => dst.parts ++ src.parts
  | .exp exp => exp.parts
  | .jump target _ => target.parts
  | .cjump _ left right _ _ => left.parts ++ right.parts
  | .seq first second => first.parts ++ second.parts
  | .label _ => []
end

/-- Whether there are no calls and no statements inside an expression. -/
def Exp.isFlat : Exp → Bool
  | .const _ => true
  | .name _ => true
  | .temp _ => true
  | .binop _ left right => left.isFlat && right.isFlat
  | .mem address => address.isFlat
  | .call _ _ _ => false
  | .eseq _ _ => false

/-- Whether an expression is a label. -/
def Exp.isName : Exp → Bool
  | .name _ => true
  | _ => false

/-- Whether an expression is a call of flat operands, or flat itself. -/
def Exp.isFlatCall : Exp → Bool
  | .call func link args => func.isFlat && (link.all Exp.isFlat && args.all Exp.isFlat)
  | e => e.isFlat

/-- Whether a statement is one that canonical form leaves: all of its expressions are flat, except
that the whole source of a move to a temporary and the whole of an expression statement may be a
call. -/
def Stm.isCanonical : Stm → Bool
  | .move (.temp _) src => src.isFlatCall
  | .move (.mem address) src => address.isFlat && src.isFlat
  | .move _ _ => false
  | .exp e => e.isFlatCall
  | .jump target _ => target.isName
  | .cjump _ left right _ _ => left.isFlat && right.isFlat
  | .seq _ _ => false
  | .label _ => true

/-- Whether a statement is a move to a temporary or to memory, an expression, a jump to a known
label or a conditional jump, without calls and without statements inside its expressions. -/
def Stm.isFlat : Stm → Bool
  | .move (.temp _) src => src.isFlat
  | .move (.mem address) src => address.isFlat && src.isFlat
  | .move _ _ => false
  | .exp e => e.isFlat
  | .jump target _ => target.isName
  | .cjump _ left right _ _ => left.isFlat && right.isFlat
  | .seq _ _ => false
  | .label _ => false

section Parts

variable {e x : Exp}

theorem mem_parts_self (e : Exp) : e ∈ e.parts := by
  cases e <;> simp [Exp.parts]

/-- What passes from an expression to its operands holds of all parts of a flat one. -/
theorem forall_parts {P : Exp → Prop} (binop : ∀ op l r, P (.binop op l r) → P l ∧ P r)
    (mem : ∀ address, P (.mem address) → P address) (flat : e.isFlat = true) (whole : P e)
    (part : x ∈ e.parts) : P x := by
  fun_induction Exp.isFlat e with
  | case1 | case2 | case3 =>
    rw [Exp.parts, List.mem_singleton] at part
    exact part ▸ whole
  | case4 op left right ihLeft ihRight =>
    simp only [Bool.and_eq_true] at flat
    simp only [Exp.parts, List.mem_cons, List.mem_append] at part
    rcases part with rfl | inLeft | inRight
    · exact whole
    · exact ihLeft flat.1 (binop op left right whole).1 inLeft
    · exact ihRight flat.2 (binop op left right whole).2 inRight
  | case5 address ih =>
    simp only [Exp.parts, List.mem_cons] at part
    rcases part with rfl | inside
    · exact whole
    · exact ih flat (mem address whole) inside
  | case6 | case7 => cases flat

theorem isFlat_part (flat : e.isFlat = true) (part : x ∈ e.parts) : x.isFlat = true :=
  forall_parts (P := fun x => x.isFlat = true)
    (fun _ _ _ flats => by simpa [Exp.isFlat] using flats) (fun _ flat => flat) flat flat part

theorem temps_part (flat : e.isFlat = true) (part : x ∈ e.parts) : x.temps ⊆ e.temps :=
  forall_parts (P := fun x => x.temps ⊆ e.temps) (fun _ _ _ inside => List.append_subset.mp inside)
    (fun _ inside => inside) flat (List.Subset.refl _) part

end Parts

/-- Whether an expression is a place that a value can be moved to. -/
def Exp.isPlace : Exp → Bool
  | .temp _ => true
  | .mem _ => true
  | .eseq _ dst => dst.isPlace
  | _ => false

namespace Stm

/-- Whether a statement, if it is a move, goes to a place. -/
def movesToPlace : Stm → Bool
  | .move dst _ => dst.isPlace
  | _ => true

/-- Whether a statement takes part in the flow of control. -/
def isControl : Stm → Bool
  | .jump _ _ => true
  | .cjump _ _ _ _ _ => true
  | .label _ => true
  | _ => false

/-- Whether all moves inside a statement go to places. -/
def placed (stm : Stm) : Bool := stm.allStms movesToPlace

/-- Whether a statement is no move elsewhere than to a place and takes no part in the flow of
control. -/
def isStraight (stm : Stm) : Bool := stm.movesToPlace && !stm.isControl

/-- Whether all moves inside a statement go to places, and no statement inside it takes part in
the flow of control. -/
def straight (stm : Stm) : Bool := stm.allStms isStraight

end Stm

end TreeCode.Tree
