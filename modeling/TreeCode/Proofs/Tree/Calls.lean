import TreeCode.Proofs.Tree.Occurrences

/-!
The calls in a tree: for each, the address that it goes to and the static link that it passes.
-/

namespace TreeCode.Tree

/-- Where a call goes, and the static link that it passes if it passes one. -/
structure Call where
  func : Exp
  link : Option Exp

mutual
/-- The calls in an expression. -/
def Exp.calls : Exp → List Call
  | .const _ => []
  | .name _ => []
  | .temp _ => []
  | .binop _ left right => left.calls ++ right.calls
  | .mem address => address.calls
  | .call func link args =>
    ⟨func, link⟩ :: (func.calls ++ (Exp.linkCalls link ++ Exp.listCalls args))
  | .eseq stm exp => stm.calls ++ exp.calls
/-- The calls in the link of a call. -/
def Exp.linkCalls : Option Exp → List Call
  | none => []
  | some link => link.calls
/-- The calls in expressions that follow each other. -/
def Exp.listCalls : List Exp → List Call
  | [] => []
  | exp :: exps => exp.calls ++ Exp.listCalls exps
/-- The calls in a statement. -/
def Stm.calls : Stm → List Call
  | .move dst src => dst.calls ++ src.calls
  | .exp exp => exp.calls
  | .jump target _ => target.calls
  | .cjump _ left right _ _ => left.calls ++ right.calls
  | .seq first second => first.calls ++ second.calls
  | .label _ => []
end

/-- The calls in statements that follow each other. -/
def Stm.listCalls (stms : List Stm) : List Call := stms.flatMap Stm.calls

@[simp] theorem Stm.calls_goto (label : Label) : (Stm.goto label).calls = [] := rfl

@[simp] theorem Stm.listCalls_nil : Stm.listCalls [] = [] := rfl

@[simp] theorem Stm.listCalls_cons (stm : Stm) (stms : List Stm) :
    Stm.listCalls (stm :: stms) = stm.calls ++ Stm.listCalls stms := rfl

@[simp] theorem Stm.listCalls_append (first second : List Stm) :
    Stm.listCalls (first ++ second) = Stm.listCalls first ++ Stm.listCalls second :=
  List.flatMap_append

@[simp] theorem Stm.calls_sequence (stms : List Stm) :
    (Stm.sequence stms).calls = Stm.listCalls stms :=
  collect_sequence Stm.calls rfl (fun _ _ => rfl) stms

@[simp] theorem Exp.calls_plainCall (func : Label) (args : List Exp) :
    (Exp.plainCall func args).calls = ⟨.name func, none⟩ :: Exp.listCalls args := by
  simp [Exp.plainCall, Exp.calls, Exp.linkCalls]

@[simp] theorem Exp.calls_linkedCall (func : Label) (link : Exp) (args : List Exp) :
    (Exp.linkedCall func link args).calls =
      ⟨.name func, some link⟩ :: (link.calls ++ Exp.listCalls args) := by
  simp [Exp.linkedCall, Exp.calls, Exp.linkCalls]

end TreeCode.Tree
