import TreeCode.Proofs.Outcome
import TreeCode.Source.Escape

/-!
The walk that looks for escaping variables only ever adds to what it has found.
-/

namespace TreeCode.Source

variable {α β : Type}

/-- A walk keeps what was found before it. -/
def Collects (act : Walk α) : Prop := ∀ found, after act found fun _ found' => found ⊆ found'

theorem collects_pure (a : α) : Collects (pure a : Walk α) := by
  intro found b found' ran
  obtain ⟨-, rfl⟩ := pure_ok.mp ran
  exact fun _ member => member

theorem collects_bind {act : Walk α} {next : α → Walk β} (first : Collects act)
    (rest : ∀ a, Collects (next a)) : Collects (act >>= next) := by
  intro found b found' ran
  obtain ⟨a, middle, began, ended⟩ := bind_ok.mp ran
  exact fun _ member => rest a middle b found' ended (first found a middle began member)

/-- What was found before is among what is found in the end. -/
theorem Collects.within {act : Walk α} {found found' marks : List Nat} {a : α}
    (collects : Collects act) (ran : act found = .ok a found') (marked : found' ⊆ marks) :
    found ⊆ marks :=
  fun _ member => marked (collects found a found' ran member)

/-- A use succeeds when the variable is in scope, and finds it if it belongs to a function further
out. -/
theorem use_ok {scope : Scope} {depth : Nat} {name : String} {pos : Pos} {found found' : List Nat}
    (ran : scope.use depth name pos found = .ok () found') :
    ∃ binding, scope.find? (fun binding => binding.name == name) = some binding ∧
      found ⊆ found' ∧ (binding.depth < depth → binding.number ∈ found') := by
  unfold Scope.use at ran
  cases present : scope.find? fun binding => binding.name == name with
  | none =>
    rw [present] at ran
    exact absurd ran (by simp [throw_ok])
  | some binding =>
    rw [present] at ran
    refine ⟨binding, rfl, ?_⟩
    by_cases outer : binding.depth < depth
    · simp only [outer, if_true] at ran
      cases ran
      exact ⟨fun _ member => List.mem_cons_of_mem _ member, fun _ => List.mem_cons_self⟩
    · simp only [outer, if_false] at ran
      obtain ⟨-, rfl⟩ := pure_ok.mp ran
      exact ⟨fun _ member => member, fun inner => absurd inner outer⟩

/-- Resolving a use forgets nothing that was found. -/
theorem collects_use (scope : Scope) (depth : Nat) (name : String) (pos : Pos) :
    Collects (scope.use depth name pos) := by
  intro found _ found' ran
  obtain ⟨_, _, kept, _⟩ := use_ok ran
  exact kept

mutual
theorem Var.walk_collects (scope : Scope) (depth : Nat) :
    ∀ (n : Nat) (var : Var), Collects (var.walk scope depth n)
  | _, .simple name pos => by
    unfold Var.walk
    exact collects_use scope depth name pos
  | n, .field record _ _ _ => by
    unfold Var.walk
    exact Var.walk_collects scope depth n record
  | n, .subscript array index => by
    unfold Var.walk
    exact collects_bind (Var.walk_collects scope depth n array) fun _ =>
      Exp.walk_collects scope depth _ index
/-- The walk never forgets what it has found. -/
theorem Exp.walk_collects (scope : Scope) (depth : Nat) :
    ∀ (n : Nat) (exp : Exp), Collects (exp.walk scope depth n)
  | _, .nil => by
    unfold Exp.walk
    exact collects_pure ()
  | _, .int _ => by
    unfold Exp.walk
    exact collects_pure ()
  | _, .string _ => by
    unfold Exp.walk
    exact collects_pure ()
  | n, .var var => by
    unfold Exp.walk
    exact Var.walk_collects scope depth n var
  | n, .call _ args _ => by
    unfold Exp.walk
    exact Exp.walkList_collects scope depth n args
  | n, .op _ left right _ => by
    unfold Exp.walk
    exact collects_bind (Exp.walk_collects scope depth n left) fun _ =>
      Exp.walk_collects scope depth _ right
  | n, .record _ fields => by
    unfold Exp.walk
    exact Field.walkList_collects scope depth n fields
  | n, .seq exps => by
    unfold Exp.walk
    exact Exp.walkList_collects scope depth n exps
  | n, .assign var value => by
    unfold Exp.walk
    exact collects_bind (Var.walk_collects scope depth n var) fun _ =>
      Exp.walk_collects scope depth _ value
  | n, .ifThen test yes => by
    unfold Exp.walk
    exact collects_bind (Exp.walk_collects scope depth n test) fun _ =>
      Exp.walk_collects scope depth _ yes
  | n, .ifElse test yes no => by
    unfold Exp.walk
    exact collects_bind (Exp.walk_collects scope depth n test) fun _ =>
      collects_bind (Exp.walk_collects scope depth _ yes) fun _ =>
      Exp.walk_collects scope depth _ no
  | n, .whileDo test body => by
    unfold Exp.walk
    exact collects_bind (Exp.walk_collects scope depth n test) fun _ =>
      Exp.walk_collects scope depth _ body
  | n, .forTo var lo hi body => by
    unfold Exp.walk
    exact collects_bind (Exp.walk_collects scope depth n lo) fun _ =>
      collects_bind (Exp.walk_collects scope depth _ hi) fun _ =>
      Exp.walk_collects _ depth _ body
  | _, .breakLoop _ => by
    unfold Exp.walk
    exact collects_pure ()
  | n, .letIn decs body => by
    unfold Exp.walk
    exact collects_bind (Dec.walkList_collects scope depth n decs) fun inner =>
      Exp.walk_collects inner depth _ body
  | n, .array _ size init => by
    unfold Exp.walk
    exact collects_bind (Exp.walk_collects scope depth n size) fun _ =>
      Exp.walk_collects scope depth _ init
theorem Exp.walkList_collects (scope : Scope) (depth : Nat) :
    ∀ (n : Nat) (exps : List Exp), Collects (Exp.walkList scope depth n exps)
  | _, [] => by
    unfold Exp.walkList
    exact collects_pure ()
  | n, exp :: exps => by
    unfold Exp.walkList
    exact collects_bind (Exp.walk_collects scope depth n exp) fun _ =>
      Exp.walkList_collects scope depth _ exps
theorem Field.walkList_collects (scope : Scope) (depth : Nat) :
    ∀ (n : Nat) (fields : List Field), Collects (Field.walkList scope depth n fields)
  | _, [] => by
    unfold Field.walkList
    exact collects_pure ()
  | n, ⟨_, value⟩ :: fields => by
    unfold Field.walkList
    exact collects_bind (Exp.walk_collects scope depth n value) fun _ =>
      Field.walkList_collects scope depth _ fields
theorem Dec.walk_collects (scope : Scope) (depth : Nat) :
    ∀ (n : Nat) (dec : Dec), Collects (dec.walk scope depth n)
  | n, .functions group => by
    unfold Dec.walk
    exact collects_bind (FunDec.walkList_collects scope depth n group) fun _ => collects_pure scope
  | n, .var _ init => by
    unfold Dec.walk
    exact collects_bind (Exp.walk_collects scope depth n init) fun _ => collects_pure _
  | _, .type _ _ => by
    unfold Dec.walk
    exact collects_pure scope
theorem Dec.walkList_collects (scope : Scope) (depth : Nat) :
    ∀ (n : Nat) (decs : List Dec), Collects (Dec.walkList scope depth n decs)
  | _, [] => by
    unfold Dec.walkList
    exact collects_pure scope
  | n, dec :: decs => by
    unfold Dec.walkList
    exact collects_bind (Dec.walk_collects scope depth n dec) fun inner =>
      Dec.walkList_collects inner depth _ decs
theorem FunDec.walkList_collects (scope : Scope) (depth : Nat) :
    ∀ (n : Nat) (group : List FunDec), Collects (FunDec.walkList scope depth n group)
  | _, [] => by
    unfold FunDec.walkList
    exact collects_pure ()
  | n, ⟨_, params, _, body⟩ :: group => by
    unfold FunDec.walkList
    exact collects_bind (Exp.walk_collects _ (depth + 1) _ body) fun _ =>
      FunDec.walkList_collects scope depth _ group
end

end TreeCode.Source
