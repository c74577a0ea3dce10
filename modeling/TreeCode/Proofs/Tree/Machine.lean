import Mathlib.Logic.Relation
import TreeCode.Proofs.Canonical.Operands

/-!
A machine that runs lists of statements with a program counter. Jumps go to the statement that
carries the label, and the run ends behind the last statement.

What a piece of code does is said relative to any code around it: it is entered at its start or at
one of its labels, and left at its end or through a jump to a label. Such runs compose.
-/

namespace TreeCode.Tree

variable {V W : Type}

/-- The label that a statement carries. -/
def Stm.label? : Stm → Option Label
  | .label name => some name
  | _ => none

/-- The labels that statements of a list carry, in order. -/
def marks (code : List Stm) : List Label := code.filterMap Stm.label?

/-- The place of the statement that carries a label. -/
def place? (code : List Stm) (name : Label) : Option Nat :=
  code.findIdx? fun stm => stm.label? == some name

namespace Model

variable [DecidableEq V] (M : Model V W)

/-- One step of the machine: the next place and state. There is none behind the last statement,
nor for a jump to a label that is not there. -/
def step (code : List Stm) (pc : Nat) (σ : State V W) : Option (Nat × State V W) :=
  match code[pc]? with
  | none => none
  | some (.label _) => some (pc + 1, σ)
  | some (.jump target labels) => do
    let v := M.eval target σ
    let name ← labels.find? fun name => M.name name = v.1
    let next ← place? code name
    return (next, v.2)
  | some (.cjump op left right yes no) => do
    let a := M.eval left σ
    let b := M.eval right a.2
    let next ← place? code (if M.holds op a.1 b.1 then yes else no)
    return (next, b.2)
  | some stm => some (pc + 1, M.exec stm σ)

/-- The machine comes from one place and state to another one. -/
def Reaches (code : List Stm) : Nat × State V W → Nat × State V W → Prop :=
  Relation.ReflTransGen fun before after => M.step code before.1 before.2 = some after

end Model

section Places

variable {code pre post : List Stm} {name : Label} {i j : Nat}

theorem marks_append (first second : List Stm) :
    marks (first ++ second) = marks first ++ marks second :=
  List.filterMap_append

theorem mem_marks : name ∈ marks code ↔ ∃ i : Nat, code[i]? = some (.label name) := by
  unfold marks
  rw [List.mem_filterMap]
  constructor
  · rintro ⟨stm, member, labelled⟩
    cases stm <;> cases labelled
    exact List.mem_iff_getElem?.mp member
  · rintro ⟨i, found⟩
    exact ⟨_, List.mem_of_getElem? found, rfl⟩

/-- A label that is carried once is found where it is. -/
theorem place_of_nodup (distinct : (marks code).Nodup) (found : code[i]? = some (.label name)) :
    place? code name = some i := by
  induction code generalizing i with
  | nil => cases found
  | cons stm code carried =>
    unfold place? at carried ⊢
    rw [List.findIdx?_cons]
    cases i with
    | zero =>
      cases found
      simp [Stm.label?]
    | succ i =>
      have later : code[i]? = some (.label name) := found
      have inRest : name ∈ marks code := mem_marks.mpr ⟨i, later⟩
      have other : (stm.label? == some name) = false := by
        cases labelled : stm.label? with
        | none => rfl
        | some first =>
          rw [marks, List.filterMap_cons_some labelled, List.nodup_cons] at distinct
          refine beq_false_of_ne fun same => distinct.1 ?_
          cases same
          exact inRest
      have rest : (marks code).Nodup :=
        distinct.sublist ((List.sublist_cons_self stm code).filterMap _)
      rw [other, carried rest later]
      rfl

/-- A label that is there once has one place. -/
theorem place_unique (distinct : (marks code).Nodup) (first : code[i]? = some (.label name))
    (second : code[j]? = some (.label name)) : i = j :=
  Option.some.inj ((place_of_nodup distinct first).symm.trans (place_of_nodup distinct second))

end Places

section Steps

variable [DecidableEq V] {M : Model V W} {code : List Stm} {pc next : Nat}

theorem step_plain {stm : Stm} (plain : stm.isPlain = true) (found : code[pc]? = some stm)
    (σ : State V W) : M.step code pc σ = some (pc + 1, M.exec stm σ) := by
  unfold Model.step
  rw [found]
  cases stm <;> first | rfl | cases plain

theorem step_label {name : Label} (found : code[pc]? = some (.label name)) (σ : State V W) :
    M.step code pc σ = some (pc + 1, σ) := by
  unfold Model.step
  rw [found]

theorem step_goto {name : Label} (found : code[pc]? = some (.goto name))
    (there : place? code name = some next) (σ : State V W) :
    M.step code pc σ = some (next, σ) := by
  unfold Model.step
  rw [found]
  simp [Stm.goto, Model.eval, there]

/-- The next step after a comparison, which may change the state. -/
theorem step_cjump {op : RelOp} {left right : Exp} {yes no : Label} {choice : Bool}
    {σ : State V W} (found : code[pc]? = some (.cjump op left right yes no))
    (chosen : M.holds op (M.eval left σ).1 (M.eval right (M.eval left σ).2).1 = choice)
    (there : place? code (if choice then yes else no) = some next) :
    M.step code pc σ = some (next, (M.eval right (M.eval left σ).2).2) := by
  subst chosen
  unfold Model.step
  rw [found]
  simp [there]

end Steps

/-- `pc` is the place of a label, or without one the edge of a piece of code. -/
def IsAt (code : List Stm) (edge : Nat) (point : Option Label) (pc : Nat) : Prop :=
  match point with
  | none => pc = edge
  | some name => code[pc]? = some (.label name)

/-- In any code around it that carries no label twice, the machine goes through `piece` from one
point to another one. The point `none` is its start or its end. -/
def Model.Passes [DecidableEq V] (M : Model V W) (piece : List Stm) (entry exit : Option Label)
    (σ τ : State V W) : Prop :=
  ∀ pre post, (marks (pre ++ piece ++ post)).Nodup →
    ∀ i j, IsAt (pre ++ piece ++ post) pre.length entry i →
      IsAt (pre ++ piece ++ post) (pre ++ piece).length exit j →
      M.Reaches (pre ++ piece ++ post) (i, σ) (j, τ)

section Passes

variable [DecidableEq V] {M : Model V W} {first second piece : List Stm}
  {entry exit : Option Label} {σ τ υ : State V W} {name : Label}

theorem passes_nil : M.Passes [] none none σ τ ↔ σ = τ := by
  constructor
  · intro passed
    have ran := passed [] [] .nil 0 0 rfl rfl
    rcases Relation.ReflTransGen.cases_head ran with same | ⟨_, impossible, _⟩
    · exact congrArg Prod.snd same
    · cases impossible
  · rintro rfl pre post _ i j started ended
    have same : i = j := by
      have first : i = pre.length := started
      have last : j = (pre ++ ([] : List Stm)).length := ended
      rw [first, last, List.append_nil]
    subst same
    exact .refl

/-- One piece after another one. -/
theorem passes_append (begun : M.Passes first entry none σ τ)
    (ended : M.Passes second none exit τ υ) : M.Passes (first ++ second) entry exit σ υ := by
  intro pre post distinct i j start finish
  have split : pre ++ (first ++ second) ++ post = pre ++ first ++ (second ++ post) := by
    simp only [List.append_assoc]
  have split' : pre ++ (first ++ second) ++ post = pre ++ first ++ second ++ post := by
    simp only [List.append_assoc]
  have through := begun pre (second ++ post)
  have onward := ended (pre ++ first) post
  rw [← split] at through
  rw [← split'] at onward
  refine (through distinct i _ start rfl).trans (onward distinct _ j rfl ?_)
  rw [List.append_assoc pre first second]
  exact finish

/-- A jump out of the first piece. -/
theorem passes_append_left (begun : M.Passes first entry (some name) σ τ) :
    M.Passes (first ++ second) entry (some name) σ τ := by
  intro pre post distinct i j start finish
  have split : pre ++ (first ++ second) ++ post = pre ++ first ++ (second ++ post) := by
    simp only [List.append_assoc]
  rw [split] at distinct start finish ⊢
  exact begun pre (second ++ post) distinct i j start finish

/-- An entry at a label, with more code in front of the piece. -/
theorem passes_append_right (ended : M.Passes second (some name) exit σ τ) :
    M.Passes (first ++ second) (some name) exit σ τ := by
  intro pre post distinct i j start finish
  have split : pre ++ (first ++ second) ++ post = pre ++ first ++ second ++ post := by
    simp only [List.append_assoc]
  rw [split] at distinct start ⊢
  rw [← List.append_assoc pre first second] at finish
  exact ended (pre ++ first) post distinct i j start finish

/-- A jump to a label inside the piece, and on from there. -/
theorem passes_through (inside : name ∈ marks piece) (begun : M.Passes piece entry (some name) σ τ)
    (ended : M.Passes piece (some name) exit τ υ) : M.Passes piece entry exit σ υ := by
  intro pre post distinct i j start finish
  have there : name ∈ marks (pre ++ piece ++ post) := by
    rw [marks_append, marks_append]
    exact List.mem_append_left _ (List.mem_append_right _ inside)
  obtain ⟨k, found⟩ := mem_marks.mp there
  exact (begun pre post distinct i k start found).trans (ended pre post distinct k j found finish)

theorem getElem?_piece (pre post : List Stm) (stm : Stm) :
    (pre ++ [stm] ++ post)[pre.length]? = some stm := by
  simp

/-- A single statement that the machine steps over. -/
theorem passes_step {stm : Stm}
    (steps : ∀ code pc, code[pc]? = some stm → M.step code pc σ = some (pc + 1, τ)) :
    M.Passes [stm] none none σ τ := by
  intro pre post _ i j start finish
  have next : j = i + 1 := by
    rw [show j = (pre ++ [stm]).length from finish, show i = pre.length from start]
    simp
  rw [next, show i = pre.length from start]
  exact .single (steps _ _ (getElem?_piece pre post stm))

theorem passes_plain {stm : Stm} (plain : stm.isPlain = true) :
    M.Passes [stm] none none σ (M.exec stm σ) :=
  passes_step fun _ _ found => step_plain plain found σ

theorem passes_label (name : Label) : M.Passes [.label name] none none σ σ :=
  passes_step fun _ _ found => step_label found σ

/-- The label at the start of a piece is where the piece starts. -/
theorem passes_from_label (passed : M.Passes (.label name :: piece) none exit σ τ) :
    M.Passes (.label name :: piece) (some name) exit σ τ := by
  intro pre post distinct i j start finish
  refine passed pre post distinct i j ?_ finish
  refine place_unique distinct start ?_
  have split : pre ++ (.label name :: piece) ++ post = pre ++ [.label name] ++ (piece ++ post) := by
    simp
  rw [split]
  exact getElem?_piece pre _ _

/-- A single statement that jumps to a label. -/
theorem passes_jump {stm : Stm}
    (steps : ∀ code pc next, code[pc]? = some stm → place? code name = some next →
      M.step code pc σ = some (next, τ)) : M.Passes [stm] none (some name) σ τ := by
  intro pre post distinct i j start finish
  rw [show i = pre.length from start]
  exact .single (steps _ _ _ (getElem?_piece pre post stm) (place_of_nodup distinct finish))

theorem passes_goto (name : Label) : M.Passes [.goto name] none (some name) σ σ :=
  passes_jump fun _ _ _ found there => step_goto found there σ

/-- A conditional jump leaves the code for the label that the comparison chooses. -/
theorem passes_cjump {op : RelOp} {left right : Exp} {yes no : Label} {a b : V} {world : W}
    (evaluated : M.evalAll [left, right] σ = ([a, b], σ.withWorld world)) :
    M.Passes [.cjump op left right yes no] none (some (if M.holds op a b then yes else no)) σ
      (σ.withWorld world) := by
  simp only [Model.evalAll, Prod.mk.injEq, List.cons.injEq, and_true] at evaluated
  obtain ⟨⟨leftValue, rightValue⟩, final⟩ := evaluated
  refine passes_jump fun code pc next found there => ?_
  rw [← leftValue, ← rightValue] at there
  rw [step_cjump found rfl there, final]

end Passes

/-- Running statements on the machine. -/
def Running.onMachine [DecidableEq V] (M : Model V W) : Running M where
  runs stms σ τ := M.Passes stms none none σ τ
  runs_nil := passes_nil
  runs_append := passes_append
  runs_plain _ plain := passes_plain plain

end TreeCode.Tree
