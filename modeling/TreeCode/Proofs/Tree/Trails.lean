import TreeCode.Proofs.Canonical.Rules
import TreeCode.Proofs.Tree.Machine

/-!
Runs of the machine with all that they pass on the way, so that it can be counted how often a place
is passed, and in which states. A piece of code is run within its bounds if the machine stays
inside until it comes to the end of the piece, or jumps out of it.
-/

namespace TreeCode.Tree

variable {V W : Type}

/-- The states in which a place is passed. -/
def statesAt (place : Nat) (visited : List (Nat × State V W)) : List (State V W) :=
  (visited.filter fun c => c.1 == place).map Prod.snd

theorem statesAt_append (place : Nat) (visited later : List (Nat × State V W)) :
    statesAt place (visited ++ later) = statesAt place visited ++ statesAt place later := by
  simp [statesAt]

theorem statesAt_eq_nil {place : Nat} {visited : List (Nat × State V W)}
    (away : ∀ c ∈ visited, c.1 ≠ place) : statesAt place visited = [] := by
  simpa [statesAt] using away

theorem statesAt_single (place : Nat) (σ : State V W) : statesAt place [(place, σ)] = [σ] := by
  simp [statesAt]

variable [DecidableEq V] (M : Model V W)

/-- The machine comes from one place and state to another one. The places and states on the way are
`visited`, with the first one and without the last one. -/
inductive Model.Travels (code : List Stm) :
    Nat × State V W → List (Nat × State V W) → Nat × State V W → Prop
  | here (c : Nat × State V W) : Travels code c [] c
  | step {c c' d : Nat × State V W} {visited : List (Nat × State V W)}
    (next : M.step code c.1 c.2 = some c') (rest : Travels code c' visited d) :
    Travels code c (c :: visited) d

/-- In any code around it that carries no label twice, the machine goes from the start of `piece`
to its end, or to the label `exit`, and runs nothing but `piece` meanwhile. -/
def Model.Stays (piece : List Stm) (exit : Option Label) (σ τ : State V W) : Prop :=
  ∀ pre post, (marks (pre ++ piece ++ post)).Nodup →
    ∀ j, IsAt (pre ++ piece ++ post) (pre ++ piece).length exit j →
      ∃ visited, M.Travels (pre ++ piece ++ post) (pre.length, σ) visited (j, τ) ∧
        ∀ c ∈ visited, pre.length ≤ c.1 ∧ c.1 < (pre ++ piece).length

/-- Taken apart, the statement jumps to `name`, and leads from the state `σ` to `σ'`. -/
def Model.Leaves (n : Nat) (stm : Stm) (name : Label) (σ σ' : State V W) : Prop :=
  ∀ supply : Supply, n ≤ supply.temps → ∀ τ, σ.Agree n τ →
    ∃ υ, M.Stays (stm.extract supply).1.toList (some name) τ υ ∧ σ'.Agree n υ

variable {M} {code first second : List Stm} {exit : Option Label} {σ τ υ : State V W}

/-- Two parts of a run, with all that is visited on the way. -/
theorem Model.Travels.append {c d e : Nat × State V W} {visited later : List (Nat × State V W)}
    (begun : M.Travels code c visited d) (ended : M.Travels code d later e) :
    M.Travels code c (visited ++ later) e := by
  induction begun with
  | here c => exact ended
  | step next rest ih => exact .step next (ih ended)

theorem Model.Travels.single {c d : Nat × State V W} (next : M.step code c.1 c.2 = some d) :
    M.Travels code c [c] d :=
  .step next (.here d)

theorem stays_nil : M.Stays [] none σ τ ↔ σ = τ := by
  constructor
  · intro stays
    obtain ⟨visited, travels, inside⟩ := stays [] [] .nil 0 rfl
    cases travels with
    | here => rfl
    | step next rest =>
      have impossible := (inside _ List.mem_cons_self).2
      exact absurd impossible (Nat.not_lt_zero _)
  · rintro rfl pre post _ j finish
    have here : j = pre.length := finish.trans (by rw [List.append_nil])
    subst here
    exact ⟨[], .here _, List.forall_mem_nil _⟩

/-- One piece after another one. -/
theorem stays_append (begun : M.Stays first none σ τ) (ended : M.Stays second exit τ υ) :
    M.Stays (first ++ second) exit σ υ := by
  intro pre post distinct j finish
  have split : pre ++ (first ++ second) ++ post = pre ++ first ++ (second ++ post) := by
    simp only [List.append_assoc]
  have split' : pre ++ (first ++ second) ++ post = pre ++ first ++ second ++ post := by
    simp only [List.append_assoc]
  have through := begun pre (second ++ post)
  have onward := ended (pre ++ first) post
  rw [← split] at through
  rw [← split', List.append_assoc pre first second] at onward
  obtain ⟨visited, travels, inside⟩ := through distinct _ rfl
  obtain ⟨later, travelsLater, insideLater⟩ := onward distinct j finish
  refine ⟨visited ++ later, travels.append travelsLater, ?_⟩
  intro c member
  simp only [List.length_append] at inside insideLater ⊢
  rcases List.mem_append.mp member with early | late
  · have bounds := inside c early
    omega
  · have bounds := insideLater c late
    omega

/-- A single statement that the machine steps over or jumps from. -/
theorem stays_single {stm : Stm}
    (steps : ∀ code pc next, (marks code).Nodup → code[pc]? = some stm →
      IsAt code (pc + 1) exit next → M.step code pc σ = some (next, τ)) :
    M.Stays [stm] exit σ τ := by
  intro pre post distinct j finish
  have next : M.step (pre ++ [stm] ++ post) pre.length σ = some (j, τ) := by
    refine steps _ _ _ distinct (getElem?_piece pre post stm) ?_
    rwa [List.length_append] at finish
  refine ⟨_, .single next, List.forall_mem_singleton.mpr ?_⟩
  simp

theorem stays_plain {stm : Stm} (plain : stm.isPlain = true) (σ : State V W) :
    M.Stays [stm] none σ (M.exec stm σ) := by
  refine stays_single fun code pc next _ found here => ?_
  have advanced : next = pc + 1 := here
  subst advanced
  exact step_plain plain found σ

/-- Running statements on the machine, within their bounds. -/
def Running.within (M : Model V W) : Running M where
  runs stms σ τ := M.Stays stms none σ τ
  runs_nil := stays_nil
  runs_append := stays_append
  runs_plain σ plain := stays_plain plain σ

/-- A jump leaves at once, with nothing changed. -/
theorem leaves_goto (n : Nat) (name : Label) (σ : State V W) :
    M.Leaves n (.goto name) name σ σ := by
  intro supply _ τ agree
  have stays : M.Stays [.goto name] (some name) τ τ :=
    stays_single fun _ _ _ distinct found there =>
      step_goto found (place_of_nodup distinct there) τ
  exact ⟨τ, stays, agree⟩

end TreeCode.Tree
