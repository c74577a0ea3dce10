import TreeCode.Proofs.Code.Steps

/-!
The buffer of selection is only added to. What a selection emits and what it comes to depend on its
statements and on the counters of the supply, but not on the instructions that are waiting, and
waiting instructions are left alone on every path. So no instruction is lost when a selection fails
and none is delivered twice: what a series of requests delivers, and what is waiting at its end, is
what the requests have emitted, in order.
-/

namespace TreeCode

open Tree

section Results

variable {ε σ α β : Type}

/-- What a computation comes to, apart from its state. -/
def verdict : EStateM.Result ε σ α → Except ε α
  | .ok a _ => .ok a
  | .error error _ => .error error

/-- A result with another state. -/
def onState (f : σ → σ) : EStateM.Result ε σ α → EStateM.Result ε σ α
  | .ok a s => .ok a (f s)
  | .error error s => .error error (f s)

@[simp] theorem left_onState (f : σ → σ) (result : EStateM.Result ε σ α) :
    left (onState f result) = f (left result) := by
  cases result <;> rfl

@[simp] theorem verdict_onState (f : σ → σ) (result : EStateM.Result ε σ α) :
    verdict (onState f result) = verdict result := by
  cases result <;> rfl

end Results

/-- The supply whose counters stand the same and in which nothing has a name. -/
def Supply.counters (supply : Supply) : Supply :=
  { temps := supply.temps, labels := supply.labels }

/-- The state with these names, and with these instructions in front of all that are emitted. -/
def Selection.behind (names : NameMap) (waiting : Array Instr) (s : Selection) : Selection :=
  { supply := { s.supply with names }, emitted := waiting ++ s.emitted }

theorem Selection.behind_counters (s : Selection) :
    Selection.behind s.supply.names s.emitted { supply := s.supply.counters } = s := by
  simp [behind, Supply.counters]

/-- A computation that takes no notice of names and of waiting instructions: it does the same
whatever they are, and leaves them as they are. -/
def Blind {α : Type} (act : Select α) : Prop :=
  ∀ names waiting s, act (s.behind names waiting) = onState (·.behind names waiting) (act s)

section Blind

variable {α β : Type} {act : Select α}

theorem blind_bind {next : α → Select β} (first : Blind act) (rest : ∀ a, Blind (next a)) :
    Blind (act >>= next) := by
  intro names waiting s
  rw [run_bind, run_bind, first names waiting s]
  cases act s with
  | ok a t => exact rest a names waiting t
  | error error t => rfl

theorem blind_emit (instr : Instr) : Blind (Selection.emit instr) := by
  intro names waiting s
  rw [run_emit, run_emit]
  simp [onState, Selection.behind]

/-- A computation that takes no notice does what it does when nothing is waiting or named. -/
theorem Blind.run (blind : Blind act) (s : Selection) :
    act s = onState (·.behind s.supply.names s.emitted) (act { supply := s.supply.counters }) := by
  rw [← blind, Selection.behind_counters]

/-- The outcome does not depend on what has been emitted before. -/
theorem Blind.verdict_eq (blind : Blind act) (s : Selection) :
    verdict (act s) = verdict (act { supply := s.supply.counters }) := by
  rw [blind.run s, verdict_onState]

/-- Instructions are added behind the ones before. -/
theorem Blind.emitted_eq (blind : Blind act) (s : Selection) :
    (left (act s)).emitted.toList =
      s.emitted.toList ++ (left (act { supply := s.supply.counters })).emitted.toList := by
  rw [blind.run s, left_onState]
  simp [Selection.behind]

/-- Instructions that wait in front of all others change nothing else. -/
theorem Blind.queued (blind : Blind act) (waiting : Array Instr) (s : Selection) :
    act { s with emitted := waiting ++ s.emitted } =
      onState (fun t => { t with emitted := waiting ++ t.emitted }) (act s) := by
  rw [blind.run { s with emitted := waiting ++ s.emitted }, blind.run s]
  cases act { supply := s.supply.counters } <;> simp [onState, Selection.behind]

end Blind

/-- What a selector can be asked for: the instructions for one statement, or for several. -/
inductive Request where
  | one (stm : Stm)
  | all (stms : List Stm)

/-- The statements of a request. -/
def Request.stms : Request → List Stm
  | one stm => [stm]
  | all stms => stms

/-- The instructions that an answer delivers. -/
def delivered : Except Error (List Instr) → List Instr
  | .ok code => code
  | .error _ => []

namespace Selector

variable {sel : Selector}

/-- What covering a statement comes to if nothing is waiting. Of the supply it has the counters
alone. -/
def alone (sel : Selector) (stm : Stm) (supply : Supply) : EStateM.Result Error Selection Unit :=
  sel.coverStm stm { supply := supply.counters }

/-- The instructions that a statement emits, which depend on it and on the counters. -/
def emission (sel : Selector) (stm : Stm) (supply : Supply) : List Instr :=
  (left (sel.alone stm supply)).emitted.toList

/-- The instructions that statements emit one after the other, up to the first one that fails, and
how the counters stand then. -/
def emissions (sel : Selector) : List Stm → Supply → List Instr × Supply
  | [], supply => ([], supply.counters)
  | stm :: stms, supply =>
    match sel.alone stm supply with
    | .ok _ s =>
      let (later, last) := sel.emissions stms s.supply
      (s.emitted.toList ++ later, last)
    | .error _ s => (s.emitted.toList, s.supply.counters)

/-- The instructions that requests emit one after the other. A request that fails does not keep the
next one from being answered. -/
def emissionsOf (sel : Selector) : List Request → Supply → List Instr
  | [], _ => []
  | request :: requests, supply =>
    let (now, next) := sel.emissions request.stms supply
    now ++ sel.emissionsOf requests next

/-- Answer a request. -/
def answer (sel : Selector) : Request → Select (List Instr)
  | .one stm => sel.select stm
  | .all stms => sel.selectAll stms

/-- Answer requests one after the other, going on after failures: the answers, and the state at the
end. -/
def answers (sel : Selector) :
    List Request → Selection → List (Except Error (List Instr)) × Selection
  | [], s => ([], s)
  | request :: requests, s =>
    let result := sel.answer request s
    let (others, last) := sel.answers requests (left result)
    (verdict result :: others, last)

section Laws

/-- No step of selection takes notice of names and of waiting instructions. -/
theorem steps_blind : sel.Steps (fun _ => True) Blind where
  pure _ _ _ _ := rfl
  bind := blind_bind
  fresh _ _ _ := rfl
  label _ := blind_emit _
  instr operands template := by
    intro names waiting s
    rw [run_made, run_made]
    cases sel.instrOf operands template with
    | ok instr => simp [onState, Selection.behind, Selection.adding]
    | error error => rfl
  uncovered _ _ _ _ := rfl
  misplaced _ _ _ _ := rfl
  crowded _ _ _ _ := rfl

/-- Selection does not look at what it has emitted. -/
theorem blind_coverStm (sel : Selector) (stm : Stm) : Blind (sel.coverStm stm) :=
  steps_blind.coverStm hereditary_true stm trivial

theorem blind_coverList (sel : Selector) (stms : List Stm) : Blind (sel.coverList stms) :=
  steps_blind.coverList hereditary_true stms fun _ _ => trivial

theorem blind_placeOperands (sel : Selector) (link : Option Exp) (args : List Exp) :
    Blind (sel.placeOperands link args) :=
  steps_blind.placeOperands hereditary_true link args (fun _ _ => trivial) fun _ _ => trivial

/-- Statements are covered one after the other. -/
theorem coverList_append (sel : Selector) (first second : List Stm) :
    sel.coverList (first ++ second) = sel.coverList first >>= fun _ => sel.coverList second := by
  induction first with
  | nil => rfl
  | cons stm first ih => rw [List.cons_append, coverList, ih, coverList, bind_assoc]

theorem selectAll_ok {stms : List Stm} {s s' : Selection} {code : List Instr} :
    sel.selectAll stms s = .ok code s' ↔
      ∃ t, sel.coverList stms s = .ok () t ∧ t.emitted.toList = code ∧
        { t with emitted := #[] } = s' := by
  constructor
  · intro ran
    obtain ⟨_, t, covered, taken⟩ := bind_ok.mp ran
    cases taken
    exact ⟨t, covered, rfl, rfl⟩
  · rintro ⟨t, covered, rfl, rfl⟩
    exact bind_ok.mpr ⟨(), t, covered, rfl⟩

/-- What has been covered already can be taken before the rest is covered. -/
theorem coverList_taken {stms : List Stm} {t u : Selection} :
    sel.coverList stms t = .ok () u ↔
      ∃ v, sel.coverList stms { t with emitted := #[] } = .ok () v ∧
        u = { v with emitted := t.emitted ++ v.emitted } := by
  have same := (sel.blind_coverList stms).queued t.emitted { t with emitted := #[] }
  simp only [Array.append_empty] at same
  rw [same]
  cases sel.coverList stms { t with emitted := #[] } with
  | ok _ v => simp [onState, eq_comm]
  | error error v => simp [onState]

/-- Selecting for two lists of statements at once gives what selecting for one and then for the
other gives. -/
theorem selectAll_append {first second : List Stm} {s s'' : Selection} {code : List Instr} :
    sel.selectAll (first ++ second) s = .ok code s'' ↔
      ∃ early s' late, sel.selectAll first s = .ok early s' ∧
        sel.selectAll second s' = .ok late s'' ∧ code = early ++ late := by
  simp only [selectAll_ok, coverList_append, bind_ok]
  constructor
  · rintro ⟨u, ⟨_, t, began, ended⟩, rfl, rfl⟩
    obtain ⟨v, covered, rfl⟩ := coverList_taken.mp ended
    exact ⟨_, _, _, ⟨t, began, rfl, rfl⟩, ⟨v, covered, rfl, rfl⟩, Array.toList_append⟩
  · rintro ⟨_, _, _, ⟨t, began, rfl, rfl⟩, ⟨v, covered, rfl, rfl⟩, rfl⟩
    exact ⟨_, ⟨(), t, began, coverList_taken.mpr ⟨v, covered, rfl⟩⟩, Array.toList_append, rfl⟩

/-- Only the counters matter. -/
theorem emissions_counters (stms : List Stm) (supply : Supply) :
    sel.emissions stms supply.counters = sel.emissions stms supply := by
  cases stms <;> rfl

/-- Covering statements adds what they emit one after the other. -/
theorem coverList_emits (sel : Selector) (stms : List Stm) (s : Selection) :
    (left (sel.coverList stms s)).emitted.toList =
        s.emitted.toList ++ (sel.emissions stms s.supply).1 ∧
      (left (sel.coverList stms s)).supply.counters = (sel.emissions stms s.supply).2 := by
  induction stms generalizing s with
  | nil => exact ⟨(List.append_nil _).symm, rfl⟩
  | cons stm stms ih =>
    have covered := (sel.blind_coverStm stm).run s
    rw [coverList, run_bind, covered, emissions, alone]
    cases sel.coverStm stm { supply := s.supply.counters } with
    | error error t => simp [onState, Selection.behind, Supply.counters]
    | ok done t =>
      obtain ⟨emitted, counters⟩ := ih (t.behind s.supply.names s.emitted)
      have same : sel.emissions stms (t.behind s.supply.names s.emitted).supply =
          sel.emissions stms t.supply :=
        (emissions_counters stms _).symm.trans (emissions_counters stms t.supply)
      rw [same] at emitted counters
      simp only [onState]
      refine ⟨emitted.trans ?_, counters⟩
      simp [Selection.behind]

theorem answer_eq (sel : Selector) (request : Request) :
    sel.answer request = sel.selectAll request.stms := by
  cases request with
  | one stm => simp [answer, Request.stms, select, selectAll, coverList]
  | all stms => rfl

/-- A selection delivers all that has been emitted, or leaves it waiting. -/
theorem selectAll_delivers (sel : Selector) (stms : List Stm) (s : Selection) :
    delivered (verdict (sel.selectAll stms s)) ++ (left (sel.selectAll stms s)).emitted.toList =
        (left (sel.coverList stms s)).emitted.toList ∧
      (left (sel.selectAll stms s)).supply = (left (sel.coverList stms s)).supply := by
  rw [selectAll, run_bind]
  cases sel.coverList stms s with
  | ok done t => simp [Selection.take, verdict, delivered]
  | error error t => simp [verdict, delivered]

theorem emissionsOf_counters (requests : List Request) (supply : Supply) :
    sel.emissionsOf requests supply.counters = sel.emissionsOf requests supply := by
  cases requests with
  | nil => rfl
  | cons request requests => rw [emissionsOf, emissions_counters, emissionsOf]

/-- One request: what was waiting and what the request emits is delivered or goes on waiting. -/
theorem answer_conserves (sel : Selector) (request : Request) (s : Selection) :
    delivered (verdict (sel.answer request s)) ++ (left (sel.answer request s)).emitted.toList =
        s.emitted.toList ++ (sel.emissions request.stms s.supply).1 ∧
      (left (sel.answer request s)).supply.counters = (sel.emissions request.stms s.supply).2 := by
  rw [answer_eq]
  obtain ⟨taken, supply⟩ := sel.selectAll_delivers request.stms s
  obtain ⟨emitted, counters⟩ := sel.coverList_emits request.stms s
  exact ⟨taken.trans emitted, by rw [supply, counters]⟩

/-- Any number of requests. -/
theorem answers_conserve (sel : Selector) (requests : List Request) (s : Selection) :
    (sel.answers requests s).1.flatMap delivered ++ (sel.answers requests s).2.emitted.toList =
      s.emitted.toList ++ sel.emissionsOf requests s.supply := by
  induction requests generalizing s with
  | nil => simp [answers, emissionsOf]
  | cons request requests ih =>
    obtain ⟨conserved, counters⟩ := sel.answer_conserves request s
    have later := ih (left (sel.answer request s))
    rw [← emissionsOf_counters, counters] at later
    simp only [answers, emissionsOf, List.flatMap_cons, List.append_assoc]
    rw [later, ← List.append_assoc, conserved, List.append_assoc]

/-- Placing operands leaves waiting instructions alone and takes no notice of them. -/
theorem selectArgs_isolated (sel : Selector) (link : Option Exp) (args : List Exp)
    (s : Selection) :
    (left (sel.selectArgs link args s)).emitted = s.emitted ∧
      verdict (sel.selectArgs link args s) =
        verdict (sel.selectArgs link args { supply := s.supply.counters }) := by
  have placed := (sel.blind_placeOperands link args).run { s with emitted := #[] }
  unfold selectArgs
  rw [placed]
  cases sel.placeOperands link args { supply := s.supply.counters } with
  | ok done t => simp [onState, verdict, Selection.behind]
  | error error t => simp [onState, verdict]

end Laws

/-- Selection only adds to its buffer. Whether it succeeds or fails, covering a statement leaves
what was waiting followed by what the statement emits, and this and its outcome depend on the
statement and the counters of the supply only. So selecting for two lists at once gives what
selecting for one after the other gives; what any requests deliver, together with what is waiting
in the end, is what was waiting in the beginning and all that they emit, in order; and placing the
operands of a call leaves the buffer as it was. -/
theorem selection_conserves_instructions (sel : Selector) :
    (∀ stm s, verdict (sel.coverStm stm s) = verdict (sel.alone stm s.supply) ∧
      (left (sel.coverStm stm s)).emitted.toList =
        s.emitted.toList ++ sel.emission stm s.supply) ∧
    (∀ first second s code s'', sel.selectAll (first ++ second) s = .ok code s'' ↔
      ∃ early s' late, sel.selectAll first s = .ok early s' ∧
        sel.selectAll second s' = .ok late s'' ∧ code = early ++ late) ∧
    (∀ requests s,
      (sel.answers requests s).1.flatMap delivered ++ (sel.answers requests s).2.emitted.toList =
        s.emitted.toList ++ sel.emissionsOf requests s.supply) ∧
    ∀ link args s, (left (sel.selectArgs link args s)).emitted = s.emitted ∧
      verdict (sel.selectArgs link args s) =
        verdict (sel.selectArgs link args { supply := s.supply.counters }) :=
  ⟨fun stm s => ⟨(sel.blind_coverStm stm).verdict_eq s, (sel.blind_coverStm stm).emitted_eq s⟩,
    fun _ _ _ _ _ => selectAll_append, sel.answers_conserve, sel.selectArgs_isolated⟩

end Selector

end TreeCode
