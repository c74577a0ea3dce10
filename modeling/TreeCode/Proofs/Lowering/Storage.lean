import Mathlib.Algebra.Order.Ring.Abs
import Mathlib.Algebra.Order.Ring.Int
import Mathlib.Data.List.Forall2
import Mathlib.Tactic.Ring
import TreeCode.Proofs.Lowering.Views

/-!
Where the variables of a program live while it runs. Each variable in scope has a place of its own,
a temporary or a word of the frame, and `Represents` says that these places hold the values of
the variables. Frames are small enough for the addresses of their words to differ.
-/

namespace TreeCode

open Tree Source Lowering

/-- An activation of the program itself, with everything that stays the same while it runs. -/
structure Activation where
  conv : Convention
  oracle : Oracle
  /-- The value of the frame pointer. -/
  base : Word
  /-- How many temporaries the code uses before it is brought into canonical form. -/
  temps : Nat
  /-- How many words the frame has. -/
  slots : Nat
  spaced : 0 < conv.wordSize
  /-- The addresses of the words do not wrap around to one another. -/
  fits : slots * conv.wordSize ≤ 2 ^ 64

namespace Activation

variable {act : Activation} {vars : List (String × Access)} {s s' : Lowering} {store : Store}
  {σ : State Value World} {place other : Access}

section Places

/-- The address of a word of the frame. -/
def address (act : Activation) (offset : Int) : Value := .word (act.base + .ofInt 64 offset)

/-- What a place holds. -/
def held (act : Activation) (σ : State Value World) : Access → Value
  | .inReg t => σ.temps t
  | .inFrame offset => σ.world.memory (act.address offset)

/-- The state in which a place holds `v`. -/
def written (act : Activation) (σ : State Value World) (v : Value) : Access → State Value World
  | .inReg t => σ.set t v
  | .inFrame offset => σ.withWorld (σ.world.store (act.address offset) v)

/-- The place is one of `slots` words of the frame, or a temporary before `temps`. -/
def Placed (act : Activation) (temps slots : Nat) : Access → Prop
  | .inReg t => t.index < temps ∧ t ≠ act.conv.framePointer
  | .inFrame offset => ∃ k : Nat, 0 < k ∧ k ≤ slots ∧ offset = -(k : Int) * act.conv.wordSize

/-- A place stays one when more temporaries and slots are in use. -/
theorem Placed.mono {temps temps' slots slots' : Nat} (placed : act.Placed temps slots place)
    (temps_le : temps ≤ temps') (slots_le : slots ≤ slots') :
    act.Placed temps' slots' place := by
  cases place with
  | inReg t => exact ⟨Nat.lt_of_lt_of_le placed.1 temps_le, placed.2⟩
  | inFrame offset =>
    obtain ⟨k, positive, bounded, same⟩ := placed
    exact ⟨k, positive, Nat.le_trans bounded slots_le, same⟩

/-- Distances that are no multiples of the size of memory lead to different addresses. -/
theorem eq_of_ofInt_eq {first second : Int} (same : BitVec.ofInt 64 first = BitVec.ofInt 64 second)
    (near : |first - second| < 2 ^ 64) : first = second := by
  have wrapped := congrArg BitVec.toInt same
  rw [BitVec.toInt_ofInt, BitVec.toInt_ofInt, Int.bmod_eq_bmod_iff_bmod_sub_eq_zero] at wrapped
  exact Int.sub_eq_zero.mp (Int.eq_zero_of_abs_lt_dvd (Int.dvd_of_bmod_eq_zero wrapped) near)

/-- Different words of a frame have different addresses. -/
theorem address_ne {temps slots : Nat} {first second : Int} (small : slots ≤ act.slots)
    (placed : act.Placed temps slots (.inFrame first))
    (placedOther : act.Placed temps slots (.inFrame second)) (different : first ≠ second) :
    act.address first ≠ act.address second := by
  obtain ⟨j, _, jBound, rfl⟩ := placed
  obtain ⟨k, _, kBound, rfl⟩ := placedOther
  intro same
  refine different (eq_of_ofInt_eq ((BitVec.add_right_inj _).mp (Value.word.inj same)) ?_)
  have steps : |(k : Int) - j| < act.slots := by
    rw [abs_lt]
    omega
  calc |-(j : Int) * act.conv.wordSize - -(k : Int) * act.conv.wordSize|
      = |((k : Int) - j) * act.conv.wordSize| := congrArg _ (by ring)
    _ = |(k : Int) - j| * act.conv.wordSize := by rw [abs_mul, abs_of_pos act.spaced]
    _ < act.slots * act.conv.wordSize := (Int.mul_lt_mul_right act.spaced).mpr steps
    _ ≤ 2 ^ 64 := act.fits

/-- A place holds what was written to it last. -/
theorem held_written_same (v : Value) : act.held (act.written σ v place) place = v := by
  cases place with
  | inReg t => exact State.set_temps_same σ t v
  | inFrame offset => exact if_pos rfl

/-- Writing to one place leaves all others as they are, since frames do not overlap themselves. -/
theorem held_written_other {temps slots : Nat} (small : slots ≤ act.slots)
    (placed : act.Placed temps slots place) (placedOther : act.Placed temps slots other)
    (different : other ≠ place) (v : Value) :
    act.held (act.written σ v place) other = act.held σ other := by
  cases place with
  | inReg t =>
    cases other with
    | inReg u => exact State.set_temps_ne σ v fun same => different (congrArg _ same)
    | inFrame offset => rfl
  | inFrame offset =>
    cases other with
    | inReg u => rfl
    | inFrame offset' =>
      have apart : offset' ≠ offset := fun same => different (congrArg _ same)
      exact if_neg (address_ne small placedOther placed apart)

/-- Writing to a place calls nothing. -/
theorem written_trace (v : Value) : (act.written σ v place).world.trace = σ.world.trace := by
  cases place <;> rfl

/-- Only the temporary of the place is written to. -/
theorem written_temps {t : Temp} (away : place ≠ .inReg t) (v : Value) :
    (act.written σ v place).temps t = σ.temps t := by
  cases place with
  | inReg u => exact State.set_temps_ne σ v fun same => away (congrArg _ same.symm)
  | inFrame offset => rfl

/-- A variable is not in a temporary that comes later. -/
theorem Placed.ne_above {temps slots : Nat} (placed : act.Placed temps slots place) {t : Temp}
    (above : temps ≤ t.index) : place ≠ .inReg t := by
  rintro rfl
  exact Nat.not_le_of_lt placed.1 above

/-- A variable is never in the frame pointer. -/
theorem Placed.ne_pointer {temps slots : Nat} (placed : act.Placed temps slots place) :
    place ≠ .inReg act.conv.framePointer := by
  rintro rfl
  exact placed.2 rfl

end Places

section Layout

/-- The entry of a scope for a variable of the program itself. -/
def entry (v : String × Access) : String × Meaning := (v.1, .variable 0 v.2)

/-- While lowering is in the state `s`, the names in scope are those of `vars`, and every one of
them has a place of its own. -/
structure Laid (act : Activation) (vars : List (String × Access)) (s : Lowering) : Prop where
  names : s.scopes.flatten = vars.map entry
  someScope : s.scopes ≠ []
  pointer : act.conv.framePointer.index < s.supply.temps
  placed : ∃ info, s.levels[0]? = some info ∧ info.frame.wordSize = act.conv.wordSize ∧
    ∀ v ∈ vars, act.Placed s.supply.temps info.frame.slots v.2
  distinct : vars.Pairwise fun v w => v.2 ≠ w.2

/-- Temporaries and words of the frame have not run out. -/
structure Room (act : Activation) (s : Lowering) : Prop where
  temps : s.supply.temps ≤ act.temps
  slots : ∀ info, s.levels[0]? = some info → info.frame.slots ≤ act.slots

/-- There was enough room before if there is room in the end. -/
theorem Room.before (room : act.Room s') (steps : Steps act.conv s s') : act.Room s where
  temps := Nat.le_trans steps.supply_le.1 room.temps
  slots info known := by
    obtain ⟨info', present, kept⟩ := steps.keeps known
    exact Nat.le_trans kept.slots (room.slots info' present)

/-- Variables stay where they are as long as the scopes do not change. -/
theorem Laid.steps (laid : act.Laid vars s) (steps : Steps act.conv s s')
    (same : s'.scopes = s.scopes) : act.Laid vars s' where
  names := by rw [same]; exact laid.names
  someScope := by rw [same]; exact laid.someScope
  pointer := Nat.lt_of_lt_of_le laid.pointer steps.supply_le.1
  placed := by
    obtain ⟨info, known, wordSize, placed⟩ := laid.placed
    obtain ⟨info', present, kept⟩ := steps.keeps known
    refine ⟨info', present, kept.wordSize.trans wordSize, ?_⟩
    intro v member
    exact (placed v member).mono steps.supply_le.1 kept.slots
  distinct := laid.distinct

theorem Laid.extend (laid : act.Laid vars s) (extended : Extends act.conv s s') :
    act.Laid vars s' :=
  laid.steps extended.steps extended.scopes

theorem Laid.draw {α : Type} {make : Fresh α} (laid : act.Laid vars s) (grows : Grows make) :
    act.Laid vars (s.draw make) :=
  laid.steps (steps_draw grows s) rfl

theorem Laid.label (laid : act.Laid vars s) : act.Laid vars s.label :=
  laid.draw grows_freshLabel

theorem Laid.withExits (laid : act.Laid vars s) (exits : List Label) :
    act.Laid vars (s.withExits exits) :=
  laid.steps (.single (.names s s.scopes exits)) rfl

theorem Laid.enter (laid : act.Laid vars s) : act.Laid vars s.enter :=
  ⟨laid.names, List.cons_ne_nil _ _, laid.pointer, laid.placed, laid.distinct⟩

/-- Storage for a new variable is not in use yet. -/
theorem Laid.fresh {escapes : Bool} (laid : act.Laid vars s)
    (ran : allocateVariable 0 escapes s = .ok place s') :
    ∃ info, s'.levels[0]? = some info ∧ info.frame.wordSize = act.conv.wordSize ∧
      act.Placed s'.supply.temps info.frame.slots place ∧ ∀ v ∈ vars, place ≠ v.2 := by
  obtain ⟨info, known, wordSize, placed⟩ := laid.placed
  obtain ⟨_, present, rfl, rfl⟩ := allocateVariable_ok.mp ran
  cases known.symm.trans present
  have bound := (List.getElem?_eq_some_iff.mp known).1
  refine ⟨_, List.getElem?_set_self bound, ?_⟩
  cases escapes with
  | true =>
    refine ⟨wordSize, ⟨info.frame.slots + 1, Nat.succ_pos _, Nat.le_refl _, ?_⟩, ?_⟩
    · rw [← wordSize]
      rfl
    · intro v member same
      have old := placed v member
      rw [← same] at old
      obtain ⟨k, _, bounded, offset⟩ := old
      rw [← wordSize] at offset
      have positive : (0 : Int) < info.frame.wordSize := wordSize ▸ act.spaced
      have equal := Int.eq_of_mul_eq_mul_right (Int.ne_of_gt positive) offset
      have : ((info.frame.grow.slots : Nat) : Int) = (info.frame.slots : Int) + 1 := rfl
      omega
  | false =>
    refine ⟨wordSize, ⟨Nat.lt_succ_self _, ?_⟩, ?_⟩
    · intro same
      have := congrArg Temp.index same
      have pointer := laid.pointer
      exact Nat.ne_of_lt pointer this.symm
    · intro v member same
      have old := placed v member
      rw [← same] at old
      exact Nat.lt_irrefl _ old.1

/-- A variable that is bound gets a place of its own. -/
theorem Laid.bind {escapes : Bool} (laid : act.Laid vars s) (name : String)
    (ran : allocateVariable 0 escapes s = .ok place s') :
    act.Laid ((name, place) :: vars) (s'.bound name (.variable 0 place)) := by
  obtain ⟨info, known, wordSize, placed, new⟩ := laid.fresh ran
  have later := laid.extend ((extending_allocateVariable 0 escapes).ok ran)
  refine ⟨?_, scopes_bound name _ later.someScope, later.pointer, ⟨info, known, wordSize, ?_⟩, ?_⟩
  · rw [flatten_bound name _ later.someScope, later.names]
    rfl
  · intro v member
    rcases List.mem_cons.mp member with rfl | old
    · exact placed
    · obtain ⟨info', present, _, all⟩ := later.placed
      cases known.symm.trans present
      exact all v old
  · exact List.pairwise_cons.mpr ⟨new, laid.distinct⟩

end Layout

section Contents

/-- The place of a variable holds its value. -/
def Holds (act : Activation) (σ : State Value World) (v : String × Access) (w : String × Word) :
    Prop :=
  v.1 = w.1 ∧ act.held σ v.2 = .word w.2

/-- The state of the machine is that of the evaluation: the places of the variables hold their
values, and the same calls have been made. -/
structure Represents (act : Activation) (vars : List (String × Access)) (store : Store)
    (σ : State Value World) : Prop where
  pointer : σ.temps act.conv.framePointer = .word act.base
  values : List.Forall₂ (act.Holds σ) vars store.vars
  trace : σ.world.trace = store.trace

variable {name : String} {v : Word} {values values' : List (String × Word)}
  {τ : State Value World}

/-- Variables keep their values if their places do. -/
theorem holds_of_held_eq (holds : List.Forall₂ (act.Holds σ) vars values)
    (same : ∀ u ∈ vars, act.held τ u.2 = act.held σ u.2) :
    List.Forall₂ (act.Holds τ) vars values := by
  induction holds with
  | nil => exact .nil
  | cons first rest carried =>
    refine .cons ⟨first.1, ?_⟩ (carried fun u member => same u (List.mem_cons_of_mem _ member))
    rw [same _ List.mem_cons_self]
    exact first.2

/-- The place of a variable holds its value. -/
theorem held_of_lookup (holds : List.Forall₂ (act.Holds σ) vars values)
    (found : vars.lookup name = some place) (read : values.lookup name = some v) :
    act.held σ place = .word v := by
  induction holds with
  | nil => cases found
  | @cons u w _ _ first rest carried =>
    rw [List.lookup_cons] at found read
    rw [← first.1] at read
    cases same : name == u.1 with
    | true =>
      simp only [same] at found read
      cases found
      cases read
      exact first.2
    | false =>
      simp only [same] at found read
      exact carried found read

/-- After an assignment to the innermost variable called `name`, the others are as before. -/
theorem holds_assignVar (holds : List.Forall₂ (act.Holds σ) vars values)
    (distinct : vars.Pairwise fun u w => u.2 ≠ w.2) (found : vars.lookup name = some place)
    (assigned : assignVar name v values = some values')
    (same : ∀ u ∈ vars, u.2 ≠ place → act.held τ u.2 = act.held σ u.2)
    (new : act.held τ place = .word v) : List.Forall₂ (act.Holds τ) vars values' := by
  induction holds generalizing values' with
  | nil => cases found
  | @cons u w vars values first rest carried =>
    obtain ⟨apart, others⟩ := List.pairwise_cons.mp distinct
    have later : ∀ u ∈ vars, u.2 ≠ place → act.held τ u.2 = act.held σ u.2 :=
      fun u member => same u (List.mem_cons_of_mem _ member)
    rw [List.lookup_cons] at found
    unfold assignVar at assigned
    by_cases named : w.1 = name
    · rw [if_pos named] at assigned
      cases assigned
      simp only [first.1, named, beq_self_eq_true] at found
      cases found
      refine .cons ⟨first.1, new⟩ (holds_of_held_eq rest fun u member => later u member ?_)
      exact (apart u member).symm
    · rw [if_neg named] at assigned
      obtain ⟨values', done, rfl⟩ := Option.map_eq_some_iff.mp assigned
      have unnamed : (name == u.1) = false := by
        rw [first.1]
        exact beq_false_of_ne (Ne.symm named)
      simp only [unnamed] at found
      obtain ⟨before, after, split, _⟩ := List.lookup_eq_some_iff.mp found
      have member : (name, place) ∈ vars := by simp [split]
      refine .cons ⟨first.1, ?_⟩ (carried others found done later)
      rw [same u List.mem_cons_self (apart _ member)]
      exact first.2

/-- What is represented depends on the places of variables alone. -/
theorem Laid.settled {hi : Nat} (laid : act.Laid vars s) (le : s.supply.temps ≤ hi) :
    Settled hi (act.Represents vars store) := by
  intro σ τ agree represents
  obtain ⟨info, _, _, placed⟩ := laid.placed
  have temps : ∀ t : Temp, t.index < s.supply.temps → τ.temps t = σ.temps t :=
    fun t below => (agree.2 t (Nat.lt_of_lt_of_le below le)).symm
  refine ⟨?_, holds_of_held_eq represents.values ?_, ?_⟩
  · rw [temps _ laid.pointer]
    exact represents.pointer
  · rintro ⟨name, place⟩ member
    have known := placed _ member
    cases place with
    | inReg t => exact temps t known.1
    | inFrame offset =>
      exact congrArg (fun world : World => world.memory (act.address offset)) agree.1.symm
  · rw [← agree.1]
    exact represents.trace

end Contents

section Code

variable {name : String} {v : Word} {store' store'' : Store} {value : Tree.Exp} {hi : Nat}
  {w : Value} {σ' : State Value World}

/-- The frame pointer of the activation, as code refers to it. -/
abbrev pointer (act : Activation) : Tree.Exp := .temp act.conv.framePointer

/-- The code computes a value on the machine. -/
abbrev Computes (act : Activation) (e : Tree.Exp) (σ : State Value World) (v : Value)
    (σ' : State Value World) : Prop :=
  (Running.onMachine (Model.words act.oracle)).Computes act.temps e σ v σ'

/-- The address of a slot, computed from the frame pointer. -/
theorem computes_address (below : act.conv.framePointer.index < act.temps)
    (pointer : σ.temps act.conv.framePointer = .word act.base) (offset : Int) :
    act.Computes (.binop .plus act.pointer (.const offset)) σ (act.address offset) σ :=
  Running.computes_binop .plus (computes_held below pointer) (Running.computes_const offset)

/-- Reading a variable gives what its place holds. -/
theorem computes_place {slots : Nat} (below : act.conv.framePointer.index < act.temps)
    (pointer : σ.temps act.conv.framePointer = .word act.base)
    (placed : act.Placed act.temps slots place) :
    act.Computes (place.value act.pointer) σ (act.held σ place) σ := by
  cases place with
  | inReg t => exact Running.computes_temp placed.1
  | inFrame offset => exact Running.computes_mem (computes_address below pointer offset)

/-- Assigning to a variable writes to its place. -/
theorem runs_write {slots : Nat} (below : act.conv.framePointer.index < act.temps)
    (pointer : σ.temps act.conv.framePointer = .word act.base)
    (placed : act.Placed act.temps slots place) (given : act.Computes value σ w σ') :
    Runs (Model.words act.oracle) act.temps (.move (place.value act.pointer) value) σ
      (act.written σ' w place) := by
  cases place with
  | inReg t => exact Running.does_move_temp placed.1 given
  | inFrame offset =>
    exact Running.does_move_mem (computes_address below pointer offset) given

theorem lookup_entry (vars : List (String × Access)) (name : String) :
    (vars.map entry).lookup name = (vars.lookup name).map (.variable 0) := by
  induction vars with
  | nil => rfl
  | cons v vars carried =>
    rw [List.map_cons, entry, List.lookup_cons, List.lookup_cons, carried]
    cases name == v.1 <;> rfl

/-- A variable in scope is found at its place. -/
theorem Laid.lookup {pos : Pos} {tree : Tree.Exp} (laid : act.Laid vars s)
    (ran : lowerVar act.conv 0 (.simple name pos) s = .ok tree s') :
    ∃ place, vars.lookup name = some place ∧ tree = place.value act.pointer ∧ s = s' := by
  obtain ⟨declared, place, fp, meaning, climbed, rfl, rfl⟩ := lowerVar_simple.mp ran
  rw [meaningIn_eq_lookup, laid.names, lookup_entry] at meaning
  obtain ⟨_, found, same⟩ := Option.map_eq_some_iff.mp meaning
  cases same
  rw [climb, if_pos rfl] at climbed
  cases climbed
  exact ⟨place, found, rfl, rfl⟩

/-- The place that a name is found at has been handed out. -/
theorem Laid.placed_lookup (laid : act.Laid vars s) (room : act.Room s)
    (found : vars.lookup name = some place) :
    ∃ slots, slots ≤ act.slots ∧ act.Placed s.supply.temps slots place ∧
      ∀ v ∈ vars, act.Placed s.supply.temps slots v.2 := by
  obtain ⟨info, known, _, placed⟩ := laid.placed
  obtain ⟨before, after, split, _⟩ := List.lookup_eq_some_iff.mp found
  exact ⟨info.frame.slots, room.slots info known, placed (name, place) (by simp [split]), placed⟩

/-- Reading a variable. -/
theorem leads_read (laid : act.Laid vars s) (room : act.Room s)
    (found : vars.lookup name = some place) (read : store.read name = some v) :
    Leads hi (act.Represents vars store)
      ((Lowered.value (place.value act.pointer)).Gives act.oracle act.temps v)
      (act.Represents vars store) := by
  refine leads_here fun σ represents => ⟨?_, ?_⟩
  · obtain ⟨slots, _, placed, _⟩ := laid.placed_lookup room found
    rw [← held_of_lookup represents.values found read]
    exact computes_place (Nat.lt_of_lt_of_le laid.pointer room.temps) represents.pointer
      (placed.mono room.temps (Nat.le_refl _))
  · intro c same
    cases place <;> cases same

/-- After a write, the machine represents the changed store. -/
theorem Represents.write {vars' : List (String × Access)} {slots : Nat}
    (represents : act.Represents vars store σ) (placed : act.Placed act.temps slots place)
    (values : List.Forall₂ (act.Holds (act.written σ w place)) vars' store'.vars)
    (trace : store'.trace = store.trace) :
    act.Represents vars' store' (act.written σ w place) where
  pointer := by
    rw [written_temps placed.ne_pointer]
    exact represents.pointer
  values := values
  trace := by
    rw [written_trace, trace]
    exact represents.trace

/-- Assigning to a variable. -/
theorem leads_assign (laid : act.Laid vars s) (room : act.Room s)
    (found : vars.lookup name = some place) (le : s.supply.temps ≤ hi)
    (given : Leads hi (act.Represents vars store) (fun σ σ' => act.Computes value σ (.word v) σ')
      (act.Represents vars store'))
    (assigned : store'.assign name v = some store'') :
    Leads hi (act.Represents vars store)
      (Runs (Model.words act.oracle) act.temps (.move (place.value act.pointer) value))
      (act.Represents vars store'') := by
  intro σ represents
  obtain ⟨σ', computed, after, kept⟩ := given σ represents
  obtain ⟨slots, small, placed, others⟩ := laid.placed_lookup room found
  obtain ⟨values, done, same⟩ := Option.bind_eq_some_iff.mp assigned
  cases same
  have below := placed.mono room.temps (Nat.le_refl slots)
  refine ⟨act.written σ' (.word v) place,
    runs_write (Nat.lt_of_lt_of_le laid.pointer room.temps) represents.pointer below computed,
    after.write below ?_ rfl, ?_⟩
  · refine holds_assignVar after.values laid.distinct found done ?_ (held_written_same _)
    exact fun u member different => held_written_other small placed (others u member) different _
  · intro t above
    rw [written_temps (placed.ne_above (Nat.le_trans le above)), kept t above]

/-- Giving a new variable its first value. -/
theorem leads_declare {escapes : Bool} (laid : act.Laid vars s)
    (ran : allocateVariable 0 escapes s = .ok place s') (room : act.Room s')
    (le : s'.supply.temps ≤ hi) (name : String)
    (given : Leads hi (act.Represents vars store) (fun σ σ' => act.Computes value σ (.word v) σ')
      (act.Represents vars store')) :
    Leads hi (act.Represents vars store)
      (Runs (Model.words act.oracle) act.temps (.move (place.value act.pointer) value))
      (act.Represents ((name, place) :: vars) (store'.declare name v)) := by
  intro σ represents
  obtain ⟨σ', computed, after, kept⟩ := given σ represents
  have found : ((name, place) :: vars).lookup name = some place := by simp
  have later := laid.bind name ran
  obtain ⟨slots, small, placed, others⟩ := later.placed_lookup ⟨room.temps, room.slots⟩ found
  have below := placed.mono room.temps (Nat.le_refl slots)
  refine ⟨act.written σ' (.word v) place,
    runs_write (Nat.lt_of_lt_of_le later.pointer room.temps) represents.pointer below computed,
    after.write below (.cons ⟨rfl, held_written_same _⟩ (holds_of_held_eq after.values ?_)) rfl, ?_⟩
  · intro u member
    have different := (List.pairwise_cons.mp later.distinct).1 u member
    exact held_written_other small placed (others u (List.mem_cons_of_mem _ member))
      different.symm _
  · intro t above
    rw [written_temps (placed.ne_above (Nat.le_trans le above)), kept t above]

/-- Variables that go out of scope. -/
theorem Represents.forget {added : List (String × Access)} {count : Nat}
    (represents : act.Represents (added ++ vars) store σ) (length : added.length = count) :
    act.Represents vars (store.forget count) σ where
  pointer := represents.pointer
  values := by
    subst length
    have dropped := List.forall₂_drop added.length represents.values
    rw [List.drop_left] at dropped
    exact dropped
  trace := represents.trace

end Code

end Activation

end TreeCode
