import TreeCode.Proofs.Lowering.Extension
import TreeCode.Proofs.Machine.Frames

/-!
What the steps of lowering preserve: nothing issued is taken back, a level once opened keeps its
parent and its formals, and every nested level has its static link as first formal. So climbing
from a level follows static links and nothing else.
-/

namespace TreeCode.Lowering

variable {conv : Convention}

/-- What stays of a level while lowering goes on. -/
structure Kept (info info' : LevelInfo) : Prop where
  parent : info'.parent = info.parent
  name : info'.frame.name = info.frame.name
  formals : info'.frame.formals = info.frame.formals
  incoming : info'.frame.incoming = info.frame.incoming
  wordSize : info'.frame.wordSize = info.frame.wordSize
  slots : info.frame.slots ≤ info'.frame.slots

theorem Kept.refl (info : LevelInfo) : Kept info info :=
  ⟨rfl, rfl, rfl, rfl, rfl, Nat.le_refl _⟩

theorem Kept.trans {first second third : LevelInfo} (kept : Kept first second)
    (next : Kept second third) : Kept first third :=
  ⟨next.parent.trans kept.parent, next.name.trans kept.name, next.formals.trans kept.formals,
    next.incoming.trans kept.incoming, next.wordSize.trans kept.wordSize,
    Nat.le_trans kept.slots next.slots⟩

theorem kept_allocate (info : LevelInfo) (escapes : Bool) (supply : Supply) :
    Kept info { info with frame := (info.frame.allocate escapes supply).1.2 } :=
  ⟨rfl, Frame.allocate_name _ _ _, Frame.allocate_formals _ _ _, Frame.allocate_incoming _ _ _,
    Frame.allocate_wordSize _ _ _, Frame.slots_le_allocate _ _ _⟩

theorem grows_wrapBody (conv : Convention) (frame : Frame) (body : Tree.Stm) :
    Grows (conv.wrapBody frame body) :=
  grows_bind (grows_freshTemps _) fun _ => grows_pure _

theorem Step.supply_le {s s' : Lowering} (step : Step conv s s') : s.supply.Le s'.supply := by
  cases step with
  | names => exact Supply.Le.refl _
  | issue supply grown => exact grown
  | literal => exact Supply.Le.refl _
  | allocate level info escapes known => exact Frame.grows_allocate info.frame escapes s.supply
  | nest parent info name escapes frame supply known made =>
    exact (grows_freshLabelFor name s.supply).trans (Convention.frameFor_receives made).1
  | finish level info body known => exact grows_wrapBody conv info.frame body s.supply

/-- Nothing goes back into the supply. -/
theorem Steps.supply_le {s s' : Lowering} (steps : Steps conv s s') :
    s.supply.Le s'.supply := by
  induction steps with
  | refl => exact Supply.Le.refl _
  | tail _ step carried => exact carried.trans step.supply_le

theorem getElem?_allocated {s : Lowering} {level other : Level} {info held : LevelInfo}
    (escapes : Bool) (known : s.levels[level]? = some info)
    (present : s.levels[other]? = some held) :
    ∃ held', (s.allocated level info escapes).levels[other]? = some held' ∧ Kept held held' := by
  have bound : level < s.levels.length := (List.getElem?_eq_some_iff.mp known).1
  change ∃ held', (s.levels.set level _)[other]? = some held' ∧ Kept held held'
  rw [List.getElem?_set]
  by_cases same : level = other
  · subst same
    rw [known] at present
    cases present
    simp only [if_true, bound]
    exact ⟨_, rfl, kept_allocate info escapes s.supply⟩
  · rw [if_neg same]
    exact ⟨held, present, Kept.refl held⟩

/-- A level once opened stays, with what is known of it. -/
theorem Step.keeps {s s' : Lowering} {level : Level} {info : LevelInfo} (step : Step conv s s')
    (present : s.levels[level]? = some info) :
    ∃ info', s'.levels[level]? = some info' ∧ Kept info info' := by
  cases step with
  | allocate other held escapes known => exact getElem?_allocated escapes known present
  | nest parent held name escapes frame supply known made =>
    refine ⟨info, ?_, Kept.refl info⟩
    have bound := (List.getElem?_eq_some_iff.mp present).1
    exact (List.getElem?_append_left bound).trans present
  | names => exact ⟨info, present, Kept.refl info⟩
  | issue => exact ⟨info, present, Kept.refl info⟩
  | literal => exact ⟨info, present, Kept.refl info⟩
  | finish => exact ⟨info, present, Kept.refl info⟩

/-- Every level stays, with its parent, its name and its formals. -/
theorem Steps.keeps {s s' : Lowering} {level : Level} {info : LevelInfo}
    (steps : Steps conv s s') (present : s.levels[level]? = some info) :
    ∃ info', s'.levels[level]? = some info' ∧ Kept info info' := by
  induction steps with
  | refl => exact ⟨info, present, Kept.refl info⟩
  | tail _ step carried =>
    obtain ⟨middle, found, kept⟩ := carried
    obtain ⟨last, known, next⟩ := step.keeps found
    exact ⟨last, known, kept.trans next⟩

theorem Step.levels_le {s s' : Lowering} (step : Step conv s s') :
    s.levels.length ≤ s'.levels.length := by
  cases step with
  | allocate level info escapes known => exact Nat.le_of_eq List.length_set.symm
  | nest parent info name escapes frame supply known made =>
    change _ ≤ (s.levels ++ [_]).length
    rw [List.length_append]
    exact Nat.le_add_right _ _
  | names => exact Nat.le_refl _
  | issue => exact Nat.le_refl _
  | literal => exact Nat.le_refl _
  | finish => exact Nat.le_refl _

/-- No level is ever taken away. -/
theorem Steps.levels_le {s s' : Lowering} (steps : Steps conv s s') :
    s.levels.length ≤ s'.levels.length := by
  induction steps with
  | refl => exact Nat.le_refl _
  | tail _ step carried => exact Nat.le_trans carried step.levels_le

/-- No level has changed but for its storage, and a new one comes after all others: it lies inside
one of them and finds its static link at stack position zero. -/
def Grown (conv : Convention) (levels levels' : List LevelInfo) : Prop :=
  ∀ (level : Level) (info : LevelInfo), levels'[level]? = some info →
    (∃ held, levels[level]? = some held ∧ Kept held info) ∨
      (level = levels.length ∧ (∃ parent, info.parent = some parent ∧ parent < level) ∧
        info.frame.formals.head? = some (.inFrame (conv.formalOffset 0)))

theorem Grown.refl (conv : Convention) (levels : List LevelInfo) : Grown conv levels levels :=
  fun _ info present => .inl ⟨info, present, Kept.refl info⟩

theorem grown_opened {s : Lowering} {parent : Level} {info : LevelInfo} {name : Label}
    {escapes : List Bool} {frame : Frame} {supply supply' : Supply}
    (known : s.levels[parent]? = some info)
    (made : conv.frameFor name (true :: escapes) supply = .ok frame supply') :
    Grown conv s.levels (s.opened parent frame supply').levels := by
  intro level held present
  obtain ⟨_, kept, incoming, formals, _⟩ := Convention.frameFor_receives made
  have bound : parent < s.levels.length := (List.getElem?_eq_some_iff.mp known).1
  change (s.levels ++ [_])[level]? = some held at present
  rw [List.getElem?_append] at present
  split at present
  next => exact .inl ⟨held, present, Kept.refl held⟩
  next new =>
    have last := (List.getElem?_eq_some_iff.mp present).1
    have here : level = s.levels.length :=
      Nat.le_antisymm (Nat.le_of_sub_eq_zero (Nat.lt_one_iff.mp last)) (Nat.le_of_not_lt new)
    have same := List.mem_of_getElem? present
    rw [List.mem_singleton] at same
    subst same here
    exact .inr ⟨rfl, ⟨parent, rfl, bound⟩, by rw [formals]; rfl⟩

theorem Step.grown {s s' : Lowering} (step : Step conv s s') :
    Grown conv s.levels s'.levels := by
  cases step with
  | allocate level info escapes known =>
    intro other held present
    have bound : level < s.levels.length := (List.getElem?_eq_some_iff.mp known).1
    change (s.levels.set level _)[other]? = some held at present
    rw [List.getElem?_set] at present
    by_cases same : level = other
    · subst same
      simp only [if_true, bound] at present
      cases present
      exact .inl ⟨info, known, kept_allocate info escapes s.supply⟩
    · rw [if_neg same] at present
      exact .inl ⟨held, present, Kept.refl held⟩
  | nest parent info name escapes frame supply known made => exact grown_opened known made
  | names => exact Grown.refl conv _
  | issue => exact Grown.refl conv _
  | literal => exact Grown.refl conv _
  | finish => exact Grown.refl conv _

/-- Every level inside another one finds its static link at stack position zero. -/
def LinksFirst (conv : Convention) (levels : List LevelInfo) : Prop :=
  ∀ (level : Level) (info : LevelInfo) (parent : Level), levels[level]? = some info →
    info.parent = some parent → info.frame.formals.head? = some (.inFrame (conv.formalOffset 0))

theorem linksFirst_start (conv : Convention) (entry : Label) (supply : Supply) :
    LinksFirst conv (start conv entry supply).levels := by
  intro level info parent known around
  cases level with
  | zero =>
    cases known
    cases around
  | succ level => cases known

/-- The first formal of every function stays its static link. -/
theorem Grown.linksFirst {levels levels' : List LevelInfo} (grown : Grown conv levels levels')
    (links : LinksFirst conv levels) : LinksFirst conv levels' := by
  intro level info parent present around
  rcases grown level info present with ⟨held, known, kept⟩ | ⟨_, _, first⟩
  · rw [kept.formals]
    exact links level held parent known (kept.parent.symm.trans around)
  · exact first

theorem Steps.linksFirst {s s' : Lowering} (steps : Steps conv s s')
    (links : LinksFirst conv s.levels) : LinksFirst conv s'.levels := by
  induction steps with
  | refl => exact links
  | tail _ step carried => exact step.grown.linksFirst carried

/-- `address` is the frame pointer of `target` as code in `level` with frame pointer `fp` finds
it: the static link of one level after the other is loaded, from `level` outwards. -/
inductive Linked (conv : Convention) (levels : List LevelInfo) (target : Level) :
    Level → Tree.Exp → Tree.Exp → Prop
  | here (fp : Tree.Exp) : Linked conv levels target target fp fp
  | up {level parent : Level} {info : LevelInfo} {fp address : Tree.Exp}
    (known : levels[level]? = some info) (around : info.parent = some parent)
    (rest : Linked conv levels target parent
      (.mem (.binop .plus fp (.const (conv.formalOffset 0)))) address) :
    Linked conv levels target level fp address

theorem linked_of_climb {levels : List LevelInfo} (links : LinksFirst conv levels)
    {target level : Level} {fp address : Tree.Exp}
    (climbed : climb levels target fp level = .ok address) :
    Linked conv levels target level fp address := by
  fun_induction climb levels target fp level with
  | case1 =>
    cases climbed
    exact .here _
  | case2 => cases climbed
  | case3 fp current away info known link others parent around formals smaller carried =>
    have first := links current info parent known around
    rw [formals] at first
    cases first
    exact .up known around (carried climbed)
  | case4 => cases climbed
  | case5 => cases climbed

/-- What is kept when a link is loaded is kept along the links. -/
theorem climb_keeps {P : Tree.Exp → Prop}
    (load : ∀ (link : Access) (fp : Tree.Exp), P fp → P (link.value fp))
    {levels : List LevelInfo} {target level : Level} {fp address : Tree.Exp}
    (climbed : climb levels target fp level = .ok address) (start : P fp) : P address := by
  fun_induction climb levels target fp level with
  | case1 =>
    cases climbed
    exact start
  | case2 => cases climbed
  | case3 fp current away info known link others parent around formals smaller carried =>
    exact carried climbed (load link fp start)
  | case4 => cases climbed
  | case5 => cases climbed

end TreeCode.Lowering
