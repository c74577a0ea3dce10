import TreeCode.Proofs.Lowering.Fragments
import TreeCode.Proofs.Lowering.Residences
import TreeCode.Proofs.Machine.Layout

/-!
The storage of variables follows their flags. A variable that escapes gets a word of the frame of
its function and any other one a temporary, unless it is a parameter that arrives on the stack. So
the sizes of the frames can be read off the program text.
-/

namespace TreeCode.Lowering

open Source (Introduction Outline)
open Source.Outline (nothing literal finish andThen noVariables single parameters follow)

variable {conv : Convention} {level own : Level} {s s' t t' u : Lowering}
  {make make' : Nat → Outline} {vars vars' : Nat → List Introduction}
  {homes homes' : List Residence} {infos infos' : List LevelInfo}

/-- How many words below the frame pointer are in use in a level. -/
def slotsAt (infos : List LevelInfo) (level : Level) : Nat :=
  match infos[level]? with
  | some info => info.frame.slots
  | none => 0

/-- The word number `k` below the frame pointer, as a place for a variable. -/
def slot (conv : Convention) (k : Nat) : Access := .inFrame (conv.slotOffset k)

/-- The frames have words of the size that the convention gives. -/
def Sized (conv : Convention) (infos : List LevelInfo) : Prop :=
  ∀ info ∈ infos, info.frame.wordSize = conv.wordSize

/-- Whether a variable has to get a word of the frame of `level`. -/
def Residence.fills (conv : Convention) (level : Level) (home : Residence) : Bool :=
  home.entry.owner == level && home.entry.inSlot conv.arguments.length

section Stored

/-- The places of a level's formals after the static link. -/
def formalsAt (infos : List LevelInfo) (level : Level) : List Access :=
  match infos[level]? with
  | some info => info.frame.formals.tail
  | none => []

theorem formalsAt_known {info : LevelInfo} (known : infos[level]? = some info) :
    formalsAt infos level = info.frame.formals.tail := by
  rw [formalsAt, known]

/-- A level keeps its formals while more levels come. -/
theorem formalsAt_outlast (grown : Outlasts infos infos') (known : level < infos.length) :
    formalsAt infos' level = formalsAt infos level := by
  obtain ⟨info, present⟩ : ∃ info, infos[level]? = some info :=
    ⟨_, List.getElem?_eq_getElem known⟩
  obtain ⟨info', still, kept⟩ := grown level info present
  rw [formalsAt_known present, formalsAt_known still, kept.formals]

theorem formal_outlast {place : Nat} {access : Access} (grown : Outlasts infos infos')
    (found : (formalsAt infos level)[place]? = some access) :
    (formalsAt infos' level)[place]? = some access := by
  by_cases known : level < infos.length
  · rw [formalsAt_outlast grown known]
    exact found
  · rw [formalsAt, List.getElem?_eq_none (Nat.le_of_not_lt known)] at found
    cases found

/-- The parameters among some variables live where the formals of their functions are. -/
def OnFormals (infos : List LevelInfo) (homes : List Residence) : Prop :=
  ∀ home ∈ homes, ∀ place, home.entry.position = some place →
    (formalsAt infos home.entry.owner)[place]? = some home.access

theorem OnFormals.outlast (placed : OnFormals infos homes) (grown : Outlasts infos infos') :
    OnFormals infos' homes :=
  fun home member place parameter => formal_outlast grown (placed home member place parameter)

/-- On the way from `s` to `t` some variables got storage: those that have to be in a frame share
the words among each other by which the frame has grown, those that have to be in temporaries are
in new ones, and parameters are where their functions have formals. -/
structure Stored (conv : Convention) (s t : Lowering) (homes : List Residence) : Prop where
  sized : Sized conv t.levels
  grown : Outlasts s.levels t.levels
  slots : ∀ level, ∃ count, slotsAt t.levels level = slotsAt s.levels level + count ∧
    ((homes.filter (Residence.fills conv level)).map Residence.access).Perm
      ((List.range' (slotsAt s.levels level) count).map (slot conv))
  issued : Temp.Issued s.supply.temps t.supply.temps (tempsOf (homes.map Residence.access))
  temps : ∀ home ∈ homes, home.entry.inTemp conv.arguments.length = true →
    ∃ x, home.access = .inReg x
  formals : OnFormals t.levels homes

/-- Where nothing has been done, nothing was stored. -/
theorem stored_nothing (sized : Sized conv s.levels) : Stored conv s s [] where
  sized := sized
  grown := .refl _
  slots _ := ⟨0, rfl, .nil⟩
  issued := Temp.issued_nil (Nat.le_refl _)
  temps := List.forall_mem_nil _
  formals := List.forall_mem_nil _

/-- Changes before and after that have nothing to do with frames. -/
theorem Stored.quiet (stored : Stored conv s' t' homes)
    (levels : s.levels = s'.levels := by rfl) (levelsAfter : t.levels = t'.levels := by rfl)
    (before : s.supply.temps ≤ s'.supply.temps := by exact Nat.le_refl _)
    (after : t'.supply.temps ≤ t.supply.temps := by exact Nat.le_refl _) :
    Stored conv s t homes := by
  obtain ⟨sized, grown, slots, issued, temps, formals⟩ := stored
  rw [← levels, ← levelsAfter] at grown slots
  rw [← levelsAfter] at sized formals
  refine ⟨sized, grown, slots, ⟨?_, issued.distinct, ?_⟩, temps, formals⟩
  · exact Nat.le_trans before (Nat.le_trans issued.grown after)
  · exact fun x member => (issued.between x member).widen before after

/-- One part after another. The slots of the second one come after those of the first. -/
theorem Stored.append (first : Stored conv s t homes) (second : Stored conv t u homes') :
    Stored conv s u (homes ++ homes') where
  sized := second.sized
  grown := first.grown.trans second.grown
  slots := by
    intro level
    obtain ⟨count, total, some⟩ := first.slots level
    obtain ⟨more, total', others⟩ := second.slots level
    refine ⟨count + more, by rw [total', total, Nat.add_assoc], ?_⟩
    rw [total] at others
    rw [List.filter_append, List.map_append, ← List.range'_append_1, List.map_append]
    exact some.append others
  issued := by
    rw [List.map_append, tempsOf_append]
    exact first.issued.append second.issued
  temps := List.forall_mem_append.mpr ⟨first.temps, second.temps⟩
  formals := List.forall_mem_append.mpr ⟨first.formals.outlast second.grown, second.formals⟩

/-- The order in which variables are listed makes no difference. -/
theorem Stored.perm (stored : Stored conv s t homes) (same : homes.Perm homes') :
    Stored conv s t homes' where
  sized := stored.sized
  grown := stored.grown
  slots := by
    intro level
    obtain ⟨count, total, some⟩ := stored.slots level
    exact ⟨count, total, ((same.filter _).map _).symm.trans some⟩
  issued := stored.issued.perm ((same.map _).filterMap _)
  temps home member := stored.temps home (same.mem_iff.mpr member)
  formals home member := stored.formals home (same.mem_iff.mpr member)

end Stored

section Frames

theorem slotsAt_known {info : LevelInfo} (known : infos[level]? = some info) :
    slotsAt infos level = info.frame.slots := by
  rw [slotsAt, known]

theorem slotsAt_set {info : LevelInfo} (known : own < infos.length) (level : Level) :
    slotsAt (infos.set own info) level =
      if own = level then info.frame.slots else slotsAt infos level := by
  unfold slotsAt
  rw [List.getElem?_set]
  by_cases same : own = level
  · simp [same, same ▸ known]
  · simp [same]

/-- A new level has the slots of its own frame. -/
theorem slotsAt_concat (infos : List LevelInfo) (info : LevelInfo) (level : Level) :
    slotsAt (infos ++ [info]) level =
      slotsAt infos level + if infos.length = level then info.frame.slots else 0 := by
  unfold slotsAt
  rcases Nat.lt_trichotomy level infos.length with inside | rfl | beyond
  · rw [List.getElem?_append_left inside, if_neg (Nat.ne_of_gt inside)]
    rfl
  · rw [List.getElem?_concat_length, List.getElem?_eq_none (Nat.le_refl _), if_pos rfl]
    exact (Nat.zero_add _).symm
  · rw [List.getElem?_eq_none (Nat.le_of_lt beyond), if_neg (Nat.ne_of_lt beyond),
      List.getElem?_eq_none (by rw [List.length_append]; exact beyond)]

/-- One more variable in a frame. A parameter on the stack is not stored this way. -/
theorem allocate_cases {frame : Frame} (size : frame.wordSize = conv.wordSize)
    {entry : Introduction} (free : entry.onStack conv.arguments.length = false)
    (supply : Supply) :
    (entry.inSlot conv.arguments.length = true ∧ entry.inTemp conv.arguments.length = false ∧
      (frame.allocate entry.binder.escapes supply).1.1 = slot conv frame.slots ∧
      (frame.allocate entry.binder.escapes supply).1.2.slots = frame.slots + 1) ∨
    (entry.inSlot conv.arguments.length = false ∧
      (∃ x, (frame.allocate entry.binder.escapes supply).1.1 = .inReg x) ∧
      (frame.allocate entry.binder.escapes supply).1.2.slots = frame.slots) := by
  unfold Introduction.inSlot Introduction.inTemp
  rw [free]
  cases entry.binder.escapes with
  | false => exact .inr ⟨rfl, ⟨_, rfl⟩, rfl⟩
  | true =>
    refine .inl ⟨rfl, rfl, ?_, rfl⟩
    change Access.inFrame (-((frame.slots + 1 : Nat) : Int) * frame.wordSize) = _
    rw [size, Int.neg_mul]
    rfl

/-- Variables of the function `owner` were stored while its frame went from `frame` to
`frame'`. -/
structure Lodged (conv : Convention) (owner : Level) (homes : List Residence)
    (frame frame' : Frame) : Prop where
  slots : ∃ count, frame'.slots = frame.slots + count ∧
    (homes.filter (Residence.fills conv owner)).map Residence.access =
      (List.range' frame.slots count).map (slot conv)
  temps : ∀ home ∈ homes, home.entry.inTemp conv.arguments.length = true →
    ∃ x, home.access = .inReg x

theorem lodged_nil (conv : Convention) (own : Level) (frame : Frame) :
    Lodged conv own [] frame frame :=
  ⟨⟨0, rfl, rfl⟩, List.forall_mem_nil _⟩

/-- One more variable in front of others. -/
theorem Lodged.cons {frame middle frame' : Frame} (lodged : Lodged conv own homes middle frame')
    (size : frame.wordSize = conv.wordSize) {entry : Introduction} (belongs : entry.owner = own)
    (free : entry.onStack conv.arguments.length = false) (supply : Supply)
    (same : middle.slots = (frame.allocate entry.binder.escapes supply).1.2.slots) :
    Lodged conv own (⟨entry, (frame.allocate entry.binder.escapes supply).1.1⟩ :: homes)
      frame frame' := by
  obtain ⟨⟨count, total, places⟩, temps⟩ := lodged
  rcases allocate_cases size free supply with ⟨slotted, notTemp, place, grown⟩ | ⟨other, reg, kept⟩
  · refine ⟨⟨count + 1, by omega, ?_⟩, List.forall_mem_cons.mpr ⟨?_, temps⟩⟩
    · have here : Residence.fills conv own
          ⟨entry, (frame.allocate entry.binder.escapes supply).1.1⟩ = true := by
        simp [Residence.fills, belongs, slotted]
      rw [List.filter_cons_of_pos here, List.map_cons, places, place, same, grown,
        List.range'_succ]
      rfl
    · intro wanted
      rw [notTemp] at wanted
      cases wanted
  · refine ⟨⟨count, by omega, ?_⟩, List.forall_mem_cons.mpr ⟨fun _ => reg, temps⟩⟩
    have away : Residence.fills conv own
        ⟨entry, (frame.allocate entry.binder.escapes supply).1.1⟩ = false := by
      simp [Residence.fills, other]
    rw [List.filter_cons_of_neg (by rw [away]; exact Bool.false_ne_true), places, same, kept]

/-- Formals added to a frame are where its function finds its parameters. Those from the given
place on take the remaining argument registers. -/
theorem addFormals_lodged (owner : Level) :
    ∀ (params : List Source.Binder) (registers : List Temp) (place index : Nat) (frame : Frame)
      (supply : Supply), frame.wordSize = conv.wordSize →
      registers.length = conv.arguments.length - place → ∃ kept,
      (Frame.addFormals conv (params.map Source.Binder.escapes) registers index frame
        supply).1.formals = frame.formals ++ kept ∧ kept.length = params.length ∧
      Lodged conv owner (paramResidences owner place params kept) frame
        (Frame.addFormals conv (params.map Source.Binder.escapes) registers index frame supply).1
  | [], _, _, _, frame, _, _, _ =>
    ⟨[], (List.append_nil _).symm, rfl, lodged_nil conv owner frame⟩
  | param :: params, reg :: registers, place, index, frame, supply, size, left => by
    obtain ⟨kept, formals, length, lodged⟩ := addFormals_lodged owner params registers (place + 1)
      index (frame.addRegisterFormal reg param.escapes supply).1
      (frame.addRegisterFormal reg param.escapes supply).2
      ((Frame.allocate_wordSize frame param.escapes supply).trans size)
      (by rw [List.length_cons] at left; omega)
    refine ⟨(frame.allocate param.escapes supply).1.1 :: kept, ?_, congrArg (· + 1) length, ?_⟩
    · refine formals.trans ?_
      rw [Frame.addRegisterFormal_formals, List.append_assoc, List.singleton_append]
    · have free : Introduction.onStack conv.arguments.length
          { owner, position := some place, binder := param } = false := by
        have registered : ¬ conv.arguments.length ≤ place := by
          rw [List.length_cons] at left
          omega
        simp [Introduction.onStack, registered]
      exact lodged.cons size rfl free supply rfl
  | param :: params, [], place, index, frame, supply, size, left => by
    obtain ⟨kept, formals, length, lodged⟩ := addFormals_lodged owner params [] (place + 1)
      (index + 1) (frame.addStackFormal (conv.formalOffset index)) supply size
      (by rw [List.length_nil] at left ⊢; omega)
    refine ⟨.inFrame (conv.formalOffset index) :: kept, ?_, congrArg (· + 1) length, ?_⟩
    · exact formals.trans (List.append_assoc _ [_] _)
    · have beyond : Introduction.onStack conv.arguments.length
          { owner, position := some place, binder := param } = true := by
        have past : conv.arguments.length ≤ place := by
          rw [List.length_nil] at left
          omega
        simp [Introduction.onStack, past]
      obtain ⟨⟨count, total, places⟩, temps⟩ := lodged
      refine ⟨⟨count, total, ?_⟩, List.forall_mem_cons.mpr ⟨?_, temps⟩⟩
      · refine Eq.trans ?_ places
        rw [paramResidences, List.filter_cons_of_neg]
        simp [Residence.fills, Introduction.inSlot, beyond]
      · intro wanted
        simp [Introduction.inTemp, beyond] at wanted

/-- Variables of one function were stored, while the frames of others stayed as they are. -/
theorem Lodged.stored {frame frame' : Frame} (lodged : Lodged conv own homes frame frame')
    (owners : ∀ home ∈ homes, home.entry.owner = own) (sized : Sized conv t.levels)
    (before : slotsAt s.levels own = frame.slots)
    (after : ∀ level, slotsAt t.levels level =
      if own = level then frame'.slots else slotsAt s.levels level)
    (issued : Temp.Issued s.supply.temps t.supply.temps (tempsOf (homes.map Residence.access)))
    (grown : Outlasts s.levels t.levels) (formals : OnFormals t.levels homes) :
    Stored conv s t homes := by
  refine ⟨sized, grown, ?_, issued, lodged.temps, formals⟩
  intro level
  rw [after level]
  by_cases same : own = level
  · subst same
    obtain ⟨count, total, places⟩ := lodged.slots
    rw [if_pos rfl, before]
    exact ⟨count, total, .of_eq places⟩
  · rw [if_neg same]
    refine ⟨0, rfl, .of_eq (congrArg (List.map _) (List.filter_eq_nil_iff.mpr ?_))⟩
    intro home member
    simp [Residence.fills, owners home member, same]

/-- A variable that is declared in `level` gets storage there. -/
theorem stored_allocate {binder : Source.Binder} {access : Access}
    (ran : allocateVariable level binder.escapes s = .ok access t) (sized : Sized conv s.levels) :
    Stored conv s t [⟨{ owner := level, binder }, access⟩] := by
  have extended : Extends conv s t := (extending_allocateVariable level _).ok ran
  have grown := extended.steps.outlasts
  obtain ⟨info, known, rfl, rfl⟩ := allocateVariable_ok.mp ran
  have size := sized info (List.mem_of_getElem? known)
  refine ((lodged_nil conv level _).cons size rfl rfl s.supply rfl).stored ?_ ?_
    (slotsAt_known known) ?_ (Frame.issued_allocate info.frame binder.escapes s.supply) grown ?_
  · exact List.forall_mem_singleton.mpr rfl
  · intro held member
    rcases List.mem_or_eq_of_mem_set member with old | rfl
    · exact sized held old
    · exact (Frame.allocate_wordSize info.frame binder.escapes s.supply).trans size
  · exact slotsAt_set (List.getElem?_eq_some_iff.mp known).1
  · exact List.forall_mem_singleton.mpr fun place parameter => by cases parameter

end Frames

section Parameters

variable {params : List Source.Binder} {formals : List Access}

theorem owner_paramResidences (owner : Level) :
    ∀ (place : Nat) (params : List Source.Binder) (formals : List Access),
      ∀ home ∈ paramResidences owner place params formals, home.entry.owner = owner
  | _, [], _ => List.forall_mem_nil _
  | _, _ :: _, [] => List.forall_mem_nil _
  | place, _ :: params, _ :: formals => List.forall_mem_cons.mpr
    ⟨rfl, owner_paramResidences owner (place + 1) params formals⟩

/-- Parameters use all the formals, in order. -/
theorem access_paramResidences (owner : Level) :
    ∀ (place : Nat) (params : List Source.Binder) (formals : List Access),
      formals.length = params.length →
      (paramResidences owner place params formals).map Residence.access = formals
  | _, [], [], _ => rfl
  | place, _ :: params, access :: formals, length =>
    congrArg (access :: ·)
      (access_paramResidences owner (place + 1) params formals (Nat.succ.inj length))

/-- The variables are the parameters, in order. -/
theorem entry_paramResidences (owner : Level) :
    ∀ (place : Nat) (params : List Source.Binder) (formals : List Access),
      formals.length = params.length →
      (paramResidences owner place params formals).map Residence.entry =
        parameters owner place params
  | _, [], [], _ => rfl
  | place, _ :: params, _ :: formals, length =>
    congrArg (_ :: ·)
      (entry_paramResidences owner (place + 1) params formals (Nat.succ.inj length))

/-- Parameters from the one at `start` on live in the storage of the formals at their places. -/
theorem formals_paramResidences (owner : Level) :
    ∀ (start : Nat) (params : List Source.Binder) (formals : List Access),
      ∀ home ∈ paramResidences owner start params formals,
        ∃ k, home.entry.position = some (start + k) ∧ formals[k]? = some home.access
  | _, [], _ => List.forall_mem_nil _
  | _, _ :: _, [] => List.forall_mem_nil _
  | start, _ :: params, _ :: formals => by
    refine List.forall_mem_cons.mpr ⟨⟨0, rfl, rfl⟩, fun home member => ?_⟩
    obtain ⟨k, position, found⟩ :=
      formals_paramResidences owner (start + 1) params formals home member
    exact ⟨k + 1, by rw [position, Nat.add_assoc, Nat.add_comm 1 k], found⟩

/-- Parameters that are bound to the formals of their level are where its formals are. -/
theorem onFormals_paramResidences {params : List Source.Binder} :
    OnFormals infos (paramResidences own 0 params (formalsAt infos own)) := by
  intro home member place parameter
  obtain ⟨k, position, found⟩ := formals_paramResidences own 0 params _ home member
  rw [owner_paramResidences own 0 params _ home member]
  rw [position, Nat.zero_add] at parameter
  cases parameter
  exact found

theorem outlasts_concat (infos : List LevelInfo) (info : LevelInfo) :
    Outlasts infos (infos ++ [info]) := by
  intro level held known
  have inside := (List.getElem?_eq_some_iff.mp known).1
  exact ⟨held, (List.getElem?_append_left inside).trans known, Kept.refl held⟩

/-- A frame has a formal for each parameter after the static link, stored as the flags say. -/
theorem frameFor_lodged {name : Label} {supply supply' : Supply} {frame : Frame}
    (owner : Level)
    (made : conv.frameFor name (true :: params.map Source.Binder.escapes) supply =
      .ok frame supply') :
    frame.formals.tail.length = params.length ∧
      Lodged conv owner (paramResidences owner 0 params frame.formals.tail)
        { name, wordSize := conv.wordSize } frame := by
  let first : Frame := { name, wordSize := conv.wordSize }
  obtain ⟨kept, formals, length, lodged⟩ := addFormals_lodged owner params conv.arguments 0 1
    (first.addStackFormal (conv.formalOffset 0)) supply rfl rfl
  rw [Convention.frameFor_ok made] at formals lodged
  rw [formals]
  exact ⟨length, lodged.slots, lodged.temps⟩

/-- The parameters of a function get storage when it is given a level. -/
theorem stored_openLevel {name : Label}
    (ran : openLevel conv level name (params.map Source.Binder.escapes) s = .ok own t)
    (sized : Sized conv s.levels) :
    own < t.levels.length ∧ (formalsAt t.levels own).length = params.length ∧
      Stored conv s t (paramResidences own 0 params (formalsAt t.levels own)) := by
  obtain ⟨-, rfl, frame, supply, made, rfl⟩ := openLevel_ok.mp ran
  obtain ⟨length, lodged⟩ := frameFor_lodged s.levels.length made
  have none : slotsAt s.levels s.levels.length = 0 := by
    rw [slotsAt, List.getElem?_eq_none (Nat.le_refl _)]
  have formals : formalsAt (s.opened level frame supply).levels s.levels.length =
      frame.formals.tail := formalsAt_known List.getElem?_concat_length
  have placed : OnFormals (s.opened level frame supply).levels
      (paramResidences s.levels.length 0 params frame.formals.tail) :=
    formals ▸ onFormals_paramResidences
  rw [formals]
  refine ⟨?_, length, lodged.stored (owner_paramResidences _ _ _ _) ?_ none ?_ ?_
    (outlasts_concat _ _) placed⟩
  · change _ < (s.levels ++ [_]).length
    rw [List.length_append]
    exact Nat.lt_succ_self _
  · intro info member
    rcases List.mem_append.mp member with old | new
    · exact sized info old
    · rw [List.mem_singleton.mp new]
      exact (Frame.layout_frameFor made).wordSize
  · intro level'
    refine (slotsAt_concat s.levels _ level').trans ?_
    by_cases here : s.levels.length = level'
    · rw [if_pos here, if_pos here, ← here, none, Nat.zero_add]
    · rw [if_neg here, if_neg here]
      rfl
  · rw [access_paramResidences _ _ _ _ length]
    refine (Frame.issued_frameFor made).sublist (List.Sublist.filterMap _ ?_)
    exact List.tail_sublist _

/-- The parameters of the functions of a group, whose levels are given. -/
def groupResidences (infos : List LevelInfo) : List Level → List Source.FunDec → List Residence
  | own :: levels, f :: group =>
    paramResidences own 0 f.params (formalsAt infos own) ++ groupResidences infos levels group
  | _, _ => []

/-- The levels are there for the functions of a group, each with a formal for each parameter. -/
def Ready (infos : List LevelInfo) : List Level → List Source.FunDec → Prop :=
  List.Forall₂ fun own f =>
    own < infos.length ∧ (formalsAt infos own).length = f.params.length

/-- A group stays ready while bodies are lowered. -/
theorem Ready.outlast {levels : List Level} {group : List Source.FunDec}
    (ready : Ready infos levels group) (grown : Outlasts infos infos')
    (longer : infos.length ≤ infos'.length) :
    Ready infos' levels group ∧
      groupResidences infos' levels group = groupResidences infos levels group := by
  induction ready with
  | nil => exact ⟨.nil, rfl⟩
  | @cons own f levels group here _ carried =>
    obtain ⟨ready, same⟩ := carried
    have formals := formalsAt_outlast grown here.1
    refine ⟨.cons ⟨Nat.lt_of_lt_of_le here.1 longer, ?_⟩ ready, ?_⟩
    · rw [formals]
      exact here.2
    · rw [groupResidences, groupResidences, formals, same]

/-- The functions of a group are ready for their bodies once they are declared. -/
theorem declareFunctions_stored :
    ∀ (group : List Source.FunDec) {levels : List Level} {s t : Lowering},
      declareFunctions conv level group s = .ok levels t → Sized conv s.levels →
      Ready t.levels levels group ∧ Stored conv s t (groupResidences t.levels levels group)
  | [], _, _, _, ran, sized => by
    obtain ⟨rfl, rfl⟩ := declareFunctions_nil ran
    exact ⟨.nil, stored_nothing sized⟩
  | ⟨name, params, result, body⟩ :: group, _, _, t, ran, sized => by
    obtain ⟨own, u, rest, opened, declared, rfl⟩ := declareFunctions_cons ran
    obtain ⟨known, length, first⟩ := stored_openLevel opened sized
    obtain ⟨ready, others⟩ := declareFunctions_stored group declared first.sized
    have steps := ((extendingInner_declareFunctions level group).ok declared).steps
    have formals : formalsAt t.levels own = formalsAt u.levels own :=
      formalsAt_outlast steps.outlasts known
    rw [← formals] at length first
    refine ⟨.cons ⟨Nat.lt_of_lt_of_le known steps.levels_le, length⟩ ready, ?_⟩
    exact first.quiet.append others.quiet

end Parameters

section Homed

/-- On the way from `s` to `t` lowering has stored the variables that a part of a program
introduces, whose outline is given. Functions are numbered from the first level that was free. -/
structure Homed (conv : Convention) (s t : Lowering) (make : Nat → Outline)
    (vars : Nat → List Introduction) (homes : List Residence) : Prop where
  count : t.levels.length = s.levels.length + (make s.levels.length).functions.length
  entries : homes.map Residence.entry = vars s.levels.length
  stored : Stored conv s t homes

theorem homed_nothing (sized : Sized conv s.levels) :
    Homed conv s s nothing noVariables [] :=
  ⟨rfl, rfl, stored_nothing sized⟩

theorem Homed.quiet (homed : Homed conv s' t' make vars homes)
    (levels : s.levels = s'.levels := by rfl) (levelsAfter : t.levels = t'.levels := by rfl)
    (before : s.supply.temps ≤ s'.supply.temps := by exact Nat.le_refl _)
    (after : t'.supply.temps ≤ t.supply.temps := by exact Nat.le_refl _) :
    Homed conv s t make vars homes := by
  obtain ⟨count, entries, stored⟩ := homed
  have moved := stored.quiet levels levelsAfter before after
  rw [← levels, ← levelsAfter] at count
  rw [← levels] at entries
  exact ⟨count, entries, moved⟩

/-- One part after another. In between, the frames do not change. -/
theorem Homed.andThen (one : Homed conv s t make vars homes)
    (two : Homed conv t' u make' vars' homes') (levels : t.levels = t'.levels := by rfl)
    (later : t.supply.temps ≤ t'.supply.temps := by exact Nat.le_refl _) :
    Homed conv s u (andThen make make') (follow make vars vars') (homes ++ homes') := by
  obtain ⟨count, entries, stored⟩ := two.quiet levels rfl later
  rw [one.count] at count entries
  refine ⟨?_, ?_, one.stored.append stored⟩
  · rw [count, Outline.andThen, Outline.functions_append, List.length_append, Nat.add_assoc]
  · rw [List.map_append, one.entries, entries]
    rfl

/-- A variable is declared after some part. -/
theorem Homed.allocate {binder : Source.Binder} {access : Access}
    (homed : Homed conv s t make vars homes)
    (ran : allocateVariable level binder.escapes t = .ok access u) :
    Homed conv s u make (fun n => vars n ++ single level binder n)
      (homes ++ [⟨{ owner := level, binder }, access⟩]) := by
  refine ⟨?_, ?_, homed.stored.append (stored_allocate ran homed.stored.sized)⟩
  · obtain ⟨info, _, _, rfl⟩ := allocateVariable_ok.mp ran
    exact List.length_set.trans homed.count
  · rw [List.map_append, homed.entries]
    rfl

/-- The body of a function ends. -/
theorem Homed.finish {body : Tree.Stm} (homed : Homed conv s t make vars homes)
    (ran : finishProc conv own body t = .ok () u) :
    Homed conv s u (Outline.andThen make (finish own)) vars homes := by
  obtain ⟨info, _, rfl⟩ := finishProc_ok.mp ran
  obtain ⟨count, entries, stored⟩ := homed
  refine ⟨?_, entries, stored.quiet rfl rfl (Nat.le_refl _)
    (grows_wrapBody conv info.frame body t.supply).1⟩
  rw [Outline.andThen, Outline.functions_append]
  exact count.trans (by simp [Source.Outline.finish])

/-- The value of an expression needs no further storage. -/
theorem homed_value {exp : Source.Exp} {value : Tree.Exp}
    (inner : ∀ {out : Lowered} {t : Lowering}, lowerExp conv level exp s = .ok out t →
      Homed conv s t make vars homes)
    (ran : lowerValue conv level exp s = .ok value t) : Homed conv s t make vars homes := by
  obtain ⟨lowered, u, first, rfl, rfl⟩ := lowerValue_ok.mp ran
  exact (inner first).quiet rfl rfl (Nat.le_refl _) (grows_asValue lowered u.supply).1

/-- The effect of an expression needs no further storage. -/
theorem homed_effect {exp : Source.Exp} {stm : Tree.Stm}
    (inner : ∀ {out : Lowered} {t : Lowering}, lowerExp conv level exp s = .ok out t →
      Homed conv s t make vars homes)
    (ran : lowerEffect conv level exp s = .ok stm t) : Homed conv s t make vars homes := by
  obtain ⟨lowered, u, first, rfl, rfl⟩ := lowerEffect_ok.mp ran
  exact (inner first).quiet rfl rfl (Nat.le_refl _) (grows_asEffect lowered u.supply).1

/-- A joined conditional needs no further storage. -/
theorem homed_joinBranches {test yes no out : Lowered} {yesLabel noLabel join : Label}
    (homed : Homed conv s t make vars homes)
    (ran : joinBranches test yes no yesLabel noLabel join t = .ok out u) :
    Homed conv s u make vars homes := by
  rcases joinBranches_ok ran with ⟨_, _, _, _, _, _, rfl, _⟩ | ⟨_, _, rfl, _, _, rfl, _⟩
  · exact homed
  · refine homed.quiet rfl rfl (Nat.le_refl _) ?_
    have valued := (grows_asValue yes (t.draw freshTemp).supply).1
    have joined := (grows_asValue no ((t.draw freshTemp).draw yes.asValue).supply).1
    exact Nat.le_trans (Nat.le_succ _) (Nat.le_trans valued joined)

end Homed

/-- On the way from `s` to `t` lowering has stored the variables of the bodies of some functions.
Their parameters were stored before. -/
structure Embodied (conv : Convention) (s t : Lowering) (params : List Residence)
    (make : Nat → Outline) (vars : Nat → List Introduction) (homes : List Residence) : Prop where
  count : t.levels.length = s.levels.length + (make s.levels.length).functions.length
  entries : homes.map Residence.entry = vars s.levels.length
  stored : ∃ bodies, homes.Perm (params ++ bodies) ∧ Stored conv s t bodies

section Embodied

variable {params params' : List Residence} {group : List Source.FunDec}

/-- The parameters and the body of one function, and then those of others. -/
theorem Embodied.cons {entries : List Introduction} (named : params.map Residence.entry = entries)
    (body : Homed conv s t make vars homes)
    (rest : Embodied conv t u params' make' vars' homes') :
    Embodied conv s u (params ++ params') (andThen make make')
      (follow make (fun n => entries ++ vars n) vars') (params ++ (homes ++ homes')) := by
  obtain ⟨count, others, bodies, same, stored⟩ := rest
  rw [body.count] at count others
  refine ⟨?_, ?_, homes ++ bodies, ?_, body.stored.append stored⟩
  · rw [count, Outline.andThen, Outline.functions_append, List.length_append, Nat.add_assoc]
  · rw [List.map_append, List.map_append, named, body.entries, others, ← List.append_assoc]
    rfl
  · rw [List.append_assoc]
    refine .append_left params ((same.append_left homes).trans ?_)
    rw [← List.append_assoc, ← List.append_assoc]
    exact .append_right bodies List.perm_append_comm

/-- The functions of a group, with the storage that their parameters got when they were
declared. -/
theorem Embodied.declared {around : List Nat}
    (embodied : Embodied conv t u params
      (Source.FunDec.outlineList around s.levels.length group)
      (Source.FunDec.introductionsList around s.levels.length group) homes)
    (stored : Stored conv s t params)
    (count : t.levels.length =
      s.levels.length + (Outline.group around s.levels.length group).length) :
    Homed conv s u
      (fun n => { functions := Outline.group around n group } ++
        Source.FunDec.outlineList around n group (n + group.length))
      (fun n => Source.FunDec.introductionsList around n group (n + group.length)) homes := by
  obtain ⟨total, entries, bodies, same, later⟩ := embodied
  rw [Outline.length_group] at count
  rw [count] at total entries
  refine ⟨?_, entries, (stored.append later).perm same.symm⟩
  rw [total, Outline.functions_append, List.length_append, Outline.length_group, Nat.add_assoc]

end Embodied

mutual
/-- The variables that are introduced inside subscripts. -/
theorem lowerVar_homed {level : Level} (outer : List Nat) :
    ∀ (var : Source.Var) {s t : Lowering} {tree : Tree.Exp},
      lowerVar conv level var s = .ok tree t → Sized conv s.levels →
      Homed conv s t (var.outline (level :: outer)) (var.introductions level outer)
        (collecting.visitVar conv level var s)
  | .simple name pos, _, _, _, ran, sized => by
    obtain ⟨declared, access, fp, _, _, rfl, rfl⟩ := lowerVar_simple.mp ran
    exact homed_nothing sized
  | .field record name slot pos, _, _, _, ran, sized => by
    obtain ⟨index, base, _, inner, rfl⟩ := lowerVar_field ran
    exact lowerVar_homed outer record inner sized
  | .subscript array index, _, _, _, ran, sized => by
    obtain ⟨base, t, offset, first, second, rfl⟩ := lowerVar_subscript ran
    rw [Visitor.visitVar, Visitor.later_ok _ first]
    have one := lowerVar_homed outer array first sized
    exact one.andThen
      (homed_value (lowerExp_homed outer index one.stored.sized) second)
/-- Lowering an expression stores the variables that it introduces. -/
theorem lowerExp_homed {level : Level} (outer : List Nat) :
    ∀ (exp : Source.Exp) {s t : Lowering} {out : Lowered}, Sized conv s.levels →
      lowerExp conv level exp s = .ok out t →
      Homed conv s t (exp.outline (level :: outer)) (exp.introductions level outer)
        (collecting.visit conv level exp s)
  | .nil, _, _, _, sized, ran => by
    obtain ⟨rfl, rfl⟩ := lowerExp_nil ran
    exact homed_nothing sized
  | .int value, _, _, _, sized, ran => by
    obtain ⟨rfl, rfl⟩ := lowerExp_int ran
    exact homed_nothing sized
  | .string text, _, _, _, sized, ran => by
    obtain ⟨rfl, rfl⟩ := lowerExp_string ran
    exact ⟨rfl, rfl, (stored_nothing sized).quiet⟩
  | .breakLoop pos, _, _, _, sized, ran => by
    obtain ⟨exit, _, rfl, rfl⟩ := lowerExp_breakLoop ran
    exact homed_nothing sized
  | .var var, _, _, _, sized, ran => by
    obtain ⟨tree, inner, rfl⟩ := lowerExp_var ran
    exact lowerVar_homed outer var inner sized
  | .call func args pos, _, _, _, sized, ran => by
    obtain ⟨callee, values, _, inner, rfl⟩ := lowerExp_call ran
    exact lowerArgs_homed outer args sized inner
  | .op oper left right strings, _, _, _, sized, ran => by
    obtain ⟨a, t, b, first, second, rfl⟩ := lowerExp_op ran
    rw [Visitor.visit, Visitor.later_ok _ first]
    have one := homed_value (lowerExp_homed outer left sized) first
    exact one.andThen (homed_value (lowerExp_homed outer right one.stored.sized) second)
  | .record type fields, s, _, _, sized, ran => by
    obtain ⟨stores, inner, rfl⟩ := lowerExp_record ran
    have fresh : Sized conv (s.draw freshTemp).levels := sized
    exact (lowerFields_homed outer fields fresh inner).quiet rfl rfl (Nat.le_succ _)
  | .seq exps, _, _, _, sized, ran => by
    obtain ⟨stms, last, t, inner, rfl, rfl⟩ := lowerExp_seq ran
    exact (lowerSeq_homed outer exps sized inner).quiet rfl rfl (Nat.le_refl _)
      (grows_after stms last t.supply).1
  | .assign var value, _, _, _, sized, ran => by
    obtain ⟨dst, t, src, first, second, rfl⟩ := lowerExp_assign ran
    rw [Visitor.visit, Visitor.later_ok _ first]
    have one := lowerVar_homed outer var first sized
    exact one.andThen (homed_value (lowerExp_homed outer value one.stored.sized) second)
  | .ifThen test yes, _, _, _, sized, ran => by
    obtain ⟨a, t, b, u, branch, first, second, _, rfl, rfl⟩ := lowerExp_ifThen ran
    rw [Visitor.visit, Visitor.later_ok _ first]
    have one := lowerExp_homed outer test sized first
    exact (one.andThen (lowerExp_homed outer yes one.stored.sized second)).quiet rfl rfl
      (Nat.le_refl _) (grows_asEffect b u.label.label.supply).1
  | .ifElse test yes no, _, _, _, sized, ran => by
    obtain ⟨a, t, b, u, c, v, first, second, third, joined⟩ := lowerExp_ifElse ran
    rw [Visitor.visit, Visitor.later_ok _ first, Visitor.later_ok _ second]
    have one := lowerExp_homed outer test sized first
    have two := lowerExp_homed outer yes one.stored.sized second
    have apart : Sized conv u.label.label.levels := two.stored.sized
    have branches := two.andThen (lowerExp_homed outer no apart third)
    have all : Homed conv _ v.label _ _ _ := (one.andThen branches).quiet
    exact homed_joinBranches all joined
  | .whileDo test body, s, _, _, sized, ran => by
    obtain ⟨a, t, b, u, branch, first, second, _, rfl, rfl⟩ := lowerExp_whileDo ran
    obtain ⟨v, inner, rfl⟩ := inLoop_ok.mp second
    rw [Visitor.visit, Visitor.later_ok _ first]
    have labelled : Sized conv s.label.label.label.levels := sized
    have one := lowerExp_homed outer test labelled first
    have looping : Sized conv (t.withExits (s.label.label.nextLabel :: t.exits)).levels :=
      one.stored.sized
    exact (one.andThen (lowerExp_homed outer body looping inner)).quiet rfl rfl (Nat.le_refl _)
      (grows_asEffect b v.supply).1
  | .forTo var lo hi body, _, _, _, sized, ran => by
    obtain ⟨a, t, b, u, access, v, c, w, _, first, second, stored, looped, rfl, rfl, rfl⟩ :=
      lowerExp_forTo ran
    obtain ⟨x, inner, rfl⟩ := inLoop_ok.mp looped
    have home : collecting.introduced [{ owner := level, binder := var }]
        (v.looped.enter.bound var.name (.variable level access)) =
          [⟨{ owner := level, binder := var }, access⟩] :=
      boundHomes_bound (List.cons_ne_nil _ _) { owner := level, binder := var } access
    rw [Visitor.visit, Visitor.later_ok _ first, Visitor.later_ok _ second,
      Visitor.later_ok _ stored, home]
    have one := homed_value (lowerExp_homed outer lo sized) first
    have two := (homed_value (lowerExp_homed outer hi one.stored.sized) second).allocate stored
    have inside : Sized conv ((v.looped.enter.bound var.name (.variable level access)).withExits
        ((v.draw freshTemp).label.label.nextLabel :: v.exits)).levels := two.stored.sized
    have rest := two.andThen (lowerExp_homed outer body inside inner) rfl (Nat.le_succ _)
    rw [List.append_assoc] at rest
    exact (one.andThen rest).quiet rfl rfl (Nat.le_refl _) (grows_asEffect c x.supply).1
  | .letIn decs body, s, _, _, sized, ran => by
    obtain ⟨stms, t, b, u, first, second, rfl, rfl⟩ := lowerExp_letIn ran
    rw [Visitor.visit, Visitor.later_ok _ first]
    have entered : Sized conv s.enter.levels := sized
    have one := lowerDecs_homed outer decs entered (List.cons_ne_nil _ _) first
    exact (one.andThen (lowerExp_homed outer body one.stored.sized second)).quiet rfl rfl
      (Nat.le_refl _) (grows_after stms b u.supply).1
  | .array type size init, _, _, _, sized, ran => by
    obtain ⟨a, t, b, first, second, rfl⟩ := lowerExp_array ran
    rw [Visitor.visit, Visitor.later_ok _ first]
    have one := homed_value (lowerExp_homed outer size sized) first
    exact one.andThen (homed_value (lowerExp_homed outer init one.stored.sized) second)
/-- The arguments of a call, in order. -/
theorem lowerArgs_homed {level : Level} (outer : List Nat) :
    ∀ (args : List Source.Exp) {s t : Lowering} {values : List Tree.Exp},
      Sized conv s.levels → lowerArgs conv level args s = .ok values t →
      Homed conv s t (Source.Exp.outlineList (level :: outer) args)
        (Source.Exp.introductionsList level outer args) (collecting.visitArgs conv level args s)
  | [], _, _, _, sized, ran => by
    obtain ⟨rfl, rfl⟩ := lowerArgs_nil ran
    exact homed_nothing sized
  | arg :: args, _, _, _, sized, ran => by
    obtain ⟨value, t, rest, first, second, rfl⟩ := lowerArgs_cons ran
    rw [Visitor.visitArgs, Visitor.later_ok _ first]
    have one := homed_value (lowerExp_homed outer arg sized) first
    exact one.andThen (lowerArgs_homed outer args one.stored.sized second)
/-- The values of record fields, in order. -/
theorem lowerFields_homed {level : Level} (outer : List Nat) {r : Temp} {slot : Nat} :
    ∀ (fields : List Source.Field) {s t : Lowering} {stores : List Tree.Stm},
      Sized conv s.levels → lowerFields conv level r slot fields s = .ok stores t →
      Homed conv s t (Source.Field.outlineList (level :: outer) fields)
        (Source.Field.introductionsList level outer fields)
        (collecting.visitFields conv level fields s)
  | [], _, _, _, sized, ran => by
    obtain ⟨rfl, rfl⟩ := lowerFields_nil ran
    exact homed_nothing sized
  | ⟨name, exp⟩ :: fields, _, _, _, sized, ran => by
    obtain ⟨value, t, rest, first, second, rfl⟩ := lowerFields_cons ran
    rw [Visitor.visitFields, Visitor.later_ok _ first]
    have one := homed_value (lowerExp_homed outer exp sized) first
    exact one.andThen (lowerFields_homed outer fields one.stored.sized second)
/-- The parts of a sequence, in order. -/
theorem lowerSeq_homed {level : Level} (outer : List Nat) :
    ∀ (exps : List Source.Exp) {s t : Lowering} {code : List Tree.Stm × Lowered},
      Sized conv s.levels → lowerSeq conv level exps s = .ok code t →
      Homed conv s t (Source.Exp.outlineList (level :: outer) exps)
        (Source.Exp.introductionsList level outer exps) (collecting.visitSeq conv level exps s)
  | [], _, _, _, sized, ran => by
    obtain ⟨_, rfl⟩ := lowerSeq_nil ran
    exact homed_nothing sized
  | [exp], _, _, _, sized, ran => by
    obtain ⟨_, inner, _⟩ := lowerSeq_single ran
    rw [Visitor.visitSeq, Visitor.later_ok _ (lowerEffect_ok.mpr ⟨_, _, inner, rfl, rfl⟩)]
    have one := lowerExp_homed outer exp sized inner
    exact one.andThen (homed_nothing one.stored.sized)
  | exp :: next :: exps, _, _, _, sized, ran => by
    obtain ⟨stm, t, rest, _, first, second, _⟩ := lowerSeq_cons ran
    rw [Visitor.visitSeq, Visitor.later_ok _ first]
    have one := homed_effect (lowerExp_homed outer exp sized) first
    exact one.andThen (lowerSeq_homed outer (next :: exps) one.stored.sized second)
/-- Declared variables, and those of the functions of a group, whose parameters are stored first. -/
theorem lowerDecs_homed {level : Level} (outer : List Nat) :
    ∀ (decs : List Source.Dec) {s t : Lowering} {stms : List Tree.Stm},
      Sized conv s.levels → s.scopes ≠ [] → lowerDecs conv level decs s = .ok stms t →
      Homed conv s t (Source.Dec.outlineList (level :: outer) decs)
        (Source.Dec.introductionsList level outer decs) (collecting.visitDecs conv level decs s)
  | [], _, _, _, sized, _, ran => by
    obtain ⟨rfl, rfl⟩ := lowerDecs_nil ran
    exact homed_nothing sized
  | .var binder init :: decs, _, _, _, sized, someScope, ran => by
    obtain ⟨value, t, access, u, rest, first, stored, second, rfl⟩ := lowerDecs_var ran
    have valued : Extends conv _ t := (lowerValue_extends level init).ok first
    have extended : Extends conv t u := (extending_allocateVariable level _).ok stored
    have someScope' : u.scopes ≠ [] := by
      rw [extended.scopes, valued.scopes]
      exact someScope
    have home : collecting.introduced [{ owner := level, binder }]
        (u.bound binder.name (.variable level access)) = [⟨{ owner := level, binder }, access⟩] :=
      boundHomes_bound someScope' { owner := level, binder } access
    rw [Visitor.visitDecs, Visitor.later_ok _ first, Visitor.later_ok _ stored, home]
    have one := (homed_value (lowerExp_homed outer init sized) first).allocate stored
    have named : Sized conv (u.bound binder.name (.variable level access)).levels :=
      one.stored.sized
    have all := one.andThen
      (lowerDecs_homed outer decs named (scopes_bound _ _ someScope') second)
    rw [List.append_assoc] at all
    exact all
  | .type name definition :: decs, _, _, _, sized, someScope, ran => by
    rw [Visitor.visitDecs]
    exact (homed_nothing sized).andThen
      (lowerDecs_homed outer decs sized someScope (lowerDecs_type ran))
  | .functions group :: decs, s, _, _, sized, someScope, ran => by
    obtain ⟨levels, t, u, declared, bodies, rest⟩ := lowerDecs_functions ran
    rw [Visitor.visitDecs, Visitor.later_ok _ declared, Visitor.later_ok _ bodies]
    have here : (level :: outer).head? = some level := rfl
    obtain ⟨rfl, headers⟩ := declareFunctions_outlined here group declared
    obtain ⟨ready, params⟩ := declareFunctions_stored group declared sized
    have functions := (lowerBodies_embodied (level :: outer) group params.sized ready
      bodies).declared params headers.count
    obtain ⟨_, names⟩ := ((extendingInner_declareFunctions level group).ok declared).names
    have someScope' : u.scopes ≠ [] := by
      rw [((lowerBodies_extends _ group).ok bodies).scopes, names]
      exact addNames_ne_nil _ someScope
    exact functions.andThen (lowerDecs_homed outer decs functions.stored.sized someScope' rest)
/-- The bodies of functions. Their parameters have storage already; here they are bound to it. -/
theorem lowerBodies_embodied (around : List Nat) {number : Nat} :
    ∀ (group : List Source.FunDec) {s t : Lowering}, Sized conv s.levels →
      Ready s.levels (List.range' number group.length) group →
      lowerBodies conv (List.range' number group.length) group s = .ok () t →
      Embodied conv s t (groupResidences s.levels (List.range' number group.length) group)
        (Source.FunDec.outlineList around number group)
        (Source.FunDec.introductionsList around number group)
        (collecting.visitBodies conv (List.range' number group.length) group s)
  | [], _, _, sized, _, ran => by
    obtain rfl := lowerBodies_nil ran
    exact ⟨rfl, rfl, [], .nil, stored_nothing sized⟩
  | ⟨name, params, result, body⟩ :: group, s, _, sized, ready, ran => by
    rw [List.length_cons, List.range'_succ] at ran ready ⊢
    obtain ⟨info, t, lowered, u, _, w, known, bound, inner, rfl, finish, rest⟩ :=
      lowerBodies_cons ran
    obtain ⟨here, others⟩ := List.forall₂_cons.mp ready
    have homes : collecting.introduced (parameters number 0 params) t =
        paramResidences number 0 params info.frame.formals.tail :=
      boundHomes_bindParams bound (formalsAt_known known ▸ here.2)
    rw [Visitor.visitBodies, Visitor.later_ok _ (run_formalsOf known), Visitor.later_ok _ bound,
      Visitor.later_ok _ inner, Visitor.later_ok _ (run_fresh _ _), Visitor.later_ok _ finish,
      homes]
    obtain ⟨v, bodyRan, rfl⟩ := outsideLoops_ok.mp inner
    obtain ⟨supply, levels, -⟩ := bindParams_same params _ bound
    have sizedBody : Sized conv (t.withExits []).levels := by
      change Sized conv t.levels
      rw [levels]
      exact sized
    have bodyPart : Homed conv s
        ((v.withExits t.exits).leave.draw (bodyStm conv result lowered))
        (body.outline (number :: around)) (body.introductions number around)
        (collecting.visit conv number body (t.withExits [])) :=
      (lowerExp_homed around body sizedBody bodyRan).quiet levels.symm rfl
        (Nat.le_of_eq (congrArg Supply.temps supply.symm))
        (grows_bodyStm conv result lowered v.supply).1
    have finished := bodyPart.finish finish
    have steps := ((extends_body result bound inner).trans
      ((extending_finishProc number _).ok finish)).steps
    obtain ⟨ready, same⟩ := Ready.outlast others steps.outlasts steps.levels_le
    have later := lowerBodies_embodied around group finished.stored.sized ready rest
    rw [same] at later
    have named := entry_paramResidences number 0 params (formalsAt s.levels number) here.2
    have all := Embodied.cons named finished later
    rw [formalsAt_known known] at all
    rw [groupResidences, formalsAt_known known]
    exact all
end

section Programs

theorem slotsAt_start (conv : Convention) (entry : Label) (supply : Supply) (level : Level) :
    slotsAt (start conv entry supply).levels level = 0 := by
  cases level with
  | zero => rfl
  | succ level => rfl

/-- All words of a frame are in use. -/
theorem Stored.whole {entry : Label} {supply : Supply} {info : LevelInfo}
    (stored : Stored conv (start conv entry supply) t homes)
    (known : t.levels[level]? = some info) :
    ((homes.filter (Residence.fills conv level)).map Residence.access).Perm
      ((List.range info.frame.slots).map (slot conv)) := by
  obtain ⟨count, total, places⟩ := stored.slots level
  rw [slotsAt_known known, slotsAt_start, Nat.zero_add] at total
  rw [slotsAt_start, ← List.range_eq_range'] at places
  rw [total]
  exact places

/-- The size of a frame, counted in the program text. -/
theorem Stored.localBytes {entry : Label} {supply : Supply} {info : LevelInfo}
    (stored : Stored conv (start conv entry supply) t homes)
    (known : t.levels[level]? = some info) :
    info.frame.localBytes = conv.words ((homes.map Residence.entry).countP fun entry =>
      entry.owner == level && entry.inSlot conv.arguments.length) := by
  have counted := (stored.whole known).length_eq
  rw [List.length_map, List.length_map, List.length_range, ← List.countP_eq_length_filter]
    at counted
  rw [Frame.localBytes, stored.sized info (List.mem_of_getElem? known), ← counted,
    List.countP_map]
  rfl

end Programs

end TreeCode.Lowering
