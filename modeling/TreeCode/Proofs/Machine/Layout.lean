import Mathlib.Data.List.Nodup
import Mathlib.Data.List.Perm.Basic
import TreeCode.Proofs.Machine.Frames
import TreeCode.Proofs.Machine.Roles

/-!
The storage of variables. Frames are made and variables are allocated in them in any order, and
one supply serves them all. The words of a frame that are handed out below the frame pointer
follow one another, those above it hold what arrives on the stack, and the two never meet. The
temporaries are distinct, also between frames.
-/

namespace TreeCode

variable {conv : Convention} {frame : Frame} {locals : List Access} {supply supply' : Supply}

section Issued

variable {low middle high : Nat} {temps temps' : List Temp}

/-- Distinct temporaries that were issued while the next index went from `low` to `high`. -/
structure Temp.Issued (low high : Nat) (temps : List Temp) : Prop where
  grown : low ≤ high
  distinct : temps.Nodup
  between : ∀ t ∈ temps, t.Between low high

theorem Temp.issued_nil (grown : low ≤ high) : Temp.Issued low high [] := ⟨grown, .nil, by simp⟩

theorem Temp.issued_single (n : Nat) : Temp.Issued n (n + 1) [⟨n⟩] := by
  refine ⟨Nat.le_succ n, List.nodup_singleton _, ?_⟩
  intro t member
  rw [List.mem_singleton.mp member]
  exact ⟨Nat.le_refl n, Nat.lt_succ_self n⟩

/-- What two draws issue, one after the other. -/
theorem Temp.Issued.append (first : Temp.Issued low middle temps)
    (second : Temp.Issued middle high temps') : Temp.Issued low high (temps ++ temps') := by
  refine ⟨Nat.le_trans first.grown second.grown, ?_, ?_⟩
  · refine List.nodup_append'.mpr ⟨first.distinct, second.distinct, ?_⟩
    intro t early late
    exact absurd (first.between t early).2 (Nat.not_lt_of_le (second.between t late).1)
  · intro t member
    rcases List.mem_append.mp member with early | late
    · exact (first.between t early).widen (Nat.le_refl _) second.grown
    · exact (second.between t late).widen first.grown (Nat.le_refl _)

theorem Temp.Issued.perm (issued : Temp.Issued low high temps) (same : temps.Perm temps') :
    Temp.Issued low high temps' :=
  ⟨issued.grown, same.nodup_iff.mp issued.distinct,
    fun t member => issued.between t (same.mem_iff.mpr member)⟩

theorem Temp.Issued.sublist (issued : Temp.Issued low high temps) (some : temps'.Sublist temps) :
    Temp.Issued low high temps' :=
  ⟨issued.grown, issued.distinct.sublist some,
    fun t member => issued.between t (some.subset member)⟩

theorem Temp.Issued.later (issued : Temp.Issued low middle temps) (le : middle ≤ high) :
    Temp.Issued low high temps :=
  ⟨Nat.le_trans issued.grown le, issued.distinct,
    fun t member => (issued.between t member).widen (Nat.le_refl _) le⟩

end Issued

/-- The distance from the frame pointer of a variable in memory. -/
def Access.offset : Access → Option Int
  | .inFrame offset => some offset
  | .inReg _ => none

/-- The temporary of a variable that is not in memory. -/
def Access.temp : Access → Option Temp
  | .inFrame _ => none
  | .inReg t => some t

/-- The words of a frame that variables live in. -/
def offsetsOf (places : List Access) : List Int := places.filterMap Access.offset

/-- The temporaries that variables live in. -/
def tempsOf (places : List Access) : List Temp := places.filterMap Access.temp

@[simp] theorem tempsOf_append (first second : List Access) :
    tempsOf (first ++ second) = tempsOf first ++ tempsOf second := List.filterMap_append

@[simp] theorem offsetsOf_append (first second : List Access) :
    offsetsOf (first ++ second) = offsetsOf first ++ offsetsOf second := List.filterMap_append

/-- The word number `k` below the frame pointer. -/
def Convention.slotOffset (conv : Convention) (k : Nat) : Int := -conv.words (k + 1)

namespace Frame

/-- The formals that arrive in registers: where they are kept, and the register. -/
def arrivals (frame : Frame) : List (Access × Temp) :=
  (frame.formals.zip frame.incoming).filterMap fun formal => formal.2.map (formal.1, ·)

/-- Where the formals are that arrive on the stack. -/
def residents (frame : Frame) : List Access :=
  (frame.formals.zip frame.incoming).filterMap fun formal =>
    if formal.2.isNone then some formal.1 else none

/-- How the formals of `frame` and variables allocated in it later are laid out. -/
structure Layout (conv : Convention) (frame : Frame) (locals : List Access) : Prop where
  wordSize : frame.wordSize = conv.wordSize
  paired : frame.formals.length = frame.incoming.length
  counted : frame.registersUsed = frame.incoming.countP Option.isSome
  registers : ∀ formal ∈ frame.arrivals, formal.2 ∈ conv.arguments
  /-- Formals from registers and locals take one word after the other, in order. -/
  below : offsetsOf (frame.arrivals.map Prod.fst ++ locals) =
    (List.range frame.slots).map conv.slotOffset
  /-- Formals on the stack stay where they arrive. -/
  above : frame.residents =
    (List.range frame.residents.length).map fun k => .inFrame (conv.formalOffset k)

section Layout

/-- The next variable that is in memory takes the next word. -/
theorem offsetsOf_allocate (size : frame.wordSize = conv.wordSize) {places : List Access}
    (below : offsetsOf places = (List.range frame.slots).map conv.slotOffset) (escapes : Bool)
    (supply : Supply) :
    offsetsOf (places ++ [(frame.allocate escapes supply).1.1]) =
      (List.range (frame.allocate escapes supply).1.2.slots).map conv.slotOffset := by
  rw [offsetsOf_append, below]
  cases escapes with
  | false => exact List.append_nil _
  | true =>
    change _ ++ [-((frame.slots + 1 : Nat) : Int) * frame.wordSize] =
      (List.range (frame.slots + 1)).map conv.slotOffset
    rw [List.range_succ, List.map_append, size, Int.neg_mul]
    rfl

/-- Allocation keeps the layout of a frame: the new local is below all others, or in a temporary. -/
theorem Layout.allocate (layout : Layout conv frame locals) (escapes : Bool) (supply : Supply) :
    Layout conv (frame.allocate escapes supply).1.2
      (locals ++ [(frame.allocate escapes supply).1.1]) := by
  have below := offsetsOf_allocate layout.wordSize layout.below escapes supply
  rw [List.append_assoc] at below
  cases escapes with
  | false =>
    exact ⟨layout.wordSize, layout.paired, layout.counted, layout.registers, below, layout.above⟩
  | true =>
    exact ⟨layout.wordSize, layout.paired, layout.counted, layout.registers, below, layout.above⟩

variable {offset : Int}

theorem arrivals_addStackFormal (paired : frame.formals.length = frame.incoming.length) :
    (frame.addStackFormal offset).arrivals = frame.arrivals := by
  change ((frame.formals ++ [Access.inFrame offset]).zip (frame.incoming ++ [none])).filterMap _ = _
  rw [List.zip_append paired, List.filterMap_append]
  exact List.append_nil _

theorem residents_addStackFormal (paired : frame.formals.length = frame.incoming.length) :
    (frame.addStackFormal offset).residents = frame.residents ++ [.inFrame offset] := by
  change ((frame.formals ++ [Access.inFrame offset]).zip (frame.incoming ++ [none])).filterMap _ = _
  rw [List.zip_append paired, List.filterMap_append]
  rfl

theorem arrivals_addRegisterFormal (paired : frame.formals.length = frame.incoming.length)
    (reg : Temp) (escapes : Bool) (supply : Supply) :
    (frame.addRegisterFormal reg escapes supply).1.arrivals =
      frame.arrivals ++ [((frame.allocate escapes supply).1.1, reg)] := by
  rw [arrivals, addRegisterFormal_formals, addRegisterFormal_incoming, List.zip_append paired,
    List.filterMap_append]
  rfl

theorem residents_addRegisterFormal (paired : frame.formals.length = frame.incoming.length)
    (reg : Temp) (escapes : Bool) (supply : Supply) :
    (frame.addRegisterFormal reg escapes supply).1.residents = frame.residents := by
  rw [residents, addRegisterFormal_formals, addRegisterFormal_incoming, List.zip_append paired,
    List.filterMap_append]
  exact List.append_nil _

theorem layout_empty (conv : Convention) (name : Label) :
    Layout conv { name, wordSize := conv.wordSize } [] :=
  ⟨rfl, rfl, rfl, List.forall_mem_nil _, rfl, rfl⟩

/-- A formal that arrives on the stack stays there. -/
theorem Layout.addStackFormal (layout : Layout conv frame []) :
    Layout conv (frame.addStackFormal (conv.formalOffset frame.residents.length)) [] where
  wordSize := layout.wordSize
  paired := by simp [Frame.addStackFormal, layout.paired]
  counted := by simp [Frame.addStackFormal, layout.counted]
  registers := by
    rw [arrivals_addStackFormal layout.paired]
    exact layout.registers
  below := by
    rw [arrivals_addStackFormal layout.paired]
    exact layout.below
  above := by
    rw [residents_addStackFormal layout.paired, List.length_append, List.length_singleton,
      List.range_succ, List.map_append, ← layout.above]
    rfl

/-- A formal that arrives in a register is moved to a local. -/
theorem Layout.addRegisterFormal (layout : Layout conv frame []) {reg : Temp}
    (argument : reg ∈ conv.arguments) (escapes : Bool) (supply : Supply) :
    Layout conv (frame.addRegisterFormal reg escapes supply).1 [] where
  wordSize := (allocate_wordSize frame escapes supply).trans layout.wordSize
  paired := by
    simp [addRegisterFormal_formals, addRegisterFormal_incoming, layout.paired]
  counted := by
    rw [addRegisterFormal_incoming, List.countP_append, ← layout.counted]
    cases escapes <;> rfl
  registers := by
    rw [arrivals_addRegisterFormal layout.paired]
    intro formal member
    rcases List.mem_append.mp member with old | new
    · exact layout.registers formal old
    · rw [List.mem_singleton.mp new]
      exact argument
  below := by
    have below := layout.below
    rw [List.append_nil] at below
    rw [arrivals_addRegisterFormal layout.paired, List.map_append, List.append_nil]
    exact offsetsOf_allocate layout.wordSize below escapes supply
  above := by
    rw [residents_addRegisterFormal layout.paired]
    exact layout.above

/-- The layout is kept while formals are added. -/
theorem Layout.addFormals :
    ∀ (escapes : List Bool) (registers : List Temp) {frame : Frame} (supply : Supply),
      registers ⊆ conv.arguments → Layout conv frame [] →
      Layout conv (addFormals conv escapes registers frame.residents.length frame supply).1 []
  | [], _, _, _, _, layout => layout
  | flag :: escapes, reg :: registers, frame, supply, arguments, layout => by
    obtain ⟨argument, others⟩ := List.cons_subset.mp arguments
    have rest := Layout.addFormals escapes registers (frame.addRegisterFormal reg flag supply).2
      others (layout.addRegisterFormal argument flag supply)
    rw [residents_addRegisterFormal layout.paired] at rest
    exact rest
  | _ :: escapes, [], frame, supply, arguments, layout => by
    have rest := Layout.addFormals escapes [] supply arguments layout.addStackFormal
    rw [residents_addStackFormal layout.paired, List.length_append] at rest
    exact rest

/-- A new frame is laid out in order. -/
theorem layout_frameFor {name : Label} {escapes : List Bool}
    (made : conv.frameFor name escapes supply = .ok frame supply') : Layout conv frame [] := by
  cases escapes with
  | nil =>
    cases made
    exact layout_empty conv name
  | cons flag escapes =>
    have layout : Layout conv (Frame.addFormals conv escapes conv.arguments 1
        (Frame.addStackFormal { name, wordSize := conv.wordSize } (conv.formalOffset 0))
        supply).1 [] :=
      Layout.addFormals escapes conv.arguments supply (List.Subset.refl _)
        (layout_empty conv name).addStackFormal
    rw [Convention.frameFor_ok made] at layout
    exact layout

end Layout

section Temporaries

/-- An allocation draws at most one temporary. -/
theorem issued_allocate (frame : Frame) (escapes : Bool) (supply : Supply) :
    Temp.Issued supply.temps (frame.allocate escapes supply).2.temps
      (tempsOf [(frame.allocate escapes supply).1.1]) := by
  cases escapes with
  | true => exact Temp.issued_nil (Nat.le_refl _)
  | false => exact Temp.issued_single supply.temps

theorem issued_addFormals (conv : Convention) :
    ∀ (escapes : List Bool) (registers : List Temp) (index : Nat) (frame : Frame)
      (supply : Supply), ∃ kept,
      (addFormals conv escapes registers index frame supply).1.formals = frame.formals ++ kept ∧
      Temp.Issued supply.temps (addFormals conv escapes registers index frame supply).2.temps
        (tempsOf kept)
  | [], _, _, frame, _ => ⟨[], (List.append_nil _).symm, Temp.issued_nil (Nat.le_refl _)⟩
  | flag :: escapes, reg :: registers, index, frame, supply => by
    obtain ⟨kept, formals, issued⟩ := issued_addFormals conv escapes registers index
      (frame.addRegisterFormal reg flag supply).1 (frame.addRegisterFormal reg flag supply).2
    refine ⟨(frame.allocate flag supply).1.1 :: kept, ?_, ?_⟩
    · refine formals.trans ?_
      rw [addRegisterFormal_formals, List.append_assoc, List.singleton_append]
    · have both := (issued_allocate frame flag supply).append issued
      rw [← tempsOf_append] at both
      exact both
  | _ :: escapes, [], index, frame, supply => by
    obtain ⟨kept, formals, issued⟩ := issued_addFormals conv escapes [] (index + 1)
      (frame.addStackFormal (conv.formalOffset index)) supply
    refine ⟨.inFrame (conv.formalOffset index) :: kept, ?_, issued⟩
    refine formals.trans ?_
    exact List.append_assoc _ [_] _

/-- The temporaries of the formals are all new. -/
theorem issued_frameFor {name : Label} {escapes : List Bool}
    (made : conv.frameFor name escapes supply = .ok frame supply') :
    Temp.Issued supply.temps supply'.temps (tempsOf frame.formals) := by
  cases escapes with
  | nil =>
    cases made
    exact Temp.issued_nil (Nat.le_refl _)
  | cons flag escapes =>
    obtain ⟨kept, formals, issued⟩ := issued_addFormals conv escapes conv.arguments 1
      (Frame.addStackFormal { name, wordSize := conv.wordSize } (conv.formalOffset 0)) supply
    rw [Convention.frameFor_ok made] at formals issued
    rw [formals]
    exact issued

end Temporaries

section Words

/-- Every formal arrives either on the stack or in a register. -/
theorem formals_perm (paired : frame.formals.length = frame.incoming.length) :
    frame.formals.Perm (frame.residents ++ frame.arrivals.map Prod.fst) := by
  unfold residents arrivals
  generalize frame.formals = formals, frame.incoming = incoming at paired
  induction formals generalizing incoming with
  | nil => exact .nil
  | cons access formals carried =>
    cases incoming with
    | nil => cases paired
    | cons arrival incoming =>
      have rest := (carried incoming (Nat.succ.inj paired)).cons access
      cases arrival with
      | none => exact rest
      | some reg => exact rest.trans List.perm_middle.symm

/-- The numbers of the words in use, counted from the frame pointer. -/
def wordNumbers (frame : Frame) : List Int :=
  (List.range frame.residents.length).map (fun k : Nat => 2 + (k : Int)) ++
    (List.range frame.slots).map fun k : Nat => -((k : Int) + 1)

theorem Layout.offsets_residents (layout : Layout conv frame locals) :
    offsetsOf frame.residents =
      (List.range frame.residents.length).map conv.formalOffset := by
  rw [layout.above, List.length_map, List.length_range]
  exact List.filterMap_map.trans (congrFun List.filterMap_eq_map _)

/-- The words in use, in terms of their numbers. -/
theorem Layout.offsets_perm (layout : Layout conv frame locals) :
    (offsetsOf (frame.formals ++ locals)).Perm
      (frame.wordNumbers.map (· * conv.wordSize)) := by
  have below (k : Nat) : conv.slotOffset k = -((k : Int) + 1) * conv.wordSize :=
    (Int.neg_mul _ _).symm
  have split := ((formals_perm layout.paired).append_right locals).filterMap Access.offset
  refine split.trans (.of_eq ?_)
  change offsetsOf (_ ++ _ ++ _) = _
  rw [List.append_assoc, offsetsOf_append, layout.below, layout.offsets_residents, wordNumbers,
    List.map_append, List.map_map, List.map_map, List.map_congr_left fun k _ => below k]
  rfl

/-- The words of a frame are different. -/
theorem wordNumbers_nodup (frame : Frame) : frame.wordNumbers.Nodup := by
  refine List.nodup_append'.mpr ⟨?_, ?_, ?_⟩
  · refine List.nodup_range.map fun j k same => ?_
    have numbers : 2 + (j : Int) = 2 + (k : Int) := same
    omega
  · refine List.nodup_range.map fun j k same => ?_
    have numbers : -((j : Int) + 1) = -((k : Int) + 1) := same
    omega
  · intro n up down
    obtain ⟨j, _, rfl⟩ := List.mem_map.mp up
    obtain ⟨k, _, same⟩ := List.mem_map.mp down
    omega

/-- The saved frame pointer and the return address are not among the words of a frame. -/
theorem wordNumbers_clear {n : Int} (member : n ∈ frame.wordNumbers) : n ≤ -1 ∨ 2 ≤ n := by
  rcases List.mem_append.mp member with up | down
  · obtain ⟨k, _, rfl⟩ := List.mem_map.mp up
    omega
  · obtain ⟨k, _, rfl⟩ := List.mem_map.mp down
    omega

/-- The words at these distances do not overlap, neither with one another nor with the two words
from the frame pointer upwards, which hold the frame pointer of the caller and the return
address. -/
structure Separate (wordSize : Int) (offsets : List Int) : Prop where
  aligned : ∀ offset ∈ offsets, wordSize ∣ offset
  distinct : offsets.Nodup
  disjoint : offsets.Pairwise fun first second =>
    first + wordSize ≤ second ∨ second + wordSize ≤ first
  clear : ∀ offset ∈ offsets, offset + wordSize ≤ 0 ∨ 2 * wordSize ≤ offset

/-- Places in a frame do not overlap. -/
theorem Layout.separate (layout : Layout conv frame locals) (positive : 0 < conv.wordSize) :
    Separate conv.wordSize (offsetsOf (frame.formals ++ locals)) := by
  have scaled {j k : Int} (less : j + 1 ≤ k) :
      j * conv.wordSize + conv.wordSize ≤ k * conv.wordSize := by
    have next : j * conv.wordSize + conv.wordSize = (j + 1) * conv.wordSize := by
      rw [Int.add_mul, Int.one_mul]
    rw [next]
    exact Int.mul_le_mul_of_nonneg_right less (Int.le_of_lt positive)
  have words := layout.offsets_perm
  refine ⟨?_, ?_, ?_, ?_⟩
  · intro offset member
    obtain ⟨n, _, rfl⟩ := List.mem_map.mp (words.mem_iff.mp member)
    exact Int.dvd_mul_left n conv.wordSize
  · refine words.nodup_iff.mpr (frame.wordNumbers_nodup.map ?_)
    intro j k same
    exact Int.eq_of_mul_eq_mul_right (Int.ne_of_gt positive) same
  · refine (words.pairwise_iff fun apart => apart.symm).mpr (List.pairwise_map.mpr ?_)
    refine frame.wordNumbers_nodup.imp ?_
    intro j k different
    rcases Int.lt_or_gt_of_ne different with less | greater
    · exact .inl (scaled less)
    · exact .inr (scaled greater)
  · intro offset member
    obtain ⟨n, used, rfl⟩ := List.mem_map.mp (words.mem_iff.mp member)
    rcases wordNumbers_clear used with down | up
    · left
      have less := scaled (j := n) (k := 0) (by omega)
      rwa [Int.zero_mul] at less
    · exact .inr (Int.mul_le_mul_of_nonneg_right up (Int.le_of_lt positive))

/-- What arrives on the stack lies above the return address. -/
theorem Layout.above_return (layout : Layout conv frame locals) (positive : 0 < conv.wordSize) :
    ∀ offset ∈ offsetsOf frame.residents, 2 * conv.wordSize ≤ offset := by
  intro offset member
  rw [layout.offsets_residents] at member
  obtain ⟨k, _, rfl⟩ := List.mem_map.mp member
  exact Int.mul_le_mul_of_nonneg_right (by omega) (Int.le_of_lt positive)

end Words

end Frame

/-- A frame, and where the variables are that were allocated in it since it was made. -/
structure Allotment where
  frame : Frame
  locals : List Access := []
deriving DecidableEq

/-- Where the variables of a frame are. -/
def Allotment.places (allotment : Allotment) : List Access :=
  allotment.frame.formals ++ allotment.locals

/-- Frames that are served by one supply. -/
structure Allotments where
  supply : Supply
  frames : List Allotment := []

namespace Allotments

variable {low : Nat} {s : Allotments}

/-- Where the variables of all frames are. -/
def places (s : Allotments) : List Access := s.frames.flatMap Allotment.places

/-- Something that is asked of the frames: one more of them, or storage in frame number `index`. -/
inductive Request where
  | create (name : Label) (escapes : List Bool)
  | allocate (index : Nat) (escapes : Bool)

/-- What a request leads to. A frame that cannot be made and one that does not exist change
nothing here. -/
def serve (conv : Convention) (s : Allotments) : Request → Allotments
  | .create name escapes =>
    match conv.frameFor name escapes s.supply with
    | .ok frame supply => { supply, frames := s.frames ++ [{ frame }] }
    | .error _ supply => { s with supply }
  | .allocate index escapes =>
    match s.frames[index]? with
    | none => s
    | some { frame, locals } =>
      let ((access, frame), supply) := frame.allocate escapes s.supply
      { supply, frames := s.frames.set index { frame, locals := locals ++ [access] } }

/-- What requests one after another lead to. -/
def serveAll (conv : Convention) (s : Allotments) (requests : List Request) : Allotments :=
  requests.foldl (serve conv) s

/-- Each frame is laid out in order, and the temporaries in use were issued from `low` on. -/
structure Orderly (conv : Convention) (low : Nat) (s : Allotments) : Prop where
  layout : ∀ allotment ∈ s.frames, allotment.frame.Layout conv allotment.locals
  issued : Temp.Issued low s.supply.temps (tempsOf s.places)

theorem orderly_start (conv : Convention) (supply : Supply) :
    Orderly conv supply.temps { supply } :=
  ⟨List.forall_mem_nil _, Temp.issued_nil (Nat.le_refl _)⟩

/-- The temporaries that the formals of one of the frames live in. -/
theorem Orderly.issued_formals (orderly : Orderly conv low s) {allotment : Allotment}
    (made : allotment ∈ s.frames) :
    Temp.Issued low s.supply.temps (tempsOf allotment.frame.formals) := by
  refine orderly.issued.sublist (List.Sublist.filterMap _ ?_)
  obtain ⟨front, back, split⟩ := List.append_of_mem made
  simp only [places, split, List.flatMap_append, List.flatMap_cons, Allotment.places,
    List.append_assoc]
  exact (List.sublist_append_left _ _).trans (List.sublist_append_right _ _)

/-- A new frame shares no temporaries with the ones before it. -/
theorem Orderly.create (orderly : Orderly conv low s) {name : Label} {escapes : List Bool}
    (made : conv.frameFor name escapes s.supply = .ok frame supply) :
    Orderly conv low { supply, frames := s.frames ++ [{ frame }] } where
  layout := by
    intro allotment member
    rcases List.mem_append.mp member with old | new
    · exact orderly.layout allotment old
    · rw [List.mem_singleton.mp new]
      exact Frame.layout_frameFor made
  issued := by
    have all := orderly.issued.append (Frame.issued_frameFor made)
    rw [← tempsOf_append] at all
    simpa [places, Allotment.places] using all

/-- An allocation in one frame leaves the others alone. -/
theorem Orderly.allocate (orderly : Orderly conv low s) {index : Nat}
    (present : s.frames[index]? = some { frame, locals }) (escapes : Bool) :
    Orderly conv low {
      supply := (frame.allocate escapes s.supply).2
      frames := s.frames.set index
        { frame := (frame.allocate escapes s.supply).1.2
          locals := locals ++ [(frame.allocate escapes s.supply).1.1] } } := by
  obtain ⟨inside, here⟩ := List.getElem?_eq_some_iff.mp present
  obtain ⟨front, back, split, -, replaced⟩ := List.exists_of_set inside
  rw [here] at split
  rw [replaced]
  have before := orderly.layout { frame, locals }
    (split ▸ List.mem_append_right _ List.mem_cons_self)
  refine ⟨?_, ?_⟩
  · intro allotment member
    rcases List.mem_append.mp member with early | late
    · exact orderly.layout allotment (split ▸ List.mem_append_left _ early)
    · rcases List.mem_cons.mp late with rfl | behind
      · exact before.allocate escapes s.supply
      · exact orderly.layout allotment
          (split ▸ List.mem_append_right _ (List.mem_cons_of_mem _ behind))
  · have all := orderly.issued.append (frame.issued_allocate escapes s.supply)
    refine all.perm ?_
    rw [← tempsOf_append, places, split]
    refine List.Perm.filterMap _ ?_
    -- The new variable comes after those of its own frame, and before those of later ones.
    simp only [places, List.flatMap_append, List.flatMap_cons, Allotment.places,
      Frame.allocate_formals, List.append_assoc]
    refine .append_left _ (.append_left _ (.append_left _ ?_))
    exact List.perm_append_comm

/-- Each request keeps the frames in order. -/
theorem Orderly.serve (orderly : Orderly conv low s) (request : Request) :
    Orderly conv low (s.serve conv request) := by
  cases request with
  | create name escapes =>
    cases made : conv.frameFor name escapes s.supply with
    | ok frame supply =>
      simp only [Allotments.serve, made]
      exact orderly.create made
    | error error supply =>
      simp only [Allotments.serve, made, Convention.frameFor_error made]
      exact orderly
  | allocate index escapes =>
    cases present : s.frames[index]? with
    | none =>
      simp only [Allotments.serve, present]
      exact orderly
    | some allotment =>
      simp only [Allotments.serve, present]
      exact orderly.allocate present escapes

/-- Any number of requests keeps the frames in order. -/
theorem Orderly.serveAll :
    ∀ (requests : List Request) {s : Allotments}, Orderly conv low s →
      Orderly conv low (s.serveAll conv requests)
  | [], _, orderly => orderly
  | request :: requests, _, orderly => Orderly.serveAll requests (orderly.serve request)

/-- Storage does not overlap: whatever is asked of the frames that one supply serves, each frame
is laid out in order and its words are disjoint, no temporary serves two variables or is a machine
register, and a frame that cannot be made takes nothing from the supply. -/
theorem storage_never_overlaps (conv : Convention) (supply : Supply)
    (positive : 0 < conv.wordSize) (issued : Tree.Below supply.temps conv.machine)
    (requests : List Request) :
    (∀ allotment ∈ (serveAll conv { supply } requests).frames,
      allotment.frame.Layout conv allotment.locals ∧
      allotment.frame.localBytes = conv.words allotment.frame.slots ∧
      Frame.Separate conv.wordSize (offsetsOf allotment.places) ∧
      ∀ offset ∈ offsetsOf allotment.frame.residents, 2 * conv.wordSize ≤ offset) ∧
    (tempsOf (serveAll conv { supply } requests).places).Nodup ∧
    (∀ t ∈ tempsOf (serveAll conv { supply } requests).places, t ∉ conv.machine) ∧
    ∀ (name : Label) (escapes : List Bool) (error : Error) (supply' : Supply),
      conv.frameFor name escapes (serveAll conv { supply } requests).supply =
        .error error supply' →
      supply' = (serveAll conv { supply } requests).supply := by
  have orderly := Orderly.serveAll requests (orderly_start conv supply)
  refine ⟨?_, orderly.issued.distinct, ?_, ?_⟩
  · intro allotment member
    have layout := orderly.layout allotment member
    refine ⟨layout, ?_, layout.separate positive, layout.above_return positive⟩
    rw [Frame.localBytes, layout.wordSize]
    rfl
  · intro t used register
    exact absurd (issued t register) (Nat.not_lt_of_le (orderly.issued.between t used).1)
  · intro name escapes error supply' failed
    exact Convention.frameFor_error failed

/-- Two frames in turns, and one that has too many formals. -/
def sampleRequests : List Request :=
  [.create "f" [true, true], .create "g" [true, false], .allocate 0 true, .allocate 1 false,
    .create "h" [true, true, true], .allocate 1 true, .allocate 0 false, .allocate 0 true,
    .allocate 2 true]

theorem sampleRequests_never_overlap :
    (serveAll .small { supply := { temps := 4 } } sampleRequests).frames.map Allotment.places =
      [[.inFrame 16, .inFrame (-8), .inFrame (-16), .inReg ⟨6⟩, .inFrame (-24)],
        [.inFrame 16, .inReg ⟨4⟩, .inReg ⟨5⟩, .inFrame (-8)]] ∧
    0 < Convention.small.wordSize ∧ Tree.Below 4 Convention.small.machine ∧
    (tempsOf (serveAll .small { supply := { temps := 4 } } sampleRequests).places).Nodup ∧
    ∀ allotment ∈ (serveAll .small { supply := { temps := 4 } } sampleRequests).frames,
      Frame.Separate 8 (offsetsOf allotment.places) := by
  have positive : 0 < Convention.small.wordSize := by decide
  have issued : Tree.Below 4 Convention.small.machine := by
    unfold Tree.Below
    decide
  obtain ⟨each, distinct, -⟩ := storage_never_overlaps .small { temps := 4 } positive issued
    sampleRequests
  refine ⟨by decide +kernel, positive, issued, distinct, ?_⟩
  intro allotment member
  exact (each allotment member).2.2.1

end Allotments

end TreeCode
