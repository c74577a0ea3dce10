import TreeCode.Proofs.Machine.Layout
import TreeCode.Proofs.Tree.Bytes
import TreeCode.Proofs.Tree.Writes
import TreeCode.Target.Arch

/-!
Entry and exit of functions. Before the body of a function runs, the formals that arrive in
registers are moved to where the function keeps them and the registers that it has to preserve are
copied. None of these moves destroys what a later one reads or an earlier one wrote. After the body
the registers get their values back.
-/

namespace TreeCode

open Tree

variable {V W : Type} {M : Model V W} {apart : V → V → Prop} {conv : Convention} {frame : Frame}
  {locals : List Access} {σ τ : State V W}

/-- The address at a distance from a frame pointer. -/
def Tree.Model.wordAt (M : Model V W) (pointer : V) (offset : Int) : V :=
  M.binop .plus pointer (M.const offset)

/-- Memory holds what was stored last, and a store leaves alone what is apart from its address. -/
structure Tree.Model.Remembers (M : Model V W) (apart : V → V → Prop) : Prop where
  same : ∀ (world : W) (address v : V), M.load (M.store world address v) address = v
  other : ∀ (world : W) (address v address' : V), apart address address' →
    M.load (M.store world address v) address' = M.load world address'

/-- Words that do not overlap within these many bytes below the frame pointer are apart in memory,
that is, their addresses do not wrap around. -/
def Tree.Model.Fits (M : Model V W) (apart : V → V → Prop) (wordSize bytes : Int) (pointer : V) :
    Prop :=
  ∀ first second : Int, -bytes ≤ first → first + wordSize ≤ 0 → -bytes ≤ second →
    second + wordSize ≤ 0 → first + wordSize ≤ second ∨ second + wordSize ≤ first →
    apart (M.wordAt pointer first) (M.wordAt pointer second)

section Bytes

open Source (Word)

/-- Words at these addresses have no byte in common. -/
def Tree.Memory.Apart (a b : Word) : Prop := 8 ≤ (b - a).toNat ∧ 8 ≤ (a - b).toNat

/-- A word that has been stored is loaded again. -/
theorem Tree.Memory.load_store_same (memory : Memory) (a v : Word) :
    (memory.store a v).load a = v := by
  have byte (i : Word) (small : i.toNat < 8) :
      memory.store a v (a + i) = v.extractLsb' (8 * i.toNat) 8 := by
    rw [store, BitVec.add_comm, BitVec.add_sub_cancel]
    exact if_pos small
  have first : memory.store a v a = v.extractLsb' 0 8 := by
    have zero := byte 0#64 (by decide)
    rwa [BitVec.add_zero] at zero
  unfold load
  rw [first, byte 1 (by decide), byte 2 (by decide), byte 3 (by decide), byte 4 (by decide),
    byte 5 (by decide), byte 6 (by decide), byte 7 (by decide)]
  show v.extractLsb' 56 8 ++ v.extractLsb' 48 8 ++ v.extractLsb' 40 8 ++ v.extractLsb' 32 8 ++
    v.extractLsb' 24 8 ++ v.extractLsb' 16 8 ++ v.extractLsb' 8 8 ++ v.extractLsb' 0 8 = v
  simp only [BitVec.extractLsb'_append_extractLsb'_eq_extractLsb', BitVec.extractLsb'_eq_self]

/-- Storing a word leaves the words apart from it alone. -/
theorem Tree.Memory.load_store_apart (memory : Memory) {a b : Word} (v : Word)
    (apart : Apart a b) : (memory.store a v).load b = memory.load b := by
  have byte (i : Word) (small : i.toNat < 8) : memory.store a v (b + i) = memory (b + i) := by
    have far : ¬ (b + i - a).toNat < 8 := by
      obtain ⟨after, before⟩ := apart
      rw [BitVec.toNat_sub] at after before
      rw [BitVec.toNat_sub, BitVec.toNat_add]
      have := a.isLt
      have := b.isLt
      omega
    exact if_neg far
  have first : memory.store a v b = memory b := by
    have zero := byte 0#64 (by decide)
    rwa [BitVec.add_zero] at zero
  unfold load
  rw [first, byte 1 (by decide), byte 2 (by decide), byte 3 (by decide), byte 4 (by decide),
    byte 5 (by decide), byte 6 (by decide), byte 7 (by decide)]

theorem Tree.Model.remembers_bytes (address : Label → Word) :
    (Model.bytes address).Remembers Memory.Apart where
  same memory a v := memory.load_store_same a v
  other memory _ v _ apart := memory.load_store_apart v apart

/-- On a machine with addresses of 64 bits, any frame fits that is not larger than memory. -/
theorem Tree.Model.fits_bytes (address : Label → Word) {bytes : Int} (small : bytes ≤ 2 ^ 64)
    (pointer : Word) : (Model.bytes address).Fits Memory.Apart 8 bytes pointer := by
  have far {first second : Int} (after : first + 8 ≤ second)
      (near : second + 8 ≤ first + 2 ^ 64) :
      Memory.Apart (pointer + .ofInt 64 first) (pointer + .ofInt 64 second) := by
    unfold Memory.Apart
    simp only [BitVec.toNat_sub, BitVec.toNat_add, BitVec.toNat_ofInt]
    have := pointer.isLt
    omega
  intro first second lower upper lower' upper' disjoint
  rcases disjoint with before | after
  · exact far before (by omega)
  · exact (far after (by omega)).symm

end Bytes

namespace Convention

/-- The move of what arrives in a register to where it is kept. -/
def moveIn (conv : Convention) (formal : Access × Temp) : Stm :=
  .move (formal.1.value (.temp conv.framePointer)) (.temp formal.2)

theorem viewShift_eq (conv : Convention) (frame : Frame) :
    conv.viewShift frame = frame.arrivals.map conv.moveIn := by
  unfold viewShift Frame.arrivals
  rw [List.map_filterMap]
  congr 1
  funext formal
  obtain ⟨access, _ | reg⟩ := formal <;> rfl

section Moves

theorem exec_moveIn_temp (M : Model V W) (conv : Convention) (t reg : Temp) (σ : State V W) :
    M.exec (conv.moveIn (.inReg t, reg)) σ = σ.set t (σ.temps reg) := by
  simp only [moveIn, Access.value, Model.exec, Model.assign, Model.eval]

theorem exec_moveIn_word (M : Model V W) (conv : Convention) (offset : Int) (reg : Temp)
    (σ : State V W) :
    M.exec (conv.moveIn (.inFrame offset, reg)) σ = σ.withWorld
      (M.store σ.world (M.wordAt (σ.temps conv.framePointer) offset) (σ.temps reg)) := by
  simp only [moveIn, Access.value, Model.exec, Model.assign, Model.eval, Model.wordAt]

/-- No move destroys what a later one reads or an earlier one wrote. -/
structure Compatible (M : Model V W) (apart : V → V → Prop) (conv : Convention) (pointer : V)
    (moved : List (Access × Temp)) : Prop where
  distinct : (tempsOf (moved.map Prod.fst)).Nodup
  base : conv.framePointer ∉ tempsOf (moved.map Prod.fst)
  sources : ∀ formal ∈ moved, formal.2 ∉ tempsOf (moved.map Prod.fst)
  disjoint : (offsetsOf (moved.map Prod.fst)).Pairwise fun first second =>
    apart (M.wordAt pointer second) (M.wordAt pointer first)

/-- In `τ` the values are where they were moved to, and nothing else is changed. -/
structure Moved (M : Model V W) (apart : V → V → Prop) (conv : Convention)
    (moved : List (Access × Temp)) (σ τ : State V W) : Prop where
  values : ∀ formal ∈ moved,
    M.eval (formal.1.value (.temp conv.framePointer)) τ = (σ.temps formal.2, τ)
  temps : ∀ t, t ∉ tempsOf (moved.map Prod.fst) → τ.temps t = σ.temps t
  memory : ∀ address, (∀ offset ∈ offsetsOf (moved.map Prod.fst),
      apart (M.wordAt (σ.temps conv.framePointer) offset) address) →
    M.load τ.world address = M.load σ.world address

/-- Moves to places that are compatible bring each value to its place. The induction is on the
moves: a later one changes neither what an earlier one has written nor what it has still to read. -/
theorem moved_execAll (remembers : M.Remembers apart) (moved : List (Access × Temp))
    (σ : State V W)
    (compatible : Compatible M apart conv (σ.temps conv.framePointer) moved) :
    Moved M apart conv moved σ (M.execAll (moved.map conv.moveIn) σ) := by
  induction moved generalizing σ with
  | nil => exact ⟨by simp, fun t _ => rfl, fun address _ => rfl⟩
  | cons formal moved carried =>
    obtain ⟨distinct, pointer, sources, disjoint⟩ := compatible
    obtain ⟨access, reg⟩ := formal
    cases access with
    | inReg t =>
      obtain ⟨new, distinct⟩ := List.nodup_cons.mp distinct
      obtain ⟨notPointer, pointer⟩ := not_or.mp (mt List.mem_cons.mpr pointer)
      have apartSources : ∀ formal ∈ moved,
          formal.2 ≠ t ∧ formal.2 ∉ tempsOf (moved.map Prod.fst) := fun formal member =>
        not_or.mp (mt List.mem_cons.mpr (sources formal (List.mem_cons_of_mem _ member)))
      have samePointer : (σ.set t (σ.temps reg)).temps conv.framePointer =
          σ.temps conv.framePointer := State.set_temps_ne σ _ notPointer
      have rest := carried (σ.set t (σ.temps reg)) (by
        rw [samePointer]
        exact ⟨distinct, pointer, fun formal member => (apartSources formal member).2, disjoint⟩)
      rw [List.map_cons, Model.execAll, exec_moveIn_temp]
      refine ⟨?_, ?_, ?_⟩
      · intro formal member
        rcases List.mem_cons.mp member with rfl | later
        · simp only [Access.value, Model.eval, rest.temps t new, State.set_temps_same]
        · rw [rest.values formal later, State.set_temps_ne σ _ (apartSources formal later).1]
      · intro u absent
        obtain ⟨different, absent⟩ := not_or.mp (mt List.mem_cons.mpr absent)
        rw [rest.temps u absent, State.set_temps_ne σ _ different]
      · intro address away
        rw [rest.memory address (samePointer ▸ away), State.set_world]
    | inFrame offset =>
      obtain ⟨later, disjoint⟩ := List.pairwise_cons.mp disjoint
      have rest := carried (M.exec (conv.moveIn (.inFrame offset, reg)) σ) (by
        rw [exec_moveIn_word]
        exact ⟨distinct, pointer, fun formal member =>
          sources formal (List.mem_cons_of_mem _ member), disjoint⟩)
      rw [List.map_cons, Model.execAll]
      rw [exec_moveIn_word] at rest ⊢
      refine ⟨?_, rest.temps, ?_⟩
      · intro formal member
        rcases List.mem_cons.mp member with rfl | behind
        · have same := rest.temps conv.framePointer pointer
          have held := rest.memory (M.wordAt (σ.temps conv.framePointer) offset) later
          simp only [Access.value, Model.eval]
          rw [same]
          change (M.load _ (M.wordAt (σ.temps conv.framePointer) offset), _) = _
          rw [held, State.withWorld_world, remembers.same]
        · exact rest.values formal behind
      · intro address away
        obtain ⟨here, away⟩ := List.forall_mem_cons.mp away
        rw [rest.memory address away, State.withWorld_world, remembers.other _ _ _ _ here]

end Moves

section Sequences

/-- The registers to preserve, each after the temporary that its value is copied to. -/
def saved (conv : Convention) (supply : Supply) : List (Temp × Temp) :=
  (freshTemps conv.calleeSaved.length supply).1.zip conv.calleeSaved

/-- What comes before the body of a function. -/
def entry (conv : Convention) (frame : Frame) (supply : Supply) : List Stm :=
  conv.viewShift frame ++
    (conv.saved supply).map fun pair => .move (.temp pair.1) (.temp pair.2)

/-- What comes after the body of a function. -/
def exit (conv : Convention) (supply : Supply) : List Stm :=
  (conv.saved supply).map fun pair => .move (.temp pair.2) (.temp pair.1)

theorem wrapBody_eq (conv : Convention) (frame : Frame) (body : Stm) (supply : Supply) :
    (conv.wrapBody frame body supply).1 =
      .sequence (conv.entry frame supply ++ body :: conv.exit supply) := rfl

/-- Temporaries that are drawn in a row are all new. -/
theorem issued_freshTemps : ∀ (count : Nat) (supply : Supply),
    Temp.Issued supply.temps (freshTemps count supply).2.temps (freshTemps count supply).1
  | 0, supply => Temp.issued_nil (Nat.le_refl supply.temps)
  | count + 1, supply =>
    (Temp.issued_single supply.temps).append (issued_freshTemps count (freshTemp supply).2)

theorem length_freshTemps : ∀ (count : Nat) (supply : Supply),
    (freshTemps count supply).1.length = count
  | 0, _ => rfl
  | count + 1, supply => congrArg (· + 1) (length_freshTemps count (freshTemp supply).2)

theorem map_fst_saved (conv : Convention) (supply : Supply) :
    (conv.saved supply).map Prod.fst = (freshTemps conv.calleeSaved.length supply).1 :=
  List.map_fst_zip (Nat.le_of_eq (length_freshTemps _ supply))

theorem map_snd_saved (conv : Convention) (supply : Supply) :
    (conv.saved supply).map Prod.snd = conv.calleeSaved :=
  List.map_snd_zip (Nat.le_of_eq (length_freshTemps _ supply).symm)

/-- Everything that is moved on entry. -/
def movedIn (conv : Convention) (frame : Frame) (supply : Supply) : List (Access × Temp) :=
  frame.arrivals ++ (conv.saved supply).map fun pair => (.inReg pair.1, pair.2)

theorem entry_eq (conv : Convention) (frame : Frame) (supply : Supply) :
    conv.entry frame supply = (conv.movedIn frame supply).map conv.moveIn := by
  rw [entry, viewShift_eq, movedIn, List.map_append, List.map_map]
  rfl

theorem tempsOf_movedIn (conv : Convention) (frame : Frame) (supply : Supply) :
    tempsOf ((conv.movedIn frame supply).map Prod.fst) =
      tempsOf (frame.arrivals.map Prod.fst) ++
        (freshTemps conv.calleeSaved.length supply).1 := by
  rw [movedIn, List.map_append, tempsOf_append, List.map_map, ← map_fst_saved]
  exact congrArg _ (List.filterMap_map.trans (congrFun List.filterMap_eq_map _))

theorem offsetsOf_movedIn (conv : Convention) (frame : Frame) (supply : Supply) :
    offsetsOf ((conv.movedIn frame supply).map Prod.fst) =
      offsetsOf (frame.arrivals.map Prod.fst) := by
  rw [movedIn, List.map_append, offsetsOf_append, List.map_map]
  refine List.append_right_eq_self.mpr (List.filterMap_eq_nil_iff.mpr ?_)
  intro access member
  obtain ⟨pair, -, rfl⟩ := List.mem_map.mp member
  rfl

end Sequences

section Entry

theorem words_mono (positive : 0 < conv.wordSize) {j k : Int} (le : j ≤ k) :
    conv.words j ≤ conv.words k :=
  Int.mul_le_mul_of_nonneg_right le (Int.le_of_lt positive)

theorem words_succ (conv : Convention) (k : Int) :
    conv.words (k + 1) = conv.words k + conv.wordSize := by
  rw [words, Int.add_mul, Int.one_mul]
  rfl

/-- The words that formals are moved to are apart in memory. -/
theorem arrivals_apart (layout : frame.Layout conv locals) (positive : 0 < conv.wordSize)
    {pointer : V} (fits : M.Fits apart conv.wordSize frame.localBytes pointer) :
    (offsetsOf (frame.arrivals.map Prod.fst)).Pairwise fun first second =>
      apart (M.wordAt pointer second) (M.wordAt pointer first) := by
  have bytes : frame.localBytes = conv.words frame.slots := by
    rw [Frame.localBytes, layout.wordSize]
    rfl
  have all : ((List.range frame.slots).map conv.slotOffset).Pairwise fun first second =>
      apart (M.wordAt pointer second) (M.wordAt pointer first) := by
    refine List.pairwise_map.mpr (List.pairwise_lt_range.imp_of_mem ?_)
    intro j k _ inside less
    have last := words_mono positive (j := k + 1) (k := frame.slots)
      (by have := List.mem_range.mp inside; omega)
    have before := words_mono positive (j := j + 1) (k := k) (by omega)
    have first := words_mono positive (j := 0) (k := j) (by omega)
    have zero : conv.words 0 = 0 := Int.zero_mul _
    have down (n : Nat) : conv.slotOffset n = -(conv.words n + conv.wordSize) :=
      congrArg _ (words_succ conv n)
    rw [words_succ] at last before
    rw [down, down]
    apply fits <;> omega
  rw [← layout.below, offsetsOf_append] at all
  exact (List.pairwise_append.mp all).1

/-- What is moved on entry, for the frame of a function that was made while the temporaries from
`low` on were issued. -/
theorem compatible_movedIn {low high : Nat} {supply : Supply} (closed : conv.Closed)
    (registers : Below low conv.machine) (layout : frame.Layout conv locals)
    (issued : Temp.Issued low high (tempsOf frame.formals)) (later : high ≤ supply.temps)
    (positive : 0 < conv.wordSize) {pointer : V}
    (fits : M.Fits apart conv.wordSize frame.localBytes pointer) :
    Compatible M apart conv pointer (conv.movedIn frame supply) := by
  have kept : Temp.Issued low supply.temps (tempsOf (frame.arrivals.map Prod.fst)) := by
    have same := (Frame.formals_perm layout.paired).filterMap Access.temp
    rw [List.filterMap_append] at same
    exact ((issued.perm same).sublist (List.sublist_append_right _ _)).later later
  have targets := kept.append (issued_freshTemps conv.calleeSaved.length supply)
  rw [← tempsOf_movedIn] at targets
  have away : ∀ reg ∈ conv.machine, reg ∉ tempsOf ((conv.movedIn frame supply).map Prod.fst) :=
    fun reg register target =>
      absurd (registers reg register) (Nat.not_lt_of_le (targets.between reg target).1)
  refine ⟨targets.distinct, away _ closed.framePointer, ?_, ?_⟩
  · intro formal member
    apply away
    rcases List.mem_append.mp member with arrived | copied
    · exact closed.arguments (layout.registers formal arrived)
    · obtain ⟨pair, among, rfl⟩ := List.mem_map.mp copied
      exact closed.calleeSaved (List.of_mem_zip among).2
  · rw [offsetsOf_movedIn]
    exact arrivals_apart layout positive fits

/-- How the body of a function finds the state `τ` that it starts in, if the function was entered
in the state `σ`. -/
structure Entered (M : Model V W) (apart : V → V → Prop) (conv : Convention) (frame : Frame)
    (σ τ : State V W) : Prop where
  /-- Formals are where the frame says, with the values that arrived in registers. -/
  formals : ∀ access reg, (access, reg) ∈ frame.arrivals →
    M.eval (access.value (.temp conv.framePointer)) τ = (σ.temps reg, τ)
  calleeSaved : ∀ reg ∈ conv.calleeSaved, τ.temps reg = σ.temps reg
  /-- Apart from the words that belong to these formals, memory is as it was. -/
  memory : ∀ address, (∀ offset ∈ offsetsOf (frame.arrivals.map Prod.fst),
      apart (M.wordAt (σ.temps conv.framePointer) offset) address) →
    M.load τ.world address = M.load σ.world address

/-- After the entry sequence the formals are in place and the saved registers are copied. -/
theorem entered_of_moved {supply : Supply}
    (compatible : Compatible M apart conv (σ.temps conv.framePointer) (conv.movedIn frame supply))
    (moved : Moved M apart conv (conv.movedIn frame supply) σ τ) :
    Entered M apart conv frame σ τ where
  formals access reg arrived := moved.values (access, reg) (List.mem_append_left _ arrived)
  calleeSaved := by
    intro reg member
    rw [← map_snd_saved conv supply] at member
    obtain ⟨pair, among, rfl⟩ := List.mem_map.mp member
    exact moved.temps pair.2 (compatible.sources (.inReg pair.1, pair.2)
      (List.mem_append_right _ (List.mem_map.mpr ⟨pair, among, rfl⟩)))
  memory := by
    intro address away
    rw [← offsetsOf_movedIn conv frame supply] at away
    exact moved.memory address away

end Entry

section Exit

/-- Moving the copies back restores the registers. -/
theorem execAll_restores (M : Model V W) (original : Temp → V) (pairs : List (Temp × Temp))
    (σ : State V W) (apart : ∀ pair ∈ pairs, ∀ other ∈ pairs, pair.1 ≠ other.2)
    (copied : ∀ pair ∈ pairs, σ.temps pair.1 = original pair.2) :
    let τ := M.execAll (pairs.map fun pair => .move (.temp pair.2) (.temp pair.1)) σ
    τ.world = σ.world ∧ (∀ t ∉ pairs.map Prod.snd, τ.temps t = σ.temps t) ∧
      ∀ reg ∈ pairs.map Prod.snd, τ.temps reg = original reg := by
  induction pairs generalizing σ with
  | nil => exact ⟨rfl, fun t _ => rfl, List.forall_mem_nil _⟩
  | cons pair pairs carried =>
    have moved : M.exec (.move (.temp pair.2) (.temp pair.1)) σ =
        σ.set pair.2 (σ.temps pair.1) := by
      simp only [Model.exec, Model.assign, Model.eval]
    obtain ⟨world, others, restored⟩ := carried (σ.set pair.2 (σ.temps pair.1))
      (fun copy member other among =>
        apart copy (List.mem_cons_of_mem _ member) other (List.mem_cons_of_mem _ among))
      (fun copy member => by
        rw [State.set_temps_ne σ _
          (apart copy (List.mem_cons_of_mem _ member) pair List.mem_cons_self)]
        exact copied copy (List.mem_cons_of_mem _ member))
    simp only [List.map_cons, Model.execAll, moved]
    refine ⟨world, ?_, ?_⟩
    · intro t absent
      obtain ⟨different, absent⟩ := not_or.mp (mt List.mem_cons.mpr absent)
      rw [others t absent, State.set_temps_ne σ _ different]
    · intro reg member
      -- A register that occurs twice gets the same value again.
      by_cases again : reg ∈ pairs.map Prod.snd
      · exact restored reg again
      · have here : reg = pair.2 := (List.mem_cons.mp member).resolve_right again
        rw [others reg again, here, State.set_temps_same]
        exact copied pair List.mem_cons_self

/-- How a function returns that was entered in the state `σ` and whose body ended in `after`. -/
structure Returned (conv : Convention) (σ after final : State V W) : Prop where
  calleeSaved : ∀ reg ∈ conv.calleeSaved, final.temps reg = σ.temps reg
  world : final.world = after.world
  returnValue : final.temps conv.returnValue = after.temps conv.returnValue

/-- The exit sequence restores the saved registers and keeps the return value. -/
theorem returned_execAll {supply : Supply} (unreserved : conv.returnValue ∉ conv.calleeSaved)
    (registers : Below supply.temps conv.calleeSaved) {after : State V W}
    (copied : ∀ pair ∈ conv.saved supply, after.temps pair.1 = σ.temps pair.2) :
    Returned conv σ after (M.execAll (conv.exit supply) after) := by
  have copies := issued_freshTemps conv.calleeSaved.length supply
  have apart : ∀ pair ∈ conv.saved supply, ∀ other ∈ conv.saved supply,
      pair.1 ≠ other.2 := by
    intro pair member other among same
    have fresh := copies.between pair.1 (List.of_mem_zip member).1
    have register := registers other.2 (List.of_mem_zip among).2
    exact absurd register (Nat.not_lt_of_le (same ▸ fresh.1))
  obtain ⟨world, others, restored⟩ :=
    execAll_restores M σ.temps (conv.saved supply) after apart copied
  rw [map_snd_saved] at others restored
  exact ⟨restored, world, others _ unreserved⟩

end Exit

/-- A function finds its formals where its frame says, and gives the registers that it has to
preserve back as it found them, whatever its body does to them. The frame is any that was made in
turns with others from one supply. The body runs from its start to its end, and may write any
temporary but the copies. -/
theorem entry_and_exit_preserve (conv : Convention) (supply : Supply)
    (positive : 0 < conv.wordSize) (closed : conv.Closed)
    (issued : Below supply.temps conv.machine)
    (unreserved : conv.returnValue ∉ conv.calleeSaved) (requests : List Allotments.Request)
    (allotment : Allotment)
    (made : allotment ∈ (Allotments.serveAll conv { supply } requests).frames) (now : Supply)
    (later : (Allotments.serveAll conv { supply } requests).supply.temps ≤ now.temps) (body : Stm)
    (unwritten : ∀ t ∈ body.writes,
      ¬ t.Between now.temps (conv.wrapBody allotment.frame body now).2.temps)
    (M : Model V W) (apart : V → V → Prop) (remembers : M.Remembers apart) (σ : State V W)
    (fits : M.Fits apart conv.wordSize allotment.frame.localBytes
      (σ.temps conv.framePointer)) :
    (conv.wrapBody allotment.frame body now).1 =
        .sequence (conv.entry allotment.frame now ++ body :: conv.exit now) ∧
      Entered M apart conv allotment.frame σ
        (M.execAll (conv.entry allotment.frame now) σ) ∧
      Returned conv σ (M.exec body (M.execAll (conv.entry allotment.frame now) σ))
        (M.exec (conv.wrapBody allotment.frame body now).1 σ) := by
  have orderly := Allotments.Orderly.serveAll requests (Allotments.orderly_start conv supply)
  have layout := orderly.layout allotment made
  have compatible := compatible_movedIn closed issued layout
    (orderly.issued_formals made) later positive fits
  have moved := moved_execAll remembers _ σ compatible
  rw [← entry_eq] at moved
  have entered := entered_of_moved compatible moved
  refine ⟨wrapBody_eq conv allotment.frame body now, entered, ?_⟩
  rw [wrapBody_eq, Model.exec_sequence, Model.execAll_append]
  apply returned_execAll unreserved
  · intro reg member
    exact Nat.lt_of_lt_of_le (issued reg (closed.calleeSaved member))
      (Nat.le_trans orderly.issued.grown later)
  · intro pair member
    have copy := issued_freshTemps conv.calleeSaved.length now
    have kept : pair.1 ∉ body.writes := fun written =>
      unwritten pair.1 written (copy.between pair.1 (List.of_mem_zip member).1)
    have held := moved.values (.inReg pair.1, pair.2)
      (List.mem_append_right _ (List.mem_map.mpr ⟨pair, member, rfl⟩))
    rw [Access.value, Model.eval] at held
    rw [Model.exec_unwritten body _ kept]
    exact congrArg Prod.fst held

/-- A convention with two argument registers and two registers to preserve. -/
def saving : Convention where
  name := "saving"
  wordSize := 8
  outgoing := 1
  registers :=
    { all := [("fp", ⟨0⟩), ("sp", ⟨1⟩), ("rv", ⟨2⟩), ("a0", ⟨3⟩), ("a1", ⟨4⟩), ("s0", ⟨5⟩),
        ("s1", ⟨6⟩)]
      framePointer := ⟨0⟩
      stackPointer := ⟨1⟩
      returnValue := ⟨2⟩
      arguments := [⟨3⟩, ⟨4⟩]
      callerSaved := [⟨2⟩, ⟨3⟩, ⟨4⟩]
      calleeSaved := [⟨5⟩, ⟨6⟩] }

/-- A body that uses a register to preserve for its own purposes. -/
def greedyBody : Stm :=
  .seq (.move (.temp ⟨5⟩) (.mem (.binop .plus (.temp ⟨0⟩) (.const (-8)))))
    (.move (.temp ⟨2⟩) (.binop .plus (.temp ⟨5⟩) (.const 1)))

/-- A frame with a formal in memory, another one in a temporary, and a local in memory. -/
def greedyFrame : Allotment where
  frame :=
    { name := "greedy"
      wordSize := 8
      formals := [.inFrame 16, .inFrame (-8), .inReg ⟨7⟩]
      incoming := [none, some ⟨3⟩, some ⟨4⟩]
      slots := 2
      registersUsed := 2 }
  locals := [.inFrame (-16)]

/-- A state in which each register holds a value of its own. -/
def onEntry : State Source.Word Memory where
  temps t := .ofNat 64 (1000 + t.index)
  world _ := 0

/-- The machine that the body runs on. -/
def greedyMachine : Model Source.Word Memory := .bytes fun _ => 0

/-- The state that the body starts in. -/
def onStart : State Source.Word Memory :=
  greedyMachine.execAll (saving.entry greedyFrame.frame { temps := 8 }) onEntry

theorem greedyBody_preserves :
    Allotments.serveAll saving { supply := { temps := 7 } }
        [.create "greedy" [true, true, false], .allocate 0 true] =
      { supply := { temps := 8 }, frames := [greedyFrame] } ∧
    (∀ t ∈ greedyBody.writes, ¬ t.Between 8 10) ∧
    greedyMachine.eval (.mem (.binop .plus (.temp ⟨0⟩) (.const (-8)))) onStart =
      (1003, onStart) ∧
    Returned saving onEntry (greedyMachine.exec greedyBody onStart)
      (greedyMachine.exec (saving.wrapBody greedyFrame.frame greedyBody { temps := 8 }).1
        onEntry) := by
  have issued : Below 7 saving.machine := by
    unfold Below
    decide
  have closed : saving.Closed := by constructor <;> decide
  have unwritten : ∀ t ∈ greedyBody.writes, ¬ t.Between 8 10 := by
    unfold Temp.Between
    decide
  obtain ⟨-, entered, returned⟩ := entry_and_exit_preserve saving { temps := 7 } (by decide)
    closed issued (by decide) [.create "greedy" [true, true, false], .allocate 0 true]
    greedyFrame List.mem_cons_self { temps := 8 } (Nat.le_refl 8) greedyBody unwritten
    greedyMachine Memory.Apart (Model.remembers_bytes _) onEntry
    (Model.fits_bytes _ (by decide) _)
  exact ⟨rfl, unwritten, entered.formals (.inFrame (-8)) ⟨3⟩ (by decide), returned⟩

/-- The frame pointer holds no argument, and neither it nor the register of results has to be
preserved. -/
def Suited (conv : Convention) : Prop :=
  0 < conv.wordSize ∧ conv.framePointer ∉ conv.arguments ∧
    conv.framePointer ∉ conv.calleeSaved ∧ conv.returnValue ∉ conv.calleeSaved

instance (conv : Convention) : Decidable conv.Suited := inferInstanceAs (Decidable (_ ∧ _))

end Convention

/-- Functions preserve registers under the convention of each architecture: it is suited, and its
registers are issued before everything else. -/
theorem Arch.convention_suited (arch : Arch) :
    ∃ conv supply, arch.target.convention.issue {} = .ok conv supply ∧ conv.Suited ∧
      conv.Closed ∧ Below supply.temps conv.machine := by
  have checked : (match arch.target.convention.issue {} with
    | .ok conv _ => decide conv.Suited
    | .error _ _ => false) = true := by
    cases arch <;> decide +kernel
  split at checked
  next conv supply issued =>
    exact ⟨conv, supply, issued, of_decide_eq_true checked, issue_closed issued⟩
  next => cases checked

end TreeCode
