import Mathlib.Data.List.Nodup
import TreeCode.Proofs.Labels
import TreeCode.WordSupply

/-!
What is drawn from a supply, whatever is asked of it and in whatever order. No label comes twice, be
it one of code or one that was made from a name, no temporary comes twice, and the temporaries that
have names are those that were drawn with one. A supply with counters of 32 bits follows one that
counts with natural numbers until its counters have no next number, and has these properties for as
long.
-/

namespace TreeCode

theorem NameLayer.lookup_insert (layer : NameLayer) (t u : Temp) (name : String) :
    List.lookup u (layer.insert t name) = if u = t then some name else List.lookup u layer := by
  rw [NameLayer.insert, List.lookup_cons]
  by_cases same : u = t
  · simp [same]
  · have differs : (u == t) = false := beq_false_of_ne same
    have kept : List.lookup u (layer.filter fun entry => entry.1 != t) = List.lookup u layer := by
      induction layer with
      | nil => rfl
      | cons entry layer ih =>
        obtain ⟨v, text⟩ := entry
        by_cases dropped : v = t
        · simp [dropped, List.lookup_cons, differs, ih]
        · simp [dropped, List.lookup_cons, ih]
    simp [same, differs, kept]

/-- A name that is entered is found, and hides no other. -/
theorem NameMap.lookup_insert (map : NameMap) (t u : Temp) (name : String) :
    (map.insert t name).lookup? u = if u = t then some name else map.lookup? u := by
  rw [NameMap.lookup?, NameMap.insert, List.findSome?_cons, NameLayer.lookup_insert]
  by_cases same : u = t
  · simp [same]
  · simp [same, NameMap.lookup?, List.findSome?_cons]

/-- Something that is asked of a supply. -/
inductive Draw where
  | temp
  | named (name : String)
  | label
  | labelFor (name : String)

/-- Whether a temporary is asked for, and not a label. -/
def Draw.isTemp : Draw → Bool
  | temp | named _ => true
  | label | labelFor _ => false

/-- How often a temporary is asked for. -/
def tempDraws (draws : List Draw) : Nat := draws.countP Draw.isTemp

/-- How often a label is asked for. -/
def labelDraws (draws : List Draw) : Nat := draws.countP fun draw => !draw.isTemp

theorem tempDraws_cons (draw : Draw) (draws : List Draw) :
    tempDraws (draw :: draws) = (if draw.isTemp then 1 else 0) + tempDraws draws :=
  List.countP_cons.trans (Nat.add_comm _ _)

theorem labelDraws_cons (draw : Draw) (draws : List Draw) :
    labelDraws (draw :: draws) = (if draw.isTemp then 0 else 1) + labelDraws draws := by
  unfold labelDraws
  rw [List.countP_cons, Nat.add_comm]
  cases draw.isTemp <;> rfl

/-- What has been drawn from a supply, in order. -/
structure Drawn where
  temps : List Temp := []
  /-- The temporaries among these that were drawn with a name. -/
  named : List (Temp × String) := []
  labels : List Label := []
deriving DecidableEq

/-- A supply, and what has been drawn from it. -/
structure Draws extends Drawn where
  supply : Supply := {}

namespace Draws

/-- One more draw. -/
def draw (s : Draws) : Draw → Draws
  | .temp =>
    let (t, supply) := freshTemp s.supply
    { s with supply, temps := s.temps ++ [t] }
  | .named name =>
    let (t, supply) := freshNamed name s.supply
    { s with supply, temps := s.temps ++ [t], named := s.named ++ [(t, name)] }
  | .label =>
    let (label, supply) := freshLabel s.supply
    { s with supply, labels := s.labels ++ [label] }
  | .labelFor name =>
    let (label, supply) := freshLabelFor name s.supply
    { s with supply, labels := s.labels ++ [label] }

/-- Draws one after the other. -/
def drawAll (s : Draws) (draws : List Draw) : Draws := draws.foldl draw s

/-- The temporaries came in order, the labels have the numbers up to now, and those temporaries have
names that were drawn with them. -/
structure Orderly (s : Draws) : Prop where
  temps : s.temps = (List.range s.supply.temps).map Temp.mk
  labels : Issued 0 s.supply.labels s.labels
  old : ∀ t name, (t, name) ∈ s.named → t.index < s.supply.temps
  names : ∀ t name, s.supply.names.lookup? t = some name ↔ (t, name) ∈ s.named

theorem orderly_start : Orderly {} where
  temps := rfl
  labels := issued_nil (Nat.le_refl 0)
  old := by simp
  names := by simp [NameMap.lookup?, NameMap.empty]

variable {s : Draws}

/-- The temporary that comes next. -/
theorem Orderly.next (orderly : s.Orderly) :
    s.temps ++ [⟨s.supply.temps⟩] = (List.range (s.supply.temps + 1)).map Temp.mk := by
  rw [orderly.temps, List.range_succ, List.map_append]
  rfl

/-- A draw gets the next number. -/
theorem Orderly.draw (orderly : s.Orderly) (draw : Draw) : (s.draw draw).Orderly := by
  cases draw with
  | temp =>
    refine ⟨orderly.next, orderly.labels, ?_, orderly.names⟩
    intro t name drawn
    exact Nat.lt_succ_of_lt (orderly.old t name drawn)
  | named name =>
    refine ⟨orderly.next, orderly.labels, ?_, ?_⟩
    · intro t text drawn
      rcases List.mem_append.mp drawn with early | now
      · exact Nat.lt_succ_of_lt (orderly.old t text early)
      · cases List.mem_singleton.mp now
        exact Nat.lt_succ_self _
    · intro t text
      change (s.supply.names.insert ⟨s.supply.temps⟩ name).lookup? t = some text ↔
        (t, text) ∈ s.named ++ [(⟨s.supply.temps⟩, name)]
      rw [NameMap.lookup_insert, List.mem_append, List.mem_singleton]
      by_cases new : t = ⟨s.supply.temps⟩
      · -- The temporary is new, so no earlier draw has named it.
        have unnamed : (t, text) ∉ s.named := fun early =>
          absurd (orderly.old t text early) (by simp [new])
        simp [new, new ▸ unnamed, eq_comm]
      · simp [new, orderly.names]
  | label =>
    exact ⟨orderly.temps, orderly.labels.append (issued_single (numbered_freshLabel s.supply)),
      orderly.old, orderly.names⟩
  | labelFor name =>
    exact ⟨orderly.temps,
      orderly.labels.append (issued_single (numbered_freshLabelFor name s.supply)),
      orderly.old, orderly.names⟩

/-- After any draws, temporaries and labels are numbered in the order in which they were drawn. -/
theorem Orderly.drawAll (orderly : s.Orderly) (draws : List Draw) : (s.drawAll draws).Orderly := by
  induction draws generalizing s with
  | nil => exact orderly
  | cons draw draws ih => exact ih (orderly.draw draw)

theorem draw_supply (s : Draws) (draw : Draw) :
    (s.draw draw).supply.temps = s.supply.temps + (if draw.isTemp then 1 else 0) ∧
      (s.draw draw).supply.labels = s.supply.labels + (if draw.isTemp then 0 else 1) := by
  cases draw <;> exact ⟨rfl, rfl⟩

/-- A supply counts what is drawn from it. -/
theorem drawAll_supply (s : Draws) (draws : List Draw) :
    (s.drawAll draws).supply.temps = s.supply.temps + tempDraws draws ∧
      (s.drawAll draws).supply.labels = s.supply.labels + labelDraws draws := by
  induction draws generalizing s with
  | nil => exact ⟨rfl, rfl⟩
  | cons draw draws ih =>
    obtain ⟨temps, labels⟩ := ih (s.draw draw)
    obtain ⟨temp, label⟩ := draw_supply s draw
    rw [tempDraws_cons, labelDraws_cons]
    exact ⟨temps.trans (by omega), labels.trans (by omega)⟩

end Draws

/-- A supply with counters of 32 bits, and what has been drawn from it. -/
structure WordDraws extends Drawn where
  supply : WordSupply := {}

namespace WordDraws

variable {overflow : Overflow} {s : Draws} {w w' : WordDraws}

/-- One more draw. -/
def draw (overflow : Overflow) (w : WordDraws) : Draw → Option WordDraws
  | .temp =>
    (WordSupply.freshTemp overflow w.supply).map fun (t, supply) =>
      { w with supply, temps := w.temps ++ [t] }
  | .named name =>
    (WordSupply.freshNamed overflow name w.supply).map fun (t, supply) =>
      { w with supply, temps := w.temps ++ [t], named := w.named ++ [(t, name)] }
  | .label =>
    (WordSupply.freshLabel overflow w.supply).map fun (label, supply) =>
      { w with supply, labels := w.labels ++ [label] }
  | .labelFor name =>
    (WordSupply.freshLabelFor overflow name w.supply).map fun (label, supply) =>
      { w with supply, labels := w.labels ++ [label] }

/-- Draws one after the other. -/
def drawAll (overflow : Overflow) (w : WordDraws) (draws : List Draw) : Option WordDraws :=
  draws.foldlM (draw overflow) w

/-- The counter that a draw takes its number from. -/
def counter (w : WordDraws) (draw : Draw) : UInt32 :=
  if draw.isTemp then w.supply.nextTemp else w.supply.nextLabel

/-- What one more draw leads to, where `next` is the number after the one that it takes. -/
def after (w : WordDraws) (next : UInt32) : Draw → WordDraws
  | .temp =>
    { w with
      supply.nextTemp := next
      temps := w.temps ++ [⟨w.supply.nextTemp.toNat⟩] }
  | .named name =>
    { w with
      supply.nextTemp := next
      supply.names := w.supply.names.insert ⟨w.supply.nextTemp.toNat⟩ name
      temps := w.temps ++ [⟨w.supply.nextTemp.toNat⟩]
      named := w.named ++ [(⟨w.supply.nextTemp.toNat⟩, name)] }
  | .label =>
    { w with
      supply.nextLabel := next
      labels := w.labels ++ [".L" ++ toString w.supply.nextLabel.toNat] }
  | .labelFor name =>
    { w with
      supply.nextLabel := next
      labels := w.labels ++ [name ++ "." ++ toString w.supply.nextLabel.toNat] }

/-- A draw with counters of 32 bits: it moves its counter on and otherwise does what a draw does. -/
theorem draw_eq (w : WordDraws) (draw : Draw) :
    w.draw overflow draw =
      (overflow.next (w.counter draw)).map fun next => w.after next draw := by
  cases draw <;> exact Option.map_map ..

/-- A counter moves on unless it is at its end and stops there. -/
theorem next_eq_some {counter next : UInt32} :
    overflow.next counter = some next ↔
      (overflow = .stops → counter.toNat + 1 < UInt32.size) ∧ counter + 1 = next := by
  cases overflow with
  | stops =>
    have wrapped : counter + 1 = 0 ↔ ¬ counter.toNat + 1 < UInt32.size := by
      rw [← UInt32.toNat_inj, UInt32.toNat_add]
      have small := counter.toNat_lt
      simp [UInt32.size]
      omega
    simp only [Overflow.next, wrapped]
    by_cases room : counter.toNat + 1 < UInt32.size <;> simp [room]
  | wraps => simp [Overflow.next]

/-- A draw fails only where a counter stops. -/
theorem draw_eq_some {draw : Draw} :
    w.draw overflow draw = some w' ↔
      (overflow = .stops → (w.counter draw).toNat + 1 < UInt32.size) ∧
        w.after (w.counter draw + 1) draw = w' := by
  rw [draw_eq, Option.map_eq_some_iff]
  constructor
  · rintro ⟨next, found, same⟩
    obtain ⟨room, rfl⟩ := next_eq_some.mp found
    exact ⟨room, same⟩
  · rintro ⟨room, same⟩
    exact ⟨_, next_eq_some.mpr ⟨room, rfl⟩, same⟩

theorem after_supply (w : WordDraws) (next : UInt32) (draw : Draw) :
    (w.after next draw).supply.nextTemp = (if draw.isTemp then next else w.supply.nextTemp) ∧
      (w.after next draw).supply.nextLabel =
        (if draw.isTemp then w.supply.nextLabel else next) := by
  cases draw <;> exact ⟨rfl, rfl⟩

theorem isSome_drawAll_cons (w : WordDraws) (draw : Draw) (draws : List Draw) :
    (w.drawAll overflow (draw :: draws)).isSome ↔
      (overflow = .stops → (w.counter draw).toNat + 1 < UInt32.size) ∧
        ((w.after (w.counter draw + 1) draw).drawAll overflow draws).isSome := by
  change (w.draw overflow draw >>= fun next => next.drawAll overflow draws).isSome ↔ _
  simp only [Option.isSome_iff_exists, Option.bind_eq_bind, Option.bind_eq_some_iff, draw_eq_some]
  constructor
  · rintro ⟨last, _, ⟨room, rfl⟩, ran⟩
    exact ⟨room, last, ran⟩
  · rintro ⟨room, last, ran⟩
    exact ⟨last, _, ⟨room, rfl⟩, ran⟩

/-- There is room for `count` numbers after the next one if there is for one more now. -/
theorem room_iff {counter : UInt32} {count : Nat} :
    counter.toNat + 1 < UInt32.size ∧ (counter + 1).toNat + count < UInt32.size ↔
      counter.toNat + (1 + count) < UInt32.size := by
  have next (room : counter.toNat + 1 < UInt32.size) :
      (counter + 1).toNat = counter.toNat + 1 := by
    rw [UInt32.toNat_add]
    exact Nat.mod_eq_of_lt room
  constructor
  · rintro ⟨room, rest⟩
    rw [next room] at rest
    omega
  · intro room
    have first : counter.toNat + 1 < UInt32.size := by omega
    rw [next first]
    omega

/-- Drawing succeeds unless a counter stops on the way. -/
theorem drawAll_isSome_iff (w : WordDraws) (draws : List Draw) :
    (w.drawAll overflow draws).isSome ↔ (overflow = .stops →
      w.supply.nextTemp.toNat + tempDraws draws < UInt32.size ∧
        w.supply.nextLabel.toNat + labelDraws draws < UInt32.size) := by
  induction draws generalizing w with
  | nil =>
    have small := w.supply.nextTemp.toNat_lt
    have small' := w.supply.nextLabel.toNat_lt
    exact iff_of_true rfl fun _ => ⟨small, small'⟩
  | cons draw draws ih =>
    obtain ⟨nextTemp, nextLabel⟩ := after_supply w (w.counter draw + 1) draw
    rw [isSome_drawAll_cons, ih, nextTemp, nextLabel, tempDraws_cons, labelDraws_cons]
    rw [← imp_and]
    refine imp_congr_right fun _ => ?_
    unfold counter
    cases draw.isTemp with
    | true =>
      simp only [reduceIte, Nat.zero_add]
      rw [← and_assoc, room_iff]
    | false =>
      simp only [Bool.false_eq_true, reduceIte, Nat.zero_add]
      rw [and_left_comm, room_iff]

/-- The temporary that has the index of `t` in a word. -/
def inWord (t : Temp) : Temp := ⟨t.index % UInt32.size⟩

/-- The counters have the numbers of `s` in words. Until there is no room for a number, what has
been drawn is the same. -/
structure Follows (w : WordDraws) (s : Draws) : Prop where
  nextTemp : w.supply.nextTemp.toNat = s.supply.temps % UInt32.size
  nextLabel : w.supply.nextLabel.toNat = s.supply.labels % UInt32.size
  temps : w.temps = s.temps.map inWord
  named : s.supply.temps ≤ UInt32.size → w.named = s.named ∧ w.supply.names = s.supply.names
  labels : s.supply.labels ≤ UInt32.size → w.labels = s.labels
  labelCount : w.labels.length = s.supply.labels
  dots : ∀ label ∈ w.labels, '.' ∈ label.toList

theorem follows_start : Follows {} {} where
  nextTemp := rfl
  nextLabel := rfl
  temps := rfl
  named _ := ⟨rfl, rfl⟩
  labels _ := rfl
  labelCount := rfl
  dots := by simp

theorem toNat_next {counter : UInt32} {count : Nat} (same : counter.toNat = count % UInt32.size) :
    (counter + 1).toNat = (count + 1) % UInt32.size := by
  rw [UInt32.toNat_add, same]
  exact Nat.mod_add_mod count UInt32.size 1

/-- One more label, made from the number of either side. -/
theorem Follows.addLabel (follows : w.Follows s) (text : Nat → Label)
    (dotted : ∀ n, '.' ∈ (text n).toList) :
    Follows
      { w with
        supply.nextLabel := w.supply.nextLabel + 1
        labels := w.labels ++ [text w.supply.nextLabel.toNat] }
      { s with
        supply.labels := s.supply.labels + 1
        labels := s.labels ++ [text s.supply.labels] } := by
  refine { follows with
    nextLabel := toNat_next follows.nextLabel
    labels := ?_
    labelCount := ?_
    dots := List.forall_mem_append.mpr ⟨follows.dots, List.forall_mem_singleton.mpr (dotted _)⟩ }
  · intro room
    have same : w.supply.nextLabel.toNat = s.supply.labels :=
      follows.nextLabel.trans (Nat.mod_eq_of_lt room)
    have earlier := follows.labels (Nat.le_of_succ_le room)
    change w.labels ++ [text w.supply.nextLabel.toNat] = s.labels ++ [text s.supply.labels]
    rw [earlier, same]
  · change (w.labels ++ [text w.supply.nextLabel.toNat]).length = s.supply.labels + 1
    rw [List.length_append, follows.labelCount]
    rfl

/-- The words go on to follow the numbers, since one more is one more up to the size of a word. -/
theorem Follows.draw (follows : w.Follows s) (draw : Draw) :
    (w.after (w.counter draw + 1) draw).Follows (s.draw draw) := by
  have temps : w.temps ++ [Temp.mk w.supply.nextTemp.toNat] =
      (s.temps ++ [Temp.mk s.supply.temps]).map inWord := by
    rw [follows.temps, follows.nextTemp, List.map_append]
    rfl
  cases draw with
  | temp =>
    exact { follows with
      nextTemp := toNat_next follows.nextTemp
      temps
      named := fun room => follows.named (Nat.le_of_succ_le room) }
  | named name =>
    refine { follows with nextTemp := toNat_next follows.nextTemp, temps, named := ?_ }
    intro room
    have same : w.supply.nextTemp.toNat = s.supply.temps :=
      follows.nextTemp.trans (Nat.mod_eq_of_lt room)
    obtain ⟨named, names⟩ := follows.named (Nat.le_of_succ_le room)
    change w.named ++ [(⟨w.supply.nextTemp.toNat⟩, name)] = _ ∧
      w.supply.names.insert ⟨w.supply.nextTemp.toNat⟩ name = _
    rw [named, names, same]
    exact ⟨rfl, rfl⟩
  | label => exact follows.addLabel (fun n => ".L" ++ toString n) (by simp)
  | labelFor name => exact follows.addLabel (fun n => name ++ "." ++ toString n) (by simp)

/-- Draws that are not stopped follow the draws without a bound. -/
theorem Follows.drawAll (follows : w.Follows s) {draws : List Draw}
    (ran : w.drawAll overflow draws = some w') : w'.Follows (s.drawAll draws) := by
  induction draws generalizing w s with
  | nil =>
    cases ran
    exact follows
  | cons draw draws ih =>
    obtain ⟨next, drawn, ran⟩ := Option.bind_eq_some_iff.mp ran
    obtain ⟨_, rfl⟩ := draw_eq_some.mp drawn
    exact ih (follows.draw draw) ran

/-- Numbers within the range of a word are kept. -/
theorem map_inWord {count : Nat} (room : count ≤ UInt32.size) :
    ((List.range count).map Temp.mk).map inWord = (List.range count).map Temp.mk := by
  rw [List.map_map]
  refine List.map_congr_left fun k member => ?_
  exact congrArg Temp.mk (Nat.mod_eq_of_lt (Nat.lt_of_lt_of_le (List.mem_range.mp member) room))

theorem range_temps_nodup (count : Nat) : ((List.range count).map Temp.mk).Nodup :=
  List.nodup_range.map fun _ _ same => congrArg Temp.index same

/-- The temporaries in words are different as long as there are words for them. -/
theorem nodup_map_inWord {count : Nat} :
    (((List.range count).map Temp.mk).map inWord).Nodup ↔ count ≤ UInt32.size := by
  constructor
  · intro distinct
    rw [List.map_map] at distinct
    by_contra beyond
    -- The counter has begun again, so the first temporary has come a second time.
    have same : 0 = UInt32.size := List.inj_on_of_nodup_map distinct
      (List.mem_range.mpr (by omega)) (List.mem_range.mpr (by omega)) rfl
    cases same
  · intro room
    rw [map_inWord room]
    exact range_temps_nodup count

/-- No counter begins again while it issues `count` numbers. -/
def NoRestart (overflow : Overflow) (count : Nat) : Prop :=
  overflow = .wraps → count ≤ UInt32.size

/-- A counter that stops never starts again. -/
theorem noRestart_stops (count : Nat) : NoRestart .stops count := by
  intro same
  cases same

/-- Where counters stop, they have not run out of numbers if nothing has failed. -/
theorem noRestart_iff {count : Nat} (bounded : overflow = .stops → count < UInt32.size) :
    NoRestart overflow count ↔ count ≤ UInt32.size := by
  cases overflow with
  | stops => exact iff_of_true (noRestart_stops count) (Nat.le_of_lt (bounded rfl))
  | wraps => exact ⟨fun room => room rfl, fun room _ => room⟩

/-- Nothing comes twice, for as long as the counters have room. Drawing fails only where a counter
that has no next number stops. Of what was drawn otherwise, the labels are pairwise different texts
with a dot in them, whatever names they were made from, the temporaries are pairwise different, and
the supply has names for those that were drawn with a name, the names they were drawn with, and for
no others. Everything is then as if it had been counted with natural numbers. After a counter has
begun again, temporaries do come twice. -/
theorem drawn_never_collide (overflow : Overflow) (draws : List Draw) :
    ((drawAll overflow {} draws).isSome ↔ (overflow = .stops →
      tempDraws draws < UInt32.size ∧ labelDraws draws < UInt32.size)) ∧
    ∀ w, drawAll overflow {} draws = some w →
      w.temps.length = tempDraws draws ∧ w.labels.length = labelDraws draws ∧
      (∀ label ∈ w.labels, '.' ∈ label.toList) ∧
      (NoRestart overflow (labelDraws draws) →
        w.labels.Nodup ∧ w.labels = (Draws.drawAll {} draws).labels) ∧
      (w.temps.Nodup ↔ NoRestart overflow (tempDraws draws)) ∧
      (NoRestart overflow (tempDraws draws) →
        w.temps = (Draws.drawAll {} draws).temps ∧ w.named = (Draws.drawAll {} draws).named ∧
        ∀ t name, w.supply.names.lookup? t = some name ↔ (t, name) ∈ w.named) := by
  have succeeds : (drawAll overflow {} draws).isSome ↔ (overflow = .stops →
      tempDraws draws < UInt32.size ∧ labelDraws draws < UInt32.size) := by
    simpa using @drawAll_isSome_iff overflow {} draws
  refine ⟨succeeds, fun w ran => ?_⟩
  have follows := follows_start.drawAll ran
  have orderly := Draws.orderly_start.drawAll draws
  obtain ⟨tempCount, labelCount⟩ := Draws.drawAll_supply {} draws
  rw [Nat.zero_add] at tempCount labelCount
  have bounded := succeeds.mp (Option.isSome_iff_exists.mpr ⟨w, ran⟩)
  have tempRoom := noRestart_iff fun stops => (bounded stops).1
  have labelRoom := noRestart_iff fun stops => (bounded stops).2
  have temps : w.temps = ((List.range (tempDraws draws)).map Temp.mk).map inWord := by
    rw [follows.temps, orderly.temps, tempCount]
  refine ⟨?_, follows.labelCount.trans labelCount, follows.dots, ?_, ?_, ?_⟩
  · rw [temps, List.length_map, List.length_map, List.length_range]
  · intro fits
    have same := follows.labels (labelCount ▸ labelRoom.mp fits)
    exact ⟨same ▸ orderly.labels.distinct, same⟩
  · rw [temps, nodup_map_inWord, tempRoom]
  · intro fits
    have room := tempRoom.mp fits
    obtain ⟨named, names⟩ := follows.named (tempCount ▸ room)
    refine ⟨?_, named, ?_⟩
    · rw [temps, map_inWord room, orderly.temps, tempCount]
    · rw [names, named]
      exact orderly.names

/-- Draws of labels that look alike, and of temporaries with and without names. -/
def lookalikes : List Draw :=
  [.labelFor ".L1", .temp, .label, .named "rax", .labelFor "", .labelFor "f.0", .named "rax",
    .label]

theorem lookalikes_never_collide :
    ∃ w, drawAll .stops {} lookalikes = some w ∧
      w.labels = [".L1.0", ".L1", ".2", "f.0.3", ".L4"] ∧ w.labels.Nodup ∧
      w.temps = [⟨0⟩, ⟨1⟩, ⟨2⟩] ∧ w.temps.Nodup ∧
      w.supply.names.lookup? ⟨0⟩ = none ∧ w.supply.names.lookup? ⟨2⟩ = some "rax" := by
  obtain ⟨succeeds, drawn⟩ := drawn_never_collide .stops lookalikes
  obtain ⟨w, ran⟩ := Option.isSome_iff_exists.mp (succeeds.mpr (by decide))
  obtain ⟨_, _, _, labels, temps, names⟩ := drawn w ran
  obtain ⟨distinct, sameLabels⟩ := labels (noRestart_stops _)
  obtain ⟨sameTemps, sameNamed, named⟩ := names (noRestart_stops _)
  refine ⟨w, ran, sameLabels.trans (by decide), distinct, sameTemps.trans (by decide),
    temps.mpr (noRestart_stops _), ?_, (named _ _).mpr (by rw [sameNamed]; decide)⟩
  refine Option.eq_none_iff_forall_ne_some.mpr fun name found => ?_
  have drawn := (named _ _).mp found
  rw [sameNamed] at drawn
  simp [lookalikes, Draws.drawAll, Draws.draw, freshNamed, freshTemp, freshLabel,
    freshLabelFor] at drawn

end WordDraws

end TreeCode
