import TreeCode.Proofs.Canonical.Preservation
import TreeCode.Proofs.Lowering.Success
import TreeCode.Proofs.Tree.Bytes
import TreeCode.Proofs.Tree.Trails

/-!
Loops that count. The variable runs through all values from the lower to the upper bound, each
once and in order, and is never incremented beyond the upper bound; so there is no overflow even if
that is the largest word. The variable may live in a temporary or in the frame.
-/

namespace TreeCode

open Tree
open Source (Word)

/-- The parts of a loop that counts. -/
structure CountingLoop where
  /-- Where the variable lives. -/
  access : Access
  /-- The frame pointer. -/
  pointer : Temp
  /-- Where the upper bound is kept. -/
  limit : Temp
  lo : Exp
  hi : Exp
  body : Stm
  bodyLabel : Label
  next : Label
  done : Label

namespace CountingLoop

variable (loop : CountingLoop)

/-- The variable. -/
def counter : Exp := loop.access.value (.temp loop.pointer)

/-- The loop as a statement. -/
def code : Stm :=
  Lowering.countingLoop loop.counter (.temp loop.limit) loop.lo loop.hi loop.body loop.bodyLabel
    loop.next loop.done

/-- The moves of the bounds to the variable and to the limit. -/
def bounds : Stm := .seq (.move loop.counter loop.lo) (.move (.temp loop.limit) loop.hi)

/-- One more than the variable. -/
def successor : Exp := .binop .plus loop.counter (.const 1)

/-- The statement that increments the variable. -/
def increment : Stm := .move loop.counter loop.successor

/-- A comparison of the variable with the limit. -/
def compare (op : RelOp) (yes : Label) : Stm :=
  .cjump op loop.counter (.temp loop.limit) yes loop.done

variable {loop}

theorem counter_inReg {t : Temp} (stored : loop.access = .inReg t) : loop.counter = .temp t := by
  rw [counter, stored]
  rfl

theorem counter_inFrame {offset : Int} (stored : loop.access = .inFrame offset) :
    loop.counter = .mem (.binop .plus (.temp loop.pointer) (.const offset)) := by
  rw [counter, stored]
  rfl

/-- The variable of a loop is read without further statements. -/
theorem isFlat_counter : loop.counter.isFlat = true := by
  unfold counter
  cases loop.access with
  | inFrame offset => rfl
  | inReg t => rfl

theorem isFlat_successor : loop.successor.isFlat = true := by
  simp [successor, Exp.isFlat, isFlat_counter]

section Layout

/-- The canonical statements of a loop stand at their places in `code`: the first test at `p`, the
body between `p + 2` and `q`, and the second test at `q`. -/
structure Placed (loop : CountingLoop) (code body : List Stm) (p q : Nat) : Prop where
  distinct : (marks code).Nodup
  test : code[p]? = some (loop.compare .le loop.bodyLabel)
  entrance : code[p + 1]? = some (.label loop.bodyLabel)
  inside : ∃ pre post, code = pre ++ body ++ post ∧ pre.length = p + 2 ∧ (pre ++ body).length = q
  retest : code[q]? = some (loop.compare .lt loop.next)
  onward : code[q + 1]? = some (.label loop.next)
  rise : code[q + 2]? = some loop.increment
  back : code[q + 3]? = some (.goto loop.bodyLabel)
  finish : code[q + 4]? = some (.label loop.done)

theorem canonical_compare (op : RelOp) (yes : Label) (supply : Supply) :
    (loop.compare op yes).canonical supply = ([loop.compare op yes], supply) := by
  unfold compare counter
  cases loop.access with
  | inFrame offset => rfl
  | inReg t => rfl

/-- The increment of a loop is in canonical form. -/
theorem canonical_increment (supply : Supply) :
    loop.increment.canonical supply = ([loop.increment], supply) := by
  unfold increment successor counter
  cases loop.access with
  | inFrame offset => rfl
  | inReg t => rfl

theorem canonical_seq (first second : Stm) (supply : Supply) :
    ((Stm.seq first second).canonical supply).1 =
      (first.canonical supply).1 ++ (second.canonical (first.canonical supply).2).1 :=
  toList_andThen _ _

/-- The canonical form of a loop: that of its bounds and that of its body, with the statements of
the loop itself around it. -/
theorem canonical_code (supply : Supply) :
    (loop.code.canonical supply).1 =
      (loop.bounds.canonical supply).1 ++
        [loop.compare .le loop.bodyLabel, .label loop.bodyLabel] ++
        (loop.body.canonical (loop.bounds.canonical supply).2).1 ++
        [loop.compare .lt loop.next, .label loop.next, loop.increment, .goto loop.bodyLabel,
          .label loop.done] := by
  change (Stm.canonical (.seq (.move loop.counter loop.lo) (.seq (.move (.temp loop.limit) loop.hi)
    (.seq (loop.compare .le loop.bodyLabel) (.seq (.label loop.bodyLabel) (.seq loop.body
      (.seq (loop.compare .lt loop.next) (.seq (.label loop.next) (.seq loop.increment
        (.seq (.goto loop.bodyLabel) (.label loop.done))))))))))
    supply).1 = _
  simp only [bounds, canonical_seq, canonical_compare, canonical_increment, List.append_assoc]
  rfl

theorem getElem?_behind (front rest : List Stm) (k : Nat) :
    (front ++ rest)[front.length + k]? = rest[k]? := by
  rw [List.getElem?_append_right (Nat.le_add_right _ _), Nat.add_sub_cancel_left]

/-- Canonical form keeps the parts of a loop together, with the labels where the jumps go. -/
theorem placed_canonical {pre post : List Stm} {supply : Supply}
    (distinct : (marks (pre ++ (loop.code.canonical supply).1 ++ post)).Nodup) :
    ∃ q, loop.Placed (pre ++ (loop.code.canonical supply).1 ++ post)
      (loop.body.canonical (loop.bounds.canonical supply).2).1
      (pre ++ (loop.bounds.canonical supply).1).length q := by
  rw [canonical_code] at distinct ⊢
  generalize (loop.bounds.canonical supply).1 = bounds at distinct ⊢
  generalize (loop.body.canonical _).1 = body at distinct ⊢
  let front := pre ++ bounds ++ [loop.compare .le loop.bodyLabel, .label loop.bodyLabel]
  let back := [loop.compare .lt loop.next, .label loop.next, loop.increment, .goto loop.bodyLabel,
    .label loop.done] ++ post
  have ahead (k : Nat) := getElem?_behind (pre ++ bounds)
    ([loop.compare .le loop.bodyLabel, .label loop.bodyLabel] ++ body ++ back) k
  have behind (k : Nat) := getElem?_behind (front ++ body) back k
  have whole : pre ++ (bounds ++ [loop.compare .le loop.bodyLabel, .label loop.bodyLabel] ++ body ++
      [loop.compare .lt loop.next, .label loop.next, loop.increment, .goto loop.bodyLabel,
        .label loop.done]) ++ post = front ++ body ++ back := by
    simp only [front, back, List.append_assoc]
  rw [whole] at distinct ⊢
  have split : front ++ body ++ back = pre ++ bounds ++
      ([loop.compare .le loop.bodyLabel, .label loop.bodyLabel] ++ body ++ back) := by
    simp only [front, List.append_assoc]
  rw [← split] at ahead
  exact ⟨(front ++ body).length, distinct, ahead 0, ahead 1,
    ⟨front, back, rfl, List.length_append, rfl⟩, behind 0, behind 1, behind 2, behind 3, behind 4⟩

end Layout

section Storage

/-- The variable and the limit are stored apart from what the bounds know, which is below `m`, and
below `n`. -/
structure Fits (loop : CountingLoop) (m n : Nat) : Prop where
  pointer : loop.pointer.index < m
  register : ∀ t, loop.access = .inReg t → m ≤ t.index ∧ t.index < loop.limit.index
  limit_fresh : m ≤ loop.limit.index
  limit_below : loop.limit.index < n

variable {m n : Nat}

/-- The variable of a loop is a temporary, or is reached from the frame pointer. -/
theorem mem_counter {t : Temp} (member : t ∈ loop.counter.temps) :
    t = loop.pointer ∨ loop.access = .inReg t := by
  cases stored : loop.access with
  | inFrame offset =>
    rw [counter_inFrame stored] at member
    exact .inl (List.mem_singleton.mp member)
  | inReg u =>
    rw [counter_inReg stored] at member
    exact .inr (by rw [List.mem_singleton.mp member])

/-- The temporaries of the variable come before the one of the limit. -/
theorem Fits.counter_below (fits : loop.Fits m n) : Below loop.limit.index loop.counter.temps := by
  intro t member
  rcases mem_counter member with rfl | stored
  · exact Nat.lt_of_lt_of_le fits.pointer fits.limit_fresh
  · exact (fits.register t stored).2

theorem Fits.below (fits : loop.Fits m n) : Below n loop.counter.temps := fun t member =>
  Nat.lt_trans (fits.counter_below t member) fits.limit_below

theorem Fits.limit_notMem (fits : loop.Fits m n) : loop.limit ∉ loop.counter.temps := fun member =>
  Nat.lt_irrefl _ (fits.counter_below _ member)

variable {W : Type} {M : Model Word W} {σ τ : State Word W}

/-- States that agree below the new temporaries have the same value of the variable. -/
theorem value_counter (fits : loop.Fits m n) (agree : σ.Agree n τ) :
    M.value σ loop.counter = M.value τ loop.counter :=
  M.value_congr isFlat_counter agree.1 fun t member => agree.2 t (fits.below t member)

/-- One more than the value of the variable. -/
theorem value_successor (words : M.OnWords) (σ : State Word W) :
    M.value σ loop.successor = M.value σ loop.counter + 1 := by
  unfold successor
  rw [M.value_binop σ isFlat_counter, M.value_const, words.binop, words.const]
  rfl

/-- A variable in a temporary. -/
theorem value_inReg {t : Temp} (stored : loop.access = .inReg t) (σ : State Word W) :
    M.value σ loop.counter = σ.temps t := by
  rw [counter_inReg stored, M.value_temp]

/-- A variable in the frame. -/
theorem value_inFrame {offset : Int} (stored : loop.access = .inFrame offset) (σ : State Word W) :
    M.value σ loop.counter =
      M.load σ.world (M.binop .plus (σ.temps loop.pointer) (M.const offset)) := by
  rw [counter_inFrame stored]
  exact M.value_mem σ rfl

theorem exec_increment_inReg {t : Temp} (stored : loop.access = .inReg t) (σ : State Word W) :
    M.exec loop.increment σ = σ.set t (M.value σ loop.successor) := by
  rw [increment, counter_inReg stored, M.exec_move_temp σ isFlat_successor]

theorem exec_increment_inFrame {offset : Int} (stored : loop.access = .inFrame offset)
    (σ : State Word W) :
    M.exec loop.increment σ =
      σ.withWorld (M.store σ.world (M.binop .plus (σ.temps loop.pointer) (M.const offset))
        (M.value σ loop.successor)) := by
  rw [increment, counter_inFrame stored, M.exec_move_mem σ rfl isFlat_successor]
  rfl

/-- The increment adds one to the variable. -/
theorem value_increment (sound : ∀ world a v, M.load (M.store world a v) a = v)
    (σ : State Word W) :
    M.value (M.exec loop.increment σ) loop.counter = M.value σ loop.successor := by
  cases stored : loop.access with
  | inReg t => rw [value_inReg stored, exec_increment_inReg stored, State.set_temps_same]
  | inFrame offset =>
    rw [value_inFrame stored, exec_increment_inFrame stored]
    exact sound _ _ _

/-- The increment leaves the limit alone. -/
theorem limit_increment (fits : loop.Fits m n) (σ : State Word W) :
    (M.exec loop.increment σ).temps loop.limit = σ.temps loop.limit := by
  cases stored : loop.access with
  | inReg t =>
    have different : loop.limit ≠ t := by
      rintro same
      have before := (fits.register t stored).2
      rw [same] at before
      exact Nat.lt_irrefl _ before
    rw [exec_increment_inReg stored, State.set_temps_ne _ _ different]
  | inFrame offset => rw [exec_increment_inFrame stored, State.withWorld_temps]

/-- States that agree go on to agree after the increment. -/
theorem agree_increment (words : M.OnWords) (fits : loop.Fits m n) (agree : σ.Agree n τ) :
    (M.exec loop.increment σ).Agree n (M.exec loop.increment τ) := by
  have same : M.value σ loop.successor = M.value τ loop.successor := by
    rw [value_successor words, value_successor words, value_counter fits agree]
  cases stored : loop.access with
  | inReg t =>
    rw [exec_increment_inReg stored, exec_increment_inReg stored, same]
    exact agree.set t _
  | inFrame offset =>
    have pointer : loop.pointer ∈ loop.counter.temps := by
      rw [counter_inFrame stored]
      exact List.mem_cons_self
    rw [exec_increment_inFrame stored, exec_increment_inFrame stored, same, agree.1,
      agree.2 _ (fits.below _ pointer)]
    exact ⟨rfl, agree.2⟩

end Storage

section Numbers

/-- How many numbers there are from `x` to `y`. -/
def rangeSize (x y : Word) : Nat := (y.toInt - x.toInt + 1).toNat

/-- As many numbers as `count` says, from `x` on. -/
def numbers (x : Word) (count : Nat) : List Int := (List.range count).map fun i : Nat => x.toInt + i

theorem numbers_succ (x : Word) (count : Nat) :
    numbers x (count + 1) = numbers x count ++ [x.toInt + count] := by
  rw [numbers, List.range_succ, List.map_append]
  rfl

/-- A word below another one has a successor that does not wrap. -/
theorem toInt_succ {a b : Word} (less : a.toInt < b.toInt) : (a + 1).toInt = a.toInt + 1 := by
  have low := BitVec.le_toInt a
  have high := BitVec.toInt_lt (x := b)
  rw [BitVec.toInt_add]
  have one : (1 : Word).toInt = 1 := rfl
  rw [one]
  apply Int.bmod_eq_of_le <;> omega

end Numbers

section Runs

variable {W : Type} (M : Model Word W) (loop)

/-- The variable as a number. -/
def current (σ : State Word W) : Int := (M.value σ loop.counter).toInt

/-- In the code of a loop that stands at `p` and `q`, the machine goes from `c` to `d` and does not
pass the end of the loop. The variable has the given values, one after the other, when the body is
entered. Whenever it is incremented it is less than the limit `y`, and there is no overflow. -/
def Counts (code : List Stm) (p q : Nat) (y : Word) (c : Nat × State Word W) (values : List Int)
    (d : Nat × State Word W) : Prop :=
  ∃ visited, M.Travels code c visited d ∧ (∀ c ∈ visited, c.1 ≠ q + 4) ∧
    (statesAt (p + 1) visited).map (loop.current M) = values ∧
    ∀ τ ∈ statesAt (q + 2) visited, loop.current M τ < y.toInt ∧
      (M.value τ loop.successor).toInt = loop.current M τ + 1

variable {M loop} {code : List Stm} {p q : Nat} {y : Word} {c d e : Nat × State Word W}
  {values later : List Int}

/-- The values that two parts of a run go through, one after the other. -/
theorem Counts.append (begun : loop.Counts M code p q y c values d)
    (ended : loop.Counts M code p q y d later e) :
    loop.Counts M code p q y c (values ++ later) e := by
  obtain ⟨visited, travels, inside, rfl, rises⟩ := begun
  obtain ⟨visitedLater, travelsLater, insideLater, rfl, risesLater⟩ := ended
  refine ⟨visited ++ visitedLater, travels.append travelsLater,
    List.forall_mem_append.mpr ⟨inside, insideLater⟩, ?_, ?_⟩
  · rw [statesAt_append, List.map_append]
  · rw [statesAt_append]
    exact List.forall_mem_append.mpr ⟨rises, risesLater⟩

/-- Neither is the body entered nor the variable incremented. -/
theorem counts_quiet {visited : List (Nat × State Word W)} (travels : M.Travels code c visited d)
    (away : ∀ c ∈ visited, c.1 ≠ p + 1 ∧ c.1 ≠ q + 2 ∧ c.1 ≠ q + 4) :
    loop.Counts M code p q y c [] d := by
  refine ⟨visited, travels, fun c member => (away c member).2.2, ?_, ?_⟩
  · rw [statesAt_eq_nil fun c member => (away c member).1, List.map_nil]
  · rw [statesAt_eq_nil fun c member => (away c member).2.1]
    exact List.forall_mem_nil _

/-- A step outside of the places that matter shows no value. -/
theorem counts_step (next : M.step code c.1 c.2 = some d)
    (away : c.1 ≠ p + 1 ∧ c.1 ≠ q + 2 ∧ c.1 ≠ q + 4) : loop.Counts M code p q y c [] d :=
  counts_quiet (.single next) (List.forall_mem_singleton.mpr away)

/-- The body is entered with the current value of the variable. -/
theorem counts_enter {τ : State Word W} (next : M.step code (p + 1) τ = some d)
    (before : p + 2 ≤ q) :
    loop.Counts M code p q y (p + 1, τ) [loop.current M τ] d := by
  have notRise : p + 1 ≠ q + 2 := by omega
  have notEnd : p + 1 ≠ q + 4 := by omega
  refine ⟨[(p + 1, τ)], .single next, List.forall_mem_singleton.mpr notEnd, ?_, ?_⟩
  · rw [statesAt_single]
    rfl
  · rw [statesAt_eq_nil (List.forall_mem_singleton.mpr notRise)]
    exact List.forall_mem_nil _

/-- The variable rises while it is below the limit. -/
theorem counts_rise (words : M.OnWords) {τ : State Word W}
    (next : M.step code (q + 2) τ = some d) (before : p + 2 ≤ q)
    (less : loop.current M τ < y.toInt) : loop.Counts M code p q y (q + 2, τ) [] d := by
  have notEntrance : q + 2 ≠ p + 1 := by omega
  have notEnd : q + 2 ≠ q + 4 := by omega
  refine ⟨[(q + 2, τ)], .single next, List.forall_mem_singleton.mpr notEnd, ?_, ?_⟩
  · rw [statesAt_eq_nil (List.forall_mem_singleton.mpr notEntrance), List.map_nil]
  · rw [statesAt_single, List.forall_mem_singleton, value_successor words]
    exact ⟨less, toInt_succ less⟩

end Runs

section Rounds

variable {W : Type} (M : Model Word W) (loop)

/-- The body is run `count` times, from the states `entry` to the states `exit`. It falls through
and changes neither the variable nor the limit, and the variable is incremented after each time. -/
structure Rounds (n count : Nat) (entry exit : Nat → State Word W) : Prop where
  falls : ∀ k < count, (Running.within M).Performs n loop.body (entry k) (exit k)
  counter : ∀ k < count, M.value (exit k) loop.counter = M.value (entry k) loop.counter
  limit : ∀ k < count, (exit k).temps loop.limit = (entry k).temps loop.limit
  again : ∀ k < count, entry (k + 1) = M.exec loop.increment (exit k)

variable {M loop} {m n p q : Nat} {code : List Stm} {supply : Supply} {x y : Word}
  {count k : Nat} {entry exit : Nat → State Word W} {σ σ' τ : State Word W}

/-- The variable goes up by one each time, up to the limit. -/
theorem Rounds.current (rounds : loop.Rounds M n count entry exit) (words : M.OnWords)
    (sound : ∀ world a v, M.load (M.store world a v) a = v) (fits : loop.Fits m n)
    (start : M.value (entry 0) loop.counter = x) (bound : (entry 0).temps loop.limit = y)
    (upto : k ≤ count) (range : x.toInt + k ≤ y.toInt) :
    loop.current M (entry k) = x.toInt + k ∧ (entry k).temps loop.limit = y := by
  induction k with
  | zero => exact ⟨by simp [CountingLoop.current, start], bound⟩
  | succ k ih =>
    have ran : k < count := upto
    obtain ⟨value, limit⟩ := ih (Nat.le_of_lt ran) (by omega)
    have less : (M.value (entry k) loop.counter).toInt < y.toInt := by
      unfold CountingLoop.current at value
      omega
    rw [rounds.again k ran]
    constructor
    · unfold CountingLoop.current at value ⊢
      rw [value_increment sound, value_successor words, rounds.counter k ran, toInt_succ less,
        value]
      push_cast
      omega
    · rw [limit_increment fits, rounds.limit k ran, limit]

/-- The first test asks whether the variable is up to the limit. -/
theorem holds_le (words : M.OnWords) (limit : τ.temps loop.limit = y) :
    M.holds .le (M.value τ loop.counter) (τ.temps loop.limit) =
      decide (loop.current M τ ≤ y.toInt) := by
  rw [words.holds, limit]
  exact BitVec.sle_eq_decide

/-- The second test asks whether the variable is below the limit. -/
theorem holds_lt (words : M.OnWords) (limit : τ.temps loop.limit = y) :
    M.holds .lt (M.value τ loop.counter) (τ.temps loop.limit) =
      decide (loop.current M τ < y.toInt) := by
  rw [words.holds, limit]
  exact BitVec.slt_eq_decide

section Passages

variable {body : List Stm} (placed : loop.Placed code body p q)

include placed

theorem Placed.le : p + 2 ≤ q := by
  obtain ⟨pre, post, _, start, rfl⟩ := placed.inside
  rw [List.length_append]
  omega

/-- A comparison of the variable with the limit changes nothing. -/
theorem step_compare {op : RelOp} {yes : Label} {pc next : Nat} {choice : Bool}
    (found : code[pc]? = some (loop.compare op yes))
    (chosen : M.holds op (M.value τ loop.counter) (τ.temps loop.limit) = choice)
    (there : code[next]? = some (.label (if choice then yes else loop.done))) :
    M.step code pc τ = some (next, τ) := by
  have counter : M.eval loop.counter τ = (M.value τ loop.counter, τ) := M.eval_flat τ isFlat_counter
  have limit : M.eval (.temp loop.limit) τ = (τ.temps loop.limit, τ) := rfl
  have stepped := step_cjump (M := M) (σ := τ) found (by simpa only [counter, limit] using chosen)
    (place_of_nodup placed.distinct there)
  simpa only [counter, limit] using stepped

/-- The first test, with numbers to go through. -/
theorem counts_test (words : M.OnWords) (limit : τ.temps loop.limit = y)
    (some_left : loop.current M τ ≤ y.toInt) :
    loop.Counts M code p q y (p, τ) [] (p + 1, τ) := by
  have le := placed.le
  have chosen := (holds_le words limit).trans (decide_eq_true some_left)
  refine counts_step (step_compare placed placed.test chosen placed.entrance) ?_
  dsimp
  omega

/-- The first test, with no numbers to go through. -/
theorem counts_test_none (words : M.OnWords) (limit : τ.temps loop.limit = y)
    (none_left : y.toInt < loop.current M τ) :
    loop.Counts M code p q y (p, τ) [] (q + 4, τ) := by
  have le := placed.le
  have chosen := (holds_le words limit).trans (decide_eq_false (Int.not_le.mpr none_left))
  refine counts_step (step_compare placed placed.test chosen placed.finish) ?_
  dsimp
  omega

/-- The body, from its label to its end or to where it jumps. -/
theorem counts_body {point : Option Label} {j : Nat} {υ : State Word W}
    (stays : M.Stays body point τ υ) (finish : IsAt code q point j) :
    loop.Counts M code p q y (p + 1, τ) [loop.current M τ] (j, υ) := by
  have le := placed.le
  obtain ⟨pre, post, rfl, start, rfl⟩ := placed.inside
  obtain ⟨visited, travels, inside⟩ := stays pre post placed.distinct j finish
  rw [start] at travels inside
  refine (counts_enter (step_label placed.entrance τ) le).append (counts_quiet travels ?_)
  intro c member
  have range := inside c member
  omega

/-- The second test and the increment, with numbers left. -/
theorem counts_again (words : M.OnWords) (limit : τ.temps loop.limit = y)
    (less : loop.current M τ < y.toInt) :
    loop.Counts M code p q y (q, τ) [] (p + 1, M.exec loop.increment τ) := by
  have le := placed.le
  have chosen := (holds_lt words limit).trans (decide_eq_true less)
  have plain : loop.increment.isPlain = true := by
    unfold increment counter
    cases loop.access with
    | inFrame offset => rfl
    | inReg t => rfl
  have tested := step_compare placed placed.retest chosen placed.onward
  have entered : M.step code (q + 1) τ = some (q + 2, τ) := step_label placed.onward τ
  have incremented := step_plain (M := M) plain placed.rise τ
  have back : M.step code (q + 3) (M.exec loop.increment τ) = some (p + 1, _) :=
    step_goto placed.back (place_of_nodup placed.distinct placed.entrance) _
  refine (counts_step tested ?_).append ((counts_step entered ?_).append
    ((counts_rise words incremented le less).append (counts_step back ?_)))
  all_goals dsimp; omega

/-- The second test, with no numbers left. -/
theorem counts_finish (words : M.OnWords) (limit : τ.temps loop.limit = y)
    (none_left : y.toInt ≤ loop.current M τ) :
    loop.Counts M code p q y (q, τ) [] (q + 4, τ) := by
  have le := placed.le
  have chosen := (holds_lt words limit).trans (decide_eq_false (Int.not_lt.mpr none_left))
  refine counts_step (step_compare placed placed.retest chosen placed.finish) ?_
  dsimp
  omega

end Passages

section Complete

variable (words : M.OnWords) (sound : ∀ world a v, M.load (M.store world a v) a = v)
  (fits : loop.Fits m n) (enough : n ≤ supply.temps)
  (placed : loop.Placed code (loop.body.canonical supply).1 p q)
  (start : M.value (entry 0) loop.counter = x) (bound : (entry 0).temps loop.limit = y)

include words sound fits enough placed start bound

/-- The body is run once more. -/
theorem counts_round (rounds : loop.Rounds M n count entry exit) (ran : k < count)
    (range : x.toInt + k ≤ y.toInt) (agree : (entry k).Agree n τ) :
    ∃ υ, loop.Counts M code p q y (p + 1, τ) [x.toInt + k] (q, υ) ∧
      (exit k).Agree n υ ∧ loop.current M υ = x.toInt + k ∧ υ.temps loop.limit = y := by
  obtain ⟨value, limit⟩ :=
    rounds.current words sound fits start bound (Nat.le_of_lt ran) range
  obtain ⟨υ, stays, agreed, _⟩ := (rounds.falls k ran supply enough).2 τ agree
  have counts := counts_body (y := y) placed stays rfl
  have before : loop.current M τ = x.toInt + k := by
    rw [← value]
    unfold current
    rw [value_counter fits agree]
  have after : loop.current M υ = x.toInt + k := by
    rw [← value]
    unfold current
    rw [← value_counter fits agreed, rounds.counter k ran]
  rw [before] at counts
  refine ⟨υ, counts, agreed, after, ?_⟩
  rw [← agreed.2 _ fits.limit_below, rounds.limit k ran, limit]

/-- The body is run for all numbers below a given one, in order. -/
theorem counts_rounds (rounds : loop.Rounds M n count entry exit) (upto : k ≤ count)
    (range : x.toInt + k ≤ y.toInt) (agree : (entry 0).Agree n τ) :
    ∃ υ, loop.Counts M code p q y (p + 1, τ)
        (numbers x k) (p + 1, υ) ∧ (entry k).Agree n υ := by
  induction k with
  | zero => exact ⟨τ, ⟨[], .here _, List.forall_mem_nil _, rfl, List.forall_mem_nil _⟩, agree⟩
  | succ k ih =>
    have ran : k < count := upto
    obtain ⟨υ, counts, agreed⟩ := ih (Nat.le_of_lt ran) (by omega)
    obtain ⟨φ, round, after, value, limit⟩ :=
      counts_round words sound fits enough placed start bound rounds ran (by omega) agreed
    have again := counts_again placed words limit (by omega)
    refine ⟨M.exec loop.increment φ, ?_, ?_⟩
    · rw [numbers_succ]
      exact counts.append (round.append again)
    · rw [rounds.again k ran]
      exact agree_increment words fits after

/-- From the first test on, the body is run for all numbers of the range. -/
theorem counts_all (rounds : loop.Rounds M n (rangeSize x y) entry exit)
    (agree : (entry 0).Agree n τ) :
    ∃ υ, loop.Counts M code p q y (p, τ) (numbers x (rangeSize x y)) (q + 4, υ) ∧
      (if rangeSize x y = 0 then entry 0 else exit (rangeSize x y - 1)).Agree n υ := by
  have limit : τ.temps loop.limit = y := by rw [← agree.2 _ fits.limit_below, bound]
  have value : loop.current M τ = x.toInt := by rw [current, ← value_counter fits agree, start]
  cases size : rangeSize x y with
  | zero =>
    have none_left : y.toInt < loop.current M τ := by
      unfold rangeSize at size
      omega
    exact ⟨τ, counts_test_none placed words limit none_left, agree⟩
  | succ k =>
    -- The last round is the one that the second test ends.
    have last : x.toInt + k = y.toInt := by
      unfold rangeSize at size
      omega
    rw [size] at rounds
    obtain ⟨υ, counts, agreed⟩ := counts_rounds words sound fits enough placed start bound rounds
      (Nat.le_succ k) (Int.le_of_eq last) agree
    obtain ⟨φ, round, after, lastValue, lastLimit⟩ := counts_round words sound fits enough placed
      start bound rounds (Nat.lt_succ_self k) (Int.le_of_eq last) agreed
    have entered := counts_test placed words limit (by omega)
    have finish := counts_finish placed words lastLimit (by omega)
    refine ⟨φ, ?_, after⟩
    rw [numbers_succ]
    exact entered.append (counts.append (round.append finish))

/-- A jump out of the body ends the loop at once. -/
theorem counts_break (rounds : loop.Rounds M n k entry exit) (range : x.toInt + k ≤ y.toInt)
    (leaves : M.Leaves n loop.body loop.done (entry k) σ') (agree : (entry 0).Agree n τ) :
    ∃ υ, loop.Counts M code p q y (p, τ) (numbers x (k + 1)) (q + 4, υ) ∧
      σ'.Agree n υ := by
  have limit : τ.temps loop.limit = y := by rw [← agree.2 _ fits.limit_below, bound]
  have value : loop.current M τ = x.toInt := by rw [current, ← value_counter fits agree, start]
  obtain ⟨υ, counts, agreed⟩ := counts_rounds words sound fits enough placed start bound rounds
    (Nat.le_refl k) range agree
  obtain ⟨value', _⟩ := rounds.current words sound fits start bound (Nat.le_refl k) range
  obtain ⟨φ, stays, left⟩ := leaves supply enough υ agreed
  have broken := counts_body (y := y) placed stays placed.finish
  have before : loop.current M υ = x.toInt + k := by
    rw [← value', current, current, value_counter fits agreed]
  rw [before] at broken
  refine ⟨φ, ?_, left⟩
  rw [numbers_succ]
  have entered := counts_test placed words limit (by omega)
  exact entered.append (counts.append broken)

end Complete

section Straight

variable (M loop)

/-- The states in which a body without control flow is entered, from the first one on. -/
def passing (τ : State Word W) : Nat → State Word W
  | 0 => τ
  | k + 1 => M.exec loop.increment (M.exec loop.body (passing τ k))

variable {M loop}

/-- A body without control flow falls through. -/
theorem rounds_passing (below : Below n loop.body.temps)
    (straight : loop.body.allStms Stm.isStraight = true)
    (counter : ∀ σ, M.value (M.exec loop.body σ) loop.counter = M.value σ loop.counter)
    (limit : ∀ σ, (M.exec loop.body σ).temps loop.limit = σ.temps loop.limit) (count : Nat)
    (τ : State Word W) :
    loop.Rounds M n count (loop.passing M τ) fun k => M.exec loop.body (loop.passing M τ k) where
  falls _ _ := Running.performs_exec _ _ _ below straight
  counter _ _ := counter _
  limit _ _ := limit _
  again _ _ := rfl

end Straight

end Rounds

end CountingLoop

end TreeCode
