import TreeCode.Proofs.Canonical.Labels
import TreeCode.Proofs.Lowering.Counting
import TreeCode.Proofs.Lowering.Labels
import TreeCode.Proofs.Lowering.Levels
import TreeCode.Proofs.Machine.Frames

/-!
The loops of the source that count. Their bounds are evaluated once each, the lower one first, and
then the body is run for all numbers between them, in order, unless it is left before.
-/

namespace TreeCode

open Tree
open Source (Word)

section Bounds

namespace Tree

variable {V W : Type} {M : Model V W} {R : Running M} {m n : Nat} {e : Exp} {v : V}

/-- The world and the temporaries below `m` are those of `σ`, the others those of `τ`. -/
def State.over (m : Nat) (σ τ : State V W) : State V W where
  temps t := if t.index < m then σ.temps t else τ.temps t
  world := σ.world

theorem State.over_below {σ τ : State V W} {t : Temp} (below : t.index < m) :
    (σ.over m τ).temps t = σ.temps t :=
  if_pos below

theorem State.over_above {σ τ : State V W} {t : Temp} (above : m ≤ t.index) :
    (σ.over m τ).temps t = τ.temps t :=
  if_neg (Nat.not_lt.mpr above)

/-- An expression that knows the temporaries below `m` leaves the next ones alone. -/
theorem Running.Computes.over {σ σ' : State V W} (computed : R.Computes m e σ v σ')
    (le : m ≤ n) : R.Computes n e σ v (σ'.over m σ) := by
  intro supply low
  obtain ⟨upper, realised⟩ := computed supply (Nat.le_trans le low)
  refine ⟨upper, fun τ agree => ?_⟩
  have agreeBelow : σ.Agree m τ :=
    ⟨agree.1, fun t below => agree.2 t (Nat.lt_of_lt_of_le below le)⟩
  obtain ⟨υ, ran, evaluated, same, spared⟩ := realised τ agreeBelow
  refine ⟨υ, ran, evaluated, fun t below => ?_, fun t above => spared t (Nat.le_trans le above)⟩
  by_cases known : t.index < m
  · rw [State.over_below known, same t known]
  · have above : m ≤ t.index := Nat.not_lt.mp known
    rw [State.over_above above, agree.2 t below,
      spared t above (.inl (Nat.lt_of_lt_of_le below low))]

end Tree

end Bounds

namespace CountingLoop

variable {W : Type} (M : Model Word W) (loop : CountingLoop)

/-- The state after the lower bound, which is `x` and leads to `σ'`, is assigned to the variable. -/
def assigned (m : Nat) (σ : State Word W) (x : Word) (σ' : State Word W) : State Word W :=
  M.assign (fun _ => (x, σ'.over m σ)) loop.counter σ

/-- Evaluated once each and in order, the bounds are `x` and `y`, and the last state is the one in
which they are stored. The bounds know the temporaries below `m`; if the variable lives in the
frame, the upper bound does not change it there. -/
inductive Begins (m : Nat) (σ : State Word W) : Word → Word → State Word W → Prop
  | intro {x y : Word} {σ₁ σ₂ : State Word W}
    (lower : (Running.within M).Computes m loop.lo σ x σ₁)
    (upper : (Running.within M).Computes m loop.hi (loop.assigned M m σ x σ₁) y σ₂)
    (kept : ∀ offset, loop.access = .inFrame offset → M.value σ₂ loop.counter = x) :
    Begins m σ x y ((σ₂.over m (loop.assigned M m σ x σ₁)).set loop.limit y)

variable {M loop} {m n : Nat} {σ σ' τ : State Word W} {x y : Word}

/-- The variable of a loop is set to the lower bound. -/
theorem performs_assigned (below : Below n loop.counter.temps)
    (computed : (Running.within M).Computes n loop.lo σ x σ') :
    (Running.within M).Performs n (.move loop.counter loop.lo) σ
      (M.assign (fun _ => (x, σ')) loop.counter σ) := by
  change (Running.within M).Does n
    (Exp.extractMove loop.lo loop.lo.extract loop.counter) σ _
  cases stored : loop.access with
  | inReg t =>
    rw [counter_inReg stored] at below ⊢
    exact Running.does_move_temp (below t List.mem_cons_self) computed
  | inFrame offset =>
    rw [counter_inFrame stored] at below ⊢
    have address := Running.computes_eval (Running.within M)
      (.binop .plus (.temp loop.pointer) (.const offset)) σ below rfl
    exact Running.does_move_mem address computed

/-- A variable in the frame has its value if the lower bound leaves the frame pointer alone. -/
theorem value_assigned (sound : ∀ world a v, M.load (M.store world a v) a = v) {offset : Int}
    (stored : loop.access = .inFrame offset)
    (pointer : (σ'.over m σ).temps loop.pointer = σ.temps loop.pointer) :
    M.value (loop.assigned M m σ x σ') loop.counter = x := by
  rw [value_inFrame stored, assigned, counter_inFrame stored]
  change M.load (M.store _ (M.binop .plus (σ.temps loop.pointer) (M.const offset)) x)
    (M.binop .plus ((σ'.over m σ).temps loop.pointer) (M.const offset)) = x
  rw [pointer, sound]

/-- Constants are bounds in every state. -/
theorem begins_const (sound : ∀ world a v, M.load (M.store world a v) a = v) {a b : Int}
    (lower : loop.lo = .const a) (upper : loop.hi = .const b) (m : Nat) (σ : State Word W) :
    ∃ τ, loop.Begins M m σ (M.const a) (M.const b) τ := by
  have first : (Running.within M).Computes m loop.lo σ (M.const a) σ := by
    rw [lower]
    exact Running.computes_const a
  have second : (Running.within M).Computes m loop.hi (loop.assigned M m σ (M.const a) σ)
      (M.const b) (loop.assigned M m σ (M.const a) σ) := by
    rw [upper]
    exact Running.computes_const b
  exact ⟨_, .intro first second fun _ stored => value_assigned sound stored (ite_self _)⟩

/-- When the loop begins, the variable and the limit have the values of the bounds. -/
theorem Begins.values (begins : loop.Begins M m σ x y τ) (fits : loop.Fits m n) :
    M.value τ loop.counter = x ∧ τ.temps loop.limit = y := by
  obtain ⟨lower, upper, kept⟩ := begins
  have different : ∀ t ∈ loop.counter.temps, t ≠ loop.limit := by
    rintro t member rfl
    exact fits.limit_notMem member
  refine ⟨?_, State.set_temps_same _ _ _⟩
  cases stored : loop.access with
  | inReg t =>
    rw [counter_inReg stored] at different
    rw [value_inReg stored, State.set_temps_ne _ _ (different t List.mem_cons_self),
      State.over_above (fits.register t stored).1, assigned, counter_inReg stored, Model.assign,
      State.set_temps_same]
  | inFrame offset =>
    rw [counter_inFrame stored] at different
    rw [← kept offset stored, value_inFrame stored, value_inFrame stored,
      State.set_temps_ne _ _ (different _ List.mem_cons_self), State.over_below fits.pointer]
    rfl

/-- The code in front of the loop computes both bounds. -/
theorem Begins.performs (begins : loop.Begins M m σ x y τ) (fits : loop.Fits m n) :
    (Running.within M).Performs n loop.bounds σ τ := by
  have le : m ≤ n := Nat.le_of_lt (Nat.lt_of_le_of_lt fits.limit_fresh fits.limit_below)
  obtain ⟨lower, upper, kept⟩ := begins
  have first := performs_assigned fits.below (lower.over le)
  exact Running.performs_seq first (Running.does_move_temp fits.limit_below (upper.over le))

section Completion

variable (M loop)

/-- In the code of a loop that stands at `p` and `q`, the machine comes from `pc` to the end of the
loop, and counts through the given values on the way. The last state is `ω` as far as the
temporaries below `n` are concerned. -/
def Completes (n : Nat) (code : List Stm) (p q : Nat) (y : Word) (pc : Nat) (σ : State Word W)
    (values : List Int) (ω : State Word W) : Prop :=
  ∃ υ, loop.Counts M code p q y (pc, σ) values (q + 4, υ) ∧ ω.Agree n υ

variable {M loop} {pre post : List Stm} {supply : Supply} {q : Nat}

/-- Storing the bounds, the machine comes to the first test of the loop. -/
theorem counts_bounds (performs : (Running.within M).Performs n loop.bounds σ τ)
    (enough : n ≤ supply.temps)
    (placed : loop.Placed (pre ++ (loop.code.canonical supply).1 ++ post)
      (loop.body.canonical (loop.bounds.canonical supply).2).1
      (pre ++ (loop.bounds.canonical supply).1).length q) :
    ∃ υ, loop.Counts M (pre ++ (loop.code.canonical supply).1 ++ post)
        (pre ++ (loop.bounds.canonical supply).1).length q y (pre.length, σ) []
        ((pre ++ (loop.bounds.canonical supply).1).length, υ) ∧
      τ.Agree n υ := by
  obtain ⟨rest, split⟩ : ∃ rest, pre ++ (loop.code.canonical supply).1 ++ post =
      pre ++ (loop.bounds.canonical supply).1 ++ rest := by
    rw [canonical_code]
    exact ⟨_, by simp only [List.append_assoc]; rfl⟩
  have distinct := placed.distinct
  have le := placed.le
  rw [split] at distinct ⊢
  obtain ⟨υ, stays, agree, _⟩ := (performs supply enough).2 σ (State.Agree.refl n σ)
  obtain ⟨visited, travels, inside⟩ := stays pre rest distinct _ rfl
  refine ⟨υ, counts_quiet travels fun c member => ?_, agree⟩
  have before : c.1 < (pre ++ (loop.bounds.canonical supply).1).length := (inside c member).2
  omega

end Completion

section Lowered

open Lowering

/-- The loop is what the parts of a loop of the source are lowered to: the bounds in order, which
leaves the state `t`, then the variable, and then the body, in which the variable is in scope and
from which the loop is left at its end. -/
def Lowers (loop : CountingLoop) (conv : Convention) (level : Level) (var : Source.Binder)
    (lo hi body : Source.Exp) (s t s' : Lowering) : Prop :=
  loop.pointer = conv.framePointer ∧
    ∃ u v c w, lowerValue conv level lo s = .ok loop.lo u ∧
      lowerValue conv level hi u = .ok loop.hi t ∧
      allocateVariable level var.escapes t = .ok loop.access v ∧ loop.limit = v.nextTemp ∧
      inLoop loop.done (lowerExp conv level body)
        (v.looped.enter.bound var.name (.variable level loop.access)) = .ok c w ∧
      (c.asEffect w.leave.supply).1 = loop.body ∧ w.leave.draw c.asEffect = s'

variable {conv : Convention} {level : Level} {var : Source.Binder} {lo hi body : Source.Exp}
  {s t s' : Lowering} {out : Lowered} {loop : CountingLoop}

/-- A counting loop is lowered to the code of a `CountingLoop`. -/
theorem lowers_forTo (ran : lowerExp conv level (.forTo var lo hi body) s = .ok out s') :
    ∃ (loop : CountingLoop) (t : Lowering), loop.Lowers conv level var lo hi body s t s' ∧
      out = .effect loop.code := by
  obtain ⟨a, u, b, t, access, v, c, w, _, first, second, stored, looped, rfl, rfl, rfl⟩ :=
    lowerExp_forTo ran
  refine ⟨⟨access, conv.framePointer, v.nextTemp, a, b, _, _, _, _⟩, t, ⟨rfl, ?_⟩, rfl⟩
  exact ⟨u, v, c, w, first, second, stored, rfl, looped, rfl, rfl⟩

/-- A lowered loop has its variable and its limit in places that the bounds do not use. -/
theorem Lowers.fits (lowers : loop.Lowers conv level var lo hi body s t s')
    (pointer : conv.framePointer.index < s.supply.temps) :
    loop.Fits t.supply.temps s'.supply.temps := by
  obtain ⟨same, u, v, c, w, first, second, stored, limit, looped, _, rfl⟩ := lowers
  have lower := ((lowerValue_extends level lo).ok first).steps.supply_le
  have upper := ((lowerValue_extends level hi).ok second).steps.supply_le
  have inner := ((extending_inLoop _ (lowerExp_extends level body)).ok looped).steps.supply_le
  have effect := grows_asEffect c w.leave.supply
  obtain ⟨info, known, access, rfl⟩ := allocateVariable_ok.mp stored
  have grown := Frame.grows_allocate info.frame var.escapes t.supply
  refine ⟨?_, ?_, ?_, ?_⟩
  · rw [same]
    exact Nat.lt_of_lt_of_le pointer (Nat.le_trans lower.1 upper.1)
  · intro r inReg
    rw [limit]
    exact Frame.fresh_allocate (access.trans inReg)
  · rw [limit]
    exact grown.1
  · rw [limit]
    exact Nat.lt_of_lt_of_le (Nat.lt_succ_self _) (Nat.le_trans inner.1 effect.1)

theorem lowerExp_breakLoop_of_exit {pos : Source.Pos} {exit : Label}
    (inside : s.exits.head? = some exit) :
    lowerExp conv level (.breakLoop pos) s = .ok (.effect (.goto exit)) s := by
  unfold lowerExp
  exact bind_ok.mpr ⟨some exit, s, loopExit_ok.mpr ⟨inside, rfl⟩, pure_ok.mpr ⟨rfl, rfl⟩⟩

end Lowered

end CountingLoop

section Programs

open Lowering CountingLoop

/-- A loop that counts is lowered to code that evaluates its bounds once each, the lower one first,
and then runs the body for all numbers from `x` to `y`, each once and in order, before it comes to
its end. This holds wherever the variable lives, and for every body that falls through and changes
neither the variable nor the limit. The variable is incremented only while it is less than `y`, and
so without overflow. A break is a jump to the end of the loop, which takes one step and changes
nothing; a body that leaves through it ends the loop with the numbers that it was run for so far. -/
theorem forTo_counts {W : Type} {M : Model Word W} (words : M.OnWords)
    (sound : ∀ world a v, M.load (M.store world a v) a = v) {conv : Convention} {level : Level}
    {var : Source.Binder} {lo hi body : Source.Exp} {s s' : Lowering} {out : Lowered}
    (pointer : conv.framePointer.index < s.supply.temps)
    (ran : lowerExp conv level (.forTo var lo hi body) s = .ok out s') :
    ∃ (loop : CountingLoop) (t : Lowering), loop.Lowers conv level var lo hi body s t s' ∧
      out = .effect loop.code ∧
      (∀ level pos r, r.exits.head? = some loop.done →
        lowerExp conv level (.breakLoop pos) r = .ok (.effect (.goto loop.done)) r) ∧
      (∀ n τ, M.Leaves n (.goto loop.done) loop.done τ τ) ∧
      ∀ (supply : Supply) (pre post code : List Stm), s'.supply.temps ≤ supply.temps →
        code = pre ++ (loop.code.canonical supply).1 ++ post → (marks code).Nodup →
        ∃ p q, loop.Placed code (loop.body.canonical (loop.bounds.canonical supply).2).1 p q ∧
          (∀ pc τ, code[pc]? = some (.goto loop.done) → M.step code pc τ = some (q + 4, τ)) ∧
          ∀ (σ : State Word W) (x y : Word) (entry exit : Nat → State Word W),
            loop.Begins M t.supply.temps σ x y (entry 0) →
            (loop.Rounds M s'.supply.temps (rangeSize x y) entry exit →
              loop.Completes M s'.supply.temps code p q y pre.length σ (numbers x (rangeSize x y))
                (if rangeSize x y = 0 then entry 0 else exit (rangeSize x y - 1))) ∧
            ∀ (k : Nat) (ω : State Word W), k < rangeSize x y →
              loop.Rounds M s'.supply.temps k entry exit →
              M.Leaves s'.supply.temps loop.body loop.done (entry k) ω →
              loop.Completes M s'.supply.temps code p q y pre.length σ (numbers x (k + 1)) ω := by
  obtain ⟨loop, t, lowers, rfl⟩ := lowers_forTo ran
  have fits := lowers.fits pointer
  refine ⟨loop, t, lowers, rfl, fun _ _ _ => lowerExp_breakLoop_of_exit, ?_, ?_⟩
  · exact fun n τ => leaves_goto n loop.done τ
  rintro supply pre post _ enough rfl distinct
  obtain ⟨q, placed⟩ := placed_canonical distinct
  refine ⟨_, q, placed, fun pc τ found => ?_, fun σ x y entry exit begins => ?_⟩
  · exact step_goto found (place_of_nodup distinct placed.finish) τ
  · obtain ⟨start, bound⟩ := begins.values fits
    have performs := begins.performs fits
    obtain ⟨τ, bounds, agree⟩ := counts_bounds performs enough placed
    have more : s'.supply.temps ≤ (loop.bounds.canonical supply).2.temps :=
      Nat.le_trans enough (performs supply enough).1
    constructor
    · intro rounds
      obtain ⟨υ, counts, agreed⟩ :=
        counts_all words sound fits more placed start bound rounds agree
      exact ⟨υ, bounds.append counts, agreed⟩
    · intro k ω range rounds leaves
      have within : x.toInt + k ≤ y.toInt := by
        unfold rangeSize at range
        omega
      obtain ⟨υ, counts, agreed⟩ :=
        counts_break words sound fits more placed start bound rounds within leaves agree
      exact ⟨υ, bounds.append counts, agreed⟩

/-- A loop over the last three numbers, whose variable lives in the frame. -/
def lastNumbers : Source.Exp :=
  .forTo { name := "i", escapes := true } (.int 9223372036854775805) (.int 9223372036854775807)
    (.call "flush" [] {})

theorem lowers_lastNumbers {loop : CountingLoop} {t s' : Lowering}
    (lowers : loop.Lowers .small 0 { name := "i", escapes := true } (.int 9223372036854775805)
      (.int 9223372036854775807) (.call "flush" [] {}) (start .small "tigermain" { temps := 4 }) t
      s') :
    loop.lo = .const 9223372036854775805 ∧ loop.hi = .const 9223372036854775807 ∧
      loop.counter = .mem (.binop .plus (.temp ⟨0⟩) (.const (-8))) ∧
      loop.body = .exp (.plainCall "flush" []) := by
  obtain ⟨access, base, limit, lo, hi, body, bodyLabel, next, done⟩ := loop
  obtain ⟨pointer, _, _, _, _, lower, upper, stored, _, looped, rfl, _⟩ := lowers
  cases pointer
  cases lower
  cases upper
  cases stored
  obtain ⟨_, inner, rfl⟩ := inLoop_ok.mp looped
  obtain ⟨callee, args, resolved, lowered, rfl⟩ := lowerExp_call inner
  obtain ⟨rfl, _⟩ := lowerArgs_nil lowered
  obtain ⟨_, ⟨_, _, _, _, _, found, _⟩ | ⟨_, _, rfl⟩⟩ := resolveCallee_ok resolved
  · cases found
  · exact ⟨rfl, rfl, rfl, rfl⟩

theorem lastNumbers_counts :
    ∃ (loop : CountingLoop) (t : Lowering),
      lowerExp .small 0 lastNumbers (start .small "tigermain" { temps := 4 }) =
        .ok (.effect loop.code) t ∧
      loop.counter = .mem (.binop .plus (.temp ⟨0⟩) (.const (-8))) ∧
      ∀ σ, ∃ p q ω, loop.Completes Model.recording t.supply.temps
        (loop.code.canonical t.supply).1 p q (.ofInt 64 9223372036854775807) 0 σ
        [9223372036854775805, 9223372036854775806, 9223372036854775807] ω := by
  have checked : (match lowerExp .small 0 lastNumbers (start .small "tigermain" { temps := 4 }) with
    | .ok _ _ => true
    | .error _ _ => false) = true := by decide +kernel
  split at checked
  next out t ran =>
    have sound : ∀ world a v, Model.recording.load (Model.recording.store world a v) a = v :=
      fun _ _ _ => if_pos rfl
    have pointer : Convention.small.framePointer.index < 4 := by decide
    obtain ⟨loop, u, lowers, rfl, _, _, counts⟩ :=
      forTo_counts Model.recording_onWords sound pointer ran
    obtain ⟨lower, upper, counter, body⟩ := lowers_lastNumbers lowers
    refine ⟨loop, t, ran, counter, fun σ => ?_⟩
    obtain ⟨_, _, _, _, issued⟩ := lowerExp_defines _ ran
    have distinct := nodup_marks_canonical (List.nodup_append.mp issued.distinct).1 t.supply
    obtain ⟨p, q, _, _, completes⟩ :=
      counts t.supply [] [] _ (Nat.le_refl _) (List.append_nil _).symm distinct
    obtain ⟨τ, begins⟩ := begins_const sound lower upper u.supply.temps σ
    have rounds : ∀ count, loop.Rounds Model.recording t.supply.temps count _ _ := fun count =>
      rounds_passing (by rw [body]; exact below_nil _) (by rw [body]; rfl)
        (fun _ => by rw [body, counter]; rfl) (fun _ => by rw [body]; rfl) count τ
    have size : rangeSize (.ofInt 64 9223372036854775805) (.ofInt 64 9223372036854775807) = 3 := by
      decide
    have ended := (completes σ _ _ _ _ begins).1 (rounds _)
    exact ⟨p, q, _, size ▸ ended⟩
  next => cases checked

end Programs

end TreeCode
