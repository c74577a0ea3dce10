import TreeCode.Proofs.Lowering.Escape
import TreeCode.Proofs.Lowering.Pieces

/-!
Lowering keeps functions apart. If every use of a variable is safe, then the code of a function
holds, besides machine registers, only the temporaries of its own variables and temporaries issued
while its own code was made. So no two functions share a temporary.
-/

namespace TreeCode

/-- The temporaries of each procedure among the fragments. -/
def bodyTemps (fragments : List Fragment) : List (List Temp) :=
  fragments.filterMap fun
    | .proc _ body => some body.temps
    | .string _ _ => none

@[simp] theorem bodyTemps_append (first second : List Fragment) :
    bodyTemps (first ++ second) = bodyTemps first ++ bodyTemps second :=
  List.filterMap_append

/-- More temporaries from before make no difference. -/
theorem Isolated.more {regs old own more : List Temp} {low high : Nat} {others : List (List Temp)}
    (isolated : Isolated regs old low high own others) (subset : old ⊆ more) :
    Isolated regs more low high own others :=
  ⟨isolated.grown, fun t member => (isolated.own_from t member).imp id fun rest =>
    rest.imp (fun older => subset older) id, isolated.others_from, isolated.own_apart,
    isolated.others_apart⟩

/-- The temporary that holds a variable, if one does. -/
def Access.temps : Access → List Temp
  | .inFrame _ => []
  | .inReg t => [t]

theorem Access.mem_temps {access : Access} {t : Temp} : t ∈ access.temps ↔ access = .inReg t := by
  cases access with
  | inFrame offset => simp [Access.temps]
  | inReg reg => simp [Access.temps, eq_comm]

namespace Lowering

open Tree

variable {conv : Convention} {old own own' : List Temp} {level : Level} {s t u : Lowering}

/-- Lowering from `s` to `t` made code with the temporaries `own`, apart from the procedures that
it finished meanwhile. -/
def Separates (conv : Convention) (old : List Temp) (s t : Lowering) (own : List Temp) : Prop :=
  ∃ added, t.fragments = s.fragments ++ added ∧
    Isolated conv.machine old s.supply.temps t.supply.temps own (bodyTemps added)

section Separates

/-- Code made without any step. -/
theorem separates_here (here : ∀ x ∈ own, x ∈ conv.machine ∨ x ∈ old) :
    Separates conv old s s own :=
  ⟨[], (List.append_nil _).symm, isolated_fresh (Nat.le_refl _) fun x member =>
    (here x member).imp id .inl⟩

theorem separates_nil : Separates conv old s s [] :=
  separates_here (by intro x member; cases member)

/-- One part after another, where the second one may use what the first one issued. -/
theorem Separates.trans (first : Separates conv old s t own)
    (second : Separates conv (old ++ own) t u own') (below : Below s.supply.temps old) :
    Separates conv old s u (own ++ own') := by
  obtain ⟨added, grown, isolated⟩ := first
  obtain ⟨later, grownLater, isolatedLater⟩ := second
  refine ⟨added ++ later, by rw [grownLater, grown, List.append_assoc], ?_⟩
  rw [bodyTemps_append]
  exact isolated.trans isolatedLater below

/-- Two pieces of code, the second of which does not use what the first one made. -/
theorem Separates.both (first : Separates conv old s t own) (second : Separates conv old t u own')
    (below : Below s.supply.temps old) : Separates conv old s u (own ++ own') := by
  obtain ⟨later, grownLater, isolatedLater⟩ := second
  exact first.trans ⟨later, grownLater, isolatedLater.more (List.subset_append_left old own)⟩ below

/-- What is made of old temporaries, registers and those of the part itself is kept apart as
well. -/
theorem Separates.cover (separates : Separates conv old s t own)
    (below : Below s.supply.temps old)
    (covered : ∀ x ∈ own', x ∈ conv.machine ∨ x ∈ old ∨ x ∈ own) :
    Separates conv old s t own' := by
  obtain ⟨added, grown, isolated⟩ := separates
  exact ⟨added, grown, isolated.cover below covered⟩

theorem Separates.subset (separates : Separates conv old s t own)
    (below : Below s.supply.temps old) (subset : ∀ x ∈ own', x ∈ own) :
    Separates conv old s t own' :=
  separates.cover below fun x member => .inr (.inr (subset x member))

/-- Code finished with some new temporaries. -/
theorem Separates.draw {α : Type} {act : Fresh α} (separates : Separates conv old s t own)
    (below : Below s.supply.temps old) (grows : Grows act)
    (covered : ∀ x ∈ own', x ∈ conv.machine ∨ x ∈ old ∨ x ∈ own ∨
      x.Between t.supply.temps (act t.supply).2.temps) :
    Separates conv old s (t.draw act) own' := by
  obtain ⟨added, grown, isolated⟩ := separates
  exact ⟨added, grown, isolated.finish below (grows t.supply).1 covered⟩

theorem Separates.label (separates : Separates conv old s t own)
    (below : Below s.supply.temps old) : Separates conv old s t.label own :=
  separates.draw below grows_freshLabel fun _ member => .inr (.inr (.inl member))

/-- The same for an expression that is lowered for its value. -/
theorem Separates.asValue {lowered : Lowered} (separates : Separates conv old s t lowered.temps)
    (below : Below s.supply.temps old) :
    Separates conv old s (t.draw lowered.asValue) (lowered.asValue t.supply).1.temps :=
  separates.draw below (grows_asValue lowered) fun _ member => .inr (.inr (mem_asValue member))

theorem Separates.asEffect {lowered : Lowered} (separates : Separates conv old s t lowered.temps)
    (below : Below s.supply.temps old) :
    Separates conv old s (t.draw lowered.asEffect) (lowered.asEffect t.supply).1.temps :=
  separates.draw below (grows_asEffect lowered) fun _ member =>
    .inr (.inr (.inl (mem_asEffect member)))

end Separates

/-- The convention is closed and the state is sound: machine registers are issued, variables in
scope belong to levels that are there, and levels have static links. -/
structure Sound (conv : Convention) (s : Lowering) : Prop where
  closed : conv.Closed
  registers : Below s.supply.temps conv.machine
  known : ∀ v ∈ varsIn s.scopes, v.2.1 < s.levels.length
  links : LinksFirst conv s.levels

/-- What holds of scopes and levels goes on to hold when the state is extended. -/
theorem Sound.extend (sound : Sound conv s) (extended : Extends conv s t) : Sound conv t where
  closed := sound.closed
  registers x member := Nat.lt_of_lt_of_le (sound.registers x member) extended.steps.supply_le.1
  known := by
    rw [extended.scopes]
    exact fun v member => Nat.lt_of_lt_of_le (sound.known v member) extended.steps.levels_le
  links := extended.steps.linksFirst sound.links

/-- The temporaries of the variables of `level` in scope are among `old`, which are all
issued. -/
structure Home (conv : Convention) (old : List Temp) (level : Level) (s : Lowering) : Prop where
  homes : ∀ name x, (name, level, Access.inReg x) ∈ varsIn s.scopes → x ∈ old
  below : Below s.supply.temps old
  sound : Sound conv s

section Home

/-- The variables of a level stay where they are when the state is extended. -/
theorem Home.extend (home : Home conv old level s) (extended : Extends conv s t) :
    Home conv old level t where
  homes := by rw [extended.scopes]; exact home.homes
  below x member := Nat.lt_of_lt_of_le (home.below x member) extended.steps.supply_le.1
  sound := home.sound.extend extended

theorem Home.draw {α : Type} {act : Fresh α} (home : Home conv old level s) (grows : Grows act) :
    Home conv old level (s.draw act) :=
  home.extend ((extending_fresh grows).ok (run_fresh act s))

theorem Home.label (home : Home conv old level s) : Home conv old level s.label :=
  home.draw grows_freshLabel

theorem Home.withExits (home : Home conv old level s) (exits : List Label) :
    Home conv old level (s.withExits exits) :=
  ⟨home.homes, home.below, home.sound.closed, home.sound.registers, home.sound.known,
    home.sound.links⟩

theorem Home.enter (home : Home conv old level s) : Home conv old level s.enter :=
  ⟨home.homes, home.below, home.sound.closed, home.sound.registers, home.sound.known,
    home.sound.links⟩

/-- Temporaries that were issued meanwhile may be added to those of the level. -/
theorem Home.more {more : List Temp} (home : Home conv old level s)
    (issued : Below s.supply.temps more) : Home conv (old ++ more) level s :=
  ⟨fun name x member => List.mem_append_left more (home.homes name x member),
    (below_append _ _ _).mpr ⟨home.below, issued⟩, home.sound⟩

/-- The variables in scope after one more has been bound. -/
theorem mem_varsIn_bound {name : String} {access : Access} {v : String × Level × Access}
    (member : v ∈ varsIn (s.bound name (.variable level access)).scopes) :
    v = (name, level, access) ∨ v ∈ varsIn s.scopes := by
  cases scopes : s.scopes with
  | nil =>
    have none : (s.bound name (.variable level access)).scopes = [] := by
      unfold bound
      rw [scopes]
      rfl
    rw [none] at member
    cases member
  | cons inner outer =>
    rw [varsIn_bound name level access (by simp [scopes]), scopes] at member
    exact List.mem_cons.mp member

/-- A variable of `level` is brought into scope. -/
theorem Home.bind (home : Home conv old level s) (name : String) {access : Access}
    (here : level < s.levels.length) (issued : access.temps ⊆ old) :
    Home conv old level (s.bound name (.variable level access)) where
  homes := by
    intro other x member
    rcases mem_varsIn_bound member with same | earlier
    · cases same
      exact issued (List.mem_singleton_self x)
    · exact home.homes other x earlier
  below := home.below
  sound := by
    refine ⟨home.sound.closed, home.sound.registers, ?_, home.sound.links⟩
    intro v member
    rcases mem_varsIn_bound member with same | earlier
    · subst same
      exact here
    · exact home.sound.known v earlier

/-- What was made is old for what is made next. -/
theorem Separates.issued (separates : Separates conv old s t own) (home : Home conv old level t) :
    Below t.supply.temps own := by
  obtain ⟨_, _, isolated⟩ := separates
  intro x member
  rcases isolated.own_from x member with register | older | between
  · exact home.sound.registers x register
  · exact home.below x older
  · exact between.2

end Home

section Functions

variable {pool : List Temp} {pools pools' : List (List Temp)} {levels : List Level} {home : Level}

/-- The formals of a level that are held in temporaries are held in those of `pool`. -/
def Pooled (conv : Convention) (s : Lowering) (home : Level) (pool : List Temp) : Prop :=
  ∃ info, s.levels[home]? = some info ∧ (∀ x, .inReg x ∈ info.frame.formals → x ∈ pool) ∧
    ∀ reg, some reg ∈ info.frame.incoming → reg ∈ conv.machine

/-- A function keeps its pool while others are lowered. -/
theorem Pooled.steps (pooled : Pooled conv s home pool) (steps : Steps conv s t) :
    Pooled conv t home pool := by
  obtain ⟨info, known, formals, incoming⟩ := pooled
  obtain ⟨info', present, kept⟩ := steps.keeps known
  refine ⟨info', present, ?_, ?_⟩
  · rw [kept.formals]
    exact formals
  · rw [kept.incoming]
    exact incoming

/-- Lowering from `s` to `t` finished procedures that are apart from each other. Besides
registers and new temporaries they use those of `pools`. -/
def Finishes (conv : Convention) (pools : List (List Temp)) (s t : Lowering) : Prop :=
  ∃ added, t.fragments = s.fragments ++ added ∧ s.supply.temps ≤ t.supply.temps ∧
    (bodyTemps added).Pairwise (Apart conv.machine) ∧
    ∀ temps ∈ bodyTemps added, ∀ x ∈ temps,
      x ∈ conv.machine ∨ (∃ pool ∈ pools, x ∈ pool) ∨ x.Between s.supply.temps t.supply.temps

theorem finishes_refl (conv : Convention) (pools : List (List Temp)) (s : Lowering) :
    Finishes conv pools s s :=
  ⟨[], (List.append_nil _).symm, Nat.le_refl _, .nil, by intro temps member; cases member⟩

/-- Bodies of some functions and then those of others, whose pools are apart. -/
theorem Finishes.trans (first : Finishes conv pools s t) (second : Finishes conv pools' t u)
    (apart : ∀ pool ∈ pools, ∀ pool' ∈ pools', Apart conv.machine pool pool')
    (below : ∀ pool ∈ pools ++ pools', Below s.supply.temps pool) :
    Finishes conv (pools ++ pools') s u := by
  obtain ⟨added, grown, le, separate, origin⟩ := first
  obtain ⟨later, grownLater, leLater, separateLater, originLater⟩ := second
  refine ⟨added ++ later, by rw [grownLater, grown, List.append_assoc], Nat.le_trans le leLater,
    ?_, ?_⟩
  · rw [bodyTemps_append]
    refine List.pairwise_append.mpr ⟨separate, separateLater, ?_⟩
    intro temps early temps' late x member shared
    rcases origin temps early x member with register | ⟨pool, among, pooled⟩ | between
    · exact register
    · rcases originLater temps' late x shared with register | ⟨pool', among', pooled'⟩ | between
      · exact register
      · exact apart pool among pool' among' x pooled pooled'
      · have earlier := below pool (List.mem_append_left _ among) x pooled
        exact absurd earlier (Nat.not_lt.mpr (Nat.le_trans le between.1))
    · rcases originLater temps' late x shared with register | ⟨pool', among', pooled'⟩ | later
      · exact register
      · have earlier := below pool' (List.mem_append_right _ among') x pooled'
        exact absurd earlier (Nat.not_lt.mpr between.1)
      · exact absurd between.2 (Nat.not_lt.mpr later.1)
  · rw [bodyTemps_append]
    intro temps member x inside
    rcases List.mem_append.mp member with early | late
    · rcases origin temps early x inside with register | ⟨pool, among, pooled⟩ | between
      · exact .inl register
      · exact .inr (.inl ⟨pool, List.mem_append_left _ among, pooled⟩)
      · exact .inr (.inr (between.widen (Nat.le_refl _) leLater))
    · rcases originLater temps late x inside with register | ⟨pool, among, pooled⟩ | between
      · exact .inl register
      · exact .inr (.inl ⟨pool, List.mem_append_right _ among, pooled⟩)
      · exact .inr (.inr (between.widen le (Nat.le_refl _)))

/-- A function is finished: its own code and the procedures split off from it are apart. -/
theorem Separates.finish {body : Stm} (separates : Separates conv pool s t body.temps)
    (pooled : Pooled conv t home pool) (closed : conv.Closed) (below : Below s.supply.temps pool)
    (ran : finishProc conv home body t = .ok () u) : Finishes conv [pool] s u := by
  obtain ⟨added, grown, isolated⟩ := separates
  obtain ⟨info, known, formals, incoming⟩ := pooled
  obtain ⟨_, present, rfl⟩ := finishProc_ok.mp ran
  cases known.symm.trans present
  let wrapped := conv.wrapBody info.frame body t.supply
  have whole : Isolated conv.machine pool s.supply.temps wrapped.2.temps wrapped.1.temps
      (bodyTemps added) := by
    refine isolated.finish below (grows_wrapBody conv info.frame body t.supply).1 ?_
    intro x member
    rcases mem_wrapBody closed incoming member with register | formal | inside | between
    · exact .inl register
    · exact .inr (.inl (formals x formal))
    · exact .inr (.inr (.inl inside))
    · exact .inr (.inr (.inr between))
  refine ⟨added ++ [.proc home wrapped.1], ?_, whole.grown, ?_, ?_⟩
  · change t.fragments ++ _ = _
    rw [grown, List.append_assoc]
  · rw [bodyTemps_append]
    refine List.pairwise_append.mpr ⟨whole.others_apart, List.pairwise_singleton _ _, ?_⟩
    intro temps other temps' last
    rw [List.mem_singleton.mp last]
    exact (whole.own_apart temps other).symm
  · rw [bodyTemps_append]
    intro temps member x inside
    rcases List.mem_append.mp member with other | last
    · exact (whole.others_from temps other x inside).imp id .inr
    · rw [List.mem_singleton.mp last] at inside
      rcases whole.own_from x inside with register | older | between
      · exact .inl register
      · exact .inr (.inl ⟨pool, List.mem_singleton_self pool, older⟩)
      · exact .inr (.inr between)

/-- Functions that are declared and not lowered yet: the formals of each have a pool of their
own, and no variable in scope belongs to them. -/
structure Grouped (conv : Convention) (levels : List Level) (pools : List (List Temp))
    (s : Lowering) : Prop where
  pooled : List.Forall₂ (Pooled conv s) levels pools
  apart : pools.Pairwise (Apart conv.machine)
  below : ∀ pool ∈ pools, Below s.supply.temps pool
  foreign : ∀ level ∈ levels, ∀ v ∈ varsIn s.scopes, v.2.1 ≠ level
  sound : Sound conv s

/-- A group of functions stays as it is when the state is extended. -/
theorem Grouped.extend (grouped : Grouped conv levels pools s) (extended : Extends conv s t) :
    Grouped conv levels pools t where
  pooled := grouped.pooled.imp fun _ _ pooled => pooled.steps extended.steps
  apart := grouped.apart
  below pool member x inside :=
    Nat.lt_of_lt_of_le (grouped.below pool member x inside) extended.steps.supply_le.1
  foreign := by rw [extended.scopes]; exact grouped.foreign
  sound := grouped.sound.extend extended

/-- A new level has a pool of new temporaries for its formals. -/
theorem openLevel_pooled {parent : Level} {label : Label} {escapes : List Bool}
    (closed : conv.Closed) (ran : openLevel conv parent label escapes s = .ok home t) :
    home = s.levels.length ∧ t.fragments = s.fragments ∧ t.scopes = s.scopes ∧
      ∃ pool, Pooled conv t home pool ∧
        ∀ x ∈ pool, x.Between s.supply.temps t.supply.temps := by
  obtain ⟨-, rfl, frame, supply, made, rfl⟩ := openLevel_ok.mp ran
  obtain ⟨-, kept, incoming, formals, arrivals, receives⟩ := Convention.frameFor_receives made
  refine ⟨rfl, rfl, rfl, frame.formals.flatMap Access.temps, ?_, ?_⟩
  · refine ⟨_, List.getElem?_concat_length, ?_, ?_⟩
    · intro x member
      exact List.mem_flatMap.mpr ⟨_, member, Access.mem_temps.mpr rfl⟩
    · intro reg member
      rw [arrivals] at member
      rcases List.mem_cons.mp member with same | among
      · cases same
      · exact closed.arguments (receives.arrive reg among)
  · intro x member
    obtain ⟨access, among, inside⟩ := List.mem_flatMap.mp member
    rw [Access.mem_temps.mp inside, formals] at among
    rcases List.mem_cons.mp among with same | among
    · cases same
    · exact receives.fresh x among

/-- The functions of a group have pools that are apart from each other, and their declaration brings
no variables into scope. -/
theorem declareFunctions_grouped {level : Level} :
    ∀ (group : List Source.FunDec) {levels : List Level} {s t : Lowering},
      Sound conv s → declareFunctions conv level group s = .ok levels t →
      t.fragments = s.fragments ∧ varsIn t.scopes = varsIn s.scopes ∧
        ∃ pools, Grouped conv levels pools t ∧
          ∀ pool ∈ pools, ∀ x ∈ pool, x.Between s.supply.temps t.supply.temps
  | [], _, _, _, sound, ran => by
    obtain ⟨rfl, rfl⟩ := declareFunctions_nil ran
    exact ⟨rfl, rfl, [], ⟨.nil, .nil, by simp, by simp, sound⟩, by simp⟩
  | ⟨name, params, result, body⟩ :: group, _, s, t, sound, ran => by
    obtain ⟨home, u, rest, opened, declared, rfl⟩ := declareFunctions_cons ran
    let label := (freshLabelFor name s.supply).1
    have opening : Extends conv s u := extends_openLevel opened
    have naming : Steps conv u (u.bound name (.function home label)) := .single (.names u _ u.exits)
    have declaring := ((extendingInner_declareFunctions level group).ok declared).steps
    obtain ⟨rfl, sameFragments, sameScopes, pool, pooled, fresh⟩ :=
      openLevel_pooled sound.closed opened
    have vars : varsIn (u.bound name (.function s.levels.length label)).scopes =
        varsIn s.scopes := by
      rw [varsIn_bound_function, sameScopes, draw_scopes]
    have there := sound.extend opening
    have soundThere : Sound conv (u.bound name (.function s.levels.length label)) := by
      refine ⟨sound.closed, there.registers, ?_, there.links⟩
      rw [vars]
      exact fun v member => Nat.lt_of_lt_of_le (sound.known v member) opening.steps.levels_le
    obtain ⟨laterFragments, laterVars, pools, grouped, between⟩ :=
      declareFunctions_grouped group soundThere declared
    have up : s.supply.temps ≤ u.supply.temps := opening.steps.supply_le.1
    have upLater : u.supply.temps ≤ t.supply.temps := declaring.supply_le.1
    refine ⟨laterFragments.trans sameFragments, laterVars.trans vars, pool :: pools, ?_, ?_⟩
    · refine ⟨.cons (pooled.steps (naming.trans declaring)) grouped.pooled, ?_, ?_, ?_,
        grouped.sound⟩
      · refine List.pairwise_cons.mpr ⟨?_, grouped.apart⟩
        -- The temporaries of the first function were issued before those of the others.
        intro pool' member x inside shared
        have later := (between pool' member x shared).1
        exact absurd (fresh x inside).2 (Nat.not_lt.mpr later)
      · intro pool' member x inside
        rcases List.mem_cons.mp member with rfl | among
        · exact Nat.lt_of_lt_of_le (fresh x inside).2 upLater
        · exact grouped.below pool' among x inside
      · intro level' member v inScope
        rcases List.mem_cons.mp member with rfl | among
        · rw [laterVars.trans vars] at inScope
          exact Nat.ne_of_lt (sound.known v inScope)
        · exact grouped.foreign level' among v inScope
    · intro pool' member x inside
      rcases List.mem_cons.mp member with rfl | among
      · exact (fresh x inside).widen (Nat.le_refl _) upLater
      · exact (between pool' among x inside).widen up (Nat.le_refl _)

/-- The variables in scope after the parameters have been bound, those at the formals of the
function. -/
theorem mem_varsIn_bindParams :
    ∀ (params : List Source.Binder) (formals : List Access) {s t : Lowering},
      bindParams home params formals s = .ok () t →
      ∀ v ∈ varsIn t.scopes, v ∈ varsIn s.scopes ∨ (v.2.1 = home ∧ v.2.2 ∈ formals)
  | [], _, _, _, ran => by
    obtain ⟨-, rfl⟩ := pure_ok.mp ran
    exact fun _ => .inl
  | _ :: _, [], _, _, ran => by
    obtain ⟨-, rfl⟩ := pure_ok.mp ran
    exact fun _ => .inl
  | param :: params, access :: formals, s, t, ran => by
    obtain ⟨_, _, named, ran⟩ := bind_ok.mp ran
    obtain rfl := bindName_ok.mp named
    intro v member
    rcases mem_varsIn_bindParams params formals ran v member with earlier | ⟨level, among⟩
    · rcases mem_varsIn_bound earlier with rfl | earlier
      · exact .inr ⟨rfl, List.mem_cons_self⟩
      · exact .inl earlier
    · exact .inr ⟨level, List.mem_cons_of_mem _ among⟩

/-- Inside a function with its parameters in scope, the variables of its level are the
parameters, and their temporaries are those of the pool. -/
theorem home_params {params : List Source.Binder} {info : LevelInfo} (sound : Sound conv s)
    (pooled : Pooled conv s home pool) (below : Below s.supply.temps pool)
    (foreign : ∀ v ∈ varsIn s.scopes, v.2.1 ≠ home) (known : s.levels[home]? = some info)
    (named : bindParams home params info.frame.formals.tail s.enter = .ok () t) :
    Home conv pool home t := by
  obtain ⟨supply, levels, -⟩ := bindParams_same params _ named
  have vars := mem_varsIn_bindParams params _ named
  obtain ⟨_, present, formals, -⟩ := pooled
  cases known.symm.trans present
  have here : home < s.levels.length := (List.getElem?_eq_some_iff.mp known).1
  refine ⟨?_, by rw [supply]; exact below, sound.closed, by rw [supply]; exact sound.registers,
    ?_, by rw [levels]; exact sound.links⟩
  · intro name x member
    rcases vars _ member with outer | ⟨-, among⟩
    · exact absurd rfl (foreign _ outer)
    · exact formals x (List.mem_of_mem_tail among)
  · intro v member
    rw [levels]
    rcases vars v member with outer | ⟨same, -⟩
    · exact sound.known v outer
    · rw [same]
      exact here

end Functions

end Lowering

end TreeCode
