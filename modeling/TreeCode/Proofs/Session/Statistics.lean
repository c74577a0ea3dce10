import Mathlib.Algebra.Order.Ring.Nat
import TreeCode.Proofs.Session.Hygiene

/-!
The statistics of a session describe what was recorded in it. Every program that is compiled, also
one that fails halfway, leaves them consistent: the counts add up to the instructions of the
recorded functions, the largest function is the first of its size, and every fragment is a function
or a literal, but for at most one in each program that failed.
-/

namespace TreeCode

open Session

section Sizes

/-- Whether an instruction counts: it is no label and its text is not blank. -/
def Instr.isCounted (instr : Instr) : Bool :=
  instr.kind != .label && !instr.asm.toList.all Text.isBlank

/-- How many instructions of a function count. -/
def Procedure.size (proc : Procedure) : Nat := proc.instrs.countP Instr.isCounted

/-- A text has a first word unless it is blank. -/
theorem isSome_firstWord (text : String) :
    (Text.firstWord? text).isSome = !text.toList.all Text.isBlank := by
  unfold Text.firstWord?
  induction text.toList with
  | nil => rfl
  | cons c cs ih =>
    by_cases blank : Text.isBlank c = true
    · simp only [List.dropWhile_cons, blank, if_true, List.all_cons, Bool.true_and]
      exact ih
    · simp [blank]

theorem isSome_mnemonic (instr : Instr) : instr.mnemonic?.isSome = instr.isCounted := by
  unfold Instr.mnemonic? Instr.isCounted
  cases instr.kind <;> simp [isSome_firstWord]

theorem length_mnemonics (instrs : List Instr) :
    (instrs.filterMap Instr.mnemonic?).length = instrs.countP Instr.isCounted := by
  rw [List.length_filterMap_eq_countP]
  simp only [isSome_mnemonic]

end Sizes

section Counts

/-- The sum of all counts. -/
def WordCounts.total (counts : WordCounts) : Nat := (counts.map Prod.snd).sum

/-- Counting a word adds one to the total. -/
theorem total_add (word : String) (counts : WordCounts) :
    (counts.add word).total = counts.total + 1 := by
  induction counts with
  | nil => rfl
  | cons entry rest ih =>
    obtain ⟨known, count⟩ := entry
    unfold WordCounts.total at ih ⊢
    simp only [WordCounts.add]
    split
    · simp
      omega
    · split
      · simp
        omega
      · simp only [List.map_cons, List.sum_cons, ih]
        omega

/-- A word that is listed was counted. -/
theorem positive_add (word : String) {counts : WordCounts}
    (positive : ∀ entry ∈ counts, 1 ≤ entry.2) : ∀ entry ∈ counts.add word, 1 ≤ entry.2 := by
  induction counts with
  | nil => simp [WordCounts.add]
  | cons entry rest ih =>
    obtain ⟨known, count⟩ := entry
    obtain ⟨first, others⟩ := List.forall_mem_cons.mp positive
    simp only [WordCounts.add]
    split
    · exact List.forall_mem_cons.mpr ⟨Nat.le_succ_of_le first, others⟩
    · split
      · exact List.forall_mem_cons.mpr ⟨Nat.le_refl 1, positive⟩
      · exact List.forall_mem_cons.mpr ⟨first, ih others⟩

theorem total_addAll (words : List String) (counts : WordCounts) :
    (words.foldl (fun counts word => counts.add word) counts).total =
      counts.total + words.length := by
  induction words generalizing counts with
  | nil => rfl
  | cons word words ih =>
    rw [List.foldl_cons, ih, total_add, List.length_cons]
    omega

theorem positive_addAll (words : List String) {counts : WordCounts}
    (positive : ∀ entry ∈ counts, 1 ≤ entry.2) :
    ∀ entry ∈ words.foldl (fun counts word => counts.add word) counts, 1 ≤ entry.2 := by
  induction words generalizing counts with
  | nil => exact positive
  | cons word words ih => exact ih (positive_add word positive)

end Counts

/-- The greatest of the sizes of functions; zero if there are none. -/
def greatestSize (procs : List Procedure) : Nat := (procs.map Procedure.size).foldr max 0

/-- The first of the functions that has this size. -/
def firstOfSize (size : Nat) (procs : List Procedure) : Option Procedure :=
  procs.find? fun proc => proc.size == size

section Largest

variable {procs : List Procedure} {proc : Procedure}

theorem greatestSize_concat (procs : List Procedure) (proc : Procedure) :
    greatestSize (procs ++ [proc]) = max (greatestSize procs) proc.size := by
  unfold greatestSize
  induction procs with
  | nil => simp
  | cons other procs ih =>
    simp only [List.cons_append, List.map_cons, List.foldr_cons, ih]
    omega

theorem size_le_greatest (member : proc ∈ procs) : proc.size ≤ greatestSize procs := by
  unfold greatestSize
  induction procs with
  | nil => cases member
  | cons other procs ih =>
    simp only [List.map_cons, List.foldr_cons]
    rcases List.mem_cons.mp member with rfl | later
    · omega
    · have := ih later
      omega

/-- A function that is larger than all before it is the first of its size. -/
theorem firstOfSize_concat (larger : greatestSize procs < proc.size) :
    firstOfSize proc.size (procs ++ [proc]) = some proc := by
  unfold firstOfSize
  have none : procs.find? (fun other => other.size == proc.size) = none := by
    rw [List.find?_eq_none]
    intro other member same
    have bound := size_le_greatest member
    rw [beq_iff_eq] at same
    omega
  simp [List.find?_append, none]

end Largest

/-- The statistics describe the recorded functions `procs`. -/
structure Stats.Describes (stats : Stats) (procs : List Procedure) : Prop where
  functions : stats.functions = procs.length
  counted : stats.instructions = stats.counts.total
  summed : stats.instructions = (procs.map Procedure.size).sum
  positive : ∀ entry ∈ stats.counts, 1 ≤ entry.2
  largest : stats.largestSize = greatestSize procs
  unnamed : stats.largestSize = 0 → stats.largestName = ""
  named : 0 < stats.largestSize →
    (firstOfSize stats.largestSize procs).map Procedure.name = some stats.largestName

section Describes

variable {stats : Stats} {procs : List Procedure}

theorem describes_empty : Stats.Describes {} [] :=
  ⟨rfl, rfl, rfl, List.forall_mem_nil _, rfl, fun _ => rfl,
    fun positive => absurd positive (by simp)⟩

theorem Stats.Describes.addFragment (describes : stats.Describes procs) :
    stats.addFragment.Describes procs :=
  ⟨describes.functions, describes.counted, describes.summed, describes.positive,
    describes.largest, describes.unnamed, describes.named⟩

theorem Stats.Describes.addString (describes : stats.Describes procs) :
    stats.addString.Describes procs :=
  ⟨describes.functions, describes.counted, describes.summed, describes.positive,
    describes.largest, describes.unnamed, describes.named⟩

theorem Stats.Describes.addEscaping (describes : stats.Describes procs) (count : Nat) :
    (stats.addEscaping count).Describes procs :=
  ⟨describes.functions, describes.counted, describes.summed, describes.positive,
    describes.largest, describes.unnamed, describes.named⟩

/-- Statistics that describe some procedures describe one more after it is added. -/
theorem Stats.Describes.addFunction (describes : stats.Describes procs) (proc : Procedure)
    (statements : Nat) :
    (stats.addFunction proc.name statements proc.instrs).Describes (procs ++ [proc]) := by
  have size : (proc.instrs.filterMap Instr.mnemonic?).length = proc.size := length_mnemonics _
  have greatest := greatestSize_concat procs proc
  rw [← describes.largest] at greatest
  constructor
  case functions => simp [Stats.addFunction, describes.functions]
  case counted => simp only [Stats.addFunction, total_addAll, describes.counted]
  case summed => simp [Stats.addFunction, describes.summed, size]
  case positive => exact positive_addAll _ describes.positive
  case largest =>
    simp only [Stats.addFunction, size, greatest]
    split <;> omega
  case unnamed =>
    simp only [Stats.addFunction, size]
    intro zero
    split at zero
    · omega
    · rw [if_neg (by omega)]
      exact describes.unnamed zero
  case named =>
    simp only [Stats.addFunction, size]
    intro positive
    by_cases larger : stats.largestSize < proc.size
    · rw [if_pos larger, if_pos larger, firstOfSize_concat (describes.largest ▸ larger)]
      rfl
    · rw [if_neg larger] at positive ⊢
      rw [if_neg larger]
      -- The function that is the first of this size stays so.
      have named := describes.named positive
      obtain ⟨first, found, same⟩ := Option.map_eq_some_iff.mp named
      unfold firstOfSize at found ⊢
      rw [List.find?_append, found]
      exact congrArg some same

end Describes

/-- The functions of fragments that are compiled one after the other, up to the first fragment that
fails. -/
def completedFragments (frames : List Frame) : List Fragment → Session → List Procedure
  | [], _ => []
  | fragment :: rest, session =>
    match compileFragments frames [fragment] session with
    | .ok (procs, _) session => procs ++ completedFragments frames rest session
    | .error _ _ => []

namespace Session

/-- The session in which the escaping variables of a program have been counted. -/
def counting (session : Session) (marked : Source.Exp) : Session :=
  { session with
    stats := session.stats.addEscaping (marked.binders.countP Source.Binder.escapes) }

/-- The functions of a program that are compiled before it fails. -/
def completed (session : Session) (program : Source.Exp) : List Procedure :=
  match program.markEscaping with
  | (.error _, _) => []
  | (.ok _, marked) =>
    match lowerInSession marked (session.counting marked) with
    | .ok (frames, fragments) session => completedFragments frames fragments session
    | .error _ _ => []

/-- The session after programs were compiled one after the other. -/
def compileAll (session : Session) (programs : List Source.Exp) : Session :=
  programs.foldl (fun session program => (session.compile program).session) session

/-- The functions that are recorded while programs are compiled: those of the units, and those that
were compiled before a program failed. -/
def recorded : Session → List Source.Exp → List Procedure
  | _, [] => []
  | session, program :: programs =>
    (match (session.compile program).outcome with
      | .ok unit => unit.procs
      | .error _ => session.completed program) ++
    recorded (session.compile program).session programs

/-- How many of the programs fail to compile. -/
def failures : Session → List Source.Exp → Nat
  | _, [] => 0
  | session, program :: programs =>
    (match (session.compile program).outcome with
      | .ok _ => 0
      | .error _ => 1) +
    failures (session.compile program).session programs

end Session

/-- The statistics describe the recorded functions `procs`, and there are `lost` fragments that
became neither a function nor a literal. -/
structure Stats.Accounts (stats : Stats) (procs : List Procedure) (lost : Nat) : Prop where
  describes : stats.Describes procs
  fragments : stats.fragments = stats.functions + stats.strings + lost

section Runs

variable {session after : Session} {frames : List Frame} {done procs : List Procedure}
  {strings : List Literal} {lost : Nat} {error : Error}

theorem compileProc_stats {level : Level} {body : Tree.Stm} {proc : Procedure}
    (ran : compileProc frames level body session = .ok proc after) :
    after.stats = session.stats.addFunction proc.name proc.ir.length proc.instrs := by
  obtain ⟨_, _, got, ran⟩ := bind_ok.mp ran
  cases got
  cases known : frames[level]? with
  | none => simp [known, throw_ok] at ran
  | some frame =>
    simp only [known] at ran
    obtain ⟨ir, _, canonical, ran⟩ := bind_ok.mp ran
    obtain ⟨rfl, rfl⟩ := lift_fresh_ok.mp canonical
    obtain ⟨code, _, selected, ran⟩ := bind_ok.mp ran
    obtain ⟨state, _, rfl⟩ := lift_select_ok selected
    cases ran
    rfl

/-- A procedure that fails is not counted. -/
theorem compileProc_error_stats {level : Level} {body : Tree.Stm}
    (failed : compileProc frames level body session = .error error after) :
    after.stats = session.stats := by
  rcases bind_error failed with got | ⟨_, _, got, failed⟩
  · cases got
  cases got
  cases known : frames[level]? with
  | none =>
    simp only [known] at failed
    cases failed
    rfl
  | some frame =>
    simp only [known] at failed
    rcases bind_error failed with canonical | ⟨ir, _, canonical, failed⟩
    · cases canonical
    obtain ⟨rfl, rfl⟩ := lift_fresh_ok.mp canonical
    rcases bind_error failed with selecting | ⟨code, _, selected, failed⟩
    · rw [run_select] at selecting
      split at selecting
      · cases selecting
      · cases selecting
        rfl
    · cases failed

/-- Fragments are compiled one after the other. -/
theorem compileFragments_cons (frames : List Frame) (fragment : Fragment) (rest : List Fragment) :
    compileFragments frames (fragment :: rest) = (do
      let (procs, strings) ← compileFragments frames [fragment]
      let (others, literals) ← compileFragments frames rest
      return (procs ++ others, strings ++ literals)) := by
  cases fragment <;> simp [compileFragments]

/-- One fragment that is compiled. -/
theorem Stats.Accounts.fragment (accounts : session.stats.Accounts done lost)
    {fragment : Fragment}
    (ran : compileFragments frames [fragment] session = .ok (procs, strings) after) :
    after.stats.Accounts (done ++ procs) lost := by
  obtain ⟨describes, fragments⟩ := accounts
  cases fragment with
  | proc level body =>
    obtain ⟨_, _, recorded, ran⟩ := bind_ok.mp ran
    obtain ⟨proc, last, compiled, ran⟩ := bind_ok.mp ran
    cases ran
    have stats := compileProc_stats compiled
    cases recorded
    rw [stats]
    refine ⟨describes.addFragment.addFunction proc _, ?_⟩
    simp only [Stats.addFunction, Stats.addFragment]
    omega
  | string label text =>
    cases ran
    refine ⟨?_, ?_⟩
    · rw [List.append_nil]
      exact describes.addFragment.addString
    · simp only [Stats.addString, Stats.addFragment]
      omega

/-- One fragment that fails. -/
theorem Stats.Accounts.failed (accounts : session.stats.Accounts done lost)
    {fragment : Fragment}
    (failed : compileFragments frames [fragment] session = .error error after) :
    after.stats.Accounts done (lost + 1) := by
  obtain ⟨describes, fragments⟩ := accounts
  cases fragment with
  | proc level body =>
    rcases bind_error failed with recorded | ⟨_, _, recorded, failed⟩
    · cases recorded
    rcases bind_error failed with compiling | ⟨_, _, _, rest⟩
    · have stats := compileProc_error_stats compiling
      cases recorded
      rw [stats]
      refine ⟨describes.addFragment, ?_⟩
      simp only [Stats.addFragment]
      omega
    · cases rest
  | string label text => cases failed

/-- Every procedure of a unit that succeeds is counted. -/
theorem Stats.Accounts.fragments_ok (accounts : session.stats.Accounts done lost)
    {fragments : List Fragment}
    (ran : compileFragments frames fragments session = .ok (procs, strings) after) :
    procs = completedFragments frames fragments session ∧
      after.stats.Accounts (done ++ procs) lost := by
  induction fragments generalizing session done procs strings with
  | nil =>
    cases ran
    rw [List.append_nil]
    exact ⟨rfl, accounts⟩
  | cons fragment rest ih =>
    rw [compileFragments_cons] at ran
    obtain ⟨⟨first, _⟩, middle, began, ran⟩ := bind_ok.mp ran
    obtain ⟨⟨others, _⟩, _, ended, ran⟩ := bind_ok.mp ran
    cases ran
    obtain ⟨same, accounted⟩ := ih (accounts.fragment began) ended
    rw [List.append_assoc] at accounted
    refine ⟨?_, accounted⟩
    rw [completedFragments, began]
    exact congrArg (first ++ ·) same

/-- Of a unit that fails, the procedures before the failure are counted. -/
theorem Stats.Accounts.fragments_error (accounts : session.stats.Accounts done lost)
    {fragments : List Fragment}
    (failed : compileFragments frames fragments session = .error error after) :
    after.stats.Accounts (done ++ completedFragments frames fragments session) (lost + 1) := by
  induction fragments generalizing session done with
  | nil => cases failed
  | cons fragment rest ih =>
    rw [compileFragments_cons] at failed
    rw [completedFragments]
    rcases bind_error failed with here | ⟨⟨first, _⟩, middle, began, failed⟩
    · rw [here, List.append_nil]
      exact accounts.failed here
    · rw [began]
      rcases bind_error failed with later | ⟨_, _, _, ended⟩
      · have accounted := ih (accounts.fragment began) later
        rw [List.append_assoc] at accounted
        exact accounted
      · cases ended

/-- Lowering a program leaves the statistics as they are. -/
theorem Stats.Accounts.lowered (accounts : session.stats.Accounts done lost)
    (marked : Source.Exp) :
    (left (lowerInSession marked (session.counting marked))).stats.Accounts done lost := by
  have same : (left (lowerInSession marked (session.counting marked))).stats =
      (session.counting marked).stats := by
    unfold lowerInSession
    dsimp only
    split <;> rfl
  rw [same]
  exact ⟨accounts.describes.addEscaping _, accounts.fragments⟩

/-- A program that is compiled leaves the functions of its unit recorded. -/
theorem Stats.Accounts.compiled {program : Source.Exp} {unit : Assembly}
    (accounts : session.stats.Accounts done lost)
    (compiled : (session.compile program).outcome = .ok unit) :
    (session.compile program).session.stats.Accounts (done ++ unit.procs) lost := by
  unfold Session.compile at compiled ⊢
  split at compiled
  next => cases compiled
  next marked _ =>
    have start := accounts.lowered marked
    split at compiled
    next last ran =>
      cases compiled
      obtain ⟨_, _, counted, ran⟩ := bind_ok.mp ran
      cases counted
      obtain ⟨⟨frames, fragments⟩, middle, lowered, ran⟩ := bind_ok.mp ran
      obtain ⟨⟨procs, strings⟩, _, selected, ran⟩ := bind_ok.mp ran
      cases ran
      rw [show lowerInSession marked (session.counting marked) = _ from lowered] at start
      exact (Stats.Accounts.fragments_ok start selected).2
    next => cases compiled

/-- A program that fails leaves the functions recorded that were compiled before, and loses at most
the fragment that it failed at. -/
theorem Stats.Accounts.broken {program : Source.Exp} (accounts : session.stats.Accounts done lost)
    (failed : (session.compile program).outcome = .error error) :
    ∃ more ≤ 1, (session.compile program).session.stats.Accounts
      (done ++ session.completed program) (lost + more) := by
  obtain ⟨outcome, marked, analysed⟩ : ∃ outcome marked, program.markEscaping = (outcome, marked) :=
    ⟨_, _, rfl⟩
  cases outcome with
  | error fault =>
    simp only [Session.compile, Session.completed, analysed, List.append_nil]
    exact ⟨0, Nat.zero_le 1, accounts⟩
  | ok _ =>
    have start := accounts.lowered marked
    simp only [Session.compile, Session.completed, analysed] at failed ⊢
    cases ran : compileMarked marked session with
    | ok unit last =>
      rw [ran] at failed
      cases failed
    | error fault last =>
      rcases bind_error ran with counting | ⟨_, _, counted, ran⟩
      · cases counting
      cases counted
      rcases bind_error ran with lowering | ⟨⟨frames, fragments⟩, middle, lowered, ran⟩
      · have lowering : lowerInSession marked (session.counting marked) = .error fault last :=
          lowering
        rw [lowering] at start ⊢
        rw [List.append_nil]
        exact ⟨0, Nat.zero_le 1, start⟩
      · have lowered :
            lowerInSession marked (session.counting marked) = .ok (frames, fragments) middle :=
          lowered
        rw [lowered] at start ⊢
        rcases bind_error ran with selecting | ⟨_, _, _, ended⟩
        · exact ⟨1, Nat.le_refl 1, Stats.Accounts.fragments_error start selecting⟩
        · cases ended

/-- What holds of the statistics before some programs are compiled holds after them. -/
theorem Stats.Accounts.compileAll (accounts : session.stats.Accounts done lost)
    (programs : List Source.Exp) :
    ∃ more ≤ session.failures programs, (session.compileAll programs).stats.Accounts
      (done ++ session.recorded programs) (lost + more) := by
  induction programs generalizing session done lost with
  | nil =>
    refine ⟨0, Nat.zero_le _, ?_⟩
    rw [Session.recorded, List.append_nil]
    exact accounts
  | cons program programs ih =>
    rw [Session.recorded, Session.failures, ← List.append_assoc]
    cases outcome : (session.compile program).outcome with
    | ok unit =>
      obtain ⟨more, bounded, all⟩ := ih (accounts.compiled outcome)
      exact ⟨more, by omega, all⟩
    | error error =>
      obtain ⟨here, small, first⟩ := accounts.broken outcome
      obtain ⟨more, bounded, all⟩ := ih first
      refine ⟨here + more, Nat.add_le_add small bounded, ?_⟩
      rw [← Nat.add_assoc]
      exact all

end Runs

/-- The statistics of a session stay consistent, whatever programs are compiled in it and wherever
some of them fail. The instructions emitted are as many as the counts add up to and as the recorded
functions have, no count is zero, the largest function is the first recorded one of the greatest
size, and all fragments but at most one for each failure became functions or literals. -/
theorem statistics_consistent {config : Config} {session : Session}
    (began : Session.start config = .ok session) (programs : List Source.Exp) :
    let stats := (session.compileAll programs).stats
    let recorded := session.recorded programs
    let failed := session.failures programs
    (stats.instructions = (stats.counts.map Prod.snd).sum ∧
      stats.instructions = (recorded.map Procedure.size).sum ∧
      ∀ entry ∈ stats.counts, 1 ≤ entry.2) ∧
    (stats.largestSize = (recorded.map Procedure.size).foldr max 0 ∧
      (stats.largestSize = 0 → stats.largestName = "") ∧
      (0 < stats.largestSize →
        (recorded.find? fun proc => proc.size == stats.largestSize).map Procedure.name =
          some stats.largestName)) ∧
    stats.functions = recorded.length ∧
    stats.functions + stats.strings ≤ stats.fragments ∧
    stats.fragments ≤ stats.functions + stats.strings + failed ∧
    (failed = 0 → stats.fragments = stats.functions + stats.strings) := by
  have fresh : session.stats = {} := by
    unfold Session.start at began
    split at began
    next =>
      cases began
      rfl
    next => cases began
  have start : session.stats.Accounts [] 0 := by
    rw [fresh]
    exact ⟨describes_empty, rfl⟩
  obtain ⟨lost, bounded, describes, fragments⟩ := start.compileAll programs
  rw [List.nil_append] at describes
  exact ⟨⟨describes.counted, describes.summed, describes.positive⟩,
    ⟨describes.largest, describes.unnamed, describes.named⟩, describes.functions,
    by omega, by omega, by omega⟩

/-- A function with a literal, called in a program that fails when it is compiled itself: the
argument of `ord` is a call after another one. -/
def halfway : Source.Exp :=
  .letIn [.functions [⟨"hail", [], none, .call "print" [.string "hail"] {}⟩]]
    (.call "ord" [.seq [.call "hail" [] {}, .call "getchar" [] {}]] {})

/-- A program that fails halfway, one that is compiled, and one that fails at once. -/
theorem halfway_statistics :
    ∃ session, Session.start {} = .ok session ∧
      let programs := [halfway, .call "flush" [] {}, .breakLoop {}]
      let stats := (session.compileAll programs).stats
      session.failures programs = 2 ∧ (session.recorded programs).map Procedure.name =
        ["hail.0", "tigermain"] ∧
      stats.instructions = (stats.counts.map Prod.snd).sum ∧ stats.instructions = 12 + 11 ∧
      (∀ entry ∈ stats.counts, 1 ≤ entry.2) ∧ stats.largestSize = 12 ∧ stats.functions = 2 ∧
      2 + stats.strings ≤ stats.fragments ∧ stats.fragments ≤ 2 + stats.strings + 2 := by
  have evaluated : ((Session.start {}).toOption.map fun session =>
      ((session.recorded [halfway, .call "flush" [] {}, .breakLoop {}]).map fun proc =>
        (proc.name, proc.size), session.failures [halfway, .call "flush" [] {}, .breakLoop {}])) =
      some ([("hail.0", 12), ("tigermain", 11)], 2) := by decide +kernel
  obtain ⟨session, began, evaluated⟩ := Option.map_eq_some_iff.mp evaluated
  obtain ⟨functions, failed⟩ := Prod.mk.inj evaluated
  have names := congrArg (List.map Prod.fst) functions
  have sizes := congrArg (List.map Prod.snd) functions
  rw [List.map_map] at names sizes
  have began := ok_of_toOption began
  obtain ⟨⟨counted, summed, positive⟩, ⟨largest, _⟩, length, lower, upper, _⟩ :=
    statistics_consistent began [halfway, .call "flush" [] {}, .breakLoop {}]
  have two := congrArg List.length functions
  rw [List.length_map] at two
  rw [length, two] at lower
  rw [length, two, failed] at upper
  refine ⟨session, began, failed, names, counted, ?_, positive, ?_, length.trans two, lower, upper⟩
  · exact summed.trans (congrArg List.sum sizes)
  · exact largest.trans (congrArg (List.foldr max 0) sizes)

end TreeCode
