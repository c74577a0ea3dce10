/-!
Computations on a state that may fail, taken apart into their steps.
-/

namespace TreeCode

variable {ε σ α β : Type}

theorem run_bind (act : EStateM ε σ α) (next : α → EStateM ε σ β) (s : σ) :
    (act >>= next) s =
      match act s with
      | .ok a s => next a s
      | .error error s => .error error s := by
  change EStateM.bind act next s = _
  unfold EStateM.bind
  cases act s <;> rfl

theorem bind_ok {act : EStateM ε σ α} {next : α → EStateM ε σ β} {s s' : σ} {b : β} :
    (act >>= next) s = .ok b s' ↔ ∃ a t, act s = .ok a t ∧ next a t = .ok b s' := by
  rw [run_bind]
  cases act s with
  | ok a t =>
    constructor
    · intro ran
      exact ⟨a, t, rfl, ran⟩
    · rintro ⟨_, _, same, ran⟩
      cases same
      exact ran
  | error error t => simp

theorem bind_error {act : EStateM ε σ α} {next : α → EStateM ε σ β} {s s' : σ} {error : ε}
    (failed : (act >>= next) s = .error error s') :
    act s = .error error s' ∨ ∃ a t, act s = .ok a t ∧ next a t = .error error s' := by
  rw [run_bind] at failed
  cases ran : act s with
  | ok a t =>
    rw [ran] at failed
    exact .inr ⟨a, t, rfl, failed⟩
  | error error t =>
    rw [ran] at failed
    cases failed
    exact .inl rfl

theorem pure_ok {a b : α} {s s' : σ} :
    (pure a : EStateM ε σ α) s = .ok b s' ↔ a = b ∧ s = s' := by
  change EStateM.Result.ok a s = .ok b s' ↔ _
  simp

theorem throw_ok {error : ε} {b : α} {s s' : σ} :
    (throw error : EStateM ε σ α) s = .ok b s' ↔ False := by
  change EStateM.Result.error error s = .ok b s' ↔ _
  simp

theorem except_bind_ok {act : Except ε α} {next : α → Except ε β} {b : β} :
    (act >>= next) = .ok b ↔ ∃ a, act = .ok a ∧ next a = .ok b := by
  cases act with
  | ok a =>
    constructor
    · intro ran
      exact ⟨a, rfl, ran⟩
    · rintro ⟨_, same, ran⟩
      cases same
      exact ran
  | error error =>
    constructor
    · intro ran
      cases ran
    · rintro ⟨_, same, _⟩
      cases same

theorem except_bind_error {act : Except ε α} {next : α → Except ε β} {error : ε}
    (failed : (act >>= next) = .error error) :
    act = .error error ∨ ∃ a, act = .ok a ∧ next a = .error error := by
  cases act with
  | ok a => exact .inr ⟨a, rfl, failed⟩
  | error error =>
    cases failed
    exact .inl rfl

theorem ok_of_toOption {made : Except ε α} {a : α} (given : made.toOption = some a) :
    made = .ok a := by
  cases made with
  | ok b =>
    cases given
    rfl
  | error error => cases given

/-- What holds after a computation that succeeds. -/
def after (act : EStateM ε σ α) (s : σ) (holds : α → σ → Prop) : Prop :=
  ∀ a t, act s = .ok a t → holds a t

section Lists

theorem mapM_cons_ok {f : α → Except ε β} {a : α} {as : List α} {bs : List β} :
    (a :: as).mapM f = .ok bs ↔
      ∃ b rest, f a = .ok b ∧ as.mapM f = .ok rest ∧ b :: rest = bs := by
  rw [List.mapM_cons]
  simp only [except_bind_ok, pure, Except.pure, Except.ok.injEq]
  constructor
  · rintro ⟨b, made, rest, others, rfl⟩
    exact ⟨b, rest, made, others, rfl⟩
  · rintro ⟨b, rest, made, others, rfl⟩
    exact ⟨b, made, rest, others, rfl⟩

theorem mapM_cons_of_ok {f : α → Except ε β} {a : α} {as : List α} {b : β} {bs : List β}
    (first : f a = .ok b) (rest : as.mapM f = .ok bs) : (a :: as).mapM f = .ok (b :: bs) :=
  mapM_cons_ok.mpr ⟨b, bs, first, rest, rfl⟩

/-- The first failure is that of an element. -/
theorem mapM_error {f : α → Except ε β} {as : List α} {error : ε}
    (failed : as.mapM f = .error error) : ∃ a ∈ as, f a = .error error := by
  induction as with
  | nil => cases failed
  | cons a as ih =>
    rw [List.mapM_cons] at failed
    rcases except_bind_error failed with here | ⟨_, _, failed⟩
    · exact ⟨a, List.mem_cons_self, here⟩
    rcases except_bind_error failed with there | ⟨_, _, failed⟩
    · obtain ⟨b, member, made⟩ := ih there
      exact ⟨b, List.mem_cons_of_mem a member, made⟩
    · cases failed

theorem mapM_length {f : α → Except ε β} {as : List α} {bs : List β}
    (ran : as.mapM f = .ok bs) : bs.length = as.length := by
  induction as generalizing bs with
  | nil =>
    cases ran
    rfl
  | cons a as ih =>
    obtain ⟨b, rest, -, others, rfl⟩ := mapM_cons_ok.mp ran
    simp [ih others]

/-- Each element has a result. -/
theorem mem_mapM_of_mem {f : α → Except ε β} {a : α} {as : List α} {bs : List β}
    (ran : as.mapM f = .ok bs) (member : a ∈ as) : ∃ b ∈ bs, f a = .ok b := by
  induction as generalizing bs with
  | nil => cases member
  | cons x as ih =>
    obtain ⟨b, rest, made, others, rfl⟩ := mapM_cons_ok.mp ran
    rcases List.mem_cons.mp member with rfl | among
    · exact ⟨b, List.mem_cons_self, made⟩
    · obtain ⟨c, inside, made⟩ := ih others among
      exact ⟨c, List.mem_cons_of_mem b inside, made⟩

/-- Each of the results comes from an element. -/
theorem mem_mapM {f : α → Except ε β} {b : β} {as : List α} {bs : List β}
    (ran : as.mapM f = .ok bs) (member : b ∈ bs) : ∃ a ∈ as, f a = .ok b := by
  induction as generalizing bs with
  | nil =>
    cases ran
    cases member
  | cons a as ih =>
    obtain ⟨first, rest, made, others, rfl⟩ := mapM_cons_ok.mp ran
    rcases List.mem_cons.mp member with rfl | among
    · exact ⟨a, List.mem_cons_self, made⟩
    · obtain ⟨x, inside, made⟩ := ih others among
      exact ⟨x, List.mem_cons_of_mem a inside, made⟩

theorem mapM_of_forall {f : α → Except ε β} {as : List α} (all : ∀ a ∈ as, ∃ b, f a = .ok b) :
    ∃ bs, as.mapM f = .ok bs := by
  induction as with
  | nil => exact ⟨[], rfl⟩
  | cons a as ih =>
    obtain ⟨b, made⟩ := all a List.mem_cons_self
    obtain ⟨bs, others⟩ := ih fun x member => all x (List.mem_cons_of_mem a member)
    exact ⟨b :: bs, mapM_cons_of_ok made others⟩

theorem mapM_congr {f g : α → EStateM ε σ β} {as : List α} (same : ∀ a ∈ as, f a = g a) :
    as.mapM f = as.mapM g := by
  induction as with
  | nil => rfl
  | cons a as ih =>
    rw [List.mapM_cons, List.mapM_cons, same a List.mem_cons_self,
      ih fun x member => same x (List.mem_cons_of_mem a member)]

end Lists

/-- The state that a computation leaves, whether it succeeds or fails. -/
def left : EStateM.Result ε σ α → σ
  | .ok _ s => s
  | .error _ s => s

@[simp] theorem left_ok (a : α) (s : σ) : left (.ok a s : EStateM.Result ε σ α) = s := rfl

@[simp] theorem left_error (error : ε) (s : σ) :
    left (.error error s : EStateM.Result ε σ α) = s := rfl

/-- A computation stays within a relation between the states before and after it, whether it
succeeds or fails. -/
def Within (R : σ → σ → Prop) (act : EStateM ε σ α) : Prop :=
  ∀ s, R s (left (act s))

theorem within_bind {R : σ → σ → Prop} {act : EStateM ε σ α} {next : α → EStateM ε σ β}
    (trans : ∀ {s t u}, R s t → R t u → R s u) (first : Within R act)
    (rest : ∀ a, Within R (next a)) : Within R (act >>= next) := by
  intro s
  have moved := first s
  rw [run_bind]
  cases ran : act s with
  | ok a t =>
    rw [ran] at moved
    exact trans moved (rest a t)
  | error error t =>
    rw [ran] at moved
    exact moved

theorem Within.ok {R : σ → σ → Prop} {act : EStateM ε σ α} {s s' : σ} {a : α}
    (within : Within R act) (ran : act s = .ok a s') : R s s' := by
  have moved := within s
  rw [ran] at moved
  exact moved

end TreeCode
