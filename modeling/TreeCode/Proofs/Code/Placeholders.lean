import TreeCode.Code.Placeholder

/-!
Texts that rendering leaves alone. An instruction without operands is printed as it is written
exactly if its text asks for no operand and writes the number of every other placeholder in the
way in which numbers are printed, without leading zeros and with at most 64 bits.
-/

namespace TreeCode

/-- The letters of the operands that an instruction can have. -/
def operandLetters : List Char := ['d', 's', 'j', 'i']

namespace Piece

/-- A piece as it is written in a text. -/
def written : Piece → List Char
  | char c => [c]
  | slot kind index => placeholderMark :: kind :: Nat.toDigits 10 index

/-- Whether a piece asks for an operand. -/
def asks : Piece → Bool
  | char _ => false
  | slot kind _ => operandLetters.contains kind

/-- What an instruction without operands prints for a piece. -/
def bare (piece : Piece) : List Char :=
  if piece.asks then missingOperand.toList else piece.written

theorem bare_of_asks {piece : Piece} (asks : piece.asks = true) :
    piece.bare = missingOperand.toList := if_pos asks

theorem bare_of_plain {piece : Piece} (plain : piece.asks = false) :
    piece.bare = piece.written := by
  unfold bare
  rw [plain]
  rfl

@[simp] theorem bare_char (c : Char) : (char c).bare = [c] := rfl

end Piece

/-- The text does not go on with a digit. -/
def NoDigitFirst (text : List Char) : Prop := ∀ c ∈ text.head?, c.isDigit = false

/-- A text in which nothing is to be filled in, and in which numbers behind marks are written as
they are printed. -/
inductive Inert : List Char → Prop
  | nil : Inert []
  | char {c : Char} {text : List Char} (unmarked : c ≠ placeholderMark) (rest : Inert text) :
    Inert (c :: text)
  /-- A mark at the end. -/
  | mark : Inert [placeholderMark]
  /-- A mark and the character behind it, without a number. -/
  | letter (kind : Char) {text : List Char} (ends : NoDigitFirst text) (rest : Inert text) :
    Inert (placeholderMark :: kind :: text)
  /-- A mark and a number, with a character between them that is not a letter of operands. -/
  | number {kind : Char} {index : Nat} {text : List Char} (other : kind ∉ operandLetters)
    (fits : index < indexLimit) (ends : NoDigitFirst text) (rest : Inert text) :
    Inert (placeholderMark :: kind :: (Nat.toDigits 10 index ++ text))

section Scanning

variable {state : PieceState} {held text : List Char}

/-- What has been read of a placeholder but not been taken apart yet. -/
inductive Held : PieceState → List Char → Prop
  | text : Held .text []
  | marked : Held .marked [placeholderMark]
  | lettered (kind : Char) : Held (.lettered kind) [placeholderMark, kind]
  | numbered (kind : Char) {index : Nat} {digits : List Char} (fits : index < indexLimit)
    (all : ∀ c ∈ digits, c.isDigit = true) :
    Held (.numbered kind index) (placeholderMark :: kind :: digits)

theorem noDigitFirst_nil : NoDigitFirst [] := by simp [NoDigitFirst]

theorem noDigitFirst_cons {c : Char} (notDigit : ¬ c.isDigit = true) (rest : List Char) :
    NoDigitFirst (c :: rest) := by
  rintro _ ⟨⟩
  exact Bool.eq_false_iff.mpr notDigit

theorem mark_noDigitFirst (rest : List Char) : NoDigitFirst (placeholderMark :: rest) :=
  noDigitFirst_cons (by decide) rest

theorem bare_slot_noDigitFirst (kind : Char) (index : Nat) (rest : List Char) :
    NoDigitFirst ((Piece.slot kind index).bare ++ rest) := by
  cases asks : (Piece.slot kind index).asks with
  | true =>
    rw [Piece.bare_of_asks asks]
    exact noDigitFirst_cons (by decide) _
  | false =>
    rw [Piece.bare_of_plain asks]
    exact mark_noDigitFirst _

/-- What is printed for a text does not begin with a digit inside a placeholder. -/
theorem bare_noDigitFirst (inside : state ≠ .text) (text : List Char) :
    NoDigitFirst ((pieces state text).flatMap Piece.bare) := by
  fun_induction pieces state text with
  | case1 => exact absurd rfl inside
  | case2 => exact absurd rfl inside
  | case3 => exact absurd rfl inside
  | case4 => exact mark_noDigitFirst _
  | case5 c cs ih => exact ih nofun
  | case6 => exact mark_noDigitFirst _
  | case7 kind c cs digit ih => exact ih nofun
  | case8 => exact mark_noDigitFirst _
  | case9 kind index => exact bare_slot_noDigitFirst kind index []
  | case10 kind index c cs digit ih => exact ih nofun
  | case11 kind index c cs => exact bare_slot_noDigitFirst kind index _

/-- Digits are separated from what follows them. -/
theorem digits_append_inj {first second rest rest' : List Char}
    (firstDigits : ∀ c ∈ first, c.isDigit = true) (secondDigits : ∀ c ∈ second, c.isDigit = true)
    (ends : NoDigitFirst rest) (ends' : NoDigitFirst rest')
    (same : first ++ rest = second ++ rest') : first = second ∧ rest = rest' := by
  induction first generalizing second with
  | nil =>
    cases second with
    | nil => exact ⟨rfl, same⟩
    | cons d second =>
      rw [show rest = d :: (second ++ rest') from same] at ends
      have isDigit := secondDigits d List.mem_cons_self
      rw [ends d rfl] at isDigit
      cases isDigit
  | cons c first ih =>
    cases second with
    | nil =>
      rw [show rest' = c :: (first ++ rest) from same.symm] at ends'
      have isDigit := firstDigits c List.mem_cons_self
      rw [ends' c rfl] at isDigit
      cases isDigit
    | cons d second =>
      obtain ⟨rfl, others⟩ := List.cons.inj same
      obtain ⟨rfl, rest⟩ := ih (fun c member => firstDigits c (List.mem_cons_of_mem _ member))
        (fun c member => secondDigits c (List.mem_cons_of_mem _ member)) others
      exact ⟨rfl, rest⟩

theorem pieces_cons (c : Char) (text : List Char) :
    pieces .text (c :: text) =
      if c = placeholderMark then pieces .marked text else .char c :: pieces .text text := rfl

theorem nextIndex_lt (index : Nat) (digit : Char) : nextIndex index digit < indexLimit :=
  Nat.mod_lt _ (by decide)

/-- A mark and a character that no number follows are printed as they are. -/
theorem pieces_lettered (kind : Char) (ends : NoDigitFirst text) :
    pieces (.lettered kind) text =
      .char placeholderMark :: .char kind :: pieces .text text := by
  cases text with
  | nil => rfl
  | cons c text =>
    have notDigit : ¬ c.isDigit = true := Bool.eq_false_iff.mp (ends c rfl)
    exact if_neg notDigit

/-- A number can be brought below the limit digit by digit, or at the end. -/
theorem ofDigitChars_mod (digits : List Char) (index limit : Nat) :
    Nat.ofDigitChars 10 digits (index % limit) % limit =
      Nat.ofDigitChars 10 digits index % limit := by
  rw [Nat.ofDigitChars_eq_ofDigitChars_zero, Nat.add_mod, Nat.mul_mod, Nat.mod_mod, ← Nat.mul_mod,
    ← Nat.add_mod, ← Nat.ofDigitChars_eq_ofDigitChars_zero]

/-- Inside a number, the digits that follow belong to it. What is read is the number that all the
digits stand for, as far as it has room. -/
theorem pieces_numbered (kind : Char) {digits : List Char} (ends : NoDigitFirst text)
    (all : ∀ c ∈ digits, c.isDigit = true) {index : Nat} (fits : index < indexLimit) :
    pieces (.numbered kind index) (digits ++ text) =
      .slot kind (Nat.ofDigitChars 10 digits index % indexLimit) :: pieces .text text := by
  induction digits generalizing index with
  | nil =>
    rw [List.nil_append, Nat.ofDigitChars_nil, Nat.mod_eq_of_lt fits]
    cases text with
    | nil => rfl
    | cons c text =>
      have notDigit : ¬ c.isDigit = true := Bool.eq_false_iff.mp (ends c rfl)
      exact if_neg notDigit
  | cons c digits ih =>
    obtain ⟨digit, rest⟩ := List.forall_mem_cons.mp all
    rw [List.cons_append, pieces, if_pos digit, ih rest (nextIndex_lt index c),
      Nat.ofDigitChars_cons, nextIndex, ofDigitChars_mod, Nat.mul_comm 10]
    rfl

/-- A number that fits is read as it was written. -/
theorem pieces_toDigits (kind : Char) {index : Nat} (fits : index < indexLimit)
    (ends : NoDigitFirst text) :
    pieces (.lettered kind) (Nat.toDigits 10 index ++ text) =
      .slot kind index :: pieces .text text := by
  have all : ∀ c ∈ Nat.toDigits 10 index, c.isDigit = true := fun c member =>
    Nat.isDigit_of_mem_toDigits (by decide) (by decide) member
  have whole : Nat.ofDigitChars 10 (Nat.toDigits 10 index) 0 % indexLimit = index := by
    rw [Nat.ofDigitChars_ten_toDigits, Nat.mod_eq_of_lt fits]
  -- The first digit is read behind a letter and not inside a number, where it makes no difference.
  have begun : pieces (.lettered kind) (Nat.toDigits 10 index ++ text) =
      pieces (.numbered kind 0) (Nat.toDigits 10 index ++ text) := by
    obtain ⟨c, digits, same⟩ :=
      List.exists_cons_of_ne_nil (Nat.toDigits_ne_nil (b := 10) (n := index))
    have digit : c.isDigit = true := all c (same ▸ List.mem_cons_self)
    rw [same, List.cons_append, pieces, if_pos digit, pieces, if_pos digit]
  rw [begun, pieces_numbered kind ends all (by decide), whole]

/-- A missing operand does not begin with the mark of a placeholder. -/
theorem asks_of_mark {piece : Piece} {rest more : List Char}
    (same : piece.bare ++ rest = placeholderMark :: more) : piece.asks = false := by
  cases asks : piece.asks with
  | false => rfl
  | true =>
    rw [Piece.bare_of_asks asks] at same
    exact absurd (List.cons.inj same).1 (by decide)

/-- Texts that are inert are printed as they are written. -/
theorem bare_of_inert (inert : Inert text) : (pieces .text text).flatMap Piece.bare = text := by
  induction inert with
  | nil => rfl
  | char unmarked _ ih =>
    rw [pieces_cons, if_neg unmarked, List.flatMap_cons, ih]
    rfl
  | mark => rfl
  | @letter kind text ends _ ih =>
    change (pieces (.lettered kind) text).flatMap Piece.bare = _
    rw [pieces_lettered kind ends, List.flatMap_cons, List.flatMap_cons, ih]
    rfl
  | @number kind index text other fits ends _ ih =>
    have plain : (Piece.slot kind index).asks = false := by
      simpa [Piece.asks] using other
    change (pieces (.lettered kind) (Nat.toDigits 10 index ++ text)).flatMap Piece.bare = _
    rw [pieces_toDigits kind fits ends, List.flatMap_cons, ih, Piece.bare_of_plain plain]
    rfl

/-- The rest of a text behind something that is printed as it is. -/
theorem inert_cons {c : Char}
    (marked : (pieces .marked text).flatMap Piece.bare = placeholderMark :: text →
      Inert (placeholderMark :: text))
    (plain : (pieces .text text).flatMap Piece.bare = text → Inert text)
    (same : (pieces .text (c :: text)).flatMap Piece.bare = c :: text) : Inert (c :: text) := by
  rw [pieces_cons] at same
  split at same
  next isMark =>
    rw [isMark] at same ⊢
    exact marked same
  next notMark => exact .char notMark (plain (List.cons.inj same).2)

/-- The number of a placeholder that is printed as it is written ends where the digits do, since
what is printed next is no digit. -/
theorem inert_number {kind : Char} {index : Nat} {digits : List Char} (fits : index < indexLimit)
    (all : ∀ c ∈ digits, c.isDigit = true) (ends : NoDigitFirst text)
    (endsPrinted : NoDigitFirst ((pieces .text text).flatMap Piece.bare))
    (rest : (pieces .text text).flatMap Piece.bare = text → Inert text)
    (same : (Piece.slot kind index).bare ++ (pieces .text text).flatMap Piece.bare =
      placeholderMark :: kind :: (digits ++ text)) :
    Inert (placeholderMark :: kind :: (digits ++ text)) := by
  have plain := asks_of_mark same
  rw [Piece.bare_of_plain plain] at same
  have number : ∀ c ∈ Nat.toDigits 10 index, c.isDigit = true := fun c member =>
    Nat.isDigit_of_mem_toDigits (by decide) (by decide) member
  obtain ⟨rfl, printed⟩ := digits_append_inj number all endsPrinted ends
    (List.cons.inj (List.cons.inj same).2).2
  exact .number (by simpa [Piece.asks] using plain) fits ends (rest printed)

/-- Texts that are printed as they are written are inert, where `held` has been read before. -/
theorem inert_of_bare (reading : Held state held)
    (same : (pieces state text).flatMap Piece.bare = held ++ text) : Inert (held ++ text) := by
  fun_induction pieces state text generalizing held with
  | case1 =>
    cases reading
    exact .nil
  | case2 cs ih =>
    cases reading
    exact ih .marked same
  | case3 c cs notMark ih =>
    cases reading
    exact .char notMark (ih .text (List.cons.inj same).2)
  | case4 =>
    cases reading
    exact .mark
  | case5 c cs ih =>
    cases reading
    exact ih (.lettered c) same
  | case6 kind =>
    cases reading
    exact .letter kind noDigitFirst_nil .nil
  | case7 kind c cs digit ih =>
    cases reading
    exact ih (.numbered kind (nextIndex_lt 0 c) (List.forall_mem_singleton.mpr digit)) same
  | case8 kind c cs notDigit marked plain =>
    cases reading
    have rest := (List.cons.inj (List.cons.inj same).2).2
    exact .letter kind (noDigitFirst_cons notDigit cs)
      (inert_cons (marked .marked) (plain .text) rest)
  | case9 kind index =>
    cases reading with
    | numbered _ fits all =>
      exact @inert_number [] kind index _ fits all noDigitFirst_nil noDigitFirst_nil (fun _ => .nil)
        (by simpa [pieces] using same)
  | case10 kind index c cs digit ih =>
    cases reading with
    | @numbered _ _ digits fits all =>
      have longer := ih (.numbered kind (nextIndex_lt index c) (List.forall_mem_append.mpr
        ⟨all, List.forall_mem_singleton.mpr digit⟩)) (same.trans (by simp))
      simpa using longer
  | case11 kind index c cs notDigit marked plain =>
    cases reading with
    | @numbered _ _ digits fits all =>
      have ends : NoDigitFirst ((pieces .text (c :: cs)).flatMap Piece.bare) := by
        rw [pieces_cons]
        split
        next => exact @bare_noDigitFirst .marked nofun cs
        next => exact noDigitFirst_cons notDigit _
      exact inert_number fits all (noDigitFirst_cons notDigit cs) ends
        (inert_cons (marked .marked) (plain .text)) same

/-- Without operands, the inert texts are those that are printed as they are written. -/
theorem bare_eq_iff : (pieces .text text).flatMap Piece.bare = text ↔ Inert text :=
  ⟨inert_of_bare .text, bare_of_inert⟩

instance (text : List Char) : Decidable (Inert text) := decidable_of_iff _ bare_eq_iff

-- The last number that has 64 bits, and the one after it.
example : Inert "`x18446744073709551615".toList ∧ ¬ Inert "`x18446744073709551616".toList := by
  decide

/-- A text in front that has no mark in it. -/
theorem pieces_append {front : List Char} (unmarked : placeholderMark ∉ front) (text : List Char) :
    pieces .text (front ++ text) = front.map .char ++ pieces .text text := by
  induction front with
  | nil => rfl
  | cons c front ih =>
    have other : c ≠ placeholderMark := fun same => unmarked (same ▸ List.mem_cons_self)
    have rest : placeholderMark ∉ front := fun member => unmarked (List.mem_cons_of_mem _ member)
    rw [List.cons_append, pieces_cons, if_neg other, ih rest]
    rfl

/-- A character at the end that is neither a mark nor a digit. -/
theorem pieces_concat {c : Char} (unmarked : c ≠ placeholderMark) (notDigit : c.isDigit = false)
    (state : PieceState) (text : List Char) :
    pieces state (text ++ [c]) = pieces state text ++ [.char c] := by
  fun_induction pieces state text with
  | case1 => simp [pieces, unmarked]
  | case2 cs ih => simpa [pieces] using ih
  | case3 d cs notMark ih => simpa [pieces, notMark] using ih
  | case4 => simp [pieces]
  | case5 d cs ih => simpa [pieces] using ih
  | case6 kind => simp [pieces, unmarked, notDigit]
  | case7 kind d cs digit ih => simpa [pieces, digit] using ih
  | case8 kind d cs notDigit' marked plain =>
    by_cases isMark : d = placeholderMark
    · subst isMark
      simpa [pieces, notDigit'] using marked
    · simpa [pieces, notDigit', isMark] using plain
  | case9 kind index => simp [pieces, unmarked, notDigit]
  | case10 kind index d cs digit ih => simpa [pieces, digit] using ih
  | case11 kind index d cs notDigit' marked plain =>
    by_cases isMark : d = placeholderMark
    · subst isMark
      simpa [pieces, notDigit'] using marked
    · simpa [pieces, notDigit', isMark] using plain

theorem flatMap_bare_char (text : List Char) :
    (text.map Piece.char).flatMap Piece.bare = text := by
  induction text with
  | nil => rfl
  | cons c text ih => exact congrArg (c :: ·) ih

/-- What stands around a text without being part of a placeholder makes no difference. -/
theorem inert_within {front : List Char} {last : Char} (unmarked : placeholderMark ∉ front)
    (lastUnmarked : last ≠ placeholderMark) (notDigit : last.isDigit = false) :
    Inert (front ++ (text ++ [last])) ↔ Inert text := by
  rw [← bare_eq_iff, ← bare_eq_iff, pieces_append unmarked, pieces_concat lastUnmarked notDigit,
    List.flatMap_append, List.flatMap_append, flatMap_bare_char, List.append_cancel_left_eq]
  simp

end Scanning

namespace Instr

/-- An instruction that has no operands to print. -/
structure Bare (instr : Instr) : Prop where
  dst : instr.dst = []
  src : instr.src = []
  labels : instr.labels = []
  imms : instr.imms = []

variable {instr : Instr}

/-- What an instruction without operands has at a placeholder. -/
theorem Bare.operandText (bare : instr.Bare) (names : NameMap) (kind : Char) (index : Nat) :
    (instr.operandText names kind index).toList = (Piece.slot kind index).bare := by
  unfold Instr.operandText
  split
  next => simp [bare.dst, Piece.bare, Piece.asks, operandLetters]
  next => simp [bare.src, Piece.bare, Piece.asks, operandLetters]
  next => simp [bare.labels, Piece.bare, Piece.asks, operandLetters]
  next => simp [Piece.bare, Piece.asks, operandLetters]
  next notD notS notJ notI =>
    have plain : (Piece.slot kind index).asks = false := by
      simp only [Piece.asks, operandLetters, List.contains_cons, List.contains_nil,
        Bool.or_eq_false_iff, beq_eq_false_iff_ne]
      exact ⟨notD, notS, notJ, notI, trivial⟩
    rw [Piece.bare_of_plain plain]
    simp [Piece.written]

/-- Filling the text of an instruction without operands. -/
theorem Bare.fill (bare : instr.Bare) (names : NameMap) (out : List Char) (parts : List Piece) :
    instr.fill names out parts = (parts.flatMap Piece.bare).reverse ++ out := by
  induction parts generalizing out with
  | nil => rfl
  | cons piece parts ih =>
    cases piece with
    | char c =>
      rw [Instr.fill, ih, List.flatMap_cons, Piece.bare_char]
      simp
    | slot kind index =>
      unfold Instr.fill
      rw [bare.imms]
      simp [ih, bare.operandText]

/-- An instruction without operands is printed as it is written exactly if its text is inert. -/
theorem Bare.render_eq_iff (bare : instr.Bare) (names : NameMap) :
    instr.render names = instr.asm ↔ Inert instr.asm.toList := by
  unfold render
  rw [bare.fill, List.append_nil, List.reverse_reverse, ← bare_eq_iff, ← String.toList_inj,
    String.toList_ofList]

end Instr

end TreeCode
