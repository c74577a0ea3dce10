import TreeCode.Text.Quoted

/-!
Reading the body of a string literal back. A body is decoded character by character, or escape by
escape, to bytes; decoding what quoting writes gives the bytes of the text in UTF-8. Inside a body
every quote is escaped, and no backslash is left open at its end, so the quote behind a body is
the one at which the literal ends.
-/

namespace TreeCode.Text

/-- The value of an octal digit. -/
def octalDigit? (c : Char) : Option Nat :=
  if '0' ≤ c ∧ c ≤ '7' then some (c.toNat - '0'.toNat) else none

/-- The byte that three octal digits stand for. Numbers beyond a byte stand for none. -/
def octalByte? (high middle low : Char) : Option UInt8 := do
  let n := 64 * (← octalDigit? high) + 8 * (← octalDigit? middle) + (← octalDigit? low)
  if n < 256 then some (UInt8.ofNat n) else none

/-- The byte that a character stands for after a backslash, digits apart. -/
def escaped? (c : Char) : Option UInt8 :=
  if c = '"' then some '"'.toUInt8
  else if c = '\\' then some '\\'.toUInt8
  else if c = 'n' then some '\n'.toUInt8
  else if c = 't' then some '\t'.toUInt8
  else none

/-- The bytes that the body of a string literal stands for. A backslash needs one of the known
characters or exactly three octal digits behind it; printable characters other than quotes stand
for themselves, and all others for nothing. -/
def unquote? : List Char → Option (List UInt8)
  | [] => some []
  | c :: rest =>
    if c = '\\' then
      match rest with
      | [] => none
      | e :: rest =>
        match escaped? e, rest with
        | some byte, rest => (unquote? rest).map (byte :: ·)
        | none, middle :: low :: rest => do
          let byte ← octalByte? e middle low
          (unquote? rest).map (byte :: ·)
        | none, _ => none
    else if isPrintable c && c != '"' then (unquote? rest).map (c.toUInt8 :: ·)
    else none

/-- Whether a text ends in an escaping backslash, one that is not escaped itself. Its first
character is escaped if `escaped` says so. -/
def endsEscaping (escaped : Bool) : List Char → Bool
  | [] => escaped
  | c :: rest => endsEscaping (!escaped && c == '\\') rest

/-- What an assembler takes for the body of a literal when it has read the opening quote: all that
stands in front of the first quote that is not escaped. The other part follows the literal. -/
def literalBody? (escaped : Bool) : List Char → Option (List Char × List Char)
  | [] => none
  | c :: rest =>
    if c = '"' ∧ escaped = false then some ([], rest)
    else (literalBody? (!escaped && c == '\\') rest).map (Prod.map (c :: ·) id)

section Decoding

variable {c : Char} {byte : UInt8}

theorem unquote_escaped (known : escaped? c = some byte) (rest : List Char) :
    unquote? ('\\' :: c :: rest) = (unquote? rest).map (byte :: ·) := by
  simp [unquote?, known]

theorem unquote_digits {high middle low : Char} (other : escaped? high = none)
    (value : octalByte? high middle low = some byte) (rest : List Char) :
    unquote? ('\\' :: high :: middle :: low :: rest) = (unquote? rest).map (byte :: ·) := by
  simp [unquote?, other, value]

theorem unquote_plain (printable : isPrintable c = true) (notQuote : c ≠ '"')
    (notBackslash : c ≠ '\\') (rest : List Char) :
    unquote? (c :: rest) = (unquote? rest).map (c.toUInt8 :: ·) := by
  rw [unquote?.eq_def]
  simp [printable, notQuote, notBackslash]

/-- The digits of a byte, which are not among the other characters that may stand behind a
backslash, give the byte again. -/
theorem octalByte_digits (byte : UInt8) :
    escaped? (Nat.digitChar (byte.toNat / 64)) = none ∧
      octalByte? (Nat.digitChar (byte.toNat / 64)) (Nat.digitChar (byte.toNat / 8 % 8))
        (Nat.digitChar (byte.toNat % 8)) = some byte := by
  have digit : ∀ n < 8,
      octalDigit? (Nat.digitChar n) = some n ∧ escaped? (Nat.digitChar n) = none := by
    decide
  have bound := byte.toNat_lt
  obtain ⟨high, other⟩ := digit (byte.toNat / 64) (by omega)
  obtain ⟨middle, -⟩ := digit (byte.toNat / 8 % 8) (by omega)
  obtain ⟨low, -⟩ := digit (byte.toNat % 8) (by omega)
  have value : 64 * (byte.toNat / 64) + 8 * (byte.toNat / 8 % 8) + byte.toNat % 8 = byte.toNat := by
    omega
  refine ⟨other, ?_⟩
  simp only [octalByte?, high, middle, low, Option.bind_eq_bind, Option.bind_some, value]
  rw [if_pos bound, UInt8.ofNat_toNat]

theorem unquote_octals (bytes : List UInt8) (rest : List Char) :
    unquote? (bytes.flatMap octal ++ rest) = (unquote? rest).map (bytes ++ ·) := by
  induction bytes with
  | nil => simp
  | cons byte bytes ih =>
    obtain ⟨other, value⟩ := octalByte_digits byte
    calc unquote? ((byte :: bytes).flatMap octal ++ rest)
        = unquote? (octal byte ++ (bytes.flatMap octal ++ rest)) := by
          rw [List.flatMap_cons, List.append_assoc]
      _ = (unquote? (bytes.flatMap octal ++ rest)).map (byte :: ·) := unquote_digits other value _
      _ = (unquote? rest).map (byte :: bytes ++ ·) := by rw [ih, Option.map_map]; rfl

theorem utf8EncodeChar_printable (printable : isPrintable c = true) :
    String.utf8EncodeChar c = [c.toUInt8] := by
  simp only [isPrintable, Bool.and_eq_true, decide_eq_true_eq] at printable
  have ascii : c.val.toNat ≤ 127 := Nat.le_trans printable.2 (by decide)
  rw [String.utf8EncodeChar.eq_1, if_pos ascii]
  rfl

/-- A quoted character is decoded to its bytes, whatever follows it. -/
theorem unquote_quoteChar (c : Char) (rest : List Char) :
    unquote? (quoteChar c ++ rest) = (unquote? rest).map (String.utf8EncodeChar c ++ ·) := by
  unfold quoteChar
  split
  next same => subst same; exact unquote_escaped rfl rest
  next notQuote =>
    split
    next same => subst same; exact unquote_escaped rfl rest
    next notBackslash =>
      split
      next same => subst same; exact unquote_escaped rfl rest
      split
      next same => subst same; exact unquote_escaped rfl rest
      split
      next printable =>
        rw [utf8EncodeChar_printable printable]
        exact unquote_plain printable notQuote notBackslash rest
      next => exact unquote_octals _ rest

theorem unquote_quoted (text : List Char) :
    unquote? (text.flatMap quoteChar) = some (text.flatMap String.utf8EncodeChar) := by
  induction text with
  | nil => rfl
  | cons c text ih => rw [List.flatMap_cons, unquote_quoteChar, ih]; rfl

/-- The bytes of a text in UTF-8 are those of its characters. -/
theorem toUTF8_eq (text : String) :
    text.toUTF8.data.toList = text.toList.flatMap String.utf8EncodeChar := by
  have same : String.ofList text.toList = text := String.ofList_toList
  calc text.toUTF8.data.toList
      = (String.ofList text.toList).toByteArray.data.toList := by rw [same]; rfl
    _ = text.toList.flatMap String.utf8EncodeChar := by
      rw [String.toByteArray_ofList]
      exact List.toList_data_toByteArray

end Decoding

section Quotes

variable {escaped : Bool} {first second body : List Char} {c : Char}

/-- Every quote of a text is escaped, and the text does not end in an escaping backslash. The first
character is escaped if `escaped` says so. -/
structure Enclosed (escaped : Bool) (body : List Char) : Prop where
  quotes : ∀ before behind, body = before ++ '"' :: behind → endsEscaping escaped before = true
  ends : endsEscaping escaped body = false

theorem endsEscaping_append (escaped : Bool) (first second : List Char) :
    endsEscaping escaped (first ++ second) = endsEscaping (endsEscaping escaped first) second := by
  induction first generalizing escaped with
  | nil => rfl
  | cons c first ih => exact ih (!escaped && c == '\\')

theorem enclosed_nil : Enclosed false [] where
  quotes before behind split := by simp at split
  ends := rfl

theorem enclosed_cons (quote : c = '"' → escaped = true)
    (rest : Enclosed (!escaped && c == '\\') body) : Enclosed escaped (c :: body) where
  quotes before behind split := by
    cases before with
    | nil => exact quote (List.cons.inj split).1
    | cons d before =>
      obtain ⟨rfl, others⟩ := List.cons.inj split
      exact rest.quotes before behind others
  ends := rest.ends

theorem Enclosed.append (before : Enclosed escaped first) (behind : Enclosed false second) :
    Enclosed escaped (first ++ second) where
  quotes left right split := by
    rcases List.append_eq_append_iff.mp split with ⟨more, rfl, inSecond⟩ | ⟨more, inFirst, rest⟩
    · rw [endsEscaping_append, before.ends]
      exact behind.quotes more right inSecond
    · cases more with
      | nil =>
        rw [List.append_nil] at inFirst
        subst inFirst
        have start := behind.quotes [] right rest.symm
        cases start
      | cons d more =>
        obtain ⟨rfl, _⟩ := List.cons.inj rest
        exact before.quotes left more inFirst
  ends := by rw [endsEscaping_append, before.ends, behind.ends]

theorem enclosed_plain (notQuote : c ≠ '"') (notBackslash : c ≠ '\\') : Enclosed false [c] :=
  enclosed_cons (fun same => absurd same notQuote)
    (by rw [Bool.not_false, Bool.true_and, beq_false_of_ne notBackslash]; exact enclosed_nil)

theorem enclosed_escape (c : Char) : Enclosed false ['\\', c] :=
  enclosed_cons (fun same => absurd same (by decide)) (enclosed_cons (fun _ => rfl) enclosed_nil)

theorem enclosed_octal (byte : UInt8) : Enclosed false (octal byte) := by
  have digit : ∀ n < 8, Enclosed false [Nat.digitChar n] := by
    have plain : ∀ n < 8, Nat.digitChar n ≠ '"' ∧ Nat.digitChar n ≠ '\\' := by decide
    exact fun n small => enclosed_plain (plain n small).1 (plain n small).2
  have bound := byte.toNat_lt
  exact (enclosed_escape _).append ((digit _ (by omega)).append (digit _ (by omega)))

theorem enclosed_flatMap {α : Type} {write : α → List Char}
    (each : ∀ a, Enclosed false (write a)) (as : List α) : Enclosed false (as.flatMap write) := by
  induction as with
  | nil => exact enclosed_nil
  | cons a as ih =>
    rw [List.flatMap_cons]
    exact (each a).append ih

theorem enclosed_quoteChar (c : Char) : Enclosed false (quoteChar c) := by
  unfold quoteChar
  split
  next => exact enclosed_escape '"'
  next notQuote =>
    split
    next => exact enclosed_escape '\\'
    next notBackslash =>
      split
      next => exact enclosed_escape 'n'
      split
      next => exact enclosed_escape 't'
      split
      next => exact enclosed_plain notQuote notBackslash
      next => exact enclosed_flatMap enclosed_octal _

/-- A literal ends behind its body. -/
theorem literalBody_enclosed (enclosed : Enclosed escaped body) (rest : List Char) :
    literalBody? escaped (body ++ '"' :: rest) = some (body, rest) := by
  induction body generalizing escaped with
  | nil =>
    have closed : escaped = false := enclosed.ends
    simp [literalBody?, closed]
  | cons c body ih =>
    have inner : Enclosed (!escaped && c == '\\') body :=
      ⟨fun before behind split => enclosed.quotes (c :: before) behind (congrArg (c :: ·) split),
        enclosed.ends⟩
    have goesOn : ¬ (c = '"' ∧ escaped = false) := by
      rintro ⟨rfl, closed⟩
      have opened : escaped = true := enclosed.quotes [] body rfl
      rw [closed] at opened
      cases opened
    rw [List.cons_append, literalBody?, if_neg goesOn, ih inner]
    rfl

end Quotes

section Printable

theorem octal_printable (byte : UInt8) : ∀ c ∈ octal byte, isPrintable c = true := by
  have digit : ∀ n < 8, isPrintable (Nat.digitChar n) = true := by decide
  have bound := byte.toNat_lt
  simp only [octal, List.forall_mem_cons]
  exact ⟨by decide, digit _ (by omega), digit _ (by omega), digit _ (by omega),
    List.forall_mem_nil _⟩

theorem escape_printable {c : Char} (printable : isPrintable c = true) :
    ∀ d ∈ ['\\', c], isPrintable d = true :=
  List.forall_mem_cons.mpr ⟨by decide, List.forall_mem_singleton.mpr printable⟩

theorem quoteChar_printable (c : Char) : ∀ d ∈ quoteChar c, isPrintable d = true := by
  unfold quoteChar
  split
  next => exact escape_printable (by decide)
  split
  next => exact escape_printable (by decide)
  split
  next => exact escape_printable (by decide)
  split
  next => exact escape_printable (by decide)
  split
  next printable => exact List.forall_mem_singleton.mpr printable
  next =>
    intro d member
    obtain ⟨byte, _, inside⟩ := List.mem_flatMap.mp member
    exact octal_printable byte d inside

end Printable

/-- Quoting can be undone: decoding the body of the literal for a text gives the bytes of the text
in UTF-8. The body is printable, its quotes are escaped and it does not end in a backslash that
escapes what follows. So the literal ends behind its body, whatever comes next. -/
theorem quote_decodable (text : String) :
    unquote? (quote text).toList = some text.toUTF8.data.toList ∧
      (∀ c ∈ (quote text).toList, 0x20 ≤ c.toNat ∧ c.toNat ≤ 0x7E) ∧
      (∀ before behind, (quote text).toList = before ++ '"' :: behind →
        endsEscaping false before = true) ∧
      endsEscaping false (quote text).toList = false ∧
      ∀ rest, literalBody? false ((quote text).toList ++ '"' :: rest) =
        some ((quote text).toList, rest) := by
  have body : (quote text).toList = text.toList.flatMap quoteChar := String.toList_ofList
  have enclosed := enclosed_flatMap enclosed_quoteChar text.toList
  rw [body]
  refine ⟨?_, ?_, enclosed.quotes, enclosed.ends, literalBody_enclosed enclosed⟩
  · rw [unquote_quoted, toUTF8_eq]
  · intro c member
    obtain ⟨d, _, inside⟩ := List.mem_flatMap.mp member
    have printable := quoteChar_printable d c inside
    simpa [isPrintable] using printable

/-- A text whose octal escapes are followed by digits and by a backslash. -/
theorem quote_decodable_sample :
    quote "\"é1\\\"" = "\\\"\\303\\2511\\\\\\\"" ∧
      unquote? (quote "\"é1\\\"").toList = some [0x22, 0xC3, 0xA9, 0x31, 0x5C, 0x22] ∧
      literalBody? false ((quote "\"é1\\\"").toList ++ ['"', '!']) =
        some ((quote "\"é1\\\"").toList, ['!']) := by
  obtain ⟨decoded, -, -, -, ends⟩ := quote_decodable "\"é1\\\""
  exact ⟨by decide, decoded.trans (by decide), ends ['!']⟩

end TreeCode.Text
