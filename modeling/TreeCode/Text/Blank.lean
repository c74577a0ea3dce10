/-!
Blank characters and the first word of a text.
-/

namespace TreeCode.Text

/-- The characters with the Unicode property White_Space, as ranges of code points. -/
def blankRanges : List (Nat × Nat) :=
  [(0x09, 0x0D), (0x20, 0x20), (0x85, 0x85), (0xA0, 0xA0), (0x1680, 0x1680), (0x2000, 0x200A),
    (0x2028, 0x2029), (0x202F, 0x202F), (0x205F, 0x205F), (0x3000, 0x3000)]

/-- Whether a character is blank. -/
def isBlank (c : Char) : Bool :=
  blankRanges.any fun (first, last) => first ≤ c.toNat && c.toNat ≤ last

/-- The first word of a text: what stands between leading blanks and the next one. A blank text
has none. -/
def firstWord? (text : String) : Option String :=
  match (text.toList.dropWhile isBlank).takeWhile fun c => !isBlank c with
  | [] => none
  | word => some (String.ofList word)

end TreeCode.Text
