import TreeCode.Proofs.Code.Placeholders
import TreeCode.Proofs.Session.Labels

/-!
String literals in a listing. A literal is a label and a directive with the quoted text. The text
of the directive is rendered like that of any instruction, so a listing shows a literal as it is
exactly if its quoted text is inert.
-/

namespace TreeCode

section Quoting

/-- Escapes of bytes hold no mark. -/
theorem octal_unmarked (byte : UInt8) : placeholderMark ∉ Text.octal byte := by
  have digit : ∀ n < 8, placeholderMark ≠ Nat.digitChar n := by decide
  have small := byte.toNat_lt
  intro member
  simp only [Text.octal, List.mem_cons, List.not_mem_nil, or_false] at member
  rcases member with same | same | same | same
  · exact absurd same (by decide)
  · exact digit _ (by omega) same
  · exact digit _ (by omega) same
  · exact digit _ (by omega) same

theorem quoteChar_unmarked {c : Char} (unmarked : c ≠ placeholderMark) :
    placeholderMark ∉ Text.quoteChar c := by
  unfold Text.quoteChar
  split
  next => decide
  split
  next => decide
  split
  next => decide
  split
  next => decide
  split
  next => exact fun member => unmarked (List.mem_singleton.mp member).symm
  next =>
    intro member
    obtain ⟨byte, _, inside⟩ := List.mem_flatMap.mp member
    exact octal_unmarked byte inside

/-- Quoting brings no mark into a text. -/
theorem quote_unmarked {text : String} (unmarked : placeholderMark ∉ text.toList) :
    placeholderMark ∉ (Text.quote text).toList := by
  unfold Text.quote
  rw [String.toList_ofList]
  intro member
  obtain ⟨c, among, inside⟩ := List.mem_flatMap.mp member
  exact quoteChar_unmarked (fun same => unmarked (same ▸ among)) inside

/-- A text without a mark asks for nothing. -/
theorem inert_of_unmarked {text : List Char} (unmarked : placeholderMark ∉ text) : Inert text := by
  induction text with
  | nil => exact .nil
  | cons c text ih =>
    have other : c ≠ placeholderMark := fun same => unmarked (same ▸ List.mem_cons_self)
    exact .char other (ih fun member => unmarked (List.mem_cons_of_mem c member))

end Quoting

theorem render_atLabel (label : Label) (names : NameMap) :
    (Instr.atLabel label).render names = label ++ ":" := by
  have parts : pieces .text (Instr.atLabel label).asm.toList = [.slot 'j' 0, .char ':'] := by
    rw [Instr.atLabel, String.toList_ofList]
    decide
  unfold Instr.render
  rw [parts]
  simp [Instr.fill, Instr.operandText, Instr.atLabel]

theorem stringDirective_bare (sel : Selector) (text : String) : (sel.stringDirective text).Bare :=
  ⟨rfl, rfl, rfl, rfl⟩

/-- The directive of a literal is printed as it is written exactly if the quoted text is inert. -/
theorem render_stringDirective_iff (sel : Selector) (arch : Arch)
    (machine : sel.isa = arch.target.isa) (text : String) (names : NameMap) :
    (sel.stringDirective text).render names = (sel.stringDirective text).asm ↔
      Inert (Text.quote text).toList := by
  have unmarked : placeholderMark ∉ ("\t" ++ sel.isa.stringDirective ++ " \"").toList := by
    rw [machine]
    cases arch <;> decide
  rw [(stringDirective_bare sel text).render_eq_iff names]
  have whole : (sel.stringDirective text).asm.toList =
      ("\t" ++ sel.isa.stringDirective ++ " \"").toList ++ ((Text.quote text).toList ++ ['"']) := by
    simp [Selector.stringDirective]
  rw [whole]
  exact inert_within unmarked (by decide) (by decide)

section Listing

variable {session session' : Session} {program : Source.Exp} {unit : Assembly}

theorem stringLiteral_of_onward (onward : session.Onward session') (label : Label)
    (text : String) :
    session'.selector.stringLiteral label text = session.selector.stringLiteral label text := by
  unfold Selector.stringLiteral Selector.stringDirective Session.selector
  rw [onward.config]

/-- Every literal is compiled to its label and its directive. -/
theorem compileFragments_literals {frames : List Frame} {fragments : List Fragment}
    {procs : List Procedure} {strings : List Literal}
    (ran : compileFragments frames fragments session = .ok (procs, strings) session') :
    ∀ literal ∈ strings,
      literal.instrs = session.selector.stringLiteral literal.label literal.text := by
  induction fragments generalizing session procs strings with
  | nil =>
    cases ran
    nofun
  | cons fragment rest ih =>
    cases fragment with
    | proc level body =>
      obtain ⟨_, _, counted, ran⟩ := bind_ok.mp ran
      obtain ⟨proc, _, compiled, ran⟩ := bind_ok.mp ran
      obtain ⟨⟨others, strings⟩, _, compiledRest, ran⟩ := bind_ok.mp ran
      cases ran
      have onward := (((advances_record _).ok counted).trans
        ((advances_compileProc _ _ _).ok compiled)).onward
      intro literal member
      rw [← stringLiteral_of_onward onward]
      exact ih compiledRest literal member
    | string label text =>
      obtain ⟨_, _, counted, ran⟩ := bind_ok.mp ran
      obtain ⟨literal, _, compiled, ran⟩ := bind_ok.mp ran
      obtain ⟨⟨procs, others⟩, _, compiledRest, ran⟩ := bind_ok.mp ran
      cases ran
      have onward := (((advances_record _).ok counted).trans
        ((advances_compileString _ _).ok compiled)).onward
      refine List.forall_mem_cons.mpr ⟨?_, fun other member => ?_⟩
      · cases counted
        cases compiled
        rfl
      · rw [← stringLiteral_of_onward onward]
        exact ih compiledRest other member

/-- The instructions of a literal are those that the selector of the session makes of its label and
text. -/
theorem compiled_literals (compiled : (session.compile program).outcome = .ok unit) :
    ∀ literal ∈ unit.strings,
      literal.instrs = session.selector.stringLiteral literal.label literal.text := by
  obtain ⟨marked, _, _, ran⟩ := compile_ok compiled
  obtain ⟨_, _, counted, ran⟩ := bind_ok.mp ran
  obtain ⟨⟨frames, fragments⟩, _, lowered, ran⟩ := bind_ok.mp ran
  obtain ⟨⟨procs, strings⟩, _, selected, ran⟩ := bind_ok.mp ran
  cases ran
  have onward := (((advances_record _).ok counted).trans
    ((advances_lowerInSession _).ok lowered)).onward
  intro literal member
  rw [← stringLiteral_of_onward onward]
  exact compileFragments_literals selected literal member

/-- The lines of a literal in a listing. -/
def Literal.lines (sel : Selector) (names : NameMap) (literal : Literal) : List String :=
  [literal.label ++ ":\n", (sel.stringDirective literal.text).line names]

/-- A listing begins with the literals of the unit. -/
theorem listing_literals (compiled : (session.compile program).outcome = .ok unit)
    (names : NameMap) :
    unit.listing names =
      String.join (unit.strings.flatMap (Literal.lines session.selector names)) ++
        String.join ((unit.procs.flatMap Procedure.instrs).map (Instr.line names)) := by
  have lines : (unit.strings.flatMap Literal.instrs).map (Instr.line names) =
      unit.strings.flatMap (Literal.lines session.selector names) := by
    rw [List.map_flatMap, List.flatMap_def, List.flatMap_def]
    refine congrArg _ (List.map_congr_left fun literal member => ?_)
    rw [compiled_literals compiled literal member]
    change [(Instr.atLabel literal.label).render names ++ "\n", _] = _
    rw [render_atLabel, String.append_assoc]
    rfl
  unfold Assembly.listing Assembly.instrs
  rw [List.map_append, String.join_append, lines]

end Listing

/-- A literal shows in a listing as it is exactly if its quoted text is inert: a mark in it is the
end of the text, or no number comes after the character behind it, or that character is no letter
of operands and the number has no leading zeros and at most 64 bits. Whatever the machine, the
label and the names, the directive of a literal is then rendered as its own text, and it is so in
particular if there is no mark in the literal; and the listing of a compiled unit begins with a
label and a directive for each of its literals. -/
theorem literal_shown_iff_inert (names : NameMap) :
    (∀ (arch : Arch) (conv : Convention) (label : Label) (text : String),
      ∃ directive,
        Selector.stringLiteral { conv, isa := arch.target.isa } label text =
          [.atLabel label, directive] ∧
        directive.asm =
          "\t" ++ arch.target.isa.stringDirective ++ " \"" ++ Text.quote text ++ "\"" ∧
        (directive.render names = directive.asm ↔ Inert (Text.quote text).toList) ∧
        (placeholderMark ∉ text.toList → directive.render names = directive.asm)) ∧
    ∀ (session : Session) (program : Source.Exp) (unit : Assembly),
      (session.compile program).outcome = .ok unit →
      unit.listing names =
        String.join (unit.strings.flatMap (Literal.lines session.selector names)) ++
          String.join ((unit.procs.flatMap Procedure.instrs).map (Instr.line names)) ∧
      ∀ literal ∈ unit.strings,
        (session.selector.stringDirective literal.text).line names =
          "    " ++ (session.selector.stringDirective literal.text).asm ++ "\n" ↔
          Inert (Text.quote literal.text).toList := by
  constructor
  · intro arch conv label text
    have shown := render_stringDirective_iff { conv, isa := arch.target.isa } arch rfl text names
    exact ⟨_, rfl, rfl, shown, fun unmarked =>
      shown.mpr (inert_of_unmarked (quote_unmarked unmarked))⟩
  · intro session program unit compiled
    refine ⟨listing_literals compiled names, fun literal _ => ?_⟩
    rw [← render_stringDirective_iff session.selector session.config.arch rfl _ names]
    change "    " ++ _ ++ "\n" = "    " ++ _ ++ "\n" ↔ _
    simp [← String.toList_inj]

/-- A program with a literal in which there are marks, but no placeholders. -/
def chiming : Source.Exp := .call "print" [.string "it`s 5 o`clock"] {}

theorem chiming_shown :
    ∃ session unit, Session.start {} = .ok session ∧
      (session.compile chiming).outcome = .ok unit ∧
      (∃ literal ∈ unit.strings, literal.text = "it`s 5 o`clock" ∧
        (session.selector.stringDirective literal.text).line session.names =
          "    " ++ (session.selector.stringDirective literal.text).asm ++ "\n") ∧
      String.join (unit.strings.flatMap (Literal.lines session.selector session.names)) =
        ".L0:\n    \t.string \"it`s 5 o`clock\"\n" := by
  have evaluated : ((Session.start {}).toOption.bind fun session =>
      (session.compile chiming).outcome.toOption.map fun unit =>
        (unit.strings.map Literal.text,
          String.join (unit.strings.flatMap (Literal.lines session.selector session.names)))) =
      some (["it`s 5 o`clock"], ".L0:\n    \t.string \"it`s 5 o`clock\"\n") := by decide +kernel
  obtain ⟨session, began, evaluated⟩ := Option.bind_eq_some_iff.mp evaluated
  obtain ⟨unit, compiled, evaluated⟩ := Option.map_eq_some_iff.mp evaluated
  obtain ⟨texts, lines⟩ := Prod.mk.inj evaluated
  have compiled := ok_of_toOption compiled
  obtain ⟨literal, rest, strings, text, _⟩ := List.map_eq_cons_iff.mp texts
  have member : literal ∈ unit.strings := by
    rw [strings]
    exact List.mem_cons_self
  have inert : Inert (Text.quote literal.text).toList := by
    rw [text]
    decide +kernel
  obtain ⟨_, shown⟩ := (literal_shown_iff_inert session.names).2 session chiming unit compiled
  exact ⟨session, unit, ok_of_toOption began, compiled,
    ⟨literal, member, text, (shown literal member).mpr inert⟩, lines⟩

/-- The literal of this program looks like a placeholder, and shows as a missing operand. -/
theorem placeholder_literal_altered :
    ∃ session unit, Session.start {} = .ok session ∧
      (session.compile (.call "print" [.string "`d0"] {})).outcome = .ok unit ∧
      unit.strings.map Literal.text = ["`d0"] ∧
      (session.selector.stringDirective "`d0").asm = "\t.string \"`d0\"" ∧
      (session.selector.stringDirective "`d0").render session.names = "\t.string \"<?>\"" ∧
      String.join (unit.strings.flatMap (Literal.lines session.selector session.names)) =
        ".L0:\n    \t.string \"<?>\"\n" := by
  have evaluated : ((Session.start {}).toOption.bind fun session =>
      (session.compile (.call "print" [.string "`d0"] {})).outcome.toOption.map fun unit =>
        (unit.strings.map Literal.text, (session.selector.stringDirective "`d0").asm,
          (session.selector.stringDirective "`d0").render session.names,
          String.join (unit.strings.flatMap (Literal.lines session.selector session.names)))) =
      some (["`d0"], "\t.string \"`d0\"", "\t.string \"<?>\"",
        ".L0:\n    \t.string \"<?>\"\n") := by decide +kernel
  obtain ⟨session, began, evaluated⟩ := Option.bind_eq_some_iff.mp evaluated
  obtain ⟨unit, compiled, evaluated⟩ := Option.map_eq_some_iff.mp evaluated
  simp only [Prod.mk.injEq] at evaluated
  exact ⟨session, unit, ok_of_toOption began, ok_of_toOption compiled, evaluated⟩

end TreeCode
