import TreeCode.Proofs.Code.Arguments
import TreeCode.Proofs.Machine.Frames
import TreeCode.Target.Arch

/-!
Callers and callees agree on where arguments travel. The frame of a function and the code of its
calls are laid out independently of each other. They refuse the same functions for want of stack
positions, and otherwise each formal is expected where the argument for it is put.
-/

namespace TreeCode

open Tree

/-- Code passes a link and arguments as the frame of the called function expects them. Seen by the
function, the word at the stack pointer of its caller is two words above its own frame pointer. -/
structure Passes (conv : Convention) (templates : ArgTemplates) (frame : Frame) (code : List Instr)
    (link : Argument) (values : List Argument) : Prop where
  link : frame.formals[0]? = some (.inFrame (2 * conv.wordSize)) ∧
    templates.Stores code conv.stackPointer 0 link
  register : ∀ (i : Nat) (reg : Temp) (value : Argument), conv.arguments[i]? = some reg →
    values[i]? = some value →
    frame.incoming[i + 1]? = some (some reg) ∧ templates.Fills code reg value
  stack : ∀ (i : Nat) (value : Argument), conv.arguments.length ≤ i → values[i]? = some value →
    frame.incoming[i + 1]? = some none ∧ ∃ offset,
      frame.formals[i + 1]? = some (.inFrame offset) ∧
      templates.Stores code conv.stackPointer (offset - 2 * conv.wordSize) value
  pointer : ∀ instr ∈ code, conv.stackPointer ∉ instr.defs

/-- The distance between where a caller leaves a stack-passed argument and where the function finds
it is the same for all positions. -/
theorem formalOffset_eq (conv : Convention) (index : Nat) :
    conv.formalOffset index - 2 * conv.wordSize = conv.argumentOffset index := by
  simp only [Convention.formalOffset, Convention.argumentOffset, Convention.words, Int.add_mul]
  omega

/-- All targets pass arguments by plain moves and stores. -/
theorem Arch.target_standard (arch : Arch) : arch.target.isa.args.Standard := by
  cases arch <;> constructor <;> decide +kernel

section Passing

variable {conv : Convention} {templates : ArgTemplates}

/-- Values that were placed after all operands were evaluated are passed as the frame says. -/
theorem passes_placed (spaced : 0 < conv.wordSize) (distinct : conv.arguments.Nodup)
    (apart : conv.stackPointer ∉ conv.arguments) {name : Label} {escapes : List Bool}
    {supply supply' : Supply} {frame : Frame}
    (made : conv.frameFor name (true :: escapes) supply = .ok frame supply') {next : Nat}
    (registers : Below next (conv.stackPointer :: conv.arguments)) {link : Argument}
    {values : List Argument} (length : values.length = escapes.length)
    (kept : ∀ u, .reg u ∈ link :: values → u.index < next ∧ u ∉ conv.arguments) :
    Passes conv templates frame (templates.filling conv.arguments values ++
      templates.stacking conv next 0 (link :: values.drop conv.arguments.length)) link values := by
  obtain ⟨home, incoming, formals, arrivals, arrives⟩ := Convention.frameFor_arrives made
  obtain ⟨pointer, issued⟩ := (below_cons _ _ _).mp registers
  have fresh {instr : Instr} {stacked : List Argument}
      (member : instr ∈ templates.stacking conv next 0 stacked) {t : Temp} (old : t.index < next) :
      t ∉ instr.defs := by
    intro written
    exact absurd (ArgTemplates.defs_stacking member written).1 (Nat.not_le.mpr old)
  refine ⟨⟨?_, ?_⟩, ?_, ?_, ?_⟩
  · rw [formals, List.getElem?_cons_zero, Convention.formalOffset, Convention.words]
    rfl
  · have offset : conv.argumentOffset 0 = 0 := Int.zero_mul conv.wordSize
    rw [← offset]
    exact ArgTemplates.stores_stacking spaced issued values rfl fun u same =>
      kept u (same ▸ List.mem_cons_self)
  · intro i reg value register given
    have inside : i < escapes.length := length ▸ (List.getElem?_eq_some_iff.mp given).1
    have among : reg ∈ conv.arguments := List.mem_of_getElem? register
    refine ⟨?_, ?_⟩
    · rw [arrivals, List.getElem?_cons_succ, arrives.incoming i inside, register]
    · have filled : templates.Fills (templates.filling conv.arguments values) reg value :=
        ArgTemplates.fills_filling distinct register given
        fun u same => (kept u (same ▸ List.mem_cons_of_mem link (List.mem_of_getElem? given))).2
      exact filled.append fun instr member => fresh member (issued reg among)
  · intro i value beyond given
    have inside : i < escapes.length := length ▸ (List.getElem?_eq_some_iff.mp given).1
    refine ⟨?_, conv.formalOffset (1 + (i - conv.arguments.length)), ?_, ?_⟩
    · rw [arrivals, List.getElem?_cons_succ, arrives.incoming i inside,
        List.getElem?_eq_none beyond]
    · rw [formals, List.getElem?_cons_succ, arrives.kept i inside beyond]
    · rw [formalOffset_eq]
      refine ArgTemplates.stores_stacking spaced issued values ?_ fun u same =>
        kept u (same ▸ List.mem_cons_of_mem link (List.mem_of_getElem? given))
      rw [Nat.add_comm, List.getElem?_cons_succ, List.getElem?_drop, Nat.add_sub_cancel' beyond]
      exact given
  · intro instr member
    rcases List.mem_append.mp member with filled | stacked
    · exact ArgTemplates.not_mem_defs_filling filled apart
    · exact fresh stacked pointer

end Passing

/-- The frame of a function is refused for want of stack positions exactly if the code of its calls
is. Otherwise the code of a call evaluates the link and then the arguments in order, each in the
state that the ones before it left. The code after that passes their values as the frame expects
them, if no operand is an argument register to begin with. -/
theorem callers_and_callees_agree (sel : Selector) (spaced : 0 < sel.conv.wordSize)
    (distinct : sel.conv.arguments.Nodup) (apart : sel.conv.stackPointer ∉ sel.conv.arguments)
    (name : Label) {escapes : List Bool} (link : Exp) {args : List Exp}
    (same : args.length = escapes.length) (supply : Supply) (state : Selection) :
    ((∃ fault supply', sel.conv.frameFor name (true :: escapes) supply =
        .error (.convention fault) supply') ↔
      ∃ state', sel.selectArgs (some link) args state = .error (.convention (.tooManyArguments
        (sel.stackPositions (some link) args) sel.conv.name sel.conv.outgoing)) state') ∧
    ∀ (arch : Arch) frame supply' code state', sel.isa = arch.target.isa →
      Below state.supply.temps (sel.conv.stackPointer :: sel.conv.arguments) →
      (∀ t, .temp t ∈ link :: args → t.index < state.supply.temps ∧ t ∉ sel.conv.arguments) →
      sel.conv.frameFor name (true :: escapes) supply = .ok frame supply' →
      sel.selectArgs (some link) args state = .ok code state' →
      ∃ (value : Argument) (values : List Argument) (placement : List Instr)
        (stage : Nat → Selection),
        sel.evalArg link { state with emitted := #[] } = .ok value (stage 0) ∧
        value.StandsFor sel link { state with emitted := #[] } (stage 0) ∧
        sel.evalArgs args (stage 0) = .ok values (stage args.length) ∧
        values.length = args.length ∧
        (∀ (i : Nat) (arg : Exp) (value : Argument), args[i]? = some arg → values[i]? = some value →
          sel.evalArg arg (stage i) = .ok value (stage (i + 1)) ∧
          value.StandsFor sel arg (stage i) (stage (i + 1))) ∧
        code = (stage args.length).emitted.toList ++ placement ∧
        Passes sel.conv sel.isa.args frame placement value values := by
  refine ⟨?_, ?_⟩
  · rw [Convention.frameFor_error_iff, Selector.selectArgs_crowded_iff, Selector.stackPositions,
      same]
    exact Iff.rfl
  · intro arch frame supply' code state' isa registers operands made ran
    have standard : sel.isa.args.Standard := isa ▸ Arch.target_standard arch
    obtain ⟨value, values, middle, last, evaluated, others, whole⟩ :=
      Selector.selectArgs_ok standard ran
    obtain ⟨grown, stands⟩ := Selector.evalArg_ok evaluated
    obtain ⟨stage, rfl, rfl, length, between, each⟩ := Selector.evalArgs_ok others
    have growth : state.supply.temps ≤ (stage args.length).supply.temps :=
      Nat.le_trans grown (between 0 (Nat.zero_le _)).2
    -- What is still to be placed was drawn before the placement begins, so it is not written then.
    have kept {arg : Exp} (among : arg ∈ link :: args) {u : Temp}
        (stands : arg = .temp u ∨
          u.Between state.supply.temps (stage args.length).supply.temps) :
        u.index < (stage args.length).supply.temps ∧ u ∉ sel.conv.arguments := by
      rcases stands with rfl | ⟨least, most⟩
      · obtain ⟨old, outside⟩ := operands u among
        exact ⟨Nat.lt_of_lt_of_le old growth, outside⟩
      · exact ⟨most, fun inside =>
          absurd (registers u (List.mem_cons_of_mem _ inside)) (Nat.not_lt.mpr least)⟩
    have issued : Below (stage args.length).supply.temps
        (sel.conv.stackPointer :: sel.conv.arguments) :=
      fun t member => Nat.lt_of_lt_of_le (registers t member) growth
    refine ⟨value, values, _, stage, evaluated, stands, others, length, ?_, whole,
      passes_placed spaced distinct apart made issued (length.trans same) fun u member => ?_⟩
    · intro i arg value given made
      have ran := each i arg value given made
      exact ⟨ran, (Selector.evalArg_ok ran).2⟩
    rcases List.mem_cons.mp member with rfl | among
    · refine kept List.mem_cons_self (stands.reg_cases.imp id fun drawn => ?_)
      exact drawn.widen (Nat.le_refl _) (between 0 (Nat.zero_le _)).2
    · obtain ⟨i, inside, here⟩ := List.mem_iff_getElem.mp among
      have bound : i < args.length := length ▸ inside
      have given : args[i]? = some args[i] := List.getElem?_eq_getElem bound
      have ran := each i _ _ given (List.getElem?_eq_some_iff.mpr ⟨inside, here⟩)
      refine kept (List.mem_cons_of_mem link (List.mem_of_getElem? given))
        ((Selector.evalArg_ok ran).2.reg_cases.imp id fun drawn => ?_)
      exact drawn.widen (Nat.le_trans grown (between i (Nat.le_of_lt bound)).1)
        (between (i + 1) bound).2

/-- A convention with two argument registers and three stack positions, on the 64-bit x86
machine. -/
def twoRegisters : Selector where
  conv :=
    { name := "two registers"
      wordSize := 8
      registers :=
        { all := []
          framePointer := ⟨0⟩
          stackPointer := ⟨1⟩
          returnValue := ⟨2⟩
          arguments := [⟨3⟩, ⟨4⟩]
          callerSaved := []
          calleeSaved := [] }
      outgoing := 3 }
  isa := Arch.x64.target.isa

/-- Arguments of each kind, two of which do not fit into the registers. Of the two that have to be
computed, one travels in a register and the other one on the stack. -/
def fourArguments : List Exp :=
  [.binop .plus (.temp ⟨5⟩) (.const 1), .const 7, .mem (.temp ⟨5⟩), .name "f"]

theorem fourArguments_passed : 0 < twoRegisters.conv.wordSize ∧
    twoRegisters.conv.arguments.Nodup ∧
    twoRegisters.conv.stackPointer ∉ twoRegisters.conv.arguments ∧
    ∃ frame supply' code state',
      twoRegisters.conv.frameFor "g" [true, false, true, false, true] {} = .ok frame supply' ∧
      twoRegisters.selectArgs (some (.temp ⟨0⟩)) fourArguments { supply := { temps := 6 } } =
        .ok code state' ∧
      ∃ (values : List Argument) (placement : List Instr) (stage : Nat → Selection),
        values = [.reg ⟨6⟩, .imm 7, .reg ⟨7⟩, .label "f"] ∧
        (∀ (i : Nat) (arg : Exp) (value : Argument), fourArguments[i]? = some arg →
          values[i]? = some value →
          twoRegisters.evalArg arg (stage i) = .ok value (stage (i + 1)) ∧
          value.StandsFor twoRegisters arg (stage i) (stage (i + 1))) ∧
        code = (stage 4).emitted.toList ++ placement ∧
        Passes twoRegisters.conv twoRegisters.isa.args frame placement (.reg ⟨0⟩) values := by
  have spaced : 0 < twoRegisters.conv.wordSize := by decide
  have distinct : twoRegisters.conv.arguments.Nodup := by decide
  have apart : twoRegisters.conv.stackPointer ∉ twoRegisters.conv.arguments := by decide
  have same : fourArguments.length = [false, true, false, true].length := rfl
  obtain ⟨frame, supply', made⟩ : ∃ frame supply',
      twoRegisters.conv.frameFor "g" [true, false, true, false, true] {} = .ok frame supply' :=
    ⟨_, _, rfl⟩
  have checked : (match twoRegisters.selectArgs (some (.temp ⟨0⟩)) fourArguments
        { supply := { temps := 6 } } with
      | .ok _ _ => true
      | .error _ _ => false) = true := by decide +kernel
  have computed : (match twoRegisters.evalArgs fourArguments { supply := { temps := 6 } } with
      | .ok values _ => values
      | .error _ _ => []) = [.reg ⟨6⟩, .imm 7, .reg ⟨7⟩, .label "f"] := by decide +kernel
  split at checked
  case h_2 => cases checked
  case h_1 code state' ran =>
    have registers : Below 6 (twoRegisters.conv.stackPointer :: twoRegisters.conv.arguments) := by
      simp [twoRegisters, Convention.stackPointer, Convention.arguments]
    have operands (t : Temp) (member : .temp t ∈ Exp.temp ⟨0⟩ :: fourArguments) :
        t.index < 6 ∧ t ∉ twoRegisters.conv.arguments := by
      have : t = ⟨0⟩ := by simpa [fourArguments] using member
      subst this
      decide
    obtain ⟨value, values, placement, stage, linked, _, evaluated, _, each, whole, passes⟩ :=
      (callers_and_callees_agree twoRegisters spaced distinct apart "g" (.temp ⟨0⟩) same {}
        { supply := { temps := 6 } }).2 .x64 frame supply' code state' rfl registers operands made
        ran
    rw [Selector.evalArg] at linked
    obtain ⟨rfl, first⟩ := pure_ok.mp linked
    rw [← first] at evaluated
    rw [evaluated] at computed
    exact ⟨spaced, distinct, apart, frame, supply', code, state', made, ran, values, placement,
      stage, computed, each, whole, passes⟩

end TreeCode
