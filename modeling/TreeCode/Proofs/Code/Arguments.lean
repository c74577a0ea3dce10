import Mathlib.Algebra.Order.Ring.Nat
import TreeCode.Proofs.Code.Flat
import TreeCode.Proofs.Code.Steps
import TreeCode.Proofs.Supply

/-!
Where the arguments of a call go. Once the operands are evaluated, exactly one instruction writes
each argument register, exactly one stores each of the other arguments, and nothing that is still
to be read is overwritten on the way.
-/

namespace TreeCode

open Tree

namespace Argument

/-- The register that an argument is stored from, if `next` is the number of the next temporary. -/
def register (next : Nat) : Argument → Temp
  | reg t => t
  | _ => ⟨next⟩

/-- How many temporaries it takes to store an argument. -/
def draws : Argument → Nat
  | reg _ => 0
  | _ => 1

/-- What the value of an argument stands for that was evaluated on the way from `s` to `s'`. A
constant, a label and a temporary stand for themselves, and it takes no code to evaluate them. Any
other expression was covered, and the temporary that was drawn for its value stands for it. -/
def StandsFor (sel : Selector) (arg : Exp) (s s' : Selection) : Argument → Prop
  | imm value => arg = .const value ∧ s' = s
  | label name => arg = .name name ∧ s' = s
  | reg t => (arg = .temp t ∧ s' = s) ∨
    (∀ u, arg ≠ .temp u) ∧ sel.coverExp arg s = .ok t s' ∧
      t.Between s.supply.temps s'.supply.temps

/-- A register that stands for an expression is a temporary of the program, or it was drawn on the
way. -/
theorem StandsFor.reg_cases {sel : Selector} {arg : Exp} {s s' : Selection} {t : Temp}
    (stands : (reg t).StandsFor sel arg s s') :
    arg = .temp t ∨ t.Between s.supply.temps s'.supply.temps :=
  stands.imp And.left fun covered => covered.2.2

end Argument

/-- Whether an instruction addresses the word at a distance from a pointer. -/
def Instr.addresses (instr : Instr) (pointer : Temp) (offset : Int) : Bool :=
  instr.src.head? == some pointer && instr.imms == [offset]

/-- The templates that place arguments use their operands as they are meant to, and no others. -/
structure ArgTemplates.Standard (templates : ArgTemplates) : Prop where
  imm : templates.immToReg = { asm := templates.immToReg.asm, dst := [.result], imms := [0] }
  label : templates.labelToReg =
    { asm := templates.labelToReg.asm, dst := [.result], labels := [0] }
  reg : templates.regToReg =
    { asm := templates.regToReg.asm, isMove := true, dst := [.result], src := [.reg 0] }
  stack : templates.regToStack =
    { asm := templates.regToStack.asm, src := [.reg 0, .reg 1], imms := [0] }
  plain : ∀ template ∈ [templates.immToReg, templates.labelToReg, templates.regToReg,
    templates.regToStack], needsCondition template.asm.toList = false

namespace ArgTemplates

variable (templates : ArgTemplates)

/-- The instruction that puts an argument into a register. -/
def placing (reg : Temp) : Argument → Instr
  | .imm value => { asm := templates.immToReg.asm, dst := [reg], imms := [value] }
  | .label name => { asm := templates.labelToReg.asm, dst := [reg], labels := [name] }
  | .reg t => { kind := .move, asm := templates.regToReg.asm, dst := [reg], src := [t] }

/-- The instruction that stores a register at a distance from the stack pointer. -/
def storing (pointer : Temp) (offset : Int) (t : Temp) : Instr :=
  { asm := templates.regToStack.asm, src := [pointer, t], imms := [offset] }

@[simp] theorem defs_placing (reg : Temp) (value : Argument) :
    (templates.placing reg value).defs = [reg] := by
  cases value <;> rfl

@[simp] theorem defs_storing (pointer : Temp) (offset : Int) (t : Temp) :
    (templates.storing pointer offset t).defs = [] := rfl

@[simp] theorem addresses_placing (reg : Temp) (value : Argument) (pointer : Temp) (offset : Int) :
    (templates.placing reg value).addresses pointer offset = false := by
  cases value <;> simp [placing, Instr.addresses]

theorem addresses_storing {pointer t : Temp} {offset other : Int} :
    (templates.storing pointer offset t).addresses pointer other = true ↔ offset = other := by
  simp [storing, Instr.addresses]

/-- One instruction writes the register, and it is the one that puts the argument there. If the
argument is in a register, then that was not written before. -/
def Fills (code : List Instr) (reg : Temp) (value : Argument) : Prop :=
  ∃ before later, code = before ++ templates.placing reg value :: later ∧
    (∀ u, value = .reg u → ∀ instr ∈ before, u ∉ instr.defs) ∧
    ∀ instr ∈ before ++ later, reg ∉ instr.defs

/-- After the code, the register carries the argument: it is the register of the argument and was
not written, or it was filled with it. -/
def Carries (code : List Instr) (t : Temp) (value : Argument) : Prop :=
  (value = .reg t ∧ ∀ instr ∈ code, t ∉ instr.defs) ∨ templates.Fills code t value

/-- One instruction addresses the word at a distance from the pointer, and it stores a register
there that carries the argument by then. -/
def Stores (code : List Instr) (pointer : Temp) (offset : Int) (value : Argument) : Prop :=
  ∃ before t later, code = before ++ templates.storing pointer offset t :: later ∧
    templates.Carries before t value ∧
    ∀ instr ∈ before ++ later, instr.addresses pointer offset = false

/-- The code that puts arguments into registers. -/
def filling : List Temp → List Argument → List Instr := List.zipWith templates.placing

/-- The code that puts an argument into a register, if it is not in one. -/
def loading (next : Nat) : Argument → List Instr
  | .reg _ => []
  | value => [templates.placing ⟨next⟩ value]

/-- The code that stores arguments one word after the other, from stack position `index` on, if
`next` is the number of the next temporary. -/
def stacking (conv : Convention) : Nat → Nat → List Argument → List Instr
  | _, _, [] => []
  | next, index, value :: values =>
    templates.loading next value ++
      templates.storing conv.stackPointer (conv.argumentOffset index) (value.register next) ::
        stacking conv (next + value.draws) (index + 1) values

section Filling

variable {templates} {regs : List Temp} {values : List Argument}

/-- Filling registers only places values in them. -/
theorem of_mem_filling {instr : Instr} (member : instr ∈ templates.filling regs values) :
    ∃ reg ∈ regs, ∃ value, instr = templates.placing reg value := by
  induction regs generalizing values with
  | nil => cases member
  | cons reg regs ih =>
    cases values with
    | nil => cases member
    | cons value values =>
      rcases List.mem_cons.mp member with rfl | later
      · exact ⟨reg, List.mem_cons_self, value, rfl⟩
      · obtain ⟨other, among, made⟩ := ih later
        exact ⟨other, List.mem_cons_of_mem reg among, made⟩

theorem not_mem_defs_filling {instr : Instr} (member : instr ∈ templates.filling regs values)
    {t : Temp} (outside : t ∉ regs) : t ∉ instr.defs := by
  obtain ⟨reg, among, value, rfl⟩ := of_mem_filling member
  rw [defs_placing, List.mem_singleton]
  exact fun same => outside (same ▸ among)

/-- Each register is filled with the argument at its position, from a temporary that is not
overwritten before. -/
theorem fills_filling (distinct : regs.Nodup) {i : Nat} {reg : Temp} {value : Argument}
    (register : regs[i]? = some reg) (given : values[i]? = some value)
    (outside : ∀ u, value = .reg u → u ∉ regs) :
    templates.Fills (templates.filling regs values) reg value := by
  induction regs generalizing values i with
  | nil => cases register
  | cons first regs ih =>
    obtain ⟨apart, distinct⟩ := List.nodup_cons.mp distinct
    cases values with
    | nil => cases given
    | cons leading values =>
      cases i with
      | zero =>
        cases register
        cases given
        exact ⟨[], templates.filling regs values, rfl, nofun, fun instr member =>
          not_mem_defs_filling member apart⟩
      | succ i =>
        obtain ⟨before, later, whole, unread, unwritten⟩ := ih distinct register given
          fun u same among => outside u same (List.mem_cons_of_mem first among)
        have other : reg ≠ first := fun same =>
          apart (same ▸ List.mem_of_getElem? register)
        refine ⟨templates.placing first leading :: before, later, congrArg _ whole, ?_, ?_⟩
        · intro u same instr member
          rcases List.mem_cons.mp member with rfl | early
          · rw [defs_placing, List.mem_singleton]
            exact fun is => outside u same (is ▸ List.mem_cons_self)
          · exact unread u same instr early
        · intro instr member
          rcases List.mem_cons.mp member with rfl | rest
          · rw [defs_placing, List.mem_singleton]
            exact other
          · exact unwritten instr rest

/-- A filled register stays filled while it is not written. -/
theorem Fills.append {code more : List Instr} {reg : Temp} {value : Argument}
    (fills : templates.Fills code reg value) (unwritten : ∀ instr ∈ more, reg ∉ instr.defs) :
    templates.Fills (code ++ more) reg value := by
  obtain ⟨before, later, rfl, unread, others⟩ := fills
  refine ⟨before, later ++ more, by simp, unread, fun instr member => ?_⟩
  rcases List.mem_append.mp (List.append_assoc before later more ▸ member) with inside | beyond
  · exact others instr inside
  · exact unwritten instr beyond

end Filling

section Stacking

variable {templates} {conv : Convention}

/-- The code for arguments one after the other. -/
theorem stacking_append (next index : Nat) (first second : List Argument) :
    templates.stacking conv next index (first ++ second) =
      templates.stacking conv next index first ++
        templates.stacking conv (next + (first.map Argument.draws).sum) (index + first.length)
          second := by
  induction first generalizing next index with
  | nil => rfl
  | cons value first ih =>
    simp only [List.cons_append, stacking, ih, List.map_cons, List.sum_cons, List.length_cons,
      List.append_assoc, List.cons_append, Nat.add_assoc, Nat.add_comm 1]

/-- Only a constant or a label is loaded, and that into a new temporary. -/
theorem of_mem_loading {next : Nat} {value : Argument} {instr : Instr}
    (member : instr ∈ templates.loading next value) :
    instr = templates.placing ⟨next⟩ value ∧ value.draws = 1 := by
  cases value with
  | reg t => cases member
  | imm | label => exact ⟨List.mem_singleton.mp member, rfl⟩

/-- Only temporaries are written that are drawn here. -/
theorem defs_stacking {next index : Nat} {values : List Argument} {instr : Instr}
    (member : instr ∈ templates.stacking conv next index values) {t : Temp}
    (written : t ∈ instr.defs) : t.Between next (next + (values.map Argument.draws).sum) := by
  induction values generalizing next index with
  | nil => cases member
  | cons value values ih =>
    simp only [stacking, List.mem_append, List.mem_cons] at member
    rw [List.map_cons, List.sum_cons, ← Nat.add_assoc]
    rcases member with here | rfl | later
    · obtain ⟨rfl, drawn⟩ := of_mem_loading here
      rw [defs_placing, List.mem_singleton] at written
      subst written
      rw [drawn]
      exact ⟨Nat.le_refl next, Nat.lt_of_lt_of_le (Nat.lt_succ_self next) (Nat.le_add_right _ _)⟩
    · cases written
    · exact (ih later).widen (Nat.le_add_right _ _) (Nat.le_refl _)

/-- Only words from the first position on are addressed. -/
theorem addresses_stacking {next index : Nat} {values : List Argument} {instr : Instr}
    (member : instr ∈ templates.stacking conv next index values) {offset : Int}
    (addressed : instr.addresses conv.stackPointer offset = true) :
    ∃ k, index ≤ k ∧ k < index + values.length ∧ offset = conv.argumentOffset k := by
  induction values generalizing next index with
  | nil => cases member
  | cons value values ih =>
    simp only [stacking, List.mem_append, List.mem_cons] at member
    rw [List.length_cons]
    rcases member with here | rfl | later
    · obtain ⟨rfl, -⟩ := of_mem_loading here
      rw [addresses_placing] at addressed
      cases addressed
    · exact ⟨index, Nat.le_refl _, by omega, ((addresses_storing templates).mp addressed).symm⟩
    · obtain ⟨k, above, below, same⟩ := ih later
      exact ⟨k, by omega, by omega, same⟩

/-- Arguments on the stack are at different offsets. -/
theorem argumentOffset_inj (spaced : 0 < conv.wordSize) {i j : Nat}
    (same : conv.argumentOffset i = conv.argumentOffset j) : i = j := by
  have equal := Int.eq_of_mul_eq_mul_right (Int.ne_of_gt spaced) same
  exact Int.ofNat.inj equal

/-- When arguments are stored after others were put into registers, each of them is stored at its
own position, from a register that still carries it. -/
theorem stores_stacking (spaced : 0 < conv.wordSize) {regs : List Temp} {next : Nat}
    (issued : Below next regs) (values : List Argument) {stacked : List Argument} {k : Nat}
    {value : Argument} (given : stacked[k]? = some value)
    (kept : ∀ u, value = .reg u → u.index < next ∧ u ∉ regs) :
    templates.Stores (templates.filling regs values ++ templates.stacking conv next 0 stacked)
      conv.stackPointer (conv.argumentOffset k) value := by
  obtain ⟨early, later, rfl, rfl⟩ :
      ∃ early later, stacked = early ++ value :: later ∧ early.length = k := by
    obtain ⟨inside, rfl⟩ := List.getElem?_eq_some_iff.mp given
    refine ⟨stacked.take k, stacked.drop (k + 1), ?_, List.length_take_of_le (Nat.le_of_lt inside)⟩
    rw [← List.drop_eq_getElem_cons inside, List.take_append_drop]
  let n := next + (early.map Argument.draws).sum
  have code : templates.stacking conv next 0 (early ++ value :: later) =
      templates.stacking conv next 0 early ++ (templates.loading n value ++
        templates.storing conv.stackPointer (conv.argumentOffset early.length) (value.register n) ::
          templates.stacking conv (n + value.draws) (early.length + 1) later) := by
    rw [stacking_append, Nat.zero_add, stacking]
  have elsewhere {instr : Instr} {start index : Nat} {among : List Argument}
      (member : instr ∈ templates.stacking conv start index among)
      (apart : early.length < index ∨ index + among.length ≤ early.length) :
      instr.addresses conv.stackPointer (conv.argumentOffset early.length) = false := by
    rw [Bool.eq_false_iff]
    intro addressed
    obtain ⟨k, above, below, same⟩ := addresses_stacking member addressed
    have := argumentOffset_inj spaced same
    omega
  -- Before the argument is loaded, only argument registers and temporaries below `n` are written.
  have before {instr : Instr}
      (member : instr ∈ templates.filling regs values ++ templates.stacking conv next 0 early)
      {t : Temp} (outside : t ∉ regs) (unused : t.index < next ∨ n ≤ t.index) :
      t ∉ instr.defs := by
    rcases List.mem_append.mp member with filled | stacked
    · exact not_mem_defs_filling filled outside
    · intro written
      obtain ⟨least, most⟩ := defs_stacking stacked written
      omega
  have fresh : (⟨n⟩ : Temp) ∉ regs := fun among =>
    Nat.not_lt.mpr (Nat.le_add_right next _) (issued ⟨n⟩ among)
  refine ⟨templates.filling regs values ++ templates.stacking conv next 0 early ++
    templates.loading n value, value.register n,
    templates.stacking conv (n + value.draws) (early.length + 1) later, ?_, ?_, ?_⟩
  · rw [code]
    simp
  · cases value with
    | reg u =>
      refine .inl ⟨rfl, fun instr member => ?_⟩
      obtain ⟨old, outside⟩ := kept u rfl
      exact before (by simpa [loading] using member) outside (.inl old)
    | imm | label =>
      refine .inr ⟨_, [], rfl, nofun, fun instr member => ?_⟩
      exact before (by simpa using member) fresh (.inr (Nat.le_refl n))
  · intro instr member
    simp only [List.mem_append] at member
    rcases member with ((filled | stacked) | loaded) | stacked
    · obtain ⟨reg, -, value, rfl⟩ := of_mem_filling filled
      exact templates.addresses_placing reg value _ _
    · exact elsewhere stacked (.inr (Nat.le_of_eq (Nat.zero_add _)))
    · obtain ⟨rfl, -⟩ := of_mem_loading loaded
      exact templates.addresses_placing _ value _ _
    · exact elsewhere stacked (.inl (Nat.lt_succ_self _))

end Stacking

end ArgTemplates

namespace Selector

variable {sel : Selector}

section Run

variable (standard : sel.isa.args.Standard)
include standard

theorem run_moveToRegister (reg : Temp) (value : Argument) (s : Selection) :
    sel.moveToRegister reg value s = .ok () (s.adding [sel.isa.args.placing reg value]) := by
  cases value with
  | imm value =>
    have made : sel.instrOf { imms := [value], result := some reg } sel.isa.args.immToReg =
        .ok (sel.isa.args.placing reg (.imm value)) := by
      have plain := standard.plain sel.isa.args.immToReg (by simp)
      rw [standard.imm]
      exact instrOf_plain plain rfl rfl rfl rfl rfl
    rw [moveToRegister, run_made, made]
  | label name =>
    have made : sel.instrOf { labels := [name], result := some reg } sel.isa.args.labelToReg =
        .ok (sel.isa.args.placing reg (.label name)) := by
      have plain := standard.plain sel.isa.args.labelToReg (by simp)
      rw [standard.label]
      exact instrOf_plain plain rfl rfl rfl rfl rfl
    rw [moveToRegister, run_made, made]
  | reg t =>
    have made : sel.instrOf { regs := [t], result := some reg } sel.isa.args.regToReg =
        .ok (sel.isa.args.placing reg (.reg t)) := by
      have plain := standard.plain sel.isa.args.regToReg (by simp)
      rw [standard.reg]
      exact instrOf_plain plain rfl rfl rfl rfl rfl
    rw [moveToRegister, run_made, made]

/-- Filling registers emits one move for each argument, as long as there are registers. -/
theorem run_fillRegisters (regs : List Temp) (values : List Argument) (s : Selection) :
    sel.fillRegisters regs values s = .ok () (s.adding (sel.isa.args.filling regs values)) := by
  induction regs generalizing values s with
  | nil =>
    rw [ArgTemplates.filling, List.zipWith_nil_left, s.adding_nil]
    rfl
  | cons reg regs ih =>
    cases values with
    | nil =>
      rw [ArgTemplates.filling, List.zipWith_nil_right, s.adding_nil]
      rfl
    | cons value values =>
      rw [fillRegisters, run_bind, run_moveToRegister standard]
      simp only
      rw [ih, Selection.adding_adding]
      rfl

/-- An argument is in its own register, or in a new temporary. -/
theorem run_inRegister (value : Argument) (s : Selection) :
    ∃ s', sel.inRegister value s = .ok (value.register s.supply.temps) s' ∧
      s'.supply.temps = s.supply.temps + value.draws ∧
      s'.emitted.toList = s.emitted.toList ++ sel.isa.args.loading s.supply.temps value := by
  have loaded (value : Argument) : (do
      let t ← freshTemp
      sel.moveToRegister t value
      return t : Select Temp) s =
      .ok ⟨s.supply.temps⟩ (s.drawn.adding [sel.isa.args.placing ⟨s.supply.temps⟩ value]) := by
    change (do sel.moveToRegister ⟨s.supply.temps⟩ value; return _ : Select Temp) s.drawn = _
    rw [run_bind, run_moveToRegister standard]
    rfl
  cases value with
  | reg t => exact ⟨s, rfl, rfl, (List.append_nil _).symm⟩
  | imm value => exact ⟨_, loaded (.imm value), rfl, Selection.adding_emitted s.drawn _⟩
  | label name => exact ⟨_, loaded (.label name), rfl, Selection.adding_emitted s.drawn _⟩

theorem run_moveToStack (index : Nat) (value : Argument) (s : Selection) :
    ∃ s', sel.moveToStack index value s = .ok () s' ∧
      s'.supply.temps = s.supply.temps + value.draws ∧
      s'.emitted.toList = s.emitted.toList ++ (sel.isa.args.loading s.supply.temps value ++
        [sel.isa.args.storing sel.conv.stackPointer (sel.conv.argumentOffset index)
          (value.register s.supply.temps)]) := by
  obtain ⟨s', held, drawn, emitted⟩ := run_inRegister standard value s
  let t := value.register s.supply.temps
  let stored := sel.isa.args.storing sel.conv.stackPointer (sel.conv.argumentOffset index) t
  have made : sel.instrOf
      { regs := [sel.conv.stackPointer, t], imms := [sel.conv.argumentOffset index] }
      sel.isa.args.regToStack = .ok stored := by
    have plain := standard.plain sel.isa.args.regToStack (by simp)
    rw [standard.stack]
    exact instrOf_plain plain rfl rfl rfl rfl rfl
  refine ⟨s'.adding [stored], ?_, drawn, ?_⟩
  · rw [moveToStack, run_bind, held]
    simp only
    rw [run_made, made]
  · rw [Selection.adding_emitted, emitted, List.append_assoc]

/-- Filling the stack emits the stores, with constants and labels loaded in between. -/
theorem run_fillStack (index : Nat) (values : List Argument) (s : Selection) :
    ∃ s', sel.fillStack index values s = .ok () s' ∧ s'.emitted.toList = s.emitted.toList ++
      sel.isa.args.stacking sel.conv s.supply.temps index values := by
  induction values generalizing index s with
  | nil => exact ⟨s, rfl, (List.append_nil _).symm⟩
  | cons value values ih =>
    obtain ⟨middle, moved, drawn, emitted⟩ := run_moveToStack standard index value s
    obtain ⟨s', filled, emittedLater⟩ := ih (index + 1) middle
    refine ⟨s', ?_, ?_⟩
    · rw [fillStack, run_bind, moved]
      exact filled
    · rw [emittedLater, emitted, drawn, ArgTemplates.stacking]
      simp

end Run

section Evaluation

variable {s s' : Selection}

theorem grows_coverMatch (found : Match) (result : Option Temp) :
    Within (fun s s' => s.supply.temps ≤ s'.supply.temps) (sel.coverMatch found result) := by
  have steps : sel.Steps (fun _ => True) fun act =>
      Within (fun s s' => s.supply.temps ≤ s'.supply.temps) act :=
    Steps.within (fun _ => Nat.le_refl _) Nat.le_trans (fun _ => Nat.le_succ _)
      fun _ _ => Nat.le_refl _
  exact steps.coverMatch hereditary_true found result
    ⟨fun _ _ => trivial, fun _ _ => trivial, fun _ _ _ => trivial⟩

/-- Evaluating an argument takes back no temporary, and the value stands for the argument. -/
theorem evalArg_ok {arg : Exp} {value : Argument} (ran : sel.evalArg arg s = .ok value s') :
    s.supply.temps ≤ s'.supply.temps ∧ value.StandsFor sel arg s s' := by
  have covered (other : ∀ u, arg ≠ .temp u) (pure : ∀ stm e, arg ≠ .eseq stm e)
      (ran : (do
        let t ← sel.coverExp arg
        return Argument.reg t) s = .ok value s') :
      s.supply.temps ≤ s'.supply.temps ∧ value.StandsFor sel arg s s' := by
    obtain ⟨t, _, covered, ran⟩ := bind_ok.mp ran
    obtain ⟨rfl, rfl⟩ := pure_ok.mp ran
    rcases coverExp_ok pure covered with ⟨same, -⟩ | ⟨-, rfl, found, -, -, done, matched⟩
    · exact absurd same (other t)
    · have grown := (grows_coverMatch found _).ok matched
      exact ⟨Nat.le_of_succ_le grown, .inr ⟨other, covered, Nat.le_refl _, grown⟩⟩
  cases arg with
  | name label =>
    rw [evalArg] at ran
    obtain ⟨rfl, rfl⟩ := pure_ok.mp ran
    exact ⟨Nat.le_refl _, rfl, rfl⟩
  | temp t =>
    rw [evalArg] at ran
    obtain ⟨rfl, rfl⟩ := pure_ok.mp ran
    exact ⟨Nat.le_refl _, .inl ⟨rfl, rfl⟩⟩
  | call func link args =>
    rw [evalArg] at ran
    exact (throw_ok.mp ran).elim
  | eseq stm exp =>
    rw [evalArg] at ran
    exact (throw_ok.mp ran).elim
  | const value =>
    rw [evalArg] at ran
    split at ran
    next =>
      obtain ⟨rfl, rfl⟩ := pure_ok.mp ran
      exact ⟨Nat.le_refl _, rfl, rfl⟩
    next => exact covered nofun nofun ran
  | binop op left right =>
    simp only [evalArg] at ran
    exact covered nofun nofun ran
  | mem address =>
    simp only [evalArg] at ran
    exact covered nofun nofun ran

/-- Arguments are evaluated one after the other, each in the state that the ones before it leave
behind. -/
theorem evalArgs_ok {args : List Exp} {values : List Argument}
    (ran : sel.evalArgs args s = .ok values s') :
    ∃ stage : Nat → Selection, stage 0 = s ∧ stage args.length = s' ∧
      values.length = args.length ∧
      (∀ i ≤ args.length, s.supply.temps ≤ (stage i).supply.temps ∧
        (stage i).supply.temps ≤ s'.supply.temps) ∧
      ∀ (i : Nat) (arg : Exp) (value : Argument), args[i]? = some arg → values[i]? = some value →
        sel.evalArg arg (stage i) = .ok value (stage (i + 1)) := by
  induction args generalizing values s with
  | nil =>
    rw [evalArgs] at ran
    obtain ⟨rfl, rfl⟩ := pure_ok.mp ran
    exact ⟨fun _ => s, rfl, rfl, rfl, fun _ _ => ⟨Nat.le_refl _, Nat.le_refl _⟩, nofun⟩
  | cons arg args ih =>
    rw [evalArgs] at ran
    obtain ⟨value, middle, evaluated, ran⟩ := bind_ok.mp ran
    obtain ⟨rest, _, others, ran⟩ := bind_ok.mp ran
    obtain ⟨rfl, rfl⟩ := pure_ok.mp ran
    obtain ⟨grown, -⟩ := evalArg_ok evaluated
    obtain ⟨later, rfl, last, length, between, each⟩ := ih others
    have grownLater := (between 0 (Nat.zero_le _)).2
    refine ⟨fun i => if i = 0 then s else later (i - 1), rfl, last, congrArg (· + 1) length,
      ?_, ?_⟩
    · intro i inside
      cases i with
      | zero => exact ⟨Nat.le_refl _, Nat.le_trans grown grownLater⟩
      | succ i =>
        obtain ⟨above, below⟩ := between i (Nat.le_of_succ_le_succ inside)
        exact ⟨Nat.le_trans grown above, below⟩
    · intro i arg value given made
      cases i with
      | zero =>
        cases given
        cases made
        exact evaluated
      | succ i => exact each i arg value given made

/-- What placing the operands of a call with a link does: they are evaluated, and then placed. -/
theorem selectArgs_ok (standard : sel.isa.args.Standard) {link : Exp} {args : List Exp}
    {code : List Instr} (ran : sel.selectArgs (some link) args s = .ok code s') :
    ∃ value values middle last, sel.evalArg link { s with emitted := #[] } = .ok value middle ∧
      sel.evalArgs args middle = .ok values last ∧
      code = last.emitted.toList ++ (sel.isa.args.filling sel.conv.arguments values ++
        sel.isa.args.stacking sel.conv last.supply.temps 0
          (value :: values.drop sel.conv.arguments.length)) := by
  cases placed : sel.placeOperands (some link) args { s with emitted := #[] } with
  | error error t =>
    rw [selectArgs, placed] at ran
    cases ran
  | ok done t =>
    rw [selectArgs, placed] at ran
    cases ran
    rw [placeOperands] at placed
    split at placed
    next => exact (throw_ok.mp placed).elim
    next =>
      obtain ⟨linked, middle, evaluated, placed⟩ := bind_ok.mp placed
      obtain ⟨values, last, others, placed⟩ := bind_ok.mp placed
      obtain ⟨_, filled, registers, placed⟩ := bind_ok.mp placed
      rw [evalLink] at evaluated
      obtain ⟨value, stage, ran, made⟩ := bind_ok.mp evaluated
      obtain ⟨rfl, rfl⟩ := pure_ok.mp made
      rw [run_fillRegisters standard] at registers
      cases registers
      obtain ⟨_, stacked, emitted⟩ := run_fillStack standard 0
        (value :: values.drop sel.conv.arguments.length)
        (last.adding (sel.isa.args.filling sel.conv.arguments values))
      cases stacked.symm.trans placed
      refine ⟨value, values, stage, last, ran, others, ?_⟩
      rw [emitted, Selection.adding_emitted, Selection.adding_supply, List.append_assoc]

end Evaluation

section Refusal

/-- Operands are missing only through a fault of the table. -/
theorem register_error {operands : Operands} {operand : Operand} {error : Error}
    (failed : sel.register operands operand = .error error) : ∃ fault, error = .table fault := by
  unfold register at failed
  split at failed <;> split at failed <;> cases failed
  all_goals exact ⟨_, rfl⟩

/-- Templates fail to become instructions only if their table is malformed. -/
theorem instrOf_error {operands : Operands} {template : Template} {error : Error}
    (failed : sel.instrOf operands template = .error error) : ∃ fault, error = .table fault := by
  rcases except_bind_error failed with dst | ⟨_, _, failed⟩
  · obtain ⟨_, _, failed⟩ := mapM_error dst
    exact register_error failed
  rcases except_bind_error failed with src | ⟨_, _, failed⟩
  · obtain ⟨_, _, failed⟩ := mapM_error src
    exact register_error failed
  rcases except_bind_error failed with labels | ⟨_, _, failed⟩
  · obtain ⟨_, _, failed⟩ := mapM_error labels
    unfold labelAt at failed
    split at failed <;> cases failed
    exact ⟨_, rfl⟩
  rcases except_bind_error failed with imms | ⟨_, _, failed⟩
  · obtain ⟨_, _, failed⟩ := mapM_error imms
    unfold immediateAt at failed
    split at failed <;> cases failed
    exact ⟨_, rfl⟩
  rcases except_bind_error failed with asm | ⟨_, _, failed⟩
  · unfold conditionText at asm
    split at asm
    next =>
      split at asm <;> cases asm
      exact ⟨_, rfl⟩
    next => cases asm
  · cases failed

/-- Selection finds fault with the calling convention only if some call takes more stack positions
than there are. -/
theorem steps_convention : sel.Steps (fun _ => True) fun act =>
    ∀ s fault s', act s = .error (.convention fault) s' → ∃ count, sel.conv.outgoing < count ∧
      fault = .tooManyArguments count sel.conv.name sel.conv.outgoing where
  pure _ := nofun
  bind first rest s fault s' failed := by
    rcases bind_error failed with early | ⟨a, t, -, late⟩
    · exact first s fault s' early
    · exact rest a t fault s' late
  fresh := nofun
  label _ := nofun
  instr operands template s fault s' failed := by
    rw [run_made] at failed
    cases made : sel.instrOf operands template with
    | ok instr =>
      rw [made] at failed
      cases failed
    | error error =>
      obtain ⟨_, rfl⟩ := instrOf_error made
      rw [made] at failed
      cases failed
  uncovered picked s fault s' failed := by
    cases failed
    unfold InstructionSet.cover at picked
    split at picked
    next => cases picked
    next => split at picked <;> cases picked
  misplaced _ s fault s' failed := by cases failed
  crowded crowded s fault s' failed := by
    cases failed
    exact ⟨_, crowded, rfl⟩

/-- Placing the operands of a call is refused for want of stack positions exactly if the call takes
more of them than there are. -/
theorem selectArgs_crowded_iff {link : Option Exp} {args : List Exp} {s : Selection} :
    (∃ s', sel.selectArgs link args s = .error (.convention (.tooManyArguments
        (sel.stackPositions link args) sel.conv.name sel.conv.outgoing)) s') ↔
      sel.conv.outgoing < sel.stackPositions link args := by
  constructor
  · rintro ⟨s', failed⟩
    cases placed : sel.placeOperands link args { s with emitted := #[] } with
    | ok done t =>
      rw [selectArgs, placed] at failed
      cases failed
    | error error t =>
      rw [selectArgs, placed] at failed
      cases failed
      obtain ⟨count, crowded, same⟩ := steps_convention.placeOperands hereditary_true link args
        (fun _ _ => trivial) (fun _ _ => trivial) _ _ _ placed
      cases same
      exact crowded
  · intro crowded
    have placed : sel.placeOperands link args { s with emitted := #[] } =
        .error (.convention (.tooManyArguments (sel.stackPositions link args) sel.conv.name
          sel.conv.outgoing)) { s with emitted := #[] } := by
      rw [placeOperands, if_pos crowded]
      rfl
    exact ⟨s, by rw [selectArgs, placed]⟩

end Refusal

end Selector

end TreeCode
