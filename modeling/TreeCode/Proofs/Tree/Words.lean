import TreeCode.Proofs.Source.Evaluation
import TreeCode.Proofs.Tree.Meaning

/-!
Tree code on a machine with words of 64 bits. Arithmetic wraps around. Addresses of labels are kept
apart from words, so that a call tells which function it goes to. Calls without a link go to the
runtime system, which answers as an oracle says and keeps a trace.

Memory has one cell for each address, and a cell holds a whole value. Cells do not overlap, however
close their addresses are: the words of a frame of i386 are four bytes apart, and each of them holds
64 bits here. So what is shown of tree code on this machine takes the words of every target to be as
wide as those of the source language.
-/

namespace TreeCode.Tree

open Source (Word Oracle RuntimeCall truth)

/-- What a temporary or a place in memory holds. -/
inductive Value where
  | word (w : Word)
  /-- The address of a label. -/
  | code (label : Label)
deriving DecidableEq

/-- The word that is held, if it is one. -/
def Value.toWord : Value → Word
  | .word w => w
  | .code _ => 0

/-- Memory, which has a cell for each address, and the runtime calls made so far with the latest
last. -/
structure World where
  memory : Value → Value
  trace : List RuntimeCall

/-- Arithmetic on words. Shifts take their distance modulo the size of a word. -/
def BinOp.apply : BinOp → Word → Word → Word
  | .plus, a, b => a + b
  | .minus, a, b => a - b
  | .mul, a, b => a * b
  | .div, a, b => a.sdiv b
  | .and, a, b => a &&& b
  | .or, a, b => a ||| b
  | .xor, a, b => a ^^^ b
  | .lshift, a, b => a <<< (b % 64)
  | .rshift, a, b => a >>> (b % 64)
  | .arshift, a, b => a.sshiftRight' (b % 64)

/-- Comparisons of words, signed and unsigned. -/
def RelOp.holds : RelOp → Word → Word → Bool
  | .eq, a, b => a == b
  | .ne, a, b => a != b
  | .lt, a, b => a.slt b
  | .gt, a, b => b.slt a
  | .le, a, b => a.sle b
  | .ge, a, b => b.sle a
  | .ult, a, b => a.ult b
  | .ule, a, b => a.ule b
  | .ugt, a, b => b.ult a
  | .uge, a, b => b.ule a

/-- The world after a store. -/
def World.store (world : World) (address value : Value) : World :=
  { world with memory := fun a => if a = address then value else world.memory a }

/-- The world after a call of the runtime system. -/
def World.call (world : World) (name : String) (args : List Word) : World :=
  { world with trace := world.trace ++ [{ name, args }] }

/-- The machine whose runtime system answers as the oracle says. -/
def Model.words (oracle : Oracle) : Model Value World where
  const value := .word (.ofInt 64 value)
  name label := .code label
  binop op a b := .word (op.apply a.toWord b.toWord)
  holds op a b := op.holds a.toWord b.toWord
  load world address := world.memory address
  store world address value := world.store address value
  call func link args world :=
    match func, link with
    | .code name, none =>
      let world := world.call name (args.map Value.toWord)
      (.word (oracle world.trace), world)
    | _, _ => (.word 0, world)

/-- A call of the runtime system with words. -/
theorem Model.words_call (oracle : Oracle) (name : Label) (args : List Word) (world : World) :
    (Model.words oracle).call ((Model.words oracle).name name) none (args.map .word) world =
      (.word (oracle (world.call name args).trace), world.call name args) := by
  have same : (args.map Value.word).map Value.toWord = args := by
    rw [List.map_map]
    exact List.map_id args
  simp only [Model.words, same]

/-- The model computes with words of 64 bits. Where labels stand, what memory holds and what calls
do is left open. -/
structure Model.OnWords {W : Type} (M : Model Word W) : Prop where
  const : ∀ value : Int, M.const value = .ofInt 64 value
  binop : ∀ (op : BinOp) (a b : Word), M.binop op a b = op.apply a b
  holds : ∀ (op : RelOp) (a b : Word), M.holds op a b = op.holds a b

/-- A machine that keeps the arguments of all calls beside its memory, those of the latest call
last. A call returns how many there were before it. -/
def Model.recording : Model Word ((Word → Word) × List (List Word)) where
  const value := .ofInt 64 value
  name label := .ofNat 64 label.length
  binop := BinOp.apply
  holds := RelOp.holds
  load world address := world.1 address
  store world address value := (fun a => if a = address then value else world.1 a, world.2)
  call _ _ args world := (.ofNat 64 world.2.length, (world.1, world.2 ++ [args]))

theorem Model.recording_onWords : Model.recording.OnWords where
  const _ := rfl
  binop _ _ _ := rfl
  holds _ _ _ := rfl

end TreeCode.Tree
