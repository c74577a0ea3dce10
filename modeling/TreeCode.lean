import TreeCode.Temp
import TreeCode.NameMap
import TreeCode.Supply
import TreeCode.WordSupply
import TreeCode.Tree.Basic
import TreeCode.Tree.Printer
import TreeCode.Tree.Canonical
import TreeCode.Source.Syntax
import TreeCode.Source.Binders
import TreeCode.Source.Escape
import TreeCode.Error
import TreeCode.Machine.Registers
import TreeCode.Machine.Convention
import TreeCode.Machine.Frame
import TreeCode.Lowering.Lowered
import TreeCode.Lowering.State
import TreeCode.Lowering.Level
import TreeCode.Lowering.Program
import TreeCode.Text.Blank
import TreeCode.Text.Quoted
import TreeCode.Code.Instr
import TreeCode.Code.Placeholder
import TreeCode.Code.Shape
import TreeCode.Code.InstructionSet
import TreeCode.Code.Emission
import TreeCode.Code.Argument
import TreeCode.Code.Selection
import TreeCode.Target.Basic
import TreeCode.Target.X86
import TreeCode.Target.X64
import TreeCode.Target.I386
import TreeCode.Target.Arm64
import TreeCode.Target.Arch
import TreeCode.Session.Stats
import TreeCode.Session.Assembly
import TreeCode.Session.Basic
import TreeCode.Dump.Sample
import TreeCode.Dump.Basic
import TreeCode.Main
import TreeCode.Proofs.Tree.Occurrences
import TreeCode.Proofs.Tree.Meaning
import TreeCode.Proofs.Canonical.Equations
import TreeCode.Proofs.Canonical.Operands
import TreeCode.Proofs.Canonical.Rules
import TreeCode.Proofs.Canonical.Preservation
import TreeCode.Proofs.Canonical.CallPlacement
import TreeCode.Proofs.Lowering.Run
import TreeCode.Proofs.Lowering.Steps
import TreeCode.Proofs.Lowering.Extension
import TreeCode.Proofs.Lowering.Levels
import TreeCode.Proofs.Lowering.Success
import TreeCode.Proofs.Lowering.Visitor
import TreeCode.Proofs.Lowering.Uses
import TreeCode.Proofs.Source.Walk
import TreeCode.Proofs.Lowering.Escape
import TreeCode.Proofs.Machine.Roles
import TreeCode.Proofs.Lowering.Pieces
import TreeCode.Proofs.Lowering.Isolation
import TreeCode.Proofs.Lowering.Separation
import TreeCode.Proofs.Canonical.Temps
import TreeCode.Proofs.Code.Bindings
import TreeCode.Proofs.Code.Temps
import TreeCode.Proofs.Lowering.Hygiene
import TreeCode.Proofs.Session.Hygiene
import TreeCode.Proofs.Canonical.Flow
import TreeCode.Proofs.Canonical.Labels
import TreeCode.Proofs.Source.Evaluation
import TreeCode.Proofs.Labels
import TreeCode.Proofs.Lowering.Labels
import TreeCode.Proofs.Tree.Words
import TreeCode.Proofs.Lowering.Storage
import TreeCode.Proofs.Lowering.Simulation
import TreeCode.Proofs.Lowering.Program
import TreeCode.Proofs.Session.Behaviour
import TreeCode.Proofs.Code.Templates
import TreeCode.Proofs.Code.Coverage
import TreeCode.Proofs.Target.Coverage
import TreeCode.Proofs.Tree.Bytes
import TreeCode.Proofs.Code.Flat
import TreeCode.Proofs.Target.X64.Machine
import TreeCode.Proofs.Target.X64.Arithmetic
import TreeCode.Proofs.Target.X64.Execution
import TreeCode.Proofs.Target.X64.Patterns
import TreeCode.Proofs.Target.X64.Selection
import TreeCode.Proofs.Code.Steps
import TreeCode.Proofs.Code.Arguments
import TreeCode.Proofs.Target.Passing
import TreeCode.Proofs.Tree.References
import TreeCode.Proofs.Canonical.References
import TreeCode.Proofs.Lowering.References
import TreeCode.Proofs.Code.Labels
import TreeCode.Proofs.Session.Labels
import TreeCode.Proofs.Code.Placeholders
import TreeCode.Proofs.Session.Literals
import TreeCode.Proofs.Lowering.Nesting
import TreeCode.Proofs.Lowering.Situation
import TreeCode.Proofs.Lowering.Acceptance
import TreeCode.Proofs.Lowering.Links
import TreeCode.Proofs.Lowering.Fragments
import TreeCode.Proofs.Canonical.Assignments
import TreeCode.Proofs.Session.Statistics
import TreeCode.Proofs.Source.Marking
import TreeCode.Proofs.Canonical.Renaming
import TreeCode.Proofs.Machine.Renaming
import TreeCode.Proofs.Lowering.Renaming
import TreeCode.Proofs.Lowering.Independence
import TreeCode.Proofs.Code.Renaming
import TreeCode.Proofs.Shift
import TreeCode.Proofs.Session.Independence
import TreeCode.Proofs.Canonical.Events
import TreeCode.Proofs.Canonical.Unchanged
import TreeCode.Proofs.Lowering.Conversions
import TreeCode.Proofs.Tree.Trails
import TreeCode.Proofs.Lowering.Counting
import TreeCode.Proofs.Lowering.Ranges
import TreeCode.Proofs.Lowering.StaticLinks
import TreeCode.Proofs.Machine.Layout
import TreeCode.Proofs.Machine.Entry
import TreeCode.Proofs.Lowering.Residences
import TreeCode.Proofs.Lowering.StorageClasses
import TreeCode.Proofs.Text.Decoding
import TreeCode.Proofs.Lowering.Restoration
import TreeCode.Proofs.Code.Buffer
import TreeCode.Proofs.Code.WellFormed
import TreeCode.Proofs.Target.WellFormed
import TreeCode.Proofs.Code.Choice
import TreeCode.Proofs.Code.Sizes
import TreeCode.Proofs.Code.Descent
import TreeCode.Proofs.Draws
