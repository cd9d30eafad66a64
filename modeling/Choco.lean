import Choco.Asm.Assembly
import Choco.Asm.Decode
import Choco.Asm.Emit
import Choco.Asm.Encode
import Choco.Asm.Frame
import Choco.Asm.Instr
import Choco.Asm.Reg
import Choco.Asm.Routines
import Choco.Compile
import Choco.Error
import Choco.Eval.Basic
import Choco.Eval.Environment
import Choco.Eval.Expr
import Choco.Eval.Program
import Choco.Eval.Stmt
import Choco.Eval.Value
import Choco.IR.Build
import Choco.IR.Decode
import Choco.IR.Dump
import Choco.IR.Edit
import Choco.IR.Encode
import Choco.IR.Flatten
import Choco.IR.Kind
import Choco.IR.LibraryUse
import Choco.IR.Loops
import Choco.IR.Module
import Choco.IR.OfProgram
import Choco.IR.Optimize
import Choco.IR.Verify
import Choco.Json.Basic
import Choco.Json.Decode
import Choco.Json.Reader
import Choco.Json.Token
import Choco.Json.Writer
import Choco.Library
import Choco.Machine.Image
import Choco.Machine.Memory
import Choco.Machine.Run
import Choco.Machine.Step
import Choco.Outcome
import Choco.Scopes
import Choco.Syntax
import Choco.Syntax.Decode
import Choco.Syntax.Encode
import Choco.Text.GraphemeExtend
import Choco.Text.Ignorable
import Choco.Text.Printable
import Choco.Text.Quoted
import Choco.Text.Runs
import Choco.Text.Utf8
import Choco.Ty
import Choco.Word
import Choco.Proofs.Creation
import Choco.Proofs.Actions
import Choco.Proofs.Building
import Choco.Proofs.Context
import Choco.Proofs.Effects
import Choco.Proofs.Emission
import Choco.Proofs.Erase
import Choco.Proofs.ExactUsers
import Choco.Proofs.FlatForks
import Choco.Proofs.Flattening
import Choco.Proofs.Folding
import Choco.Proofs.Generation
import Choco.Proofs.Sweep
import Choco.Proofs.Unrolling
import Choco.Proofs.Scoping
import Choco.Proofs.Stages
import Choco.Proofs.Passes
import Choco.Proofs.Computes
import Choco.Proofs.Optimizing
import Choco.Proofs.FlatFunctions
import Choco.Proofs.Failures
import Choco.Proofs.Verifying
import Choco.Proofs.Checkpoints
import Choco.Proofs.FunctionLabels
import Choco.Proofs.LabelNames
import Choco.Proofs.EmittedLabels
import Choco.Proofs.Loading
import Choco.Proofs.Linking
import Choco.Proofs.Idempotence
import Choco.Proofs.VisibleNames
import Choco.Proofs.References
import Choco.Proofs.NameUses
import Choco.Proofs.DeclaredNames
import Choco.Proofs.Resolution
import Choco.Proofs.CallSites
import Choco.Proofs.EmittedCalls
import Choco.Proofs.Execution
import Choco.Proofs.StraightRuns
import Choco.Proofs.Simulation
import Choco.Proofs.FlatMeaning
import Choco.Proofs.RenamedRuns
import Choco.Proofs.Returns
import Choco.Proofs.Budgets
import Choco.Proofs.JsonText
import Choco.Proofs.JsonTrees
import Choco.Proofs.Objects
import Choco.Proofs.Immediates
import Choco.Proofs.Allocator
import Choco.Proofs.Handles
import Choco.Proofs.Dominance
import Choco.Proofs.Detached
import Choco.Proofs.ModuleRuns
import Choco.Proofs.LoopRuns
import Choco.Proofs.LoopVersions
import Choco.Proofs.ReplacedLoops
import Choco.Proofs.FloorDivision
import Choco.Proofs.Routines
import Choco.Proofs.PrintedNumbers
import Choco.Proofs.Splicing
import Choco.Proofs.UncheckedOperators
import Choco.Proofs.ComparedStrings
import Choco.Proofs.PrintedStrings
import Choco.Proofs.JoinedLists
import Choco.Proofs.InputLines
import Choco.Proofs.TypeOrder
import Choco.Proofs.DataLayout
import Choco.Proofs.HeapIsolation
import Choco.Proofs.RecordStack
import Choco.Proofs.ActivationRecords
import Choco.Proofs.LocalLabels
import Choco.Proofs.FrameEntry
