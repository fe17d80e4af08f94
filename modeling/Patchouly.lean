import Patchouly.Bf.Blocks
import Patchouly.Bf.Building
import Patchouly.Bf.Cells
import Patchouly.Bf.Compile
import Patchouly.Bf.Correct
import Patchouly.Bf.Meaning
import Patchouly.Bf.Parse
import Patchouly.Bf.Reading
import Patchouly.Bf.Simulation
import Patchouly.Bf.Standing
import Patchouly.Bf.Stencils
import Patchouly.Build.Completeness
import Patchouly.Build.Expansion
import Patchouly.Build.Extract
import Patchouly.Build.Extraction
import Patchouly.Build.Family
import Patchouly.Build.Linking
import Patchouly.Build.Names
import Patchouly.Build.Numbering
import Patchouly.Build.Operands
import Patchouly.Build.Sections
import Patchouly.Build.Sharing
import Patchouly.Build.Symbols
import Patchouly.Core.Index
import Patchouly.Core.Relocation
import Patchouly.Core.Selection
import Patchouly.Core.Stencils
import Patchouly.Lib.Bindings
import Patchouly.Lib.Commands
import Patchouly.Lib.Machines
import Patchouly.Lib.Odometer
import Patchouly.Lib.Pool
import Patchouly.Lib.Regions
import Patchouly.Lib.RootPath
import Patchouly.Lib.Runs
import Patchouly.Lib.Slab
import Patchouly.Lib.Tables
import Patchouly.Lib.Text
import Patchouly.Lib.Words
import Patchouly.Lib.Writes
import Patchouly.Macros.Perm
import Patchouly.Macros.Signature
import Patchouly.Macros.Stencil
import Patchouly.Macros.Transfer
import Patchouly.Macros.Wrapper
import Patchouly.Managed.Alignment
import Patchouly.Managed.Allocator
import Patchouly.Managed.Atomicity
import Patchouly.Managed.Builder
import Patchouly.Managed.Edges
import Patchouly.Managed.Effects
import Patchouly.Managed.Identity
import Patchouly.Managed.Image
import Patchouly.Managed.Ledger
import Patchouly.Managed.Lifetimes
import Patchouly.Managed.Machine
import Patchouly.Managed.Ownership
import Patchouly.Managed.Params
import Patchouly.Managed.Parents
import Patchouly.Managed.Pipeline
import Patchouly.Managed.Programs
import Patchouly.Managed.Progress
import Patchouly.Managed.Scopes
import Patchouly.Managed.Steps
import Patchouly.Managed.Verdict
import Patchouly.Patch.Block
import Patchouly.Patch.Bytes
import Patchouly.Patch.Calls
import Patchouly.Patch.Emission
import Patchouly.Patch.Ending
import Patchouly.Patch.Entries
import Patchouly.Patch.Fields
import Patchouly.Patch.Finalize
import Patchouly.Patch.Finish
import Patchouly.Patch.Generated
import Patchouly.Patch.Guard
import Patchouly.Patch.Image
import Patchouly.Patch.Immediate
import Patchouly.Patch.Jumps
import Patchouly.Patch.Layout
import Patchouly.Patch.Linking
import Patchouly.Patch.Narrow
import Patchouly.Patch.Pending
import Patchouly.Patch.Plan
import Patchouly.Patch.Pool
import Patchouly.Patch.Pruning
import Patchouly.Patch.Rebase
import Patchouly.Patch.Sound
import Patchouly.Patch.Total
import Patchouly.Patch.Trampolines
import Patchouly.Patch.WideHoles
