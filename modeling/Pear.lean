import Pear.X86.Memory
import Pear.X86.Instruction
import Pear.X86.Execution
import Pear.X86.Through
import Pear.Labelled.Runs
import Pear.Instrumentation.Globals
import Pear.Instrumentation.Trampoline
import Pear.Instrumentation.TraceCounters
import Pear.Grouping.Fold
import Pear.Rewriting.Module
import Pear.Rewriting.BasicBlocks
import Pear.Python.Builtins
import Pear.Python.Values
import Pear.Rewriting.AddressMap
import Pear.Rewriting.Arguments
import Pear.Rewriting.Passes
import Pear.Rewriting.Modes
import Pear.Rewriting.FrontEnds
import Pear.Rewriting.InitLocation
import Pear.Instrumentation.RegisterBackup
import Pear.Instrumentation.SharedmemHook
import Pear.Forkserver.Options
import Pear.Forkserver.Process
import Pear.Forkserver.Matching
import Pear.Forkserver.TestcaseBuffer
import Pear.Forkserver.Children
import Pear.Forkserver.Rounds
import Pear.Instrumentation.PersistentHandler
import Pear.Instrumentation.HandlerPasses
import Pear.Instrumentation.Activations
import Pear.Instrumentation.WithoutController
import Pear.Instrumentation.CallFunction
import Pear.Instrumentation.Coverage
import Pear.Instrumentation.IterationMap
import Pear.Instrumentation.LoopRegisters
import Pear.Instrumentation.HookIterations
import Pear.Instrumentation.InitHook
import Pear.Instrumentation.RunRequests
import Pear.Forkserver.Exits
import Pear.Forkserver.Signals
import Pear.Instrumentation.LoopCalls
import Pear.Instrumentation.EmulatedCalls
import Pear.Rewriting.RodataBytes
import Pear.Splitter.Split
import Pear.Splitter.Pieces
import Pear.Splitter.Extraction
import Pear.Splitter.Labels
import Pear.Splitter.PatchFiles
import Pear.Splitter.Tally
import Pear.X86.Cells
import Pear.Patches.Symbols
import Pear.Patches.PersistentLoop
import Pear.Patches.Forkserver
import Pear.Labelled.CutPoints
import Pear.Patches.Site
import Pear.Patches.System
import Pear.Patches.Simulation
import Pear.Patches.AtExit
import Pear.Patches.Calls
import Pear.Patches.MainLoop
import Pear.Patches.Frames
import Pear.Patches.Mapping
import Pear.Patches.Opening
import Pear.Patches.Scripts
import Pear.Patches.Refinement
import Pear.X86.Procedures
import Pear.Patches.SetupSite
import Pear.Patches.MapShm
import Pear.Patches.Setup
import Pear.Patches.Coverage
