import ParaOS.Machine.Memory
import ParaOS.X86.Instr
import ParaOS.Wasm.Syntax
import ParaOS.Wasm.Spec
import ParaOS.Wasm.Reader
import ParaOS.Parawasm.Instructions
import ParaOS.Parawasm.Optimizer
import ParaOS.Parawasm.Compile
import ParaOS.Parawasm.Body
import ParaOS.Parawasm.OperandStack
import ParaOS.Parawasm.CallConvention
import ParaOS.Wasm.Validation
import ParaOS.X86.Encoding
import ParaOS.Parawasm.Emission
import ParaOS.Parawasm.FunctionTypes
import ParaOS.Parawasm.SectionLoop
import ParaOS.Parawasm.Layout
import ParaOS.Parawasm.Crates
import ParaOS.Parawasm.EntryPoints
import ParaOS.Parawasm.Linking
import ParaOS.X86.Frame
import ParaOS.X86.Program
import ParaOS.Parawasm.Frames
import ParaOS.Parawasm.Integrity
import ParaOS.Parawasm.Relinking
import ParaOS.Parawasm.Exports
import ParaOS.X86.Evaluation
import ParaOS.X86.Likeness
import ParaOS.Parawasm.NormalForm
import ParaOS.Parawasm.Peephole
import ParaOS.Parawasm.Slots
import ParaOS.Parawasm.Verdicts
import ParaOS.Parawasm.Bodies
import ParaOS.Parawasm.LoopEnd
import ParaOS.Parawasm.Prologue
import ParaOS.Machine.Interleaving
import ParaOS.Paraos.Serial
import ParaOS.Paraos.Kernel
import ParaOS.X86.StackDepth
import ParaOS.Parawasm.StackHeight
import ParaOS.Parawasm.Acceptance
import ParaOS.Parawasm.Narrow
import ParaOS.X86.Agreement
import ParaOS.Parawasm.Relocation
import ParaOS.Paraos.Bootboot
import ParaOS.Paraos.Startup
import ParaOS.Paraos.Completion
import ParaOS.Paraos.Leader
import ParaOS.Paraos.TestRunner
import ParaOS.Paraos.TestCompletion
import ParaOS.Paraos.Uart
import ParaOS.Parawasm.Isolation
import ParaOS.X86.Refinement
import ParaOS.Parawasm.Optimisation
import ParaOS.Parawasm.Equivalence
import ParaOS.X86.CallGraph
import ParaOS.Wasm.Calls
import ParaOS.Wasm.StackNeed
import ParaOS.Parawasm.Activation
import ParaOS.Parawasm.Meaning
import ParaOS.Parawasm.Correctness
import ParaOS.Parawasm.Termination
import ParaOS.Parawasm.Standard
import ParaOS.Wasm.Systems
import ParaOS.X86.Linked
import ParaOS.Parawasm.LinkedModules
import ParaOS.Parawasm.Loading
import ParaOS.Machine.Bytes
import ParaOS.ParawasmTests.Emulator
import ParaOS.ParawasmTests.Sessions
