import EvmFlow.Compiler
import EvmFlow.Main
import EvmFlow.Proofs.Execution
import EvmFlow.Proofs.Evm
import EvmFlow.Proofs.Simulation
import EvmFlow.Proofs.FlatMachine
import EvmFlow.Proofs.FlatSimulation
import EvmFlow.Proofs.LiftedStack
import EvmFlow.Proofs.LiftedSimulation
import EvmFlow.Proofs.ConstantStack
import EvmFlow.Proofs.LiftedCode
import EvmFlow.Proofs.DeadInstructions
import EvmFlow.Proofs.Search
import EvmFlow.Proofs.Control
import EvmFlow.Proofs.ControlFlow
import EvmFlow.Proofs.Tracking
import EvmFlow.Proofs.JumpResolution
import EvmFlow.Proofs.BlockLayout
import EvmFlow.Proofs.ControlSoundness
import EvmFlow.Proofs.Incidence
import EvmFlow.Proofs.OrderlyCode
import EvmFlow.Proofs.OrderlyLifting
import EvmFlow.Proofs.ProgramSteps
import EvmFlow.Proofs.PassSuccess
import EvmFlow.Proofs.BlockDiscipline
import EvmFlow.Proofs.ProgramFrame
import EvmFlow.Proofs.DeadCodeFixpoint
import EvmFlow.Proofs.JumpPlacement
import EvmFlow.Proofs.Idempotence
import EvmFlow.Proofs.CodeScan
import EvmFlow.Proofs.BlockRow
import EvmFlow.Proofs.BasicBlocks
import EvmFlow.Proofs.BlockExits
import EvmFlow.Proofs.JumpDestinations
import EvmFlow.Proofs.Calls
import EvmFlow.Proofs.Multigraph
import EvmFlow.Proofs.TableHistory
import EvmFlow.Proofs.CompilerCache
import EvmFlow.Proofs.ConstantSources
import EvmFlow.Proofs.PushConstants
import EvmFlow.Proofs.WordArithmetic
import EvmFlow.Proofs.ClosedCode
import EvmFlow.Proofs.StaticJumps
import EvmFlow.Proofs.MemorySize
import EvmFlow.Proofs.StackEffect
import EvmFlow.Proofs.DepthFirst
import EvmFlow.Proofs.UnreachableBlocks
import EvmFlow.Proofs.NeededCode
import EvmFlow.Proofs.BlockSplitting
import EvmFlow.Proofs.ChangeCounts
import EvmFlow.Proofs.NarrowedTypes
import EvmFlow.Proofs.LiftedTypes
import EvmFlow.Proofs.TruthValues
import EvmFlow.Proofs.SpentOperands
import EvmFlow.Proofs.TypeHints
import EvmFlow.Proofs.WrappedSlots
import EvmFlow.Proofs.LastingTypes
import EvmFlow.Proofs.SharedConstants
import EvmFlow.Proofs.HexGrammar
import EvmFlow.Proofs.TerminatorReach
import EvmFlow.Proofs.BlockOffsets
import EvmFlow.Proofs.Drawing
