import TypedBlocks.Compilation.Basic
import TypedBlocks.Typed.Json
import TypedBlocks.Proofs.ArmChoices
import TypedBlocks.Proofs.ElaborationSteps
import TypedBlocks.Proofs.DefinitionTables
import TypedBlocks.Proofs.Operands
import TypedBlocks.Proofs.ExitScope
import TypedBlocks.Proofs.ExitPoints
import TypedBlocks.Proofs.FrameSlots
import TypedBlocks.Proofs.ElaboratedScope
import TypedBlocks.Proofs.CompilationSteps
import TypedBlocks.Proofs.CarriedExits
import TypedBlocks.Proofs.CompiledExits
import TypedBlocks.Proofs.NodeNumbers
import TypedBlocks.Proofs.BlockPlaces
import TypedBlocks.Proofs.CaptureWalk
import TypedBlocks.Proofs.Captures
import TypedBlocks.Proofs.TypeSameness
import TypedBlocks.Proofs.TypeUnions
import TypedBlocks.Proofs.TableGrowth
import TypedBlocks.Proofs.KnownTypes
import TypedBlocks.Proofs.KnownStates
import TypedBlocks.Proofs.ElaboratedTypes
import TypedBlocks.Proofs.TypingRules
import TypedBlocks.Proofs.FixedTables
import TypedBlocks.Proofs.LastPass
import TypedBlocks.Proofs.TypedElaboration
import TypedBlocks.Proofs.SlotVariables
import TypedBlocks.Proofs.AssignedRuns
import TypedBlocks.Proofs.PlainReceivers
import TypedBlocks.Proofs.LiveScopes
import TypedBlocks.Proofs.FilledSlots
import TypedBlocks.Proofs.AssignedCode
import TypedBlocks.Proofs.DefiniteReads
import TypedBlocks.Proofs.ValueTypes
import TypedBlocks.Proofs.ScopeKeys
import TypedBlocks.Proofs.ExitNesting
import TypedBlocks.Proofs.GuardedPasses
import TypedBlocks.Proofs.MergedTypes
import TypedBlocks.Proofs.SentValues
import TypedBlocks.Proofs.ExitTypes
import TypedBlocks.Proofs.TracedExits
import TypedBlocks.Proofs.ExactAnnotations
import TypedBlocks.Proofs.EnteredScopes
import TypedBlocks.Proofs.LaidScopes
import TypedBlocks.Proofs.LaidCode
import TypedBlocks.Proofs.IsolatedBlocks
import TypedBlocks.Proofs.FiniteKinds
import TypedBlocks.Proofs.ProgramVocabulary
import TypedBlocks.Proofs.TableSizes
import TypedBlocks.Proofs.HaltingPasses
import TypedBlocks.Proofs.Convergence
import TypedBlocks.Proofs.Sessions
import TypedBlocks.Proofs.LineEnds
import TypedBlocks.Proofs.CurrentObjects
import TypedBlocks.Proofs.TypeSorts
import TypedBlocks.Proofs.Rearrangements
import TypedBlocks.Proofs.LongerRuns
import TypedBlocks.Proofs.Hoisting
import TypedBlocks.Proofs.FaithfulRuns
import TypedBlocks.Proofs.TotalReading
import TypedBlocks.Proofs.TypeMeanings
import TypedBlocks.Proofs.MergeLaws
import TypedBlocks.Proofs.CompletionLaws
import TypedBlocks.Proofs.UntypedSlots
import TypedBlocks.Proofs.SafePrograms
import TypedBlocks.Proofs.ClassChains
import TypedBlocks.Proofs.Overloads
import TypedBlocks.Proofs.PosingOperands
import TypedBlocks.Proofs.FittingArms
import TypedBlocks.Proofs.Inheritance
import TypedBlocks.Proofs.ComparedPasses
import TypedBlocks.Proofs.ExpansionLimit
import TypedBlocks.Proofs.NodeOrigins
import TypedBlocks.Proofs.Initializers
import TypedBlocks.Proofs.CountedRounds
import TypedBlocks.Proofs.IntegerOperators
import TypedBlocks.Proofs.CountingMethods
import TypedBlocks.Proofs.PreludeMethods
import TypedBlocks.Proofs.PreludeLoops
import TypedBlocks.Proofs.WrappingIntegers
import TypedBlocks.Proofs.TokenCuts
import TypedBlocks.Proofs.TokenLayout
import TypedBlocks.Proofs.RereadTokens
import TypedBlocks.Proofs.TokenOrder
import TypedBlocks.Proofs.ReadSpans
import TypedBlocks.Proofs.BlockSites
import TypedBlocks.Proofs.CellMarks
import TypedBlocks.Proofs.CaptureCells
import TypedBlocks.Proofs.NumberedParts
import TypedBlocks.Proofs.AlikeMessages
import TypedBlocks.Proofs.PrintedOperators
import TypedBlocks.Proofs.OperatorTrees
