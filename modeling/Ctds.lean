import Ctds.Lib.Decimal
import Ctds.Lib.Fallible
import Ctds.Lib.LinkedCells
import Ctds.Lib.Transition
import Ctds.Lib.Word
import Ctds.Lib.Placed
import Ctds.Lib.FirstSeen
import Ctds.Lib.ScopeStack
import Ctds.Lib.Signed
import Ctds.Lib.NameReuse
import Ctds.Lib.ReadOnce
import Ctds.Lib.Intervals
import Ctds.Symbol
import Ctds.ErrorHandling
import Ctds.SymbolTable
import Ctds.Ast
import Ctds.Grammar
import Ctds.Parser
import Ctds.SemanticAnalyzer
import Ctds.IntermediateCode
import Ctds.Optimization
import Ctds.Assembly
import Ctds.ObjectCode
import Ctds.Main
import Ctds.Shape
import Ctds.Scopes
import Ctds.TableStack
import Ctds.TableRuns
import Ctds.ParserSpec
import Ctds.Lexical
import Ctds.LexicalSpec
import Ctds.Redeclaration
import Ctds.Checker
import Ctds.CheckerSpec
import Ctds.TopLevel
import Ctds.MissingReturn
import Ctds.VerdictIndependence
import Ctds.OptVerdict
import Ctds.Source
import Ctds.DeadBranches
import Ctds.Codegen
import Ctds.Accepted
import Ctds.IrSemantics
import Ctds.Machine
import Ctds.SlotMap
import Ctds.MethodCode
import Ctds.Emitted
import Ctds.ProgramCode
import Ctds.Labels
import Ctds.NameTable
import Ctds.Temporaries
import Ctds.MemoryOptimization
import Ctds.Lowering
import Ctds.AsmRuns
import Ctds.Frame
import Ctds.CallingConvention
import Ctds.Shadowing
import Ctds.Simulation
import Ctds.TypedRuns
import Ctds.Preservation
import Ctds.Typing
import Ctds.Visited
import Ctds.Constants
import Ctds.ConstantFolding
import Ctds.FoldingFaults
import Ctds.VoidValues
import Ctds.MethodLeaves
import Ctds.Division
import Ctds.LiteralDivision
import Ctds.StackEffect
import Ctds.Activations
import Ctds.GlobalVariables
import Ctds.CallArguments
import Ctds.StackAlignment
import Ctds.JumpTargets
import Ctds.NullNodes
import Ctds.MethodScopes
import Ctds.SingleAssignment
import Ctds.Bookkeeping
import Ctds.TableSizes
import Ctds.TemporaryReuse
import Ctds.Shortcuts
import Ctds.ShortcutRuns
import Ctds.LexPatterns
import Ctds.IntegerLiterals
import Ctds.Lib.Answers
import Ctds.Meaning
import Ctds.MeaningRuns
import Ctds.Runtime
import Ctds.MethodRuns
import Ctds.Traces
import Ctds.CodeMeaning
import Ctds.ProgramRuns
import Ctds.RewriteMeaning
import Ctds.EndToEnd
import Ctds.Lib.Scanner
import Ctds.Lib.Precedence
import Ctds.Lexer
import Ctds.Lexemes
import Ctds.Terminals
import Ctds.Reader
import Ctds.ProgramReader
import Ctds.SourceText
import Ctds.Lib.Reasons
import Ctds.Faults
import Ctds.TypeSoundness
