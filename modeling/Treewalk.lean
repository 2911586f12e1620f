import Treewalk.Command
import Treewalk.Eval.Call
import Treewalk.Eval.Cast
import Treewalk.Eval.Cell
import Treewalk.Eval.Construct
import Treewalk.Eval.Declare
import Treewalk.Eval.Expr
import Treewalk.Eval.Member
import Treewalk.Eval.Operator
import Treewalk.Eval.Sequence
import Treewalk.Eval.Stmt
import Treewalk.Fault
import Treewalk.Grammar.Declaration
import Treewalk.Grammar.Expression
import Treewalk.Grammar.Parser
import Treewalk.Grammar.Rules
import Treewalk.Grammar.Statement
import Treewalk.Grammar.WrittenType
import Treewalk.Heap.Basic
import Treewalk.Heap.Class
import Treewalk.Heap.Conform
import Treewalk.Heap.Elements
import Treewalk.Heap.Interface
import Treewalk.Heap.Scope
import Treewalk.Machine
import Treewalk.Main
import Treewalk.NameMap
import Treewalk.Number.Parts
import Treewalk.Number.Shortest
import Treewalk.Number.Text
import Treewalk.Number.Whole
import Treewalk.Proofs.Agreement
import Treewalk.Proofs.ArrayElements
import Treewalk.Proofs.ArrayTypes
import Treewalk.Proofs.Assigned
import Treewalk.Proofs.Bindings
import Treewalk.Proofs.Boundary
import Treewalk.Proofs.Casts
import Treewalk.Proofs.CellReads
import Treewalk.Proofs.Chains
import Treewalk.Proofs.ClassMembers
import Treewalk.Proofs.ClassRead
import Treewalk.Proofs.ClassTables
import Treewalk.Proofs.Composition
import Treewalk.Proofs.CompoundAssignment
import Treewalk.Proofs.Conformance
import Treewalk.Proofs.Constants
import Treewalk.Proofs.Construction
import Treewalk.Proofs.Delivery
import Treewalk.Proofs.Detour
import Treewalk.Proofs.DetourRun
import Treewalk.Proofs.DirectAccess
import Treewalk.Proofs.FieldStretch
import Treewalk.Proofs.FieldTypes
import Treewalk.Proofs.ForLoop
import Treewalk.Proofs.Form
import Treewalk.Proofs.Forward
import Treewalk.Proofs.Fuel
import Treewalk.Proofs.Growth
import Treewalk.Proofs.History
import Treewalk.Proofs.Inside
import Treewalk.Proofs.InstanceTypes
import Treewalk.Proofs.Instantiation
import Treewalk.Proofs.IterationScopes
import Treewalk.Proofs.Levels
import Treewalk.Proofs.LevelsKept
import Treewalk.Proofs.LevelsRead
import Treewalk.Proofs.Lineage
import Treewalk.Proofs.LoopClosures
import Treewalk.Proofs.LoopRefinement
import Treewalk.Proofs.Match
import Treewalk.Proofs.MatchCall
import Treewalk.Proofs.MatchDeclare
import Treewalk.Proofs.MatchExpr
import Treewalk.Proofs.MatchMember
import Treewalk.Proofs.MatchStmt
import Treewalk.Proofs.MemberWrites
import Treewalk.Proofs.NewInstances
import Treewalk.Proofs.NullSafeCalls
import Treewalk.Proofs.ObjectTypes
import Treewalk.Proofs.Paired
import Treewalk.Proofs.Parallel
import Treewalk.Proofs.Pervasive
import Treewalk.Proofs.Place
import Treewalk.Proofs.Placement
import Treewalk.Proofs.Precedence
import Treewalk.Proofs.Program
import Treewalk.Proofs.Progress
import Treewalk.Proofs.PropertyCopies
import Treewalk.Proofs.PropertyReads
import Treewalk.Proofs.Reading
import Treewalk.Proofs.Recording
import Treewalk.Proofs.Rejection
import Treewalk.Proofs.Relabel
import Treewalk.Proofs.RelabelMember
import Treewalk.Proofs.RelabelRun
import Treewalk.Proofs.RelabelStmt
import Treewalk.Proofs.ResolvedArrays
import Treewalk.Proofs.Respacing
import Treewalk.Proofs.Rounds
import Treewalk.Proofs.SafeBody
import Treewalk.Proofs.SafeCall
import Treewalk.Proofs.SafeCell
import Treewalk.Proofs.SafeClass
import Treewalk.Proofs.SafeConstruct
import Treewalk.Proofs.SafeDeclare
import Treewalk.Proofs.SafeExpr
import Treewalk.Proofs.SafeMember
import Treewalk.Proofs.SafeStmt
import Treewalk.Proofs.Safety
import Treewalk.Proofs.Scanning
import Treewalk.Proofs.ScopeDistance
import Treewalk.Proofs.ScopeRestored
import Treewalk.Proofs.Seat
import Treewalk.Proofs.Sessions
import Treewalk.Proofs.Settled
import Treewalk.Proofs.Shelves
import Treewalk.Proofs.Signals
import Treewalk.Proofs.SignatureNames
import Treewalk.Proofs.Signatures
import Treewalk.Proofs.StorageTypes
import Treewalk.Proofs.Stretch
import Treewalk.Proofs.SuperAccess
import Treewalk.Proofs.Tasks
import Treewalk.Proofs.TemplateTypes
import Treewalk.Proofs.Tie
import Treewalk.Proofs.Trail
import Treewalk.Proofs.Turns
import Treewalk.Proofs.TypeNames
import Treewalk.Proofs.Unrolling
import Treewalk.Proofs.ValueTexts
import Treewalk.Proofs.WholeText
import Treewalk.Proofs.Words
import Treewalk.Proofs.World
import Treewalk.References
import Treewalk.Run
import Treewalk.Scoping.Numbering
import Treewalk.Scoping.Resolve
import Treewalk.Scoping.Resolver
import Treewalk.Scoping.Scopes
import Treewalk.Session
import Treewalk.Source.Line
import Treewalk.Source.Piece
import Treewalk.Source.Scan
import Treewalk.Source.Token
import Treewalk.Text.Blank
import Treewalk.Tree
import Treewalk.Type.Descriptor
import Treewalk.Type.Modifiers
