import Quill.Command.Run
import Quill.Main
import Quill.Proofs.BodyLowering
import Quill.Proofs.CanonicalScope
import Quill.Proofs.CanonicalType
import Quill.Proofs.Checking
import Quill.Proofs.Course
import Quill.Proofs.Complete
import Quill.Proofs.CompleteBody
import Quill.Proofs.LoweringLaw
import Quill.Proofs.CompleteLowering
import Quill.Proofs.RangeCounters
import Quill.Proofs.CountingLoop
import Quill.Proofs.TokenLocality
import Quill.Proofs.Unrolling
import Quill.Proofs.TokenProgress
import Quill.Proofs.CompletePackage
import Quill.Proofs.Declared
import Quill.Proofs.GraphOrder
import Quill.Proofs.MarkedOrder
import Quill.Proofs.InstanceCalls
import Quill.Proofs.NormalPath
import Quill.Proofs.Confinement
import Quill.Proofs.InstanceNames
import Quill.Proofs.Layout
import Quill.Proofs.ReadIdentity
import Quill.Proofs.Sight
import Quill.Proofs.SteadyTypes
import Quill.Proofs.Tiling
import Quill.Proofs.TreeIdentity
import Quill.Proofs.TypingLaw
import Quill.Proofs.TypingWalk
import Quill.Proofs.Written
import Quill.Proofs.SurveyLaw
import Quill.Proofs.LayoutLowering
import Quill.Proofs.NameCapture
import Quill.Proofs.LocalBinding
import Quill.Proofs.DeclTypes
import Quill.Proofs.FileSections
import Quill.Proofs.LocalNames
import Quill.Proofs.ClosedTypes
import Quill.Proofs.TypeEquality
import Quill.Proofs.BucketIndependence
import Quill.Proofs.StructCycles
import Quill.Proofs.Reporting
import Quill.Proofs.TextPlaces
import Quill.Proofs.Arranged
import Quill.Proofs.OutputFiles
import Quill.Proofs.JoinedNames
import Quill.Proofs.Entities
import Quill.Proofs.IdRange
import Quill.Proofs.TableAccess
import Quill.Proofs.EntityNames
import Quill.Proofs.StaticScoping
import Quill.Proofs.PointerMutability
import Quill.Proofs.TokenSpacing
import Quill.Proofs.MessageFormat
import Quill.Proofs.RequiredStructs
import Quill.Proofs.TokenForm
import Quill.Proofs.TypeText
import Quill.Proofs.WellPlaced
import Quill.Proofs.EntryPackage
import Quill.Proofs.WholeLiterals
import Quill.Proofs.Substitution
import Quill.Proofs.Declarators
import Quill.Proofs.SizeofReadings
import Quill.Proofs.ElementLoop
import Quill.Proofs.DeclarationOrder
import Quill.Proofs.VariableOrder
import Quill.Proofs.DirectiveSource
