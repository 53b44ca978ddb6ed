import Downlevel.Json.Options
import Downlevel.Json.Token
import Downlevel.LogFormat
import Downlevel.Printer
import Downlevel.SourceMap.Json
import Downlevel.Tree.Construction
import Downlevel.Proofs.Decoding
import Downlevel.Proofs.Generation
import Downlevel.Proofs.Resolution
import Downlevel.Proofs.Skeleton
import Downlevel.Proofs.Weaving
import Downlevel.Proofs.Captured
import Downlevel.Proofs.Rebinding
import Downlevel.Proofs.Coalescing
import Downlevel.Proofs.CommentLines
import Downlevel.Proofs.GlobalNames
import Downlevel.Tree.Node
import Downlevel.Proofs.Containment
import Downlevel.Proofs.Calls
import Downlevel.Walk
import Downlevel.Proofs.Walking
import Downlevel.Proofs.Erasure
import Downlevel.Proofs.Formatting
import Downlevel.Proofs.Surroundings
import Downlevel.Tree.Relocation
import Downlevel.Proofs.Relocation
import Downlevel.Proofs.SourceLines
import Downlevel.Tree.Part
import Downlevel.Proofs.SourceOrder
import Downlevel.Proofs.Transcript
import Downlevel.Proofs.Occurrences
import Downlevel.Proofs.NestedCapture
import Downlevel.Proofs.LocalNames
import Downlevel.Proofs.Words
import Downlevel.Proofs.WordBreaks
import Downlevel.Proofs.Traversal
import Downlevel.Proofs.QuantityGrammar
import Downlevel.Proofs.LiteralLayout
import Downlevel.Proofs.Commas
import Downlevel.Proofs.StringValues
import Downlevel.Proofs.RegisteredNames
import Downlevel.Proofs.Chains
import Downlevel.Proofs.Replacement
import Downlevel.Proofs.Constructors
import Downlevel.Proofs.Placement
import Downlevel.Proofs.ArgumentLimit
import Downlevel.Proofs.JsonRoundTrip
import Downlevel.Proofs.BlankLines
import Downlevel.Proofs.Sections
import Downlevel.Proofs.WrittenTrees
import Downlevel.Proofs.CommentPlaces
import Downlevel.Proofs.Levels
import Downlevel.Proofs.LineStarts
import Downlevel.Proofs.Margins
import Downlevel.Proofs.Covering
import Downlevel.Proofs.DottedNames
import Downlevel.Proofs.Fragmentation
import Downlevel.Proofs.Interning
