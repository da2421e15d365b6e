import FlowTypes.Main
import FlowTypes.Proofs.ArrowCache
import FlowTypes.Proofs.Precedence
import FlowTypes.Proofs.HeapOperations
import FlowTypes.Proofs.TypeCoverage
import FlowTypes.Proofs.FlowMark
import FlowTypes.Proofs.FailedFiles
import FlowTypes.Proofs.BoundMethods
import FlowTypes.Proofs.CommentLines
import FlowTypes.Proofs.LineEndings
import FlowTypes.Proofs.ReadingEnds
import FlowTypes.Proofs.SpanNesting
import FlowTypes.Proofs.WellFormedTrees
import FlowTypes.Proofs.QuotedText
import FlowTypes.Proofs.TripleQuotes
import FlowTypes.Proofs.PreciseShapes
import FlowTypes.Proofs.TypeText
import FlowTypes.Proofs.Destructuring
import FlowTypes.Proofs.ArgumentBinding
import FlowTypes.Proofs.LinkedImports
import FlowTypes.Proofs.InheritedAttributes
