import DocIndex.Main
import DocIndex.Proofs.Comment.Account
import DocIndex.Proofs.Comment.Alike
import DocIndex.Proofs.Comment.Nearest
import DocIndex.Proofs.Comment.Partition
import DocIndex.Proofs.Index.Restored
import DocIndex.Proofs.Printed.Scan
import DocIndex.Proofs.Project.History
import DocIndex.Proofs.Project.Commands
import DocIndex.Proofs.Commented.Text
import DocIndex.Proofs.Layout.Braces
import DocIndex.Proofs.Progress.Whole
import DocIndex.Proofs.Rescan.Named
import DocIndex.Proofs.Rescan.Signature
import DocIndex.Proofs.Extent.Spans
import DocIndex.Proofs.Lexing.Lossless
import DocIndex.Proofs.Relaid
import DocIndex.Proofs.Body.Text
import DocIndex.Proofs.Index.Conflicts
import DocIndex.Proofs.Index.Answers
import DocIndex.Proofs.Project.Reconfigured
import DocIndex.Proofs.Comment.Explicit
import DocIndex.Proofs.Scopes.Qualifier
import DocIndex.Proofs.Scopes.Resolved
import DocIndex.Proofs.Defined.Unit
import DocIndex.Proofs.Index.Workers
import DocIndex.Proofs.Project.Walk
import DocIndex.Proofs.Project.Repeated
import DocIndex.Proofs.Comment.Pushback
import DocIndex.Proofs.Source.Position
import DocIndex.Proofs.Layout.Slices
