import ThreadLocal.Main
import ThreadLocal.Proofs.Analysis.Boundary
import ThreadLocal.Proofs.Analysis.Exactness
import ThreadLocal.Proofs.CommandLine.Listing
import ThreadLocal.Proofs.Work.Messages
import ThreadLocal.Proofs.Run.Again
import ThreadLocal.Proofs.Run.Escapes
import ThreadLocal.Proofs.Run.Independence
import ThreadLocal.Proofs.Run.Keyword
import ThreadLocal.Proofs.Work.BrokenPipe
import ThreadLocal.Proofs.Edit.Merging
import ThreadLocal.Proofs.Edit.Overlap
import ThreadLocal.Proofs.Edit.Undoing
import ThreadLocal.Proofs.Run.Overlap
import ThreadLocal.Proofs.Run.Rehearsal
import ThreadLocal.Proofs.Analysis.Places
import ThreadLocal.Proofs.Edit.Isolation
import ThreadLocal.Proofs.Text.Longest
import ThreadLocal.Proofs.Work.Session
import ThreadLocal.Proofs.Build.Command
import ThreadLocal.Proofs.Decimal.Value
import ThreadLocal.Proofs.Work.Partition
import ThreadLocal.Proofs.Analysis.Traces
import ThreadLocal.Proofs.Text.Integer
import ThreadLocal.Proofs.Work.Acceptance
import ThreadLocal.Proofs.Build.Includes
import ThreadLocal.Proofs.CommandLine.Sources
import ThreadLocal.Proofs.Analysis.Snapshots
import ThreadLocal.Proofs.Text.Label
