import MethodCapture.Rehearsal.Command
import MethodCapture.Rehearsal.Guarded
import MethodCapture.Proofs.Session.Course
import MethodCapture.Proofs.Session.Consistency
import MethodCapture.Proofs.Session.Growth
import MethodCapture.Proofs.Session.Races
import MethodCapture.Proofs.Session.Admission
import MethodCapture.Proofs.Session.Rejections
import MethodCapture.Proofs.Session.Reachable
import MethodCapture.Proofs.Session.Naming
import MethodCapture.Proofs.Session.Outcome
import MethodCapture.Proofs.Session.Tracking
import MethodCapture.Proofs.Session.Probes
import MethodCapture.Proofs.Signature.Grammar
import MethodCapture.Proofs.Signature.Decoding
import MethodCapture.Proofs.Signature.Range
import MethodCapture.Proofs.Signature.Truncation
import MethodCapture.Proofs.Slot.Excerpt
import MethodCapture.Proofs.Surface.Guard
import MethodCapture.Proofs.Session.Effects
import MethodCapture.Proofs.Session.Evolution
import MethodCapture.Proofs.Session.Faults
import MethodCapture.Proofs.Method.Resolution
import MethodCapture.Proofs.Session.Instrumentation
import MethodCapture.Proofs.Session.Shutdown
import MethodCapture.Proofs.Session.Changes
import MethodCapture.Proofs.Session.Permits
import MethodCapture.Proofs.Session.Lifecycle
import MethodCapture.Proofs.Session.Limits
import MethodCapture.Proofs.Session.Indifference
import MethodCapture.Proofs.Session.LateAdmission
import MethodCapture.Proofs.Session.Failures
import MethodCapture.Proofs.Session.Denials
import MethodCapture.Proofs.Session.FaultWindow
import MethodCapture.Proofs.Signature.Lifting
import MethodCapture.Proofs.Signature.Progress
import MethodCapture.Proofs.Signature.Nesting
import MethodCapture.Proofs.Signature.Number
import MethodCapture.Proofs.Signature.Queries
