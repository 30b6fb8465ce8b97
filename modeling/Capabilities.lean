import Capabilities.Session
import Capabilities.Proofs.Act.FileRuns
import Capabilities.Proofs.Act.KeepCaps
import Capabilities.Proofs.Act.Observation
import Capabilities.Proofs.Act.Readers
import Capabilities.Proofs.Act.Replacement
import Capabilities.Proofs.CapSet.Canonical
import Capabilities.Proofs.CapSet.TextRoundTrip
import Capabilities.Proofs.CapSet.ExternalForm
import Capabilities.Proofs.CapSet.Meaning
import Capabilities.Proofs.CapSet.PackedWriting
import Capabilities.Proofs.Capacity.Inquiry
import Capabilities.Proofs.FileAttribute.Decoding
import Capabilities.Proofs.Inheritance.Meaning
import Capabilities.Proofs.Inheritance.Renewal
import Capabilities.Proofs.Inheritance.Restoration
import Capabilities.Proofs.Inheritance.TextRoundTrip
import Capabilities.Proofs.Inheritance.Withdrawal
import Capabilities.Proofs.Machine.Replay
import Capabilities.Proofs.Mode.Evidence
import Capabilities.Proofs.Mode.Order
import Capabilities.Proofs.Mode.Refusal
import Capabilities.Proofs.Mode.Report
import Capabilities.Proofs.Value.Meaning
import Capabilities.Proofs.Workspace.PackedTuples
import Capabilities.Proofs.Workspace.Refinement
